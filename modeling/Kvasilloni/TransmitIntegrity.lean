import Kvasilloni.Transmit
import Kvasilloni.Library.LockOwner

/-!
What a peer finds in the stream. The tx lock serializes the writes, and a write that
fails part-way shuts the socket down before it releases the lock, so behind the whole
frames there is at most one that is cut short. No frame of the grammar begins there.
-/
namespace Kvasilloni.TransmitIntegrity

open CheckedMemory SelfDelimiting LockOwner Frames Grammar Streams Marshal EndToEnd Transmit

variable {W C : Type}

/-- The frames whose write has returned successfully. -/
def succeeded (s : Link W C) : List Frame :=
  (s.done.filter fun p => p.2).map Prod.fst

/-- The frame of the write that holds the tx lock. -/
def inFlight (s : Link W C) : List Frame :=
  match s.txOwner with
  | none => []
  | some w => (s.writers w).held.toList

/-- The frame of a write whose last byte the socket has accepted, and which can only
return successfully. -/
def completed (s : Link W C) : List Frame :=
  match s.txOwner with
  | none => []
  | some w =>
    match s.writers w with
    | .sending f buf n => if n = buf.length then [f] else []
    | _ => []

/-- Some bytes of the image, but not all of them. -/
def ProperPrefix (tail image : Bytes) : Prop := tail <+: image ∧ tail ≠ image

/-- The stream ends in a failed frame, and the socket is shut down. -/
def Cut (s : Link W C) (tail : Bytes) : Prop :=
  s.shut = true ∧ ∃ f, (f, false) ∈ s.done ∧ ProperPrefix tail (wireImage f)

/-- The bytes behind the whole frames, while a write holds the lock. -/
def TailAt (s : Link W C) (tail : Bytes) : WriterPc → Prop
  | .encoding _ => tail = [] ∨ Cut s tail
  | .sending _ buf n => tail = buf.take n ∨ n = 0 ∧ Cut s tail
  | .failing f _ => ProperPrefix tail (wireImage f) ∨ Cut s tail
  | .failed f => s.shut = true ∧ ProperPrefix tail (wireImage f) ∨ Cut s tail
  | .idle | .ready _ | .locking _ => False

/-- The bytes behind the whole frames. -/
structure Tail (s : Link W C) (tail : Bytes) : Prop where
  free : s.txOwner = none → tail = [] ∨ Cut s tail
  held : ∀ w, s.txOwner = some w → TailAt s tail (s.writers w)

/-- What a writer carries: frames that were built, and their images. -/
def Carries : WriterPc → Prop
  | .idle => True
  | .ready f => Canonical f
  | .locking f => Canonical f
  | .encoding f => Canonical f
  | .sending f buf n => Canonical f ∧ buf = wireImage f ∧ n ≤ buf.length
  | .failing f _ => Canonical f
  | .failed f => Canonical f

structure Inv (s : Link W C) : Prop where
  exclusive : ∀ w, (s.writers w).held.isSome = true ↔ s.txOwner = some w
  carried : ∀ w, Carries (s.writers w)
  built : ∀ p ∈ s.done, Canonical p.1
  order : s.taken = s.done.map Prod.fst ++ inFlight s
  bytes : ∃ tail, s.sent = connectV1 ++ (succeeded s).flatMap wireImage ++ tail ∧ Tail s tail

theorem connect_inv {received : Bytes} {s : Link W C} (h : connect W C received = some s) :
    Inv s := by
  obtain ⟨banner, hbanner, rfl⟩ := Option.map_eq_some_iff.mp h
  have hsent : banner = connectV1 := by
    unfold handshake at hbanner
    split at hbanner
    · exact (Option.some.inj hbanner).symm
    · cases hbanner
  refine ⟨fun w => ?_, fun w => trivial, fun p hp => absurd hp List.not_mem_nil, rfl,
    [], ?_, fun _ => Or.inl rfl, fun w hw => ?_⟩
  · simp [WriterPc.held]
  · simp [hsent, succeeded]
  · cases hw

/-- What the closing parties and the RX thread do leaves the stream alone. -/
structure Outside (s t : Link W C) : Prop where
  sent : t.sent = s.sent
  txOwner : t.txOwner = s.txOwner
  writers : t.writers = s.writers
  taken : t.taken = s.taken
  done : t.done = s.done
  shut : s.shut = true → t.shut = true

theorem Outside.inv {s t : Link W C} (hout : Outside s t) (h : Inv s) : Inv t := by
  obtain ⟨hsent, howner, hwriters, htaken, hdone, hshut⟩ := hout
  have hcut : ∀ tail, Cut s tail → Cut t tail := by
    intro tail hcut
    obtain ⟨hs, f, hf, hp⟩ := hcut
    exact ⟨hshut hs, f, hdone ▸ hf, hp⟩
  have hat : ∀ tail pc, TailAt s tail pc → TailAt t tail pc := by
    intro tail pc hpc
    cases pc with
    | encoding f => exact hpc.imp_right (hcut tail)
    | sending f buf n => exact hpc.imp_right fun hc => ⟨hc.1, hcut tail hc.2⟩
    | failing f stage => exact hpc.imp_right (hcut tail)
    | failed f => exact hpc.imp (fun hp => ⟨hshut hp.1, hp.2⟩) (hcut tail)
    | idle | ready f | locking f => exact hpc
  refine ⟨?_, ?_, ?_, ?_, ?_⟩
  · rw [howner, hwriters]
    exact h.exclusive
  · rw [hwriters]
    exact h.carried
  · rw [hdone]
    exact h.built
  · simp only [inFlight, howner, hwriters, hdone, htaken]
    exact h.order
  · obtain ⟨tail, hbytes, htail⟩ := h.bytes
    refine ⟨tail, ?_, ?_, ?_⟩
    · simpa only [succeeded, hdone, hsent] using hbytes
    · rw [howner]
      exact fun hfree => (htail.free hfree).imp_right (hcut tail)
    · rw [howner, hwriters]
      exact fun w hw => hat tail _ (htail.held w hw)

/-- What the holder of the lock has behind it. -/
theorem Inv.held_bytes {s : Link W C} (h : Inv s) {w : W}
    (hheld : (s.writers w).held.isSome = true) :
    s.txOwner = some w ∧ ∃ tail, s.sent = connectV1 ++ (succeeded s).flatMap wireImage ++ tail ∧
      TailAt s tail (s.writers w) := by
  have hw := (h.exclusive w).mp hheld
  obtain ⟨tail, hsent, htail⟩ := h.bytes
  exact ⟨hw, tail, hsent, htail.held w hw⟩

theorem succeeded_append (s t : Link W C) (f : Frame) (ok : Bool)
    (hdone : t.done = s.done ++ [(f, ok)]) :
    succeeded t = succeeded s ++ if ok then [f] else [] := by
  cases ok <;> simp [succeeded, hdone]

theorem Cut.finish {s t : Link W C} {tail : Bytes} (h : Cut s tail) {p : Frame × Bool}
    (hshut : t.shut = s.shut) (hdone : t.done = s.done ++ [p]) : Cut t tail := by
  obtain ⟨hs, f, hf, hprefix⟩ := h
  exact ⟨hshut.trans hs, f, hdone ▸ List.mem_append_left _ hf, hprefix⟩

theorem properPrefix_take {image : Bytes} {n : ℕ} (h : n < image.length) :
    ProperPrefix (image.take n) image := by
  refine ⟨List.take_prefix n image, fun heq => ?_⟩
  have hlen := congrArg List.length heq
  rw [List.length_take] at hlen
  omega

/-- The frame that a tail is cut from: it failed, or its write is still under way. -/
def CutFrom (s : Link W C) (f : Frame) : Prop := (f, false) ∈ s.done ∨ f ∈ inFlight s

theorem Inv.cut_canonical {s : Link W C} (h : Inv s) {f : Frame} (hf : CutFrom s f) :
    Canonical f := by
  rcases hf with hf | hf
  · exact h.built _ hf
  · unfold inFlight at hf
    cases htx : s.txOwner with
    | none =>
      rw [htx] at hf
      exact absurd hf List.not_mem_nil
    | some w =>
      rw [htx] at hf
      have hcarried := h.carried w
      cases hpc : s.writers w <;> simp only [hpc, WriterPc.held, Option.toList_some,
        Option.toList_none, List.mem_singleton, List.not_mem_nil] at hf hcarried
      all_goals subst hf
      · exact hcarried
      · exact hcarried.1
      · exact hcarried
      · exact hcarried

/-- The whole frames in the stream, and what stands behind them. -/
theorem Inv.stream {s : Link W C} (h : Inv s) :
    ∃ tail, s.sent = connectV1 ++ (succeeded s ++ completed s).flatMap wireImage ++ tail ∧
      (tail = [] ∨ ∃ f, CutFrom s f ∧ ProperPrefix tail (wireImage f)) ∧
      (tail ≠ [] → s.txOwner = none → s.shut = true) := by
  obtain ⟨tail, hsent, htail⟩ := h.bytes
  have hcut : Cut s tail → tail = [] ∨ ∃ f, CutFrom s f ∧ ProperPrefix tail (wireImage f) := by
    intro hcut
    obtain ⟨-, f, hf, hp⟩ := hcut
    exact Or.inr ⟨f, Or.inl hf, hp⟩
  cases htx : s.txOwner with
  | none =>
    have hcompleted : completed s = [] := by simp only [completed, htx]
    rw [hcompleted, List.append_nil]
    have hfree := htail.free htx
    refine ⟨tail, hsent, ?_, fun hne _ => ?_⟩
    · rcases hfree with hnil | hc
      · exact Or.inl hnil
      · exact hcut hc
    · rcases hfree with hnil | hc
      · exact absurd hnil hne
      · exact hc.1
  | some w =>
    have hheld := htail.held w htx
    have hcarried := h.carried w
    have hbusy : ∀ bytes : Bytes, bytes ≠ [] → some w = none → s.shut = true := by
      intro _ _ hnone
      cases hnone
    cases hpc : s.writers w with
    | sending f buf n =>
      rw [hpc] at hheld hcarried
      obtain ⟨-, hbuf, hle⟩ := hcarried
      have hflight : inFlight s = [f] := by simp [inFlight, htx, hpc, WriterPc.held]
      by_cases hall : n = buf.length
      · have hcompleted : completed s = [f] := by simp [completed, htx, hpc, hall]
        have hpos := wireImage_length_ge f
        have hwhole : tail = wireImage f := by
          rcases hheld with htake | ⟨hzero, -⟩
          · rw [htake, hall, List.take_length, hbuf]
          · rw [hbuf] at hall
            omega
        refine ⟨[], ?_, Or.inl rfl, fun hne => absurd rfl hne⟩
        rw [hsent, hwhole, hcompleted]
        simp
      · have hcompleted : completed s = [] := by simp [completed, htx, hpc, hall]
        rw [hcompleted, List.append_nil]
        refine ⟨tail, hsent, ?_, hbusy tail⟩
        rcases hheld with htake | ⟨-, hc⟩
        · refine Or.inr ⟨f, Or.inr (by simp [hflight]), ?_⟩
          rw [hbuf] at hle hall
          rw [htake, hbuf]
          exact properPrefix_take (by omega)
        · exact hcut hc
    | encoding f =>
      rw [hpc] at hheld
      have hcompleted : completed s = [] := by simp [completed, htx, hpc]
      rw [hcompleted, List.append_nil]
      refine ⟨tail, hsent, ?_, hbusy tail⟩
      rcases hheld with hnil | hc
      · exact Or.inl hnil
      · exact hcut hc
    | failing f stage =>
      rw [hpc] at hheld
      have hcompleted : completed s = [] := by simp [completed, htx, hpc]
      have hflight : inFlight s = [f] := by simp [inFlight, htx, hpc, WriterPc.held]
      rw [hcompleted, List.append_nil]
      refine ⟨tail, hsent, ?_, hbusy tail⟩
      rcases hheld with hp | hc
      · exact Or.inr ⟨f, Or.inr (by simp [hflight]), hp⟩
      · exact hcut hc
    | failed f =>
      rw [hpc] at hheld
      have hcompleted : completed s = [] := by simp [completed, htx, hpc]
      have hflight : inFlight s = [f] := by simp [inFlight, htx, hpc, WriterPc.held]
      rw [hcompleted, List.append_nil]
      refine ⟨tail, hsent, ?_, hbusy tail⟩
      rcases hheld with ⟨-, hp⟩ | hc
      · exact Or.inr ⟨f, Or.inr (by simp [hflight]), hp⟩
      · exact hcut hc
    | idle | ready f | locking f =>
      rw [hpc] at hheld
      exact hheld.elim

theorem Inv.whole_canonical {s : Link W C} (h : Inv s) :
    ∀ f ∈ succeeded s ++ completed s, Canonical f := by
  intro f hf
  rcases List.mem_append.mp hf with hf | hf
  · obtain ⟨p, hp, rfl⟩ := List.mem_map.mp hf
    exact h.built p (List.mem_of_mem_filter hp)
  · unfold completed at hf
    split at hf
    · exact absurd hf List.not_mem_nil
    · rename_i w htx
      split at hf
      · rename_i g buf n hpc
        have hcarried := h.carried w
        rw [hpc] at hcarried
        split at hf
        · rw [List.mem_singleton.mp hf]
          exact hcarried.1
        · exact absurd hf List.not_mem_nil
      · exact absurd hf List.not_mem_nil

variable [DecidableEq W]

theorem carries_update {writers : W → WriterPc} (h : ∀ v, Carries (writers v)) {w : W}
    {pc : WriterPc} (hpc : Carries pc) (v : W) : Carries (Function.update writers w pc v) := by
  by_cases hv : v = w
  · subst hv
    rw [Function.update_self]
    exact hpc
  · rw [Function.update_of_ne hv]
    exact h v

/-- A writer that does not hold the lock moves on without taking it. -/
theorem setWriter_inv {s : Link W C} (h : Inv s) (w : W) (pc : WriterPc)
    (hfree : (s.writers w).held = none) (hpc : pc.held = none)
    (hcarries : Carries pc) : Inv (setWriter s w pc) := by
  have howner : s.txOwner ≠ some w := by
    intro hw
    have hholds := (h.exclusive w).mpr hw
    rw [hfree] at hholds
    cases hholds
  have hother : ∀ v, s.txOwner = some v → (setWriter s w pc).writers v = s.writers v := by
    intro v hv
    have hne : v ≠ w := by
      intro hvw
      rw [hvw] at hv
      exact howner hv
    exact Function.update_of_ne hne _ _
  refine ⟨Tracks.keep h.exclusive fun v => ?_, carries_update h.carried hcarries, h.built,
    ?_, ?_⟩
  · by_cases hv : v = w
    · subst hv
      simp only [setWriter, Function.update_self, hpc, hfree]
    · simp only [setWriter, Function.update_of_ne hv]
  · have hflight : inFlight (setWriter s w pc) = inFlight s := by
      unfold inFlight
      change (match s.txOwner with | none => _ | some v => _) = _
      cases htx : s.txOwner with
      | none => rfl
      | some v => simp only [hother v htx]
    rw [hflight]
    exact h.order
  · obtain ⟨tail, hsent, htail⟩ := h.bytes
    refine ⟨tail, hsent, htail.free, fun v hv => ?_⟩
    rw [hother v hv]
    have hheld := htail.held v hv
    cases hpcv : s.writers v <;> rw [hpcv] at hheld <;> exact hheld

/-- The holder of the lock moves on with its frame. -/
theorem holder_inv {s t : Link W C} (h : Inv s) {w : W} {pc : WriterPc}
    (hw : s.txOwner = some w) (howner : t.txOwner = s.txOwner)
    (hwriters : t.writers = Function.update s.writers w pc)
    (hframe : pc.held = (s.writers w).held) (hcarries : Carries pc)
    (htaken : t.taken = s.taken) (hdone : t.done = s.done)
    (hbytes : ∃ tail, t.sent = connectV1 ++ (succeeded s).flatMap wireImage ++ tail ∧
      TailAt t tail pc) : Inv t := by
  have hself : t.writers w = pc := by rw [hwriters, Function.update_self]
  have hother : ∀ v, v ≠ w → t.writers v = s.writers v := by
    intro v hv
    rw [hwriters, Function.update_of_ne hv]
  refine ⟨?_, fun v => ?_, ?_, ?_, ?_⟩
  · rw [howner]
    apply Tracks.keep h.exclusive
    intro v
    by_cases hv : v = w
    · subst hv
      rw [hself, hframe]
    · rw [hother v hv]
  · rw [hwriters]
    exact carries_update h.carried hcarries v
  · rw [hdone]
    exact h.built
  · have hflight : inFlight t = inFlight s := by
      simp only [inFlight, howner, hw, hself, hframe]
    rw [hflight, htaken, hdone]
    exact h.order
  · obtain ⟨tail, hsent, htail⟩ := hbytes
    refine ⟨tail, ?_, fun hfree => ?_, fun v hv => ?_⟩
    · simpa only [succeeded, hdone] using hsent
    · rw [howner, hw] at hfree
      cases hfree
    · rw [howner, hw] at hv
      obtain rfl := Option.some.inj hv
      rw [hself]
      exact htail

/-- A write returns and releases the lock. -/
theorem finish_inv {s t : Link W C} (h : Inv s) {w : W} {f : Frame} {ok : Bool}
    (hframe : (s.writers w).held = some f) (hcan : Canonical f)
    (howner : t.txOwner = none) (hwriters : t.writers = Function.update s.writers w .idle)
    (htaken : t.taken = s.taken) (hdone : t.done = s.done ++ [(f, ok)])
    (hbytes : ∃ tail, t.sent = connectV1 ++ (succeeded t).flatMap wireImage ++ tail ∧
      (tail = [] ∨ Cut t tail)) : Inv t := by
  have hw : s.txOwner = some w := (h.exclusive w).mp (by rw [hframe]; rfl)
  have hself : t.writers w = .idle := by rw [hwriters, Function.update_self]
  have hother : ∀ v, v ≠ w → t.writers v = s.writers v := by
    intro v hv
    rw [hwriters, Function.update_of_ne hv]
  refine ⟨?_, fun v => ?_, ?_, ?_, ?_⟩
  · have htracks : Tracks (fun v => (s.writers v).held.isSome = true) (some w) := hw ▸ h.exclusive
    rw [howner]
    apply htracks.release
    · simp [hself, WriterPc.held]
    · intro v hv
      rw [hother v hv]
  · rw [hwriters]
    have hidle : Carries .idle := trivial
    exact carries_update h.carried hidle v
  · intro p hp
    rw [hdone] at hp
    rcases List.mem_append.mp hp with hp | hp
    · exact h.built p hp
    · rw [List.mem_singleton.mp hp]
      exact hcan
  · have hflight : inFlight s = [f] := by simp [inFlight, hw, hframe]
    have horder := h.order
    rw [hflight] at horder
    rw [htaken, horder, hdone]
    simp [inFlight, howner]
  · obtain ⟨tail, hsent, htail⟩ := hbytes
    refine ⟨tail, hsent, fun _ => htail, fun v hv => ?_⟩
    rw [howner] at hv
    cases hv

theorem locking_inv {s : Link W C} (h : Inv s) {w : W} {f : Frame}
    (hpc : s.writers w = .locking f) (hfree : s.txOwner = none) :
    Inv { setWriter s w (.encoding f) with txOwner := some w, taken := s.taken ++ [f] } := by
  have hcan : Canonical f := by
    have hcarried := h.carried w
    rwa [hpc] at hcarried
  have htracks : Tracks (fun v => (s.writers v).held.isSome = true) none := hfree ▸ h.exclusive
  refine ⟨htracks.acquire ?_ fun v hv => ?_, carries_update h.carried hcan, h.built, ?_, ?_⟩
  · simp [setWriter, WriterPc.held]
  · simp only [setWriter, Function.update_of_ne hv]
  · have horder := h.order
    simp only [inFlight, hfree, List.append_nil] at horder
    simp [inFlight, setWriter, WriterPc.held, horder]
  · obtain ⟨tail, hsent, htail⟩ := h.bytes
    refine ⟨tail, hsent, fun hnone => (by cases hnone), fun v hv => ?_⟩
    obtain rfl := Option.some.inj hv
    simp only [setWriter, Function.update_self]
    exact htail.free hfree

theorem writerGo_inv {s t : Link W C} (h : Inv s) {w : W}
    (hstep : writerGo s w (s.writers w) = some t) : Inv t := by
  have hcarried := h.carried w
  cases hpc : s.writers w with
  | idle =>
    rw [hpc] at hstep
    cases hstep
  | ready f =>
    rw [hpc] at hstep hcarried
    simp only [writerGo] at hstep
    split at hstep
    · obtain rfl := Option.some.inj hstep
      exact setWriter_inv h w _ (by rw [hpc]; rfl) rfl hcarried
    · obtain rfl := Option.some.inj hstep
      exact setWriter_inv h w _ (by rw [hpc]; rfl) rfl trivial
  | locking f =>
    rw [hpc] at hstep
    simp only [writerGo] at hstep
    split at hstep
    · cases hstep
    · rename_i hfree
      split at hstep
      · obtain rfl := Option.some.inj hstep
        exact setWriter_inv h w _ (by rw [hpc]; rfl) rfl trivial
      · obtain rfl := Option.some.inj hstep
        exact locking_inv h hpc (by simpa using hfree)
  | encoding f =>
    obtain ⟨hw, tail, hsent, htail⟩ := h.held_bytes (by rw [hpc]; rfl)
    rw [hpc] at hstep hcarried htail
    have hcan : Canonical f := hcarried
    simp only [writerGo, encodeFrame_eq [] f hcan.len_le_max, List.nil_append] at hstep
    obtain rfl := Option.some.inj hstep
    refine holder_inv h hw rfl rfl (by rw [hpc]; rfl) ⟨hcan, rfl, Nat.zero_le _⟩ rfl rfl
      ⟨tail, hsent, ?_⟩
    rcases htail with hnil | hcut
    · exact Or.inl hnil
    · exact Or.inr ⟨rfl, hcut⟩
  | sending f buf n =>
    obtain ⟨hw, tail, hsent, htail⟩ := h.held_bytes (by rw [hpc]; rfl)
    rw [hpc] at hstep hcarried htail
    obtain ⟨hcan, hbuf, hle⟩ := hcarried
    simp only [writerGo] at hstep
    split at hstep
    · rename_i hall
      obtain rfl := Option.some.inj hstep
      have hpos : 0 < buf.length := by
        rw [hbuf]
        have := wireImage_length_ge f
        omega
      have hwhole : tail = wireImage f := by
        rcases htail with htake | ⟨hzero, -⟩
        · rw [htake, hall, List.take_length, hbuf]
        · omega
      refine finish_inv h (by rw [hpc]; rfl) hcan rfl rfl rfl rfl ⟨[], ?_, Or.inl rfl⟩
      rw [succeeded_append s _ f true rfl]
      change s.sent = _
      rw [hsent, hwhole]
      simp
    · cases hstep
  | failing f stage =>
    obtain ⟨hw, tail, hsent, htail⟩ := h.held_bytes (by rw [hpc]; rfl)
    rw [hpc] at hstep hcarried htail
    cases stage with
    | negotiated | running =>
      obtain rfl := Option.some.inj hstep
      exact holder_inv h hw rfl rfl (by rw [hpc]; rfl) hcarried rfl rfl ⟨tail, hsent, htail⟩
    | shutdown =>
      obtain rfl := Option.some.inj hstep
      refine holder_inv h hw rfl rfl (by rw [hpc]; rfl) hcarried rfl rfl ⟨tail, hsent, ?_⟩
      rcases htail with hprefix | hcut
      · exact Or.inl ⟨rfl, hprefix⟩
      · exact Or.inr ⟨rfl, hcut.2⟩
  | failed f =>
    obtain ⟨hw, tail, hsent, htail⟩ := h.held_bytes (by rw [hpc]; rfl)
    rw [hpc] at hstep hcarried htail
    obtain rfl := Option.some.inj hstep
    refine finish_inv h (by rw [hpc]; rfl) hcarried rfl rfl rfl rfl ⟨tail, ?_, Or.inr ?_⟩
    · rw [succeeded_append s _ f false rfl]
      change s.sent = _
      simpa using hsent
    · rcases htail with ⟨hshut, hprefix⟩ | hcut
      · exact ⟨hshut, f, List.mem_append_right _ (List.mem_singleton.mpr rfl), hprefix⟩
      · exact hcut.finish rfl rfl

theorem send_inv {s t : Link W C} (h : Inv s) {w : W} {k : ℕ}
    (hstep : send s w k (s.writers w) = some t) : Inv t := by
  have hcarried := h.carried w
  cases hpc : s.writers w with
  | sending f buf n =>
    obtain ⟨hw, tail, hsent, htail⟩ := h.held_bytes (by rw [hpc]; rfl)
    rw [hpc] at hstep hcarried htail
    obtain ⟨hcan, hbuf, -⟩ := hcarried
    simp only [send] at hstep
    split at hstep
    · rename_i hguard
      obtain ⟨-, hfits, hopen⟩ := hguard
      obtain rfl := Option.some.inj hstep
      refine holder_inv h hw rfl rfl (by rw [hpc]; rfl) ⟨hcan, hbuf, hfits⟩ rfl rfl
        ⟨buf.take (n + k), ?_, Or.inl rfl⟩
      rcases htail with htake | ⟨-, hshut, -⟩
      · change s.sent ++ _ = _
        rw [hsent, htake, List.append_assoc, ← List.take_add]
      · rw [hopen] at hshut
        cases hshut
    · cases hstep
  | idle | ready f | locking f | encoding f | failing f stage | failed f =>
    rw [hpc] at hstep
    cases hstep

theorem sendFail_inv {s t : Link W C} (h : Inv s) {w : W}
    (hstep : sendFail s w (s.writers w) = some t) : Inv t := by
  have hcarried := h.carried w
  cases hpc : s.writers w with
  | sending f buf n =>
    obtain ⟨hw, tail, hsent, htail⟩ := h.held_bytes (by rw [hpc]; rfl)
    rw [hpc] at hstep hcarried htail
    obtain ⟨hcan, hbuf, -⟩ := hcarried
    simp only [sendFail] at hstep
    split at hstep
    · rename_i hlt
      obtain rfl := Option.some.inj hstep
      refine holder_inv h hw rfl rfl (by rw [hpc]; rfl) hcan rfl rfl ⟨tail, hsent, ?_⟩
      rcases htail with htake | ⟨-, hcut⟩
      · left
        rw [htake, hbuf]
        exact properPrefix_take (hbuf ▸ hlt)
      · exact Or.inr hcut
    · cases hstep
  | idle | ready f | locking f | encoding f | failing f stage | failed f =>
    rw [hpc] at hstep
    cases hstep

def byWriter : Label W C → Bool
  | .canWrite _ _ _ _ _ | .write _ | .send _ _ | .sendFail _ => true
  | .canClose _ | .drop _ | .close _ | .rx => false

theorem step_outside [DecidableEq C] {s t : Link W C} {l : Label W C}
    (hl : byWriter l = false) (hstep : step s l = some t) : Outside s t := by
  cases l with
  | canWrite | write | send | sendFail => cases hl
  | canClose c | drop c =>
    simp only [step] at hstep
    split at hstep
    · obtain rfl := Option.some.inj hstep
      exact ⟨rfl, rfl, rfl, rfl, rfl, id⟩
    · cases hstep
  | close c =>
    simp only [step] at hstep
    cases hpc : s.closers c with
    | idle =>
      rw [hpc] at hstep
      cases hstep
    | running | negotiated =>
      rw [hpc] at hstep
      obtain rfl := Option.some.inj hstep
      exact ⟨rfl, rfl, rfl, rfl, rfl, id⟩
    | shutdown =>
      rw [hpc] at hstep
      obtain rfl := Option.some.inj hstep
      exact ⟨rfl, rfl, rfl, rfl, rfl, fun _ => rfl⟩
  | rx =>
    simp only [step, rxGo] at hstep
    split at hstep
    · obtain rfl := Option.some.inj hstep
      exact ⟨rfl, rfl, rfl, rfl, rfl, id⟩
    · split at hstep <;> obtain rfl := Option.some.inj hstep <;>
        exact ⟨rfl, rfl, rfl, rfl, rfl, id⟩
    · obtain rfl := Option.some.inj hstep
      exact ⟨rfl, rfl, rfl, rfl, rfl, id⟩
    · cases hstep

theorem step_inv {s t : Link W C} [DecidableEq C] (h : Inv s) {l : Label W C}
    (hstep : step s l = some t) : Inv t := by
  cases l with
  | canWrite w id msg dlc flag =>
    simp only [step] at hstep
    split at hstep
    · rename_i f hopen hidle hbuilt
      obtain rfl := Option.some.inj hstep
      exact setWriter_inv h w _ (by rw [hidle]; rfl) rfl (writeFrame_canonical hbuilt)
    · cases hstep
  | write w => exact writerGo_inv h hstep
  | send w k => exact send_inv h hstep
  | sendFail w => exact sendFail_inv h hstep
  | canClose | drop | close | rx => exact (step_outside rfl hstep).inv h

theorem run_inv [DecidableEq C] {received : Bytes} {link s : Link W C} {ls : List (Label W C)}
    (hconnect : connect W C received = some link) (hrun : StepSystem.run step link ls = some s) :
    Inv s :=
  StepSystem.run_invariant (fun _ _ _ h hstep => step_inv h hstep) (connect_inv hconnect) hrun

/-- Only `send` and `sendFail` use the socket. -/
theorem writerGo_sent {s t : Link W C} {w : W} (hstep : writerGo s w (s.writers w) = some t) :
    t.sent = s.sent ∧ (s.shut = true → t.shut = true) := by
  cases hpc : s.writers w with
  | idle =>
    rw [hpc] at hstep
    cases hstep
  | ready f =>
    rw [hpc] at hstep
    simp only [writerGo] at hstep
    split at hstep <;> obtain rfl := Option.some.inj hstep <;> exact ⟨rfl, id⟩
  | locking f =>
    rw [hpc] at hstep
    simp only [writerGo] at hstep
    split at hstep
    · cases hstep
    · split at hstep <;> obtain rfl := Option.some.inj hstep <;> exact ⟨rfl, id⟩
  | encoding f =>
    rw [hpc] at hstep
    simp only [writerGo] at hstep
    split at hstep <;> obtain rfl := Option.some.inj hstep <;> exact ⟨rfl, id⟩
  | sending f buf n =>
    rw [hpc] at hstep
    simp only [writerGo] at hstep
    split at hstep
    · obtain rfl := Option.some.inj hstep
      exact ⟨rfl, id⟩
    · cases hstep
  | failing f stage =>
    rw [hpc] at hstep
    cases stage <;> obtain rfl := Option.some.inj hstep
    · exact ⟨rfl, id⟩
    · exact ⟨rfl, id⟩
    · exact ⟨rfl, fun _ => rfl⟩
  | failed f =>
    rw [hpc] at hstep
    obtain rfl := Option.some.inj hstep
    exact ⟨rfl, id⟩

/-- Once the socket is shut down no step sends anything. -/
theorem step_shut [DecidableEq C] {s t : Link W C} {l : Label W C} (hshut : s.shut = true)
    (hstep : step s l = some t) : t.shut = true ∧ t.sent = s.sent := by
  cases l with
  | canWrite w id msg dlc flag =>
    simp only [step] at hstep
    split at hstep
    · obtain rfl := Option.some.inj hstep
      exact ⟨hshut, rfl⟩
    · cases hstep
  | write w =>
    obtain ⟨hsent, hkeep⟩ := writerGo_sent hstep
    exact ⟨hkeep hshut, hsent⟩
  | send w k =>
    simp only [step] at hstep
    unfold send at hstep
    split at hstep
    · split at hstep
      · rename_i hguard
        rw [hshut] at hguard
        cases hguard.2.2
      · cases hstep
    · cases hstep
  | sendFail w =>
    simp only [step] at hstep
    unfold sendFail at hstep
    split at hstep
    · split at hstep
      · obtain rfl := Option.some.inj hstep
        exact ⟨hshut, rfl⟩
      · cases hstep
    · cases hstep
  | canClose | drop | close | rx =>
    have hout := step_outside rfl hstep
    exact ⟨hout.shut hshut, hout.sent⟩

theorem run_shut [DecidableEq C] {s t : Link W C} {ls : List (Label W C)}
    (hshut : s.shut = true) (hrun : StepSystem.run step s ls = some t) : t.sent = s.sent := by
  have hinv : t.shut = true ∧ t.sent = s.sent := by
    apply StepSystem.run_invariant _ _ hrun
    · intro u l v hu hstep
      obtain ⟨hv, hsent⟩ := step_shut hu.1 hstep
      exact ⟨hv, hsent.trans hu.2⟩
    · exact ⟨hshut, rfl⟩
  exact hinv.2

/-- In every interleaving the socket carries the banner, then the frames whose write
succeeded, each once and in the order of the tx lock, then at most one frame cut short,
behind which nothing is sent any more; and a peer decodes exactly the successful frames.
A write that the socket has taken whole but that has not returned yet counts as well. -/
theorem transmit_integrity [DecidableEq C] (received : Bytes) (link s : Link W C)
    (ls : List (Label W C)) (hconnect : connect W C received = some link)
    (hrun : StepSystem.run step link ls = some s) :
    s.taken = s.done.map Prod.fst ++ inFlight s ∧
    (∃ images tail, encodeFrames [] (succeeded s ++ completed s) = .ok images ∧
      s.sent = connectV1 ++ images ++ tail ∧
      (tail = [] ∨ ∃ f image, CutFrom s f ∧ encodeFrame [] f = .ok image ∧
        ProperPrefix tail image) ∧
      (tail ≠ [] → s.txOwner = none →
        ∀ ks t, StepSystem.run step s ks = some t → t.sent = s.sent)) ∧
    (decodeTcp (s.sent.drop connectV1.length)).frames = succeeded s ++ completed s := by
  have hinv := run_inv hconnect hrun
  obtain ⟨tail, hsent, htail, hshut⟩ := hinv.stream
  have hwhole := hinv.whole_canonical
  refine ⟨hinv.order, ⟨_, tail, encodeFrames_canonical hwhole, hsent, ?_, ?_⟩, ?_⟩
  · rcases htail with hnil | ⟨f, hf, hp⟩
    · exact Or.inl hnil
    · have hcan := hinv.cut_canonical hf
      exact Or.inr ⟨f, wireImage f, hf, encodeFrame_eq [] f hcan.len_le_max, hp⟩
  · intro hne hfree ks t hks
    exact run_shut (hshut hne hfree) hks
  · have hstuck : frameCode.Stuck tail := by
      rcases htail with hnil | ⟨f, hf, hp⟩
      · rw [hnil]
        exact frameCode.stuck_nil
      · exact frameCode.stuck_of_proper_prefix (hinv.cut_canonical hf) hp.1 hp.2
    have hdrop : s.sent.drop connectV1.length =
        (succeeded s ++ completed s).flatMap wireImage ++ tail := by
      rw [hsent, List.append_assoc, List.drop_left]
    rw [hdrop, decodeTcp_images hwhole, decodeTcp_stuck hstuck, List.append_nil]

/-- Two threads write; the socket fails in the middle of the first frame, and the second
thread, which has passed its readiness check before, is left with a closed socket. -/
def failedMidFrame : List (Label Bool Unit) :=
  [.canWrite true 1 none 0 0, .canWrite false 2 none 0 0, .write true, .write false,
    .write true, .write true, .send true 3, .sendFail true, .write true, .write true,
    .write true, .write true, .write false, .write false, .sendFail false, .write false,
    .write false, .write false, .write false]

theorem transmit_integrity_failed :
    ∃ link s : Link Bool Unit, connect Bool Unit connectV1 = some link ∧
      StepSystem.run step link failedMidFrame = some s ∧
      (decodeTcp (s.sent.drop connectV1.length)).frames = succeeded s ++ completed s := by
  have hconnect : ∃ link, connect Bool Unit connectV1 = some link := ⟨_, rfl⟩
  obtain ⟨link, hlink⟩ := hconnect
  have hrun : ∃ s, StepSystem.run step link failedMidFrame = some s := by
    obtain rfl := Option.some.inj hlink
    exact ⟨_, rfl⟩
  obtain ⟨s, hs⟩ := hrun
  exact ⟨link, s, hlink, hs, (transmit_integrity connectV1 link s failedMidFrame hlink hs).2.2⟩

end Kvasilloni.TransmitIntegrity
