import Kvasilloni.Reception

/-!
The requests that have found a connection before it was closed, and are performed at any
time after that. What they may still bring about is what some of them lead to in some
order; it only shrinks while the channel stays closed, and all of it can come to pass.
-/
namespace Kvasilloni.InFlight

open Frames SharedRing Reception

/-- The request of a call under way. -/
def inFlight : Caller × Call → Option Request
  | (_, .request r) => some r
  | (_, .close _) => none

/-- The requests that have found the connection and not been performed yet. -/
def requests (s : Channel) : List Request := s.pending.filterMap inFlight

/-- What a request does to the receive state. -/
def effect (shared : Shared) : Request → Shared
  | .read _ | .readWait _ => shared.pop.2
  | .readSync => shared
  | .flush => shared.clear
  | .accept flag envelope => shared.setAccept flag envelope
  | .setNotify n => shared.setNotify n

/-- Some of the requests in flight, performed in some order, lead to such a state. -/
def Possible (s : Channel) (P : Shared → Prop) : Prop :=
  ∃ rs : List Request, rs.Subperm (requests s) ∧ P (rs.foldl effect s.shared)

def Armable (s : Channel) : Prop := Possible s fun shared => shared.notify.Armed

/-- A frame that passes the filter may find room and an armed callback. -/
def Ready (s : Channel) : Prop :=
  Possible s fun shared => shared.notify.Armed ∧ shared.q.length < ringCap

/-- Some frame of the batch may pass the filter and find room and an armed callback. -/
def Deliverable (s : Channel) (batch : List Frame) : Prop :=
  Possible s fun shared => shared.notify.Armed ∧ shared.q.length < ringCap ∧
    ∃ f ∈ batch, shared.filters.accepts f = true

theorem possible_now {s : Channel} {P : Shared → Prop} (h : P s.shared) : Possible s P :=
  ⟨[], List.nil_subperm, h⟩

theorem perform_effect {setup : Setup} {s t : Channel} {timedOut : Bool} {r : Request}
    (h : perform setup s timedOut r = some t) : t.shared = effect s.shared r := by
  have hdeliver : ∀ out popped, (deliver setup s out popped).shared = popped.2 := by
    intro out popped
    unfold deliver
    split <;> rfl
  cases r with
  | read out =>
    obtain rfl := Option.some.inj h
    exact hdeliver out _
  | readWait out =>
    obtain ⟨popped, hwait, rfl⟩ := Option.map_eq_some_iff.mp h
    rw [hdeliver]
    unfold Shared.popWait at hwait
    split at hwait
    · obtain rfl := Option.some.inj hwait
      rfl
    · cases hwait
  | readSync =>
    obtain ⟨b, -, rfl⟩ := Option.map_eq_some_iff.mp h
    rfl
  | flush | accept flag envelope | setNotify n =>
    obtain rfl := Option.some.inj h
    rfl

/-- A request whose timeout has passed is performed. -/
theorem perform_timedOut (setup : Setup) (s : Channel) (r : Request) :
    ∃ t, perform setup s true r = some t := by
  cases r with
  | readWait out | readSync =>
    simp [perform, Shared.popWait, Shared.peekWait, Shared.waitOver]
  | read | flush | accept | setNotify => exact ⟨_, rfl⟩

/-- The receive state has no more frames than the other, and is otherwise alike where it
matters to `push`. -/
structure Leaner (a b : Shared) : Prop where
  notify : a.notify = b.notify
  filters : a.filters = b.filters
  room : a.q.length ≤ b.q.length

theorem Leaner.effect {a b : Shared} (h : Leaner a b) (r : Request) :
    Leaner (effect a r) (effect b r) := by
  cases r with
  | read out | readWait out =>
    change Leaner a.pop.2 b.pop.2
    rw [a.pop_snd, b.pop_snd]
    refine ⟨h.notify, h.filters, ?_⟩
    have hroom := h.room
    rw [List.length_tail, List.length_tail]
    omega
  | readSync => exact h
  | flush => exact ⟨h.notify, h.filters, le_rfl⟩
  | accept flag envelope =>
    exact ⟨h.notify, congrArg (fun a => a.set flag envelope) h.filters, h.room⟩
  | setNotify n => exact ⟨rfl, h.filters, h.room⟩

theorem Leaner.effects {a b : Shared} (h : Leaner a b) (rs : List Request) :
    Leaner (rs.foldl InFlight.effect a) (rs.foldl InFlight.effect b) := by
  induction rs generalizing a b with
  | nil => exact h
  | cons r rs ih => exact ih (h.effect r)

/-- No request queues a frame. -/
theorem effects_length (rs : List Request) (a : Shared) :
    (rs.foldl effect a).q.length ≤ a.q.length := by
  induction rs generalizing a with
  | nil => exact le_rfl
  | cons r rs ih =>
    apply (ih (effect a r)).trans
    cases r with
    | read out | readWait out =>
      change a.pop.2.q.length ≤ a.q.length
      rw [a.pop_snd, List.length_tail]
      exact Nat.sub_le ..
    | flush => exact Nat.zero_le _
    | readSync | accept | setNotify => exact le_rfl

/-- The requests that leave the filter alone. -/
def keepsFilter : Request → Bool
  | .accept _ _ => false
  | _ => true

/-- Without the filter directives the rest comes out the same. -/
theorem effects_keepsFilter (rs : List Request) {a b : Shared} (hnotify : a.notify = b.notify)
    (hq : a.q = b.q) :
    ((rs.filter keepsFilter).foldl effect a).notify = (rs.foldl effect b).notify ∧
    ((rs.filter keepsFilter).foldl effect a).q = (rs.foldl effect b).q ∧
    ((rs.filter keepsFilter).foldl effect a).filters = a.filters := by
  induction rs generalizing a b with
  | nil => exact ⟨hnotify, hq, rfl⟩
  | cons r rs ih =>
    have hkeep : keepsFilter r = true → (effect a r).notify = (effect b r).notify →
        (effect a r).q = (effect b r).q → (effect a r).filters = a.filters →
        (((r :: rs).filter keepsFilter).foldl effect a).notify =
          ((r :: rs).foldl effect b).notify ∧
        (((r :: rs).filter keepsFilter).foldl effect a).q = ((r :: rs).foldl effect b).q ∧
        (((r :: rs).filter keepsFilter).foldl effect a).filters = a.filters := by
      intro hr hnotify hq hfilters
      rw [List.filter_cons_of_pos hr, ← hfilters]
      exact ih hnotify hq
    cases r with
    | accept flag envelope => exact ih hnotify hq
    | read out | readWait out =>
      apply hkeep rfl
      · change a.pop.2.notify = b.pop.2.notify
        rw [a.pop_snd, b.pop_snd]
        exact hnotify
      · change a.pop.2.q = b.pop.2.q
        rw [a.pop_snd, b.pop_snd, hq]
      · change a.pop.2.filters = a.filters
        rw [a.pop_snd]
    | readSync => exact hkeep rfl hnotify hq rfl
    | flush => exact hkeep rfl hnotify rfl rfl
    | setNotify n => exact hkeep rfl rfl hq rfl

theorem requests_eraseIdx {pending : List (Caller × Call)} {i : ℕ} {p : Caller × Call}
    (hp : pending[i]? = some p) :
    ((inFlight p).toList ++ (pending.eraseIdx i).filterMap inFlight).Perm
      (pending.filterMap inFlight) := by
  obtain ⟨hi, rfl⟩ := List.getElem?_eq_some_iff.mp hp
  have hperm := (List.getElem_cons_eraseIdx_perm hi).filterMap inFlight
  rw [List.filterMap_cons] at hperm
  cases hr : inFlight pending[i] with
  | none =>
    rw [hr] at hperm
    exact hperm
  | some r =>
    rw [hr] at hperm
    exact hperm

theorem requests_set {pending : List (Caller × Call)} {i : ℕ} {p q : Caller × Call}
    (hp : pending[i]? = some p) (hnone : inFlight p = none) (hnone' : inFlight q = none) :
    ((pending.set i q).filterMap inFlight).Perm (pending.filterMap inFlight) := by
  obtain ⟨hi, -⟩ := List.getElem?_eq_some_iff.mp hp
  have hset := (List.set_perm_cons_eraseIdx hi q).filterMap inFlight
  rw [List.filterMap_cons, hnone'] at hset
  have herase := requests_eraseIdx hp
  rw [hnone] at herase
  exact hset.trans herase

theorem Leaner.refl (a : Shared) : Leaner a a := ⟨rfl, rfl, le_rfl⟩

theorem tearDown_leaner (setup : Setup) (s : Channel) :
    Leaner s.shared (tearDown setup s).shared := by
  unfold tearDown
  split
  · exact ⟨rfl, rfl, le_rfl⟩
  · exact .refl _

/-- The RX thread only adds to the queue. -/
theorem rxMove_leaner {setup : Setup} {s t : Channel} (hmove : RxMove setup s t) :
    Leaner s.shared t.shared := by
  cases hmove with
  | loop hrx =>
    unfold loopHead
    repeat' split
    all_goals first
      | exact .refl _
      | exact tearDown_leaner setup s
  | datagram hrx hudp source bytes =>
    unfold receiveDatagram
    split <;> exact .refl _
  | chunk hrx htcp rx hdecoder bytes hlen =>
    unfold receiveChunk
    dsimp only
    split
    · exact .refl _
    · exact .refl _
    · exact tearDown_leaner setup { s with stream := s.stream ++ bytes }
  | timeout hrx => exact .refl _
  | fail hrx => exact tearDown_leaner setup s
  | advance batch hrx =>
    cases batch with
    | nil =>
      dsimp only [advance]
      split
      · exact tearDown_leaner setup s
      · exact .refl _
    | cons f batch =>
      dsimp only [advance]
      split <;> exact .refl _
  | enqueue f batch hrx now =>
    unfold enqueueFrame Shared.enqueue
    by_cases hfull : s.shared.q.length ≥ ringCap
    · rw [if_pos hfull]
      exact ⟨rfl, rfl, le_rfl⟩
    · rw [if_neg hfull]
      refine ⟨rfl, rfl, ?_⟩
      dsimp only
      rw [List.length_append]
      exact Nat.le_add_right ..
  | notify f batch hrx =>
    unfold notifyFrame
    split <;> exact .refl _
  | callbackReturn batch hrx => exact .refl _

/-- What is possible after a step was possible before. -/
theorem move_possible {setup : Setup} {s t : Channel} {P : Shared → Prop}
    (hP : ∀ a b, Leaner a b → P b → P a) (hshut : s.isOpen = false) (hmove : Move setup s t)
    (h : Possible t P) : Possible s P := by
  obtain ⟨rs, hrs, hstate⟩ := h
  have hkeep : (requests t).Perm (requests s) → Leaner s.shared t.shared → Possible s P := by
    intro hperm hlean
    exact ⟨rs, hrs.trans hperm.subperm, hP _ _ (hlean.effects rs) hstate⟩
  cases hmove with
  | rx t hmove =>
    obtain ⟨-, -, hpending, -⟩ := rxMove_keeps hmove
    apply hkeep _ (rxMove_leaner hmove)
    unfold requests
    rw [hpending]
  | request caller r =>
    unfold request at hrs hstate
    rw [if_neg (by simp [hshut])] at hrs hstate
    exact ⟨rs, hrs, hstate⟩
  | canClose caller =>
    unfold canClose at hrs hstate
    rw [if_neg (by simp [hshut])] at hrs hstate
    exact ⟨rs, hrs, hstate⟩
  | perform i timedOut caller r t hpending hperform =>
    obtain ⟨-, -, -, -, -, hsame⟩ := perform_keeps hperform
    refine ⟨r :: rs, ?_, ?_⟩
    · rw [← hsame] at hpending
      apply ((List.subperm_cons r).mpr hrs).trans
      rw [requests, requests, ← hsame]
      exact (requests_eraseIdx hpending).subperm
    · rw [List.foldl_cons, ← perform_effect hperform]
      exact hstate
  | closing i caller stage next t hpending hclose =>
    obtain ⟨-, -, -, -, -, hsame, hq, hfilters, hnotify⟩ := closeStep_keeps hclose
    apply hkeep
    · rw [← hsame] at hpending
      rw [requests, requests, ← hsame]
      exact requests_set hpending rfl rfl
    · exact ⟨hnotify.symm, hfilters.symm, by rw [hq]⟩
  | closed i caller stage t hpending hclose =>
    obtain ⟨-, -, -, -, -, hsame, hq, hfilters, hnotify⟩ := closeStep_keeps hclose
    apply hkeep
    · rw [← hsame] at hpending
      rw [requests, requests, ← hsame]
      exact requests_eraseIdx hpending
    · exact ⟨hnotify.symm, hfilters.symm, by rw [hq]⟩

theorem move_armable {setup : Setup} {s t : Channel} (hshut : s.isOpen = false)
    (hmove : Move setup s t) (h : Armable t) : Armable s := by
  apply move_possible _ hshut hmove h
  intro a b hlean harmed
  rw [hlean.notify]
  exact harmed

theorem move_ready {setup : Setup} {s t : Channel} (hshut : s.isOpen = false)
    (hmove : Move setup s t) (h : Ready t) : Ready s := by
  apply move_possible _ hshut hmove h
  intro a b hlean hready
  rw [hlean.notify]
  exact ⟨hready.1, hlean.room.trans_lt hready.2⟩

theorem move_deliverable {setup : Setup} {s t : Channel} {batch : List Frame}
    (hshut : s.isOpen = false) (hmove : Move setup s t) (h : Deliverable t batch) :
    Deliverable s batch := by
  apply move_possible _ hshut hmove h
  intro a b hlean hdeliver
  rw [hlean.notify, hlean.filters]
  exact ⟨hdeliver.1, hlean.room.trans_lt hdeliver.2.1, hdeliver.2.2⟩

theorem Armable.ready {s : Channel} (h : Armable s) (hroom : s.shared.q.length < ringCap) :
    Ready s := by
  obtain ⟨rs, hrs, harmed⟩ := h
  exact ⟨rs, hrs, harmed, (effects_length rs s.shared).trans_lt hroom⟩

theorem Ready.armable {s : Channel} (h : Ready s) : Armable s := by
  obtain ⟨rs, hrs, harmed, -⟩ := h
  exact ⟨rs, hrs, harmed⟩

theorem Deliverable.ready {s : Channel} {batch : List Frame} (h : Deliverable s batch) :
    Ready s := by
  obtain ⟨rs, hrs, harmed, hroom, -⟩ := h
  exact ⟨rs, hrs, harmed, hroom⟩

/-- Without the filter directives in flight the frame passes as it does now. -/
theorem Ready.deliverable {s : Channel} {f : Frame} {batch : List Frame} (h : Ready s)
    (haccept : s.shared.filters.accepts f = true) : Deliverable s (f :: batch) := by
  obtain ⟨rs, hrs, harmed, hroom⟩ := h
  obtain ⟨hnotify, hq, hfilters⟩ :=
    effects_keepsFilter rs (rfl : s.shared.notify = s.shared.notify) rfl
  refine ⟨rs.filter keepsFilter, List.filter_sublist.subperm.trans hrs, ?_⟩
  dsimp only
  rw [hnotify, hq, hfilters]
  exact ⟨harmed, hroom, f, List.mem_cons_self .., haccept⟩

theorem Deliverable.cons {s : Channel} {f : Frame} {batch : List Frame}
    (h : Deliverable s batch) : Deliverable s (f :: batch) := by
  obtain ⟨rs, hrs, harmed, hroom, g, hg, haccept⟩ := h
  exact ⟨rs, hrs, harmed, hroom, g, List.mem_cons_of_mem f hg, haccept⟩

/-- The requests in flight can be performed in any order, and the RX thread waits. -/
theorem requests_performed (setup : Setup) (rs : List Request) (s : Channel)
    (hrs : rs.Subperm (requests s)) :
    ∃ ls t, StepSystem.run (step setup) s ls = some t ∧ t.shared = rs.foldl effect s.shared ∧
      t.rx = s.rx ∧ t.calls = s.calls ∧ (callbackBusy s = false → callbackBusy t = false) := by
  induction rs generalizing s with
  | nil => exact ⟨[], s, rfl, rfl, rfl, rfl, id⟩
  | cons r rs ih =>
    have hmem : r ∈ requests s := hrs.subset (List.mem_cons_self ..)
    obtain ⟨⟨caller, call⟩, hp, hcall⟩ := List.mem_filterMap.mp hmem
    cases call with
    | close stage => cases hcall
    | request r' =>
      obtain rfl := Option.some.inj hcall
      obtain ⟨i, hpending⟩ := List.mem_iff_getElem?.mp hp
      obtain ⟨t, hperform⟩ := perform_timedOut setup s r'
      obtain ⟨-, -, hrx, hcalls, -, hsame⟩ := perform_keeps hperform
      have hstep : step setup s (.proceed i true) =
          some { t with pending := t.pending.eraseIdx i } := by
        simp only [step, proceed, hpending, hperform, Option.map_some]
      have hrest : rs.Subperm ((s.pending.eraseIdx i).filterMap inFlight) :=
        (List.subperm_cons r').mp (hrs.trans (requests_eraseIdx hpending).symm.subperm)
      rw [← hsame] at hrest
      obtain ⟨ls, u, hrun, hshared, hrx', hcalls', hbusy⟩ :=
        ih { t with pending := t.pending.eraseIdx i } hrest
      refine ⟨.proceed i true :: ls, u, StepSystem.run_cons.mpr ⟨_, hstep, hrun⟩, ?_,
        hrx'.trans hrx, hcalls'.trans hcalls, fun hidle => hbusy ?_⟩
      · rw [hshared, List.foldl_cons, ← perform_effect hperform]
      · refine List.any_eq_false.mpr fun p hp => List.any_eq_false.mp hidle p ?_
        rw [← hsame]
        exact List.mem_of_mem_eraseIdx hp

end Kvasilloni.InFlight
