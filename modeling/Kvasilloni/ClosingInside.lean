import Kvasilloni.InFlight

/-!
Closing a channel from inside its own callback. On the RX thread the close does not
join, so the thread goes on behind the callback until it next looks at `running`. A TCP
batch has no second frame; a UDP datagram may have one, and it is pushed all the same.
-/
namespace Kvasilloni.ClosingInside

open Frames Streams SharedRing Reception InFlight

/-- The callback is running, and a `canClose` that it issued has returned. -/
structure ReturnedInside (s : Channel) (batch : List Frame) : Prop where
  running_callback : s.rx = .inCallback batch
  returned : .callback ∈ s.closed
  idle : callbackBusy s = false

/-- The callback is never called again, whatever happens next. -/
def Final (setup : Setup) (s : Channel) : Prop :=
  ∀ ls t, StepSystem.run (step setup) s ls = some t → t.calls = s.calls

/-! ### What holds of every run -/

/-- The handle is gone once a close has begun, and behind the first statement of the
close `running` is clear. -/
structure Orderly (s : Channel) : Prop where
  begun : ∀ p ∈ s.pending, (∃ stage, p.2 = .close stage) → s.isOpen = false
  closed : s.closed ≠ [] → s.isOpen = false
  halted : s.isOpen = false → s.running = false ∨ ∃ caller, (caller, .close .running) ∈ s.pending

theorem mem_eraseIdx_of_ne {α : Type} {l : List α} {i : ℕ} {a b : α}
    (hb : l[i]? = some b) (ha : a ∈ l) (hne : a ≠ b) : a ∈ l.eraseIdx i := by
  obtain ⟨j, hj⟩ := List.mem_iff_getElem?.mp ha
  refine List.mem_eraseIdx_iff_getElem?.mpr ⟨j, fun hij => ?_, hj⟩
  rw [hij, hb] at hj
  exact hne (Option.some.inj hj).symm

theorem mem_set_of_ne {α : Type} {l : List α} {i : ℕ} {a b : α} (c : α)
    (hb : l[i]? = some b) (ha : a ∈ l) (hne : a ≠ b) : a ∈ l.set i c := by
  obtain ⟨j, hj⟩ := List.mem_iff_getElem?.mp ha
  have hij : i ≠ j := by
    intro hij
    rw [← hij, hb] at hj
    exact hne (Option.some.inj hj).symm
  exact List.mem_iff_getElem?.mpr ⟨j, by rw [List.getElem?_set_ne hij, hj]⟩

/-- A statement of a close, whether the call goes on behind it or returns. -/
theorem closeStep_orderly {s t u : Channel} {caller : Caller} {stage : CloseStage}
    {next : Option CloseStage} (h : Orderly s) (hcall : (caller, .close stage) ∈ s.pending)
    (hclose : closeStep s caller stage = some (t, next)) (hopen : u.isOpen = t.isOpen)
    (hrunning : u.running = t.running)
    (hpending : ∀ p ∈ s.pending, p ≠ (caller, .close stage) → p ∈ u.pending) : Orderly u := by
  obtain ⟨hstored, hsame, -⟩ := closeStep_keeps hclose
  have hgone : s.isOpen = false := h.begun _ hcall ⟨stage, rfl⟩
  have hgone' : u.isOpen = false := hopen.trans (hsame.trans hgone)
  refine ⟨fun _ _ _ => hgone', fun _ => hgone', fun _ => ?_⟩
  rcases hstored with ⟨hkept, hstage⟩ | hoff
  · rcases h.halted hgone with hhalted | ⟨c, hc⟩
    · exact Or.inl (hrunning.trans (hkept.trans hhalted))
    · have hne : (c, Call.close .running) ≠ (caller, Call.close stage) := by
        simp [Ne.symm hstage]
      exact Or.inr ⟨c, hpending _ hc hne⟩
  · exact Or.inl (hrunning.trans hoff)

theorem move_orderly {setup : Setup} {s t : Channel} (h : Orderly s) (hmove : Move setup s t) :
    Orderly t := by
  cases hmove with
  | rx t hmove =>
    obtain ⟨hopen, hclosed, hpending, hrunning⟩ := rxMove_keeps hmove
    refine ⟨?_, ?_, ?_⟩
    · rw [hopen, hpending]
      exact h.begun
    · rw [hopen, hclosed]
      exact h.closed
    · rw [hopen, hpending]
      intro hgone
      rcases hrunning with hsame | hoff
      · rw [hsame]
        exact h.halted hgone
      · exact Or.inl hoff
  | request caller r =>
    unfold request
    by_cases hopen : s.isOpen = true
    · rw [if_pos hopen]
      refine ⟨fun p hp hclose => ?_, h.closed, fun hgone => ?_⟩
      · rcases List.mem_append.mp hp with hp | hp
        · exact h.begun p hp hclose
        · obtain rfl := List.mem_singleton.mp hp
          obtain ⟨stage, hstage⟩ := hclose
          cases hstage
      · simp only [hopen] at hgone
        cases hgone
    · rw [if_neg hopen]
      exact h
  | canClose caller =>
    unfold canClose
    by_cases hopen : s.isOpen = true
    · rw [if_pos hopen]
      exact ⟨fun _ _ _ => rfl, fun _ => rfl, fun _ => Or.inr ⟨caller, by simp⟩⟩
    · rw [if_neg hopen]
      have hgone : s.isOpen = false := by simpa using hopen
      exact ⟨h.begun, fun _ => hgone, h.halted⟩
  | perform i timedOut caller r t hpending hperform =>
    obtain ⟨hopen, hrunning, -, -, hclosed, hcalls⟩ := perform_keeps hperform
    refine ⟨fun p hp hclose => ?_, ?_, fun hgone => ?_⟩
    · rw [hopen]
      rw [hcalls] at hp
      exact h.begun p (List.mem_of_mem_eraseIdx hp) hclose
    · rw [hopen, hclosed]
      exact h.closed
    · rw [hopen] at hgone
      rw [hrunning, hcalls]
      rcases h.halted hgone with hoff | ⟨c, hc⟩
      · exact Or.inl hoff
      · exact Or.inr ⟨c, mem_eraseIdx_of_ne hpending hc (by simp)⟩
  | closing i caller stage next t hpending hclose =>
    obtain ⟨-, -, -, -, -, hcalls, -⟩ := closeStep_keeps hclose
    refine closeStep_orderly h (List.mem_of_getElem? hpending) hclose rfl rfl fun p hp hne => ?_
    exact mem_set_of_ne _ (hcalls ▸ hpending) (hcalls ▸ hp) hne
  | closed i caller stage t hpending hclose =>
    obtain ⟨-, -, -, -, -, hcalls, -⟩ := closeStep_keeps hclose
    refine closeStep_orderly h (List.mem_of_getElem? hpending) hclose rfl rfl fun p hp hne => ?_
    exact mem_eraseIdx_of_ne (hcalls ▸ hpending) (hcalls ▸ hp) hne

theorem run_orderly {setup : Setup} {s : Channel} {ls : List Label}
    (hrun : run setup ls = some s) : Orderly s :=
  StepSystem.run_invariant (fun _ _ _ h hstep => move_orderly h (step_move hstep))
    ⟨fun _ hp => absurd hp List.not_mem_nil, fun h => absurd rfl h,
      fun h => by simp [opened] at h⟩ hrun

/-- The batch of a TCP channel holds one frame at most. -/
def Single : RxPc → Prop
  | .ingesting batch => batch.length ≤ 1
  | .filtered _ batch => batch = []
  | .queued _ batch => batch = []
  | .inCallback batch => batch = []
  | .head | .receiving | .stopped => True

theorem tearDown_single (setup : Setup) (s : Channel) : Single (tearDown setup s).rx := by
  rw [(tearDown_keeps setup s).2.2.2.2.1]
  exact trivial

theorem rxMove_single {setup : Setup} {s t : Channel} (htcp : setup.transport = .tcp)
    (h : Single s.rx) (hmove : RxMove setup s t) : Single t.rx := by
  cases hmove with
  | loop hrx =>
    unfold loopHead
    repeat' split
    all_goals first
      | exact trivial
      | exact tearDown_single setup s
  | datagram hrx hudp source bytes =>
    rw [htcp] at hudp
    cases hudp
  | chunk hrx htcp rx hdecoder bytes hlen =>
    unfold receiveChunk
    dsimp only
    split
    · exact trivial
    · exact le_rfl
    · exact tearDown_single setup _
  | timeout hrx => exact trivial
  | fail hrx => exact tearDown_single setup s
  | advance batch hrx =>
    rw [hrx] at h
    cases batch with
    | nil =>
      dsimp only [advance]
      split
      · exact tearDown_single setup s
      · exact trivial
    | cons f batch =>
      have hnil : batch = [] := by
        apply List.eq_nil_of_length_eq_zero
        have hle : (f :: batch).length ≤ 1 := h
        simp only [List.length_cons] at hle
        omega
      subst hnil
      dsimp only [advance]
      split
      · exact rfl
      · exact Nat.zero_le 1
  | enqueue f batch hrx now =>
    rw [hrx] at h
    obtain rfl : batch = [] := h
    unfold enqueueFrame
    split
    · exact rfl
    · exact Nat.zero_le 1
  | notify f batch hrx =>
    rw [hrx] at h
    obtain rfl : batch = [] := h
    unfold notifyFrame
    split
    · exact rfl
    · exact Nat.zero_le 1
  | callbackReturn batch hrx =>
    rw [hrx] at h
    obtain rfl : batch = [] := h
    exact Nat.zero_le 1

/-- The moves of the calls leave the RX thread where it is. -/
theorem move_rx {setup : Setup} {s t : Channel} (hmove : Move setup s t) :
    RxMove setup s t ∨ t.rx = s.rx ∧ t.calls = s.calls := by
  cases hmove with
  | rx t hmove => exact Or.inl hmove
  | request caller r =>
    unfold request
    split <;> exact Or.inr ⟨rfl, rfl⟩
  | canClose caller =>
    unfold canClose
    split <;> exact Or.inr ⟨rfl, rfl⟩
  | perform i timedOut caller r t hpending hperform =>
    obtain ⟨-, -, hrx, hcalls, -⟩ := perform_keeps hperform
    exact Or.inr ⟨hrx, hcalls⟩
  | closing i caller stage next t hpending hclose =>
    obtain ⟨-, -, hrx, hcalls, -⟩ := closeStep_keeps hclose
    exact Or.inr ⟨hrx, hcalls⟩
  | closed i caller stage t hpending hclose =>
    obtain ⟨-, -, hrx, hcalls, -⟩ := closeStep_keeps hclose
    exact Or.inr ⟨hrx, hcalls⟩

theorem run_single {setup : Setup} {s : Channel} {ls : List Label}
    (htcp : setup.transport = .tcp) (hrun : run setup ls = some s) : Single s.rx := by
  apply StepSystem.run_invariant _ _ hrun
  · intro s l t h hstep
    rcases move_rx (step_move hstep) with hmove | ⟨hrx, -⟩
    · exact rxMove_single htcp h hmove
    · rw [hrx]
      exact h
  · exact trivial

/-! ### A close that is final -/

/-- Where the RX thread stands, the callback is out of reach. -/
def QuietAt (s : Channel) : RxPc → Prop
  | .inCallback batch | .ingesting batch =>
    ¬ Ready s ∨ s.running = false ∧ ¬ Deliverable s batch
  | .head => ¬ Ready s ∨ s.running = false
  | .receiving | .filtered _ _ => ¬ Ready s
  | .queued _ _ => ¬ Armable s
  | .stopped => True

/-- The channel is closed, and the RX thread stands where it calls back no more. -/
structure Quiet (calls : List NotifyData) (s : Channel) : Prop where
  shut : s.isOpen = false
  same : s.calls = calls
  place : QuietAt s s.rx

theorem QuietAt.mono {s t : Channel} {pc : RxPc} (h : QuietAt s pc)
    (harmable : Armable t → Armable s) (hready : Ready t → Ready s)
    (hdeliver : ∀ batch, Deliverable t batch → Deliverable s batch)
    (hrunning : s.running = false → t.running = false) : QuietAt t pc := by
  cases pc with
  | inCallback batch | ingesting batch =>
    rcases h with hnot | ⟨hhalted, hnot⟩
    · exact Or.inl fun hr => hnot (hready hr)
    · exact Or.inr ⟨hrunning hhalted, fun hd => hnot (hdeliver batch hd)⟩
  | head =>
    rcases h with hnot | hhalted
    · exact Or.inl fun hr => hnot (hready hr)
    · exact Or.inr (hrunning hhalted)
  | receiving | filtered => exact fun hr => h (hready hr)
  | queued => exact fun ha => h (harmable ha)
  | stopped => exact trivial

theorem tearDown_quiet {setup : Setup} {calls : List NotifyData} {s : Channel}
    (hshut : s.isOpen = false) (hsame : s.calls = calls) : Quiet calls (tearDown setup s) := by
  obtain ⟨hopen, -, -, hcalls, hrx, -⟩ := tearDown_keeps setup s
  refine ⟨hopen.trans hshut, hcalls.trans hsame, ?_⟩
  rw [hrx]
  exact trivial

theorem rxMove_quiet {setup : Setup} {calls : List NotifyData} {s t : Channel}
    (h : Quiet calls s) (hmove : RxMove setup s t) : Quiet calls t := by
  have hplace := h.place
  have harmable := move_armable h.shut (.rx t hmove)
  have hready := move_ready h.shut (.rx t hmove)
  cases hmove with
  | loop hrx =>
    rw [hrx] at hplace
    unfold loopHead
    split
    · exact tearDown_quiet h.shut h.same
    · rename_i hrunning
      have hnot : ¬ Ready s := hplace.resolve_right hrunning
      split
      · exact ⟨h.shut, h.same, hnot⟩
      · exact tearDown_quiet h.shut h.same
      · split
        · exact tearDown_quiet h.shut h.same
        · exact ⟨h.shut, h.same, hnot⟩
  | datagram hrx hudp source bytes =>
    rw [hrx] at hplace
    unfold receiveDatagram
    split
    · exact ⟨h.shut, h.same, Or.inl hplace⟩
    · exact ⟨h.shut, h.same, Or.inl hplace⟩
  | chunk hrx htcp rx hdecoder bytes hlen =>
    rw [hrx] at hplace
    unfold receiveChunk
    dsimp only
    split
    · exact ⟨h.shut, h.same, Or.inl hplace⟩
    · exact ⟨h.shut, h.same, Or.inl hplace⟩
    · exact tearDown_quiet h.shut h.same
  | timeout hrx =>
    rw [hrx] at hplace
    exact ⟨h.shut, h.same, Or.inl hplace⟩
  | fail hrx => exact tearDown_quiet h.shut h.same
  | advance batch hrx =>
    rw [hrx] at hplace
    cases batch with
    | nil =>
      dsimp only [advance]
      split
      · exact tearDown_quiet h.shut h.same
      · exact ⟨h.shut, h.same, hplace.imp_right And.left⟩
    | cons f batch =>
      dsimp only [advance]
      split
      · rename_i haccept
        refine ⟨h.shut, h.same, fun hr => ?_⟩
        rcases hplace with hnot | ⟨-, hnot⟩
        · exact hnot hr
        · exact hnot (Ready.deliverable hr haccept)
      · refine ⟨h.shut, h.same, hplace.imp_right fun hp => ⟨hp.1, fun hd => ?_⟩⟩
        exact hp.2 (Deliverable.cons hd)
  | enqueue f batch hrx now =>
    rw [hrx] at hplace
    unfold enqueueFrame Shared.enqueue at harmable hready ⊢
    by_cases hfull : s.shared.q.length ≥ ringCap
    · rw [if_pos hfull] at hready ⊢
      exact ⟨h.shut, h.same, Or.inl fun hr => hplace (hready hr)⟩
    · rw [if_neg hfull] at harmable ⊢
      exact ⟨h.shut, h.same, fun ha => hplace ((harmable ha).ready (not_le.mp hfull))⟩
  | notify f batch hrx =>
    rw [hrx] at hplace
    unfold notifyFrame
    rw [Notify.call_of_not_armed fun harmed => hplace (possible_now harmed)]
    exact ⟨h.shut, h.same, Or.inl fun hr => hplace (Ready.armable hr)⟩
  | callbackReturn batch hrx =>
    rw [hrx] at hplace
    exact ⟨h.shut, h.same, hplace⟩

theorem closeStep_halted {s t : Channel} {caller : Caller} {stage : CloseStage}
    {next : Option CloseStage} (h : closeStep s caller stage = some (t, next))
    (hhalted : s.running = false) : t.running = false := by
  rcases (closeStep_keeps h).1 with ⟨hsame, -⟩ | hoff
  · exact hsame.trans hhalted
  · exact hoff

theorem move_quiet {setup : Setup} {calls : List NotifyData} {s t : Channel}
    (h : Quiet calls s) (hmove : Move setup s t) : Quiet calls t := by
  have hkeep : t.isOpen = s.isOpen → t.rx = s.rx → t.calls = s.calls →
      (s.running = false → t.running = false) → Quiet calls t := by
    intro hopen hrx hcalls hrunning
    refine ⟨hopen.trans h.shut, hcalls.trans h.same, ?_⟩
    rw [hrx]
    exact h.place.mono (move_armable h.shut hmove) (move_ready h.shut hmove)
      (fun _ => move_deliverable h.shut hmove) hrunning
  cases hmove with
  | rx t hmove => exact rxMove_quiet h hmove
  | request caller r =>
    unfold request
    rw [if_neg (by simp [h.shut])]
    exact h
  | canClose caller =>
    apply hkeep <;> unfold canClose <;> rw [if_neg (by simp [h.shut])]
    exact id
  | perform i timedOut caller r t hpending hperform =>
    obtain ⟨hopen, hrunning, hrx, hcalls, -⟩ := perform_keeps hperform
    exact hkeep hopen hrx hcalls hrunning.trans
  | closing i caller stage next t hpending hclose =>
    obtain ⟨-, hopen, hrx, hcalls, -⟩ := closeStep_keeps hclose
    have hhalted : s.running = false → t.running = false := closeStep_halted hclose
    exact hkeep hopen hrx hcalls hhalted
  | closed i caller stage t hpending hclose =>
    obtain ⟨-, hopen, hrx, hcalls, -⟩ := closeStep_keeps hclose
    have hhalted : s.running = false → t.running = false := closeStep_halted hclose
    exact hkeep hopen hrx hcalls hhalted

theorem final_of_quiet {setup : Setup} {s : Channel} (h : Quiet s.calls s) : Final setup s := by
  intro ls t hrun
  exact (StepSystem.run_invariant (fun _ _ _ hq hstep => move_quiet hq (step_move hstep))
    h hrun).same

/-! ### A close that is not -/

/-- From a batch with a frame that passes the filter the RX thread goes on to a call. -/
theorem ingesting_calls (setup : Setup) (s : Channel) (batch : List Frame)
    (hrx : s.rx = .ingesting batch) (harmed : s.shared.notify.Armed)
    (hroom : s.shared.q.length < ringCap)
    (hpasses : ∃ f ∈ batch, s.shared.filters.accepts f = true) :
    ∃ ls t, StepSystem.run (step setup) s ls = some t ∧ t.calls ≠ s.calls := by
  induction batch generalizing s with
  | nil =>
    obtain ⟨f, hf, -⟩ := hpasses
    exact absurd hf List.not_mem_nil
  | cons f batch ih =>
    have hadvance : step setup s .advance = some (advance setup s (f :: batch)) := by
      simp only [step, hrx, rxStep]
    by_cases hf : s.shared.filters.accepts f = true
    · obtain ⟨d, hd⟩ := Notify.call_of_armed harmed (stamp 0 f)
      have hfull : ¬ s.shared.q.length ≥ ringCap := by omega
      refine ⟨[.advance, .enqueue 0, .notify],
        { s with
          shared := { s.shared with q := s.shared.q ++ [stamp 0 f] }
          rx := .inCallback batch
          calls := s.calls ++ [d] }, ?_, by simp⟩
      simp only [StepSystem.run, hadvance, advance, if_pos hf]
      simp only [step, rxStep, enqueueFrame, Shared.enqueue, if_neg hfull, notifyFrame, hd]
    · have hbehind : ∃ f ∈ batch, s.shared.filters.accepts f = true := by
        obtain ⟨g, hg, haccept⟩ := hpasses
        rcases List.mem_cons.mp hg with rfl | hg
        · exact absurd haccept hf
        · exact ⟨g, hg, haccept⟩
      obtain ⟨ls, t, hrun, hcalls⟩ :=
        ih { s with rx := .ingesting batch } rfl harmed hroom hbehind
      refine ⟨.advance :: ls, t, StepSystem.run_cons.mpr ⟨_, hadvance, ?_⟩, hcalls⟩
      simpa only [advance, if_neg hf] using hrun

theorem not_final_of_deliverable {setup : Setup} {s : Channel} {batch : List Frame}
    (hs : ReturnedInside s batch) (hdeliver : Deliverable s batch) : ¬ Final setup s := by
  intro hfinal
  obtain ⟨rs, hrs, harmed, hroom, hpasses⟩ := hdeliver
  obtain ⟨ls, t, hrun, hshared, hrx, hcalls, hbusy⟩ := requests_performed setup rs s hrs
  rw [← hshared] at harmed hroom hpasses
  have hreturn : step setup t .callbackReturn = some { t with rx := .ingesting batch } := by
    simp [step, hrx, hs.running_callback, rxStep, hbusy hs.idle]
  obtain ⟨ks, u, hrest, hcalled⟩ :=
    ingesting_calls setup { t with rx := .ingesting batch } batch rfl harmed hroom hpasses
  apply hcalled
  change u.calls = t.calls
  rw [hcalls]
  apply hfinal (ls ++ .callbackReturn :: ks)
  exact StepSystem.run_append.mpr ⟨t, hrun, StepSystem.run_cons.mpr ⟨_, hreturn, hrest⟩⟩

/-- When a close issued inside the callback has returned, its batch is exhausted on TCP,
and `running` is clear unless another close has yet to store it. With `running` clear the
callback is never called again exactly when no frame of the batch can be delivered; and
whether it is clear or not, never if no frame at all can be. -/
theorem close_inside_callback (setup : Setup) (ls : List Label) (s : Channel)
    (batch : List Frame) (hrun : run setup ls = some s) (hs : ReturnedInside s batch) :
    (setup.transport = .tcp → batch = []) ∧
    (s.running = false ∨ ∃ caller, (caller, .close .running) ∈ s.pending) ∧
    (s.running = false → (Final setup s ↔ ¬ Deliverable s batch)) ∧
    (¬ Ready s → Final setup s) := by
  have horderly := run_orderly hrun
  have hshut : s.isOpen = false := by
    apply horderly.closed
    intro hnil
    have hreturned := hs.returned
    rw [hnil] at hreturned
    exact absurd hreturned List.not_mem_nil
  have hquiet : (¬ Ready s ∨ s.running = false ∧ ¬ Deliverable s batch) → Final setup s := by
    intro hplace
    refine final_of_quiet ⟨hshut, rfl, ?_⟩
    rw [hs.running_callback]
    exact hplace
  refine ⟨fun htcp => ?_, horderly.halted hshut,
    fun hhalted => ⟨fun hfinal hdeliver => ?_, fun hnot => ?_⟩, fun hnot => ?_⟩
  · have hsingle := run_single htcp hrun
    rw [hs.running_callback] at hsingle
    exact hsingle
  · exact not_final_of_deliverable hs hdeliver hfinal
  · exact hquiet (Or.inr ⟨hhalted, hnot⟩)
  · exact hquiet (Or.inl hnot)

/-- A callback is registered, a datagram with two empty frames arrives, and the callback
closes the channel when it is called for the first. -/
def closeOnFirst : List Label :=
  [.request .app (.setNotify ⟨1, notifyRx, 0⟩), .proceed 0 false, .loop,
    .datagram (.v4 0) [2, 0, 0, 0, 2, 0, 0, 0, 1, 0, 0, 0, 0, 2, 0],
    .advance, .enqueue 1, .notify,
    .canClose .callback, .proceed 0 false, .proceed 0 false, .proceed 0 false,
    .proceed 0 false, .proceed 0 false]

theorem closeOnFirst_run :
    ∃ s, run openUdp closeOnFirst = some s ∧
      ReturnedInside s [{ Frame.default with canId := 2 }] ∧ s.running = false ∧
      Deliverable s [{ Frame.default with canId := 2 }] :=
  ⟨_, rfl, ⟨rfl, List.mem_cons_self .., rfl⟩, rfl,
    possible_now ⟨⟨by decide, by decide⟩, by decide, _, List.mem_cons_self .., rfl⟩⟩

/-- The callback is called again after the close it issued has returned. -/
theorem close_inside_not_final :
    ¬ ∀ setup ls s batch, run setup ls = some s → ReturnedInside s batch → Final setup s := by
  intro h
  obtain ⟨s, hrun, hs, -, hdeliver⟩ := closeOnFirst_run
  exact not_final_of_deliverable hs hdeliver (h openUdp closeOnFirst s _ hrun hs)

theorem close_inside_callback_first :
    ∃ s, run openUdp closeOnFirst = some s ∧ ¬ Final openUdp s := by
  obtain ⟨s, hrun, hs, hhalted, hdeliver⟩ := closeOnFirst_run
  have hexact := (close_inside_callback openUdp closeOnFirst s _ hrun hs).2.2.1 hhalted
  exact ⟨s, hrun, fun hfinal => hexact.mp hfinal hdeliver⟩

end Kvasilloni.ClosingInside
