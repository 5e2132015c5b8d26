import Kvasilloni.TeardownOrder

/-!
What the app sees of a TCP link that is gone. A write that fails takes `negotiated` back
before it clears `running`, so whoever ends the loop, the channel is no longer ready once
the loop has returned. The latches and the wakeup of the readers come with the swap of
the loop, and only where the loop is the first to clear `running`.
-/
namespace Kvasilloni.DeadLink

open Frames SharedRing TcpLink TeardownOrder
open WaitingReaders hiding step run Label

variable {W C : Type}

/-- What the writers and the closers have to do with the flags. -/
structure Parties (s : Link W C) : Prop where
  failing : ∀ w, s.writers w = .failing .running → s.negotiated = false
  writer : .writer ∈ s.clearedBy → s.negotiated = false
  idle : s.isOpen = true → ∀ c, s.closers c = .idle
  closer : s.isOpen = true → .closer ∉ s.clearedBy

theorem opened_parties : Parties (opened W C) where
  failing := fun _ h => by cases h
  writer := fun h => absurd h List.not_mem_nil
  idle := fun _ _ => rfl
  closer := fun _ => List.not_mem_nil

/-- The RX thread leaves the other threads alone, and never takes the link back. -/
theorem rxMove_parties {s s' : Link W C} (hinv : Parties s) (hmove : RxMove s s') :
    Parties s' := by
  have hkeep : s'.isOpen = s.isOpen ∧ s'.writers = s.writers ∧ s'.closers = s.closers ∧
      (s.negotiated = false → s'.negotiated = false) ∧
      ∀ p, p ≠ .loop → p ∈ s'.clearedBy → p ∈ s.clearedBy := by
    rcases rxMove_cases hmove with hworking | ⟨-, -, rfl⟩ | ⟨-, -, rfl⟩ | ⟨-, rfl⟩ | ⟨-, rfl⟩ |
      ⟨-, rfl⟩ | ⟨-, rfl⟩
    · refine ⟨hworking.isOpen, hworking.writers, hworking.closers, fun hneg => ?_,
        fun p _ hmem => ?_⟩
      · rw [hworking.negotiated]
        exact hneg
      · rw [hworking.clearedBy] at hmem
        exact hmem
    · refine ⟨rfl, rfl, rfl, id, fun p hp hmem => ?_⟩
      rcases List.mem_append.mp hmem with hmem | hmem
      · exact hmem
      · exact absurd (List.mem_singleton.mp hmem) hp
    · exact ⟨rfl, rfl, rfl, id, fun _ _ => id⟩
    · exact ⟨rfl, rfl, rfl, fun _ => rfl, fun _ _ => id⟩
    all_goals exact ⟨rfl, rfl, rfl, id, fun _ _ => id⟩
  obtain ⟨hopen, hwriters, hclosers, hneg, hmem⟩ := hkeep
  refine ⟨fun w hw => hneg (hinv.failing w (hwriters ▸ hw)), fun hw => hneg (hinv.writer ?_),
    fun ho c => ?_, fun ho hc => hinv.closer (hopen ▸ ho) ?_⟩
  · exact hmem _ (by decide) hw
  · rw [hclosers]
    exact hinv.idle (hopen ▸ ho) c
  · exact hmem _ (by decide) hc

/-- Once the app has closed the channel, nothing is asked of the closers. -/
theorem parties_closing {s s' : Link W C} (hinv : Parties s) (hopen : s'.isOpen = false)
    (hwriters : s'.writers = s.writers) (hneg : s.negotiated = false → s'.negotiated = false)
    (hmem : .writer ∈ s'.clearedBy → .writer ∈ s.clearedBy) : Parties s' := by
  refine ⟨fun w hw => hneg (hinv.failing w (hwriters ▸ hw)), fun hw => hneg (hinv.writer (hmem hw)),
    fun ho => ?_, fun ho => ?_⟩ <;>
  · rw [hopen] at ho
    cases ho

variable [DecidableEq W] [DecidableEq C]

omit [DecidableEq C] in
theorem parties_setWriter {s : Link W C} {w : W} {pc : WriterPc} (hinv : Parties s)
    (hpc : pc ≠ .failing .running) : Parties (setWriter s w pc) := by
  refine ⟨fun w' hw' => ?_, hinv.writer, hinv.idle, hinv.closer⟩
  have hcase : Function.update s.writers w pc w' = .failing .running := hw'
  by_cases hww : w' = w
  · rw [hww, Function.update_self] at hcase
    exact absurd hcase hpc
  · rw [Function.update_of_ne hww] at hcase
    exact hinv.failing w' hcase

omit [DecidableEq C] in
theorem writerGo_parties {s s' : Link W C} {w : W} {ok : Bool} (hinv : Parties s)
    (h : writerGo s w ok (s.writers w) = some s') : Parties s' := by
  cases hpc : s.writers w with
  | idle =>
    rw [hpc] at h
    cases h
  | found =>
    simp only [hpc, writerGo] at h
    split at h <;> obtain rfl := Option.some.inj h <;>
      exact parties_setWriter hinv fun heq => by cases heq
  | ready =>
    simp only [hpc, writerGo] at h
    split at h <;> obtain rfl := Option.some.inj h <;>
      exact parties_setWriter hinv fun heq => by cases heq
  | failing stage =>
    rw [hpc] at h
    cases stage with
    | negotiated =>
      obtain rfl := Option.some.inj h
      exact ⟨fun _ _ => rfl, fun _ => rfl, hinv.idle, hinv.closer⟩
    | running =>
      have hneg : s.negotiated = false := hinv.failing w hpc
      obtain rfl := Option.some.inj h
      refine ⟨fun _ _ => hneg, fun _ => hneg, hinv.idle, fun ho hmem => ?_⟩
      rcases List.mem_append.mp hmem with hmem | hmem
      · exact hinv.closer ho hmem
      · cases List.mem_singleton.mp hmem
    | shutdown =>
      obtain rfl := Option.some.inj h
      exact parties_setWriter hinv fun heq => by cases heq

omit [DecidableEq W] in
theorem closerGo_parties {s s' : Link W C} {c : C} (hinv : Parties s)
    (h : closerGo s c (s.closers c) = some s') : Parties s' := by
  have hclosed : s.closers c ≠ .idle → s.isOpen = false := by
    intro hc
    cases hopen : s.isOpen with
    | false => rfl
    | true => exact absurd (hinv.idle hopen c) hc
  cases hpc : s.closers c with
  | idle =>
    rw [hpc] at h
    cases h
  | running =>
    have hopen := hclosed (by rw [hpc]; exact fun heq => by cases heq)
    rw [hpc] at h
    obtain rfl := Option.some.inj h
    refine parties_closing hinv hopen rfl id fun hmem => ?_
    rcases List.mem_append.mp hmem with hmem | hmem
    · exact hmem
    · cases List.mem_singleton.mp hmem
  | negotiated =>
    have hopen := hclosed (by rw [hpc]; exact fun heq => by cases heq)
    rw [hpc] at h
    obtain rfl := Option.some.inj h
    exact parties_closing hinv hopen rfl (fun _ => rfl) id
  | markClosed | notifyAll | shutdown =>
    have hopen := hclosed (by rw [hpc]; exact fun heq => by cases heq)
    rw [hpc] at h
    obtain rfl := Option.some.inj h
    exact parties_closing hinv hopen rfl id id

theorem step_parties {s s' : Link W C} {l : Label W C} (hinv : Parties s)
    (h : step s l = some s') : Parties s' := by
  cases l with
  | rx event => exact rxMove_parties hinv (rxStep_move h)
  | access a =>
    obtain ⟨ring, -, rfl⟩ := Option.map_eq_some_iff.mp h
    exact ⟨hinv.failing, hinv.writer, hinv.idle, hinv.closer⟩
  | canWrite w =>
    simp only [step] at h
    split at h
    · obtain rfl := Option.some.inj h
      exact parties_setWriter hinv fun heq => by cases heq
    · cases h
  | write w ok => exact writerGo_parties hinv h
  | canClose c =>
    simp only [step] at h
    split at h
    · obtain rfl := Option.some.inj h
      exact parties_closing hinv rfl rfl id id
    · cases h
  | drop c =>
    simp only [step] at h
    split at h
    · rename_i hopen _
      obtain rfl := Option.some.inj h
      exact parties_closing hinv hopen rfl id id
    · cases h
  | close c => exact closerGo_parties hinv h

theorem run_parties {ls : List (Label W C)} {s : Link W C} (h : run ls = some s) : Parties s :=
  StepSystem.run_invariant (fun _ _ _ hinv hstep => step_parties hinv hstep) opened_parties h

theorem step_shut {s s' : Link W C} {l : Label W C} (hshut : s.ring.Shut)
    (h : step s l = some s') : s'.ring.Shut := by
  rcases step_cases h with hmove | hothers
  · exact rxMove_shut hmove hshut
  · exact hothers.shut hshut

omit [DecidableEq W] [DecidableEq C] in
/-- The swap of a loop that has returned either came first or found a writer's or a
closer's store before it. -/
theorem first_of_returned {s : Link W C} (hordered : Ordered s) (hret : s.rx = .returned) :
    ∃ p, s.clearedBy.head? = some p := by
  have hne : s.clearedBy ≠ [] := hordered.returned (by rw [hret]; rfl)
  cases hcleared : s.clearedBy with
  | nil => exact absurd hcleared hne
  | cons p ps => exact ⟨p, rfl⟩

/-- Where the loop has returned and the app never closed the channel, the channel is not
ready; and unless a failed write was the first to clear `running`, the channel is marked
closed, no reader is parked or parks again, and the status word reports the lost link. -/
theorem dead_link_surfaced {ls : List (Label W C)} {s : Link W C} (h : run ls = some s)
    (hret : s.rx = .returned) (hopen : s.isOpen = true) :
    s.isReady = false ∧
      (s.clearedBy.head? ≠ some .writer →
        s.ring.shared.closed = true ∧ s.ring.shared.BusOff ∧
          ∀ ks t, StepSystem.run step s ks = some t → ¬ t.ring.Parked) := by
  have hordered := run_ordered h
  have hparties := run_parties h
  have hstage : stage s.rx = 6 := by rw [hret]; rfl
  obtain ⟨p, hp⟩ := first_of_returned hordered hret
  have hmem : p ∈ s.clearedBy := List.mem_of_mem_head? hp
  cases p with
  | closer => exact absurd hmem (hparties.closer hopen)
  | writer => exact ⟨hparties.writer hmem, fun hne => absurd hp hne⟩
  | loop =>
    have hshut := hordered.shut hp hstage
    refine ⟨hordered.negotiated hp (by omega), fun _ => ⟨hshut.closed, ?_, fun ks t hrun => ?_⟩⟩
    · exact (Shared.busOff_iff _).mpr (hordered.lost.mpr ⟨hp, by omega⟩)
    · have hlater : t.ring.Shut :=
        StepSystem.run_invariant (fun _ _ _ hinv hstep => step_shut hinv hstep) hshut hrun
      exact hlater.not_parked

/-- A reader parks, the peer is gone, and the loop does all of the teardown. -/
def lostPeer : List (Label Unit Unit) :=
  [.access (.enter .popWait false), .rx .go, .rx .fail, .rx .go, .rx .go, .rx .go, .rx .go,
    .rx .go]

theorem dead_link_surfaced_lost_peer :
    ∃ s, run lostPeer = some s ∧ s.rx = .returned ∧ s.isOpen = true ∧
      s.ring.shared.BusOff ∧ ¬ s.ring.Parked := by
  have hrun : ∃ s, run lostPeer = some s ∧ s.rx = .returned ∧ s.isOpen = true ∧
      s.clearedBy.head? = some .loop := ⟨_, rfl, rfl, rfl, rfl⟩
  obtain ⟨s, hs, hret, hopen, hfirst⟩ := hrun
  have hloop : s.clearedBy.head? ≠ some .writer := by
    rw [hfirst]
    decide
  obtain ⟨-, hbusOff, hawake⟩ := (dead_link_surfaced hs hret hopen).2 hloop
  exact ⟨s, hs, hret, hopen, hbusOff, hawake [] s rfl⟩

/-- A reader parks, a write fails and clears `running`, and the loop finds it cleared. -/
def failedWrite : List (Label Unit Unit) :=
  [.access (.enter .popWait false), .canWrite (), .write () true, .write () false,
    .write () false, .write () false, .rx .go, .rx .go]

/-- Behind a failed write nobody marks the channel closed. -/
theorem dead_link_silent :
    ¬ ∀ (ls : List (Label Unit Unit)) (s : Link Unit Unit), run ls = some s →
      s.rx = .returned → s.isOpen = true →
      s.isReady = false ∧ s.ring.shared.closed = true ∧ ¬ s.ring.Parked ∧
        s.ring.shared.BusOff := by
  intro hall
  have hrun : ∃ s, run failedWrite = some s ∧ s.rx = .returned ∧ s.isOpen = true ∧
      s.ring.shared.closed = false := ⟨_, rfl, rfl, rfl, rfl⟩
  obtain ⟨s, hs, hret, hopen, hclosed⟩ := hrun
  have hset := (hall failedWrite s hs hret hopen).2.1
  rw [hclosed] at hset
  cases hset

end Kvasilloni.DeadLink
