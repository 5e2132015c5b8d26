import Kvasilloni.WaitingReaders
import Kvasilloni.Library.CondvarTally

/-!
Frames, readers and wakeups on one ring. `push` wakes one reader for each frame it queues,
whichever is waiting: one in `pop_wait`, which takes the frame, or one in `peek_wait`,
which does not. A reader stays parked beside a frame exactly when a woken `peek_wait` uses
up a wakeup that a parked reader would have needed.
-/
namespace Kvasilloni.LostWakeup

open Frames SharedRing WaitingReaders CondvarTally

def tally (s : System) : Tally where
  items := s.ring.shared.q.length
  signals := s.notifies
  woken := s.ring.readers.countP fun b => !b.parked
  parked := s.ring.readers.countP fun b => b.parked

/-- A woken `peek_wait` finds a frame; it will return without taking it. -/
def LeavesFrame (s : System) (i : ℕ) : Prop :=
  s.ring.shared.q ≠ [] ∧ ∃ expired, s.ring.readers[i]? = some ⟨.peekWait, expired, false⟩

/-- A wakeup is on its way: a push has yet to call `notify_one`, or a woken reader has
yet to look at the queue. -/
def WakeupPending (s : System) : Prop :=
  0 < s.notifies ∨ ∃ b ∈ s.ring.readers, b.parked = false

def NoReaderStranded (s : System) : Prop :=
  s.ring.shared.q ≠ [] → s.ring.Parked → WakeupPending s

/-- The wakeups that are left when a woken `peek_wait` leaves a frame behind are enough for
the parked readers or for the queued frames. -/
def Covered (s : System) : Label → Prop
  | .recheck i => LeavesFrame s i → Balanced (tally s).leave
  | _ => True

/-! ### Steps and the tally -/

theorem tally_congr {s s' : System} (hq : s'.ring.shared.q.length = s.ring.shared.q.length)
    (hnotifies : s'.notifies = s.notifies) (hreaders : s'.ring.readers = s.ring.readers) :
    tally s' = tally s := by
  simp only [tally, hq, hnotifies, hreaders]

theorem stay {s s' : System} (h : tally s' = tally s) : Move (tally s) (tally s') := by
  rw [h]
  exact .stay

theorem take_move (s : System) (reply : Option Frame → ReadReply) :
    Move (tally s) (tally { s with ring := s.ring.take reply }) := by
  cases hq : s.ring.shared.q with
  | nil =>
    refine stay (tally_congr ?_ rfl rfl)
    simp [Ring.take, Shared.pop, hq]
  | cons f q =>
    have hitems : (tally s).items = q.length + 1 := by simp [tally, hq]
    have hmove := Move.take (t := tally s) q.length hitems
    have hafter : tally { s with ring := s.ring.take reply } =
        { tally s with items := q.length } := by
      simp [tally, Ring.take, Shared.pop, hq]
    rw [hafter]
    exact hmove

theorem offer_move (s : System) (i : ℕ) (f : Frame) :
    Move (tally s) (tally (offerFrame s i f)) := by
  by_cases hfull : s.ring.shared.q.length ≥ ringCap
  · refine stay (tally_congr ?_ ?_ ?_) <;>
      simp [offerFrame, Ring.offer, Shared.enqueue, hfull]
  · have hafter : tally (offerFrame s i f) =
        { tally s with items := (tally s).items + 1, signals := (tally s).signals + 1 } := by
      simp [tally, offerFrame, Ring.offer, Shared.enqueue, hfull]
    rw [hafter]
    exact .produce

theorem enter_move (s : System) (w : Wait) (expired : Bool) :
    Move (tally s) (tally { s with ring := s.ring.enter w expired }) := by
  cases hover : s.ring.shared.waitOver expired with
  | true =>
    cases w with
    | popWait => simpa [Ring.enter, hover, Ring.finish] using take_move s _
    | peekWait =>
      refine stay (tally_congr ?_ rfl ?_) <;> simp [Ring.enter, hover, Ring.finish]
  | false =>
    obtain ⟨hempty, -, -⟩ := waitOver_eq_false hover
    have hmove := Move.park (t := tally s) (by simp [tally, hempty])
    have hafter : tally { s with ring := s.ring.enter w expired } =
        { tally s with parked := (tally s).parked + 1 } := by
      simp [tally, Ring.enter, hover]
    rw [hafter]
    exact hmove

/-- A parked reader is let go. -/
theorem wake_tally {s : System} {i : ℕ} {ring : Ring} (h : s.ring.wake i = some ring) (m : ℕ) :
    ∃ k, (tally s).parked = k + 1 ∧
      tally { s with ring := ring, notifies := m } =
        { tally s with signals := m, woken := (tally s).woken + 1, parked := k } := by
  obtain ⟨w, expired, hreader, rfl⟩ := wake_cases h
  have hparked := countP_set (fun b : Reader => b.parked) ⟨w, expired, false⟩ hreader
  have hwoken := countP_set (fun b : Reader => !b.parked) ⟨w, expired, false⟩ hreader
  simp only [↓reduceIte, Bool.false_eq_true, Bool.not_true, Bool.not_false,
    Nat.add_zero] at hparked hwoken
  refine ⟨_, hparked.symm, ?_⟩
  simp only [tally, hwoken]

theorem expire_move {s : System} {i : ℕ} {ring : Ring} (h : s.ring.expire i = some ring) :
    Move (tally s) (tally { s with ring := ring }) := by
  obtain ⟨b, hreader, rfl⟩ := expire_cases h
  have hparked := countP_set (fun b : Reader => b.parked) ⟨b.wait, true, false⟩ hreader
  have hwoken := countP_set (fun b : Reader => !b.parked) ⟨b.wait, true, false⟩ hreader
  cases hpark : b.parked with
  | false =>
    simp only [hpark, Bool.false_eq_true, ↓reduceIte, Bool.not_false,
      Nat.add_right_cancel_iff] at hparked hwoken
    refine stay ?_
    simp only [tally, hparked, hwoken]
  | true =>
    simp only [hpark, ↓reduceIte, Bool.false_eq_true, Bool.not_true, Bool.not_false,
      Nat.add_zero] at hparked hwoken
    have hmove := Move.wake (t := tally s) _ hparked.symm
    convert hmove using 1
    simp only [tally, hwoken]

theorem notifyOne_move {s : System} {target : Option ℕ} {ring : Ring} {m : ℕ}
    (h : s.ring.notifyOne target = some ring) (hm : s.notifies = m + 1) :
    Move (tally s) (tally { s with ring := ring, notifies := m }) := by
  obtain ⟨i, -, hwake⟩ | ⟨-, hnone, rfl⟩ := notifyOne_cases h
  · obtain ⟨k, hparked, hafter⟩ := wake_tally hwake m
    rw [hafter]
    exact .signal k m hparked hm
  · have hparked : (tally s).parked = 0 := by
      simp only [tally, List.countP_eq_zero]
      exact fun b hb hpark => hnone ⟨b, hb, hpark⟩
    exact .signalNone m hparked hm

/-- A woken `peek_wait` beside a frame returns. -/
theorem recheck_leaves {s : System} {i : ℕ} {ring : Ring} (hleaves : LeavesFrame s i)
    (h : s.ring.recheck i = some ring) : tally { s with ring := ring } = (tally s).leave := by
  obtain ⟨hframe, expired, hreader⟩ := hleaves
  have hover : s.ring.shared.waitOver expired = true := by
    simp [Shared.waitOver, hframe]
  have hparked := countP_eraseIdx (fun b : Reader => b.parked) hreader
  have hwoken := countP_eraseIdx (fun b : Reader => !b.parked) hreader
  simp only [Bool.false_eq_true, ↓reduceIte, Bool.not_false, Nat.add_zero] at hparked hwoken
  simp only [Ring.recheck, hreader, hover, ↓reduceIte] at h
  obtain rfl := Option.some.inj h
  simp only [tally, Tally.leave, Ring.finish, hparked, Tally.mk.injEq, true_and, and_true]
  omega

/-- A woken reader looks again: it takes a frame, parks once more, or returns from an empty
queue. -/
theorem recheck_move {s : System} {i : ℕ} {ring : Ring} (h : s.ring.recheck i = some ring)
    (hkeeps : ¬ LeavesFrame s i) : Move (tally s) (tally { s with ring := ring }) := by
  obtain ⟨w, expired, hreader, ⟨-, rfl⟩ | ⟨hover, rfl⟩⟩ := recheck_cases h
  · have hparked := countP_eraseIdx (fun b : Reader => b.parked) hreader
    have hwoken := countP_eraseIdx (fun b : Reader => !b.parked) hreader
    simp only [Bool.false_eq_true, ↓reduceIte, Bool.not_false, Nat.add_zero] at hparked hwoken
    cases hq : s.ring.shared.q with
    | nil =>
      have hmove := Move.leave (t := tally s) (by simp [tally, hq])
      convert hmove using 1
      cases w <;>
        simp only [tally, Tally.leave, Ring.finish, Ring.take, Shared.pop, hq, hparked,
          Tally.mk.injEq, true_and, and_true] <;>
        omega
    | cons f q =>
      cases w with
      | popWait =>
        have hmove := Move.takeWoken (t := tally s) q.length
          ((s.ring.readers.eraseIdx i).countP fun b : Reader => !b.parked)
          (by simp [tally, hq]) hwoken.symm
        convert hmove using 1
        simp only [tally, Ring.finish, Ring.take, Shared.pop, hq, hparked]
      | peekWait => exact absurd ⟨by simp [hq], expired, hreader⟩ hkeeps
  · obtain ⟨hempty, -, -⟩ := waitOver_eq_false hover
    have hpark := countP_set (fun b : Reader => b.parked) ⟨w, false, true⟩ hreader
    have hwake := countP_set (fun b : Reader => !b.parked) ⟨w, false, true⟩ hreader
    simp only [Bool.false_eq_true, ↓reduceIte, Bool.not_false, Bool.not_true,
      Nat.add_zero] at hpark hwake
    have hmove := Move.parkAgain (t := tally s) _ (by simp [tally, hempty]) hwake.symm
    convert hmove using 1
    simp only [tally, hpark]

theorem notifyAll_tally (s : System) (m : ℕ) :
    tally { s with ring := s.ring.notifyAll, wakings := m, closeReturned := true } =
      { tally s with woken := (tally s).woken + (tally s).parked, parked := 0 } := by
  have hlen := List.length_eq_countP_add_countP (fun b : Reader => b.parked) (l := s.ring.readers)
  simp only [tally, Ring.notifyAll, List.countP_map, Tally.mk.injEq, true_and]
  constructor
  · simp only [Function.comp_def, Bool.not_false, List.countP_true]
    simp only [Bool.not_eq_true, Bool.decide_eq_false] at hlen
    omega
  · simp [Function.comp_def]

/-- A step is a move of the tally, but where a woken `peek_wait` leaves a frame behind. -/
theorem step_move {s s' : System} {l : Label} (h : step s l = some s')
    (hkeeps : ∀ i, l = .recheck i → ¬ LeavesFrame s i) : Move (tally s) (tally s') := by
  cases step_cases h with
  | push | filter => exact .stay
  | offer i f => exact offer_move s i f
  | notifyOne target n ring hn hring => exact notifyOne_move hring hn
  | pop => exact take_move s .pop
  | enter w expired => exact enter_move s w expired
  | expire i ring hring => exact expire_move hring
  | wake i ring hring =>
    obtain ⟨k, hparked, hafter⟩ := wake_tally hring s.notifies
    rw [hafter]
    exact .wake k hparked
  | recheck i ring hring => exact recheck_move hring (hkeeps i rfl)
  | notifyAll n =>
    rw [notifyAll_tally]
    exact .wakeAll
  | clear => exact .drain
  | markClosed | resetOverflow | setAccept => exact .stay

theorem step_leaves {s s' : System} {i : ℕ} (h : step s (.recheck i) = some s')
    (hleaves : LeavesFrame s i) : tally s' = (tally s).leave := by
  obtain ⟨ring, hring, rfl⟩ := Option.map_eq_some_iff.mp h
  exact recheck_leaves hleaves hring

theorem step_balanced {s s' : System} {l : Label} (hbal : Balanced (tally s))
    (hcovered : Covered s l) (h : step s l = some s') : Balanced (tally s') := by
  by_cases hleaves : ∃ i, l = .recheck i ∧ LeavesFrame s i
  · obtain ⟨i, rfl, hleaves⟩ := hleaves
    rw [step_leaves h hleaves]
    exact hcovered hleaves
  · have hmove := step_move h fun i hl hleaves' => hleaves ⟨i, hl, hleaves'⟩
    exact hmove.balanced hbal

theorem step_unbalanced {s s' : System} {l : Label} (huncovered : ¬ Covered s l)
    (h : step s l = some s') : ¬ Balanced (tally s') := by
  intro hbal
  refine huncovered ?_
  cases l with
  | recheck i =>
    intro hleaves
    rwa [← step_leaves h hleaves]
  | _ => trivial

theorem init_balanced : Balanced (tally System.init) := Balanced.of_no_items rfl

/-- Where the tally is balanced no reader is stranded. -/
theorem noReaderStranded_of_balanced {s : System} (h : Balanced (tally s)) :
    NoReaderStranded s := by
  intro hframe hparked
  by_contra hpending
  simp only [WakeupPending, not_or, not_exists, not_and, Nat.not_lt, Nat.le_zero_eq] at hpending
  obtain ⟨hsignals, hwoken⟩ := hpending
  refine h.not_stranded ⟨List.length_pos_iff.mpr hframe, ?_, hsignals, ?_⟩
  · exact List.countP_pos_iff.mpr hparked
  · refine List.countP_eq_zero.mpr fun b hb hwake => hwoken b hb ?_
    simpa using hwake

/-! ### Where the wakeups run out -/

private theorem exists_of_countP {p : Reader → Bool} {rs : List Reader}
    (h : 0 < rs.countP p) : ∃ (i : ℕ) (b : Reader), rs[i]? = some b ∧ p b = true := by
  obtain ⟨b, hb, hp⟩ := List.countP_pos_iff.mp h
  obtain ⟨i, hi⟩ := List.mem_iff_getElem?.mp hb
  exact ⟨i, b, hi, hp⟩

/-- A woken reader beside a frame returns, and takes one wakeup and at most one frame. -/
theorem exists_recheck {s : System} (hwoken : 0 < (tally s).woken)
    (hitems : 0 < (tally s).items) :
    ∃ i s', step s (.recheck i) = some s' ∧ (tally s').signals = (tally s).signals ∧
      (tally s').parked = (tally s).parked ∧ (tally s').woken + 1 = (tally s).woken ∧
      (tally s).items ≤ (tally s').items + 1 := by
  obtain ⟨i, ⟨w, expired, parked⟩, hreader, hpark⟩ := exists_of_countP hwoken
  obtain rfl : parked = false := by simpa using hpark
  have hover : s.ring.shared.waitOver expired = true := by
    have hq : s.ring.shared.q ≠ [] := List.length_pos_iff.mp hitems
    simp [Shared.waitOver, hq]
  have hparked := countP_eraseIdx (fun b : Reader => b.parked) hreader
  have hcount := countP_eraseIdx (fun b : Reader => !b.parked) hreader
  simp only [Bool.false_eq_true, ↓reduceIte, Bool.not_false, Nat.add_zero] at hparked hcount
  refine ⟨i, { s with ring :=
    { s.ring.finish expired w with readers := s.ring.readers.eraseIdx i } }, ?_, rfl, hparked,
    hcount, ?_⟩
  · simp [step, Ring.recheck, hreader, hover]
  · cases w with
    | peekWait => exact Nat.le_succ _
    | popWait =>
      cases hq : s.ring.shared.q with
      | nil => simp [tally, hq] at hitems
      | cons f q => simp [tally, Ring.finish, Ring.take, Shared.pop, hq]

theorem exists_signal {s : System} (hsignals : 0 < (tally s).signals)
    (hparked : 0 < (tally s).parked) :
    ∃ i s', step s (.notifyOne (some i)) = some s' ∧ (tally s').items = (tally s).items ∧
      (tally s').signals + 1 = (tally s).signals ∧
      (tally s').parked + 1 = (tally s).parked ∧ (tally s').woken = (tally s).woken + 1 := by
  obtain ⟨i, ⟨w, expired, parked⟩, hreader, hpark⟩ := exists_of_countP hparked
  obtain rfl : parked = true := hpark
  obtain ⟨m, hm⟩ : ∃ m, s.notifies = m + 1 := Nat.exists_eq_succ_of_ne_zero (by
    have hpos : 0 < s.notifies := hsignals
    omega)
  have hwake : s.ring.wake i =
      some { s.ring with readers := s.ring.readers.set i ⟨w, expired, false⟩ } := by
    simp [Ring.wake, hreader]
  obtain ⟨k, hk, hafter⟩ := wake_tally hwake m
  refine ⟨i, _, by simp only [step, hm, Ring.notifyOne, hwake]; rfl, ?_, ?_, ?_, ?_⟩
  · rw [hafter]
  · rw [hafter]
    exact hm.symm
  · rw [hafter]
    exact hk.symm
  · rw [hafter]

/-- Out of balance, some order of the calls that are left strands a reader. -/
theorem exists_stranded {s : System} (h : ¬ Balanced (tally s)) :
    ∃ ks t, StepSystem.run step s ks = some t ∧ ¬ NoReaderStranded t := by
  obtain ⟨n, hn⟩ : ∃ n, n = 2 * (tally s).signals + (tally s).woken := ⟨_, rfl⟩
  -- each signal is turned into a woken reader, and each woken reader returns
  induction n using Nat.strong_induction_on generalizing s with
  | _ n ih =>
    simp only [CondvarTally.Balanced, not_or, Nat.not_le] at h
    obtain ⟨hparked, hitems⟩ := h
    by_cases hwoken : 0 < (tally s).woken
    · obtain ⟨i, s', hstep, hsig, hpar, hwok, hit⟩ := exists_recheck hwoken (by omega)
      have hunbalanced : ¬ Balanced (tally s') := by
        simp only [CondvarTally.Balanced]
        omega
      obtain ⟨ks, t, hrun, hstranded⟩ := ih _ (by omega) hunbalanced rfl
      exact ⟨_ :: ks, t, StepSystem.run_cons.mpr ⟨s', hstep, hrun⟩, hstranded⟩
    · by_cases hsignals : 0 < (tally s).signals
      · obtain ⟨i, s', hstep, hit, hsig, hpar, hwok⟩ := exists_signal hsignals (by omega)
        have hunbalanced : ¬ Balanced (tally s') := by
          simp only [CondvarTally.Balanced]
          omega
        obtain ⟨ks, t, hrun, hstranded⟩ := ih _ (by omega) hunbalanced rfl
        exact ⟨_ :: ks, t, StepSystem.run_cons.mpr ⟨s', hstep, hrun⟩, hstranded⟩
      · refine ⟨[], s, rfl, fun hall => ?_⟩
        have hframe : s.ring.shared.q ≠ [] := List.length_pos_iff.mp (by
          show 0 < (tally s).items
          omega)
        have hpark : s.ring.Parked := List.countP_pos_iff.mp (by
          show 0 < (tally s).parked
          omega)
        rcases hall hframe hpark with hsig | ⟨b, hb, hwake⟩
        · exact hsignals hsig
        · exact hwoken (List.countP_pos_iff.mpr ⟨b, hb, by simp [hwake]⟩)

/-- In a run in which no woken `peek_wait` uses up a wakeup that is still needed, no reader
stays parked beside a frame without a wakeup on its way; and where one does, some order of
the remaining calls strands a reader. -/
theorem no_lost_wakeup {ls : List Label} {s : System} (h : run ls = some s)
    (hcovered : StepSystem.Guarded step Covered System.init ls) :
    NoReaderStranded s ∧
      ∀ l s', step s l = some s' → ¬ Covered s l →
        ∃ ks t, StepSystem.run step s' ks = some t ∧ ¬ NoReaderStranded t := by
  have hbal : Balanced (tally s) :=
    StepSystem.run_invariant_of_guarded
      (fun _ _ _ (hinv : Balanced (tally _)) hguard hstep => step_balanced hinv hguard hstep)
      init_balanced hcovered h
  refine ⟨noReaderStranded_of_balanced hbal, fun l s' hstep huncovered => ?_⟩
  exact exists_stranded (step_unbalanced huncovered hstep)

/-- One thread is in `canReadWait` and another in `canReadSync` when a frame arrives. -/
def twoReaders : List Label :=
  [.enter .popWait false, .enter .peekWait false, .push 1 Frame.default, .offer 0]

theorem guarded_of_no_recheck (ls : List Label) (h : ∀ i, .recheck i ∉ ls) (s : System) :
    StepSystem.Guarded step Covered s ls := by
  refine StepSystem.guarded_of_forall (fun l hl t => ?_) s
  cases l with
  | recheck i => exact absurd hl (h i)
  | _ => trivial

/-- The wakeup goes to `pop_wait`, which will take the frame. -/
theorem no_lost_wakeup_notified :
    ∃ s, run (twoReaders ++ [.notifyOne (some 0)]) = some s ∧ s.ring.Parked ∧
      s.ring.shared.q ≠ [] ∧ s.notifies = 0 ∧ WakeupPending s := by
  have hpark : ∃ s, run (twoReaders ++ [.notifyOne (some 0)]) = some s ∧ s.ring.Parked ∧
      s.ring.shared.q ≠ [] ∧ s.notifies = 0 :=
    ⟨_, rfl, by decide, by decide, rfl⟩
  obtain ⟨s, hrun, hparked, hframe, hnone⟩ := hpark
  have hguarded := guarded_of_no_recheck (twoReaders ++ [.notifyOne (some 0)])
    (fun i => by simp [twoReaders]) System.init
  exact ⟨s, hrun, hparked, hframe, hnone, (no_lost_wakeup hrun hguarded).1 hframe hparked⟩

/-- The wakeup goes to `peek_wait`, which returns: the frame stays, and so does the reader
in `pop_wait`. -/
theorem lost_wakeup : ¬ ∀ ls s, run ls = some s → NoReaderStranded s := by
  intro h
  have hstranded : ∃ s, run (twoReaders ++ [.notifyOne (some 1), .recheck 1]) = some s ∧
      s.ring.Parked ∧ s.ring.shared.q ≠ [] ∧ ¬ WakeupPending s :=
    ⟨_, rfl, by decide, by decide, by unfold WakeupPending; decide⟩
  obtain ⟨s, hrun, hparked, hframe, hpending⟩ := hstranded
  exact hpending (h _ s hrun hframe hparked)

end Kvasilloni.LostWakeup
