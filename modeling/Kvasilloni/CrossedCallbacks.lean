import Kvasilloni.ThreadPlaces

/-!
Deadlocks of the shim. Who holds a lock other than `cb_active` waits for nobody, and
`cb_active` is held for long only by an RX thread in its callback, which waits for nobody
but the RX thread that it joins. So every chain of waits follows joins from callback to
callback, and it ends unless a callback closes a channel whose own callback is closing its
way back: two callbacks that close each other's channel wait for each other for ever.
-/
namespace Kvasilloni.CrossedCallbacks

open Frames SharedRing Programs LockOrder ThreadPlaces WaitFor

variable {T C : Type} [DecidableEq C]

/-! ### What a waiting thread waits for -/

/-- A thread waits for the owner of a lock that it may take, or for the end of a thread. -/
theorem waits_cases {s : Shim T C} {th u : Thread T C} {p : Place C} (h : Follows s th p)
    (hwaits : s.Waits th u) :
    p.held = none ∧
      ((∃ l p', s.owner l = some u ∧ p.acquire l = some p') ∨
        ∃ b, (∃ is, s.prog th = .join b :: is) ∧ s.exited b = false ∧ u = .rx b) := by
  have hleads := h.leads
  unfold Shim.Waits Shim.waitsFor at hwaits
  split at hwaits
  · rename_i l is hprog
    rw [hprog] at hleads
    obtain ⟨p', hacquire, -⟩ := leads_cons.mp hleads
    exact ⟨(acquire_cases hacquire).1, Or.inl ⟨l, p', hwaits, hacquire⟩⟩
  · rename_i b is hprog
    split at hwaits
    · cases hwaits
    · rename_i hexited
      refine ⟨h.joining b is hprog, Or.inr ⟨b, ⟨is, hprog⟩, by simpa using hexited, ?_⟩⟩
      exact (Option.some.inj hwaits).symm
  · rename_i c w duration is hprog
    split at hwaits
    · rename_i hparked
      rw [hprog] at hleads
      obtain ⟨p', htrack, -⟩ := leads_cons.mp hleads
      simp only [track, Option.ite_none_right_eq_some, Option.some.injEq] at htrack
      exact absurd (htrack.1.2.2 (h.flag.mp hparked.1)) hparked.2
    · cases hwaits
  · cases hwaits

/-- Who holds a lock of its place waits for nobody. -/
theorem ends_of_held {s : Shim T C} {th : Thread T C} {p : Place C} {l : Lock C}
    (h : Follows s th p) (hheld : p.held = some l) : Ends s.Waits th := by
  refine ends_of_idle fun u hwaits => ?_
  have hnone := (waits_cases h hwaits).1
  rw [hheld] at hnone
  cases hnone

/-- The owner of a lock waits for nobody, or is an RX thread with its `cb_active`. -/
theorem owner_cases {s : Shim T C} {u : Thread T C} {p : Place C} {l : Lock C}
    (h : Follows s u p) (howner : s.owner l = some u) :
    Ends s.Waits u ∨
      ∃ c, l = .cbActive c ∧ u = .rx c ∧ (p.zone = .active c ∨ p.zone = .inside c) := by
  rcases h.owns l howner with hheld | ⟨c, rfl, hzone⟩
  · exact Or.inl (ends_of_held h hheld)
  · refine Or.inr ⟨c, rfl, ?_, hzone⟩
    have hfits := h.fits
    cases u with
    | app t => rcases hzone with hzone | hzone <;> rw [hzone] at hfits <;> exact hfits.elim
    | rx d =>
      rcases hzone with hzone | hzone <;> rw [hzone] at hfits
      · exact congrArg Thread.rx hfits.symm
      · exact congrArg Thread.rx hfits.symm

/-! ### Every chain of waits ends -/

/-- The chain that starts at an RX thread follows the joins. -/
theorem rx_ends {s : Shim T C} (hplaced : Placed s) {c : C} (hjoins : Ends s.Joins c) :
    Ends s.Waits (.rx c) := by
  obtain ⟨place, hplace⟩ := hplaced
  induction hjoins with
  | intro c _ ih =>
    refine ends_intro fun u hwaits => ?_
    obtain ⟨-, ⟨l, p', howner, hacquire⟩ | ⟨b, hprog, hexited, rfl⟩⟩ :=
      waits_cases (hplace (.rx c)) hwaits
    · rcases owner_cases (hplace u) howner with hends | ⟨d, rfl, rfl, hzone⟩
      · exact hends
      · have hfits := (hplace (.rx c)).fits
        obtain ⟨-, ⟨-, happ⟩ | ⟨e, he, hloop, -⟩⟩ := acquire_cases hacquire
        · rw [happ d rfl] at hfits
          exact hfits.elim
        · cases he
          rw [hloop] at hfits
          cases hfits
          rcases hzone with hzone | hzone <;> rw [hloop] at hzone <;> cases hzone
    · exact ih b ⟨hprog, hexited⟩

theorem waits_end {s : Shim T C} (hplaced : Placed s) (hjoins : ∀ c, Ends s.Joins c)
    (th : Thread T C) : Ends s.Waits th := by
  cases th with
  | rx c => exact rx_ends hplaced (hjoins c)
  | app t =>
    refine ends_intro fun u hwaits => ?_
    have hplaced' := hplaced
    obtain ⟨place, hplace⟩ := hplaced'
    obtain ⟨-, ⟨l, p', howner, -⟩ | ⟨b, -, -, rfl⟩⟩ := waits_cases (hplace (.app t)) hwaits
    · rcases owner_cases (hplace u) howner with hends | ⟨d, -, rfl, -⟩
      · exact hends
      · exact rx_ends hplaced (hjoins d)
    · exact rx_ends hplaced (hjoins b)

/-! ### The joins of a run -/

variable [DecidableEq T]

/-- A callback starts to join the RX thread of another channel, and no chain of joins leads
from there back to its own. -/
def Uncrossed (s : Shim T C) : Label T C → Prop
  | .go (.rx a) _ =>
    match s.prog (.rx a) with
    | .act (.tryJoin b) :: _ =>
      a ≠ b → s.exited b = false → ¬ Relation.ReflTransGen s.Joins b a
    | _ => True
  | _ => True

/-- What a step has to heed. -/
structure Orderly (s : Shim T C) (l : Label T C) : Prop where
  vacant : Vacant s l
  uncrossed : Uncrossed s l

/-- A new join is that of the thread that has just found it is not its own. -/
theorem step_joins_cases {s s' : Shim T C} {l : Label T C} (hplaced : Placed s)
    (hvacant : Vacant s l) (h : step s l = some s') :
    (∀ x y, s'.Joins x y → s.Joins x y) ∨
      ∃ a b outcome is, l = .go (.rx a) outcome ∧ s.prog (.rx a) = .act (.tryJoin b) :: is ∧
        a ≠ b ∧ s.exited b = false ∧ ∀ x y, s'.Joins x y → s.Joins x y ∨ x = a ∧ y = b := by
  obtain ⟨th, hadvance, -⟩ := step_advance hplaced hvacant h
  have hother : ∀ x y, .rx x ≠ th → s'.Joins x y → s.Joins x y := by
    rintro x y hx ⟨⟨is, hprog⟩, hexited⟩
    exact ⟨⟨is, (hadvance.prog (.rx x) hx).symm.trans hprog⟩, hadvance.exited y hexited⟩
  by_cases hnew : ∃ a b, .rx a = th ∧ s'.Joins a b
  · obtain ⟨a, b, rfl, ⟨is, hprog⟩, hexited⟩ := hnew
    obtain ⟨⟨outcome, hl⟩, htry, hne⟩ := hadvance.join b is hprog
    refine Or.inr ⟨a, b, outcome, is, hl, htry, fun hab => hne (congrArg Thread.rx hab),
      hadvance.exited b hexited, fun x y hxy => ?_⟩
    by_cases hx : x = a
    · obtain ⟨⟨js, hjs⟩, -⟩ := hxy
      rw [hx, hprog] at hjs
      cases hjs
      exact Or.inr ⟨hx, rfl⟩
    · exact Or.inl (hother x y (fun heq => hx (Thread.rx.inj heq)) hxy)
  · refine Or.inl fun x y hxy => hother x y (fun hx => hnew ⟨x, y, hx, hxy⟩) hxy

theorem step_joins {s s' : Shim T C} {l : Label T C} (hplaced : Placed s) (hl : Orderly s l)
    (hjoins : ∀ c, Ends s.Joins c) (h : step s l = some s') : ∀ c, Ends s'.Joins c := by
  rcases step_joins_cases hplaced hl.vacant h with
    hsub | ⟨a, b, outcome, is, rfl, hprog, hne, hexited, hadd⟩
  · exact fun c => (hjoins c).mono hsub
  · have hcross := hl.uncrossed
    simp only [Uncrossed, hprog] at hcross
    exact ends_add hjoins (hcross hne hexited) hadd

/-- Every thread is at a place, and every chain of joins ends. -/
structure Untangled (s : Shim T C) : Prop where
  placed : Placed s
  joins : ∀ c, Ends s.Joins c

omit [DecidableEq T] in
theorem init_untangled : Untangled (Shim.init T C) := by
  refine ⟨init_placed, fun c => ends_of_idle ?_⟩
  rintro d ⟨⟨is, hprog⟩, -⟩
  cases hprog

theorem step_untangled {s s' : Shim T C} {l : Label T C} (hinv : Untangled s) (hl : Orderly s l)
    (h : step s l = some s') : Untangled s' :=
  ⟨step_placed hinv.placed hl.vacant h, step_joins hinv.placed hl hinv.joins h⟩

theorem run_untangled {ls : List (Label T C)} {s : Shim T C}
    (hguard : StepSystem.Guarded step Orderly (Shim.init T C) ls) (h : run ls = some s) :
    Untangled s :=
  StepSystem.run_invariant_of_guarded (fun _ _ _ hinv hl hstep => step_untangled hinv hl hstep)
    init_untangled hguard h

omit [DecidableEq C] [DecidableEq T] in
theorem waits_of_joins {s : Shim T C} {a b : C} (h : s.Joins a b) :
    s.Waits (.rx a) (.rx b) := by
  obtain ⟨⟨is, hprog⟩, hexited⟩ := h
  simp [Shim.Waits, Shim.waitsFor, hprog, hexited]

/-- A join across a chain that leads back leaves the threads of the chain deadlocked. -/
theorem crossed_deadlocks {s s' : Shim T C} {l : Label T C} (h : step s l = some s')
    (hcross : ¬ Uncrossed s l) : ∃ S, Deadlocked s'.Waits S := by
  cases l with
  | go th outcome =>
    cases th with
    | app t => exact absurd trivial hcross
    | rx a =>
      simp only [Uncrossed] at hcross
      split at hcross
      · rename_i b is hprog
        simp only [Classical.not_imp, not_not] at hcross
        obtain ⟨hne, hexited, hback⟩ := hcross
        have hown : (.rx a : Thread T C) ≠ .rx b := fun heq => hne (Thread.rx.inj heq)
        simp only [step, hprog, go, perform, if_neg hown, Option.some.injEq] at h
        subst h
        refine deadlocked_of_cycle (waits_of_joins ⟨⟨is, setProg_prog s _ _⟩, hexited⟩)
          (hback.lift Thread.rx fun x y hxy => ?_)
        obtain ⟨⟨js, hjs⟩, hy⟩ := hxy
        have hx : (.rx x : Thread T C) ≠ .rx a := by
          intro heq
          rw [heq, hprog] at hjs
          cases hjs
        exact waits_of_joins ⟨⟨js, (Function.update_of_ne hx _ _).trans hjs⟩, hy⟩
      · exact absurd trivial hcross
  | _ => exact absurd trivial hcross

def joining : List (Stmt C) → Bool
  | .join _ :: _ => true
  | _ => false

/-- The step is seen to be orderly without following any chain: the thread that a callback
starts to join is at no join itself. -/
def calm (s : Shim T C) : Label T C → Bool
  | .go th _ =>
    match th, s.prog th with
    | _, .act (.insert hnd _) :: _ => (s.memory.conns hnd).isNone
    | .rx _, .act (.tryJoin b) :: _ => !joining (s.prog (.rx b))
    | _, _ => true
  | _ => true

omit [DecidableEq C] [DecidableEq T] in
theorem no_chain_of_not_joining {s : Shim T C} {a b : C} (h : joining (s.prog (.rx b)) = false)
    (hne : a ≠ b) : ¬ Relation.ReflTransGen s.Joins b a := by
  intro hback
  rcases hback.cases_head with heq | ⟨c, ⟨⟨is, hprog⟩, -⟩, -⟩
  · exact hne heq.symm
  · rw [hprog] at h
    cases h

omit [DecidableEq C] [DecidableEq T] in
theorem orderly_of_calm {s : Shim T C} {l : Label T C} (h : calm s l = true) : Orderly s l := by
  cases l with
  | go th outcome =>
    refine ⟨?_, ?_⟩
    · simp only [Vacant]
      split
      · rename_i hnd c is hprog
        simpa [calm, hprog] using h
      · exact trivial
    · cases th with
      | app t => exact trivial
      | rx a =>
        simp only [Uncrossed]
        split
        · rename_i b is hprog
          refine fun hne _ => no_chain_of_not_joining ?_ hne
          simpa [calm, hprog] using h
        · exact trivial
  | _ => exact ⟨trivial, trivial⟩

/-- While no step inserts under a handle in use and no callback starts a join from whose
thread a chain of joins leads back to its own, no set of threads is deadlocked; and the
first join that such a chain leads back from deadlocks the threads of the chain. -/
theorem deadlock_free {ls : List (Label T C)} {s : Shim T C}
    (hguard : StepSystem.Guarded step Orderly (Shim.init T C) ls) (h : run ls = some s) :
    (¬ ∃ S, Deadlocked s.Waits S) ∧
      ∀ l s', step s l = some s' → ¬ Uncrossed s l → ∃ S, Deadlocked s'.Waits S := by
  obtain ⟨hplaced, hjoins⟩ := run_untangled hguard h
  exact ⟨not_deadlocked (waits_end hplaced hjoins), fun l s' hstep => crossed_deadlocks hstep⟩

def goes (th : Thread Unit Bool) (n : ℕ) : List (Label Unit Bool) :=
  List.replicate n (.go th true)

/-- Two channels are opened, each gets a callback and a frame, and the callback of the first
closes the second. -/
def closing : List (Label Unit Bool) :=
  [.call () (.canOpenChannel true .tcp)] ++ goes (.app ()) 4 ++
    [.call () (.canOpenChannel false .tcp)] ++ goes (.app ()) 4 ++
    [.call () (.canSetNotify 1 ⟨1, notifyRx, 0⟩)] ++ goes (.app ()) 10 ++
    [.call () (.canSetNotify 2 ⟨1, notifyRx, 0⟩)] ++ goes (.app ()) 10 ++
    [.frame true Frame.default 0] ++ goes (.rx true) 12 ++
    [.frame false Frame.default 0] ++ goes (.rx false) 12 ++
    [.reenter true (.canClose 2)] ++ goes (.rx true) 14

/-- One callback waits for the RX thread of the other channel, which may go on. -/
theorem deadlock_free_closing :
    ∃ s, run closing = some s ∧ s.Waits (.rx true) (.rx false) ∧ ¬ ∃ S, Deadlocked s.Waits S := by
  have hguard : StepSystem.Guarded step Orderly (Shim.init Unit Bool) closing := by
    have hcalm : StepSystem.Guarded step (fun s l => calm s l = true) (Shim.init Unit Bool)
        closing := by decide +kernel
    exact hcalm.mono fun _ _ => orderly_of_calm
  have hrun : (run closing).map (fun s => s.waitsFor (.rx true)) = some (some (.rx false)) := by
    decide +kernel
  obtain ⟨s, hs, hwaits⟩ := Option.map_eq_some_iff.mp hrun
  exact ⟨s, hs, hwaits, (deadlock_free hguard hs).1⟩

/-- The callback of the second channel closes the first. -/
def crossed : List (Label Unit Bool) :=
  closing ++ [.reenter false (.canClose 1)] ++ goes (.rx false) 14

theorem crossed_closes_deadlock :
    ¬ ∀ (ls : List (Label Unit Bool)) (s : Shim Unit Bool), run ls = some s →
      ¬ ∃ S, Deadlocked s.Waits S := by
  intro hall
  have hrun : (run crossed).map (fun s => (s.waitsFor (.rx true), s.waitsFor (.rx false))) =
      some (some (.rx false), some (.rx true)) := by decide +kernel
  obtain ⟨s, hs, hwaits⟩ := Option.map_eq_some_iff.mp hrun
  obtain ⟨hfirst, hsecond⟩ := Prod.mk.inj hwaits
  refine hall crossed s hs ⟨{.rx true, .rx false}, ⟨.rx true, Or.inl rfl⟩, ?_⟩
  rintro t (rfl | rfl)
  · exact ⟨.rx false, Or.inr rfl, hfirst⟩
  · exact ⟨.rx true, Or.inl rfl, hsecond⟩

end Kvasilloni.CrossedCallbacks
