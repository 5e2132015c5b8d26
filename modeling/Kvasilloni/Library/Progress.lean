import Kvasilloni.Library.StepSystem
import Mathlib.Order.Basic
import Mathlib.Algebra.BigOperators.Group.List.Basic
import Mathlib.Algebra.GroupWithZero.Nat
import Mathlib.Data.Nat.Init

/-!
Progress of a step system, by a measure of what is still to do. A measure that no step
brings up bounds the number of steps that bring it down. And where every state that is not
done yet has a step that brings it down, a run leads to a state that is done.
-/
namespace StepSystem

variable {σ ι : Type*}

/-- How many steps of the run are of a kind. -/
def countSteps (step : σ → ι → Option σ) (kind : σ → ι → Bool) (s : σ) : List ι → ℕ
  | [] => 0
  | l :: ls =>
    match step s l with
    | none => 0
    | some s' => (kind s l).toNat + countSteps step kind s' ls

variable {step : σ → ι → Option σ} (measure : σ → ℕ)

/-- A step may bring the measure up by the allowance of its label. -/
theorem countSteps_le_allowance {kind : σ → ι → Bool} {allowance : ι → ℕ}
    (hstep : ∀ s l s', step s l = some s' →
      (kind s l).toNat + measure s' ≤ measure s + allowance l)
    {s t : σ} {ls : List ι} (h : run step s ls = some t) :
    countSteps step kind s ls + measure t ≤ measure s + (ls.map allowance).sum := by
  induction ls generalizing s with
  | nil =>
    obtain rfl := Option.some.inj h
    simp [countSteps]
  | cons l ls ih =>
    obtain ⟨s', hl, hrest⟩ := run_cons.mp h
    have hone := hstep s l s' hl
    have hmore := ih hrest
    simp only [countSteps, hl, List.map_cons, List.sum_cons]
    omega

theorem countSteps_le {kind : σ → ι → Bool}
    (hstep : ∀ s l s', step s l = some s' → (kind s l).toNat + measure s' ≤ measure s)
    {s t : σ} {ls : List ι} (h : run step s ls = some t) :
    countSteps step kind s ls + measure t ≤ measure s := by
  have hle : countSteps step kind s ls + measure t ≤ measure s + (ls.map fun _ => 0).sum :=
    countSteps_le_allowance measure (fun s l s' hl => hstep s l s' hl) h
  simpa using hle

/-- It is enough that the measure goes down in the states that meet an invariant. -/
theorem countSteps_le_of_invariant {kind : σ → ι → Bool} {inv : σ → Prop}
    (hstep : ∀ s l s', inv s → step s l = some s' →
      inv s' ∧ (kind s l).toNat + measure s' ≤ measure s)
    {s t : σ} {ls : List ι} (hs : inv s) (h : run step s ls = some t) :
    countSteps step kind s ls + measure t ≤ measure s := by
  induction ls generalizing s with
  | nil =>
    obtain rfl := Option.some.inj h
    simp [countSteps]
  | cons l ls ih =>
    obtain ⟨s', hl, hrest⟩ := run_cons.mp h
    obtain ⟨hs', hone⟩ := hstep s l s' hs hl
    have hmore := ih hs' hrest
    simp only [countSteps, hl]
    omega

theorem countSteps_append {kind : σ → ι → Bool} {s t : σ} {ls ks : List ι}
    (h : run step s ls = some t) :
    countSteps step kind s (ls ++ ks) = countSteps step kind s ls + countSteps step kind t ks := by
  induction ls generalizing s with
  | nil =>
    obtain rfl := Option.some.inj h
    simp [countSteps]
  | cons l ls ih =>
    obtain ⟨s', hl, hrest⟩ := run_cons.mp h
    simp only [List.cons_append, countSteps, hl, ih hrest]
    omega

/-- Where every state that is not done has a step that meets the guard and brings the measure
down, a run of such steps leads to one that is done. -/
theorem exists_guarded_run {inv done : σ → Prop} {guard : σ → ι → Prop}
    (hstep : ∀ s, inv s → ¬ done s →
      ∃ l s', guard s l ∧ step s l = some s' ∧ inv s' ∧ measure s' < measure s)
    {s : σ} (hs : inv s) :
    ∃ ls t, Guarded step guard s ls ∧ run step s ls = some t ∧ inv t ∧ done t := by
  induction hn : measure s using Nat.strong_induction_on generalizing s with
  | _ n ih =>
    by_cases hdone : done s
    · exact ⟨[], s, trivial, rfl, hs, hdone⟩
    · obtain ⟨l, s', hl, hone, hs', hlt⟩ := hstep s hs hdone
      obtain ⟨ls, t, hls, hrest, ht, hdone'⟩ := ih _ (hn ▸ hlt) hs' rfl
      refine ⟨l :: ls, t, ⟨hl, fun u hu => ?_⟩, run_cons.mpr ⟨s', hone, hrest⟩, ht, hdone'⟩
      obtain rfl := Option.some.inj (hone.symm.trans hu)
      exact hls

/-- The same where it depends on the label alone whether a step may be used. -/
theorem exists_run_of_measure {inv done : σ → Prop} {usable : ι → Prop}
    (hstep : ∀ s, inv s → ¬ done s →
      ∃ l s', usable l ∧ step s l = some s' ∧ inv s' ∧ measure s' < measure s)
    {s : σ} (hs : inv s) :
    ∃ ls t, (∀ l ∈ ls, usable l) ∧ run step s ls = some t ∧ inv t ∧ done t := by
  obtain ⟨ls, t, hls, hrun, ht⟩ := exists_guarded_run measure hstep hs
  exact ⟨ls, t, hls.forall_mem hrun, hrun, ht⟩

end StepSystem
