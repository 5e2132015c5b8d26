import Mathlib.Logic.Relation
import Mathlib.Data.Fintype.Sigma
import Mathlib.Data.Fintype.EquivFin
import Mathlib.Algebra.BigOperators.Ring.Finset
import Mathlib.Algebra.Order.BigOperators.Group.Finset

/-!
Jobs that leave other jobs behind. Where no chain of spawned jobs goes on for ever, every
job stands for a fixed amount of work, itself and all that comes of it, and doing one job
takes one off the work that is still to do. Where such a chain does go on for ever, a job
that has one leaves behind a job that has one.
-/
namespace Spawning

variable {α : Type*} (spawns : α → α → Prop)

/-- What comes of this job never ends. -/
def Endless (a : α) : Prop := ¬ Acc (flip spawns) a

variable {spawns}

theorem Endless.next {a : α} (h : Endless spawns a) : ∃ b, spawns a b ∧ Endless spawns b := by
  by_contra hnone
  push Not at hnone
  refine h (Acc.intro a fun b hb => ?_)
  by_contra hacc
  exact hnone b hb hacc

theorem endless_of_cycle {a : α} (h : Relation.TransGen spawns a a) : Endless spawns a := by
  intro hacc
  have htrans : Acc (Relation.TransGen (flip spawns)) a := hacc.transGen
  have hback : Relation.TransGen (flip spawns) a a := Relation.transGen_swap.mpr h
  clear h hacc
  induction htrans with
  | intro a _ ih => exact ih a hback hback

theorem wellFounded_iff_no_cycle [Finite α] :
    WellFounded (flip spawns) ↔ ∀ a, ¬ Relation.TransGen spawns a a := by
  constructor
  · intro hwf a hcycle
    exact endless_of_cycle hcycle (hwf.apply a)
  · intro hnone
    have hirrefl : Std.Irrefl (Relation.TransGen (flip spawns)) :=
      ⟨fun a h => hnone a (Relation.transGen_swap.mp h)⟩
    have htrans : IsTrans α (Relation.TransGen (flip spawns)) :=
      ⟨fun _ _ _ => Relation.TransGen.trans⟩
    have hwf : WellFounded (Relation.TransGen (flip spawns)) :=
      Finite.wellFounded_of_trans_of_irrefl _
    exact Subrelation.wf Relation.TransGen.single hwf

section Work

variable [Fintype α] [DecidableRel spawns] (hwf : WellFounded (flip spawns))

/-- A job and all that comes of it. -/
noncomputable def weight : α → ℕ :=
  hwf.fix fun a ih => 1 + ∑ b : {b // spawns a b}, ih b.1 b.2

theorem weight_eq (a : α) :
    weight hwf a = 1 + ∑ b, if spawns a b then weight hwf b else 0 := by
  rw [weight, WellFounded.fix_eq, Finset.sum_ite, Finset.sum_const_zero, Nat.add_zero]
  congr 1
  exact (Finset.sum_subtype _ (fun b => by simp) (weight hwf)).symm

/-- The work that is still to do, with so many of each job pending. -/
noncomputable def work (pending : α → ℕ) : ℕ := ∑ a, pending a * weight hwf a

theorem work_le {pending pending' : α → ℕ} (h : ∀ a, pending' a ≤ pending a) :
    work hwf pending' ≤ work hwf pending :=
  Finset.sum_le_sum fun a _ => Nat.mul_le_mul_right _ (h a)

/-- New jobs come in. -/
theorem work_add_le {pending pending' : α → ℕ} {new : α → Prop} [DecidablePred new]
    (h : ∀ a, pending' a ≤ pending a + if new a then 1 else 0) :
    work hwf pending' ≤ work hwf pending + ∑ a, if new a then weight hwf a else 0 := by
  have hsum : work hwf (fun a => pending a + if new a then 1 else 0) =
      work hwf pending + ∑ a, if new a then weight hwf a else 0 := by
    unfold work
    rw [← Finset.sum_add_distrib]
    refine Finset.sum_congr rfl fun a _ => ?_
    rw [Nat.add_mul]
    split <;> simp
  exact hsum ▸ work_le hwf h

/-- One job is done, and at most the jobs that it spawns are new. -/
theorem work_done_lt [DecidableEq α] {pending pending' : α → ℕ} {a : α}
    (h : ∀ b, pending' b + (if b = a then 1 else 0) ≤
      pending b + if spawns a b then 1 else 0) :
    work hwf pending' < work hwf pending := by
  have hmore := work_add_le hwf h
  have hsum : work hwf (fun b => pending' b + if b = a then 1 else 0) =
      work hwf pending' + weight hwf a := by
    unfold work
    rw [Finset.sum_congr rfl fun b _ => Nat.add_mul _ _ _, Finset.sum_add_distrib]
    simp
  have hweight := weight_eq hwf a
  omega

end Work

end Spawning
