import Mathlib.Logic.Relation
import Mathlib.Data.Set.Basic

/-!
Who waits for whom. A set of parties is deadlocked when each of them waits for another
member of it. That cannot be where every chain of waits comes to an end; one more wait
leaves it so, as long as no chain leads back from the party that is now waited for.
-/
namespace WaitFor

variable {θ : Type*} {waits waits' : θ → θ → Prop}

/-- Each member waits for a member. -/
structure Deadlocked (waits : θ → θ → Prop) (S : Set θ) : Prop where
  nonempty : S.Nonempty
  closed : ∀ t ∈ S, ∃ u ∈ S, waits t u

/-- No chain of waits goes on from here for ever. -/
def Ends (waits : θ → θ → Prop) (t : θ) : Prop := Acc (flip waits) t

theorem ends_intro {t : θ} (h : ∀ u, waits t u → Ends waits u) : Ends waits t :=
  Acc.intro t h

theorem ends_of_idle {t : θ} (h : ∀ u, ¬ waits t u) : Ends waits t :=
  ends_intro fun u hwaits => absurd hwaits (h u)

theorem Ends.mono {t : θ} (h : Ends waits t) (hsub : ∀ x y, waits' x y → waits x y) :
    Ends waits' t :=
  Subrelation.accessible (fun {y x} hwaits => hsub x y hwaits) h

/-- A chain that stays inside a deadlocked set does not end. -/
theorem not_deadlocked (h : ∀ t, Ends waits t) : ¬ ∃ S, Deadlocked waits S := by
  rintro ⟨S, ⟨t, ht⟩, hclosed⟩
  have hleave : ∀ t, Ends waits t → t ∉ S := by
    intro t hends
    induction hends with
    | intro t _ ih =>
      intro ht
      obtain ⟨u, hu, hwaits⟩ := hclosed t ht
      exact ih u hwaits hu
  exact hleave t (h t) ht

/-- One more wait closes no chain that does not lead back to it. -/
theorem ends_add {a b : θ} (h : ∀ t, Ends waits t) (hfree : ¬ Relation.ReflTransGen waits b a)
    (hadd : ∀ x y, waits' x y → waits x y ∨ x = a ∧ y = b) : ∀ t, Ends waits' t := by
  have haway : ∀ t, Ends waits t → ¬ Relation.ReflTransGen waits t a → Ends waits' t := by
    intro t hends
    induction hends with
    | intro t _ ih =>
      intro hfar
      refine ends_intro fun u hwaits => ?_
      rcases hadd t u hwaits with hold | ⟨rfl, -⟩
      · exact ih u hold fun hback => hfar (hback.head hold)
      · exact absurd .refl hfar
  intro t
  induction h t with
  | intro t _ ih =>
    refine ends_intro fun u hwaits => ?_
    rcases hadd t u hwaits with hold | ⟨-, rfl⟩
    · exact ih u hold
    · exact haway u (h u) hfree

/-- A wait for a party from which a chain leads back closes a cycle. -/
theorem deadlocked_of_cycle {a b : θ} (hwaits : waits a b)
    (hback : Relation.ReflTransGen waits b a) : ∃ S, Deadlocked waits S := by
  refine ⟨{t | Relation.ReflTransGen waits b t ∧ Relation.ReflTransGen waits t a},
    ⟨b, .refl, hback⟩, ?_⟩
  rintro t ⟨hbt, hta⟩
  rcases Relation.ReflTransGen.cases_head hta with rfl | ⟨u, htu, hua⟩
  · exact ⟨b, ⟨.refl, hback⟩, hwaits⟩
  · exact ⟨u, ⟨hbt.tail htu, hua⟩, htu⟩

end WaitFor
