import Mathlib.Logic.Basic

/-!
A lock with an owner field. The field tracks the threads in the section when it names
exactly those; what a step does to the section is then an acquisition of the free lock, a
release by its owner, or neither.
-/
namespace LockOwner

variable {θ : Type*} {owns owns' : θ → Prop} {owner : Option θ} {th th' : θ}

def Tracks (owns : θ → Prop) (owner : Option θ) : Prop :=
  ∀ th, owns th ↔ owner = some th

theorem Tracks.not_owns (h : Tracks owns none) (th : θ) : ¬ owns th := by
  intro howns
  cases (h th).mp howns

theorem Tracks.exclusive (h : Tracks owns owner) (hth : owns th) (hth' : owns th') :
    th = th' :=
  Option.some.inj (((h th).mp hth).symm.trans ((h th').mp hth'))

theorem tracks_none (h : ∀ th, ¬ owns th) : Tracks owns none :=
  fun th => ⟨fun howns => absurd howns (h th), fun hnone => by cases hnone⟩

theorem Tracks.keep (h : Tracks owns owner) (hsame : ∀ th, owns' th ↔ owns th) :
    Tracks owns' owner :=
  fun th => (hsame th).trans (h th)

theorem Tracks.acquire (h : Tracks owns none) (hth : owns' th)
    (hother : ∀ other, other ≠ th → (owns' other ↔ owns other)) : Tracks owns' (some th) := by
  intro other
  by_cases hne : other = th
  · subst hne
    exact ⟨fun _ => rfl, fun _ => hth⟩
  · have hfree : ¬ owns' other := fun howns =>
      h.not_owns other ((hother other hne).mp howns)
    exact ⟨fun howns => absurd howns hfree, fun heq => absurd (Option.some.inj heq).symm hne⟩

theorem Tracks.release (h : Tracks owns (some th)) (hth : ¬ owns' th)
    (hother : ∀ other, other ≠ th → (owns' other ↔ owns other)) : Tracks owns' none := by
  apply tracks_none
  intro other howns
  by_cases hne : other = th
  · subst hne
    exact hth howns
  · have hheld := (h other).mp ((hother other hne).mp howns)
    exact hne (Option.some.inj hheld).symm

end LockOwner
