import Kvasilloni.Library.StepSystem
import Mathlib.Data.List.Flatten
import Mathlib.Data.List.Perm.Subperm

/-!
A network that may lose, duplicate and reorder messages. What it delivers was sent. And as
long as it duplicates nothing, what it has delivered and what is under way is not more than
what was sent, each message counted as often as it occurs.
-/
namespace LossyNetwork

structure Network (μ : Type*) where
  sent : List μ
  flight : List μ
  delivered : List μ

inductive Event (μ : Type*)
  | send (ms : List μ)
  | lose (i : ℕ)
  | duplicate (i : ℕ)
  | deliver (i : ℕ)

variable {μ : Type*}

def idle : Network μ := ⟨[], [], []⟩

def step (n : Network μ) : Event μ → Option (Network μ)
  | .send ms => some { n with sent := n.sent ++ ms, flight := n.flight ++ ms }
  | .lose i => (n.flight[i]?).map fun _ => { n with flight := n.flight.eraseIdx i }
  | .duplicate i => (n.flight[i]?).map fun m => { n with flight := n.flight ++ [m] }
  | .deliver i => (n.flight[i]?).map fun m =>
      { n with flight := n.flight.eraseIdx i, delivered := n.delivered ++ [m] }

def isDuplicate : Event μ → Bool
  | .duplicate _ => true
  | .send _ | .lose _ | .deliver _ => false

/-- Nothing is under way or delivered that was not sent. -/
def Genuine (n : Network μ) : Prop := ∀ m, m ∈ n.flight ∨ m ∈ n.delivered → m ∈ n.sent

/-- Nothing is under way or delivered more often than it was sent. -/
def Once (n : Network μ) : Prop := (n.delivered ++ n.flight).Subperm n.sent

theorem idle_genuine : Genuine (idle : Network μ) := by
  rintro m (hm | hm) <;> exact absurd hm List.not_mem_nil

theorem idle_once : Once (idle : Network μ) := List.nil_subperm

theorem step_genuine {n n' : Network μ} {e : Event μ} (h : Genuine n) (hstep : step n e = some n') :
    Genuine n' := by
  cases e with
  | send ms =>
    obtain rfl := Option.some.inj hstep
    rintro k (hk | hk)
    · rcases List.mem_append.mp hk with hk | hk
      · exact List.mem_append_left _ (h k (Or.inl hk))
      · exact List.mem_append_right _ hk
    · exact List.mem_append_left _ (h k (Or.inr hk))
  | lose i =>
    obtain ⟨m, -, rfl⟩ := Option.map_eq_some_iff.mp hstep
    rintro k (hk | hk)
    · exact h k (Or.inl (List.mem_of_mem_eraseIdx hk))
    · exact h k (Or.inr hk)
  | duplicate i =>
    obtain ⟨m, hm, rfl⟩ := Option.map_eq_some_iff.mp hstep
    rintro k (hk | hk)
    · rcases List.mem_append.mp hk with hk | hk
      · exact h k (Or.inl hk)
      · rw [List.mem_singleton.mp hk]
        exact h m (Or.inl (List.mem_of_getElem? hm))
    · exact h k (Or.inr hk)
  | deliver i =>
    obtain ⟨m, hm, rfl⟩ := Option.map_eq_some_iff.mp hstep
    rintro k (hk | hk)
    · exact h k (Or.inl (List.mem_of_mem_eraseIdx hk))
    · rcases List.mem_append.mp hk with hk | hk
      · exact h k (Or.inr hk)
      · rw [List.mem_singleton.mp hk]
        exact h m (Or.inl (List.mem_of_getElem? hm))

theorem step_once {n n' : Network μ} {e : Event μ} (h : Once n) (he : isDuplicate e = false)
    (hstep : step n e = some n') : Once n' := by
  unfold Once at *
  cases e with
  | send ms =>
    obtain rfl := Option.some.inj hstep
    rw [← List.append_assoc]
    exact (List.subperm_append_right _).mpr h
  | lose i =>
    obtain ⟨m, -, rfl⟩ := Option.map_eq_some_iff.mp hstep
    exact ((List.append_sublist_append_left _).mpr
      (List.eraseIdx_sublist n.flight i)).subperm.trans h
  | duplicate i => cases he
  | deliver i =>
    obtain ⟨m, hm, rfl⟩ := Option.map_eq_some_iff.mp hstep
    obtain ⟨hi, hget⟩ := List.getElem?_eq_some_iff.mp hm
    have hperm : (m :: n.flight.eraseIdx i).Perm n.flight := by
      rw [← hget]
      exact List.getElem_cons_eraseIdx_perm hi
    refine List.Subperm.trans ?_ h
    rw [List.append_assoc, List.singleton_append]
    exact ((List.perm_append_left_iff _).mpr hperm).subperm

/-- What a receiver makes of the messages, one by one, stays within what it would make of
more of them. -/
theorem subperm_flatMap {β : Type*} {l l' : List μ} (h : l.Subperm l') (f : μ → List β) :
    (l.flatMap f).Subperm (l'.flatMap f) := by
  obtain ⟨k, hperm, hsub⟩ := h
  exact ⟨k.flatMap f, hperm.flatMap_right f, hsub.flatMap f⟩

end LossyNetwork
