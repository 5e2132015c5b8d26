import Mathlib.Data.List.Basic
import Mathlib.Data.List.Pairwise

/-!
A queue of bounded capacity that refuses what finds it full and remembers, until
it is next emptied, that it did. What was taken out, followed by what is still
queued, is what was let in, in the same order.
-/
namespace BoundedFifo

variable {α : Type*}

structure Fifo (α : Type*) where
  queue : List α
  lost : Bool

inductive Event (α : Type*)
  | offer (a : α)
  | take
  | drain
  | observe

def empty : Fifo α := ⟨[], false⟩

/-- The effect of one event on a queue of capacity `cap`. -/
def step (cap : ℕ) (x : Fifo α) : Event α → Fifo α
  | .offer a =>
    if cap ≤ x.queue.length then { x with lost := true }
    else { x with queue := x.queue ++ [a] }
  | .take => { x with queue := x.queue.tail }
  | .drain => ⟨[], false⟩
  | .observe => x

/-- What an event takes out of the queue. -/
def taken (x : Fifo α) : Event α → List α
  | .take => x.queue.take 1
  | .drain => x.queue
  | _ => []

/-- What an event lets into the queue. -/
def letIn (cap : ℕ) (x : Fifo α) : Event α → List α
  | .offer a => if cap ≤ x.queue.length then [] else [a]
  | _ => []

def offered : Event α → List α
  | .offer a => [a]
  | _ => []

def run (cap : ℕ) (x : Fifo α) : List (Event α) → Fifo α
  | [] => x
  | e :: es => run cap (step cap x e) es

def removed (cap : ℕ) (x : Fifo α) : List (Event α) → List α
  | [] => []
  | e :: es => taken x e ++ removed cap (step cap x e) es

def admitted (cap : ℕ) (x : Fifo α) : List (Event α) → List α
  | [] => []
  | e :: es => letIn cap x e ++ admitted cap (step cap x e) es

theorem step_length_le (cap : ℕ) (x : Fifo α) (e : Event α) (h : x.queue.length ≤ cap) :
    (step cap x e).queue.length ≤ cap := by
  cases e with
  | offer a =>
    by_cases hfull : cap ≤ x.queue.length
    · simpa [step, hfull] using h
    · simp only [step, hfull, ↓reduceIte, List.length_append, List.length_singleton]
      omega
  | take =>
    simp only [step, List.length_tail]
    omega
  | drain => simp [step]
  | observe => exact h

theorem run_length_le (cap : ℕ) (x : Fifo α) (es : List (Event α))
    (h : x.queue.length ≤ cap) : (run cap x es).queue.length ≤ cap := by
  induction es generalizing x with
  | nil => exact h
  | cons e es ih => exact ih _ (step_length_le cap x e h)

theorem taken_append_queue (cap : ℕ) (x : Fifo α) (e : Event α) :
    taken x e ++ (step cap x e).queue = x.queue ++ letIn cap x e := by
  cases e with
  | offer a =>
    by_cases hfull : cap ≤ x.queue.length <;> simp [taken, step, letIn, hfull]
  | take => cases hq : x.queue <;> simp [taken, step, letIn, hq]
  | drain => simp [taken, step, letIn]
  | observe => simp [taken, step, letIn]

/-- Nothing is lost, repeated or reordered between admission and removal. -/
theorem removed_append_queue (cap : ℕ) (x : Fifo α) (es : List (Event α)) :
    removed cap x es ++ (run cap x es).queue = x.queue ++ admitted cap x es := by
  induction es generalizing x with
  | nil => simp [removed, run, admitted]
  | cons e es ih =>
    simp only [removed, run, admitted, List.append_assoc]
    rw [ih, ← List.append_assoc, taken_append_queue, List.append_assoc]

theorem letIn_sublist (cap : ℕ) (x : Fifo α) (e : Event α) :
    (letIn cap x e).Sublist (offered e) := by
  cases e with
  | offer a =>
    simp only [letIn, offered]
    split
    · exact List.nil_sublist _
    · exact List.Sublist.refl _
  | take | drain | observe => exact List.Sublist.refl _

/-- What is let in is offered, in the same order. -/
theorem admitted_sublist (cap : ℕ) (x : Fifo α) (es : List (Event α)) :
    (admitted cap x es).Sublist (es.flatMap offered) := by
  induction es generalizing x with
  | nil => exact List.Sublist.refl _
  | cons e es ih => exact (letIn_sublist cap x e).append (ih _)

/-- An offer that finds the queue full, with no emptying after it. -/
def Refused (cap : ℕ) (x : Fifo α) (es : List (Event α)) : Prop :=
  ∃ pre a post, es = pre ++ .offer a :: post ∧ cap ≤ (run cap x pre).queue.length ∧
    ∀ e ∈ post, e ≠ .drain

theorem refused_nil (cap : ℕ) (x : Fifo α) : ¬ Refused cap x [] := by
  rintro ⟨pre, a, post, h, -⟩
  simp at h

theorem refused_cons (cap : ℕ) (x : Fifo α) (e : Event α) (es : List (Event α)) :
    Refused cap x (e :: es) ↔
      Refused cap (step cap x e) es ∨
        (∃ a, e = .offer a) ∧ cap ≤ x.queue.length ∧ ∀ d ∈ es, d ≠ .drain := by
  constructor
  · rintro ⟨_ | ⟨d, pre⟩, a, post, h, hfull, hpost⟩
    · simp only [List.nil_append, List.cons.injEq] at h
      obtain ⟨rfl, rfl⟩ := h
      exact Or.inr ⟨⟨a, rfl⟩, hfull, hpost⟩
    · simp only [List.cons_append, List.cons.injEq] at h
      obtain ⟨rfl, rfl⟩ := h
      exact Or.inl ⟨pre, a, post, rfl, hfull, hpost⟩
  · rintro (⟨pre, a, post, rfl, hfull, hpost⟩ | ⟨⟨a, rfl⟩, hfull, hpost⟩)
    · exact ⟨e :: pre, a, post, rfl, hfull, hpost⟩
    · exact ⟨[], a, es, rfl, hfull, hpost⟩

/-- The loss mark tells whether something was refused since the queue was last
emptied, or the mark was set before and nothing emptied the queue. -/
theorem run_lost_iff (cap : ℕ) (x : Fifo α) (es : List (Event α)) :
    (run cap x es).lost = true ↔
      Refused cap x es ∨ x.lost = true ∧ ∀ e ∈ es, e ≠ .drain := by
  induction es generalizing x with
  | nil =>
    simp only [run, refused_nil, false_or, List.not_mem_nil, false_implies, implies_true,
      and_true]
  | cons e es ih =>
    rw [run, ih, refused_cons]
    simp only [List.forall_mem_cons]
    cases e with
    | offer a =>
      by_cases hfull : cap ≤ x.queue.length
      · simp [step, hfull]
        tauto
      · simp [step, hfull]
    | take => simp [step]
    | drain => simp [step]
    | observe => simp [step]

end BoundedFifo
