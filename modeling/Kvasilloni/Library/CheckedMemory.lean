import Mathlib.Data.Vector.Basic

/-!
Memory accesses that fault instead of reading or writing out of range.
A checked computation either returns a value or names the fault that stopped
it. Indexing, slicing and overwriting a prefix are the only primitive accesses,
so a computation that is proved never to fault has no access out of range.
-/
namespace CheckedMemory

inductive Fault
  | index
  | slice
  | overwrite
  deriving DecidableEq, Repr

abbrev Checked (α : Type) := Except Fault α

@[simp] theorem ok_bind {α β : Type} (a : α) (k : α → Checked β) :
    ((Except.ok a : Checked α) >>= k) = k a := rfl

@[simp] theorem pure_eq_ok {α : Type} (a : α) : (pure a : Checked α) = Except.ok a := rfl

theorem bind_eq_ok {α β : Type} {c : Checked α} {k : α → Checked β} {b : β} :
    (c >>= k) = .ok b ↔ ∃ a, c = .ok a ∧ k a = .ok b := by
  cases c with
  | ok a => simp
  | error e =>
    constructor
    · intro h
      cases h
    · rintro ⟨a, h, -⟩
      cases h

variable {α : Type}

/-- The element at position `i`. -/
def index (buf : List α) (i : ℕ) : Checked α :=
  match buf[i]? with
  | some a => .ok a
  | none => .error .index

/-- The elements from position `a` up to, not including, position `b`. -/
def slice (buf : List α) (a b : ℕ) : Checked (List α) :=
  if a ≤ b ∧ b ≤ buf.length then .ok ((buf.drop a).take (b - a)) else .error .slice

/-- Replace the first `src.length` elements of `buf` by `src`. -/
def overwrite (buf src : List α) : Checked (List α) :=
  if src.length ≤ buf.length then .ok (src ++ buf.drop src.length) else .error .overwrite

/-- `overwrite` on a block of fixed size, which keeps its size. -/
def overwriteBlock {n : ℕ} (block : List.Vector α n) (src : List α) :
    Checked (List.Vector α n) :=
  if h : src.length ≤ n then
    .ok ⟨src ++ block.toList.drop src.length, by
      simp only [List.length_append, List.length_drop, List.Vector.toList_length]
      omega⟩
  else .error .overwrite

@[simp] theorem index_zero (a : α) (buf : List α) : index (a :: buf) 0 = .ok a := rfl

@[simp] theorem index_succ (a : α) (buf : List α) (i : ℕ) :
    index (a :: buf) (i + 1) = index buf i := by
  simp [index]

/-- An access behind a known prefix is an access to what follows it. -/
theorem index_append (pre buf : List α) (i : ℕ) :
    index (pre ++ buf) (pre.length + i) = index buf i := by
  simp [index, List.getElem?_append_right]

theorem slice_append (pre buf : List α) (a b : ℕ) :
    slice (pre ++ buf) (pre.length + a) (pre.length + b) = slice buf a b := by
  have hle : pre.length + a ≤ pre.length + b ∧ pre.length + b ≤ (pre ++ buf).length ↔
      a ≤ b ∧ b ≤ buf.length := by
    simp only [List.length_append]
    omega
  have hsub : pre.length + b - (pre.length + a) = b - a := by omega
  have hdrop : (pre ++ buf).drop (pre.length + a) = buf.drop a := by
    simp [List.drop_append, List.drop_eq_nil_of_le]
  simp only [slice, hle, hsub, hdrop]

theorem slice_zero (buf : List α) (n : ℕ) (hn : n ≤ buf.length) :
    slice buf 0 n = .ok (buf.take n) := by
  simp [slice, hn]

theorem overwrite_ok (buf src : List α) (h : src.length ≤ buf.length) :
    overwrite buf src = .ok (src ++ buf.drop src.length) := by
  simp [overwrite, h]

theorem overwriteBlock_ok {n : ℕ} (block : List.Vector α n) (src : List α)
    (h : src.length ≤ n) :
    ∃ block', overwriteBlock block src = .ok block' ∧
      block'.toList = src ++ block.toList.drop src.length :=
  ⟨_, dif_pos h, rfl⟩

end CheckedMemory
