import Mathlib.Data.List.DropRight

/-!
Taking text apart: what stands between two runs of blanks, and what stands before and
behind the first separator. A blank is whatever a predicate says, so two notions of blank
can be compared.
-/
namespace Trimming

variable {α : Type*} {p q : α → Bool} {l : List α}

/-- The list without the blanks at its two ends. -/
def trim (p : α → Bool) (l : List α) : List α := (l.dropWhile p).rdropWhile p

/-- Neither end is a blank. -/
structure Trimmed (p : α → Bool) (l : List α) : Prop where
  head : ∀ c ∈ l.head?, p c = false
  last : ∀ c ∈ l.getLast?, p c = false

theorem dropWhile_blanks {a : List α} (ha : ∀ c ∈ a, p c = true) (l : List α) :
    (a ++ l).dropWhile p = l.dropWhile p := by
  rw [List.dropWhile_append, List.dropWhile_eq_nil_iff.mpr ha]
  rfl

theorem rdropWhile_blanks {b : List α} (hb : ∀ c ∈ b, p c = true) (l : List α) :
    (l ++ b).rdropWhile p = l.rdropWhile p := by
  unfold List.rdropWhile
  rw [List.reverse_append, dropWhile_blanks fun c hc => hb c (List.mem_reverse.mp hc)]

theorem dropWhile_head (h : ∀ c ∈ l.head?, p c = false) : l.dropWhile p = l := by
  cases l with
  | nil => rfl
  | cons c l => exact List.dropWhile_cons_of_neg (by simp [h c rfl])

theorem trim_of_trimmed (h : Trimmed p l) : trim p l = l := by
  unfold trim
  rw [dropWhile_head h.head, List.rdropWhile_eq_self_iff]
  intro hne
  rw [h.last _ (List.getLast?_eq_some_getLast hne)]
  exact Bool.false_ne_true

/-- The blanks at the two ends, and what stands between them. -/
theorem exists_trim (p : α → Bool) (l : List α) :
    ∃ a b, (∀ c ∈ a, p c = true) ∧ (∀ c ∈ b, p c = true) ∧ l = a ++ (trim p l ++ b) := by
  refine ⟨l.takeWhile p, (l.dropWhile p).rtakeWhile p, fun c hc => List.mem_takeWhile_imp hc,
    fun c hc => List.mem_rtakeWhile_imp hc, ?_⟩
  unfold trim
  rw [List.rdropWhile_append_rtakeWhile, List.takeWhile_append_dropWhile]

theorem trimmed_trim (p : α → Bool) (l : List α) : Trimmed p (trim p l) := by
  constructor
  · intro c hc
    have hprefix : trim p l <+: l.dropWhile p := List.rdropWhile_prefix p _
    have hhead : (l.dropWhile p).head? = some c := by
      obtain ⟨t, ht⟩ := hprefix
      rw [← ht, List.head?_append, hc]
      rfl
    have hnot := List.head?_dropWhile_not p l
    rw [hhead] at hnot
    simpa using hnot
  · intro c hc
    have hne : trim p l ≠ [] := by
      rintro h
      rw [h] at hc
      cases hc
    have hlast := List.rdropWhile_last_not p (l.dropWhile p) hne
    rw [List.getLast?_eq_some_getLast hne] at hc
    obtain rfl := Option.some.inj hc
    simpa [trim] using hlast

theorem trim_eq_self_iff : trim p l = l ↔ Trimmed p l :=
  ⟨fun h => h ▸ trimmed_trim p l, trim_of_trimmed⟩

@[simp] theorem trim_nil : trim p ([] : List α) = [] := rfl

@[simp] theorem trim_trim : trim p (trim p l) = trim p l := trim_of_trimmed (trimmed_trim p l)

/-- Blanks around a text are trimmed with it. -/
theorem trim_blanks {a b : List α} (ha : ∀ c ∈ a, p c = true) (hb : ∀ c ∈ b, p c = true)
    (l : List α) : trim p (a ++ (l ++ b)) = trim p l := by
  unfold trim
  rw [dropWhile_blanks ha]
  by_cases hblank : ∀ c ∈ l, p c = true
  · have hall : ∀ c ∈ l ++ b, p c = true := fun c hc =>
      (List.mem_append.mp hc).elim (hblank c) (hb c)
    rw [List.dropWhile_eq_nil_iff.mpr hblank, List.dropWhile_eq_nil_iff.mpr hall]
  · have hne : (l.dropWhile p).isEmpty = false := by
      rw [List.isEmpty_eq_false_iff, ne_eq, List.dropWhile_eq_nil_iff]
      exact hblank
    rw [List.dropWhile_append, hne, if_neg Bool.false_ne_true, rdropWhile_blanks hb]

theorem trim_blanks_left {a : List α} (ha : ∀ c ∈ a, p c = true) (l : List α) :
    trim p (a ++ l) = trim p l := by
  simpa using trim_blanks ha (b := []) (by simp) l

theorem trim_blanks_right {b : List α} (hb : ∀ c ∈ b, p c = true) (l : List α) :
    trim p (l ++ b) = trim p l := by
  simpa using trim_blanks (a := []) (by simp) hb l

theorem trim_eq_nil_iff : trim p l = [] ↔ ∀ c ∈ l, p c = true := by
  constructor
  · intro h
    obtain ⟨a, b, ha, hb, hl⟩ := exists_trim p l
    rw [hl, h]
    intro c hc
    exact (List.mem_append.mp hc).elim (ha c) (hb c)
  · intro h
    simpa using trim_blanks_left h ([] : List α)

theorem mem_of_mem_trim {c : α} (hc : c ∈ trim p l) : c ∈ l := by
  obtain ⟨a, b, -, -, hl⟩ := exists_trim p l
  rw [hl]
  exact List.mem_append_right a (List.mem_append_left b hc)

/-- Trimming first by a narrower notion of blank makes no difference. -/
theorem trim_of_narrower (hpq : ∀ c, p c = true → q c = true) : trim q (trim p l) = trim q l := by
  obtain ⟨a, b, ha, hb, hl⟩ := exists_trim p l
  conv_rhs => rw [hl]
  rw [trim_blanks (fun c hc => hpq c (ha c hc)) fun c hc => hpq c (hb c hc)]

theorem trim_congr (hpq : ∀ c ∈ l, p c = q c) : trim p l = trim q l := by
  obtain ⟨a, b, ha, hb, hl⟩ := exists_trim p l
  have hmem : ∀ c ∈ trim p l, c ∈ l := fun c hc => mem_of_mem_trim hc
  have htrimmed : Trimmed q (trim p l) := by
    have h := trimmed_trim p l
    constructor
    · intro c hc
      rw [← hpq c (hmem c (List.mem_of_mem_head? hc))]
      exact h.head c hc
    · intro c hc
      rw [← hpq c (hmem c (List.mem_of_getLast? hc))]
      exact h.last c hc
  conv_rhs => rw [hl]
  rw [trim_blanks, trim_of_trimmed htrimmed]
  · intro c hc
    rw [← hpq c (hl ▸ List.mem_append_left _ hc)]
    exact ha c hc
  · intro c hc
    rw [← hpq c (hl ▸ List.mem_append_right _ (List.mem_append_right _ hc))]
    exact hb c hc

theorem trim_map {f : α → α} (hf : ∀ c, p (f c) = p c) : trim p (l.map f) = (trim p l).map f := by
  obtain ⟨a, b, ha, hb, hl⟩ := exists_trim p l
  have hblank : ∀ a : List α, (∀ c ∈ a, p c = true) → ∀ c ∈ a.map f, p c = true := by
    intro a ha c hc
    obtain ⟨d, hd, rfl⟩ := List.mem_map.mp hc
    rw [hf]
    exact ha d hd
  have htrimmed : Trimmed p ((trim p l).map f) := by
    have h := trimmed_trim p l
    constructor
    · intro c hc
      rw [List.head?_map] at hc
      obtain ⟨d, hd, rfl⟩ := Option.map_eq_some_iff.mp hc
      rw [hf]
      exact h.head d hd
    · intro c hc
      rw [List.getLast?_map] at hc
      obtain ⟨d, hd, rfl⟩ := Option.map_eq_some_iff.mp hc
      rw [hf]
      exact h.last d hd
  conv_lhs => rw [hl, List.map_append, List.map_append]
  rw [trim_blanks (hblank a ha) (hblank b hb), trim_of_trimmed htrimmed]

/-! ### Around a separator -/

theorem trim_dropWhile (l : List α) : trim p (l.dropWhile p) = trim p l := by
  unfold trim
  rw [List.dropWhile_idempotent]

/-- What is trimmed behind the blanks in front. -/
theorem exists_dropWhile (p : α → Bool) (l : List α) : ∃ w, (∀ c ∈ w, p c = true) ∧
    l.dropWhile p = trim p l ++ w ∧ (trim p l = [] → w = []) := by
  refine ⟨(l.dropWhile p).rtakeWhile p, fun c hc => List.mem_rtakeWhile_imp hc,
    (List.rdropWhile_append_rtakeWhile ..).symm, fun h => ?_⟩
  rw [List.dropWhile_eq_nil_iff.mpr (trim_eq_nil_iff.mp h)]
  rfl

/-- Trimming stops at an element that is no blank, from either side. -/
theorem trim_append_cons {c : α} (hc : p c = false) (a b : List α) :
    trim p (a ++ c :: b) = a.dropWhile p ++ c :: b.rdropWhile p := by
  have hfront : (a ++ c :: b).dropWhile p = a.dropWhile p ++ c :: b := by
    rw [List.dropWhile_append, List.dropWhile_cons_of_neg (by simp [hc])]
    split
    · rename_i hempty
      rw [List.isEmpty_iff.mp hempty, List.nil_append]
    · rfl
  have hback : ∀ x : List α, (x ++ c :: b).rdropWhile p = x ++ c :: b.rdropWhile p := by
    intro x
    have hkeep : x ++ c :: b = x ++ (c :: b.rdropWhile p) ++ b.rtakeWhile p := by
      rw [List.append_assoc, List.cons_append, List.rdropWhile_append_rtakeWhile]
    rw [hkeep, rdropWhile_blanks fun d hd => List.mem_rtakeWhile_imp hd]
    rw [List.rdropWhile_eq_self_iff]
    intro hne
    rw [List.getLast_append_of_ne_nil _ (List.cons_ne_nil _ _)]
    by_cases hrest : b.rdropWhile p = []
    · simp [hrest, hc]
    · rw [List.getLast_cons hrest]
      exact List.rdropWhile_last_not p b hrest
  rw [trim, hfront, hback]

/-! ### The first separator -/

section Separator

variable [DecidableEq α]

/-- What stands before and behind the first separator. -/
def splitOnce (sep : α) : List α → Option (List α × List α)
  | [] => none
  | c :: l => if c = sep then some ([], l) else (splitOnce sep l).map fun r => (c :: r.1, r.2)

theorem splitOnce_append {sep : α} {a : List α} (ha : sep ∉ a) (b : List α) :
    splitOnce sep (a ++ sep :: b) = some (a, b) := by
  induction a with
  | nil => simp [splitOnce]
  | cons c a ih =>
    obtain ⟨hc, ha'⟩ := not_or.mp (List.mem_cons.not.mp ha)
    rw [List.cons_append, splitOnce, if_neg (Ne.symm hc), ih ha']
    rfl

theorem splitOnce_eq_none {sep : α} : splitOnce sep l = none ↔ sep ∉ l := by
  induction l with
  | nil => simp [splitOnce]
  | cons c l ih =>
    by_cases hc : c = sep
    · simp [splitOnce, hc]
    · simp [splitOnce, hc, ih, Ne.symm hc]

theorem splitOnce_eq_some {sep : α} {a b : List α} :
    splitOnce sep l = some (a, b) ↔ l = a ++ sep :: b ∧ sep ∉ a := by
  constructor
  · intro h
    induction l generalizing a with
    | nil => cases h
    | cons c l ih =>
      by_cases hc : c = sep
      · rw [splitOnce, if_pos hc] at h
        cases h
        exact ⟨by rw [hc]; rfl, List.not_mem_nil⟩
      · rw [splitOnce, if_neg hc] at h
        obtain ⟨⟨a', b'⟩, hrest, heq⟩ := Option.map_eq_some_iff.mp h
        cases heq
        obtain ⟨hl, hnot⟩ := ih hrest
        refine ⟨by rw [hl]; rfl, ?_⟩
        exact List.mem_cons.not.mpr (not_or.mpr ⟨Ne.symm hc, hnot⟩)
  · rintro ⟨rfl, ha⟩
    exact splitOnce_append ha b

end Separator

/-! ### The pieces between separators -/

section Pieces

variable {sep : α → Bool}

/-- The pieces that have something in them. -/
def pieces (sep : α → Bool) (l : List α) : List (List α) :=
  (l.splitOnP sep).filter fun t => !t.isEmpty

theorem pieces_separators_left {a : List α} (ha : ∀ c ∈ a, sep c = true) (l : List α) :
    pieces sep (a ++ l) = pieces sep l := by
  induction a with
  | nil => rfl
  | cons c a ih =>
    obtain ⟨hc, ha'⟩ := List.forall_mem_cons.mp ha
    rw [← ih ha', pieces, List.cons_append, List.splitOnP_cons_eq_if_modifyHead, if_pos hc]
    rfl

theorem pieces_separators_right {b : List α} (hb : ∀ c ∈ b, sep c = true) (l : List α) :
    pieces sep (l ++ b) = pieces sep l := by
  cases b with
  | nil => rw [List.append_nil]
  | cons c b =>
    obtain ⟨hc, hb'⟩ := List.forall_mem_cons.mp hb
    have hrest : pieces sep b = [] := by
      rw [← List.append_nil b, pieces_separators_left hb']
      rfl
    rw [pieces, List.splitOnP_append_cons _ _ hc, List.filter_append]
    change pieces sep l ++ pieces sep b = pieces sep l
    rw [hrest, List.append_nil]

/-- The blanks at the two ends are no pieces. -/
theorem pieces_trim (hsep : ∀ c, p c = true → sep c = true) (l : List α) :
    pieces sep (trim p l) = pieces sep l := by
  obtain ⟨a, b, ha, hb, hl⟩ := exists_trim p l
  conv_rhs => rw [hl]
  rw [pieces_separators_left fun c hc => hsep c (ha c hc),
    pieces_separators_right fun c hc => hsep c (hb c hc)]

end Pieces

end Trimming
