import Mathlib.Data.List.Basic

/-!
Regular expressions as a backtracking matcher reads them: greedy repetition of a class,
greedy options, numbered groups, and conditions on the text ahead. A matcher tries its
alternatives in a fixed order, so its answer is the first of all outcomes; which outcomes
there are at all is a matter of how the text can be divided.
-/
namespace Regex

variable {α : Type*}

inductive Expr (α : Type*)
  | one (p : α → Bool)
  | many (p : α → Bool)
  | opt (r : Expr α)
  | group (i : ℕ) (r : Expr α)
  | look (p : List α → Bool)
  | seq (r t : Expr α)

/-- What a match takes, what its groups take, and what it leaves. -/
structure Outcome (α : Type*) where
  taken : List α
  groups : List (ℕ × List α)
  rest : List α

/-- What a group took; nothing if it took no part. -/
def Outcome.group (o : Outcome α) (i : ℕ) : List α := (o.groups.lookup i).getD []

/-- The ways to take elements of a class from the front, the longest first. -/
def divisions (p : α → Bool) : List α → List (List α × List α)
  | [] => [([], [])]
  | c :: s =>
    if p c then (divisions p s).map (fun d => (c :: d.1, d.2)) ++ [([], c :: s)]
    else [([], c :: s)]

/-- All outcomes at the front of a text, in the order in which they are tried. -/
def outcomes : Expr α → List α → List (Outcome α)
  | .one _, [] => []
  | .one p, c :: s => if p c then [⟨[c], [], s⟩] else []
  | .many p, s => (divisions p s).map fun d => ⟨d.1, [], d.2⟩
  | .opt r, s => outcomes r s ++ [⟨[], [], s⟩]
  | .group i r, s => (outcomes r s).map fun o => ⟨o.taken, (i, o.taken) :: o.groups, o.rest⟩
  | .look p, s => if p s then [⟨[], [], s⟩] else []
  | .seq r t, s =>
    (outcomes r s).flatMap fun o => (outcomes t o.rest).map fun o' =>
      ⟨o.taken ++ o'.taken, o.groups ++ o'.groups, o'.rest⟩

/-- The match at the front of a text. -/
def matchAt (r : Expr α) (s : List α) : Option (Outcome α) := (outcomes r s).head?

/-- The leftmost match, with what stands before it. -/
def search (r : Expr α) : List α → Option (List α × Outcome α)
  | [] => (matchAt r []).map fun o => ([], o)
  | c :: s =>
    match matchAt r (c :: s) with
    | some o => some ([], o)
    | none => (search r s).map fun m => (c :: m.1, m.2)

/-- The text from a position on without its matches; `skip` elements belong to a match. -/
def eraseFrom (r : Expr α) : ℕ → List α → List α
  | _, [] => []
  | skip + 1, _ :: s => eraseFrom r skip s
  | 0, c :: s =>
    match matchAt r (c :: s) with
    | some ⟨_ :: taken, _, _⟩ => eraseFrom r taken.length s
    | some ⟨[], _, _⟩ | none => c :: eraseFrom r 0 s

/-- The text without its matches. -/
def erase (r : Expr α) (s : List α) : List α := eraseFrom r 0 s

/-! ### How a text can be divided -/

/-- A match may take this, with these groups, in front of the rest. -/
def Fits : Expr α → List α → List (ℕ × List α) → List α → Prop
  | .one p, taken, groups, _ => ∃ c, taken = [c] ∧ p c = true ∧ groups = []
  | .many p, taken, groups, _ => (∀ c ∈ taken, p c = true) ∧ groups = []
  | .opt r, taken, groups, rest => Fits r taken groups rest ∨ taken = [] ∧ groups = []
  | .group i r, taken, groups, rest =>
    ∃ inner, groups = (i, taken) :: inner ∧ Fits r taken inner rest
  | .look p, taken, groups, rest => taken = [] ∧ groups = [] ∧ p rest = true
  | .seq r t, taken, groups, rest => ∃ a b g h, taken = a ++ b ∧ groups = g ++ h ∧
      Fits r a g (b ++ rest) ∧ Fits t b h rest

section Fits

variable {r t : Expr α} {p : α → Bool} {i : ℕ} {taken rest : List α}
  {groups : List (ℕ × List α)}

theorem fits_seq : Fits (.seq r t) taken groups rest ↔
    ∃ a b g h, taken = a ++ b ∧ groups = g ++ h ∧ Fits r a g (b ++ rest) ∧ Fits t b h rest :=
  Iff.rfl

theorem fits_opt :
    Fits (.opt r) taken groups rest ↔ Fits r taken groups rest ∨ taken = [] ∧ groups = [] :=
  Iff.rfl

theorem fits_one : Fits (.one p) taken groups rest ↔
    ∃ c, taken = [c] ∧ p c = true ∧ groups = [] :=
  Iff.rfl

theorem fits_many : Fits (.many p) taken groups rest ↔
    (∀ c ∈ taken, p c = true) ∧ groups = [] :=
  Iff.rfl

theorem fits_look {q : List α → Bool} : Fits (.look q) taken groups rest ↔
    taken = [] ∧ groups = [] ∧ q rest = true :=
  Iff.rfl

theorem fits_group : Fits (.group i r) taken groups rest ↔
    ∃ inner, groups = (i, taken) :: inner ∧ Fits r taken inner rest :=
  Iff.rfl

theorem fits_group_many : Fits (.group i (.many p)) taken groups rest ↔
    (∀ c ∈ taken, p c = true) ∧ groups = [(i, taken)] := by
  rw [fits_group]
  constructor
  · rintro ⟨inner, rfl, hall, rfl⟩
    exact ⟨hall, rfl⟩
  · rintro ⟨hall, rfl⟩
    exact ⟨[], rfl, hall, rfl⟩

end Fits

theorem mem_divisions {p : α → Bool} {s : List α} {d : List α × List α} :
    d ∈ divisions p s ↔ s = d.1 ++ d.2 ∧ ∀ c ∈ d.1, p c = true := by
  induction s generalizing d with
  | nil =>
    obtain ⟨a, b⟩ := d
    simp only [divisions, List.mem_singleton, Prod.mk.injEq, List.nil_eq, List.append_eq_nil_iff]
    constructor
    · rintro ⟨rfl, rfl⟩
      exact ⟨⟨rfl, rfl⟩, by simp⟩
    · rintro ⟨h, -⟩
      exact h
  | cons c s ih =>
    obtain ⟨a, b⟩ := d
    have hempty : (a, b) = ([], c :: s) ↔ a = [] ∧ b = c :: s := Prod.mk.injEq .. ▸ Iff.rfl
    rw [divisions]
    constructor
    · intro h
      split at h
      · rename_i hc
        rcases List.mem_append.mp h with h | h
        · obtain ⟨d, hd, heq⟩ := List.mem_map.mp h
          obtain ⟨rfl, rfl⟩ := Prod.mk.inj heq
          obtain ⟨hs, hall⟩ := ih.mp hd
          exact ⟨by rw [hs]; rfl, List.forall_mem_cons.mpr ⟨hc, hall⟩⟩
        · obtain ⟨rfl, rfl⟩ := hempty.mp (List.mem_singleton.mp h)
          exact ⟨rfl, by simp⟩
      · obtain ⟨rfl, rfl⟩ := hempty.mp (List.mem_singleton.mp h)
        exact ⟨rfl, by simp⟩
    · rintro ⟨hs, hall⟩
      cases a with
      | nil =>
        obtain rfl : c :: s = b := hs
        split
        · exact List.mem_append_right _ (List.mem_singleton_self _)
        · exact List.mem_singleton_self _
      | cons d a =>
        obtain ⟨rfl, rfl⟩ := List.cons.inj hs
        obtain ⟨hc, hall'⟩ := List.forall_mem_cons.mp hall
        rw [if_pos hc]
        exact List.mem_append_left _ (List.mem_map.mpr ⟨(a, b), ih.mpr ⟨rfl, hall'⟩, rfl⟩)

/-- The outcomes of the matcher are the ways to divide the text. -/
theorem mem_outcomes {r : Expr α} {s : List α} {o : Outcome α} :
    o ∈ outcomes r s ↔ s = o.taken ++ o.rest ∧ Fits r o.taken o.groups o.rest := by
  induction r generalizing s o with
  | one p =>
    obtain ⟨taken, groups, rest⟩ := o
    cases s with
    | nil =>
      simp only [outcomes, List.not_mem_nil, Fits, false_iff, not_and]
      rintro h ⟨c, rfl, -⟩
      cases h
    | cons c s =>
      constructor
      · intro h
        rw [outcomes] at h
        split at h
        · rename_i hc
          obtain ⟨rfl, rfl, rfl⟩ := Outcome.mk.inj (List.mem_singleton.mp h)
          exact ⟨rfl, c, rfl, hc, rfl⟩
        · cases h
      · rintro ⟨hs, d, rfl, hd, rfl⟩
        obtain ⟨rfl, rfl⟩ := List.cons.inj hs
        rw [outcomes, if_pos hd]
        exact List.mem_singleton_self _
  | many p =>
    rw [outcomes, List.mem_map]
    constructor
    · rintro ⟨d, hd, rfl⟩
      obtain ⟨hs, hall⟩ := mem_divisions.mp hd
      exact ⟨hs, hall, rfl⟩
    · rintro ⟨hs, hall, hgroups⟩
      exact ⟨(o.taken, o.rest), mem_divisions.mpr ⟨hs, hall⟩, by rw [← hgroups]⟩
  | opt r ih =>
    rw [outcomes, List.mem_append, ih, List.mem_singleton, Fits]
    constructor
    · rintro (⟨hs, hfits⟩ | rfl)
      · exact ⟨hs, Or.inl hfits⟩
      · exact ⟨rfl, Or.inr ⟨rfl, rfl⟩⟩
    · rintro ⟨hs, hfits | ⟨htaken, hgroups⟩⟩
      · exact Or.inl ⟨hs, hfits⟩
      · obtain ⟨taken, groups, rest⟩ := o
        obtain rfl : taken = [] := htaken
        obtain rfl : groups = [] := hgroups
        exact Or.inr (by rw [hs]; rfl)
  | group i r ih =>
    rw [outcomes, List.mem_map]
    constructor
    · rintro ⟨o', ho', rfl⟩
      obtain ⟨hs, hfits⟩ := ih.mp ho'
      exact ⟨hs, o'.groups, rfl, hfits⟩
    · rintro ⟨hs, inner, hgroups, hfits⟩
      exact ⟨⟨o.taken, inner, o.rest⟩, ih.mpr ⟨hs, hfits⟩, by rw [← hgroups]⟩
  | look p =>
    rw [outcomes]
    obtain ⟨taken, groups, rest⟩ := o
    constructor
    · intro h
      split at h
      · rename_i hp
        obtain ⟨rfl, rfl, rfl⟩ := Outcome.mk.inj (List.mem_singleton.mp h)
        exact ⟨rfl, rfl, rfl, hp⟩
      · cases h
    · rintro ⟨hs, rfl, rfl, hp⟩
      obtain rfl : s = rest := hs
      rw [if_pos hp]
      exact List.mem_singleton_self _
  | seq r t ihr iht =>
    rw [outcomes, List.mem_flatMap]
    constructor
    · rintro ⟨o₁, ho₁, ho⟩
      obtain ⟨o₂, ho₂, rfl⟩ := List.mem_map.mp ho
      obtain ⟨hs, hfits₁⟩ := ihr.mp ho₁
      obtain ⟨hrest, hfits₂⟩ := iht.mp ho₂
      refine ⟨by rw [hs, hrest, List.append_assoc], _, _, _, _, rfl, rfl, ?_, hfits₂⟩
      rw [← hrest]
      exact hfits₁
    · rintro ⟨hs, a, b, g, h, htaken, hgroups, hfits₁, hfits₂⟩
      refine ⟨⟨a, g, b ++ o.rest⟩, ihr.mpr ⟨?_, hfits₁⟩, List.mem_map.mpr
        ⟨⟨b, h, o.rest⟩, iht.mpr ⟨rfl, hfits₂⟩, ?_⟩⟩
      · rw [hs, htaken, List.append_assoc]
      · rw [← htaken, ← hgroups]

theorem matchAt_some {r : Expr α} {s : List α} {o : Outcome α} (h : matchAt r s = some o) :
    s = o.taken ++ o.rest ∧ Fits r o.taken o.groups o.rest :=
  mem_outcomes.mp (List.mem_of_mem_head? h)

theorem matchAt_eq_none {r : Expr α} {s : List α} : matchAt r s = none ↔
    ∀ taken groups rest, s = taken ++ rest → ¬ Fits r taken groups rest := by
  rw [matchAt, List.head?_eq_none_iff]
  constructor
  · intro h taken groups rest hs hfits
    have hmem : (⟨taken, groups, rest⟩ : Outcome α) ∈ outcomes r s :=
      mem_outcomes.mpr ⟨hs, hfits⟩
    rw [h] at hmem
    cases hmem
  · intro h
    rw [List.eq_nil_iff_forall_not_mem]
    intro o ho
    obtain ⟨hs, hfits⟩ := mem_outcomes.mp ho
    exact h _ _ _ hs hfits

/-- Where a division fits, the matcher finds one. -/
theorem matchAt_of_fits {r : Expr α} {taken rest : List α} {groups : List (ℕ × List α)}
    (h : Fits r taken groups rest) : ∃ o, matchAt r (taken ++ rest) = some o := by
  rw [← Option.ne_none_iff_exists']
  intro hnone
  exact matchAt_eq_none.mp hnone _ _ _ rfl h

theorem search_some {r : Expr α} {s before : List α} {o : Outcome α}
    (h : search r s = some (before, o)) :
    s = before ++ (o.taken ++ o.rest) ∧ Fits r o.taken o.groups o.rest := by
  induction s generalizing before with
  | nil =>
    obtain ⟨o', hmatch, heq⟩ := Option.map_eq_some_iff.mp h
    obtain ⟨rfl, rfl⟩ := Prod.mk.inj heq
    exact matchAt_some hmatch
  | cons c s ih =>
    rw [search] at h
    split at h
    · rename_i o' hmatch
      obtain ⟨rfl, rfl⟩ := Prod.mk.inj (Option.some.inj h)
      exact matchAt_some hmatch
    · obtain ⟨m, hm, heq⟩ := Option.map_eq_some_iff.mp h
      obtain ⟨rfl, rfl⟩ := Prod.mk.inj heq
      obtain ⟨hs, hfits⟩ := ih hm
      exact ⟨by rw [List.cons_append, ← hs], hfits⟩

/-! ### The text without its matches -/

theorem eraseFrom_skip (r : Expr α) (t s : List α) :
    eraseFrom r t.length (t ++ s) = eraseFrom r 0 s := by
  induction t with
  | nil => rfl
  | cons c t ih => exact ih

/-- In front of a part where no match begins nothing is erased. -/
theorem erase_append {r : Expr α} {a s : List α}
    (h : ∀ x z, a = x ++ z → z ≠ [] → matchAt r (z ++ s) = none) :
    erase r (a ++ s) = a ++ erase r s := by
  induction a with
  | nil => rfl
  | cons c a ih =>
    have hnone := h [] (c :: a) rfl (List.cons_ne_nil c a)
    have hrest := ih fun x z hz hne => h (c :: x) z (by rw [hz]; rfl) hne
    unfold erase at hrest ⊢
    rw [List.cons_append] at hnone ⊢
    rw [eraseFrom, hnone, hrest]
    rfl

theorem erase_matchAt {r : Expr α} {s : List α} {o : Outcome α} (h : matchAt r s = some o)
    (hne : o.taken ≠ []) : erase r s = erase r o.rest := by
  obtain ⟨hs, -⟩ := matchAt_some h
  obtain ⟨taken, groups, rest⟩ := o
  cases taken with
  | nil => exact absurd rfl hne
  | cons c taken =>
    obtain rfl : s = c :: (taken ++ rest) := hs
    rw [erase, eraseFrom, h]
    exact eraseFrom_skip r taken rest

theorem erase_eq_self {r : Expr α} {s : List α}
    (h : ∀ x z, s = x ++ z → z ≠ [] → matchAt r z = none) : erase r s = s := by
  have hself := erase_append (r := r) (a := s) (s := []) fun x z hz hne => by
    rw [List.append_nil]
    exact h x z hz hne
  rw [List.append_nil] at hself
  rw [hself]
  exact List.append_nil s

end Regex
