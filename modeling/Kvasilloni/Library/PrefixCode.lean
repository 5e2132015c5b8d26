import Mathlib.Data.List.Infix

/-!
Codes in which no valid word begins another one. A word list then has only one
reading: a string starts with the images of at most one list of a given length,
and the longest such list is the one that leaves a remainder no word begins.
-/
namespace SelfDelimiting

/-- A coding of the valid values by nonempty strings, none a prefix of another. -/
structure PrefixCode (α σ : Type*) where
  Valid : α → Prop
  enc : α → List σ
  enc_ne_nil : ∀ a, Valid a → enc a ≠ []
  eq_of_prefix : ∀ a b, Valid a → Valid b → enc a <+: enc b → a = b

namespace PrefixCode

variable {α σ : Type*} (c : PrefixCode α σ)

/-- The concatenated images of a list of values. -/
def stream (as : List α) : List σ := as.flatMap c.enc

def AllValid (as : List α) : Prop := ∀ a ∈ as, c.Valid a

/-- No valid image begins the string. -/
def Stuck (t : List σ) : Prop := ∀ a, c.Valid a → ¬ c.enc a <+: t

@[simp] theorem stream_nil : c.stream [] = [] := rfl

@[simp] theorem stream_cons (a : α) (as : List α) :
    c.stream (a :: as) = c.enc a ++ c.stream as := rfl

theorem allValid_cons {a : α} {as : List α} (h : c.AllValid (a :: as)) :
    c.Valid a ∧ c.AllValid as :=
  ⟨h a (List.mem_cons_self ..), fun b hb => h b (List.mem_cons_of_mem _ hb)⟩

/-- Two strings that begin with valid images begin with the same one. -/
theorem enc_append_inj {a b : α} {s t : List σ} (ha : c.Valid a) (hb : c.Valid b)
    (h : c.enc a ++ s = c.enc b ++ t) : a = b ∧ s = t := by
  have hpa : c.enc a <+: c.enc b ++ t := h ▸ List.prefix_append _ _
  have hpb : c.enc b <+: c.enc b ++ t := List.prefix_append _ _
  have hab : a = b := by
    rcases List.prefix_or_prefix_of_prefix hpa hpb with hp | hp
    · exact c.eq_of_prefix a b ha hb hp
    · exact (c.eq_of_prefix b a hb ha hp).symm
  subst hab
  exact ⟨rfl, List.append_cancel_left h⟩

/-- A string has at most one reading as a list of valid values of given length. -/
theorem stream_append_inj {as bs : List α} {s t : List σ} (ha : c.AllValid as)
    (hb : c.AllValid bs) (hlen : as.length = bs.length)
    (h : c.stream as ++ s = c.stream bs ++ t) : as = bs ∧ s = t := by
  induction as generalizing bs with
  | nil =>
    have hnil : bs = [] := List.length_eq_zero_iff.mp hlen.symm
    subst hnil
    exact ⟨rfl, h⟩
  | cons a as ih =>
    cases bs with
    | nil => simp at hlen
    | cons b bs =>
      obtain ⟨hva, hvas⟩ := c.allValid_cons ha
      obtain ⟨hvb, hvbs⟩ := c.allValid_cons hb
      simp only [stream_cons, List.append_assoc] at h
      obtain ⟨rfl, htail⟩ := c.enc_append_inj hva hvb h
      have hlen' : as.length = bs.length := by simpa using hlen
      obtain ⟨rfl, hst⟩ := ih hvas hvbs hlen' htail
      exact ⟨rfl, hst⟩

/-- What can be read before a stuck remainder is an initial part of the reading. -/
theorem prefix_of_stuck {as bs : List α} {t : List σ} (ha : c.AllValid as)
    (hb : c.AllValid bs) (ht : c.Stuck t) (h : c.stream as <+: c.stream bs ++ t) :
    as <+: bs := by
  induction as generalizing bs with
  | nil => exact List.nil_prefix
  | cons a as ih =>
    obtain ⟨hva, hvas⟩ := c.allValid_cons ha
    obtain ⟨u, hu⟩ := h
    simp only [stream_cons, List.append_assoc] at hu
    cases bs with
    | nil =>
      simp only [stream_nil, List.nil_append] at hu
      exact absurd (hu ▸ List.prefix_append _ _) (ht a hva)
    | cons b bs =>
      obtain ⟨hvb, hvbs⟩ := c.allValid_cons hb
      simp only [stream_cons, List.append_assoc] at hu
      obtain ⟨rfl, htail⟩ := c.enc_append_inj hva hvb hu
      exact (List.prefix_cons_inj _).mpr (ih hvas hvbs ⟨u, htail⟩)

/-- A string cut short of a whole image begins with no image at all. -/
theorem stuck_of_proper_prefix {b : α} {t : List σ} (hb : c.Valid b)
    (hp : t <+: c.enc b) (hne : t ≠ c.enc b) : c.Stuck t := by
  intro a ha hat
  have hab : a = b := c.eq_of_prefix a b ha hb (hat.trans hp)
  subst hab
  exact hne (hp.eq_of_length (le_antisymm hp.length_le hat.length_le))

theorem stuck_nil : c.Stuck [] := by
  intro a ha hp
  exact c.enc_ne_nil a ha (List.prefix_nil.mp hp)

end PrefixCode

end SelfDelimiting
