import Kvasilloni.Configuration

/-!
Text as the migration tool handles it. Python has more blanks and more line boundaries than
the loader of the shim, and it lowers case by the Unicode character database. That database
is a parameter: a version of it comes with the interpreter. What is assumed of it holds of
every version.
-/
namespace Kvasilloni.PythonText

open IpLiterals Kvasilloni.Configuration TextLines Trimming

/-- `str.isspace` for one character, which is also `\s` in a pattern. -/
def isSpace (c : Char) : Bool := isWhitespace c || (0x1C ≤ c.toNat && c.toNat ≤ 0x1F)

def strip (t : Text) : Text := trim isSpace t

/-- The boundaries of `str.splitlines`. -/
def isLineBreak (c : Char) : Bool :=
  let n := c.toNat
  (0x0A ≤ n && n ≤ 0x0D) || (0x1C ≤ n && n ≤ 0x1E) || n == 0x85 || n == 0x2028 || n == 0x2029

def splitlines (t : Text) : List Text := splitLines isLineBreak t

/-- The only character outside ASCII with a lowercase form in ASCII. -/
def kelvinSign : Char := Char.ofNat 0x212A

def capitalSigma : Char := Char.ofNat 0x3A3
def smallSigma : Char := Char.ofNat 0x3C3
def finalSigma : Char := Char.ofNat 0x3C2

/-- No blank, and nothing that has a meaning in an INI text. -/
def plain (c : Char) : Bool :=
  !isSpace c && c != '=' && c != ';' && c != '#' && c != '['

/-- What the interpreter looks up for a character. -/
structure CharDatabase where
  /-- the full lowercase mapping -/
  lowerFull : Char → Text
  cased : Char → Bool
  caseIgnorable : Char → Bool
  /-- `str.isalnum` for one character -/
  alnum : Char → Bool
  lower_ascii : ∀ c, c.toNat < 128 → lowerFull c = [c.toLower]
  lower_kelvin : lowerFull kelvinSign = ['k']
  lower_outside : ∀ c, 128 ≤ c.toNat → (∀ d ∈ lowerFull c, d.toNat < 128) → c = kelvinSign
  lower_ne_nil : ∀ c, lowerFull c ≠ []
  lower_fixed : ∀ c, ∀ d ∈ lowerFull c, lowerFull d = [d] ∧ d ≠ capitalSigma
  lower_sigma : lowerFull smallSigma = [smallSigma] ∧ lowerFull finalSigma = [finalSigma]
  lower_plain : ∀ c, ∀ d ∈ lowerFull c, d = c ∨ plain d = true
  cased_ascii : ∀ c, c.toNat < 128 → cased c.toLower = cased c
  caseIgnorable_ascii : ∀ c, c.toNat < 128 → caseIgnorable c.toLower = caseIgnorable c
  alnum_ascii : ∀ c, c.toNat < 128 → alnum c = c.isAlphanum
  alnum_kelvin : alnum kelvinSign = true
  alnum_space : ∀ c, isSpace c = true → alnum c = false

namespace CharDatabase

variable (db : CharDatabase)

/-- A capital sigma stands at the end of a word. The text before it is given backwards. -/
def endsWord (before after : Text) : Bool :=
  (before.dropWhile db.caseIgnorable).head?.any db.cased &&
    !(after.dropWhile db.caseIgnorable).head?.any db.cased

/-- The lowercase form of one character between its neighbours. -/
def lowerChar (before : Text) (c : Char) (after : Text) : Text :=
  if c = capitalSigma then [if db.endsWord before after then finalSigma else smallSigma]
  else db.lowerFull c

def lowerFrom (before : Text) : Text → Text
  | [] => []
  | c :: after => db.lowerChar before c after ++ lowerFrom (c :: before) after

/-- `str.lower`. -/
def lower (t : Text) : Text := db.lowerFrom [] t

/-- `\w` in a pattern. -/
def isWord (c : Char) : Bool := db.alnum c || c == '_'

end CharDatabase

/-! ### Blanks and boundaries -/

theorem isSpace_of_isWhitespace {c : Char} (h : isWhitespace c = true) : isSpace c = true := by
  rw [isSpace, h, Bool.true_or]

theorem isSpace_of_isLineBreak {c : Char} (h : isLineBreak c = true) : isSpace c = true := by
  simp only [isLineBreak, isSpace, isWhitespace, Bool.or_eq_true, Bool.and_eq_true,
    decide_eq_true_eq, beq_iff_eq] at h ⊢
  omega

theorem isCommentMark_of_isSpace {c : Char} (h : isSpace c = true) : isCommentMark c = false := by
  by_contra hmark
  rw [Bool.not_eq_false] at hmark
  rcases Bool.or_eq_true_iff.mp hmark with hc | hc
  · rw [eq_of_beq hc] at h
    exact absurd h (by decide)
  · rw [eq_of_beq hc] at h
    exact absurd h (by decide)

theorem strip_trimBlanks (t : Text) : strip (trimBlanks t) = strip t :=
  trim_of_narrower fun _ => isSpace_of_isWhitespace

/-! ### Lowering in ASCII -/

theorem forall_ascii {P : Char → Prop} (h : ∀ n < 128, P (Char.ofNat n)) {c : Char}
    (hc : c.toNat < 128) : P c := by
  have hchar := h c.toNat hc
  rwa [Char.ofNat_toNat] at hchar

theorem toLower_outside {c : Char} (hc : 128 ≤ c.toNat) : c.toLower = c :=
  toLower_eq_self (by omega)

theorem isSpace_toLower (c : Char) : isSpace c.toLower = isSpace c := by
  by_cases hc : c.toNat < 128
  · exact forall_ascii (P := fun c => isSpace c.toLower = isSpace c) (by decide) hc
  · rw [toLower_outside (by omega)]

theorem strip_toAsciiLowercase (t : Text) :
    strip (toAsciiLowercase t) = toAsciiLowercase (strip t) :=
  trim_map isSpace_toLower

theorem toLower_of_isLineBreak {c : Char} (h : isLineBreak c = true) : c.toLower = c := by
  refine toLower_eq_self ?_
  simp only [isLineBreak, Bool.or_eq_true, Bool.and_eq_true, decide_eq_true_eq, beq_iff_eq] at h
  omega

namespace CharDatabase

variable (db : CharDatabase)

/-! ### Lowering -/

theorem lowerChar_ne_nil (before : Text) (c : Char) (after : Text) :
    db.lowerChar before c after ≠ [] := by
  unfold lowerChar
  split
  · exact List.cons_ne_nil _ _
  · exact db.lower_ne_nil c

/-- What lowering puts in place of a character is plain, and lowering leaves it alone. -/
theorem mem_lowerChar {before after : Text} {c d : Char} (h : d ∈ db.lowerChar before c after) :
    (d = c ∨ plain d = true) ∧ db.lowerFull d = [d] ∧ d ≠ capitalSigma := by
  unfold lowerChar at h
  split at h
  · have hd := List.mem_singleton.mp h
    split at hd
    · rw [hd]
      exact ⟨Or.inr (by decide), db.lower_sigma.2, by decide⟩
    · rw [hd]
      exact ⟨Or.inr (by decide), db.lower_sigma.1, by decide⟩
  · exact ⟨db.lower_plain c d h, db.lower_fixed c d h⟩

theorem mem_lowerFrom {before t : Text} {d : Char} (h : d ∈ db.lowerFrom before t) :
    ∃ c ∈ t, (d = c ∨ plain d = true) ∧ db.lowerFull d = [d] ∧ d ≠ capitalSigma := by
  induction t generalizing before with
  | nil => cases h
  | cons c t ih =>
    rcases List.mem_append.mp h with h | h
    · exact ⟨c, List.mem_cons_self .., db.mem_lowerChar h⟩
    · obtain ⟨e, he, hd⟩ := ih h
      exact ⟨e, List.mem_cons_of_mem c he, hd⟩

/-- A text that lowering leaves alone character by character. -/
theorem lowerFrom_fixed {before t : Text}
    (h : ∀ c ∈ t, db.lowerFull c = [c] ∧ c ≠ capitalSigma) : db.lowerFrom before t = t := by
  induction t generalizing before with
  | nil => rfl
  | cons c t ih =>
    obtain ⟨hc, ht⟩ := List.forall_mem_cons.mp h
    rw [lowerFrom, lowerChar, if_neg hc.2, hc.1, ih ht]
    rfl

@[simp] theorem lower_lower (t : Text) : db.lower (db.lower t) = db.lower t := by
  refine db.lowerFrom_fixed fun d hd => ?_
  obtain ⟨c, -, -, hfixed⟩ := db.mem_lowerFrom hd
  exact hfixed

theorem cased_toLower (c : Char) : db.cased c.toLower = db.cased c := by
  by_cases hc : c.toNat < 128
  · exact db.cased_ascii c hc
  · rw [toLower_outside (by omega)]

theorem caseIgnorable_toLower (c : Char) : db.caseIgnorable c.toLower = db.caseIgnorable c := by
  by_cases hc : c.toNat < 128
  · exact db.caseIgnorable_ascii c hc
  · rw [toLower_outside (by omega)]

theorem endsWord_toAsciiLowercase (before after : Text) :
    db.endsWord (toAsciiLowercase before) (toAsciiLowercase after) = db.endsWord before after := by
  have hside : ∀ t : Text, (((toAsciiLowercase t).dropWhile db.caseIgnorable).head?.any db.cased) =
      ((t.dropWhile db.caseIgnorable).head?.any db.cased) := by
    intro t
    have hignore : db.caseIgnorable ∘ Char.toLower = db.caseIgnorable :=
      funext db.caseIgnorable_toLower
    rw [toAsciiLowercase, List.dropWhile_map, hignore, List.head?_map, Option.any_map]
    exact congrArg (Option.any · _) (funext db.cased_toLower)
  rw [endsWord, endsWord, hside, hside]

theorem lowerChar_toAsciiLowercase (before : Text) (c : Char) (after : Text) :
    db.lowerChar (toAsciiLowercase before) c.toLower (toAsciiLowercase after) =
      db.lowerChar before c after := by
  by_cases hc : c.toNat < 128
  · have hfacts : c ≠ capitalSigma ∧ c.toLower ≠ capitalSigma ∧ c.toLower.toNat < 128 ∧
        c.toLower.toLower = c.toLower :=
      forall_ascii (P := fun c => c ≠ capitalSigma ∧ c.toLower ≠ capitalSigma ∧
        c.toLower.toNat < 128 ∧ c.toLower.toLower = c.toLower) (by decide) hc
    obtain ⟨hsigma, hsigma', hlow, htwice⟩ := hfacts
    rw [lowerChar, lowerChar, if_neg hsigma, if_neg hsigma', db.lower_ascii c hc,
      db.lower_ascii _ hlow, htwice]
  · rw [toLower_outside (by omega), lowerChar, lowerChar, endsWord_toAsciiLowercase]

/-- Lowering the ASCII letters first makes no difference. -/
theorem lower_toAsciiLowercase (t : Text) : db.lower (toAsciiLowercase t) = db.lower t := by
  have hfrom : ∀ before : Text,
      db.lowerFrom (toAsciiLowercase before) (toAsciiLowercase t) = db.lowerFrom before t := by
    intro before
    induction t generalizing before with
    | nil => rfl
    | cons c t ih =>
      have hrest := ih (c :: before)
      have hchar := db.lowerChar_toAsciiLowercase before c t
      change db.lowerChar (toAsciiLowercase before) c.toLower (toAsciiLowercase t) ++
        db.lowerFrom (toAsciiLowercase (c :: before)) (toAsciiLowercase t) = _
      rw [hchar, hrest]
      rfl
  exact hfrom []

theorem lower_of_ascii {t : Text} (h : ∀ c ∈ t, c.toNat < 128) :
    db.lower t = toAsciiLowercase t := by
  have hfrom : ∀ before, db.lowerFrom before t = toAsciiLowercase t := by
    induction t with
    | nil => exact fun _ => rfl
    | cons c t ih =>
      intro before
      obtain ⟨hc, ht⟩ := List.forall_mem_cons.mp h
      have hsigma : c ≠ capitalSigma := by
        rintro rfl
        exact absurd hc (by decide)
      rw [lowerFrom, lowerChar, if_neg hsigma, db.lower_ascii c hc, ih ht]
      rfl
  exact hfrom []

theorem lowerFrom_ne_nil {before t : Text} (h : t ≠ []) : db.lowerFrom before t ≠ [] := by
  cases t with
  | nil => exact absurd rfl h
  | cons c t => exact List.append_ne_nil_of_left_ne_nil (db.lowerChar_ne_nil before c t) _

theorem not_space_of_lowered {c d : Char} (hc : isSpace c = false) (hd : d = c ∨ plain d = true) :
    isSpace d = false := by
  rcases hd with rfl | hd
  · exact hc
  · simp only [plain, Bool.and_eq_true, Bool.not_eq_true'] at hd
    exact hd.1.1.1.1

theorem lowerFrom_last {before t : Text} (h : ∀ c ∈ t.getLast?, isSpace c = false) :
    ∀ d ∈ (db.lowerFrom before t).getLast?, isSpace d = false := by
  induction t generalizing before with
  | nil =>
    intro d hd
    cases hd
  | cons c t ih =>
    intro d hd
    by_cases ht : t = []
    · subst ht
      rw [lowerFrom, lowerFrom, List.append_nil] at hd
      exact not_space_of_lowered (h c rfl) (db.mem_lowerChar (List.mem_of_getLast? hd)).1
    · rw [lowerFrom, List.getLast?_append_of_ne_nil _ (db.lowerFrom_ne_nil ht)] at hd
      rw [List.getLast?_cons_of_ne_nil ht] at h
      exact ih h d hd

theorem strip_lower {t : Text} (h : strip t = t) : strip (db.lower t) = db.lower t := by
  have ht : Trimmed isSpace t := trim_eq_self_iff.mp h
  refine trim_of_trimmed ⟨fun d hd => ?_, db.lowerFrom_last ht.last⟩
  cases t with
  | nil => cases hd
  | cons c t =>
    have hne := db.lowerChar_ne_nil [] c t
    rw [lower, lowerFrom, List.head?_append_of_ne_nil _ hne] at hd
    exact not_space_of_lowered (ht.head c rfl) (db.mem_lowerChar (List.mem_of_mem_head? hd)).1

/-- Lowering puts nothing in the text that has a meaning there. -/
theorem not_mem_lower {t : Text} {d : Char} (hd : plain d = false) (ht : d ∉ t) :
    d ∉ db.lower t := by
  intro hmem
  obtain ⟨c, hc, hlow | hlow, -⟩ := db.mem_lowerFrom hmem
  · exact ht (hlow ▸ hc)
  · rw [hd] at hlow
    cases hlow

theorem marked_lower {t : Text} (h : marked t = false) : marked (db.lower t) = false := by
  cases t with
  | nil => rfl
  | cons c t =>
    obtain ⟨d, r, hpiece⟩ := List.exists_cons_of_ne_nil (db.lowerChar_ne_nil [] c t)
    have hmem : d ∈ db.lowerChar [] c t := hpiece ▸ List.mem_cons_self ..
    have hd := (db.mem_lowerChar hmem).1
    rw [lower, lowerFrom, hpiece]
    rcases hd with rfl | hd
    · exact h
    · simp only [plain, Bool.and_eq_true, bne_iff_ne, ne_eq] at hd
      simp [marked, hd]

/-! ### Keys with a lowercase form in ASCII letters -/

/-- A character that lowers to ASCII letters is one itself, or the Kelvin sign. -/
theorem letter_of_lowerChar {before after : Text} {c : Char}
    (h : ∀ d ∈ db.lowerChar before c after, d.isLower = true) :
    c.isAlpha = true ∨ c = kelvinSign := by
  have hascii : ∀ d : Char, d.isLower = true → d.toNat < 128 := by
    intro d hd
    have hle : d.toNat ≤ 122 := by
      simp only [Char.isLower, Bool.and_eq_true, decide_eq_true_eq] at hd
      exact hd.2
    omega
  unfold lowerChar at h
  split at h
  · have hsigma := h _ (List.mem_singleton_self _)
    split at hsigma
    · exact absurd hsigma (by decide)
    · exact absurd hsigma (by decide)
  · by_cases hc : c.toNat < 128
    · rw [db.lower_ascii c hc] at h
      have hlow := h _ (List.mem_singleton_self _)
      rw [Char.isLower_toLower_eq_isAlpha] at hlow
      exact Or.inl hlow
    · exact Or.inr (db.lower_outside c (by omega) fun d hd => hascii d (h d hd))

theorem letters_of_lowerFrom {before t : Text}
    (h : ∀ d ∈ db.lowerFrom before t, d.isLower = true) :
    ∀ c ∈ t, c.isAlpha = true ∨ c = kelvinSign := by
  induction t generalizing before with
  | nil => simp
  | cons c t ih =>
    obtain ⟨hc, ht⟩ := List.forall_mem_append.mp h
    exact List.forall_mem_cons.mpr ⟨db.letter_of_lowerChar hc, ih ht⟩

theorem isWord_letter {c : Char} (h : c.isAlpha = true ∨ c = kelvinSign) :
    db.isWord c = true := by
  unfold isWord
  rcases h with h | rfl
  · have hascii : c.toNat < 128 := by
      have hle : c.toNat ≤ 122 := by
        simp only [Char.isAlpha, Char.isUpper, Char.isLower, Bool.or_eq_true,
          Bool.and_eq_true, decide_eq_true_eq] at h
        rcases h with ⟨-, h⟩ | ⟨-, h⟩
        · exact Nat.le_trans h (by decide)
        · exact h
      omega
    rw [db.alnum_ascii c hascii, Char.isAlphanum, h]
    rfl
  · rw [db.alnum_kelvin]
    rfl

/-- A key of ASCII letters is written as a word that starts with one, unless it starts with
the letter that the Kelvin sign lowers to. -/
theorem word_of_lower {t k : Text} (h : db.lower t = k) (hk : ∀ d ∈ k, d.isLower = true)
    (hstart : k ≠ [] ∧ k.head? ≠ some 'k') :
    ∃ c w, t = c :: w ∧ c.isAlpha = true ∧ ∀ d ∈ w, db.isWord d = true := by
  subst h
  cases t with
  | nil => exact absurd rfl hstart.1
  | cons c w =>
    obtain ⟨hc, hw⟩ := List.forall_mem_cons.mp (db.letters_of_lowerFrom hk)
    refine ⟨c, w, rfl, ?_, fun d hd => db.isWord_letter (hw d hd)⟩
    rcases hc with hc | rfl
    · exact hc
    · have hne : kelvinSign ≠ capitalSigma := by decide
      rw [lower, lowerFrom, lowerChar, if_neg hne, db.lower_kelvin] at hstart
      exact absurd rfl hstart.2

end CharDatabase

/-! ### A small database -/

theorem toLower_cases (c : Char) : c.toLower = c ∨ plain c.toLower = true ∧
    c.toLower.toNat < 128 ∧ c.toLower.toLower = c.toLower := by
  by_cases hc : c.toNat < 128
  · exact forall_ascii (P := fun c => c.toLower = c ∨ plain c.toLower = true ∧
      c.toLower.toNat < 128 ∧ c.toLower.toLower = c.toLower) (by decide) hc
  · exact Or.inl (toLower_outside (by omega))

theorem isAlphanum_outside {c : Char} (hc : 128 ≤ c.toNat) : c.isAlphanum = false := by
  have hlt : ∀ n : UInt32, n.toNat < 128 → n < c.val := by
    intro n hn
    have hn' : n.toNat < c.toNat := by omega
    exact hn'
  simp only [Char.isAlphanum, Char.isAlpha, Char.isUpper, Char.isLower, Char.isDigit,
    Bool.or_eq_false_iff, Bool.and_eq_false_iff, decide_eq_false_iff_not, not_and]
  have hz := hlt 'z'.val (by decide)
  have hZ := hlt 'Z'.val (by decide)
  have h9 := hlt '9'.val (by decide)
  refine ⟨⟨fun _ => UInt32.not_le.mpr hZ, Or.inr (UInt32.not_le.mpr hz)⟩,
    Or.inr (UInt32.not_le.mpr h9)⟩

/-- The lowercase forms of the ASCII letters, of sigma and of the Kelvin sign. -/
def smallLower (c : Char) : Text :=
  if c = kelvinSign then ['k'] else if c = capitalSigma then [smallSigma] else [c.toLower]

theorem smallLower_other {c : Char} (hk : c ≠ kelvinSign) (hs : c ≠ capitalSigma) :
    smallLower c = [c.toLower] := by
  rw [smallLower, if_neg hk, if_neg hs]

theorem ne_of_ascii {c : Char} (hc : c.toNat < 128) : c ≠ kelvinSign ∧ c ≠ capitalSigma := by
  constructor <;> rintro rfl <;> exact absurd hc (by decide)

theorem mem_smallLower {c d : Char} (h : d ∈ smallLower c) :
    (d = c ∨ plain d = true) ∧ smallLower d = [d] ∧ d ≠ capitalSigma := by
  by_cases hk : c = kelvinSign
  · rw [smallLower, if_pos hk] at h
    obtain rfl := List.mem_singleton.mp h
    exact ⟨Or.inr (by decide), by decide⟩
  by_cases hs : c = capitalSigma
  · rw [smallLower, if_neg hk, if_pos hs] at h
    obtain rfl := List.mem_singleton.mp h
    exact ⟨Or.inr (by decide), by decide⟩
  rw [smallLower_other hk hs] at h
  obtain rfl := List.mem_singleton.mp h
  rcases toLower_cases c with hsame | ⟨hplain, hascii, hlow⟩
  · rw [hsame]
    exact ⟨Or.inl rfl, by rw [smallLower_other hk hs, hsame], hs⟩
  · obtain ⟨hk', hs'⟩ := ne_of_ascii hascii
    exact ⟨Or.inr hplain, by rw [smallLower_other hk' hs', hlow], hs'⟩

/-- A database that knows no more than that. -/
def smallDatabase : CharDatabase where
  lowerFull := smallLower
  cased c := c.isAlpha
  caseIgnorable _ := false
  alnum c := c.isAlphanum || c == kelvinSign
  lower_ascii c hc := smallLower_other (ne_of_ascii hc).1 (ne_of_ascii hc).2
  lower_kelvin := rfl
  lower_outside c hc h := by
    by_contra hk
    by_cases hs : c = capitalSigma
    · rw [smallLower, if_neg hk, if_pos hs] at h
      exact absurd (h _ (List.mem_singleton_self _)) (by decide)
    · rw [smallLower_other hk hs, toLower_outside hc] at h
      have hlt := h _ (List.mem_singleton_self _)
      omega
  lower_ne_nil c := by
    unfold smallLower
    split
    · exact List.cons_ne_nil _ _
    · split <;> exact List.cons_ne_nil _ _
  lower_fixed _ _ h := (mem_smallLower h).2
  lower_sigma := by decide
  lower_plain _ _ h := (mem_smallLower h).1
  cased_ascii _ hc :=
    forall_ascii (P := fun c => c.toLower.isAlpha = c.isAlpha) (by decide) hc
  caseIgnorable_ascii _ _ := rfl
  alnum_ascii c hc := by
    rw [beq_eq_false_iff_ne.mpr (ne_of_ascii hc).1, Bool.or_false]
  alnum_kelvin := by decide
  alnum_space c hc := by
    by_cases hascii : c.toNat < 128
    · revert hc
      refine forall_ascii (P := fun c => isSpace c = true →
        (c.isAlphanum || c == kelvinSign) = false) (by decide) hascii
    · have hne : c ≠ kelvinSign := by
        rintro rfl
        exact absurd hc (by decide)
      rw [isAlphanum_outside (by omega), beq_eq_false_iff_ne.mpr hne]
      rfl

end Kvasilloni.PythonText
