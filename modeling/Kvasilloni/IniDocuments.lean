import Kvasilloni.Configuration

/-!
INI documents as they are written: settings with blanks around keys and values and a comment
behind them, lines that are a comment, section headers and blank lines, each with either line
end. The parser reads back the last setting of each key and nothing else.
-/
namespace Kvasilloni.IniDocuments

open IpLiterals Kvasilloni.Configuration TextLines Trimming LastValue

/-- Blanks that stay on their line. -/
structure Blanks where
  text : Text
  blank : ∀ c ∈ text, isWhitespace c = true
  inline : '\n' ∉ text

structure Comment where
  mark : Char
  content : Text
  isMark : isCommentMark mark = true
  inline : '\n' ∉ content

def Comment.text (c : Comment) : Text := c.mark :: c.content

/-- A setting, with the blanks around its key and its value and the comment behind them. -/
structure SettingLine where
  indent : Blanks
  key : Text
  afterKey : Blanks
  beforeValue : Blanks
  value : Text
  afterValue : Blanks
  comment : Option Comment
  key_trimmed : Trimmed isWhitespace key
  key_start : marked key = false
  key_chars : '=' ∉ key ∧ '\n' ∉ key
  value_trimmed : Trimmed isWhitespace value
  value_chars : ∀ c ∈ value, isCommentMark c = false ∧ c ≠ '\n'

inductive Line
  | setting (s : SettingLine)
  | comment (indent : Blanks) (c : Comment)
  | header (indent : Blanks) (name : Text) (inline : '\n' ∉ name)
  | blank (b : Blanks)

def SettingLine.text (s : SettingLine) : Text :=
  s.indent.text ++ (s.key ++ (s.afterKey.text ++ '=' ::
    (s.beforeValue.text ++ (s.value ++ (s.afterValue.text ++
      (s.comment.map Comment.text).getD [])))))

def Line.text : Line → Text
  | .setting s => s.text
  | .comment indent c => indent.text ++ c.text
  | .header indent name _ => indent.text ++ '[' :: name
  | .blank b => b.text

/-- The setting that a line stands for, under its lowercased key. -/
def Line.entry : Line → Option (Text × Text)
  | .setting s => some (toAsciiLowercase s.key, s.value)
  | .comment _ _ | .header _ _ _ | .blank _ => none

/-- A document is a list of lines, each with its line end. -/
abbrev Document := List (Line × LineEnd)

def render (doc : Document) : Text := join (doc.map fun l => (l.1.text, l.2))

def entries (doc : Document) : List (Text × Text) := doc.filterMap fun l => l.1.entry

/-! ### One line -/

theorem Comment.text_inline (c : Comment) : '\n' ∉ c.text := by
  refine List.not_mem_cons_of_ne_of_not_mem ?_ c.inline
  intro hmark
  have h := c.isMark
  rw [← hmark] at h
  exact absurd h (by decide)

theorem SettingLine.text_inline (s : SettingLine) : '\n' ∉ s.text := by
  have hcomment : '\n' ∉ (s.comment.map Comment.text).getD [] := by
    cases s.comment with
    | none => exact List.not_mem_nil
    | some c => exact c.text_inline
  have hvalue : '\n' ∉ s.value := fun h => (s.value_chars _ h).2 rfl
  refine List.not_mem_append s.indent.inline (List.not_mem_append s.key_chars.2
    (List.not_mem_append s.afterKey.inline
      (List.not_mem_cons_of_ne_of_not_mem (by decide) ?_)))
  exact List.not_mem_append s.beforeValue.inline
    (List.not_mem_append hvalue (List.not_mem_append s.afterValue.inline hcomment))

theorem Line.inline (l : Line) : Inline (fun c => c == '\n') l.text := by
  have htext : '\n' ∉ l.text := by
    cases l with
    | setting s => exact s.text_inline
    | comment indent c => exact List.not_mem_append indent.inline c.text_inline
    | header indent name h =>
      exact List.not_mem_append indent.inline
        (List.not_mem_cons_of_ne_of_not_mem (by decide) h)
    | blank b => exact b.inline
  exact inline_of_not_mem htext

/-- The comment goes first, then the blanks around the value. -/
theorem SettingLine.value_read (s : SettingLine) :
    trimBlanks (beforeComment (s.beforeValue.text ++ (s.value ++ (s.afterValue.text ++
      (s.comment.map Comment.text).getD [])))) = s.value := by
  have hplain : ∀ {a : Text}, (∀ c ∈ a, isWhitespace c = true) →
      ∀ c ∈ a, (!isCommentMark c) = true := by
    intro a ha c hc
    cases hmark : isCommentMark c with
    | false => rfl
    | true =>
      have h := isWhitespace_of_mark hmark
      rw [ha c hc] at h
      cases h
  have hvalue : ∀ c ∈ s.value, (!isCommentMark c) = true := by
    intro c hc
    rw [(s.value_chars c hc).1]
    rfl
  have hrest : beforeComment ((s.comment.map Comment.text).getD []) = [] := by
    cases s.comment with
    | none => rfl
    | some c =>
      change beforeComment (c.mark :: c.content) = []
      rw [beforeComment, List.takeWhile_cons_of_neg]
      simp [c.isMark]
  unfold beforeComment at hrest ⊢
  rw [List.takeWhile_append_of_pos (hplain s.beforeValue.blank),
    List.takeWhile_append_of_pos hvalue, List.takeWhile_append_of_pos (hplain s.afterValue.blank),
    hrest, List.append_nil, trimBlanks, trim_blanks s.beforeValue.blank s.afterValue.blank,
    trim_of_trimmed s.value_trimmed]

/-- A comment mark or the bracket of a header, with nothing but blanks in front. -/
theorem setting_marked {a t : Text} {c : Char} (ha : ∀ c ∈ a, isWhitespace c = true)
    (hc : marked (c :: t) = true) : setting (a ++ c :: t) = none := by
  have hmark : (c == ';' || c == '#' || c == '[') = true := hc
  have hplain : isWhitespace c = false := by
    simp only [Bool.or_eq_true, beq_iff_eq] at hmark
    rcases hmark with (rfl | rfl) | rfl <;> decide
  have htrim : trimBlanks (a ++ c :: t) = c :: t.rdropWhile isWhitespace := by
    rw [trimBlanks, trim_append_cons hplain, List.dropWhile_eq_nil_iff.mpr ha]
    rfl
  have hskip : marked (c :: t.rdropWhile isWhitespace) = true := hmark
  rw [setting, htrim, hskip, Bool.or_true]
  rfl

/-- The blanks around the key and the comment behind the value are no part of them. -/
theorem SettingLine.setting_text (s : SettingLine) :
    setting s.text = some (toAsciiLowercase s.key, s.value) := by
  have hblank : ∀ {b : Blanks}, '=' ∉ b.text := by
    intro b hmem
    exact absurd (b.blank _ hmem) (by decide)
  have hsign : '=' ∉ s.indent.text ++ (s.key ++ s.afterKey.text) := by
    intro hmem
    rcases List.mem_append.mp hmem with hmem | hmem
    · exact hblank hmem
    · exact (List.mem_append.mp hmem).elim s.key_chars.1 hblank
  have hkey : trimBlanks (s.indent.text ++ (s.key ++ s.afterKey.text)) = s.key := by
    rw [trimBlanks, trim_blanks s.indent.blank s.afterKey.blank, trim_of_trimmed s.key_trimmed]
  rw [SettingLine.text, ← List.append_assoc, ← List.append_assoc, List.append_assoc s.indent.text,
    setting_line hsign, hkey, s.key_start, if_neg Bool.false_ne_true, s.value_read]

theorem setting_text (l : Line) : setting l.text = l.entry := by
  cases l with
  | setting s => exact s.setting_text
  | comment indent c =>
    refine setting_marked indent.blank ?_
    rcases Bool.or_eq_true_iff.mp c.isMark with h | h <;> rw [eq_of_beq h] <;> rfl
  | header indent name _ => exact setting_marked indent.blank rfl
  | blank b =>
    have htrim : trimBlanks b.text = [] := trim_eq_nil_iff.mpr b.blank
    change Configuration.setting b.text = none
    rw [Configuration.setting, htrim]
    rfl

/-! ### The document -/

theorem settings_render (doc : Document) :
    (lines (render doc)).filterMap setting = entries doc := by
  have hinline : ∀ l ∈ doc.map fun l => (l.1.text, l.2), Inline (fun c => c == '\n') l.1 := by
    intro l hl
    obtain ⟨d, -, rfl⟩ := List.mem_map.mp hl
    exact d.1.inline
  rw [lines, render, filterMap_splitLines_join rfl setting_dropCr rfl hinline, List.map_map,
    List.filterMap_map, entries]
  congr 1
  funext l
  exact setting_text l.1

/-- Whatever the document looks like, its last settings are what the parser finds. -/
theorem parseIni_render (doc : Document) (k : Text) :
    (parseIni (render doc)).lookup k = lastValue k (entries doc) := by
  rw [lookup_parseIni, settings_render]

example : (parseIni "; port = 1\n[cannelloni]\r\n Port=20000 # a=b\nlog=".toList).lookup
    "port".toList = some "20000".toList := by decide

end Kvasilloni.IniDocuments
