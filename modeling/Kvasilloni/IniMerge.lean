import Kvasilloni.Library.Regex
import Kvasilloni.PythonText

/-!
The migration tool: it reads the settings of a user's INI, writes them over the key lines of
the commented template, and appends the settings that the template has no line for. Files and
messages are left out; what it reads and writes is text.
-/
namespace Kvasilloni.IniMerge

open IpLiterals Kvasilloni.Configuration PythonText TextLines Trimming LastValue Regex

def knownKeys : List Text :=
  ["host".toList, "port".toList, "localport".toList, "proto".toList, "tcprole".toList,
    "peercheck".toList, "allow".toList, "udpportfallback".toList,
    "connecttimeout".toList, "accepttimeout".toList, "channels".toList, "log".toList]

/-- `.` in a pattern. -/
def anyButNewline (c : Char) : Bool := c != '\n'

/-- `$` in a pattern. -/
def atEnd (rest : Text) : Bool := rest == [] || rest == ['\n']

/-- `[A-Za-z_]` in a pattern. -/
def isKeyStart (c : Char) : Bool := c.isAlpha || c == '_'

section Tool

variable (db : CharDatabase)

/-- `^(\s*)([;#]\s*)?([A-Za-z_]\w*)(\s*)=(\s*)(.*)$`, matched at the start of a line. -/
def keyLine : Expr Char :=
  .seq (.group 1 (.many isSpace))
    (.seq (.opt (.group 2 (.seq (.one isCommentMark) (.many isSpace))))
      (.seq (.group 3 (.seq (.one isKeyStart) (.many db.isWord)))
        (.seq (.group 4 (.many isSpace))
          (.seq (.one fun c => c == '=')
            (.seq (.group 5 (.many isSpace))
              (.seq (.group 6 (.many anyButNewline)) (.look atEnd)))))))

/-- `\s*[;#].*$` -/
def inlineComment : Expr Char :=
  .seq (.many isSpace) (.seq (.one isCommentMark) (.seq (.many anyButNewline) (.look atEnd)))

def stripInlineComment (text : Text) : Text := strip (erase inlineComment text)

/-- The setting that `parse_user_ini` finds in a line. -/
def userSetting (raw : Text) : Option (Text × Text) :=
  let line := strip raw
  if line.isEmpty || marked line then none
  else (splitOnce '=' line).map fun r => (db.lower (strip r.1), stripInlineComment r.2)

def parseUserIni (text : Text) : Map Text Text :=
  (splitlines text).foldl (fun values raw =>
    match userSetting db raw with
    | some (key, value) => values.insert key value
    | none => values) ∅

/-- The lines written so far, the keys applied, and the settings that are left. -/
structure Merging where
  outLines : List Text
  applied : List Text
  user : Map Text Text

/-- A key line with the user's value, in front of the comment that the template has there. -/
def filledLine (indent key value rest : Text) : Text :=
  let inline := match search inlineComment rest with
    | some (_, m) => m.taken
    | none => []
  indent ++ (key ++ (" = ".toList ++ (value ++ inline)))

/-- What `merge` does with a line of the template. -/
def mergeLine (s : Merging) (raw : Text) : Merging :=
  match matchAt (keyLine db) raw with
  | none => { s with outLines := s.outLines ++ [raw] }
  | some m =>
    let keyLc := db.lower (m.group 3)
    if keyLc ∉ knownKeys then { s with outLines := s.outLines ++ [raw] }
    else match s.user.lookup keyLc with
      | none => { s with outLines := s.outLines ++ [raw] }
      | some value => {
          outLines := s.outLines ++ [filledLine (m.group 1) (m.group 3) value (m.group 6)]
          applied := s.applied ++ [keyLc]
          user := s.user.erase keyLc }

def merge (template : Text) (user : Map Text Text) : Merging :=
  (splitlines template).foldl (mergeLine db) ⟨[], [], user⟩

/-- `"\n".join` -/
def joinLines (ls : List Text) : Text := ['\n'].intercalate ls

/-- What is appended for the settings that are left. -/
def extraLines (leftovers : Map Text Text) : List Text :=
  [] :: "; --- settings from your ini with no matching template key ---".toList ::
    (leftovers.keys.insertionSort (· ≤ ·)).flatMap fun key =>
      (if key ∈ knownKeys then [] else ["; (not a recognised kvasilloni key)".toList]) ++
        [key ++ (" = ".toList ++ (leftovers.lookup key).getD [])]

/-- The text that `main` writes. -/
def output (template userText : Text) : Text :=
  let m := merge db template (parseUserIni db userText)
  let merged := joinLines m.outLines
  let merged := if m.user.keys.isEmpty then merged
    else merged ++ ('\n' :: joinLines (extraLines m.user))
  merged.rdropWhile (fun c => c == '\n') ++ ['\n']

end Tool

/-! ### Comments -/

theorem fits_inlineComment {taken rest : Text} {groups : List (ℕ × Text)}
    (h : Fits inlineComment taken groups rest) : ∃ sp mark t, taken = sp ++ mark :: t ∧
      (∀ c ∈ sp, isSpace c = true) ∧ isCommentMark mark = true ∧ atEnd rest = true := by
  obtain ⟨sp, _, _, _, rfl, -, hblank, hbehind⟩ := fits_seq.mp h
  obtain ⟨_, _, _, _, rfl, -, hone, htext⟩ := fits_seq.mp hbehind
  obtain ⟨t, _, _, _, rfl, -, -, hlook⟩ := fits_seq.mp htext
  obtain ⟨mark, rfl, hmark, -⟩ := fits_one.mp hone
  obtain ⟨rfl, -, hend⟩ := fits_look.mp hlook
  exact ⟨sp, mark, t, by simp, (fits_many.mp hblank).1, hmark, hend⟩

theorem inlineComment_fits {sp t : Text} {mark : Char} (hsp : ∀ c ∈ sp, isSpace c = true)
    (hmark : isCommentMark mark = true) (ht : '\n' ∉ t) :
    Fits inlineComment (sp ++ mark :: t) [] [] := by
  have hany : ∀ c ∈ t, anyButNewline c = true := by
    intro c hc
    rw [anyButNewline, bne_iff_ne]
    rintro rfl
    exact ht hc
  refine ⟨sp, mark :: t, [], [], rfl, rfl, ⟨hsp, rfl⟩, [mark], t, [], [], rfl, rfl,
    ⟨mark, rfl, hmark, rfl⟩, t, [], [], [], ?_, rfl, ⟨hany, rfl⟩, rfl, rfl, rfl⟩
  rw [List.append_nil]

theorem beforeComment_mark {a t : Text} {mark : Char} (ha : ∀ c ∈ a, isCommentMark c = false)
    (hmark : isCommentMark mark = true) : beforeComment (a ++ mark :: t) = a := by
  unfold beforeComment
  rw [List.takeWhile_append_of_pos fun c hc => by rw [ha c hc]; rfl,
    List.takeWhile_cons_of_neg (by simp [hmark]), List.append_nil]

theorem matchAt_inlineComment_eq_none {v : Text} (hv : ∀ c ∈ v, isCommentMark c = false) :
    matchAt inlineComment v = none := by
  rw [matchAt_eq_none]
  rintro taken groups rest rfl hfits
  obtain ⟨sp, mark, t, rfl, -, hmark, -⟩ := fits_inlineComment hfits
  rw [hv mark (by simp)] at hmark
  cases hmark

theorem erase_uncommented {v : Text} (hv : ∀ c ∈ v, isCommentMark c = false) :
    erase inlineComment v = v := by
  refine erase_eq_self fun x z hz _ => matchAt_inlineComment_eq_none fun c hc => hv c ?_
  rw [hz]
  exact List.mem_append_right x hc

/-- A comment is erased with the blanks in front of it. -/
theorem erase_comment {sp y : Text} {mark : Char} (hsp : ∀ c ∈ sp, isSpace c = true)
    (hmark : isCommentMark mark = true) (hline : '\n' ∉ sp ++ mark :: y) :
    erase inlineComment (sp ++ mark :: y) = [] := by
  have hy : '\n' ∉ y := fun hmem => hline (by simp [hmem])
  obtain ⟨o, ho⟩ := matchAt_of_fits (inlineComment_fits hsp hmark hy)
  rw [List.append_nil] at ho
  obtain ⟨hs, hfits⟩ := matchAt_some ho
  obtain ⟨sp', mark', t, htaken, -, -, hend⟩ := fits_inlineComment hfits
  have hrest : o.rest = [] := by
    rcases Bool.or_eq_true_iff.mp hend with h | h
    · exact eq_of_beq h
    · have hmem : '\n' ∈ o.taken ++ o.rest := by simp [eq_of_beq h]
      rw [← hs] at hmem
      exact absurd hmem hline
  rw [erase_matchAt ho (by simp [htaken]), hrest]
  rfl

/-- What stands in front of a comment and ends in no blank is kept. -/
theorem erase_commented {front sp y : Text} {mark : Char}
    (hplain : ∀ c ∈ front ++ sp, isCommentMark c = false)
    (hlast : ∀ c ∈ front.getLast?, isSpace c = false) (hmark : isCommentMark mark = true) :
    erase inlineComment (front ++ (sp ++ mark :: y)) =
      front ++ erase inlineComment (sp ++ mark :: y) := by
  refine erase_append fun x z hz hne => ?_
  rw [matchAt_eq_none]
  intro taken groups rest htaken hfits
  obtain ⟨sp', mark', t, rfl, hsp', hmark', -⟩ := fits_inlineComment hfits
  have hz' : ∀ c ∈ z ++ sp, isCommentMark c = false := by
    intro c hc
    refine hplain c ?_
    rw [hz]
    rcases List.mem_append.mp hc with hc | hc <;> simp [hc]
  -- the blanks in front of the mark would reach into what no blank ends
  have hblank : sp' = z ++ sp := by
    have hsp'' : ∀ c ∈ sp', isCommentMark c = false :=
      fun c hc => isCommentMark_of_isSpace (hsp' c hc)
    rw [← List.append_assoc, List.append_assoc sp', List.cons_append] at htaken
    rw [← beforeComment_mark hsp'' hmark', ← htaken, beforeComment_mark hz' hmark]
  have hend : front.getLast? = some (z.getLast hne) := by
    rw [hz, List.getLast?_append_of_ne_nil _ hne, List.getLast?_eq_some_getLast hne]
  have hspace := hsp' (z.getLast hne) (hblank ▸ List.mem_append_left _ (List.getLast_mem hne))
  rw [hlast _ hend] at hspace
  cases hspace

/-- Without its comments a line ends in front of the first mark and the blanks before it. -/
theorem stripInlineComment_eq {v : Text} (hv : '\n' ∉ v) :
    stripInlineComment v = strip (beforeComment v) := by
  have hplain : ∀ c ∈ beforeComment v, isCommentMark c = false := by
    intro c hc
    simpa using List.mem_takeWhile_imp hc
  have hsplit : v = beforeComment v ++ v.dropWhile fun c => !isCommentMark c :=
    List.takeWhile_append_dropWhile.symm
  cases hrest : v.dropWhile fun c => !isCommentMark c with
  | nil =>
    rw [hrest, List.append_nil] at hsplit
    rw [← hsplit] at hplain ⊢
    rw [stripInlineComment, erase_uncommented hplain]
  | cons mark y =>
    have hmark : isCommentMark mark = true := by
      have hnot := List.head?_dropWhile_not (fun c => !isCommentMark c) v
      rw [hrest] at hnot
      simpa using hnot
    have hw : ∀ c ∈ (beforeComment v).rtakeWhile isSpace, isSpace c = true :=
      fun c hc => List.mem_rtakeWhile_imp hc
    have hcut := List.rdropWhile_append_rtakeWhile (p := isSpace) (l := beforeComment v)
    have hline : v = (beforeComment v).rdropWhile isSpace ++
        ((beforeComment v).rtakeWhile isSpace ++ mark :: y) := by
      rw [← List.append_assoc, hcut, ← hrest]
      exact hsplit
    have hlast : ∀ c ∈ ((beforeComment v).rdropWhile isSpace).getLast?, isSpace c = false := by
      intro c hc
      have hne : (beforeComment v).rdropWhile isSpace ≠ [] := by
        intro hempty
        rw [hempty] at hc
        cases hc
      rw [List.getLast?_eq_some_getLast hne] at hc
      rw [← Option.some.inj hc]
      exact Bool.not_eq_true _ ▸ List.rdropWhile_last_not isSpace (beforeComment v) hne
    have hcomment : '\n' ∉ (beforeComment v).rtakeWhile isSpace ++ mark :: y :=
      fun hmem => hv (hline ▸ List.mem_append_right _ hmem)
    have hkeep : erase inlineComment v = (beforeComment v).rdropWhile isSpace := by
      conv_lhs => rw [hline]
      rw [erase_commented (by rwa [hcut]) hlast hmark, erase_comment hw hmark hcomment,
        List.append_nil]
    rw [stripInlineComment, hkeep, strip, strip]
    conv_rhs => rw [← hcut]
    rw [trim_blanks_right hw]

/-! ### The setting in a line -/

section Lines

variable (db : CharDatabase)

theorem userSetting_eq_none {raw : Text} (h : '=' ∉ raw) : userSetting db raw = none := by
  have hsplit : splitOnce '=' (strip raw) = none :=
    splitOnce_eq_none.mpr fun hmem => h (mem_of_mem_trim hmem)
  unfold userSetting
  dsimp only
  split
  · rfl
  · rw [hsplit]
    rfl

/-- The setting in a line, from what stands before and behind its first sign. -/
theorem userSetting_line {a r : Text} (ha : '=' ∉ a) (hr : '\n' ∉ r) :
    userSetting db (a ++ '=' :: r) =
      if marked (strip a) then none
      else some (db.lower (strip a), strip (beforeComment r)) := by
  have hnot : '=' ∉ a.dropWhile isSpace := fun hmem => ha ((List.dropWhile_sublist _).mem hmem)
  have hline : '\n' ∉ r.rdropWhile isSpace :=
    fun hmem => hr ((List.rdropWhile_prefix _ _).mem hmem)
  have hempty : (a.dropWhile isSpace ++ '=' :: r.rdropWhile isSpace).isEmpty = false := by simp
  rw [userSetting, strip, trim_append_cons (by decide), hempty, Bool.false_or, marked_line,
    splitOnce_append hnot, Option.map_some]
  simp only [strip, trim_dropWhile]
  rw [stripInlineComment_eq hline, strip, trim_beforeComment fun _ => isCommentMark_of_isSpace]
  rfl

theorem userSetting_some {raw key value : Text} (hraw : '\n' ∉ raw)
    (h : userSetting db raw = some (key, value)) :
    ∃ a r, raw = a ++ '=' :: r ∧ '=' ∉ a ∧ marked (strip a) = false ∧
      key = db.lower (strip a) ∧ value = strip (beforeComment r) := by
  cases hsplit : splitOnce '=' raw with
  | none =>
    rw [userSetting_eq_none db (splitOnce_eq_none.mp hsplit)] at h
    cases h
  | some r =>
    obtain ⟨a, r⟩ := r
    obtain ⟨rfl, ha⟩ := splitOnce_eq_some.mp hsplit
    rw [userSetting_line db ha fun hmem => hraw (by simp [hmem])] at h
    split at h
    · cases h
    · rename_i hmark
      obtain ⟨rfl, rfl⟩ := Prod.mk.inj (Option.some.inj h)
      exact ⟨a, r, rfl, ha, Bool.not_eq_true _ ▸ hmark, rfl, rfl⟩

/-! ### All settings of a text -/

def entries (ls : List Text) : List (Text × Text) := ls.filterMap (userSetting db)

/-- A setting that reads back from a line of its own. -/
structure Clean (key value : Text) : Prop where
  lowered : db.lower key = key
  stripped : strip key = key
  unmarked : marked key = false
  no_sign : '=' ∉ key
  key_inline : ∀ c ∈ key, isLineBreak c = false
  value_stripped : strip value = value
  value_chars : ∀ c ∈ value, isCommentMark c = false ∧ isLineBreak c = false

theorem inline_iff {l : Text} : Inline isLineBreak l ↔ ∀ c ∈ l, isLineBreak c = false := by
  constructor
  · intro h c hc
    exact (h c hc).2
  · intro h c hc
    refine ⟨?_, h c hc⟩
    rintro rfl
    exact absurd (h _ hc) (by decide)

theorem newline_not_mem {l : Text} (h : ∀ c ∈ l, isLineBreak c = false) : '\n' ∉ l :=
  fun hmem => absurd (h _ hmem) (by decide)

/-- What is read from a line reads back when it is written again. -/
theorem clean_of_userSetting {raw key value : Text} (hraw : ∀ c ∈ raw, isLineBreak c = false)
    (h : userSetting db raw = some (key, value)) : Clean db key value := by
  obtain ⟨a, r, rfl, ha, hmark, rfl, rfl⟩ := userSetting_some db (newline_not_mem hraw) h
  have hstrip : strip (strip a) = strip a := trim_trim
  have hleft : ∀ c ∈ strip a, isLineBreak c = false :=
    fun c hc => hraw c (List.mem_append_left _ (mem_of_mem_trim hc))
  constructor
  · exact db.lower_lower _
  · exact db.strip_lower hstrip
  · exact db.marked_lower hmark
  · exact db.not_mem_lower (by decide) fun hmem => ha (mem_of_mem_trim hmem)
  · intro c hc
    by_contra hbreak
    rw [Bool.not_eq_false] at hbreak
    have hplain : plain c = false := by
      rw [plain, isSpace_of_isLineBreak hbreak]
      rfl
    refine absurd hc (db.not_mem_lower hplain fun hmem => ?_)
    rw [hleft c hmem] at hbreak
    cases hbreak
  · exact trim_trim
  · intro c hc
    have hcut : c ∈ beforeComment r := mem_of_mem_trim hc
    have hr : c ∈ r := (List.takeWhile_sublist _).mem hcut
    exact ⟨by simpa using List.mem_takeWhile_imp hcut, hraw c (by simp [hr])⟩

theorem lookup_parseUserIni (text key : Text) :
    (parseUserIni db text).lookup key = lastValue key (entries db (splitlines text)) := by
  refine lookup_foldl_insert (fun m line => ?_) (splitlines text) key
  cases userSetting db line <;> rfl

theorem splitlines_inline {text l : Text} (hl : l ∈ splitlines text) :
    ∀ c ∈ l, isLineBreak c = false :=
  inline_iff.mp (inline_of_mem (by decide) hl)

theorem parseUserIni_clean {text key value : Text}
    (h : (parseUserIni db text).lookup key = some value) : Clean db key value := by
  rw [lookup_parseUserIni, lastValue_eq_some] at h
  obtain ⟨pre, post, hentries, -⟩ := h
  have hmem : (key, value) ∈ entries db (splitlines text) := by simp [hentries]
  obtain ⟨l, hl, hread⟩ := List.mem_filterMap.mp hmem
  exact clean_of_userSetting db (splitlines_inline hl) hread

/-! ### The key line of a template -/

/-- The comment mark of a key line, with the blanks behind it, if there is one. -/
def IsMarker (marker : Text) : Prop :=
  marker = [] ∨ ∃ c sp, marker = c :: sp ∧ isCommentMark c = true ∧ ∀ d ∈ sp, isSpace d = true

/-- A key as the pattern for key lines has it. -/
def IsWord (key : Text) : Prop :=
  ∃ c w, key = c :: w ∧ isKeyStart c = true ∧ ∀ d ∈ w, db.isWord d = true

/-- The parts of a key line. -/
structure KeyLine (raw indent marker key wsKey wsValue rest : Text) : Prop where
  line : raw = indent ++ (marker ++ (key ++ (wsKey ++ '=' :: (wsValue ++ rest))))
  indent_space : ∀ c ∈ indent, isSpace c = true
  isMarker : IsMarker marker
  isWord : IsWord db key
  wsKey_space : ∀ c ∈ wsKey, isSpace c = true
  wsValue_space : ∀ c ∈ wsValue, isSpace c = true

/-- The known key that a line of the template has a key line for. -/
def templateKey (raw : Text) : Option Text :=
  (matchAt (keyLine db) raw).bind fun m =>
    if db.lower (m.group 3) ∈ knownKeys then some (db.lower (m.group 3)) else none

/-- No known key has two key lines, active or commented. -/
def OneKeyLineEach (template : Text) : Prop :=
  ((splitlines template).filterMap (templateKey db)).Nodup

theorem fits_marker {taken rest : Text} {groups : List (ℕ × Text)}
    (h : Fits (.opt (.group 2 (.seq (.one isCommentMark) (.many isSpace)))) taken groups rest) :
    (groups = [] ∨ groups = [(2, taken)]) ∧ IsMarker taken := by
  rcases fits_opt.mp h with h | ⟨rfl, rfl⟩
  · obtain ⟨inner, rfl, hinner⟩ := fits_group.mp h
    obtain ⟨_, sp, _, _, rfl, rfl, hmark, hblank⟩ := fits_seq.mp hinner
    obtain ⟨c, rfl, hc, rfl⟩ := fits_one.mp hmark
    obtain ⟨hsp, rfl⟩ := fits_many.mp hblank
    exact ⟨Or.inr rfl, Or.inr ⟨c, sp, rfl, hc, hsp⟩⟩
  · exact ⟨Or.inl rfl, Or.inl rfl⟩

theorem fits_key {taken rest : Text} {groups : List (ℕ × Text)}
    (h : Fits (.group 3 (.seq (.one isKeyStart) (.many db.isWord))) taken groups rest) :
    groups = [(3, taken)] ∧ IsWord db taken := by
  obtain ⟨inner, rfl, hinner⟩ := fits_group.mp h
  obtain ⟨_, w, _, _, rfl, rfl, hstart, hword⟩ := fits_seq.mp hinner
  obtain ⟨c, rfl, hc, rfl⟩ := fits_one.mp hstart
  obtain ⟨hw, rfl⟩ := fits_many.mp hword
  exact ⟨rfl, c, w, rfl, hc, hw⟩

theorem fits_keyLine {taken tail : Text} {groups : List (ℕ × Text)}
    (h : Fits (keyLine db) taken groups tail) :
    ∃ indent marker key wsKey wsValue rest markers,
      KeyLine db taken indent marker key wsKey wsValue rest ∧
      groups = (1, indent) :: (markers ++
        [(3, key), (4, wsKey), (5, wsValue), (6, rest)]) ∧
      (markers = [] ∨ markers = [(2, marker)]) ∧ atEnd tail = true := by
  obtain ⟨indent, _, _, _, rfl, rfl, h1, hline⟩ := fits_seq.mp h
  obtain ⟨marker, _, markers, _, rfl, rfl, h2, hactive⟩ := fits_seq.mp hline
  obtain ⟨key, _, _, _, rfl, rfl, h3, hbehind⟩ := fits_seq.mp hactive
  obtain ⟨wsKey, _, _, _, rfl, rfl, h4, hassign⟩ := fits_seq.mp hbehind
  obtain ⟨_, _, _, _, rfl, rfl, hone, hright⟩ := fits_seq.mp hassign
  obtain ⟨wsValue, _, _, _, rfl, rfl, h5, hvalue⟩ := fits_seq.mp hright
  obtain ⟨rest, _, _, _, rfl, rfl, h6, hlook⟩ := fits_seq.mp hvalue
  obtain ⟨hindent, rfl⟩ := fits_group_many.mp h1
  obtain ⟨hmarkers, hmarker⟩ := fits_marker h2
  obtain ⟨rfl, hword⟩ := fits_key db h3
  obtain ⟨hwsKey, rfl⟩ := fits_group_many.mp h4
  obtain ⟨sign, rfl, hsign, rfl⟩ := fits_one.mp hone
  obtain ⟨hwsValue, rfl⟩ := fits_group_many.mp h5
  obtain ⟨-, rfl⟩ := fits_group_many.mp h6
  obtain ⟨rfl, rfl, hend⟩ := fits_look.mp hlook
  obtain rfl := eq_of_beq hsign
  exact ⟨indent, marker, key, wsKey, wsValue, rest, markers,
    ⟨by simp, hindent, hmarker, hword, hwsKey, hwsValue⟩, by simp, hmarkers, hend⟩

/-- What the pattern for key lines finds in a line. -/
theorem keyLine_of_matchAt {raw : Text} {m : Outcome Char} (hraw : '\n' ∉ raw)
    (h : matchAt (keyLine db) raw = some m) : ∃ marker wsKey wsValue,
      KeyLine db raw (m.group 1) marker (m.group 3) wsKey wsValue (m.group 6) := by
  obtain ⟨hs, hfits⟩ := matchAt_some h
  obtain ⟨indent, marker, key, wsKey, wsValue, rest, markers, hline, hgroups, hmarkers, hend⟩ :=
    fits_keyLine db hfits
  have htail : m.rest = [] := by
    rcases Bool.or_eq_true_iff.mp hend with h | h
    · exact eq_of_beq h
    · refine absurd ?_ hraw
      rw [hs, eq_of_beq h]
      exact List.mem_append_right _ (List.mem_singleton_self _)
  rw [htail, List.append_nil] at hs
  have hfound : m.group 1 = indent ∧ m.group 3 = key ∧ m.group 6 = rest := by
    unfold Outcome.group
    rw [hgroups]
    rcases hmarkers with rfl | rfl <;> exact ⟨rfl, rfl, rfl⟩
  rw [hfound.1, hfound.2.1, hfound.2.2, hs]
  exact ⟨marker, wsKey, wsValue, hline⟩

/-- An active line with a word for its key is a key line. -/
theorem matchAt_keyLine {indent key wsKey rest : Text} (hindent : ∀ c ∈ indent, isSpace c = true)
    (hkey : IsWord db key) (hwsKey : ∀ c ∈ wsKey, isSpace c = true) (hrest : '\n' ∉ rest) :
    ∃ m, matchAt (keyLine db) (indent ++ (key ++ (wsKey ++ '=' :: rest))) = some m := by
  obtain ⟨c, w, rfl, hc, hw⟩ := hkey
  have hany : ∀ d ∈ rest, anyButNewline d = true := by
    intro d hd
    rw [anyButNewline, bne_iff_ne]
    rintro rfl
    exact hrest hd
  have hfits : Fits (keyLine db) (indent ++ ([] ++ (([c] ++ w) ++ (wsKey ++ (['='] ++
      ([] ++ (rest ++ []))))))) _ [] :=
    ⟨_, _, _, _, rfl, rfl, ⟨_, rfl, hindent, rfl⟩, _, _, _, _, rfl, rfl, Or.inr ⟨rfl, rfl⟩,
      _, _, _, _, rfl, rfl, ⟨_, rfl, _, _, _, _, rfl, rfl, ⟨c, rfl, hc, rfl⟩, ⟨hw, rfl⟩⟩,
      _, _, _, _, rfl, rfl, ⟨_, rfl, hwsKey, rfl⟩, _, _, _, _, rfl, rfl, ⟨'=', rfl, rfl, rfl⟩,
      _, _, _, _, rfl, rfl, ⟨_, rfl, by simp, rfl⟩, _, _, _, _, rfl, rfl, ⟨_, rfl, hany, rfl⟩,
      rfl, rfl, rfl⟩
  obtain ⟨m, hm⟩ := matchAt_of_fits hfits
  refine ⟨m, ?_⟩
  rw [← hm]
  congr 1
  simp

end Lines

end Kvasilloni.IniMerge
