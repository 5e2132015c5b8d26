import Kvasilloni.IniMerge

/-!
Whether the tool reads a text as the shim does. The two cut a text at other boundaries, strip
other blanks from its keys and values, and lower its keys by other rules. Each of these
differences is a condition on the lines of the text.
-/
namespace Kvasilloni.IniMirror

open IpLiterals Kvasilloni.Configuration PythonText IniMerge TextLines Trimming LastValue

/-- A line sets a key: what stands before its first sign, and behind that up to a comment. -/
def Sets (line key value : Text) : Prop :=
  ∃ a r, line = a ++ '=' :: r ∧ '=' ∉ a ∧ key = trimBlanks a ∧
    value = trimBlanks (beforeComment r) ∧ marked key = false

section Mirror

variable (db : CharDatabase)

/-- The two maps are the same. -/
def Agree (t : Text) : Prop := ∀ k, (parseUserIni db t).lookup k = (parseIni t).lookup k

/-- Python's blanks and lowercase forms change no key of the shim's lines beyond the ASCII
letters, and not the last value of a key either. -/
structure ReadAlike (t : Text) : Prop where
  keys : ∀ l ∈ lines t, ∀ key value, Sets l key value →
    strip key = key ∧ db.lower key = toAsciiLowercase key
  values : ∀ pre l post key value, lines t = pre ++ l :: post → Sets l key value →
    (∀ l' ∈ post, ∀ key' value', Sets l' key' value' →
      toAsciiLowercase key' ≠ toAsciiLowercase key) → strip value = value

/-- The boundaries that only Python has cut no line of the shim into other settings. -/
def SameLines (t : Text) : Prop :=
  ∀ l ∈ lines t, entries db (splitlines l) = (userSetting db l).toList

/-- The tool finds no key twice. -/
def OneSettingEach (t : Text) : Prop := ((entries db (splitlines t)).map Prod.fst).Nodup

/-! ### Lines of the shim -/

theorem setting_eq_some {line key value : Text} : setting line = some (key, value) ↔
    ∃ k, Sets line k value ∧ key = toAsciiLowercase k := by
  constructor
  · intro h
    cases hsplit : splitOnce '=' line with
    | none =>
      rw [setting_eq_none (splitOnce_eq_none.mp hsplit)] at h
      cases h
    | some r =>
      obtain ⟨a, r⟩ := r
      obtain ⟨rfl, ha⟩ := splitOnce_eq_some.mp hsplit
      rw [setting_line ha] at h
      split at h
      · cases h
      · rename_i hmark
        obtain ⟨rfl, rfl⟩ := Prod.mk.inj (Option.some.inj h)
        exact ⟨trimBlanks a, ⟨a, r, rfl, ha, rfl, rfl, Bool.not_eq_true _ ▸ hmark⟩, rfl⟩
  · rintro ⟨k, ⟨a, r, rfl, ha, rfl, rfl, hmark⟩, rfl⟩
    rw [setting_line ha, hmark, if_neg Bool.false_ne_true]

theorem marked_strip {t : Text} (h : marked t = true) : marked (strip t) = true := by
  cases t with
  | nil => cases h
  | cons c t =>
    have hplain : isSpace c = false := by
      simp only [marked, Bool.or_eq_true, beq_iff_eq] at h
      rcases h with (rfl | rfl) | rfl <;> decide
    have hstrip : strip (c :: t) = c :: t.rdropWhile isSpace := trim_append_cons hplain [] t
    rw [hstrip]
    exact h

/-- What the shim skips, the tool skips. -/
theorem userSetting_of_setting {line : Text} (hline : '\n' ∉ line) (h : setting line = none) :
    userSetting db line = none := by
  cases hsplit : splitOnce '=' line with
  | none => exact userSetting_eq_none db (splitOnce_eq_none.mp hsplit)
  | some r =>
    obtain ⟨a, r⟩ := r
    obtain ⟨rfl, ha⟩ := splitOnce_eq_some.mp hsplit
    rw [setting_line ha] at h
    split at h
    · rename_i hmark
      rw [userSetting_line db ha fun hmem => hline (by simp [hmem]), ← strip_trimBlanks,
        marked_strip hmark, if_pos rfl]
    · cases h

theorem Sets.userSetting_eq {line key value : Text} (hline : '\n' ∉ line)
    (h : Sets line key value) (hkey : strip key = key) :
    userSetting db line = some (db.lower key, strip value) := by
  obtain ⟨a, r, rfl, ha, rfl, rfl, hmark⟩ := h
  rw [strip_trimBlanks] at hkey
  rw [userSetting_line db ha fun hmem => hline (by simp [hmem]), hkey, hmark,
    if_neg Bool.false_ne_true, strip_trimBlanks]

theorem newline_not_mem_lines {t l : Text} (hl : l ∈ lines t) : '\n' ∉ l := by
  have hline : Inline (fun c => c == '\n') l := inline_of_mem rfl hl
  exact fun hmem => (hline _ hmem).1 rfl

/-- Line by line, the tool reads what the shim reads, and strips its value. -/
theorem entries_lines {t : Text} (h : ReadAlike db t) : entries db (lines t) =
    ((lines t).filterMap setting).map fun e => (e.1, strip e.2) := by
  rw [entries, List.map_filterMap]
  refine List.filterMap_congr fun l hl => ?_
  have hline := newline_not_mem_lines hl
  cases hset : setting l with
  | none => exact userSetting_of_setting db hline hset
  | some e =>
    obtain ⟨k, hsets, hk⟩ := setting_eq_some.mp hset
    obtain ⟨hstrip, hlower⟩ := h.keys l hl k e.2 hsets
    rw [hsets.userSetting_eq db hline hstrip, hlower, ← hk]
    rfl

/-- The value that the shim has in the end is one of a line that no later line overrides. -/
theorem strip_lookup {t k v : Text} (h : ReadAlike db t) (hv : (parseIni t).lookup k = some v) :
    strip v = v := by
  rw [lookup_parseIni, lastValue_eq_some] at hv
  obtain ⟨pre, post, hsplit, hpost⟩ := hv
  obtain ⟨ls, ms, hlines, -, hms⟩ := List.filterMap_eq_append_iff.mp hsplit
  obtain ⟨skipped, l, ms', rfl, -, hl, hms'⟩ := List.filterMap_eq_cons_iff.mp hms
  obtain ⟨key, hsets, rfl⟩ := setting_eq_some.mp hl
  refine h.values (ls ++ skipped) l ms' key v (by rw [hlines, List.append_assoc]) hsets ?_
  intro l' hl' key' value' hsets'
  refine hpost (toAsciiLowercase key', value') ?_
  rw [← hms']
  exact List.mem_filterMap.mpr ⟨l', hl', setting_eq_some.mpr ⟨key', hsets', rfl⟩⟩

/-- The tool would read what the shim reads if it had the lines of the shim. -/
theorem lastValue_lines {t : Text} (h : ReadAlike db t) (k : Text) :
    lastValue k (entries db (lines t)) = (parseIni t).lookup k := by
  rw [entries_lines db h, lastValue_map, ← lookup_parseIni]
  cases hv : (parseIni t).lookup k with
  | none => rfl
  | some v => rw [Option.map_some, strip_lookup db h hv]

/-! ### Lines of the tool -/

theorem entries_splitlines (t : Text) :
    entries db (splitlines t) = (lines t).flatMap fun l => entries db (splitlines l) := by
  have hnil : userSetting db [] = none := userSetting_eq_none db (by simp)
  rw [entries, splitlines, filterMap_splitLines_flatMap (by decide) (by decide) hnil,
    List.filterMap_flatMap]
  rfl

theorem entries_eq_flatMap (ls : List Text) :
    entries db ls = ls.flatMap fun l => (userSetting db l).toList :=
  List.filterMap_eq_flatMap_toList _ _

theorem agree_of_same {t : Text} (h : ReadAlike db t) (hlines : SameLines db t) : Agree db t := by
  intro k
  have hsame : entries db (splitlines t) = entries db (lines t) := by
    rw [entries_splitlines, entries_eq_flatMap]
    exact List.flatMap_congr hlines
  rw [lookup_parseUserIni, hsame, lastValue_lines db h]

/-! ### What agreement needs -/

theorem strip_eq_of_toAsciiLowercase {t : Text}
    (h : strip (toAsciiLowercase t) = toAsciiLowercase t) : strip t = t := by
  have hlength : (strip t).length = t.length := by
    rw [strip_toAsciiLowercase] at h
    simpa [toAsciiLowercase] using congrArg List.length h
  obtain ⟨a, b, -, -, ht⟩ := exists_trim isSpace t
  have hsub : (strip t).Sublist t := by
    conv_rhs => rw [ht]
    exact (List.sublist_append_left _ b).trans (List.sublist_append_right a _)
  exact hsub.eq_of_length hlength

/-- A key that the shim reads is one that the tool can have read. -/
theorem shimKey_clean {t l key value : Text} (hagree : Agree db t) (hl : l ∈ lines t)
    (hsets : Sets l key value) : ∃ v, Clean db (toAsciiLowercase key) v := by
  have hmem : (toAsciiLowercase key, value) ∈ (lines t).filterMap setting :=
    List.mem_filterMap.mpr ⟨l, hl, setting_eq_some.mpr ⟨key, hsets, rfl⟩⟩
  have hread : (parseIni t).lookup (toAsciiLowercase key) ≠ none := by
    rw [lookup_parseIni]
    exact fun hnone => lastValue_eq_none.mp hnone _ hmem rfl
  obtain ⟨v, hv⟩ := Option.ne_none_iff_exists'.mp hread
  exact ⟨v, parseUserIni_clean db ((hagree _).trans hv)⟩

theorem readAlike_of_agree {t : Text} (hagree : Agree db t) : ReadAlike db t := by
  constructor
  · intro l hl key value hsets
    obtain ⟨v, hclean⟩ := shimKey_clean db hagree hl hsets
    refine ⟨strip_eq_of_toAsciiLowercase hclean.stripped, ?_⟩
    rw [← db.lower_toAsciiLowercase]
    exact hclean.lowered
  · intro pre l post key value hlines hsets hpost
    have hl : setting l = some (toAsciiLowercase key, value) :=
      setting_eq_some.mpr ⟨key, hsets, rfl⟩
    have hread : (parseIni t).lookup (toAsciiLowercase key) = some value := by
      rw [lookup_parseIni, lastValue_eq_some]
      refine ⟨pre.filterMap setting, post.filterMap setting, ?_, ?_⟩
      · rw [hlines, List.filterMap_append, List.filterMap_cons_some hl]
      · intro e he
        obtain ⟨l', hl', hset⟩ := List.mem_filterMap.mp he
        obtain ⟨key', hsets', hkey'⟩ := setting_eq_some.mp hset
        rw [hkey']
        exact hpost l' hl' key' e.2 hsets'
    exact (parseUserIni_clean db ((hagree _).trans hread)).value_stripped

/-! ### Where no key is set twice -/

/-- No boundary stands inside a stripped text that has none itself, so that the part behind the
last boundary is all of it, unless that part is blank. -/
theorem strip_rtakeWhile {a : Text} (hne : strip (a.rtakeWhile fun c => !isLineBreak c) ≠ [])
    (ha : ∀ c ∈ strip a, isLineBreak c = false) :
    strip (a.rtakeWhile fun c => !isLineBreak c) = strip a := by
  have hsplit := List.rdropWhile_append_rtakeWhile (p := fun c => !isLineBreak c) (l := a)
  have hlast := List.rdropWhile_last_not (fun c => !isLineBreak c) a
  generalize a.rdropWhile (fun c => !isLineBreak c) = front at hsplit hlast
  generalize a.rtakeWhile (fun c => !isLineBreak c) = piece at hsplit hne ⊢
  subst hsplit
  cases hfront : front.dropWhile isSpace with
  | nil =>
    have hblank : ∀ c ∈ front, isSpace c = true := List.dropWhile_eq_nil_iff.mp hfront
    exact (trim_blanks_left hblank piece).symm
  | cons c w =>
    exfalso
    obtain ⟨d, hd, hplain⟩ : ∃ d ∈ piece, isSpace d = false := by
      by_contra hall
      push Not at hall
      exact hne (trim_eq_nil_iff.mpr fun d hd => Bool.not_eq_false _ ▸ hall d hd)
    obtain ⟨b, b', rfl⟩ := List.append_of_mem hd
    have hempty : front ≠ [] := by
      rintro rfl
      cases hfront
    have hend : front.getLast hempty ∈ front.dropWhile isSpace := by
      refine List.mem_of_getLast? ?_
      obtain ⟨pre, hpre⟩ := List.dropWhile_suffix (p := isSpace) (l := front)
      have hdrop : front.dropWhile isSpace ≠ [] := by simp [hfront]
      rw [← List.getLast?_append_of_ne_nil pre hdrop, hpre]
      exact List.getLast?_eq_some_getLast hempty
    have hmem : front.getLast hempty ∈ strip (front ++ (b ++ d :: b')) := by
      rw [← List.append_assoc, strip, trim_append_cons hplain, List.dropWhile_append, hfront]
      rw [hfront] at hend
      exact List.mem_append_left _ (List.mem_append_left b hend)
    have hbreak := ha _ hmem
    have hnot := hlast hempty
    rw [hbreak] at hnot
    exact hnot rfl

/-- The tool's line with the first sign of a line of the shim has the key of that line, or
none. -/
theorem exists_entry {l key value : Text} (hl : '\n' ∉ l) (hsets : Sets l key value)
    (hstrip : strip key = key) (hinline : ∀ c ∈ key, isLineBreak c = false) :
    ∃ k v, (k, v) ∈ entries db (splitlines l) ∧ (k = db.lower key ∨ k = []) := by
  obtain ⟨a, r, rfl, ha, rfl, rfl, hmark⟩ := hsets
  rw [strip_trimBlanks] at hstrip
  have hpiece : a.rtakeWhile (fun c => !isLineBreak c) ++
      '=' :: r.takeWhile (fun c => !isLineBreak c) ∈ splitlines (a ++ '=' :: r) :=
    mem_splitLines (by decide) (by decide) (by decide) a r
  have hsign : '=' ∉ a.rtakeWhile fun c => !isLineBreak c :=
    fun hmem => ha ((List.rtakeWhile_suffix _ a).mem hmem)
  have hnew : '\n' ∉ r.takeWhile fun c => !isLineBreak c :=
    fun hmem => hl (by simp [(List.takeWhile_sublist _).mem hmem])
  have hread := userSetting_line db hsign hnew
  by_cases hempty : strip (a.rtakeWhile fun c => !isLineBreak c) = []
  · rw [hempty] at hread
    exact ⟨_, _, List.mem_filterMap.mpr ⟨_, hpiece, hread⟩, Or.inr rfl⟩
  · rw [strip_rtakeWhile hempty (hstrip ▸ hinline), hstrip, hmark, if_neg Bool.false_ne_true]
      at hread
    exact ⟨_, _, List.mem_filterMap.mpr ⟨_, hpiece, hread⟩, Or.inl rfl⟩

variable {t : Text}

/-- Two lines of the shim hold no lines of the tool that set the same key. -/
theorem line_unique (hone : OneSettingEach db t) {l l' k v v' : Text} (hl : l ∈ lines t)
    (hl' : l' ∈ lines t) (h : (k, v) ∈ entries db (splitlines l))
    (h' : (k, v') ∈ entries db (splitlines l')) : l = l' := by
  by_contra hne
  rw [OneSettingEach, entries_splitlines, List.map_flatMap, List.nodup_flatMap] at hone
  have hsymm : Std.Symm (Function.onFun List.Disjoint fun l =>
      (entries db (splitlines l)).map Prod.fst) := ⟨fun _ _ h => h.symm⟩
  have hdisjoint := hone.2.forall hl hl' hne
  exact hdisjoint (List.mem_map_of_mem h) (List.mem_map.mpr ⟨_, h', rfl⟩)

theorem lastValue_splitlines (hagree : Agree db t) (k : Text) :
    lastValue k (entries db (splitlines t)) = lastValue k (entries db (lines t)) := by
  rw [lastValue_lines db (readAlike_of_agree db hagree), ← hagree k, lookup_parseUserIni]

/-- What the tool finds in its lines, it finds the key of in a line of the shim. -/
theorem exists_line (hagree : Agree db t) {k v : Text} (h : (k, v) ∈ entries db (splitlines t)) :
    ∃ l ∈ lines t, ∃ v', userSetting db l = some (k, v') := by
  obtain ⟨w, hw⟩ := exists_lastValue h
  rw [lastValue_splitlines db hagree] at hw
  obtain ⟨l, hl, hread⟩ := List.mem_filterMap.mp (mem_of_lastValue hw)
  exact ⟨l, hl, w, hread⟩

theorem mem_entries_splitlines {l k v : Text} (hl : l ∈ lines t)
    (h : (k, v) ∈ entries db (splitlines l)) : (k, v) ∈ entries db (splitlines t) := by
  rw [entries_splitlines]
  exact List.mem_flatMap.mpr ⟨l, hl, h⟩

theorem exists_entry_of_agree (hagree : Agree db t) {l k v : Text} (hl : l ∈ lines t)
    (h : userSetting db l = some (k, v)) :
    ∃ k' v', (k', v') ∈ entries db (splitlines l) ∧ (k' = k ∨ k' = []) := by
  have hline := newline_not_mem_lines hl
  have hread := readAlike_of_agree db hagree
  cases hset : setting l with
  | none =>
    rw [userSetting_of_setting db hline hset] at h
    cases h
  | some e =>
    obtain ⟨key, hsets, -⟩ := setting_eq_some.mp hset
    obtain ⟨hstrip, hlower⟩ := hread.keys l hl key e.2 hsets
    obtain ⟨w, hclean⟩ := shimKey_clean db hagree hl hsets
    have hinline : ∀ c ∈ key, isLineBreak c = false := by
      intro c hc
      by_contra hbreak
      rw [Bool.not_eq_false] at hbreak
      have hmem : c ∈ toAsciiLowercase key := by
        rw [← toLower_of_isLineBreak hbreak]
        exact List.mem_map_of_mem hc
      rw [hclean.key_inline c hmem] at hbreak
      cases hbreak
    rw [hsets.userSetting_eq db hline hstrip] at h
    obtain ⟨rfl, -⟩ := Prod.mk.inj (Option.some.inj h)
    exact exists_entry db hline hsets hstrip hinline

/-- Each line of the shim that sets a key holds a line of the tool that sets it. -/
theorem exists_own_entry (hagree : Agree db t) (hone : OneSettingEach db t) {l k v : Text}
    (hl : l ∈ lines t) (h : userSetting db l = some (k, v)) :
    ∃ v', (k, v') ∈ entries db (splitlines l) := by
  obtain ⟨k', v', hmem, rfl | rfl⟩ := exists_entry_of_agree db hagree hl h
  · exact ⟨v', hmem⟩
  · -- the empty key is set by a line of the shim too, and that is this line
    obtain ⟨l', hl', w, hread⟩ := exists_line db hagree (mem_entries_splitlines db hl hmem)
    obtain ⟨k'', v'', hmem', hk''⟩ := exists_entry_of_agree db hagree hl' hread
    have hempty : k'' = [] := hk''.elim id id
    subst hempty
    obtain rfl := line_unique db hone hl hl' hmem hmem'
    rw [h] at hread
    obtain ⟨rfl, -⟩ := Prod.mk.inj (Option.some.inj hread)
    exact ⟨v', hmem⟩

/-- Each setting that the tool finds in a part of a line of the shim is the setting of that
line. -/
theorem userSetting_of_mem (hagree : Agree db t) (hone : OneSettingEach db t) {l k v : Text}
    (hl : l ∈ lines t) (h : (k, v) ∈ entries db (splitlines l)) :
    userSetting db l = some (k, v) := by
  have hmem := mem_entries_splitlines db hl h
  have hlast : lastValue k (entries db (lines t)) = some v := by
    rw [← lastValue_splitlines db hagree, lastValue_of_nodup hone hmem]
  obtain ⟨l', hl', hread⟩ := List.mem_filterMap.mp (mem_of_lastValue hlast)
  obtain ⟨v', hmem'⟩ := exists_own_entry db hagree hone hl' hread
  obtain rfl := line_unique db hone hl hl' h hmem'
  exact hread

theorem sameLines_of_agree (hagree : Agree db t) (hone : OneSettingEach db t) : SameLines db t := by
  intro l hl
  have hnodup : (entries db (splitlines l)).Nodup := by
    rw [OneSettingEach, entries_splitlines, List.map_flatMap, List.nodup_flatMap] at hone
    exact (hone.1 l hl).of_map
  cases hread : userSetting db l with
  | none =>
    rw [Option.toList_none, List.eq_nil_iff_forall_not_mem]
    intro e he
    rw [userSetting_of_mem db hagree hone hl he] at hread
    cases hread
  | some e =>
    obtain ⟨v', hmem⟩ := exists_own_entry db hagree hone hl hread
    have hall : ∀ e' ∈ entries db (splitlines l), e' = e := by
      intro e' he'
      rw [userSetting_of_mem db hagree hone hl he'] at hread
      exact Option.some.inj hread
    have hreplicate := List.eq_replicate_of_mem hall
    rw [hreplicate, List.nodup_replicate] at hnodup
    have hpos := List.length_pos_of_mem hmem
    have hlength : (entries db (splitlines l)).length = 1 := by omega
    rw [hlength] at hreplicate
    exact hreplicate

/-- Where the differences between the two change nothing, the maps are the same. Where the maps
are the same, blanks and lowercase forms change nothing, and boundaries neither unless the tool
finds a key twice, so that a later setting of it hides an earlier one. -/
theorem mirror_iff (t : Text) : (ReadAlike db t ∧ SameLines db t → Agree db t) ∧
    (Agree db t → ReadAlike db t ∧ (OneSettingEach db t → SameLines db t)) :=
  ⟨fun h => agree_of_same db h.1 h.2,
    fun h => ⟨readAlike_of_agree db h, sameLines_of_agree db h⟩⟩

/-! ### Plain text -/

/-- A tab, or a character of ASCII that is printed. -/
def Printable (c : Char) : Prop := c = '\t' ∨ 32 ≤ c.toNat ∧ c.toNat < 127

theorem Printable.ascii {c : Char} (h : Printable c) : c.toNat < 128 := by
  rcases h with rfl | h
  · decide
  · omega

theorem Printable.isLineBreak {c : Char} (h : Printable c) : isLineBreak c = false := by
  rcases h with rfl | h
  · decide
  · simp only [PythonText.isLineBreak, Bool.or_eq_false_iff, Bool.and_eq_false_iff,
      decide_eq_false_iff_not, beq_eq_false_iff_ne]
    omega

theorem Printable.isSpace {c : Char} (h : Printable c) : isSpace c = isWhitespace c := by
  rcases h with rfl | h
  · decide
  · have hcode : ¬ (0x1C ≤ c.toNat ∧ c.toNat ≤ 0x1F) := by omega
    rw [PythonText.isSpace, ← Bool.decide_and, decide_eq_false hcode, Bool.or_false]

theorem strip_trimBlanks_printable {t : Text} (h : ∀ c ∈ t, Printable c) :
    strip (trimBlanks t) = trimBlanks t := by
  rw [strip_trimBlanks]
  exact trim_congr fun c hc => (h c hc).isSpace

/-- On plain text the tool reads what the shim reads. -/
theorem agree_of_printable (h : ∀ l ∈ lines t, ∀ c ∈ l, Printable c) : Agree db t := by
  have hparts : ∀ l ∈ lines t, ∀ key value, Sets l key value →
      (strip key = key ∧ db.lower key = toAsciiLowercase key) ∧ strip value = value := by
    rintro l hl key value ⟨a, r, rfl, -, rfl, rfl, -⟩
    have hline := h _ hl
    have hkey : ∀ c ∈ a, Printable c := fun c hc => hline c (List.mem_append_left _ hc)
    have hvalue : ∀ c ∈ beforeComment r, Printable c := by
      intro c hc
      have hr : c ∈ r := (List.takeWhile_sublist _).mem hc
      exact hline c (by simp [hr])
    exact ⟨⟨strip_trimBlanks_printable hkey,
      db.lower_of_ascii fun c hc => (hkey c (mem_of_mem_trim hc)).ascii⟩,
      strip_trimBlanks_printable hvalue⟩
  refine agree_of_same db ⟨fun l hl key value hsets => (hparts l hl key value hsets).1, ?_⟩ ?_
  · intro pre l post key value hlines hsets _
    exact (hparts l (by simp [hlines]) key value hsets).2
  · intro l hl
    have hinline : Inline isLineBreak l := inline_iff.mpr fun c hc => (h l hl c hc).isLineBreak
    rw [splitlines, splitLines_last hinline]
    split
    · rename_i hempty
      rw [hempty, userSetting_eq_none db List.not_mem_nil]
      rfl
    · rw [entries_eq_flatMap, List.flatMap_singleton]

end Mirror

/-- A form feed in a comment ends the line for the tool, but not for the shim. -/
theorem mirror_differs :
    (parseUserIni smallDatabase "; see page\x0chost = a".toList).lookup "host".toList ≠
      (parseIni "; see page\x0chost = a".toList).lookup "host".toList := by
  decide

end Kvasilloni.IniMirror
