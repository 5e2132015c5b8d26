import Kvasilloni.IniMerge

/-!
What the migrated INI means. The settings of the user that are still to be written and the
settings in the lines written so far and to come have one meaning together, and each line
of the template leaves that meaning as it is. At the end the settings that are left are
appended, where they are the last ones.
-/
namespace Kvasilloni.IniMigration

open IpLiterals Kvasilloni.Configuration PythonText IniMerge TextLines Trimming LastValue Regex

section Migration

variable (db : CharDatabase)

/-! ### Lines -/

theorem space_not_sign {t : Text} (h : ∀ c ∈ t, isSpace c = true) : '=' ∉ t :=
  fun hmem => absurd (h _ hmem) (by decide)

theorem sign_inline : ∀ c ∈ " = ".toList, isLineBreak c = false :=
  List.all_iff_forall_prop.mp rfl

theorem isWord_plain {c : Char} (h : db.isWord c = true) : isSpace c = false ∧ c ≠ '=' := by
  have hsign : db.alnum '=' = false := db.alnum_ascii '=' (by decide)
  refine ⟨?_, ?_⟩
  · by_contra hspace
    rw [Bool.not_eq_false] at hspace
    rw [CharDatabase.isWord, db.alnum_space c hspace, Bool.false_or, beq_iff_eq] at h
    rw [h] at hspace
    exact absurd hspace (by decide)
  · rintro rfl
    rw [CharDatabase.isWord, hsign] at h
    exact absurd h (by decide)

theorem isWord_of_keyStart {c : Char} (h : isKeyStart c = true) : db.isWord c = true := by
  rcases Bool.or_eq_true_iff.mp h with h | h
  · exact db.isWord_letter (Or.inl h)
  · rw [CharDatabase.isWord, h, Bool.or_true]

theorem word_plain {key : Text} (h : IsWord db key) :
    strip key = key ∧ marked key = false ∧ '=' ∉ key := by
  obtain ⟨c, w, rfl, hc, hw⟩ := h
  have hword : ∀ d ∈ c :: w, isSpace d = false ∧ d ≠ '=' := by
    intro d hd
    rcases List.mem_cons.mp hd with rfl | hd
    · exact isWord_plain db (isWord_of_keyStart db hc)
    · exact isWord_plain db (hw d hd)
  refine ⟨trim_of_trimmed ⟨?_, ?_⟩, ?_, fun hmem => (hword _ hmem).2 rfl⟩
  · intro d hd
    exact (hword d (List.mem_of_mem_head? hd)).1
  · intro d hd
    exact (hword d (List.mem_of_getLast? hd)).1
  · cases hmark : marked (c :: w) with
    | false => rfl
    | true =>
      simp only [marked, Bool.or_eq_true, beq_iff_eq] at hmark
      rcases hmark with (rfl | rfl) | rfl <;> exact absurd hc (by decide)

/-- What a line reads back, from its key and the text behind its sign. -/
theorem userSetting_word {indent key wsKey r : Text} (hindent : ∀ c ∈ indent, isSpace c = true)
    (hkey : strip key = key ∧ marked key = false ∧ '=' ∉ key)
    (hwsKey : ∀ c ∈ wsKey, isSpace c = true) (hr : '\n' ∉ r) :
    userSetting db (indent ++ (key ++ (wsKey ++ '=' :: r))) =
      some (db.lower key, strip (beforeComment r)) := by
  obtain ⟨hstrip, hmark, hsign⟩ := hkey
  have ha : '=' ∉ indent ++ (key ++ wsKey) := by
    simp only [List.mem_append, not_or]
    exact ⟨space_not_sign hindent, hsign, space_not_sign hwsKey⟩
  have hfront : strip (indent ++ (key ++ wsKey)) = key := by
    rw [strip, trim_blanks hindent hwsKey]
    exact hstrip
  rw [← List.append_assoc key, ← List.append_assoc indent, userSetting_line db ha hr, hfront,
    hmark, if_neg Bool.false_ne_true]

/-- A key line is a comment for the reader, or sets its key. -/
theorem userSetting_keyLine {raw indent marker key wsKey wsValue rest : Text}
    (hraw : '\n' ∉ raw) (h : KeyLine db raw indent marker key wsKey wsValue rest) :
    userSetting db raw = none ∨ ∃ value, userSetting db raw = some (db.lower key, value) := by
  have hr : '\n' ∉ wsValue ++ rest := by
    intro hmem
    refine hraw ?_
    rw [h.line]
    simp [List.mem_append.mp hmem]
  have hword := word_plain db h.isWord
  rcases h.isMarker with hmarker | ⟨c, sp, hmarker, hc, hsp⟩
  · right
    rw [h.line, hmarker]
    exact ⟨_, userSetting_word db h.indent_space hword h.wsKey_space hr⟩
  · left
    have hplain : c ≠ '=' := by
      rintro rfl
      exact absurd hc (by decide)
    have ha : '=' ∉ indent ++ (c :: (sp ++ (key ++ wsKey))) := by
      simp only [List.mem_append, List.mem_cons, not_or]
      exact ⟨space_not_sign h.indent_space, hplain.symm, space_not_sign hsp, hword.2.2,
        space_not_sign h.wsKey_space⟩
    have hcomment : marked (strip (indent ++ (c :: (sp ++ (key ++ wsKey))))) = true := by
      have hblank : isSpace c = false := by
        by_contra hspace
        rw [isCommentMark_of_isSpace (Bool.not_eq_false _ ▸ hspace)] at hc
        cases hc
      rw [strip, trim_append_cons hblank, List.dropWhile_eq_nil_iff.mpr h.indent_space]
      exact Bool.or_eq_true_iff.mpr (Or.inl hc)
    have hline : raw = (indent ++ (c :: (sp ++ (key ++ wsKey)))) ++ '=' :: (wsValue ++ rest) := by
      rw [h.line, hmarker]
      simp
    rw [hline, userSetting_line db ha hr, if_pos hcomment]

/-- The key line of a known key that the reader finds is one that the writer finds. -/
theorem templateKey_of_userSetting {raw key value : Text}
    (hraw : ∀ c ∈ raw, isLineBreak c = false) (h : userSetting db raw = some (key, value))
    (hknown : key ∈ knownKeys) : templateKey db raw = some key := by
  have hnew := newline_not_mem hraw
  have hletters : ∀ k ∈ knownKeys,
      k.all Char.isLower = true ∧ k ≠ [] ∧ k.head? ≠ some 'k' := by decide
  obtain ⟨a, r, rfl, -, -, hkey, -⟩ := userSetting_some db hnew h
  obtain ⟨indent, wsKey, hindent, hwsKey, ha⟩ := exists_trim isSpace a
  obtain ⟨hlow, hstart⟩ := hletters key hknown
  obtain ⟨c, w, hword, hc, hw⟩ :=
    db.word_of_lower hkey.symm (List.all_eq_true.mp hlow) hstart
  have hisWord : IsWord db (trim isSpace a) :=
    ⟨c, w, hword, Bool.or_eq_true_iff.mpr (Or.inl hc), hw⟩
  have hline : a ++ '=' :: r = indent ++ (trim isSpace a ++ (wsKey ++ '=' :: r)) := by
    conv_lhs => rw [ha]
    simp
  obtain ⟨m, hm⟩ := matchAt_keyLine db hindent hisWord hwsKey fun hmem =>
    hnew (List.mem_append_right a (List.mem_cons_of_mem _ hmem))
  rw [← hline] at hm
  obtain ⟨marker, wsKey', wsValue, hkeyLine⟩ := keyLine_of_matchAt db hnew hm
  rcases userSetting_keyLine db hnew hkeyLine with hnone | ⟨value', hsome⟩
  · rw [hnone] at h
    cases h
  · rw [hsome] at h
    obtain ⟨hgroup, -⟩ := Prod.mk.inj (Option.some.inj h)
    rw [templateKey, hm, Option.bind_some, hgroup, if_pos hknown]

/-! ### The line that is written -/

/-- The comment that a template has behind a value, if there is one. -/
def IsInlineComment (inline : Text) : Prop :=
  inline = [] ∨ ∃ sp mark t, inline = sp ++ mark :: t ∧ (∀ c ∈ sp, isSpace c = true) ∧
    isCommentMark mark = true

theorem value_read {key value inline : Text} (hclean : Clean db key value)
    (hinline : IsInlineComment inline) :
    strip (beforeComment (' ' :: (value ++ inline))) = value := by
  have hspace : ∀ c ∈ [' '], isSpace c = true := List.all_eq_true.mp rfl
  have hvalue : ∀ c ∈ ' ' :: value, isCommentMark c = false :=
    List.forall_mem_cons.mpr ⟨by decide, fun c hc => (hclean.value_chars c hc).1⟩
  rcases hinline with rfl | ⟨sp, mark, t, rfl, hsp, hmark⟩
  · have hself : beforeComment (' ' :: value) = [' '] ++ value :=
      List.takeWhile_eq_self_iff.mpr fun c hc => by simp [hvalue c hc]
    rw [List.append_nil, hself, strip, trim_blanks_left hspace]
    exact hclean.value_stripped
  · have hfront : ∀ c ∈ [' '] ++ (value ++ sp), isCommentMark c = false := by
      intro c hc
      rw [← List.append_assoc] at hc
      rcases List.mem_append.mp hc with hc | hc
      · exact hvalue c hc
      · exact isCommentMark_of_isSpace (hsp c hc)
    have hline : ' ' :: (value ++ (sp ++ mark :: t)) = ([' '] ++ (value ++ sp)) ++ mark :: t := by
      simp
    rw [hline, beforeComment_mark hfront hmark, strip, trim_blanks hspace hsp]
    exact hclean.value_stripped

theorem filledLine_eq (indent key value rest : Text) : ∃ inline,
    filledLine indent key value rest = indent ++ (key ++ (" = ".toList ++ (value ++ inline))) ∧
      IsInlineComment inline ∧ ∀ c ∈ inline, c ∈ rest := by
  unfold filledLine
  split
  · rename_i before m hsearch
    obtain ⟨hrest, hfits⟩ := search_some hsearch
    obtain ⟨sp, mark, t, htaken, hsp, hmark, -⟩ := fits_inlineComment hfits
    refine ⟨m.taken, rfl, Or.inr ⟨sp, mark, t, htaken, hsp, hmark⟩, fun c hc => ?_⟩
    rw [hrest]
    exact List.mem_append_right _ (List.mem_append_left _ hc)
  · exact ⟨[], rfl, Or.inl rfl, by simp⟩

/-- The line that is written sets the key to the user's value, and nothing but that. -/
theorem userSetting_written {indent key value inline : Text}
    (hindent : ∀ c ∈ indent, isSpace c = true) (hkey : IsWord db key)
    (hclean : Clean db (db.lower key) value) (hinline : IsInlineComment inline)
    (hnew : '\n' ∉ inline) :
    userSetting db (indent ++ (key ++ (" = ".toList ++ (value ++ inline)))) =
      some (db.lower key, value) := by
  have hr : '\n' ∉ ' ' :: (value ++ inline) := by
    have hvalue := newline_not_mem fun c hc => (hclean.value_chars c hc).2
    simp [hvalue, hnew]
  have hspace : ∀ c ∈ [' '], isSpace c = true := List.all_eq_true.mp rfl
  have hread := userSetting_word db hindent (word_plain db hkey) hspace hr
  rw [value_read db hclean hinline] at hread
  exact hread

theorem userSetting_clean {key value : Text} (h : Clean db key value) :
    userSetting db (key ++ (" = ".toList ++ value)) = some (key, value) := by
  have hr : '\n' ∉ ' ' :: value := by
    have hvalue := newline_not_mem fun c hc => (h.value_chars c hc).2
    simp [hvalue]
  have hindent : ∀ c ∈ ([] : Text), isSpace c = true := by simp
  have hspace : ∀ c ∈ [' '], isSpace c = true := List.all_eq_true.mp rfl
  have hread := userSetting_word db hindent ⟨h.stripped, h.unmarked, h.no_sign⟩ hspace hr
  have hvalue := value_read db h (Or.inl rfl)
  rw [List.append_nil] at hvalue
  rw [hvalue, h.lowered] at hread
  exact hread

/-! ### The settings still owed -/

/-- The value that a key will have: the user's, while it is still to be written, and else what
the lines written so far and the lines to come say. -/
def owed (key : Text) (s : Merging) (post : List Text) : Option Text :=
  (s.user.lookup key).or (lastValue key (entries db (s.outLines ++ post)))

/-- What holds between two lines of the template. -/
structure Sound (s : Merging) : Prop where
  clean : ∀ k v, s.user.lookup k = some v → Clean db k v
  inline : ∀ l ∈ s.outLines, ∀ c ∈ l, isLineBreak c = false

/-- A line is kept, or its key line is filled in with a value of the user. -/
theorem mergeLine_cases (s : Merging) {raw : Text} (hraw : '\n' ∉ raw) :
    mergeLine db s raw = { s with outLines := s.outLines ++ [raw] } ∨
    ∃ indent key value inline, (∀ c ∈ indent, isSpace c = true) ∧ IsWord db key ∧
      IsInlineComment inline ∧ (∀ c ∈ indent ++ (key ++ inline), c ∈ raw) ∧
      templateKey db raw = some (db.lower key) ∧
      (userSetting db raw = none ∨ ∃ v, userSetting db raw = some (db.lower key, v)) ∧
      s.user.lookup (db.lower key) = some value ∧
      mergeLine db s raw = {
        outLines := s.outLines ++ [indent ++ (key ++ (" = ".toList ++ (value ++ inline)))]
        applied := s.applied ++ [db.lower key]
        user := s.user.erase (db.lower key) } := by
  cases hmatch : matchAt (keyLine db) raw with
  | none =>
    left
    rw [mergeLine, hmatch]
  | some m =>
    by_cases hknown : db.lower (m.group 3) ∈ knownKeys
    · cases hlookup : s.user.lookup (db.lower (m.group 3)) with
      | none =>
        left
        simp only [mergeLine, hmatch, hknown, not_true, if_false, hlookup]
      | some value =>
        right
        obtain ⟨marker, wsKey, wsValue, h⟩ := keyLine_of_matchAt db hraw hmatch
        obtain ⟨inline, hfilled, hinline, hsub⟩ :=
          filledLine_eq (m.group 1) (m.group 3) value (m.group 6)
        refine ⟨m.group 1, m.group 3, value, inline, h.indent_space, h.isWord, hinline, ?_, ?_,
          userSetting_keyLine db hraw h, hlookup, ?_⟩
        · intro c hc
          rw [h.line]
          simp only [List.mem_append, List.mem_cons] at hc ⊢
          rcases hc with hc | hc | hc
          · exact Or.inl hc
          · exact Or.inr (Or.inr (Or.inl hc))
          · simp [hsub c hc]
        · rw [templateKey, hmatch, Option.bind_some, if_pos hknown]
        · simp only [mergeLine, hmatch, hknown, not_true, if_false, hlookup, hfilled]
    · left
      simp only [mergeLine, hmatch, hknown, not_false_eq_true, if_true]

theorem mergeLine_sound {s : Merging} {raw : Text} (hraw : ∀ c ∈ raw, isLineBreak c = false)
    (hs : Sound db s) : Sound db (mergeLine db s raw) := by
  rcases mergeLine_cases db s (newline_not_mem hraw) with hkeep |
    ⟨indent, key, value, inline, -, -, -, hsub, -, -, hlookup, hfill⟩
  · rw [hkeep]
    refine ⟨hs.clean, fun l hl => ?_⟩
    rcases List.mem_append.mp hl with hl | hl
    · exact hs.inline l hl
    · obtain rfl := List.mem_singleton.mp hl
      exact hraw
  · rw [hfill]
    constructor
    · intro k v hv
      refine hs.clean k v ?_
      by_cases hk : k = db.lower key
      · subst hk
        rw [AList.lookup_erase] at hv
        cases hv
      · rwa [AList.lookup_erase_ne hk] at hv
    · intro l hl
      rcases List.mem_append.mp hl with hl | hl
      · exact hs.inline l hl
      · obtain rfl := List.mem_singleton.mp hl
        have hvalue := hs.clean _ _ hlookup
        intro c hc
        simp only [List.mem_append] at hc hsub
        rcases hc with hc | hc | hc | hc | hc
        · exact hraw c (hsub c (Or.inl hc))
        · exact hraw c (hsub c (Or.inr (Or.inl hc)))
        · exact sign_inline c hc
        · exact (hvalue.value_chars c hc).2
        · exact hraw c (hsub c (Or.inr (Or.inr hc)))

theorem entries_append (as bs : List Text) :
    entries db (as ++ bs) = entries db as ++ entries db bs :=
  List.filterMap_append

/-- Behind the key line of a key no line sets that key. -/
theorem lastValue_behind {key : Text} {post : List Text}
    (hpost : ∀ l ∈ post, ∀ c ∈ l, isLineBreak c = false) (hknown : key ∈ knownKeys)
    (hone : key ∉ post.filterMap (templateKey db)) : lastValue key (entries db post) = none := by
  rw [lastValue_eq_none]
  rintro ⟨k, v⟩ he rfl
  obtain ⟨l, hl, hread⟩ := List.mem_filterMap.mp he
  have htemplate := templateKey_of_userSetting db (hpost l hl) hread hknown
  exact hone (List.mem_filterMap.mpr ⟨l, hl, htemplate⟩)

theorem templateKey_known {raw key : Text} (h : templateKey db raw = some key) :
    key ∈ knownKeys := by
  obtain ⟨m, -, hm⟩ := Option.bind_eq_some_iff.mp h
  split at hm
  · rename_i hknown
    rwa [← Option.some.inj hm]
  · cases hm

theorem mergeLine_owed {s : Merging} {raw : Text} {post : List Text}
    (hraw : ∀ c ∈ raw, isLineBreak c = false)
    (hpost : ∀ l ∈ post, ∀ c ∈ l, isLineBreak c = false)
    (hone : ((raw :: post).filterMap (templateKey db)).Nodup) (hs : Sound db s) (k : Text) :
    owed db k (mergeLine db s raw) post = owed db k s (raw :: post) := by
  rcases mergeLine_cases db s (newline_not_mem hraw) with hkeep |
    ⟨indent, key, value, inline, hindent, hword, hinline, hsub, htemplate, hread, hlookup, hfill⟩
  · rw [hkeep, owed, owed, List.append_assoc]
    rfl
  · have hclean := hs.clean _ _ hlookup
    have hnew : '\n' ∉ inline :=
      newline_not_mem fun c hc => hraw c (hsub c (by simp [hc]))
    have hwritten := userSetting_written db hindent hword hclean hinline hnew
    have hafter : entries db (s.outLines ++
        [indent ++ (key ++ (" = ".toList ++ (value ++ inline)))] ++ post) =
          entries db s.outLines ++ (db.lower key, value) :: entries db post := by
      rw [List.append_assoc, entries_append, List.singleton_append]
      exact congrArg _ (List.filterMap_cons_some hwritten)
    rw [hfill, owed, owed, hafter, entries_append]
    by_cases hk : k = db.lower key
    · subst hk
      -- it is the last setting of its key
      have hbehind : lastValue (db.lower key) (entries db post) = none := by
        rw [List.filterMap_cons_some htemplate, List.nodup_cons] at hone
        exact lastValue_behind db hpost (templateKey_known db htemplate) hone.1
      rw [AList.lookup_erase, hlookup, lastValue_append, lastValue, hbehind, if_pos rfl]
      rfl
    · have hother : ∀ v, lastValue k ((db.lower key, v) :: entries db post) =
          lastValue k (entries db post) := by
        intro v
        rw [lastValue, if_neg (Ne.symm hk), Option.or_none]
      have hraw' : lastValue k (entries db (raw :: post)) = lastValue k (entries db post) := by
        rcases hread with hnone | ⟨v, hsome⟩
        · exact congrArg _ (List.filterMap_cons_none hnone)
        · exact (congrArg _ (List.filterMap_cons_some hsome)).trans (hother v)
      rw [AList.lookup_erase_ne hk, lastValue_append, lastValue_append, hother, hraw']

/-- What the template and the user's settings mean together, the merged lines and the settings
that are left mean in the end. -/
theorem merge_owed {ls : List Text} {s : Merging}
    (hls : ∀ l ∈ ls, ∀ c ∈ l, isLineBreak c = false)
    (hone : (ls.filterMap (templateKey db)).Nodup) (hs : Sound db s) :
    Sound db (ls.foldl (mergeLine db) s) ∧
      ∀ k, owed db k (ls.foldl (mergeLine db) s) [] = owed db k s ls := by
  induction ls generalizing s with
  | nil => exact ⟨hs, fun _ => rfl⟩
  | cons raw post ih =>
    obtain ⟨hraw, hpost⟩ := List.forall_mem_cons.mp hls
    have hrest : (post.filterMap (templateKey db)).Nodup :=
      ((List.sublist_cons_self raw post).filterMap (templateKey db)).nodup hone
    obtain ⟨hsound, howed⟩ := ih hpost hrest (mergeLine_sound db hraw hs)
    refine ⟨hsound, fun k => ?_⟩
    rw [List.foldl_cons, howed k, mergeLine_owed db hraw hpost hone hs]

/-! ### The text that is written -/

/-- The line of a setting that is left, under a remark if its key is not known. -/
theorem entries_leftover {key value : Text} (h : Clean db key value) :
    entries db ((if key ∈ knownKeys then []
      else ["; (not a recognised kvasilloni key)".toList]) ++
        [key ++ (" = ".toList ++ value)]) = [(key, value)] := by
  have hremark : entries db (if key ∈ knownKeys then []
      else ["; (not a recognised kvasilloni key)".toList]) = [] := by
    split
    · rfl
    · exact List.filterMap_cons_none (userSetting_eq_none db (by decide))
  rw [entries_append, hremark]
  exact List.filterMap_cons_some (userSetting_clean db h)

theorem entries_extraLines {user : Map Text Text}
    (h : ∀ k v, user.lookup k = some v → Clean db k v) (k : Text) :
    lastValue k (entries db (extraLines user)) = user.lookup k := by
  have hlines : ∀ ks : List Text, (∀ k ∈ ks, k ∈ user.keys) →
      entries db (ks.flatMap fun key =>
        (if key ∈ knownKeys then [] else ["; (not a recognised kvasilloni key)".toList]) ++
          [key ++ (" = ".toList ++ (user.lookup key).getD [])]) =
        ks.map fun key => (key, (user.lookup key).getD []) := by
    intro ks hks
    induction ks with
    | nil => rfl
    | cons key ks ih =>
      obtain ⟨hkey, hks⟩ := List.forall_mem_cons.mp hks
      obtain ⟨v, hv⟩ := Option.isSome_iff_exists.mp
        (AList.lookup_isSome.mpr (AList.mem_keys.mp hkey))
      have hclean : Clean db key ((user.lookup key).getD []) := by
        rw [hv]
        exact h key v hv
      rw [List.flatMap_cons, entries_append, entries_leftover db hclean, ih hks]
      rfl
  have hhead : ∀ ls, entries db ([] ::
      "; --- settings from your ini with no matching template key ---".toList :: ls) =
        entries db ls := by
    intro ls
    rw [entries, List.filterMap_cons_none (userSetting_eq_none db (by decide)),
      List.filterMap_cons_none (userSetting_eq_none db (by decide))]
    rfl
  have hmem : k ∈ user.keys.insertionSort (· ≤ ·) ↔ (user.lookup k).isSome = true := by
    rw [List.mem_insertionSort, AList.lookup_isSome]
    rfl
  rw [extraLines, hhead, hlines _ fun k hk => (List.mem_insertionSort _).mp hk, lastValue_map_self]
  cases hlookup : user.lookup k with
  | none => rw [if_neg (by simp [hmem, hlookup])]
  | some v =>
    rw [if_pos (by simp [hmem, hlookup])]
    rfl

theorem extraLines_inline {user : Map Text Text}
    (h : ∀ k v, user.lookup k = some v → Clean db k v) :
    ∀ l ∈ extraLines user, ∀ c ∈ l, isLineBreak c = false := by
  intro l hl
  simp only [extraLines, List.mem_cons, List.mem_flatMap, List.mem_append,
    List.not_mem_nil, or_false] at hl
  rcases hl with rfl | rfl | ⟨key, hkey, hl | rfl⟩
  · simp
  · exact List.all_iff_forall_prop.mp rfl
  · split at hl
    · cases hl
    · obtain rfl := List.mem_singleton.mp hl
      exact List.all_iff_forall_prop.mp rfl
  · obtain ⟨v, hv⟩ := Option.isSome_iff_exists.mp
      (AList.lookup_isSome.mpr (AList.mem_keys.mp ((List.mem_insertionSort _).mp hkey)))
    have hclean := h key v hv
    intro c hc
    rw [hv, Option.getD_some] at hc
    simp only [List.mem_append] at hc
    rcases hc with hc | hc | hc
    · exact hclean.key_inline c hc
    · exact sign_inline c hc
    · exact (hclean.value_chars c hc).2

/-- The merged lines are read first, and the settings that are left behind them. -/
theorem lookup_output {template userText : Text}
    (hs : Sound db (merge db template (parseUserIni db userText))) (key : Text) :
    (parseUserIni db (output db template userText)).lookup key =
      owed db key (merge db template (parseUserIni db userText)) [] := by
  have hnil : userSetting db [] = none := userSetting_eq_none db (by simp)
  have hlf : isLineBreak '\n' = true := by decide
  have hcr : isLineBreak '\r' = true := by decide
  have hread : ∀ {ls : List Text}, (∀ l ∈ ls, ∀ c ∈ l, isLineBreak c = false) →
      (splitLines isLineBreak (joinLines ls ++ ['\n'])).filterMap (userSetting db) =
        entries db ls :=
    fun hls => filterMap_splitLines_intercalate hlf hcr hnil fun l hl => inline_iff.mpr (hls l hl)
  rw [lookup_parseUserIni, owed, List.append_nil, entries, splitlines, output]
  rw [filterMap_splitLines_rdropWhile hlf hnil]
  split
  · rename_i hempty
    have hnone : ∀ m : Map Text Text, m.keys = [] → m.lookup key = none := by
      intro m hm
      rw [AList.lookup_eq_none, AList.mem_keys, hm]
      exact List.not_mem_nil
    rw [hread hs.inline, hnone _ (List.isEmpty_iff.mp hempty), Option.none_or]
  · rw [List.append_assoc, List.cons_append, splitLines_append_lf hlf, List.filterMap_append,
      hread hs.inline, hread (extraLines_inline db hs.clean), lastValue_append,
      entries_extraLines db hs.clean]

/-- Reading the migrated text gives each key that the user set the user's last value, and each
other key what the template gives it. -/
theorem migration_preserves {template : Text} (hone : OneKeyLineEach db template)
    (userText key : Text) :
    (parseUserIni db (output db template userText)).lookup key =
      (lastValue key (entries db (splitlines userText))).or
        ((parseUserIni db template).lookup key) := by
  have hstart : Sound db ⟨[], [], parseUserIni db userText⟩ :=
    ⟨fun _ _ => parseUserIni_clean db, fun _ hl => absurd hl List.not_mem_nil⟩
  obtain ⟨hsound, howed⟩ := merge_owed db (fun l => splitlines_inline) hone hstart
  calc (parseUserIni db (output db template userText)).lookup key
      = owed db key (merge db template (parseUserIni db userText)) [] :=
        lookup_output db hsound key
    _ = owed db key ⟨[], [], parseUserIni db userText⟩ (splitlines template) := howed key
    _ = _ := by rw [owed, List.nil_append, lookup_parseUserIni, lookup_parseUserIni]

end Migration

theorem migration_preserves_host :
    (parseUserIni smallDatabase (output smallDatabase "; host = a ; peer\nport = 1".toList
      "Host = b\nfoo = c ; d\nHOST = e".toList)).lookup "host".toList = some "e".toList := by
  have hone : OneKeyLineEach smallDatabase "; host = a ; peer\nport = 1".toList := by
    unfold OneKeyLineEach
    decide
  rw [migration_preserves smallDatabase hone]
  decide

end Kvasilloni.IniMigration
