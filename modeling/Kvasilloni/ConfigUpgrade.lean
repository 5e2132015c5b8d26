import Kvasilloni.ConfigLoading
import Kvasilloni.IniSettling
import Kvasilloni.IniMirror

/-!
What an upgrade does to the configuration. The tool migrates the user's INI into the template
of the new release, and the library then loads what the tool has written. On plain text each
setting of the user's INI loads as it did before the upgrade, and each other setting loads as
it would from the template alone.
-/
namespace Kvasilloni.ConfigUpgrade

open IpLiterals Kvasilloni.Configuration PythonText IniMerge IniMigration IniSettling IniMirror
  ConfigLoading TextLines Trimming LastValue EnvOverlay

/-! ### Plain text -/

/-- Every character is printed or ends a line. -/
def Plain (t : Text) : Prop := ∀ c ∈ t, c = '\n' ∨ Printable c

def isPlain (c : Char) : Bool := c == '\n' || c == '\t' || (32 ≤ c.toNat && c.toNat < 127)

theorem plain_of_all {t : Text} (h : t.all isPlain = true) : Plain t := by
  intro c hc
  have hplain := List.all_eq_true.mp h c hc
  simp only [isPlain, Bool.or_eq_true, Bool.and_eq_true, beq_iff_eq, decide_eq_true_eq] at hplain
  rcases hplain with (hnewline | htab) | hprint
  · exact Or.inl hnewline
  · exact Or.inr (Or.inl htab)
  · exact Or.inr (Or.inr hprint)

theorem Plain.append {t u : Text} (ht : Plain t) (hu : Plain u) : Plain (t ++ u) := by
  intro c hc
  rcases List.mem_append.mp hc with hc | hc
  · exact ht c hc
  · exact hu c hc

theorem Plain.subset {t u : Text} (ht : Plain t) (hsub : ∀ c ∈ u, c ∈ t) : Plain u :=
  fun c hc => ht c (hsub c hc)

theorem Plain.joinLines {ls : List Text} (h : ∀ l ∈ ls, Plain l) : Plain (joinLines ls) := by
  induction ls with
  | nil => exact fun c hc => absurd hc List.not_mem_nil
  | cons l ls ih =>
    obtain ⟨hl, hls⟩ := List.forall_mem_cons.mp h
    cases ls with
    | nil =>
      rw [IniMerge.joinLines, List.intercalate_singleton]
      exact hl
    | cons m ls =>
      rw [IniMerge.joinLines, List.intercalate_cons_cons]
      exact (hl.append (plain_of_all rfl)).append (ih hls)

theorem toLower_printable {c : Char} (h : Printable c) : Printable c.toLower := by
  have hkept : c = '\t' ∨ 32 ≤ c.toNat ∧ c.toNat < 127 →
      c.toLower = '\t' ∨ 32 ≤ c.toLower.toNat ∧ c.toLower.toNat < 127 :=
    forall_ascii (P := fun c => c = '\t' ∨ 32 ≤ c.toNat ∧ c.toNat < 127 →
      c.toLower = '\t' ∨ 32 ≤ c.toLower.toNat ∧ c.toLower.toNat < 127) (by decide) h.ascii
  exact hkept h

/-- The lines of a text are made of its characters. -/
theorem mem_of_mem_line {brk : Char → Bool} {t l : Text} (hl : l ∈ splitLines brk t) :
    ∀ c ∈ l, c ∈ t := by
  induction t using splitLines.induct brk generalizing l with
  | case1 => cases hl
  | case2 t ih =>
    rw [splitLines_crlf] at hl
    rcases List.mem_cons.mp hl with rfl | hl
    · exact fun c hc => absurd hc List.not_mem_nil
    · exact fun c hc => List.mem_cons_of_mem _ (List.mem_cons_of_mem _ (ih hl c hc))
  | case3 c t hcrlf hc ih =>
    rw [splitLines, if_pos hc] at hl
    · rcases List.mem_cons.mp hl with rfl | hl
      · exact fun c hc => absurd hc List.not_mem_nil
      · exact fun c hc => List.mem_cons_of_mem _ (ih hl c hc)
    · exact hcrlf
  | case4 c t hcrlf hc hrest ih =>
    rw [splitLines, if_neg hc, hrest] at hl
    · obtain rfl := List.mem_singleton.mp hl
      exact fun d hd => List.mem_singleton.mp hd ▸ List.mem_cons_self ..
    · exact hcrlf
  | case5 c t hcrlf hc l' ls hrest ih =>
    rw [splitLines, if_neg hc, hrest] at hl
    · rw [hrest] at ih
      rcases List.mem_cons.mp hl with rfl | hl
      · intro d hd
        rcases List.mem_cons.mp hd with rfl | hd
        · exact List.mem_cons_self ..
        · exact List.mem_cons_of_mem _ (ih (List.mem_cons_self ..) d hd)
      · exact fun d hd => List.mem_cons_of_mem _ (ih (List.mem_cons_of_mem _ hl) d hd)
    · exact hcrlf

theorem Plain.line {brk : Char → Bool} {t l : Text} (h : Plain t) (hl : l ∈ splitLines brk t) :
    Plain l := h.subset (mem_of_mem_line hl)

section Upgrade

variable (db : CharDatabase)

theorem agree_of_plain {t : Text} (h : Plain t) : Agree db t := by
  refine agree_of_printable db fun l hl c hc => ?_
  rcases h.line hl c hc with rfl | hprint
  · exact absurd hc (newline_not_mem_lines hl)
  · exact hprint

/-! ### The migrated text is plain -/

theorem plain_setting {t k v : Text} (h : Plain t) (hv : (parseUserIni db t).lookup k = some v) :
    Plain k ∧ Plain v := by
  rw [lookup_parseUserIni] at hv
  obtain ⟨l, hl, hread⟩ := List.mem_filterMap.mp (mem_of_lastValue hv)
  have hline : ∀ c ∈ l, Printable c := by
    intro c hc
    rcases h.line hl c hc with rfl | hprint
    · exact absurd hc (newline_not_mem (splitlines_inline hl))
    · exact hprint
  obtain ⟨a, r, rfl, -, -, rfl, rfl⟩ :=
    userSetting_some db (newline_not_mem (splitlines_inline hl)) hread
  have hkey : ∀ c ∈ strip a, Printable c :=
    fun c hc => hline c (List.mem_append_left _ (mem_of_mem_trim hc))
  constructor
  · rw [db.lower_of_ascii fun c hc => (hkey c hc).ascii]
    intro c hc
    obtain ⟨d, hd, rfl⟩ := List.mem_map.mp hc
    exact Or.inr (toLower_printable (hkey d hd))
  · intro c hc
    have hr : c ∈ r := (List.takeWhile_sublist _).mem (mem_of_mem_trim hc)
    exact Or.inr (hline c (by simp [hr]))

/-- What holds between two lines of a plain template. -/
structure PlainMerging (s : Merging) : Prop where
  user : ∀ k v, s.user.lookup k = some v → Plain k ∧ Plain v
  out : ∀ l ∈ s.outLines, Plain l

theorem mergeLine_plain {s : Merging} {raw : Text} (hline : '\n' ∉ raw) (hraw : Plain raw)
    (hs : PlainMerging s) : PlainMerging (mergeLine db s raw) := by
  have hmore : ∀ l, Plain l → ∀ k ∈ s.outLines ++ [l], Plain k := by
    intro l hl k hk
    rcases List.mem_append.mp hk with hk | hk
    · exact hs.out k hk
    · obtain rfl := List.mem_singleton.mp hk
      exact hl
  rcases mergeLine_cases db s hline with hkeep |
    ⟨indent, key, value, inline, -, -, -, hsub, -, -, hlookup, hfill⟩
  · rw [hkeep]
    exact ⟨hs.user, hmore raw hraw⟩
  · rw [hfill]
    constructor
    · intro k v hv
      refine hs.user k v ?_
      by_cases hk : k = db.lower key
      · subst hk
        rw [AList.lookup_erase] at hv
        cases hv
      · rwa [AList.lookup_erase_ne hk] at hv
    · have hrest := hraw.subset hsub
      have hindent : Plain indent := hrest.subset fun c hc => List.mem_append_left _ hc
      have hkey : Plain key := hrest.subset fun c hc => by simp [hc]
      have hinline : Plain inline := hrest.subset fun c hc => by simp [hc]
      have hvalue := (hs.user _ _ hlookup).2
      have hsign : Plain " = ".toList := plain_of_all rfl
      exact hmore _ (hindent.append (hkey.append (hsign.append (hvalue.append hinline))))

theorem merge_plain {ls : List Text} {s : Merging} (hs : PlainMerging s)
    (hlines : ∀ l ∈ ls, '\n' ∉ l) (hls : ∀ l ∈ ls, Plain l) :
    PlainMerging (ls.foldl (mergeLine db) s) := by
  induction ls generalizing s with
  | nil => exact hs
  | cons raw ls ih =>
    obtain ⟨hline, hlines⟩ := List.forall_mem_cons.mp hlines
    obtain ⟨hraw, hls⟩ := List.forall_mem_cons.mp hls
    exact ih (mergeLine_plain db hline hraw hs) hlines hls

theorem extraLines_plain {user : Map Text Text}
    (h : ∀ k v, user.lookup k = some v → Plain k ∧ Plain v) : ∀ l ∈ extraLines user, Plain l := by
  have hsign : Plain " = ".toList := plain_of_all rfl
  intro l hl
  rcases List.mem_cons.mp hl with rfl | hl
  · exact plain_of_all rfl
  rcases List.mem_cons.mp hl with rfl | hl
  · exact plain_of_all rfl
  obtain ⟨key, hkey, hline⟩ := List.mem_flatMap.mp hl
  obtain ⟨v, hv⟩ := Option.isSome_iff_exists.mp (AList.lookup_isSome.mpr
    (AList.mem_keys.mp ((List.mem_insertionSort _).mp hkey)))
  obtain ⟨hplain, hvalue⟩ := h key v hv
  rcases List.mem_append.mp hline with hline | hline
  · split at hline
    · cases hline
    · obtain rfl := List.mem_singleton.mp hline
      exact plain_of_all rfl
  · obtain rfl := List.mem_singleton.mp hline
    rw [hv]
    exact hplain.append (hsign.append hvalue)

theorem output_plain {template userText : Text} (htemplate : Plain template)
    (huser : Plain userText) : Plain (output db template userText) := by
  have hmerged : PlainMerging (merge db template (parseUserIni db userText)) := by
    refine merge_plain db ⟨fun k v => plain_setting db huser, fun l hl => ?_⟩ (fun l hl => ?_)
      fun l hl => htemplate.line hl
    · cases hl
    · exact newline_not_mem (splitlines_inline hl)
  have hnewline : Plain ['\n'] := plain_of_all rfl
  have hbody := Plain.joinLines hmerged.out
  have hextra := Plain.joinLines (extraLines_plain hmerged.user)
  refine Plain.append (Plain.subset ?_ fun c hc => (List.rdropWhile_prefix _ _).mem hc) hnewline
  split
  · exact hbody
  · exact hbody.append (hnewline.append hextra)

/-! ### The upgrade -/

variable {π : Type}

/-- The INI text that the library finds. -/
def iniText (m : Machine π) : Option Text := (candidates m).findSome? m.readToString

theorem iniValue_eq {m : Machine π} {t : Text} (h : iniText m = some t) (s : Setting) :
    iniValue m s = (parseIni t).lookup s.key := by
  rw [iniValue, ← iniText, h, Option.bind_some, lookup_parseIni]

/-- After the upgrade a setting of the user's INI has the value that it had before, and any
other setting the value that the template alone would give it. The environment goes over both
as before. -/
theorem upgrade_keeps {template userText : Text} (hone : OneKeyLineEach db template)
    (htemplate : Plain template) (huser : Plain userText) {before after fresh : Machine π}
    (hbefore : iniText before = some userText)
    (hafter : iniText after = some (output db template userText))
    (hfresh : iniText fresh = some template)
    (henv : after.env = before.env ∧ after.env = fresh.env) (s : Setting) :
    valueOf s (load after) = if (iniValue before s).isSome then valueOf s (load before)
      else valueOf s (load fresh) := by
  have hread : iniValue after s = (iniValue before s).or (iniValue fresh s) := by
    rw [iniValue_eq hbefore, iniValue_eq hafter, iniValue_eq hfresh,
      ← agree_of_plain db (output_plain db htemplate huser), lookup_migrated db hone,
      agree_of_plain db huser, agree_of_plain db htemplate]
  rw [valueOf_load, valueOf_load, valueOf_load, hread, ← henv.1, ← henv.2]
  cases iniValue before s with
  | none => rfl
  | some v => rfl

end Upgrade

/-- A machine with an INI text beside the library, and without the environment's settings. -/
def machineWith (text : Text) : Machine Unit where
  env _ := none
  path _ := ()
  join _ _ := ()
  dllDir := some ()
  exeDir := none
  readToString _ := some text

def shipped : Text := "; port = 1\nproto = tcp".toList
def mine : Text := "Port = 7 ; mine".toList

theorem upgrade_keeps_port :
    valueOf .port (load (machineWith (output smallDatabase shipped mine))) =
      valueOf .port (load (machineWith mine)) ∧
    valueOf .proto (load (machineWith (output smallDatabase shipped mine))) =
      valueOf .proto (load (machineWith shipped)) := by
  have hone : OneKeyLineEach smallDatabase shipped := by
    unfold OneKeyLineEach
    decide
  have hkeeps : ∀ s, valueOf s (load (machineWith (output smallDatabase shipped mine))) =
      if (iniValue (machineWith mine) s).isSome then valueOf s (load (machineWith mine))
      else valueOf s (load (machineWith shipped)) :=
    upgrade_keeps smallDatabase hone (plain_of_all rfl) (plain_of_all rfl) rfl rfl rfl ⟨rfl, rfl⟩
  exact ⟨(hkeeps .port).trans (if_pos (by decide)), (hkeeps .proto).trans (if_neg (by decide))⟩

end Kvasilloni.ConfigUpgrade
