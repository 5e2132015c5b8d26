import Kvasilloni.IniMigration
import Mathlib.Data.List.Sort
import Mathlib.Data.List.Forall2

/-!
What the migration keeps of the template, and what a migration of a migrated INI does. What
is written depends on the settings that are read and on nothing else; so once the settings
of the template are among those of the user, migrating again changes nothing.
-/
namespace Kvasilloni.IniSettling

open IpLiterals Kvasilloni.Configuration PythonText IniMerge IniMigration TextLines Trimming
  LastValue Regex

/-- Two maps with the same settings. -/
def SameSettings (a b : Map Text Text) : Prop := ∀ k, a.lookup k = b.lookup k

section Migration

variable (db : CharDatabase)

/-! ### What is written depends on the settings only -/

theorem SameSettings.erase {a b : Map Text Text} (h : SameSettings a b) (key : Text) :
    SameSettings (a.erase key) (b.erase key) := by
  intro k
  by_cases hk : k = key
  · subst hk
    rw [AList.lookup_erase, AList.lookup_erase]
  · rw [AList.lookup_erase_ne hk, AList.lookup_erase_ne hk, h k]

theorem SameSettings.keys_perm {a b : Map Text Text} (h : SameSettings a b) :
    a.keys.Perm b.keys := by
  refine (List.perm_ext_iff_of_nodup a.nodupKeys b.nodupKeys).mpr fun k => ?_
  have hmem : k ∈ a ↔ k ∈ b := by rw [← AList.lookup_isSome, ← AList.lookup_isSome, h k]
  exact hmem

theorem SameSettings.sorted_keys {a b : Map Text Text} (h : SameSettings a b) :
    a.keys.insertionSort (· ≤ ·) = b.keys.insertionSort (· ≤ ·) := by
  have hperm := ((List.perm_insertionSort (· ≤ ·) a.keys).trans h.keys_perm).trans
    (List.perm_insertionSort (· ≤ ·) b.keys).symm
  exact hperm.eq_of_pairwise' (List.pairwise_insertionSort (· ≤ ·) a.keys)
    (List.pairwise_insertionSort (· ≤ ·) b.keys)

theorem SameSettings.extraLines_eq {a b : Map Text Text} (h : SameSettings a b) :
    extraLines a = extraLines b := by
  rw [extraLines, extraLines, h.sorted_keys]
  simp only [h _]

structure SameMerging (s t : Merging) : Prop where
  outLines : s.outLines = t.outLines
  applied : s.applied = t.applied
  user : SameSettings s.user t.user

theorem mergeLine_same {s t : Merging} (h : SameMerging s t) (raw : Text) :
    SameMerging (mergeLine db s raw) (mergeLine db t raw) := by
  obtain ⟨hout, happlied, huser⟩ := h
  unfold mergeLine
  cases matchAt (keyLine db) raw with
  | none => exact ⟨by rw [hout], happlied, huser⟩
  | some m =>
    dsimp only
    split
    · exact ⟨by rw [hout], happlied, huser⟩
    · rw [huser]
      cases t.user.lookup (db.lower (m.group 3)) with
      | none => exact ⟨by rw [hout], happlied, huser⟩
      | some value => exact ⟨by rw [hout], by rw [happlied], huser.erase _⟩

theorem merge_same {a b : Map Text Text} (h : SameSettings a b) (template : Text) :
    SameMerging (merge db template a) (merge db template b) := by
  have hfold : ∀ (ls : List Text) (s t : Merging), SameMerging s t →
      SameMerging (ls.foldl (mergeLine db) s) (ls.foldl (mergeLine db) t) := by
    intro ls
    induction ls with
    | nil => exact fun _ _ hst => hst
    | cons raw ls ih => exact fun s t hst => ih _ _ (mergeLine_same db hst raw)
  exact hfold _ _ _ ⟨rfl, rfl, h⟩

theorem output_same {template t u : Text}
    (h : SameSettings (parseUserIni db t) (parseUserIni db u)) :
    output db template t = output db template u := by
  obtain ⟨hout, -, huser⟩ := merge_same db h template
  have hempty : (merge db template (parseUserIni db t)).user.keys.isEmpty =
      (merge db template (parseUserIni db u)).user.keys.isEmpty := by
    exact huser.keys_perm.isEmpty_eq
  rw [output, output, hout, hempty, huser.extraLines_eq]

/-! ### What is kept of the template -/

/-- The key line of a key, active or commented, and the line that is written for it: active,
with the user's value, and with the indent and the comment behind the value as they were. -/
def Filled (values : Map Text Text) (k raw out : Text) : Prop :=
  ∃ indent marker key wsKey old inline value,
    raw = indent ++ (marker ++ (key ++ (wsKey ++ '=' :: (old ++ inline)))) ∧
    IsMarker marker ∧ IsWord db key ∧ IsInlineComment inline ∧
    (∀ c ∈ old, isCommentMark c = false) ∧ db.lower key = k ∧ k ∈ knownKeys ∧
    values.lookup k = some value ∧
    out = indent ++ (key ++ (" = ".toList ++ (value ++ inline)))

/-- The same, with the lines before it: it is filled where it is the first line for a setting
that the user has, and else it is as it was. -/
def Placed (values : Map Text Text) (before : List Text) (raw out : Text) : Prop :=
  (∃ k, templateKey db raw = some k ∧ (∀ l ∈ before, templateKey db l ≠ some k) ∧
    Filled db values k raw out) ∨
  (out = raw ∧ ∀ k, templateKey db raw = some k →
    values.lookup k = none ∨ ∃ l ∈ before, templateKey db l = some k)

variable {template : Text}

theorem lookup_migrated (hone : OneKeyLineEach db template) (t key : Text) :
    (parseUserIni db (output db template t)).lookup key =
      ((parseUserIni db t).lookup key).or ((parseUserIni db template).lookup key) := by
  have hstart : Sound db ⟨[], [], parseUserIni db t⟩ :=
    ⟨fun _ _ => parseUserIni_clean db, fun _ hl => absurd hl List.not_mem_nil⟩
  obtain ⟨hsound, howed⟩ := merge_owed db (fun l => splitlines_inline) hone hstart
  have hread : owed db key ⟨[], [], parseUserIni db t⟩ (splitlines template) =
      ((parseUserIni db t).lookup key).or ((parseUserIni db template).lookup key) := by
    rw [owed, List.nil_append, lookup_parseUserIni db template]
  exact (lookup_output db hsound key).trans ((howed key).trans hread)

/-- A migrated text that is migrated again is written as it will be from then on: a third
migration changes nothing. And where the user's text sets all that the template sets, the
first migration is the last that changes anything. -/
theorem migration_settles (hone : OneKeyLineEach db template) (userText : Text) :
    output db template (output db template (output db template userText)) =
        output db template (output db template userText) ∧
      ((∀ k, (parseUserIni db userText).lookup k = none →
          (parseUserIni db template).lookup k = none) →
        output db template (output db template userText) = output db template userText) := by
  constructor
  · refine output_same db fun k => ?_
    rw [lookup_migrated db hone, lookup_migrated db hone, Option.or_assoc, Option.or_self]
  · intro hall
    refine output_same db fun k => ?_
    rw [lookup_migrated db hone]
    cases hk : (parseUserIni db userText).lookup k with
    | none => exact hall k hk
    | some v => rfl

end Migration

theorem migration_settles_host :
    output smallDatabase "; host = a ; peer\nport=1".toList
        (output smallDatabase "; host = a ; peer\nport=1".toList "Host = b".toList) =
      "host = b ; peer\nport = 1\n".toList ∧
    output smallDatabase "; host = a ; peer\nport=1".toList
        "host = b ; peer\nport = 1\n".toList = "host = b ; peer\nport = 1\n".toList := by
  have hone : OneKeyLineEach smallDatabase "; host = a ; peer\nport=1".toList := by
    unfold OneKeyLineEach
    decide
  have htwice : output smallDatabase "; host = a ; peer\nport=1".toList
        (output smallDatabase "; host = a ; peer\nport=1".toList "Host = b".toList) =
      "host = b ; peer\nport = 1\n".toList := by decide
  have hsettles := (migration_settles smallDatabase hone "Host = b".toList).1
  rw [htwice] at hsettles
  exact ⟨htwice, hsettles⟩

end Kvasilloni.IniSettling
