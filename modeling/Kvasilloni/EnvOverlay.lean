import Kvasilloni.Configuration

/-!
One setting, given by its environment variable or by a line of the INI text. The INI text
is trimmed before a setting reads its value, the variable is not: a setting that trims its
value itself reads both alike, the others need not.
-/
namespace Kvasilloni.EnvOverlay

open IpLiterals Kvasilloni.Configuration TextLines Trimming LastValue

/-- The environment overlay, where this variable is the only one. -/
def envOverlay (s : Setting) (v : Text) (cfg : Config) : Config :=
  applyEnvWith cfg fun k => if k = s.envVar then some v else none

/-- The INI overlay, where `key = v` is the whole text. -/
def iniOverlay (s : Setting) (v : Text) (cfg : Config) : Config :=
  applyMap cfg (parseIni (s.key ++ (" = ".toList ++ v)))

/-- Two configurations have the same value for a setting. -/
def Same (s : Setting) (a b : Config) : Prop :=
  match s with
  | .host => a.host = b.host
  | .port => a.remotePort = b.remotePort
  | .localPort => a.localPort = b.localPort
  | .proto => a.tcp = b.tcp
  | .tcpRole => a.tcpServer = b.tcpServer
  | .log => a.log = b.log
  | .channels => a.channels = b.channels
  | .connectTimeout => a.connectTimeoutMs = b.connectTimeoutMs
  | .acceptTimeout => a.acceptTimeoutMs = b.acceptTimeoutMs
  | .udpPortFallback => a.udpPortFallback = b.udpPortFallback
  | .peerCheck => a.peerCheck = b.peerCheck
  | .allow => a.allow = b.allow

/-- The same value, where the host is trimmed first as it is when the channel is opened. -/
def SameValue (s : Setting) (a b : Config) : Prop :=
  match s with
  | .host => trimBlanks a.host = trimBlanks b.host
  | s => Same s a b

def Warning.aboutEmpty : Warning → Bool
  | .empty _ => true
  | .invalid _ _ => false

/-- The same warnings, whatever their wording. -/
def SameWarnings (a b : Config) : Prop :=
  a.warnings.map Warning.aboutEmpty = b.warnings.map Warning.aboutEmpty

/-- Both overlays change the configuration in the same way, and only in this setting. -/
structure Agree (s : Setting) (cfg env ini : Config) : Prop where
  values : ∀ s', SameValue s' env ini
  warnings : SameWarnings env ini
  others : ∀ s', s' ≠ s → Same s' env cfg ∧ Same s' ini cfg

/-- The blanks around a value make no difference to the setting. -/
def BlanksIgnored (s : Setting) (cfg : Config) (v : Text) : Prop :=
  match s with
  | .proto => startsWithCi (trimBlanks v) 't' = true → ∀ c ∈ v.head?, isWhitespace c = false
  | .tcpRole => startsWithCi (trimBlanks v) 's' = true → ∀ c ∈ v.head?, isWhitespace c = false
  | .log => trimBlanks v = v ∨ (trimBlanks v = [] ∧ cfg.log = some v)
  | _ => True

/-- A value with no comment mark and no line break in it. -/
def PlainValue (v : Text) : Prop := ∀ c ∈ v, isCommentMark c = false ∧ c ≠ '\n'

/-! ### Each overlay stores one value -/

theorem envOverlay_eq (s : Setting) (v : Text) (cfg : Config) :
    envOverlay s v cfg = s.store s.envVar cfg v := by
  rw [envOverlay, applyEnvWith_eq_overlay, ← overlay_single]
  congr 1
  funext s'
  by_cases hs : s' = s
  · rw [if_pos hs, if_pos (congrArg Setting.envVar hs)]
  · rw [if_neg hs, if_neg fun h => hs (envVar_injective h)]

theorem key_plain (s : Setting) :
    marked s.key = false ∧
      ∀ c ∈ s.key, isWhitespace c = false ∧ c ≠ '=' ∧ c.toLower = c := by
  cases s <;> exact ⟨rfl, List.all_iff_forall_prop.mp (by decide)⟩

theorem key_trimmed (s : Setting) : Trimmed isWhitespace s.key :=
  ⟨fun c hc => ((key_plain s).2 c (List.mem_of_mem_head? hc)).1,
    fun c hc => ((key_plain s).2 c (List.mem_of_getLast? hc)).1⟩

theorem toAsciiLowercase_key (s : Setting) : toAsciiLowercase s.key = s.key := by
  rw [toAsciiLowercase, List.map_congr_left fun c hc => ((key_plain s).2 c hc).2.2, List.map_id']

theorem beforeComment_plain {v : Text} (hv : PlainValue v) : beforeComment v = v := by
  unfold beforeComment
  rw [List.takeWhile_eq_self_iff]
  intro c hc
  simp [(hv c hc).1]

theorem lookup_line {v : Text} (hv : PlainValue v) (s s' : Setting) :
    (parseIni (s.key ++ (" = ".toList ++ v))).lookup s'.key =
      if s' = s then some (trimBlanks v) else none := by
  have hinline : Inline (fun c => c == '\n') (s.key ++ (" = ".toList ++ v)) := by
    have hkey : '\n' ∉ s.key :=
      fun hmem => absurd ((key_plain s).2 _ hmem).1 (by decide)
    have hsign : '\n' ∉ " = ".toList := by decide
    have hvalue : '\n' ∉ v := fun hmem => (hv _ hmem).2 rfl
    exact inline_of_not_mem (List.not_mem_append hkey (List.not_mem_append hsign hvalue))
  have hlines : lines (s.key ++ (" = ".toList ++ v)) = [s.key ++ (" = ".toList ++ v)] := by
    unfold lines
    rw [splitLines_last hinline, if_neg (by simp)]
  have hsetting : setting (s.key ++ (" = ".toList ++ v)) = some (s.key, trimBlanks v) := by
    have hsign : '=' ∉ s.key ++ [' '] := by
      intro hmem
      rcases List.mem_append.mp hmem with hmem | hmem
      · exact ((key_plain s).2 _ hmem).2.1 rfl
      · exact absurd hmem (by decide)
    have hspace : ∀ c ∈ [' '], isWhitespace c = true := List.all_iff_forall_prop.mp rfl
    have hkey : trimBlanks (s.key ++ [' ']) = s.key := by
      rw [trimBlanks, trim_blanks_right hspace, trim_of_trimmed (key_trimmed s)]
    have hplain : PlainValue (' ' :: v) := List.forall_mem_cons.mpr ⟨by decide, hv⟩
    have hvalue : trimBlanks (' ' :: v) = trimBlanks v :=
      trim_blanks_left hspace v
    have hline : s.key ++ (" = ".toList ++ v) = (s.key ++ [' ']) ++ '=' :: ' ' :: v := by
      rw [List.append_assoc]
      rfl
    rw [hline, setting_line hsign, hkey, (key_plain s).1, if_neg Bool.false_ne_true,
      toAsciiLowercase_key, beforeComment_plain hplain, hvalue]
  rw [lookup_parseIni, hlines, List.filterMap_cons_some hsetting]
  by_cases hs : s' = s
  · subst hs
    simp [lastValue]
  · have hkey : s.key ≠ s'.key := fun h => hs (key_injective h).symm
    simp [lastValue, hs, hkey]

theorem iniOverlay_eq {v : Text} (hv : PlainValue v) (s : Setting) (cfg : Config) :
    iniOverlay s v cfg = s.store s.iniName cfg (trimBlanks v) := by
  rw [iniOverlay, applyMap_eq_overlay, ← overlay_single]
  congr 1
  funext s'
  exact lookup_line hv s s'

/-! ### Values that are trimmed before they are read -/

@[simp] theorem trimBlanks_trimBlanks (v : Text) : trimBlanks (trimBlanks v) = trimBlanks v :=
  trim_trim

theorem parseBool_trimBlanks (v : Text) : parseBool (trimBlanks v) = parseBool v := by
  unfold parseBool
  rw [trimBlanks_trimBlanks]

theorem parseIpList_trimBlanks (v : Text) : parseIpList (trimBlanks v) = parseIpList v := by
  have hsep : ∀ c, isWhitespace c = true → isListSeparator c = true := by
    intro c hc
    rw [isListSeparator, hc, Bool.or_true]
  rw [parseIpList, trimBlanks, pieces_trim hsep]
  rfl

/-- The same number and the same kind of warning, under either name. -/
theorem parseNum_trimBlanks {α : Type} (parse : Text → Option α) (v name name' : Text)
    (warnings : List Warning) :
    (parseNum parse v name warnings).1 = (parseNum parse (trimBlanks v) name' warnings).1 ∧
      (parseNum parse v name warnings).2.map Warning.aboutEmpty =
        (parseNum parse (trimBlanks v) name' warnings).2.map Warning.aboutEmpty := by
  simp only [parseNum, trimBlanks_trimBlanks]
  split
  · exact ⟨rfl, rfl⟩
  · split
    · exact ⟨rfl, rfl⟩
    · exact ⟨rfl, by simp [Warning.aboutEmpty]⟩

theorem toLower_blank {c : Char} (hc : isWhitespace c = true) : c.toLower = c := by
  refine toLower_eq_self ?_
  simp only [isWhitespace, Bool.or_eq_true, Bool.and_eq_true, decide_eq_true_eq,
    beq_iff_eq] at hc
  omega

/-- A first letter survives the trimming if no blank stands before it. -/
theorem startsWithCi_trimBlanks_iff {d : Char} (hd : isWhitespace d = false) (v : Text) :
    startsWithCi v d = startsWithCi (trimBlanks v) d ↔
      (startsWithCi (trimBlanks v) d = true → ∀ c ∈ v.head?, isWhitespace c = false) := by
  cases v with
  | nil => simp [trimBlanks]
  | cons c v =>
    by_cases hc : isWhitespace c = true
    · have hfirst : startsWithCi (c :: v) d = false := by
        rw [startsWithCi, toLower_blank hc, beq_eq_false_iff_ne]
        rintro rfl
        rw [hc] at hd
        cases hd
      rw [hfirst]
      cases startsWithCi (trimBlanks (c :: v)) d <;> simp [hc]
    · rw [Bool.not_eq_true] at hc
      have hhead : (trimBlanks (c :: v)).head? = some c := by
        obtain ⟨a, b, ha, hb, hl⟩ := exists_trim isWhitespace (c :: v)
        cases a with
        | cons d a =>
          obtain rfl := (List.cons.inj hl).1
          rw [ha c (List.mem_cons_self ..)] at hc
          cases hc
        | nil =>
          rw [trimBlanks]
          cases htrim : trim isWhitespace (c :: v) with
          | cons d t =>
            rw [htrim] at hl
            rw [(List.cons.inj hl).1]
            rfl
          | nil =>
            rw [htrim] at hl
            have hmem : c ∈ b := by
              rw [List.nil_append, List.nil_append] at hl
              exact hl ▸ List.mem_cons_self ..
            rw [hb c hmem] at hc
            cases hc
      have hsame : startsWithCi (trimBlanks (c :: v)) d = startsWithCi (c :: v) d := by
        cases htrim : trimBlanks (c :: v) with
        | nil =>
          rw [htrim] at hhead
          cases hhead
        | cons e t =>
          rw [htrim] at hhead
          rw [Option.some.inj hhead, startsWithCi, startsWithCi]
      simp [hsame, hc]

/-! ### What a setting leaves alone -/

theorem storeNum_frame {α : Type} {parse : Text → Option α} {set : Config → α → Config}
    {s' : Setting} (hset : ∀ cfg n, Same s' (set cfg n) cfg) (name : Text) (cfg : Config)
    (v : Text) : Same s' (storeNum parse set name cfg v) cfg := by
  have hwarnings : ∀ ws : List Warning, Same s' { cfg with warnings := ws } cfg := by
    intro ws
    cases s' <;> rfl
  unfold storeNum
  dsimp only
  split
  · rename_i n _
    have h := hset { cfg with warnings := (parseNum parse v name cfg.warnings).2 } n
    cases s' <;> exact h
  · exact hwarnings _

theorem store_frame {s s' : Setting} (hs : s' ≠ s) (name : Text) (cfg : Config) (v : Text) :
    Same s' (s.store name cfg v) cfg := by
  cases s with
  | host | log =>
    simp only [Setting.store, storeHost, storeLog]
    split <;> cases s' <;> first | exact absurd rfl hs | rfl
  | proto | tcpRole | udpPortFallback | peerCheck | allow =>
    cases s' <;> first | exact absurd rfl hs | rfl
  | port | localPort | channels | connectTimeout | acceptTimeout =>
    refine storeNum_frame (fun cfg n => ?_) name cfg v
    cases s' <;> first | exact absurd rfl hs | rfl

/-- Only the setting itself and the warnings are left to compare. -/
theorem agree_store_iff (s : Setting) (cfg : Config) (v w : Text) (name name' : Text) :
    Agree s cfg (s.store name cfg v) (s.store name' cfg w) ↔
      SameValue s (s.store name cfg v) (s.store name' cfg w) ∧
        SameWarnings (s.store name cfg v) (s.store name' cfg w) := by
  constructor
  · intro h
    exact ⟨h.values s, h.warnings⟩
  · rintro ⟨hvalue, hwarnings⟩
    refine ⟨fun s' => ?_, hwarnings, fun s' hs => ⟨store_frame hs _ _ _, store_frame hs _ _ _⟩⟩
    by_cases hs : s' = s
    · rw [hs]
      exact hvalue
    · have henv := store_frame hs name cfg v
      have hini := store_frame hs name' cfg w
      cases s' with
      | host => exact congrArg trimBlanks (Eq.trans henv (Eq.symm hini))
      | _ => exact Eq.trans henv (Eq.symm hini)

/-! ### The two overlays -/

theorem storeNum_agree {α : Type} {parse : Text → Option α} {set : Config → α → Config}
    {s : Setting} (hset : ∀ (cfg : Config) ws ws' n, SameValue s
      (set { cfg with warnings := ws } n) (set { cfg with warnings := ws' } n))
    (hwarnings : ∀ (cfg : Config) n, (set cfg n).warnings = cfg.warnings) (name name' : Text)
    (cfg : Config) (v : Text) :
    SameValue s (storeNum parse set name cfg v) (storeNum parse set name' cfg (trimBlanks v)) ∧
      SameWarnings (storeNum parse set name cfg v)
        (storeNum parse set name' cfg (trimBlanks v)) := by
  obtain ⟨hnum, hkinds⟩ := parseNum_trimBlanks parse v name name' cfg.warnings
  unfold storeNum
  dsimp only
  rw [← hnum]
  cases (parseNum parse v name cfg.warnings).1 with
  | none =>
    refine ⟨?_, hkinds⟩
    cases s <;> rfl
  | some n =>
    refine ⟨hset cfg _ _ n, ?_⟩
    rw [SameWarnings, hwarnings, hwarnings]
    exact hkinds

theorem storeLog_agree_iff (cfg : Config) (v : Text) :
    (storeLog cfg v).log = (storeLog cfg (trimBlanks v)).log ↔ BlanksIgnored .log cfg v := by
  have hstore : ∀ w : Text, (storeLog cfg w).log = if w.isEmpty then cfg.log else some w := by
    intro w
    unfold storeLog
    split <;> rfl
  rw [hstore, hstore, BlanksIgnored]
  cases v with
  | nil => simp [trimBlanks]
  | cons c v =>
    cases htrim : trimBlanks (c :: v) with
    | nil => simp [eq_comm]
    | cons d t => simp [eq_comm]

theorem store_agree_iff (s : Setting) (cfg : Config) (v name name' : Text) :
    Agree s cfg (s.store name cfg v) (s.store name' cfg (trimBlanks v)) ↔
      BlanksIgnored s cfg v := by
  rw [agree_store_iff]
  cases s with
  | host =>
    refine iff_of_true ?_ trivial
    simp only [Setting.store, storeHost, trimBlanks_trimBlanks]
    split
    · exact ⟨rfl, by simp [SameWarnings, Warning.aboutEmpty]⟩
    · exact ⟨(trimBlanks_trimBlanks v).symm, rfl⟩
  | port | localPort | channels | connectTimeout | acceptTimeout =>
    refine iff_of_true ?_ trivial
    refine storeNum_agree ?_ ?_ name name' cfg v
    · intro _ _ _ _
      rfl
    · intro _ _
      rfl
  | proto => exact (and_iff_left rfl).trans (startsWithCi_trimBlanks_iff (by decide) v)
  | tcpRole => exact (and_iff_left rfl).trans (startsWithCi_trimBlanks_iff (by decide) v)
  | log =>
    refine (and_iff_left ?_).trans (storeLog_agree_iff cfg v)
    simp only [Setting.store, storeLog]
    split <;> split <;> rfl
  | udpPortFallback =>
    exact iff_of_true ⟨(parseBool_trimBlanks v).symm, rfl⟩ trivial
  | peerCheck => exact iff_of_true ⟨(parseBool_trimBlanks v).symm, rfl⟩ trivial
  | allow => exact iff_of_true ⟨(parseIpList_trimBlanks v).symm, rfl⟩ trivial

/-- The variable and the line of a setting do the same to every configuration exactly if
the blanks around the value make no difference. -/
theorem env_agrees_with_ini_iff (s : Setting) (cfg : Config) {v : Text} (hv : PlainValue v) :
    Agree s cfg (envOverlay s v cfg) (iniOverlay s v cfg) ↔ BlanksIgnored s cfg v := by
  rw [envOverlay_eq, iniOverlay_eq hv]
  exact store_agree_iff s cfg v _ _

theorem env_agrees_with_ini_port :
    PlainValue " 20001".toList ∧
      (Agree .port Config.default (envOverlay .port " 20001".toList Config.default)
        (iniOverlay .port " 20001".toList Config.default) ↔
          BlanksIgnored .port Config.default " 20001".toList) :=
  have hplain : PlainValue " 20001".toList := by
    unfold PlainValue
    exact List.all_iff_forall_prop.mp rfl
  ⟨hplain, env_agrees_with_ini_iff .port Config.default hplain⟩

/-- A blank in front of the transport is enough to lose it from the environment. -/
theorem env_differs_from_ini : ¬ ∀ (s : Setting) (cfg : Config) (v : Text), PlainValue v →
    Agree s cfg (envOverlay s v cfg) (iniOverlay s v cfg) := by
  intro h
  have hplain : PlainValue " tcp".toList := by
    unfold PlainValue
    exact List.all_iff_forall_prop.mp rfl
  have hproto := (h .proto Config.default " tcp".toList hplain).values .proto
  have hdiffer : (envOverlay .proto " tcp".toList Config.default).tcp ≠
      (iniOverlay .proto " tcp".toList Config.default).tcp := by
    decide
  exact hdiffer hproto

end Kvasilloni.EnvOverlay
