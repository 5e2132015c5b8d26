import Kvasilloni.IpLiterals
import Kvasilloni.Library.LastValue
import Kvasilloni.Library.TextLines
import Kvasilloni.Library.Trimming
import Mathlib

/-!
The configuration: built-in defaults, over them the settings of an INI text, over these the
environment. Both overlays look at the twelve settings in the same order, and a setting
reads its value in the same way for both. Values that do not parse leave the configuration
as it is and are reported as warnings.
-/
namespace Kvasilloni.Configuration

open IpLiterals Reception TextLines Trimming LastValue

/-- `char::is_whitespace`. -/
def isWhitespace (c : Char) : Bool :=
  let n := c.toNat
  (9 ≤ n && n ≤ 13) || n == 32 || n == 0x85 || n == 0xA0 || n == 0x1680 ||
    (0x2000 ≤ n && n ≤ 0x200A) || n == 0x2028 || n == 0x2029 || n == 0x202F ||
    n == 0x205F || n == 0x3000

def trimBlanks (t : Text) : Text := trim isWhitespace t

def toAsciiLowercase (t : Text) : Text := t.map Char.toLower

def lines (t : Text) : List Text := splitLines (fun c => c == '\n') t

/-- A warning, with the value it quotes. -/
inductive Warning
  | empty (name : Text)
  | invalid (name value : Text)
  deriving DecidableEq

structure Config where
  host : Text
  remotePort : UInt16
  localPort : UInt16
  tcp : Bool
  tcpServer : Bool
  log : Option Text
  channels : UInt32
  connectTimeoutMs : UInt32
  acceptTimeoutMs : UInt32
  udpPortFallback : Bool
  peerCheck : Bool
  allow : List IpAddr
  warnings : List Warning
  deriving DecidableEq

def Config.default : Config where
  host := "127.0.0.1".toList
  remotePort := 20000
  localPort := 20000
  tcp := false
  tcpServer := false
  log := none
  channels := 1
  connectTimeoutMs := 5000
  acceptTimeoutMs := 30000
  udpPortFallback := false
  peerCheck := true
  allow := []
  warnings := []

/-! ### Values -/

/-- An unsigned number below the bound; a plus sign may stand before its digits. -/
def parseUnsigned (bound : ℕ) (t : Text) : Option ℕ :=
  let digits := match t with
    | '+' :: ds => ds
    | ds => ds
  if digits.isEmpty then none
  else digits.foldlM (fun n c => (toDigit 10 c).bind fun d =>
    if n * 10 + d < bound then some (n * 10 + d) else none) 0

def parseU16 (t : Text) : Option UInt16 := (parseUnsigned (2 ^ 16) t).map UInt16.ofNat

def parseU32 (t : Text) : Option UInt32 := (parseUnsigned (2 ^ 32) t).map UInt32.ofNat

/-- The number, if there is one, and the warnings with the one that is added. -/
def parseNum {α : Type} (parse : Text → Option α) (val name : Text) (warnings : List Warning) :
    Option α × List Warning :=
  let t := trimBlanks val
  if t.isEmpty then (none, warnings)
  else match parse t with
    | some v => (some v, warnings)
    | none => (none, warnings ++ [.invalid name val])

def startsWithCi (s : Text) (c : Char) : Bool :=
  match s with
  | [] => false
  | b :: _ => b.toLower == c

def parseBool (s : Text) : Bool :=
  ["1", "true", "yes", "on", "enable", "enabled"].any fun word =>
    word.toList == toAsciiLowercase (trimBlanks s)

def isListSeparator (c : Char) : Bool := c == ',' || isWhitespace c

def parseIpList (s : Text) : List IpAddr :=
  (pieces isListSeparator s).filterMap parseIpAddr

/-! ### The INI text -/

def isCommentMark (c : Char) : Bool := c == ';' || c == '#'

def beforeComment (v : Text) : Text := v.takeWhile fun c => !isCommentMark c

/-- A comment or a section header starts so. -/
def marked (line : Text) : Bool :=
  match line with
  | [] => false
  | c :: _ => c == ';' || c == '#' || c == '['

/-- The setting in a line. -/
def setting (line : Text) : Option (Text × Text) :=
  let line := trimBlanks line
  if line.isEmpty || marked line then none
  else (splitOnce '=' line).map fun r =>
    (toAsciiLowercase (trimBlanks r.1), trimBlanks (beforeComment r.2))

def parseIni (text : Text) : Map Text Text :=
  (lines text).foldl (fun map line =>
    match setting line with
    | some (k, v) => map.insert k v
    | none => map) ∅

/-! ### The overlays -/

def storeHost (name : Text) (cfg : Config) (v : Text) : Config :=
  if (trimBlanks v).isEmpty then { cfg with warnings := cfg.warnings ++ [.empty name] }
  else { cfg with host := v }

/-- A number is stored where there is one; the warnings are kept in any case. -/
def storeNum {α : Type} (parse : Text → Option α) (set : Config → α → Config) (name : Text)
    (cfg : Config) (v : Text) : Config :=
  let (n, warnings) := parseNum parse v name cfg.warnings
  let cfg := { cfg with warnings := warnings }
  match n with
  | some n => set cfg n
  | none => cfg

def storeProto (cfg : Config) (v : Text) : Config := { cfg with tcp := startsWithCi v 't' }

def storeTcpRole (cfg : Config) (v : Text) : Config :=
  { cfg with tcpServer := startsWithCi v 's' }

def storeLog (cfg : Config) (v : Text) : Config :=
  if v.isEmpty then cfg else { cfg with log := some v }

def storeUdpPortFallback (cfg : Config) (v : Text) : Config :=
  { cfg with udpPortFallback := parseBool v }

def storePeerCheck (cfg : Config) (v : Text) : Config := { cfg with peerCheck := parseBool v }

def storeAllow (cfg : Config) (v : Text) : Config := { cfg with allow := parseIpList v }

def setRemotePort (cfg : Config) (p : UInt16) : Config := { cfg with remotePort := p }

def setLocalPort (cfg : Config) (p : UInt16) : Config := { cfg with localPort := p }

def setChannels (cfg : Config) (n : UInt32) : Config := { cfg with channels := n }

def setConnectTimeoutMs (cfg : Config) (n : UInt32) : Config := { cfg with connectTimeoutMs := n }

def setAcceptTimeoutMs (cfg : Config) (n : UInt32) : Config := { cfg with acceptTimeoutMs := n }

/-- One arm of an overlay: a value that is given is stored. -/
def Config.given (cfg : Config) (value : Option Text) (store : Config → Text → Config) : Config :=
  match value with
  | some v => store cfg v
  | none => cfg

def applyMap (cfg : Config) (m : Map Text Text) : Config :=
  let cfg := cfg.given (m.lookup "host".toList) (storeHost "'host'".toList)
  let cfg := cfg.given (m.lookup "port".toList)
    (storeNum parseU16 setRemotePort "port".toList)
  let cfg := cfg.given (m.lookup "localport".toList)
    (storeNum parseU16 setLocalPort "localport".toList)
  let cfg := cfg.given (m.lookup "proto".toList) storeProto
  let cfg := cfg.given (m.lookup "tcprole".toList) storeTcpRole
  let cfg := cfg.given (m.lookup "log".toList) storeLog
  let cfg := cfg.given (m.lookup "channels".toList)
    (storeNum parseU32 setChannels "channels".toList)
  let cfg := cfg.given (m.lookup "connecttimeout".toList)
    (storeNum parseU32 setConnectTimeoutMs "connecttimeout".toList)
  let cfg := cfg.given (m.lookup "accepttimeout".toList)
    (storeNum parseU32 setAcceptTimeoutMs "accepttimeout".toList)
  let cfg := cfg.given (m.lookup "udpportfallback".toList) storeUdpPortFallback
  let cfg := cfg.given (m.lookup "peercheck".toList) storePeerCheck
  cfg.given (m.lookup "allow".toList) storeAllow

def applyEnvWith (cfg : Config) (e : Text → Option Text) : Config :=
  let cfg := cfg.given (e "KVASILLONI_HOST".toList) (storeHost "KVASILLONI_HOST".toList)
  let cfg := cfg.given (e "KVASILLONI_PORT".toList)
    (storeNum parseU16 setRemotePort "KVASILLONI_PORT".toList)
  let cfg := cfg.given (e "KVASILLONI_LOCALPORT".toList)
    (storeNum parseU16 setLocalPort "KVASILLONI_LOCALPORT".toList)
  let cfg := cfg.given (e "KVASILLONI_PROTO".toList) storeProto
  let cfg := cfg.given (e "KVASILLONI_TCPROLE".toList) storeTcpRole
  let cfg := cfg.given (e "KVASILLONI_LOG".toList) storeLog
  let cfg := cfg.given (e "KVASILLONI_CHANNELS".toList)
    (storeNum parseU32 setChannels "KVASILLONI_CHANNELS".toList)
  let cfg := cfg.given (e "KVASILLONI_CONNECT_TIMEOUT".toList)
    (storeNum parseU32 setConnectTimeoutMs "KVASILLONI_CONNECT_TIMEOUT".toList)
  let cfg := cfg.given (e "KVASILLONI_ACCEPT_TIMEOUT".toList)
    (storeNum parseU32 setAcceptTimeoutMs "KVASILLONI_ACCEPT_TIMEOUT".toList)
  let cfg := cfg.given (e "KVASILLONI_UDP_PORT_FALLBACK".toList) storeUdpPortFallback
  let cfg := cfg.given (e "KVASILLONI_PEER_CHECK".toList) storePeerCheck
  cfg.given (e "KVASILLONI_ALLOW".toList) storeAllow

/-! ### The settings as data -/

inductive Setting
  | host
  | port
  | localPort
  | proto
  | tcpRole
  | log
  | channels
  | connectTimeout
  | acceptTimeout
  | udpPortFallback
  | peerCheck
  | allow
  deriving DecidableEq

/-- The settings in the order in which both overlays look at them. -/
def Setting.all : List Setting :=
  [.host, .port, .localPort, .proto, .tcpRole, .log, .channels, .connectTimeout, .acceptTimeout,
    .udpPortFallback, .peerCheck, .allow]

def Setting.key : Setting → Text
  | .host => "host".toList
  | .port => "port".toList
  | .localPort => "localport".toList
  | .proto => "proto".toList
  | .tcpRole => "tcprole".toList
  | .log => "log".toList
  | .channels => "channels".toList
  | .connectTimeout => "connecttimeout".toList
  | .acceptTimeout => "accepttimeout".toList
  | .udpPortFallback => "udpportfallback".toList
  | .peerCheck => "peercheck".toList
  | .allow => "allow".toList

def Setting.envVar : Setting → Text
  | .host => "KVASILLONI_HOST".toList
  | .port => "KVASILLONI_PORT".toList
  | .localPort => "KVASILLONI_LOCALPORT".toList
  | .proto => "KVASILLONI_PROTO".toList
  | .tcpRole => "KVASILLONI_TCPROLE".toList
  | .log => "KVASILLONI_LOG".toList
  | .channels => "KVASILLONI_CHANNELS".toList
  | .connectTimeout => "KVASILLONI_CONNECT_TIMEOUT".toList
  | .acceptTimeout => "KVASILLONI_ACCEPT_TIMEOUT".toList
  | .udpPortFallback => "KVASILLONI_UDP_PORT_FALLBACK".toList
  | .peerCheck => "KVASILLONI_PEER_CHECK".toList
  | .allow => "KVASILLONI_ALLOW".toList

/-- The name that a warning of the INI overlay gives. -/
def Setting.iniName (s : Setting) : Text := if s = .host then "'host'".toList else s.key

/-- What an overlay does with a value of the setting. -/
def Setting.store (s : Setting) (name : Text) : Config → Text → Config :=
  match s with
  | .host => storeHost name
  | .port => storeNum parseU16 setRemotePort name
  | .localPort => storeNum parseU16 setLocalPort name
  | .proto => storeProto
  | .tcpRole => storeTcpRole
  | .log => storeLog
  | .channels => storeNum parseU32 setChannels name
  | .connectTimeout => storeNum parseU32 setConnectTimeoutMs name
  | .acceptTimeout => storeNum parseU32 setAcceptTimeoutMs name
  | .udpPortFallback => storeUdpPortFallback
  | .peerCheck => storePeerCheck
  | .allow => storeAllow

/-- The settings that are found, stored in their order. -/
def overlay (cfg : Config) (name : Setting → Text) (find : Setting → Option Text) : Config :=
  Setting.all.foldl (fun cfg s => cfg.given (find s) (s.store (name s))) cfg

theorem applyMap_eq_overlay (cfg : Config) (m : Map Text Text) :
    applyMap cfg m = overlay cfg Setting.iniName fun s => m.lookup s.key := rfl

theorem applyEnvWith_eq_overlay (cfg : Config) (e : Text → Option Text) :
    applyEnvWith cfg e = overlay cfg Setting.envVar fun s => e s.envVar := rfl

theorem key_injective {s s' : Setting} (h : s.key = s'.key) : s = s' := by
  revert h
  cases s <;> cases s' <;> decide

theorem envVar_injective {s s' : Setting} (h : s.envVar = s'.envVar) : s = s' := by
  revert h
  cases s <;> cases s' <;> decide

/-- An overlay that finds one setting stores it and does nothing else. -/
theorem overlay_single (cfg : Config) (name : Setting → Text) (s : Setting) (v : Text) :
    overlay cfg name (fun s' => if s' = s then some v else none) = s.store (name s) cfg v := by
  cases s <;> rfl

/-! ### Lines and the map -/

theorem lookup_parseIni (t k : Text) :
    (parseIni t).lookup k = lastValue k ((lines t).filterMap setting) := by
  refine lookup_foldl_insert (fun m line => ?_) (lines t) k
  cases setting line <;> rfl

/-! ### A line that holds a setting -/

theorem isWhitespace_of_mark {c : Char} (h : isCommentMark c = true) : isWhitespace c = false := by
  rcases Bool.or_eq_true_iff.mp h with h | h <;> rw [eq_of_beq h] <;> decide

/-- Only capital letters have another letter for their lowercase form in ASCII. -/
theorem toLower_eq_self {c : Char} (h : ¬ (65 ≤ c.toNat ∧ c.toNat ≤ 90)) : c.toLower = c := by
  refine Char.toLower_eq_of_not_isUpper fun hupper => h ?_
  simp only [Char.isUpper, decide_eq_true_eq] at hupper
  exact hupper

theorem beforeComment_append {w : Text} (hw : ∀ c ∈ w, isCommentMark c = false) (v : Text) :
    ∃ w', beforeComment (v ++ w) = beforeComment v ++ w' ∧ w' <+: w := by
  unfold beforeComment
  rw [List.takeWhile_append]
  split
  · rename_i hall
    have hv : v.takeWhile (fun c => !isCommentMark c) = v :=
      (List.takeWhile_prefix _).eq_of_length hall
    refine ⟨w, ?_, List.prefix_rfl⟩
    rw [hv, List.takeWhile_eq_self_iff.mpr fun c hc => by simp [hw c hc]]
  · exact ⟨[], (List.append_nil _).symm, List.nil_prefix⟩

/-- Blanks at the end of a value go, before its comment is cut or after. -/
theorem trim_beforeComment {p : Char → Bool} (hp : ∀ c, p c = true → isCommentMark c = false)
    (v : Text) : trim p (beforeComment (v.rdropWhile p)) = trim p (beforeComment v) := by
  have hw : ∀ c ∈ v.rtakeWhile p, p c = true := fun c hc => List.mem_rtakeWhile_imp hc
  obtain ⟨w', hcut, hw'⟩ := beforeComment_append (w := v.rtakeWhile p)
    (fun c hc => hp c (hw c hc)) (v.rdropWhile p)
  rw [List.rdropWhile_append_rtakeWhile] at hcut
  rw [hcut, trim_blanks_right fun c hc => hw c (hw'.mem hc)]

theorem marked_append {k w : Text} (hk : k ≠ []) : marked (k ++ w) = marked k := by
  cases k with
  | nil => exact absurd rfl hk
  | cons c k => rfl

/-- Whether a line is skipped shows in the trimmed key. -/
theorem marked_line (p : Char → Bool) (a r : Text) :
    marked (a.dropWhile p ++ '=' :: r) = marked (trim p a) := by
  obtain ⟨w, -, hdrop, hnil⟩ := exists_dropWhile p a
  rw [hdrop]
  by_cases hk : trim p a = []
  · rw [hk, hnil hk]
    rfl
  · rw [List.append_assoc, marked_append hk]

theorem setting_eq_none {line : Text} (h : '=' ∉ line) : setting line = none := by
  have hsplit : splitOnce '=' (trimBlanks line) = none :=
    splitOnce_eq_none.mpr fun hmem => h (mem_of_mem_trim hmem)
  unfold setting
  dsimp only
  split
  · rfl
  · rw [hsplit]
    rfl

/-- The setting in a line, from what stands before and behind its first sign. -/
theorem setting_line {a : Text} (ha : '=' ∉ a) (r : Text) :
    setting (a ++ '=' :: r) =
      if marked (trimBlanks a) then none
      else some (toAsciiLowercase (trimBlanks a), trimBlanks (beforeComment r)) := by
  have hnot : '=' ∉ a.dropWhile isWhitespace :=
    fun hmem => ha ((List.dropWhile_sublist _).mem hmem)
  have hmark : ∀ c, isWhitespace c = true → isCommentMark c = false := by
    intro c hc
    by_contra h
    rw [isWhitespace_of_mark (Bool.not_eq_false _ ▸ h)] at hc
    cases hc
  have hempty : (a.dropWhile isWhitespace ++ '=' :: r.rdropWhile isWhitespace).isEmpty = false := by
    simp
  rw [setting, trimBlanks, trim_append_cons (by decide), hempty, Bool.false_or, marked_line,
    splitOnce_append hnot, Option.map_some]
  simp only [trimBlanks, trim_dropWhile, trim_beforeComment hmark]
  rfl

/-- A line in front of whose end stands a carriage return. -/
theorem setting_dropCr (l : Text) : setting (dropCr l) = setting l := by
  unfold dropCr
  split
  · rename_i hlast
    have hline : l = l.dropLast ++ ['\r'] :=
      (List.dropLast_append_getLast? '\r' hlast).symm
    have htrim : trimBlanks l = trimBlanks l.dropLast := by
      conv_lhs => rw [hline]
      exact trim_blanks_right (List.all_iff_forall_prop.mp rfl) _
    rw [setting, setting, htrim]
  · rfl

end Kvasilloni.Configuration
