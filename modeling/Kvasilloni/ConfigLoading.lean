import Kvasilloni.EnvOverlay

/-!
The configuration as it is loaded. The INI text is that of the first candidate that can be
read; its settings go over the defaults and the environment over both. So each setting has
the first value that can be read as one of its kind, from the environment, the INI text or
the defaults, and each value that cannot be read is complained about, in this order.
-/
namespace Kvasilloni.ConfigLoading

open IpLiterals Reception Kvasilloni.Configuration EnvOverlay TextLines LastValue

/-! ### What is known of the machine -/

/-- What `Config::load` asks the system for. -/
structure Machine (π : Type) where
  env : Text → Option Text
  path : Text → π
  join : π → Text → π
  dllDir : Option π
  exeDir : Option π
  readToString : π → Option Text

variable {π : Type}

def explicitPath (m : Machine π) : Option π :=
  match m.env "KVASILLONI_INI".toList with
  | some p => if p.isEmpty then none else some (m.path p)
  | none => none

def candidates (m : Machine π) : List π :=
  (explicitPath m).toList ++
    (m.dllDir.map fun dir => m.join dir "kvasilloni.ini".toList).toList ++
    (m.exeDir.map fun dir => m.join dir "kvasilloni.ini".toList).toList

def findAndParseIni (m : Machine π) : Option (Map Text Text) :=
  (candidates m).findSome? fun c => (m.readToString c).map parseIni

def load (m : Machine π) : Config :=
  let cfg := Config.default
  let cfg := match findAndParseIni m with
    | some map => applyMap cfg map
    | none => cfg
  applyEnvWith cfg m.env

/-! ### The values of a setting -/

abbrev ValueOf : Setting → Type
  | .host => Text
  | .port | .localPort => UInt16
  | .proto | .tcpRole | .udpPortFallback | .peerCheck => Bool
  | .log => Option Text
  | .channels | .connectTimeout | .acceptTimeout => UInt32
  | .allow => List IpAddr

def valueOf : (s : Setting) → Config → ValueOf s
  | .host, cfg => cfg.host
  | .port, cfg => cfg.remotePort
  | .localPort, cfg => cfg.localPort
  | .proto, cfg => cfg.tcp
  | .tcpRole, cfg => cfg.tcpServer
  | .log, cfg => cfg.log
  | .channels, cfg => cfg.channels
  | .connectTimeout, cfg => cfg.connectTimeoutMs
  | .acceptTimeout, cfg => cfg.acceptTimeoutMs
  | .udpPortFallback, cfg => cfg.udpPortFallback
  | .peerCheck, cfg => cfg.peerCheck
  | .allow, cfg => cfg.allow

/-- The number in a text, if the text is one. -/
def readNum {α : Type} (parse : Text → Option α) (v : Text) : Option α :=
  if (trimBlanks v).isEmpty then none else parse (trimBlanks v)

/-- The value that a text stands for, if it can be read as one of this setting. -/
def readAs : (s : Setting) → Text → Option (ValueOf s)
  | .host, v => if (trimBlanks v).isEmpty then none else some v
  | .port, v => readNum parseU16 v
  | .localPort, v => readNum parseU16 v
  | .proto, v => some (startsWithCi v 't')
  | .tcpRole, v => some (startsWithCi v 's')
  | .log, v => if v.isEmpty then none else some (some v)
  | .channels, v => readNum parseU32 v
  | .connectTimeout, v => readNum parseU32 v
  | .acceptTimeout, v => readNum parseU32 v
  | .udpPortFallback, v => some (parseBool v)
  | .peerCheck, v => some (parseBool v)
  | .allow, v => some (parseIpList v)

/-- The warning about a number that is there and is none. -/
def badNum {α : Type} (parse : Text → Option α) (name v : Text) : Option Warning :=
  if (trimBlanks v).isEmpty then none
  else if (parse (trimBlanks v)).isSome then none else some (.invalid name v)

/-- The warning that a value of the setting comes to. -/
def complaint (s : Setting) (name v : Text) : Option Warning :=
  match s with
  | .host => if (trimBlanks v).isEmpty then some (.empty name) else none
  | .port | .localPort => badNum parseU16 name v
  | .channels | .connectTimeout | .acceptTimeout => badNum parseU32 name v
  | .proto | .tcpRole | .log | .udpPortFallback | .peerCheck | .allow => none

/-- The value that the INI text gives a setting: that of its last line. -/
def iniValue (m : Machine π) (s : Setting) : Option Text :=
  ((candidates m).findSome? m.readToString).bind fun text =>
    lastValue s.key ((lines text).filterMap setting)

/-! ### One setting -/

theorem same_iff (s : Setting) (a b : Config) : Same s a b ↔ valueOf s a = valueOf s b := by
  cases s <;> rfl

theorem get_store_other {s s' : Setting} (hs : s' ≠ s) (name : Text) (cfg : Config) (v : Text) :
    valueOf s' (s.store name cfg v) = valueOf s' cfg :=
  (same_iff s' _ _).mp (store_frame hs name cfg v)

/-- A number is stored where one can be read, and complained about where there is none. -/
theorem storeNum_eq {α : Type} (parse : Text → Option α) (set : Config → α → Config) (name : Text)
    (cfg : Config) (v : Text) : storeNum parse set name cfg v =
      match readNum parse v with
      | some n => set { cfg with warnings := cfg.warnings ++ (badNum parse name v).toList } n
      | none => { cfg with warnings := cfg.warnings ++ (badNum parse name v).toList } := by
  unfold storeNum parseNum readNum badNum
  by_cases hblank : (trimBlanks v).isEmpty = true
  · simp [hblank]
  · cases hparse : parse (trimBlanks v) with
    | none => simp [hblank, hparse]
    | some n => simp [hblank, hparse]

theorem get_store (s : Setting) (name : Text) (cfg : Config) (v : Text) :
    valueOf s (s.store name cfg v) = (readAs s v).getD (valueOf s cfg) := by
  cases s with
  | host =>
    simp only [Setting.store, storeHost, readAs]
    split <;> rfl
  | log =>
    simp only [Setting.store, storeLog, readAs]
    split <;> rfl
  | proto | tcpRole | udpPortFallback | peerCheck | allow => rfl
  | port | localPort | channels | connectTimeout | acceptTimeout =>
    simp only [Setting.store, storeNum_eq, readAs]
    split <;> simp_all [valueOf, setRemotePort, setLocalPort, setChannels,
      setConnectTimeoutMs, setAcceptTimeoutMs]

theorem warnings_store (s : Setting) (name : Text) (cfg : Config) (v : Text) :
    (s.store name cfg v).warnings = cfg.warnings ++ (complaint s name v).toList := by
  cases s with
  | host =>
    simp only [Setting.store, storeHost, complaint]
    split
    · rfl
    · exact (List.append_nil _).symm
  | log =>
    simp only [Setting.store, storeLog, complaint]
    split <;> exact (List.append_nil _).symm
  | proto | tcpRole | udpPortFallback | peerCheck | allow => exact (List.append_nil _).symm
  | port | localPort | channels | connectTimeout | acceptTimeout =>
    simp only [Setting.store, storeNum_eq, complaint]
    split <;> rfl

theorem valueOf_given (s : Setting) (name : Text) (cfg : Config) (v : Option Text) :
    valueOf s (cfg.given v (s.store name)) = (v.bind (readAs s)).getD (valueOf s cfg) := by
  cases v with
  | none => rfl
  | some v => exact get_store s name cfg v

theorem valueOf_given_other {s s' : Setting} (hs : s' ≠ s) (name : Text) (cfg : Config)
    (v : Option Text) : valueOf s' (cfg.given v (s.store name)) = valueOf s' cfg := by
  cases v with
  | none => rfl
  | some v => exact get_store_other hs name cfg v

theorem warnings_given (s : Setting) (name : Text) (cfg : Config) (v : Option Text) :
    (cfg.given v (s.store name)).warnings =
      cfg.warnings ++ (v.bind (complaint s name)).toList := by
  cases v with
  | none => exact (List.append_nil _).symm
  | some v => exact warnings_store s name cfg v

/-! ### An overlay -/

variable (name : Setting → Text) (find : Setting → Option Text)

theorem valueOf_fold {s : Setting} {l : List Setting} (hl : l.Nodup) (cfg : Config) :
    valueOf s (l.foldl (fun cfg s => cfg.given (find s) (s.store (name s))) cfg) =
      if s ∈ l then ((find s).bind (readAs s)).getD (valueOf s cfg) else valueOf s cfg := by
  induction l generalizing cfg with
  | nil => rfl
  | cons k l ih =>
    obtain ⟨hk, hrest⟩ := List.nodup_cons.mp hl
    rw [List.foldl_cons, ih hrest]
    by_cases hs : s = k
    · subst hs
      rw [if_neg hk, valueOf_given, if_pos (List.mem_cons_self ..)]
    · have hmem : s ∈ k :: l ↔ s ∈ l := by simp [hs]
      simp only [hmem, valueOf_given_other hs]

theorem warnings_fold (l : List Setting) (cfg : Config) :
    (l.foldl (fun cfg s => cfg.given (find s) (s.store (name s))) cfg).warnings =
      cfg.warnings ++ l.filterMap fun s => (find s).bind (complaint s (name s)) := by
  induction l generalizing cfg with
  | nil => exact (List.append_nil _).symm
  | cons k l ih =>
    rw [List.foldl_cons, ih, warnings_given, List.append_assoc, List.filterMap_cons]
    cases (find k).bind (complaint k (name k)) <;> rfl

theorem valueOf_overlay (s : Setting) (cfg : Config) :
    valueOf s (overlay cfg name find) = ((find s).bind (readAs s)).getD (valueOf s cfg) := by
  have hall : Setting.all.Nodup := by decide
  have hmem : s ∈ Setting.all := by cases s <;> decide
  exact (valueOf_fold name find hall cfg).trans (if_pos hmem)

theorem warnings_overlay (cfg : Config) :
    (overlay cfg name find).warnings =
      cfg.warnings ++ Setting.all.filterMap fun s => (find s).bind (complaint s (name s)) :=
  warnings_fold name find Setting.all cfg

/-! ### Loading -/

/-- The configuration before the environment is looked at. -/
def afterIni (m : Machine π) : Config :=
  match findAndParseIni m with
  | some map => applyMap Config.default map
  | none => Config.default

theorem findSome?_map {α β γ : Type} (l : List α) (f : α → Option β) (g : β → γ) :
    l.findSome? (fun a => (f a).map g) = (l.findSome? f).map g := by
  induction l with
  | nil => rfl
  | cons a l ih =>
    simp only [List.findSome?_cons, ih]
    cases f a <;> rfl

theorem afterIni_eq (m : Machine π) :
    afterIni m = overlay Config.default Setting.iniName (iniValue m) := by
  unfold afterIni findAndParseIni iniValue
  rw [findSome?_map]
  cases (candidates m).findSome? m.readToString with
  | none => rfl
  | some text =>
    simp only [Option.map_some, Option.bind_some]
    rw [applyMap_eq_overlay]
    simp only [lookup_parseIni]

theorem load_eq (m : Machine π) :
    load m = overlay (afterIni m) Setting.envVar fun s => m.env s.envVar :=
  applyEnvWith_eq_overlay (afterIni m) m.env

theorem valueOf_load (m : Machine π) (s : Setting) :
    valueOf s (load m) = (((m.env s.envVar).bind (readAs s)).or
      ((iniValue m s).bind (readAs s))).getD (valueOf s Config.default) := by
  rw [load_eq, valueOf_overlay, afterIni_eq, valueOf_overlay]
  cases (m.env s.envVar).bind (readAs s) <;> rfl

/-- A host that can be read has something in it besides blanks. -/
theorem readAs_host {v host : Text} (h : readAs .host v = some host) : trimBlanks host ≠ [] := by
  simp only [readAs] at h
  split at h
  · cases h
  next hblank =>
    obtain rfl := Option.some.inj h
    exact fun hnil => hblank (by rw [hnil]; rfl)

/-- Each setting has the first value that can be read as one of its kind: the one of the
environment, the last one of the INI text that was found, or the default. So the host is
never blank. The warnings are those of the INI text and then those of the environment, in
the order of the settings, one for each blank host and for each number that is none. -/
theorem load_layers (m : Machine π) :
    (∀ s, valueOf s (load m) = (((m.env s.envVar).bind (readAs s)).or
      ((iniValue m s).bind (readAs s))).getD (valueOf s Config.default)) ∧
    trimBlanks (load m).host ≠ [] ∧
    (load m).warnings =
      (Setting.all.filterMap fun s => (iniValue m s).bind (complaint s s.iniName)) ++
      Setting.all.filterMap fun s => (m.env s.envVar).bind (complaint s s.envVar) := by
  refine ⟨valueOf_load m, ?_, ?_⟩
  · have hhost : (load m).host = _ := valueOf_load m .host
    rw [hhost]
    cases hfound : ((m.env Setting.host.envVar).bind (readAs .host)).or
        ((iniValue m .host).bind (readAs .host)) with
    | none => decide
    | some host =>
      rcases Option.or_eq_some_iff.mp hfound with henv | ⟨-, hini⟩
      · obtain ⟨v, -, hv⟩ := Option.bind_eq_some_iff.mp henv
        exact readAs_host hv
      · obtain ⟨v, -, hv⟩ := Option.bind_eq_some_iff.mp hini
        exact readAs_host hv
  · rw [load_eq, warnings_overlay, afterIni_eq, warnings_overlay]
    rfl

end Kvasilloni.ConfigLoading
