import Kvasilloni.Library.StepSystem
import Mathlib.Logic.Function.Basic
import Mathlib.Data.List.Basic

/-!
The bridge tool: two pump threads that carry the frames of one SocketCAN interface to the
other and back. A frame that is sent on an interface reaches every socket that is bound to
it but the one it was sent through, and that socket is also the one the other pump of the
bridge reads. Any number of bridges run beside one another; every frame that a pump has
got is sent on once, counted as an error, or still held.
-/
namespace Kvasilloni.CanBridge

open StepSystem

/-! ### The health of a direction -/

/-- What a direction logs about itself. -/
inductive Notice
  | receiveError (exc : String)
  | receiveRecovered
  | sendError (exc : String)
  | sendRecovered
  | fatal (exc : String)
  deriving DecidableEq

def Notice.text : Notice → String
  | .receiveError exc => "receive error: " ++ exc ++ " (suppressing until recovery)"
  | .receiveRecovered => "receive recovered"
  | .sendError exc =>
    "send error, frame dropped: " ++ exc ++ " (suppressing until recovery)"
  | .sendRecovered => "send recovered"
  | .fatal exc => "FATAL, direction stopped: " ++ exc

structure Direction where
  name : String
  forwarded : ℕ
  txErrors : ℕ
  rxErrors : ℕ
  rxHealthy : Bool
  txHealthy : Bool
  logged : List Notice
  deriving DecidableEq

/-- `Direction(name)`. -/
def Direction.new (name : String) : Direction := ⟨name, 0, 0, 0, true, true, []⟩

def Direction.log (d : Direction) (n : Notice) : Direction := { d with logged := d.logged ++ [n] }

/-- The lines on standard error. -/
def Direction.lines (d : Direction) : List String :=
  d.logged.map fun n => d.name ++ ": " ++ n.text

def Direction.noteRxOk (d : Direction) : Direction :=
  if d.rxHealthy then d else { d.log .receiveRecovered with rxHealthy := true }

def Direction.noteRxError (d : Direction) (exc : String) : Direction :=
  if d.rxHealthy then
    { d.log (.receiveError exc) with rxErrors := d.rxErrors + 1, rxHealthy := false }
  else { d with rxErrors := d.rxErrors + 1 }

/-- `d.forwarded += 1`. -/
def Direction.count (d : Direction) : Direction := { d with forwarded := d.forwarded + 1 }

def Direction.noteTxOk (d : Direction) : Direction :=
  if d.txHealthy then d else { d.log .sendRecovered with txHealthy := true }

def Direction.noteTxError (d : Direction) (exc : String) : Direction :=
  if d.txHealthy then
    { d.log (.sendError exc) with txErrors := d.txErrors + 1, txHealthy := false }
  else { d with txErrors := d.txErrors + 1 }

/-! ### One pump -/

variable {μ : Type}

/-- Where a pump stands. One that an unexpected exception has ended may have had a frame in
its hands. -/
inductive Point (μ : Type)
  | test
  | recv
  | backOff
  | send (msg : μ)
  | ended (held : Option μ)
  deriving DecidableEq

/-- A pump with the socket that it reads: what the kernel keeps for it, and how many frames
the socket has missed, because its buffer was full or because it takes no FD frames. -/
structure Pump (μ : Type) where
  queue : List μ
  missed : ℕ
  point : Point μ
  direction : Direction
  deriving DecidableEq

/-- The next thing that happens in the loop of a pump. -/
inductive Act
  | test
  | recv
  | recvNone
  | recvFails (exc : String)
  | wake
  | send
  | sendFails (exc : String)
  | raises (exc : String)
  deriving DecidableEq

def Pump.die (p : Pump μ) (held : Option μ) (exc : String) : Pump μ :=
  { p with point := .ended held, direction := p.direction.log (.fatal exc) }

/-- A pump goes on, and what it sends. -/
def Pump.step (stop : Bool) (p : Pump μ) (act : Act) : Option (Pump μ × Option μ) :=
  match p.point, act with
  | .test, .test =>
    some ({ p with point := if stop then .ended none else .recv }, none)
  | .recv, .recv =>
    match p.queue with
    | [] => none
    | msg :: rest =>
      some ({ p with
        queue := rest
        point := .send msg
        direction := p.direction.noteRxOk }, none)
  | .recv, .recvNone =>
    some ({ p with point := .test, direction := p.direction.noteRxOk }, none)
  | .recv, .recvFails exc =>
    some ({ p with point := .backOff, direction := p.direction.noteRxError exc }, none)
  | .recv, .raises exc => some (p.die none exc, none)
  | .backOff, .wake => some ({ p with point := .test }, none)
  | .send msg, .send =>
    some ({ p with point := .test, direction := p.direction.count.noteTxOk }, some msg)
  | .send _, .sendFails exc =>
    some ({ p with point := .test, direction := p.direction.noteTxError exc }, none)
  | .send msg, .raises exc => some (p.die (some msg) exc, none)
  | _, _ => none

/-- A frame comes in on the interface. -/
def Pump.arrive (p : Pump μ) (m : μ) (isLost : Bool) : Pump μ :=
  if isLost then { p with missed := p.missed + 1 } else { p with queue := p.queue ++ [m] }

/-! ### Bridges and interfaces -/

/-- The two interfaces of a bridge; `main` turns away an interface bridged to itself. -/
structure Bridge where
  ifaceA : String
  ifaceB : String
  differ : ifaceA ≠ ifaceB

variable {κ : Type}

/-- The pumps of all bridges: `false` is the one from `ifaceA` to `ifaceB`. -/
abbrev PumpId (κ : Type) := κ × Bool

/-- The other pump of the bridge, which sends through the socket that this one reads. -/
def back (d : PumpId κ) : PumpId κ := (d.1, !d.2)

def src (bridges : κ → Bridge) (d : PumpId κ) : String :=
  if d.2 then (bridges d.1).ifaceB else (bridges d.1).ifaceA

def dst (bridges : κ → Bridge) (d : PumpId κ) : String := src bridges (back d)

theorem src_ne_dst (bridges : κ → Bridge) (d : PumpId κ) : src bridges d ≠ dst bridges d := by
  obtain ⟨k, flipped⟩ := d
  cases flipped with
  | false => exact (bridges k).differ
  | true => exact (bridges k).differ.symm

@[simp] theorem back_back (d : PumpId κ) : back (back d) = d := by
  simp [back]

/-- Every frame of an interface with its sender (`none` for a socket of no bridge), the stop
event of every bridge, and the pumps. -/
structure System (κ μ : Type) where
  wire : String → List (Option (PumpId κ) × μ)
  stop : κ → Bool
  pump : PumpId κ → Pump μ

/-- A pump hears what is sent on its interface, unless it was sent through its own socket
(`receive_own_messages=False`). -/
def Hears (bridges : κ → Bridge) (sender : Option (PumpId κ)) (iface : String) (d : PumpId κ) :
    Prop :=
  src bridges d = iface ∧ sender ≠ some (back d)

variable [DecidableEq κ]

def setPump (s : System κ μ) (d : PumpId κ) (p : Pump μ) : System κ μ :=
  { s with pump := Function.update s.pump d p }

@[simp] theorem setPump_stop (s : System κ μ) (d : PumpId κ) (p : Pump μ) :
    (setPump s d p).stop = s.stop := rfl

@[simp] theorem setPump_pump (s : System κ μ) (d : PumpId κ) (p : Pump μ) :
    (setPump s d p).pump = Function.update s.pump d p := rfl

instance (bridges : κ → Bridge) (sender : Option (PumpId κ)) (iface : String) (d : PumpId κ) :
    Decidable (Hears bridges sender iface d) :=
  inferInstanceAs (Decidable (_ ∧ _))

/-- A frame goes out on an interface; the pumps in `lost` would hear it but miss it. -/
def transmit (bridges : κ → Bridge) (s : System κ μ) (sender : Option (PumpId κ))
    (iface : String) (m : μ) (lost : List (PumpId κ)) : System κ μ :=
  { s with
    wire := Function.update s.wire iface (s.wire iface ++ [(sender, m)])
    pump := fun d =>
      if Hears bridges sender iface d then (s.pump d).arrive m (decide (d ∈ lost))
      else s.pump d }

inductive Label (κ μ : Type)
  | app (iface : String) (m : μ) (lost : List (PumpId κ))
  | signal (k : κ)
  | pump (d : PumpId κ) (act : Act) (lost : List (PumpId κ))

def step (bridges : κ → Bridge) (s : System κ μ) : Label κ μ → Option (System κ μ)
  | .app iface m lost => some (transmit bridges s none iface m lost)
  | .signal k => some { s with stop := Function.update s.stop k true }
  | .pump d act lost =>
    ((s.pump d).step (s.stop d.1) act).map fun ps =>
      match ps.2 with
      | none => setPump s d ps.1
      | some m => transmit bridges (setPump s d ps.1) (some d) (dst bridges d) m lost

/-- Every bridge as `main` starts it. -/
def start (bridges : κ → Bridge) : System κ μ where
  wire := fun _ => []
  stop := fun _ => false
  pump := fun d => ⟨[], 0, .test, .new (src bridges d ++ "->" ++ dst bridges d)⟩

/-! ### What a pump has got and what has become of it -/

/-- The frame in the hands of a pump. -/
def Pump.inHand (p : Pump μ) : List μ :=
  match p.point with
  | .send msg => [msg]
  | .ended (some msg) => [msg]
  | _ => []

/-- What the other sockets of the interface have sent. -/
def heard (bridges : κ → Bridge) (s : System κ μ) (d : PumpId κ) : List μ :=
  ((s.wire (src bridges d)).filter fun sent => sent.1 ≠ some (back d)).map Prod.snd

/-- What the pump has sent on its other interface. -/
def forwardedBy (bridges : κ → Bridge) (s : System κ μ) (d : PumpId κ) : List μ :=
  ((s.wire (dst bridges d)).filter fun sent => sent.1 = some d).map Prod.snd

/-- The health that the lines of one kind end in, or `none` where two of them in a row say
the same. -/
def healthAfter (edge : Notice → Option Bool) (healthy : Bool) : List Notice → Option Bool
  | [] => some healthy
  | n :: rest =>
    match edge n with
    | none => healthAfter edge healthy rest
    | some now => if now = healthy then none else healthAfter edge now rest

def rxEdge : Notice → Option Bool
  | .receiveError _ => some false
  | .receiveRecovered => some true
  | _ => none

def txEdge : Notice → Option Bool
  | .sendError _ => some false
  | .sendRecovered => some true
  | _ => none

/-- A direction logs an error or a recovery only where its health changes. -/
structure EdgesLogged (d : Direction) : Prop where
  rx : healthAfter rxEdge true d.logged = some d.rxHealthy
  tx : healthAfter txEdge true d.logged = some d.txHealthy

/-- The pump goes on until it is told to stop or an exception that is no CAN error ends it. -/
def Alive (stop : Bool) (p : Pump μ) : Prop :=
  (∃ held, p.point = .ended held) → stop = true ∨ ∃ exc, .fatal exc ∈ p.direction.logged

structure Accounts (stop : Bool) (p : Pump μ) (heard forwarded : List μ) : Prop where
  order : (forwarded ++ p.inHand ++ p.queue).Sublist heard
  forwarded : p.direction.forwarded = forwarded.length
  balance : p.direction.forwarded + p.direction.txErrors + p.missed + p.inHand.length +
    p.queue.length = heard.length
  alive : Alive stop p
  edges : EdgesLogged p.direction

/-! ### The health log -/

theorem healthAfter_append (edge : Notice → Option Bool) (healthy : Bool) (ns ks : List Notice) :
    healthAfter edge healthy (ns ++ ks) =
      (healthAfter edge healthy ns).bind fun now => healthAfter edge now ks := by
  induction ns generalizing healthy with
  | nil => rfl
  | cons n ns ih =>
    simp only [List.cons_append, healthAfter]
    cases edge n with
    | none => exact ih healthy
    | some now =>
      by_cases hsame : now = healthy
      · simp [hsame]
      · simpa [hsame] using ih now

/-- A line of the other kind says nothing about this health. -/
theorem healthAfter_log_other {edge : Notice → Option Bool} {d : Direction} {n : Notice}
    (hn : edge n = none) :
    healthAfter edge true (d.log n).logged = healthAfter edge true d.logged := by
  unfold Direction.log
  rw [healthAfter_append]
  cases healthAfter edge true d.logged with
  | none => rfl
  | some now => simp [healthAfter, hn]

theorem healthAfter_log {edge : Notice → Option Bool} {d : Direction} {n : Notice} {was now : Bool}
    (h : healthAfter edge true d.logged = some was) (hn : edge n = some now) (hedge : now ≠ was) :
    healthAfter edge true (d.log n).logged = some now := by
  unfold Direction.log
  rw [healthAfter_append, h]
  simp [healthAfter, hn, hedge]

theorem Direction.new_edges (name : String) : EdgesLogged (.new name) := ⟨rfl, rfl⟩

theorem EdgesLogged.noteRxOk {d : Direction} (h : EdgesLogged d) : EdgesLogged d.noteRxOk := by
  unfold Direction.noteRxOk
  split
  · exact h
  next hwas =>
    have hrx := h.rx.trans (congrArg some (Bool.not_eq_true _ ▸ hwas : d.rxHealthy = false))
    exact ⟨healthAfter_log hrx rfl Bool.noConfusion, (healthAfter_log_other rfl).trans h.tx⟩

theorem EdgesLogged.noteRxError {d : Direction} (h : EdgesLogged d) (exc : String) :
    EdgesLogged (d.noteRxError exc) := by
  unfold Direction.noteRxError
  split
  next hwas =>
    have hrx := h.rx.trans (congrArg some hwas)
    exact ⟨healthAfter_log hrx rfl Bool.noConfusion, (healthAfter_log_other rfl).trans h.tx⟩
  · exact ⟨h.rx, h.tx⟩

theorem EdgesLogged.noteTxOk {d : Direction} (h : EdgesLogged d) : EdgesLogged d.noteTxOk := by
  unfold Direction.noteTxOk
  split
  · exact h
  next hwas =>
    have htx := h.tx.trans (congrArg some (Bool.not_eq_true _ ▸ hwas : d.txHealthy = false))
    exact ⟨(healthAfter_log_other rfl).trans h.rx, healthAfter_log htx rfl Bool.noConfusion⟩

theorem EdgesLogged.noteTxError {d : Direction} (h : EdgesLogged d) (exc : String) :
    EdgesLogged (d.noteTxError exc) := by
  unfold Direction.noteTxError
  split
  next hwas =>
    have htx := h.tx.trans (congrArg some hwas)
    exact ⟨(healthAfter_log_other rfl).trans h.rx, healthAfter_log htx rfl Bool.noConfusion⟩
  · exact ⟨h.rx, h.tx⟩

theorem EdgesLogged.fatal {d : Direction} (h : EdgesLogged d) (exc : String) :
    EdgesLogged (d.log (.fatal exc)) :=
  ⟨(healthAfter_log_other rfl).trans h.rx, (healthAfter_log_other rfl).trans h.tx⟩

@[simp] theorem count_forwarded (d : Direction) : d.count.forwarded = d.forwarded + 1 := rfl

@[simp] theorem count_txErrors (d : Direction) : d.count.txErrors = d.txErrors := rfl

@[simp] theorem noteRxOk_forwarded (d : Direction) : d.noteRxOk.forwarded = d.forwarded := by
  unfold Direction.noteRxOk
  split <;> rfl

@[simp] theorem noteRxOk_txErrors (d : Direction) : d.noteRxOk.txErrors = d.txErrors := by
  unfold Direction.noteRxOk
  split <;> rfl

@[simp] theorem noteRxError_forwarded (d : Direction) (exc : String) :
    (d.noteRxError exc).forwarded = d.forwarded := by
  unfold Direction.noteRxError
  split <;> rfl

@[simp] theorem noteRxError_txErrors (d : Direction) (exc : String) :
    (d.noteRxError exc).txErrors = d.txErrors := by
  unfold Direction.noteRxError
  split <;> rfl

@[simp] theorem noteTxOk_forwarded (d : Direction) : d.noteTxOk.forwarded = d.forwarded := by
  unfold Direction.noteTxOk
  split <;> rfl

@[simp] theorem noteTxOk_txErrors (d : Direction) : d.noteTxOk.txErrors = d.txErrors := by
  unfold Direction.noteTxOk
  split <;> rfl

@[simp] theorem noteTxError_forwarded (d : Direction) (exc : String) :
    (d.noteTxError exc).forwarded = d.forwarded := by
  unfold Direction.noteTxError
  split <;> rfl

@[simp] theorem noteTxError_txErrors (d : Direction) (exc : String) :
    (d.noteTxError exc).txErrors = d.txErrors + 1 := by
  unfold Direction.noteTxError
  split <;> rfl

/-! ### One step of a pump -/

/-- The turns of a pump. -/
inductive Turn (stop : Bool) (p : Pump μ) : Act → Pump μ → Option μ → Prop
  | halt (hpoint : p.point = .test) (hstop : stop = true) :
      Turn stop p .test { p with point := .ended none } none
  | listen (hpoint : p.point = .test) (hstop : stop = false) :
      Turn stop p .test { p with point := .recv } none
  | recv (m : μ) (rest : List μ) (hpoint : p.point = .recv) (hqueue : p.queue = m :: rest) :
      Turn stop p .recv { p with
        queue := rest
        point := .send m
        direction := p.direction.noteRxOk } none
  | recvNone (hpoint : p.point = .recv) :
      Turn stop p .recvNone { p with point := .test, direction := p.direction.noteRxOk } none
  | recvFails (exc : String) (hpoint : p.point = .recv) :
      Turn stop p (.recvFails exc)
        { p with point := .backOff, direction := p.direction.noteRxError exc } none
  | recvRaises (exc : String) (hpoint : p.point = .recv) :
      Turn stop p (.raises exc) (p.die none exc) none
  | wake (hpoint : p.point = .backOff) : Turn stop p .wake { p with point := .test } none
  | send (m : μ) (hpoint : p.point = .send m) :
      Turn stop p .send
        { p with point := .test, direction := p.direction.count.noteTxOk } (some m)
  | sendFails (m : μ) (exc : String) (hpoint : p.point = .send m) :
      Turn stop p (.sendFails exc)
        { p with point := .test, direction := p.direction.noteTxError exc } none
  | sendRaises (m : μ) (exc : String) (hpoint : p.point = .send m) :
      Turn stop p (.raises exc) (p.die (some m) exc) none

theorem step_turn {stop : Bool} {p p' : Pump μ} {act : Act} {sent : Option μ}
    (h : p.step stop act = some (p', sent)) : Turn stop p act p' sent := by
  cases hpoint : p.point with
  | test =>
    cases act with
    | test =>
      simp only [Pump.step, hpoint] at h
      obtain ⟨rfl, rfl⟩ := Prod.mk.inj (Option.some.inj h)
      cases stop with
      | false => exact .listen hpoint rfl
      | true => exact .halt hpoint rfl
    | _ => simp [Pump.step, hpoint] at h
  | recv =>
    cases act with
    | recv =>
      cases hqueue : p.queue with
      | nil => simp [Pump.step, hpoint, hqueue] at h
      | cons m rest =>
        simp only [Pump.step, hpoint, hqueue] at h
        obtain ⟨rfl, rfl⟩ := Prod.mk.inj (Option.some.inj h)
        exact .recv m rest hpoint hqueue
    | recvNone | recvFails exc | raises exc =>
      simp only [Pump.step, hpoint] at h
      obtain ⟨rfl, rfl⟩ := Prod.mk.inj (Option.some.inj h)
      first
      | exact .recvNone hpoint
      | exact .recvFails exc hpoint
      | exact .recvRaises exc hpoint
    | _ => simp [Pump.step, hpoint] at h
  | backOff =>
    cases act with
    | wake =>
      simp only [Pump.step, hpoint] at h
      obtain ⟨rfl, rfl⟩ := Prod.mk.inj (Option.some.inj h)
      exact .wake hpoint
    | _ => simp [Pump.step, hpoint] at h
  | send m =>
    cases act with
    | send | sendFails exc | raises exc =>
      simp only [Pump.step, hpoint] at h
      obtain ⟨rfl, rfl⟩ := Prod.mk.inj (Option.some.inj h)
      first
      | exact .send m hpoint
      | exact .sendFails m exc hpoint
      | exact .sendRaises m exc hpoint
    | _ => simp [Pump.step, hpoint] at h
  | ended held => cases act <;> simp [Pump.step, hpoint] at h

/-- What a step of a pump makes of the frames that it holds and of its counters. -/
structure Moves (stop : Bool) (p p' : Pump μ) (sent : Option μ) : Prop where
  order : (sent.toList ++ p'.inHand ++ p'.queue).Sublist (p.inHand ++ p.queue)
  forwarded : p'.direction.forwarded = p.direction.forwarded + sent.toList.length
  balance : p'.direction.forwarded + p'.direction.txErrors + p'.inHand.length + p'.queue.length =
    p.direction.forwarded + p.direction.txErrors + p.inHand.length + p.queue.length
  missed : p'.missed = p.missed
  alive : Alive stop p'
  edges : EdgesLogged p.direction → EdgesLogged p'.direction

theorem alive_of_going {stop : Bool} {p : Pump μ} (h : ∀ held, p.point ≠ .ended held) :
    Alive stop p :=
  fun ⟨held, hheld⟩ => absurd hheld (h held)

theorem die_alive (stop : Bool) (p : Pump μ) (held : Option μ) (exc : String) :
    Alive stop (p.die held exc) :=
  fun _ => Or.inr ⟨exc, List.mem_append_right _ (List.mem_singleton.mpr rfl)⟩

theorem step_moves {stop : Bool} {p p' : Pump μ} {act : Act} {sent : Option μ}
    (h : p.step stop act = some (p', sent)) : Moves stop p p' sent := by
  cases step_turn h with
  | halt hpoint hstop =>
    have hhand : p.inHand = [] := by simp only [Pump.inHand, hpoint]
    exact ⟨by rw [hhand]; exact .refl _, rfl, by rw [hhand]; rfl, rfl, fun _ => Or.inl hstop, id⟩
  | listen hpoint | wake hpoint =>
    have hhand : p.inHand = [] := by simp only [Pump.inHand, hpoint]
    exact ⟨by rw [hhand]; exact .refl _, rfl, by rw [hhand]; rfl, rfl, alive_of_going (by simp),
      id⟩
  | recv m rest hpoint hqueue =>
    have hhand : p.inHand = [] := by simp only [Pump.inHand, hpoint]
    refine ⟨by rw [hhand, hqueue]; exact .refl _, by simp, ?_, rfl, alive_of_going (by simp),
      EdgesLogged.noteRxOk⟩
    rw [hhand, hqueue]
    simp [Pump.inHand]
    omega
  | recvNone hpoint =>
    have hhand : p.inHand = [] := by simp only [Pump.inHand, hpoint]
    exact ⟨by rw [hhand]; exact .refl _, by simp, by rw [hhand]; simp [Pump.inHand], rfl,
      alive_of_going (by simp), EdgesLogged.noteRxOk⟩
  | recvFails exc hpoint =>
    have hhand : p.inHand = [] := by simp only [Pump.inHand, hpoint]
    exact ⟨by rw [hhand]; exact .refl _, by simp, by rw [hhand]; simp [Pump.inHand], rfl,
      alive_of_going (by simp), fun hedges => hedges.noteRxError exc⟩
  | recvRaises exc hpoint =>
    have hhand : p.inHand = [] := by simp only [Pump.inHand, hpoint]
    exact ⟨by rw [hhand]; exact .refl _, rfl, by rw [hhand]; rfl, rfl, die_alive _ _ _ _,
      fun hedges => hedges.fatal exc⟩
  | send m hpoint =>
    have hhand : p.inHand = [m] := by simp only [Pump.inHand, hpoint]
    refine ⟨by rw [hhand]; exact .refl _, by simp, ?_, rfl, alive_of_going (by simp),
      fun hedges => EdgesLogged.noteTxOk ⟨hedges.rx, hedges.tx⟩⟩
    rw [hhand]
    simp [Pump.inHand]
    omega
  | sendFails m exc hpoint =>
    have hhand : p.inHand = [m] := by simp only [Pump.inHand, hpoint]
    refine ⟨by rw [hhand]; exact List.sublist_cons_self _ _, by simp, ?_, rfl,
      alive_of_going (by simp), fun hedges => hedges.noteTxError exc⟩
    rw [hhand]
    simp [Pump.inHand]
    omega
  | sendRaises m exc hpoint =>
    have hhand : p.inHand = [m] := by simp only [Pump.inHand, hpoint]
    exact ⟨by rw [hhand]; exact .refl _, rfl, by rw [hhand]; rfl, rfl, die_alive _ _ _ _,
      fun hedges => hedges.fatal exc⟩

theorem Accounts.step {stop : Bool} {p p' : Pump μ} {heard forwarded : List μ} {act : Act}
    {sent : Option μ} (h : Accounts stop p heard forwarded)
    (hstep : p.step stop act = some (p', sent)) :
    Accounts stop p' heard (forwarded ++ sent.toList) := by
  have hmoves := step_moves hstep
  have hforwarded := hmoves.forwarded
  have hbalance := hmoves.balance
  have hmissed := hmoves.missed
  have hold := h.balance
  refine ⟨?_, ?_, ?_, hmoves.alive, hmoves.edges h.edges⟩
  · have horder := h.order
    rw [List.append_assoc] at horder
    rw [List.append_assoc, List.append_assoc, ← List.append_assoc sent.toList]
    exact ((List.append_sublist_append_left forwarded).mpr hmoves.order).trans horder
  · rw [List.length_append, ← h.forwarded]
    exact hforwarded
  · omega

theorem Accounts.arrive {stop : Bool} {p : Pump μ} {heard forwarded : List μ}
    (h : Accounts stop p heard forwarded) (m : μ) (isLost : Bool) :
    Accounts stop (p.arrive m isLost) (heard ++ [m]) forwarded := by
  have hbalance := h.balance
  cases isLost with
  | true =>
    refine ⟨h.order.trans (List.sublist_append_left _ _), h.forwarded, ?_, h.alive, h.edges⟩
    have hhand : (p.arrive m true).inHand = p.inHand := rfl
    rw [hhand, List.length_append]
    simp only [Pump.arrive, if_true, List.length_singleton]
    omega
  | false =>
    have hhand : (p.arrive m false).inHand = p.inHand := rfl
    have hqueue : (p.arrive m false).queue = p.queue ++ [m] := rfl
    refine ⟨?_, h.forwarded, ?_, h.alive, h.edges⟩
    · rw [hhand, hqueue, ← List.append_assoc]
      exact h.order.append_right [m]
    · rw [hhand, hqueue, List.length_append, List.length_append]
      simp only [Pump.arrive, Bool.false_eq_true, if_false, List.length_singleton]
      omega

/-! ### Runs -/

variable {bridges : κ → Bridge}

@[simp] theorem arrive_point (p : Pump μ) (m : μ) (isLost : Bool) :
    (p.arrive m isLost).point = p.point := by
  cases isLost <;> rfl

/-- What arrives on its interface does not move a pump. -/
@[simp] theorem transmit_point (s : System κ μ) (sender : Option (PumpId κ)) (iface : String)
    (m : μ) (lost : List (PumpId κ)) (d : PumpId κ) :
    ((transmit bridges s sender iface m lost).pump d).point = (s.pump d).point := by
  unfold transmit
  by_cases hhears : Hears bridges sender iface d <;> simp [hhears]

@[simp] theorem heard_setPump (s : System κ μ) (d e : PumpId κ) (p : Pump μ) :
    heard bridges (setPump s d p) e = heard bridges s e := rfl

@[simp] theorem forwardedBy_setPump (s : System κ μ) (d e : PumpId κ) (p : Pump μ) :
    forwardedBy bridges (setPump s d p) e = forwardedBy bridges s e := rfl

theorem heard_transmit (s : System κ μ) (sender : Option (PumpId κ)) (iface : String) (m : μ)
    (lost : List (PumpId κ)) (d : PumpId κ) :
    heard bridges (transmit bridges s sender iface m lost) d =
      heard bridges s d ++ if Hears bridges sender iface d then [m] else [] := by
  unfold heard transmit Hears
  by_cases hiface : src bridges d = iface
  · subst hiface
    by_cases hown : sender = some (back d) <;> simp [hown]
  · simp [hiface]

theorem forwardedBy_transmit (s : System κ μ) (sender : Option (PumpId κ)) (iface : String)
    (m : μ) (lost : List (PumpId κ)) (d : PumpId κ) :
    forwardedBy bridges (transmit bridges s sender iface m lost) d =
      forwardedBy bridges s d ++
        if dst bridges d = iface ∧ sender = some d then [m] else [] := by
  unfold forwardedBy transmit
  by_cases hiface : dst bridges d = iface
  · subst hiface
    by_cases hown : sender = some d <;> simp [hown]
  · simp [hiface]

/-- The books of every pump are in order. -/
def Inv (bridges : κ → Bridge) (s : System κ μ) : Prop :=
  ∀ d, Accounts (s.stop d.1) (s.pump d) (heard bridges s d) (forwardedBy bridges s d)

theorem start_inv (bridges : κ → Bridge) : Inv bridges (start bridges : System κ μ) := by
  intro d
  exact ⟨List.nil_sublist _, rfl, rfl, alive_of_going (by simp [start]), Direction.new_edges _⟩

/-- A frame goes out whose sender has counted it already. -/
theorem transmit_inv {s : System κ μ} {sender : Option (PumpId κ)} {iface : String} {m : μ}
    (lost : List (PumpId κ))
    (h : ∀ d, Accounts (s.stop d.1) (s.pump d) (heard bridges s d)
      (forwardedBy bridges s d ++ if dst bridges d = iface ∧ sender = some d then [m] else [])) :
    Inv bridges (transmit bridges s sender iface m lost) := by
  intro d
  rw [heard_transmit, forwardedBy_transmit]
  by_cases hhears : Hears bridges sender iface d
  · simpa [transmit, hhears] using (h d).arrive m (decide (d ∈ lost))
  · simpa [transmit, hhears] using h d

theorem Accounts.mono {stop stop' : Bool} {p : Pump μ} {heard forwarded : List μ}
    (h : Accounts stop p heard forwarded) (hstop : stop = true → stop' = true) :
    Accounts stop' p heard forwarded :=
  ⟨h.order, h.forwarded, h.balance, fun hended => (h.alive hended).imp_left hstop, h.edges⟩

theorem step_inv (bridges : κ → Bridge) {s s' : System κ μ} {l : Label κ μ}
    (h : Inv bridges s) (hstep : step bridges s l = some s') : Inv bridges s' := by
  cases l with
  | app iface m lost =>
    obtain rfl := Option.some.inj hstep
    exact transmit_inv lost fun d => by simpa using h d
  | signal k =>
    obtain rfl := Option.some.inj hstep
    intro d
    refine (h d).mono fun hstop => ?_
    by_cases hk : d.1 = k
    · simp [hk]
    · simpa [hk] using hstop
  | pump d act lost =>
    obtain ⟨⟨p, sent⟩, hpump, hs'⟩ := Option.map_eq_some_iff.mp hstep
    have hgo : ∀ e, Accounts ((setPump s d p).stop e.1) ((setPump s d p).pump e)
        (heard bridges (setPump s d p) e)
        (forwardedBy bridges (setPump s d p) e ++ if e = d then sent.toList else []) := by
      intro e
      by_cases he : e = d
      · subst he
        simpa using (h e).step hpump
      · simpa [he] using h e
    cases sent with
    | none =>
      obtain rfl := hs'
      intro e
      simpa using hgo e
    | some m =>
      obtain rfl := hs'
      refine transmit_inv lost fun e => ?_
      by_cases he : e = d
      · subst he
        simpa using hgo e
      · simpa [he, Ne.symm he] using hgo e

theorem run_inv {bridges : κ → Bridge} {ls : List (Label κ μ)} {t : System κ μ}
    (h : run (step bridges) (start bridges) ls = some t) : Inv bridges t :=
  run_invariant (fun _ _ _ => step_inv bridges) (start_inv bridges) h

/-- One bridge gets two frames; the first send fails. -/
def oneBridge : Unit → Bridge := fun _ => ⟨"vcan0", "vcan1", by decide⟩

end Kvasilloni.CanBridge
