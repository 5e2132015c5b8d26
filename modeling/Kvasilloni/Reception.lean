import Kvasilloni.Datagrams
import Kvasilloni.Streams
import Kvasilloni.Marshal
import Kvasilloni.SharedRing

/-!
One open channel with its RX thread and the API calls on it. The RX thread moves from
the head of its loop to a receive, hands the decoded frames to `push` one by one, and
stands inside the callback while that runs. An API call first looks the handle up and
acts later, on the connection it found, so calls of several threads interleave with each
other and with the RX thread. Received bytes, reads, callback calls and returned closes
are recorded, and that the socket has been shut down.
-/
namespace Kvasilloni.Reception

open CheckedMemory Frames Datagrams Streams Marshal SharedRing

inductive Transport
  | udp
  | tcp
  deriving DecidableEq

inductive IpAddr
  | v4 (addr : UInt32)
  | v6 (high low : UInt64)
  deriving DecidableEq

/-- What is fixed when the channel is opened. -/
structure Setup where
  transport : Transport
  fdCapable : Bool
  allow : List IpAddr
  peerCheck : Bool

/-- A classic UDP channel that checks no peers. -/
def openUdp : Setup := ⟨.udp, false, [], false⟩

def peerAllowed (source : IpAddr) (allow : List IpAddr) (check : Bool) : Bool :=
  !check || allow.any fun a => a == source

/-- Where the RX thread stands; a batch holds the frames it has still to push. -/
inductive RxPc
  | head
  | receiving
  | ingesting (batch : List Frame)
  | filtered (f : Frame) (batch : List Frame)
  | queued (f : Frame) (batch : List Frame)
  | inCallback (batch : List Frame)
  | stopped
  deriving DecidableEq

/-- The received frames that have not been pushed yet. -/
def RxPc.unpushed : RxPc → List Frame
  | .ingesting batch => batch
  | .filtered f batch => f :: batch
  | .queued _ batch => batch
  | .inCallback batch => batch
  | .head | .receiving | .stopped => []

/-- A call is issued by a thread of the app or, on the RX thread, by the callback. -/
inductive Caller
  | app
  | callback
  deriving DecidableEq

inductive Request
  | read (out : ReadArgs)
  | readWait (out : ReadArgs)
  | readSync
  | flush
  | accept (flag envelope : UInt32)
  | setNotify (n : Notify)
  deriving DecidableEq

/-- The statements of `Conn::close`, in their order. -/
inductive CloseStage
  | running
  | negotiated
  | markClosed
  | shutdown
  | takeHandle
  | join
  deriving DecidableEq

/-- A call that has found the connection and not returned yet. -/
inductive Call
  | request (r : Request)
  | close (stage : CloseStage)
  deriving DecidableEq

/-- A successful read: the out-parameters before it, and what became of them. -/
structure ReadRecord where
  out : ReadArgs
  result : Checked ReadArgs

/-- A `Conn` with its RX thread. Past the shutdown of a close only a TCP socket is shut down;
a UDP loop is left to its read timeout. -/
structure Channel where
  isOpen : Bool
  running : Bool
  negotiated : Bool
  shutdown : Bool
  handle : Bool
  shared : Shared
  rx : RxPc
  decoder : Option RxStream
  pending : List (Caller × Call)
  datagrams : List Bytes
  stream : Bytes
  reads : List ReadRecord
  calls : List NotifyData
  closed : List Caller

/-- The channel as `canOpenChannel` hands it out. -/
def opened : Channel where
  isOpen := true
  running := true
  negotiated := true
  shutdown := false
  handle := true
  shared := Shared.new
  rx := .head
  decoder := some primed
  pending := []
  datagrams := []
  stream := []
  reads := []
  calls := []
  closed := []

/-! ### The RX thread -/

/-- The end of `tcp_rx_loop`: a loop that was not told to stop reports the lost link. -/
def tearDown (setup : Setup) (s : Channel) : Channel :=
  if setup.transport = .tcp ∧ s.running = true then
    { s with
      running := false
      negotiated := false
      shared := s.shared.markLinkLost.markClosed
      rx := .stopped }
  else { s with rx := .stopped }

/-- The head of the loop; the TCP loop also checks the size of its next read. -/
def loopHead (setup : Setup) (s : Channel) : Channel :=
  if s.running = false then tearDown setup s
  else match setup.transport, s.decoder with
    | .udp, _ => { s with rx := .receiving }
    | .tcp, none => tearDown setup s
    | .tcp, some rx =>
      if rx.need = 0 ∨ rx.need > 80 then tearDown setup s else { s with rx := .receiving }

/-- The frames a datagram is ingested as; a fault in the parser is contained. -/
def datagramFrames (bytes : Bytes) : List Frame :=
  match parseUdp bytes with
  | .ok (some frames) => frames
  | .ok none => []
  | .error _ => []

/-- The UDP loop has received a datagram. -/
def receiveDatagram (setup : Setup) (s : Channel) (source : IpAddr) (bytes : Bytes) : Channel :=
  if peerAllowed source setup.allow setup.peerCheck then
    { s with rx := .ingesting (datagramFrames bytes), datagrams := s.datagrams ++ [bytes] }
  else { s with rx := .head }

/-- The TCP loop has received a chunk of the size it asked for. -/
def receiveChunk (setup : Setup) (s : Channel) (rx : RxStream) (bytes : Bytes) : Channel :=
  let s := { s with stream := s.stream ++ bytes }
  match rxChunk rx bytes with
  | .next rx => { s with rx := .head, decoder := some rx }
  | .push f next => { s with rx := .ingesting [f], decoder := next }
  | .stop => tearDown setup s

/-- The next frame of the batch meets the filter; behind the last one the loop goes on,
unless the TCP decoder could not be started again. -/
def advance (setup : Setup) (s : Channel) : List Frame → Channel
  | [] =>
    if setup.transport = .tcp ∧ s.decoder.isNone then tearDown setup s
    else { s with rx := .head }
  | f :: batch =>
    if s.shared.filters.accepts f then { s with rx := .filtered f batch }
    else { s with rx := .ingesting batch }

/-- The frame is stamped and queued, or dropped when the ring is full. -/
def enqueueFrame (s : Channel) (now : UInt64) (f : Frame) (batch : List Frame) : Channel :=
  match s.shared.enqueue (stamp now f) with
  | (shared, true) => { s with shared := shared, rx := .queued (stamp now f) batch }
  | (shared, false) => { s with shared := shared, rx := .ingesting batch }

/-- The registration is read, and the callback entered if it is armed. -/
def notifyFrame (s : Channel) (f : Frame) (batch : List Frame) : Channel :=
  match s.shared.notify.call f with
  | some d => { s with rx := .inCallback batch, calls := s.calls ++ [d] }
  | none => { s with rx := .ingesting batch }

/-! ### API calls -/

def RxPc.isInCallback : RxPc → Bool
  | .inCallback _ => true
  | _ => false

/-- The callback runs one call at a time. -/
def callbackBusy (s : Channel) : Bool := s.pending.any fun p => p.1 == .callback

def mayCall (s : Channel) : Caller → Bool
  | .app => true
  | .callback => s.rx.isInCallback && !callbackBusy s

/-- A call looks the handle up; on a closed channel it returns at once. -/
def request (s : Channel) (caller : Caller) (r : Request) : Channel :=
  if s.isOpen then { s with pending := s.pending ++ [(caller, .request r)] } else s

/-- `canClose` removes the handle; when there is none it returns at once. -/
def canClose (s : Channel) (caller : Caller) : Channel :=
  if s.isOpen then
    { s with isOpen := false, pending := s.pending ++ [(caller, .close .running)] }
  else { s with closed := s.closed ++ [caller] }

/-- The popped frame is marshalled into the out-parameters. -/
def deliver (setup : Setup) (s : Channel) (out : ReadArgs) : Option Frame × Shared → Channel
  | (none, shared) => { s with shared := shared }
  | (some f, shared) =>
    { s with
      shared := shared
      reads := s.reads ++ [⟨out, writeReadOutputs f out setup.fdCapable⟩] }

/-- The effect of a request, or `none` while a reader is still waiting. -/
def perform (setup : Setup) (s : Channel) (timedOut : Bool) : Request → Option Channel
  | .read out => some (deliver setup s out s.shared.pop)
  | .readWait out => (s.shared.popWait timedOut).map (deliver setup s out)
  | .readSync => (s.shared.peekWait timedOut).map fun _ => s
  | .flush => some { s with shared := s.shared.clear }
  | .accept flag envelope => some { s with shared := s.shared.setAccept flag envelope }
  | .setNotify n => some { s with shared := s.shared.setNotify n }

/-- One statement of `Conn::close`, with the stage that follows it; the call has returned
when none does. On the RX thread the join is left out. -/
def closeStep (s : Channel) (caller : Caller) : CloseStage → Option (Channel × Option CloseStage)
  | .running => some ({ s with running := false }, some .negotiated)
  | .negotiated => some ({ s with negotiated := false }, some .markClosed)
  | .markClosed => some ({ s with shared := s.shared.markClosed }, some .shutdown)
  | .shutdown => some ({ s with shutdown := true }, some .takeHandle)
  | .takeHandle =>
    some ({ s with handle := false },
      if s.handle = true ∧ caller = .app then some .join else none)
  | .join => if s.rx = .stopped then some (s, none) else none

/-- A call that has found the connection goes on. -/
def proceed (setup : Setup) (s : Channel) (i : ℕ) (timedOut : Bool) : Option Channel :=
  match s.pending[i]? with
  | none => none
  | some (_, .request r) =>
    (perform setup s timedOut r).map fun s => { s with pending := s.pending.eraseIdx i }
  | some (caller, .close stage) =>
    (closeStep s caller stage).map fun
      | (s, some stage) => { s with pending := s.pending.set i (caller, .close stage) }
      | (s, none) =>
        { s with pending := s.pending.eraseIdx i, closed := s.closed ++ [caller] }

/-! ### The steps -/

inductive Label
  | loop
  | datagram (source : IpAddr) (bytes : Bytes)
  | chunk (bytes : Bytes)
  | timeout
  | fail
  | advance
  | enqueue (now : UInt64)
  | notify
  | callbackReturn
  | request (caller : Caller) (r : Request)
  | canClose (caller : Caller)
  | proceed (i : ℕ) (timedOut : Bool)
  deriving DecidableEq

def rxStep (setup : Setup) (s : Channel) : RxPc → Label → Option Channel
  | .head, .loop => some (loopHead setup s)
  | .receiving, .datagram source bytes =>
    if setup.transport = .udp ∧ bytes.length ≤ 2048 then
      some (receiveDatagram setup s source bytes)
    else none
  | .receiving, .chunk bytes =>
    match setup.transport, s.decoder with
    | .tcp, some rx =>
      if bytes.length = rx.need then some (receiveChunk setup s rx bytes) else none
    | _, _ => none
  | .receiving, .timeout =>
    if setup.transport = .udp then some { s with rx := .head } else none
  | .receiving, .fail => some (tearDown setup s)
  | .ingesting batch, .advance => some (advance setup s batch)
  | .filtered f batch, .enqueue now => some (enqueueFrame s now f batch)
  | .queued f batch, .notify => some (notifyFrame s f batch)
  | .inCallback batch, .callbackReturn =>
    if callbackBusy s then none else some { s with rx := .ingesting batch }
  | _, _ => none

def step (setup : Setup) (s : Channel) : Label → Option Channel
  | .request caller r => if mayCall s caller then some (request s caller r) else none
  | .canClose caller => if mayCall s caller then some (canClose s caller) else none
  | .proceed i timedOut => proceed setup s i timedOut
  | l => rxStep setup s s.rx l

/-- The states that a run from the opened channel passes through. -/
def run (setup : Setup) (ls : List Label) : Option Channel :=
  StepSystem.run (step setup) opened ls

/-! ### What a step can do -/

/-- The moves of the RX thread. -/
inductive RxMove (setup : Setup) (s : Channel) : Channel → Prop
  | loop (hrx : s.rx = .head) : RxMove setup s (loopHead setup s)
  | datagram (hrx : s.rx = .receiving) (hudp : setup.transport = .udp) (source : IpAddr)
      (bytes : Bytes) : RxMove setup s (receiveDatagram setup s source bytes)
  | chunk (hrx : s.rx = .receiving) (htcp : setup.transport = .tcp) (rx : RxStream)
      (hdecoder : s.decoder = some rx) (bytes : Bytes) (hlen : bytes.length = rx.need) :
      RxMove setup s (receiveChunk setup s rx bytes)
  | timeout (hrx : s.rx = .receiving) : RxMove setup s { s with rx := .head }
  | fail (hrx : s.rx = .receiving) : RxMove setup s (tearDown setup s)
  | advance (batch : List Frame) (hrx : s.rx = .ingesting batch) :
      RxMove setup s (advance setup s batch)
  | enqueue (f : Frame) (batch : List Frame) (hrx : s.rx = .filtered f batch) (now : UInt64) :
      RxMove setup s (enqueueFrame s now f batch)
  | notify (f : Frame) (batch : List Frame) (hrx : s.rx = .queued f batch) :
      RxMove setup s (notifyFrame s f batch)
  | callbackReturn (batch : List Frame) (hrx : s.rx = .inCallback batch) :
      RxMove setup s { s with rx := .ingesting batch }

/-- The moves of the channel. -/
inductive Move (setup : Setup) (s : Channel) : Channel → Prop
  | rx (s' : Channel) (hmove : RxMove setup s s') : Move setup s s'
  | request (caller : Caller) (r : Request) : Move setup s (request s caller r)
  | canClose (caller : Caller) : Move setup s (canClose s caller)
  | perform (i : ℕ) (timedOut : Bool) (caller : Caller) (r : Request) (t : Channel)
      (hpending : s.pending[i]? = some (caller, .request r))
      (hperform : perform setup s timedOut r = some t) :
      Move setup s { t with pending := t.pending.eraseIdx i }
  | closing (i : ℕ) (caller : Caller) (stage next : CloseStage) (t : Channel)
      (hpending : s.pending[i]? = some (caller, .close stage))
      (hclose : closeStep s caller stage = some (t, some next)) :
      Move setup s { t with pending := t.pending.set i (caller, .close next) }
  | closed (i : ℕ) (caller : Caller) (stage : CloseStage) (t : Channel)
      (hpending : s.pending[i]? = some (caller, .close stage))
      (hclose : closeStep s caller stage = some (t, none)) :
      Move setup s { t with pending := t.pending.eraseIdx i, closed := t.closed ++ [caller] }

theorem rxStep_move {setup : Setup} {s s' : Channel} {l : Label}
    (h : rxStep setup s s.rx l = some s') : RxMove setup s s' := by
  cases hrx : s.rx with
  | head =>
    rw [hrx] at h
    cases l with
    | loop =>
      obtain rfl := Option.some.inj h
      exact .loop hrx
    | _ => cases h
  | receiving =>
    rw [hrx] at h
    cases l with
    | datagram source bytes =>
      simp only [rxStep] at h
      split at h
      · rename_i hudp
        obtain rfl := Option.some.inj h
        exact .datagram hrx hudp.1 source bytes
      · cases h
    | chunk bytes =>
      simp only [rxStep] at h
      split at h
      · rename_i rx htcp hdecoder
        split at h
        · rename_i hlen
          obtain rfl := Option.some.inj h
          exact .chunk hrx htcp rx hdecoder bytes hlen
        · cases h
      · cases h
    | timeout =>
      simp only [rxStep] at h
      split at h
      · obtain rfl := Option.some.inj h
        exact .timeout hrx
      · cases h
    | fail =>
      obtain rfl := Option.some.inj h
      exact .fail hrx
    | _ => cases h
  | ingesting batch =>
    rw [hrx] at h
    cases l with
    | advance =>
      obtain rfl := Option.some.inj h
      exact .advance batch hrx
    | _ => cases h
  | filtered f batch =>
    rw [hrx] at h
    cases l with
    | enqueue now =>
      obtain rfl := Option.some.inj h
      exact .enqueue f batch hrx now
    | _ => cases h
  | queued f batch =>
    rw [hrx] at h
    cases l with
    | notify =>
      obtain rfl := Option.some.inj h
      exact .notify f batch hrx
    | _ => cases h
  | inCallback batch =>
    rw [hrx] at h
    cases l with
    | callbackReturn =>
      simp only [rxStep] at h
      split at h
      · cases h
      · obtain rfl := Option.some.inj h
        exact .callbackReturn batch hrx
    | _ => cases h
  | stopped =>
    rw [hrx] at h
    cases l <;> cases h

theorem proceed_move {setup : Setup} {s s' : Channel} {i : ℕ} {timedOut : Bool}
    (h : proceed setup s i timedOut = some s') : Move setup s s' := by
  unfold proceed at h
  split at h
  · cases h
  · rename_i caller r hpending
    obtain ⟨t, hperform, rfl⟩ := Option.map_eq_some_iff.mp h
    exact .perform i timedOut caller r t hpending hperform
  · rename_i caller stage hpending
    obtain ⟨⟨t, next⟩, hclose, rfl⟩ := Option.map_eq_some_iff.mp h
    cases next with
    | none => exact .closed i caller stage t hpending hclose
    | some next => exact .closing i caller stage next t hpending hclose

theorem step_move {setup : Setup} {s s' : Channel} {l : Label}
    (h : step setup s l = some s') : Move setup s s' := by
  cases l with
  | request caller r =>
    simp only [step] at h
    split at h
    · obtain rfl := Option.some.inj h
      exact .request caller r
    · cases h
  | canClose caller =>
    simp only [step] at h
    split at h
    · obtain rfl := Option.some.inj h
      exact .canClose caller
    · cases h
  | proceed i timedOut => exact proceed_move h
  | _ => exact .rx s' (rxStep_move h)

theorem tearDown_keeps (setup : Setup) (s : Channel) :
    (tearDown setup s).isOpen = s.isOpen ∧ (tearDown setup s).closed = s.closed ∧
      (tearDown setup s).pending = s.pending ∧ (tearDown setup s).calls = s.calls ∧
      (tearDown setup s).rx = .stopped ∧
      ((tearDown setup s).running = s.running ∨ (tearDown setup s).running = false) := by
  unfold tearDown
  split
  · exact ⟨rfl, rfl, rfl, rfl, rfl, Or.inr rfl⟩
  · exact ⟨rfl, rfl, rfl, rfl, rfl, Or.inl rfl⟩

/-- What the RX thread leaves alone, and that it never sets `running`. -/
theorem rxMove_keeps {setup : Setup} {s t : Channel} (h : RxMove setup s t) :
    t.isOpen = s.isOpen ∧ t.closed = s.closed ∧ t.pending = s.pending ∧
      (t.running = s.running ∨ t.running = false) := by
  have hdown := tearDown_keeps setup s
  cases h with
  | loop hrx =>
    unfold loopHead
    repeat' split
    all_goals first
      | exact ⟨rfl, rfl, rfl, Or.inl rfl⟩
      | exact ⟨hdown.1, hdown.2.1, hdown.2.2.1, hdown.2.2.2.2.2⟩
  | datagram hrx hudp source bytes =>
    unfold receiveDatagram
    split <;> exact ⟨rfl, rfl, rfl, Or.inl rfl⟩
  | chunk hrx htcp rx hdecoder bytes hlen =>
    unfold receiveChunk
    dsimp only
    split
    · exact ⟨rfl, rfl, rfl, Or.inl rfl⟩
    · exact ⟨rfl, rfl, rfl, Or.inl rfl⟩
    · have hgrown := tearDown_keeps setup { s with stream := s.stream ++ bytes }
      exact ⟨hgrown.1, hgrown.2.1, hgrown.2.2.1, hgrown.2.2.2.2.2⟩
  | timeout hrx => exact ⟨rfl, rfl, rfl, Or.inl rfl⟩
  | fail hrx => exact ⟨hdown.1, hdown.2.1, hdown.2.2.1, hdown.2.2.2.2.2⟩
  | advance batch hrx =>
    cases batch with
    | nil =>
      dsimp only [advance]
      split
      · exact ⟨hdown.1, hdown.2.1, hdown.2.2.1, hdown.2.2.2.2.2⟩
      · exact ⟨rfl, rfl, rfl, Or.inl rfl⟩
    | cons f batch =>
      dsimp only [advance]
      split <;> exact ⟨rfl, rfl, rfl, Or.inl rfl⟩
  | enqueue f batch hrx now =>
    unfold enqueueFrame
    split <;> exact ⟨rfl, rfl, rfl, Or.inl rfl⟩
  | notify f batch hrx =>
    unfold notifyFrame
    split <;> exact ⟨rfl, rfl, rfl, Or.inl rfl⟩
  | callbackReturn batch hrx => exact ⟨rfl, rfl, rfl, Or.inl rfl⟩

/-- What a request leaves alone. -/
theorem perform_keeps {setup : Setup} {s t : Channel} {timedOut : Bool} {r : Request}
    (h : perform setup s timedOut r = some t) :
    t.isOpen = s.isOpen ∧ t.running = s.running ∧ t.rx = s.rx ∧ t.calls = s.calls ∧
      t.closed = s.closed ∧ t.pending = s.pending := by
  cases r with
  | read out =>
    obtain rfl := Option.some.inj h
    unfold deliver
    split <;> exact ⟨rfl, rfl, rfl, rfl, rfl, rfl⟩
  | readWait out =>
    obtain ⟨r, -, rfl⟩ := Option.map_eq_some_iff.mp h
    unfold deliver
    split <;> exact ⟨rfl, rfl, rfl, rfl, rfl, rfl⟩
  | readSync =>
    obtain ⟨b, -, rfl⟩ := Option.map_eq_some_iff.mp h
    exact ⟨rfl, rfl, rfl, rfl, rfl, rfl⟩
  | flush | accept flag envelope | setNotify n =>
    obtain rfl := Option.some.inj h
    exact ⟨rfl, rfl, rfl, rfl, rfl, rfl⟩

/-- What a statement of `Conn::close` leaves alone, and that it never sets `running`. -/
theorem closeStep_keeps {s t : Channel} {caller : Caller} {stage : CloseStage}
    {next : Option CloseStage} (h : closeStep s caller stage = some (t, next)) :
    (t.running = s.running ∧ stage ≠ .running ∨ t.running = false) ∧
      t.isOpen = s.isOpen ∧ t.rx = s.rx ∧ t.calls = s.calls ∧ t.closed = s.closed ∧
      t.pending = s.pending ∧ t.shared.q = s.shared.q ∧
      t.shared.filters = s.shared.filters ∧ t.shared.notify = s.shared.notify := by
  cases stage with
  | running =>
    obtain ⟨rfl, -⟩ := Prod.mk.inj (Option.some.inj h)
    exact ⟨Or.inr rfl, rfl, rfl, rfl, rfl, rfl, rfl, rfl, rfl⟩
  | join =>
    simp only [closeStep] at h
    split at h
    · obtain ⟨rfl, -⟩ := Prod.mk.inj (Option.some.inj h)
      exact ⟨Or.inl ⟨rfl, by simp⟩, rfl, rfl, rfl, rfl, rfl, rfl, rfl, rfl⟩
    · cases h
  | negotiated | markClosed | shutdown | takeHandle =>
    obtain ⟨rfl, -⟩ := Prod.mk.inj (Option.some.inj h)
    exact ⟨Or.inl ⟨rfl, by simp⟩, rfl, rfl, rfl, rfl, rfl, rfl, rfl, rfl⟩

end Kvasilloni.Reception
