import Kvasilloni.Reception

/-!
The receive loop of a UDP channel, over any sequence of results of `recv_from`. Two kinds
of error stand for the read timeout and let the loop go on; any other ends it, and nothing
tells the app.
-/
namespace Kvasilloni.UdpLoop

open CheckedMemory Frames Datagrams SharedRing Reception

/-- The part of the configuration that restricts the sources. -/
structure Config where
  allow : List IpAddr
  peerCheck : Bool

def effectiveAllow (cfg : Config) (peer : IpAddr) : List IpAddr :=
  if cfg.allow.isEmpty then [peer] else cfg.allow

/-- A received datagram fits the buffer of the loop. -/
structure Datagram where
  source : IpAddr
  bytes : Bytes
  fits : bytes.length ≤ 2048

inductive ErrorKind
  | wouldBlock
  | timedOut
  | other (code : ℕ)
  deriving DecidableEq

/-- The result of one `recv_from`. -/
inductive Outcome
  | datagram (d : Datagram)
  | error (kind : ErrorKind)

/-- The loop and what it works on, with the frames handed to `push` and the callback
invocations so far. -/
structure Receiver where
  listening : Bool
  shared : Shared
  offered : List Frame
  calls : List (ℕ × NotifyData)

/-- The loop as `Conn::connect` starts it, on any shared state. -/
def Receiver.start (shared : Shared) : Receiver := ⟨true, shared, [], []⟩

section Loop

variable (cfg : Config) (peer : IpAddr) (clock : ℕ → UInt64)

/-- `push`, at the clock reading that belongs to this call of it. The callback leaves the
channel alone. -/
def pushFrame (s : Receiver) (f : Frame) : Receiver where
  listening := s.listening
  shared := (s.shared.push (clock s.offered.length) f).1
  offered := s.offered ++ [f]
  calls := s.calls ++
    ((s.shared.push (clock s.offered.length) f).2.map fun d => (s.shared.notify.cb, d)).toList

def guardedUdpIngest (s : Receiver) (bytes : Bytes) : Receiver :=
  (datagramFrames bytes).foldl (pushFrame clock) s

def sourceAllowed (source : IpAddr) : Bool :=
  peerAllowed source (effectiveAllow cfg peer) cfg.peerCheck

/-- One round of the loop; a loop that has ended receives nothing. -/
def udpRxRound (s : Receiver) (outcome : Outcome) : Receiver :=
  if s.listening then
    match outcome with
    | .datagram d =>
      if sourceAllowed cfg peer d.source then guardedUdpIngest clock s d.bytes else s
    | .error .wouldBlock | .error .timedOut => s
    | .error (.other _) => { s with listening := false }
  else s

/-- A call of the app that reads, flushes or sets the filter or the callback. -/
def apiCall (s : Receiver) : Op → Receiver
  | .push _ _ | .markClosed | .markLinkLost => s
  | op =>
    match exec s.shared op with
    | some (shared, _) => { s with shared := shared }
    | none => s

inductive Event
  | receive (outcome : Outcome)
  | api (op : Op)

def eventStep (s : Receiver) : Event → Receiver
  | .receive outcome => udpRxRound cfg peer clock s outcome
  | .api op => apiCall s op

/-- The loop on an open channel, with calls of the app between its rounds. -/
def udpRxLoop (s : Receiver) (events : List Event) : Receiver :=
  events.foldl (eventStep cfg peer clock) s

end Loop

/-- Every valid datagram from an allowed source that comes next has its frames pushed. -/
def StillReceiving (cfg : Config) (peer : IpAddr) (s : Receiver) : Prop :=
  ∀ (clock : ℕ → UInt64) (d : Datagram) (frames : List Frame),
    sourceAllowed cfg peer d.source = true → parseUdp d.bytes = .ok (some frames) →
      (udpRxRound cfg peer clock s (.datagram d)).offered = s.offered ++ frames

/-- Readers are woken and the status reports the end of the link. -/
def Surfaced (s : Receiver) : Prop := s.shared.closed = true ∧ s.shared.BusOff

/-- The errors that stand for the read timeout. -/
def ErrorKind.transient : ErrorKind → Bool
  | .wouldBlock | .timedOut => true
  | .other _ => false

/-! ### Frames handed to `push` -/

@[simp] theorem pushFrame_listening (clock : ℕ → UInt64) (s : Receiver) (f : Frame) :
    (pushFrame clock s f).listening = s.listening := rfl

@[simp] theorem pushFrame_offered (clock : ℕ → UInt64) (s : Receiver) (f : Frame) :
    (pushFrame clock s f).offered = s.offered ++ [f] := rfl

theorem push_closed (s : Shared) (now : UInt64) (f : Frame) :
    (s.push now f).1.closed = s.closed := by
  obtain ⟨q, overflow, hpush⟩ := s.push_fst now f
  rw [hpush]

theorem foldl_pushFrame (clock : ℕ → UInt64) (frames : List Frame) (s : Receiver) :
    (frames.foldl (pushFrame clock) s).listening = s.listening ∧
      (frames.foldl (pushFrame clock) s).offered = s.offered ++ frames ∧
      (frames.foldl (pushFrame clock) s).shared.closed = s.shared.closed := by
  induction frames generalizing s with
  | nil => exact ⟨rfl, (List.append_nil _).symm, rfl⟩
  | cons f frames ih =>
    obtain ⟨hlistening, hoffered, hclosed⟩ := ih (pushFrame clock s f)
    refine ⟨hlistening, ?_, hclosed.trans (push_closed _ _ _)⟩
    rw [List.foldl_cons, hoffered, pushFrame_offered, List.append_assoc]
    rfl

theorem datagramFrames_of_some {bytes : Bytes} {frames : List Frame}
    (h : parseUdp bytes = .ok (some frames)) : datagramFrames bytes = frames := by
  simp only [datagramFrames, h]

theorem datagramFrames_of_none {bytes : Bytes} (h : parseUdp bytes = .ok none) :
    datagramFrames bytes = [] := by
  simp only [datagramFrames, h]

/-! ### The end of the loop -/

theorem round_listening (cfg : Config) (peer : IpAddr) (clock : ℕ → UInt64) (s : Receiver)
    (outcome : Outcome) :
    (udpRxRound cfg peer clock s outcome).listening =
      (s.listening && match outcome with
        | .datagram _ => true
        | .error kind => kind.transient) := by
  cases hlistening : s.listening with
  | false => simp [udpRxRound, hlistening]
  | true =>
    cases outcome with
    | datagram d =>
      simp only [udpRxRound, hlistening, ↓reduceIte, Bool.and_true]
      split
      · exact (foldl_pushFrame clock _ s).1.trans hlistening
      · exact hlistening
    | error kind =>
      cases kind <;> simp [udpRxRound, hlistening, ErrorKind.transient]

theorem round_closed (cfg : Config) (peer : IpAddr) (clock : ℕ → UInt64) (s : Receiver)
    (outcome : Outcome) :
    (udpRxRound cfg peer clock s outcome).shared.closed = s.shared.closed := by
  unfold udpRxRound
  split
  · cases outcome with
    | datagram d =>
      dsimp only
      split
      · exact (foldl_pushFrame clock _ s).2.2
      · rfl
    | error kind => cases kind <;> rfl
  · rfl

theorem exec_closed {s s' : Shared} {op : Op} {reply : Reply} (h : exec s op = some (s', reply))
    (hop : op ≠ .markClosed) : s'.closed = s.closed := by
  obtain rfl := exec_after h
  cases op with
  | push now f => exact push_closed s now f
  | pop | popWait timedOut =>
    show s.pop.2.closed = s.closed
    rw [Shared.pop_snd]
  | markClosed => exact absurd rfl hop
  | peekWait | clear | level | overflowed | setAccept | setNotify | markLinkLost => rfl

theorem apiCall_keeps (s : Receiver) (op : Op) :
    (apiCall s op).listening = s.listening ∧
      (apiCall s op).shared.closed = s.shared.closed := by
  unfold apiCall
  split
  · exact ⟨rfl, rfl⟩
  · exact ⟨rfl, rfl⟩
  · exact ⟨rfl, rfl⟩
  · split
    · rename_i hclosed _ _ _ _ hexec
      exact ⟨rfl, exec_closed hexec fun hop => hclosed hop⟩
    · exact ⟨rfl, rfl⟩

/-- The loop listens as long as every error was one that stands for the timeout, and it
never marks the channel closed. -/
theorem loop_listening (cfg : Config) (peer : IpAddr) (clock : ℕ → UInt64) (s : Receiver)
    (events : List Event) :
    ((udpRxLoop cfg peer clock s events).listening = true ↔
      s.listening = true ∧
        ∀ kind, Event.receive (.error kind) ∈ events → kind.transient = true) ∧
      (udpRxLoop cfg peer clock s events).shared.closed = s.shared.closed := by
  induction events generalizing s with
  | nil => simp [udpRxLoop]
  | cons event events ih =>
    obtain ⟨hlistening, hclosed⟩ := ih (eventStep cfg peer clock s event)
    have hcons : udpRxLoop cfg peer clock s (event :: events) =
        udpRxLoop cfg peer clock (eventStep cfg peer clock s event) events := rfl
    rw [hcons, hlistening, hclosed]
    cases event with
    | api op =>
      obtain ⟨hkept, hclosed'⟩ := apiCall_keeps s op
      refine ⟨?_, hclosed'⟩
      simp only [eventStep, hkept, List.mem_cons, reduceCtorEq, false_or]
    | receive outcome =>
      refine ⟨?_, round_closed cfg peer clock s outcome⟩
      simp only [eventStep, round_listening, Bool.and_eq_true, List.mem_cons,
        Event.receive.injEq]
      cases outcome with
      | datagram d => simp
      | error kind =>
        simp only [Outcome.error.injEq]
        constructor
        · rintro ⟨⟨hs, hkind⟩, hall⟩
          refine ⟨hs, fun kind' hmem => ?_⟩
          rcases hmem with rfl | hmem
          · exact hkind
          · exact hall kind' hmem
        · rintro ⟨hs, hall⟩
          exact ⟨⟨hs, hall kind (Or.inl rfl)⟩, fun kind' hmem => hall kind' (Or.inr hmem)⟩

theorem stillReceiving_of_listening (cfg : Config) (peer : IpAddr) {s : Receiver}
    (h : s.listening = true) : StillReceiving cfg peer s := by
  intro clock d frames hallowed hparse
  simp only [udpRxRound, h, ↓reduceIte, hallowed, guardedUdpIngest,
    datagramFrames_of_some hparse]
  exact (foldl_pushFrame clock frames s).2.1

theorem exists_allowed (cfg : Config) (peer : IpAddr) :
    ∃ source, sourceAllowed cfg peer source = true := by
  cases hallow : cfg.allow with
  | nil => exact ⟨peer, by simp [sourceAllowed, peerAllowed, effectiveAllow, hallow]⟩
  | cons a rest => exact ⟨a, by simp [sourceAllowed, peerAllowed, effectiveAllow, hallow]⟩

/-- A datagram with one empty frame. -/
def oneFrame (source : IpAddr) : Datagram := ⟨source, [2, 0, 0, 0, 1, 0, 0, 0, 1, 0], by decide⟩

theorem not_stillReceiving (cfg : Config) (peer : IpAddr) {s : Receiver}
    (h : s.listening = false) : ¬ StillReceiving cfg peer s := by
  intro hstill
  obtain ⟨source, hallowed⟩ := exists_allowed cfg peer
  have hoffered := hstill (fun _ => 0) (oneFrame source) [{ Frame.default with canId := 1 }]
    hallowed rfl
  simp only [udpRxRound, h, Bool.false_eq_true, ↓reduceIte] at hoffered
  exact absurd hoffered (by simp)

/-- Whatever `recv_from` reported and the app called, the loop still receives or its end
was surfaced exactly when no error was of a kind other than the two of the read timeout. -/
theorem receiving_or_surfaced_iff (cfg : Config) (peer : IpAddr) (clock : ℕ → UInt64)
    (events : List Event) :
    (StillReceiving cfg peer (udpRxLoop cfg peer clock (.start Shared.new) events) ∨
      Surfaced (udpRxLoop cfg peer clock (.start Shared.new) events)) ↔
      ∀ kind, Event.receive (.error kind) ∈ events → kind.transient = true := by
  obtain ⟨hlistening, hclosed⟩ := loop_listening cfg peer clock (.start Shared.new) events
  constructor
  · rintro (hstill | hsurfaced)
    · by_contra hfatal
      have hended : (udpRxLoop cfg peer clock (.start Shared.new) events).listening = false := by
        rw [← Bool.not_eq_true, hlistening]
        exact fun h => hfatal h.2
      exact not_stillReceiving cfg peer hended hstill
    · rw [Surfaced, hclosed] at hsurfaced
      cases hsurfaced.1
  · intro hall
    exact Or.inl (stillReceiving_of_listening cfg peer (hlistening.mpr ⟨rfl, hall⟩))

/-- One reset, and the channel is deaf without a sign of it. -/
theorem udp_loop_dies_silently :
    ¬ ∀ cfg peer clock events,
      StillReceiving cfg peer (udpRxLoop cfg peer clock (.start Shared.new) events) ∨
        Surfaced (udpRxLoop cfg peer clock (.start Shared.new) events) := by
  intro h
  rcases h ⟨[], true⟩ (.v4 0) (fun _ => 0) [.receive (.error (.other 10054))] with
    hstill | hsurfaced
  · exact not_stillReceiving _ _ rfl hstill
  · cases hsurfaced.1

end Kvasilloni.UdpLoop
