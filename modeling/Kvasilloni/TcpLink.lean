import Kvasilloni.WaitingReaders
import Kvasilloni.Streams
import Kvasilloni.Transmit

/-!
The end of a TCP link. The RX loop, any number of writers whose write may fail, any number
of closes and any number of readers share the flags `running` and `negotiated`, the latches
and the ring. Every store is a step of its own, and so are the swap that ends the loop and
the stores behind it. The parties that clear `running` are recorded in their order, and the
frames that the loop decodes and those it has offered to the ring. Which bytes a write
sends plays no part here; `Transmit` models that.
-/
namespace Kvasilloni.TcpLink

open Frames Streams SharedRing WaitingReaders Transmit

/-- Why the loop was left. -/
inductive Ending
  | stopped
  | readError
  | undecodable
  | broken
  deriving DecidableEq

/-- Where the RX thread stands: in the loop, in `push`, or in the statements behind the
loop. A frame carries the decoder state that follows it. -/
inductive RxPc
  | head
  | reading
  | filtering (f : Frame) (next : Option RxStream)
  | offering (f : Frame) (now : UInt64) (next : Option RxStream)
  | notifying (next : Option RxStream)
  | calling (next : Option RxStream)
  | swapping
  | clearing
  | latching
  | closing
  | waking
  | returned

/-- Where a thread stands in `Conn::write`. -/
inductive WriterPc
  | idle
  | found
  | ready
  | failing (stage : FailStage)

/-- Where a thread stands in `Conn::close`. -/
inductive CloserPc
  | idle
  | running
  | negotiated
  | markClosed
  | notifyAll
  | shutdown

/-- Who may clear `running`. -/
inductive Party
  | loop
  | writer
  | closer
  deriving DecidableEq

structure Link (W C : Type) where
  isOpen : Bool
  running : Bool
  negotiated : Bool
  ring : Ring
  decoder : RxStream
  rx : RxPc
  ending : Option Ending
  writers : W → WriterPc
  closers : C → CloserPc
  decoded : List Frame
  offered : List Frame
  clearedBy : List Party

/-- The link as `Conn::connect` leaves it. -/
def opened (W C : Type) : Link W C where
  isOpen := true
  running := true
  negotiated := true
  ring := Ring.new
  decoder := primed
  rx := .head
  ending := none
  writers := fun _ => .idle
  closers := fun _ => .idle
  decoded := []
  offered := []
  clearedBy := []

variable {W C : Type}

def Link.isReady (s : Link W C) : Bool := s.negotiated

/-! ### The RX loop -/

inductive RxEvent
  | go
  | chunk (bytes : Bytes)
  | fail
  | stamp (now : UInt64)
  | wake (target : Option ℕ)

def leave (s : Link W C) (e : Ending) : Link W C :=
  { s with rx := .swapping, ending := some e }

/-- Behind a frame the loop goes on with a fresh decoder. -/
def resume (s : Link W C) : Option RxStream → Link W C
  | some rx => { s with decoder := rx, rx := .head }
  | none => leave s .broken

def loopHead (s : Link W C) : Link W C :=
  if s.running = false then leave s .stopped
  else if s.decoder.need = 0 ∨ s.decoder.need > 80 then leave s .broken
  else { s with rx := .reading }

def receiveChunk (s : Link W C) (bytes : Bytes) : Link W C :=
  match rxChunk s.decoder bytes with
  | .next rx => { s with decoder := rx, rx := .head }
  | .push f next => { s with decoded := s.decoded ++ [f], rx := .filtering f next }
  | .stop => leave s .undecodable

def filterFrame (s : Link W C) (f : Frame) (now : UInt64) (next : Option RxStream) : Link W C :=
  if s.ring.shared.filters.accepts f then { s with rx := .offering f now next }
  else resume { s with offered := s.offered ++ [f] } next

def offerFrame (s : Link W C) (f : Frame) (now : UInt64) (next : Option RxStream) : Link W C :=
  match s.ring.offer (stamp now f) with
  | (ring, true) => { s with ring := ring, offered := s.offered ++ [f], rx := .notifying next }
  | (ring, false) => resume { s with ring := ring, offered := s.offered ++ [f] } next

/-- The swap that ends the loop; who finds `running` set goes on with the teardown. -/
def swapRunning (s : Link W C) : Link W C :=
  if s.running then
    { s with running := false, rx := .clearing, clearedBy := s.clearedBy ++ [.loop] }
  else { s with rx := .returned }

def rxStep (s : Link W C) : RxPc → RxEvent → Option (Link W C)
  | .head, .go => some (loopHead s)
  | .reading, .chunk bytes =>
    if bytes.length = s.decoder.need then some (receiveChunk s bytes) else none
  | .reading, .fail => some (leave s .readError)
  | .filtering f next, .stamp now => some (filterFrame s f now next)
  | .offering f now next, .go => some (offerFrame s f now next)
  | .notifying next, .wake target =>
    (s.ring.notifyOne target).map fun ring => { s with ring := ring, rx := .calling next }
  | .calling next, .go => some (resume s next)
  | .swapping, .go => some (swapRunning s)
  | .clearing, .go => some { s with negotiated := false, rx := .latching }
  | .latching, .go =>
    some { s with
      ring := { s.ring with shared := s.ring.shared.markLinkLost }
      rx := .closing }
  | .closing, .go => some { s with ring := s.ring.markClosed, rx := .waking }
  | .waking, .go => some { s with ring := s.ring.notifyAll, rx := .returned }
  | _, _ => none

/-! ### Readers, writers and closers -/

/-- What the readers and the other calls of the app do to the ring. -/
inductive Access
  | pop
  | enter (w : Wait) (expired : Bool)
  | expire (i : ℕ)
  | wake (i : ℕ)
  | recheck (i : ℕ)
  | empty
  | resetOverflow
  | setAccept (flag envelope : UInt32)

def access (r : Ring) : Access → Option Ring
  | .pop => some r.pop
  | .enter w expired => some (r.enter w expired)
  | .expire i => r.expire i
  | .wake i => r.wake i
  | .recheck i => r.recheck i
  | .empty => some r.empty
  | .resetOverflow => some r.resetOverflow
  | .setAccept flag envelope =>
    some { r with shared := r.shared.setAccept flag envelope }

variable [DecidableEq W] [DecidableEq C]

def setWriter (s : Link W C) (w : W) (pc : WriterPc) : Link W C :=
  { s with writers := Function.update s.writers w pc }

def setCloser (s : Link W C) (c : C) (pc : CloserPc) : Link W C :=
  { s with closers := Function.update s.closers c pc }

/-- The next statement of a writer; its write succeeds or not. -/
def writerGo (s : Link W C) (w : W) (ok : Bool) : WriterPc → Option (Link W C)
  | .idle => none
  | .found => if s.negotiated then some (setWriter s w .ready) else some (setWriter s w .idle)
  | .ready => if ok then some (setWriter s w .idle) else some (setWriter s w (.failing .negotiated))
  | .failing .negotiated => some { setWriter s w (.failing .running) with negotiated := false }
  | .failing .running =>
    some { setWriter s w (.failing .shutdown) with
      running := false
      clearedBy := s.clearedBy ++ [.writer] }
  | .failing .shutdown => some (setWriter s w .idle)

/-- The statements of `Conn::close` up to the shutdown of the socket. -/
def closerGo (s : Link W C) (c : C) : CloserPc → Option (Link W C)
  | .idle => none
  | .running =>
    some { setCloser s c .negotiated with
      running := false
      clearedBy := s.clearedBy ++ [.closer] }
  | .negotiated => some { setCloser s c .markClosed with negotiated := false }
  | .markClosed => some { setCloser s c .notifyAll with ring := s.ring.markClosed }
  | .notifyAll => some { setCloser s c .shutdown with ring := s.ring.notifyAll }
  | .shutdown => some (setCloser s c .idle)

inductive Label (W C : Type)
  | rx (event : RxEvent)
  | access (a : Access)
  | canWrite (w : W)
  | write (w : W) (ok : Bool)
  | canClose (c : C)
  | drop (c : C)
  | close (c : C)

def step (s : Link W C) : Label W C → Option (Link W C)
  | .rx event => rxStep s s.rx event
  | .access a => (access s.ring a).map fun ring => { s with ring := ring }
  | .canWrite w =>
    match s.isOpen, s.writers w with
    | true, .idle => some (setWriter s w .found)
    | _, _ => none
  | .write w ok => writerGo s w ok (s.writers w)
  | .canClose c =>
    match s.isOpen, s.closers c with
    | true, .idle => some { setCloser s c .running with isOpen := false }
    | _, _ => none
  | .drop c =>
    match s.isOpen, s.closers c with
    | false, .idle => some (setCloser s c .running)
    | _, _ => none
  | .close c => closerGo s c (s.closers c)

def run (ls : List (Label W C)) : Option (Link W C) :=
  StepSystem.run step (opened W C) ls

/-! ### What a step can do -/

omit [DecidableEq W] [DecidableEq C] in
theorem resume_cases (s : Link W C) (next : Option RxStream) :
    (∃ rx, next = some rx ∧ resume s next = { s with decoder := rx, rx := .head }) ∨
      next = none ∧ resume s next = leave s .broken := by
  cases next with
  | some rx => exact Or.inl ⟨rx, rfl, rfl⟩
  | none => exact Or.inr ⟨rfl, rfl⟩

/-- The moves of the RX thread. -/
inductive RxMove (s : Link W C) : Link W C → Prop
  | stopped (hrx : s.rx = .head) (hstop : s.running = false) : RxMove s (leave s .stopped)
  | broken (hrx : s.rx = .head) (hneed : s.decoder.need = 0 ∨ s.decoder.need > 80) :
      RxMove s (leave s .broken)
  | listen (hrx : s.rx = .head) : RxMove s { s with rx := .reading }
  | next (hrx : s.rx = .reading) (bytes : Bytes) (hlen : bytes.length = s.decoder.need)
      (rx : RxStream) (hnext : rxChunk s.decoder bytes = .next rx) :
      RxMove s { s with decoder := rx, rx := .head }
  | decode (hrx : s.rx = .reading) (bytes : Bytes) (f : Frame) (next : Option RxStream)
      (hpush : rxChunk s.decoder bytes = .push f next) :
      RxMove s { s with decoded := s.decoded ++ [f], rx := .filtering f next }
  | undecodable (hrx : s.rx = .reading) : RxMove s (leave s .undecodable)
  | readError (hrx : s.rx = .reading) : RxMove s (leave s .readError)
  | accept (f : Frame) (next : Option RxStream) (hrx : s.rx = .filtering f next)
      (now : UInt64) : RxMove s { s with rx := .offering f now next }
  | reject (f : Frame) (next : Option RxStream) (hrx : s.rx = .filtering f next) :
      RxMove s (resume { s with offered := s.offered ++ [f] } next)
  | enqueue (f : Frame) (now : UInt64) (next : Option RxStream)
      (hrx : s.rx = .offering f now next) :
      RxMove s { s with
        ring := (s.ring.offer (stamp now f)).1
        offered := s.offered ++ [f]
        rx := .notifying next }
  | overrun (f : Frame) (now : UInt64) (next : Option RxStream)
      (hrx : s.rx = .offering f now next) :
      RxMove s (resume { s with
        ring := (s.ring.offer (stamp now f)).1
        offered := s.offered ++ [f] } next)
  | notify (next : Option RxStream) (hrx : s.rx = .notifying next) (target : Option ℕ)
      (ring : Ring) (hnotify : s.ring.notifyOne target = some ring) :
      RxMove s { s with ring := ring, rx := .calling next }
  | called (next : Option RxStream) (hrx : s.rx = .calling next) : RxMove s (resume s next)
  | swap (hrx : s.rx = .swapping) (hrunning : s.running = true) :
      RxMove s { s with
        running := false
        rx := .clearing
        clearedBy := s.clearedBy ++ [.loop] }
  | late (hrx : s.rx = .swapping) (hstop : s.running = false) :
      RxMove s { s with rx := .returned }
  | clear (hrx : s.rx = .clearing) : RxMove s { s with negotiated := false, rx := .latching }
  | latch (hrx : s.rx = .latching) :
      RxMove s { s with
        ring := { s.ring with shared := s.ring.shared.markLinkLost }
        rx := .closing }
  | close (hrx : s.rx = .closing) : RxMove s { s with ring := s.ring.markClosed, rx := .waking }
  | wake (hrx : s.rx = .waking) : RxMove s { s with ring := s.ring.notifyAll, rx := .returned }

omit [DecidableEq W] [DecidableEq C] in
theorem rxStep_move {s s' : Link W C} {event : RxEvent}
    (h : rxStep s s.rx event = some s') : RxMove s s' := by
  cases hrx : s.rx with
  | head =>
    rw [hrx] at h
    cases event with
    | go =>
      obtain rfl := Option.some.inj h
      unfold loopHead
      split
      · rename_i hstop
        exact .stopped hrx hstop
      · split
        · rename_i hneed
          exact .broken hrx hneed
        · exact .listen hrx
    | _ => cases h
  | reading =>
    rw [hrx] at h
    cases event with
    | chunk bytes =>
      simp only [rxStep] at h
      split at h
      · rename_i hlen
        obtain rfl := Option.some.inj h
        unfold receiveChunk
        split
        · rename_i rx hnext
          exact .next hrx bytes hlen rx hnext
        · rename_i f next hpush
          exact .decode hrx bytes f next hpush
        · exact .undecodable hrx
      · cases h
    | fail =>
      obtain rfl := Option.some.inj h
      exact .readError hrx
    | _ => cases h
  | filtering f next =>
    rw [hrx] at h
    cases event with
    | stamp now =>
      obtain rfl := Option.some.inj h
      unfold filterFrame
      split
      · exact .accept f next hrx now
      · exact .reject f next hrx
    | _ => cases h
  | offering f now next =>
    rw [hrx] at h
    cases event with
    | go =>
      obtain rfl := Option.some.inj h
      unfold offerFrame
      have henqueue := RxMove.enqueue f now next hrx
      have hoverrun := RxMove.overrun f now next hrx
      split
      · rename_i ring hoffer
        rwa [hoffer] at henqueue
      · rename_i ring hoffer
        rwa [hoffer] at hoverrun
    | _ => cases h
  | notifying next =>
    rw [hrx] at h
    cases event with
    | wake target =>
      obtain ⟨ring, hnotify, rfl⟩ := Option.map_eq_some_iff.mp h
      exact .notify next hrx target ring hnotify
    | _ => cases h
  | calling next =>
    rw [hrx] at h
    cases event with
    | go =>
      obtain rfl := Option.some.inj h
      exact .called next hrx
    | _ => cases h
  | swapping =>
    rw [hrx] at h
    cases event with
    | go =>
      obtain rfl := Option.some.inj h
      unfold swapRunning
      split
      · rename_i hrunning
        exact .swap hrx hrunning
      · rename_i hstop
        exact .late hrx (by simpa using hstop)
    | _ => cases h
  | clearing =>
    rw [hrx] at h
    cases event with
    | go =>
      obtain rfl := Option.some.inj h
      exact .clear hrx
    | _ => cases h
  | latching =>
    rw [hrx] at h
    cases event with
    | go =>
      obtain rfl := Option.some.inj h
      exact .latch hrx
    | _ => cases h
  | closing =>
    rw [hrx] at h
    cases event with
    | go =>
      obtain rfl := Option.some.inj h
      exact .close hrx
    | _ => cases h
  | waking =>
    rw [hrx] at h
    cases event with
    | go =>
      obtain rfl := Option.some.inj h
      exact .wake hrx
    | _ => cases h
  | returned =>
    rw [hrx] at h
    cases event <;> cases h

end Kvasilloni.TcpLink
