import Kvasilloni.EndToEnd
import Kvasilloni.Library.StepSystem
import Mathlib.Logic.Function.Basic

/-!
The sending side of a TCP channel: any number of threads in `canWrite`, any number of
closes, and the end of the RX loop. Every statement of `Conn::write` that another thread
can see is a step of its own, and so is each partial write that the socket accepts. The
latches that the closing parties set for readers play no part here.
-/
namespace Kvasilloni.Transmit

open CheckedMemory Frames Grammar Streams Marshal

/-- The stores of the error path of `Conn::write`, in their order. -/
inductive FailStage
  | negotiated
  | running
  | shutdown

/-- Where a thread stands in `Conn::write`. -/
inductive WriterPc
  | idle
  | ready (f : Frame)
  | locking (f : Frame)
  | encoding (f : Frame)
  | sending (f : Frame) (buf : Bytes) (n : ℕ)
  | failing (f : Frame) (stage : FailStage)
  | failed (f : Frame)

/-- The frame of a writer that holds the tx lock. -/
def WriterPc.held : WriterPc → Option Frame
  | .encoding f => some f
  | .sending f _ _ => some f
  | .failing f _ => some f
  | .failed f => some f
  | .idle | .ready _ | .locking _ => none

/-- Where a thread stands in `Conn::close`. -/
inductive CloserPc
  | idle
  | running
  | negotiated
  | shutdown

/-- Where the RX thread stands. -/
inductive RxPc
  | looping
  | swapping
  | clearing
  | exited

/-- The connection, with the threads that work on it. `taken` lists the frames in the
order in which the tx lock was taken for them, and `done` the writes that took it and
have returned, with their success. -/
structure Link (W C : Type) where
  isOpen : Bool
  running : Bool
  negotiated : Bool
  txOwner : Option W
  poisoned : Bool
  sent : Bytes
  shut : Bool
  writers : W → WriterPc
  closers : C → CloserPc
  rx : RxPc
  taken : List Frame
  done : List (Frame × Bool)

/-- `handshake`: the banner is sent, and the same twelve bytes are expected. -/
def handshake (received : Bytes) : Option Bytes :=
  if received = connectV1 then some connectV1 else none

/-- The connection once the handshake has succeeded. -/
def connect (W C : Type) (received : Bytes) : Option (Link W C) :=
  (handshake received).map fun banner =>
    { isOpen := true
      running := true
      negotiated := true
      txOwner := none
      poisoned := false
      sent := banner
      shut := false
      writers := fun _ => .idle
      closers := fun _ => .idle
      rx := .looping
      taken := []
      done := [] }

variable {W C : Type} [DecidableEq W] [DecidableEq C]

def setWriter (s : Link W C) (w : W) (pc : WriterPc) : Link W C :=
  { s with writers := Function.update s.writers w pc }

/-- The write returns and, if it held the tx lock, releases it. -/
def finishWrite (s : Link W C) (w : W) (f : Frame) (ok : Bool) : Link W C :=
  { s with
    txOwner := none
    writers := Function.update s.writers w .idle
    done := s.done ++ [(f, ok)] }

/-- The next statement of a writer, or `none` where it waits for the lock or the socket. -/
def writerGo (s : Link W C) (w : W) : WriterPc → Option (Link W C)
  | .idle => none
  | .ready f =>
    if s.negotiated then some (setWriter s w (.locking f)) else some (setWriter s w .idle)
  | .locking f =>
    if s.txOwner.isSome then none
    else if s.poisoned then some (setWriter s w .idle)
    else some { setWriter s w (.encoding f) with txOwner := some w, taken := s.taken ++ [f] }
  | .encoding f =>
    match encodeFrame [] f with
    | .ok buf => some (setWriter s w (.sending f buf 0))
    | .error _ => some { finishWrite s w f false with poisoned := true }
  | .sending f buf n => if n = buf.length then some (finishWrite s w f true) else none
  | .failing f .negotiated =>
    some { setWriter s w (.failing f .running) with negotiated := false }
  | .failing f .running => some { setWriter s w (.failing f .shutdown) with running := false }
  | .failing f .shutdown => some { setWriter s w (.failed f) with shut := true }
  | .failed f => some (finishWrite s w f false)

/-- The socket accepts some more bytes of the buffer, unless it has been shut down. -/
def send (s : Link W C) (w : W) (k : ℕ) : WriterPc → Option (Link W C)
  | .sending f buf n =>
    if 0 < k ∧ n + k ≤ buf.length ∧ s.shut = false then
      some { setWriter s w (.sending f buf (n + k)) with
        sent := s.sent ++ (buf.drop n).take k }
    else none
  | _ => none

/-- The socket fails before it has accepted the whole buffer. -/
def sendFail (s : Link W C) (w : W) : WriterPc → Option (Link W C)
  | .sending f buf n =>
    if n < buf.length then some (setWriter s w (.failing f .negotiated)) else none
  | _ => none

def setCloser (s : Link W C) (c : C) (pc : CloserPc) : Link W C :=
  { s with closers := Function.update s.closers c pc }

/-- The statements of `Conn::close` up to the shutdown of the socket; the join behind it
sends nothing. -/
def closerGo (s : Link W C) (c : C) : CloserPc → Option (Link W C)
  | .idle => none
  | .running => some { setCloser s c .negotiated with running := false }
  | .negotiated => some { setCloser s c .shutdown with negotiated := false }
  | .shutdown => some { setCloser s c .idle with shut := true }

/-- The end of `tcp_rx_loop`, which may come at any time. -/
def rxGo (s : Link W C) : Option (Link W C) :=
  match s.rx with
  | .looping => some { s with rx := .swapping }
  | .swapping =>
    if s.running then some { s with rx := .clearing, running := false }
    else some { s with rx := .exited }
  | .clearing => some { s with rx := .exited, negotiated := false }
  | .exited => none

inductive Label (W C : Type)
  | canWrite (w : W) (id : Int32) (msg : Option Bytes) (dlc flag : UInt32)
  | write (w : W)
  | send (w : W) (k : ℕ)
  | sendFail (w : W)
  | canClose (c : C)
  | drop (c : C)
  | close (c : C)
  | rx

def step (s : Link W C) : Label W C → Option (Link W C)
  | .canWrite w id msg dlc flag =>
    match s.isOpen, s.writers w, writeFrame id msg dlc flag with
    | true, .idle, .ok f => some (setWriter s w (.ready f))
    | _, _, _ => none
  | .write w => writerGo s w (s.writers w)
  | .send w k => send s w k (s.writers w)
  | .sendFail w => sendFail s w (s.writers w)
  | .canClose c =>
    match s.isOpen, s.closers c with
    | true, .idle => some { setCloser s c .running with isOpen := false }
    | _, _ => none
  | .drop c =>
    match s.isOpen, s.closers c with
    | false, .idle => some (setCloser s c .running)
    | _, _ => none
  | .close c => closerGo s c (s.closers c)
  | .rx => rxGo s

end Kvasilloni.Transmit
