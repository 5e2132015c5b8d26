import Kvasilloni.Library.StepSystem
import Kvasilloni.Library.WaitFor
import Kvasilloni.Reception
import Kvasilloni.WaitingReaders

/-!
The whole shim as threads that run lists of statements. Any number of channels is open and
any number of threads calls the API; the RX thread of a channel runs `push` for each frame,
and its callback calls the API in turn. A statement takes a lock, releases one, joins a
thread, or acts on the shared memory, which may put further statements in front of the
rest. A parked reader may go on at any time, so the notifications wake nobody here. Atomic
loads that decide nothing, the logging and what the calls return are left out.
-/
namespace Kvasilloni.Programs

open Frames SharedRing
open Reception (Transport)
open WaitingReaders (Wait)

/-- A thread of the app, or the RX thread of a channel. -/
inductive Thread (T C : Type)
  | app (t : T)
  | rx (c : C)
  deriving DecidableEq

inductive Lock (C : Type)
  | conns
  | q (c : C)
  | filters (c : C)
  | notify (c : C)
  | cbActive (c : C)
  | tx (c : C)
  | handle (c : C)
  deriving DecidableEq

/-- A call of the API. An open names the connection that it makes. -/
inductive Request (C : Type)
  | canOpenChannel (c : C) (transport : Transport)
  | canWrite (hnd : Int32)
  | canRead (hnd : Int32)
  | canReadWait (hnd : Int32) (timeout : UInt32)
  | canReadSync (hnd : Int32) (timeout : UInt32)
  | canReadStatus (hnd : Int32)
  | canFlushReceiveQueue (hnd : Int32)
  | canIoCtl (hnd : Int32) (func : UInt32)
  | canAccept (hnd : Int32) (flag envelope : UInt32)
  | canSetNotify (hnd : Int32) (n : Notify)
  | canClose (hnd : Int32)
  deriving DecidableEq

/-- The statements that act on the shared memory and never wait. -/
inductive Act (C : Type)
  | fetchHandle (c : C)
  | insert (hnd : Int32) (c : C)
  | find (hnd : Int32) (r : Request C)
  | remove (hnd : Int32)
  | drop (c : C)
  | popFront (c : C)
  | beginWait (c : C) (w : Wait) (timeout : UInt32)
  | look (c : C) (w : Wait) (duration : ℕ) (expired : Bool)
  | empty (c : C)
  | resetOverflow (c : C)
  | level (c : C)
  | setFilter (c : C) (flag envelope : UInt32)
  | swapNotify (c : C) (n : Notify)
  | drain (c : C)
  | checkReady (c : C)
  | send (c : C)
  | stopRunning (c : C)
  | stopNegotiated (c : C)
  | shutdown (c : C)
  | setClosed (c : C)
  | notifyAll (c : C)
  | takeHandle (c : C)
  | tryJoin (c : C)
  | accepts (c : C) (f : Frame) (now : UInt64)
  | offer (c : C) (f : Frame)
  | notifyOne (c : C)
  | readNotify (c : C)
  | swapRunning (c : C)
  | latchLinkLost (c : C)
  deriving DecidableEq

inductive Stmt (C : Type)
  | lock (l : Lock C)
  | unlock (l : Lock C)
  | park (c : C) (w : Wait) (duration : ℕ)
  | join (c : C)
  | enterScope
  | callback
  | leaveScope
  | exit (c : C)
  | act (a : Act C)
  deriving DecidableEq

variable {T C : Type}

/-! ### The operations on one channel -/

/-- `Shared::pop` -/
def pop (c : C) : List (Stmt C) := [.lock (.q c), .act (.popFront c), .unlock (.q c)]

def level (c : C) : List (Stmt C) := [.lock (.q c), .act (.level c), .unlock (.q c)]

def clear (c : C) : List (Stmt C) :=
  [.lock (.q c), .act (.empty c), .unlock (.q c), .act (.resetOverflow c)]

def setAccept (c : C) (flag envelope : UInt32) : List (Stmt C) :=
  [.lock (.filters c), .act (.setFilter c flag envelope), .unlock (.filters c)]

def setNotify (c : C) (n : Notify) : List (Stmt C) :=
  [.lock (.notify c), .act (.swapNotify c n), .unlock (.notify c), .act (.drain c)]

def markClosed (c : C) : List (Stmt C) :=
  [.lock (.q c), .act (.setClosed c), .unlock (.q c), .act (.notifyAll c)]

/-- `Conn::write` -/
def write (c : C) : List (Stmt C) := [.act (.checkReady c)]

/-- `Conn::close` -/
def close (c : C) : List (Stmt C) :=
  .act (.stopRunning c) :: .act (.stopNegotiated c) :: markClosed c ++
    [.act (.shutdown c), .lock (.handle c), .act (.takeHandle c)]

/-! ### The calls of the API -/

/-- What a call does with the connection that it has found. -/
def body (c : C) : Request C → List (Stmt C)
  | .canWrite _ => write c ++ [.act (.drop c)]
  | .canRead _ => pop c ++ [.act (.drop c)]
  | .canReadWait _ timeout => [.act (.beginWait c .popWait timeout), .act (.drop c)]
  | .canReadSync _ timeout => [.act (.beginWait c .peekWait timeout)]
  | .canReadStatus _ => level c ++ [.act (.drop c)]
  | .canFlushReceiveQueue _ => clear c ++ [.act (.drop c)]
  | .canIoCtl _ func => (if func = 10 then clear c else level c) ++ [.act (.drop c)]
  | .canAccept _ flag envelope => setAccept c flag envelope ++ [.act (.drop c)]
  | .canSetNotify _ n => setNotify c n ++ [.act (.drop c)]
  | .canOpenChannel _ _ => []
  | .canClose _ => close c ++ [.act (.drop c)]

/-- `canReadSync` keeps the shared state alive and not the connection. -/
def Request.clonesConn : Request C → Bool
  | .canReadSync _ _ => false
  | _ => true

def findConn (hnd : Int32) (r : Request C) : List (Stmt C) :=
  [.lock .conns, .act (.find hnd r)]

/-- The statements with which a call begins. -/
def program : Request C → List (Stmt C)
  | .canOpenChannel c _ => [.act (.fetchHandle c)]
  | .canWrite hnd => findConn hnd (.canWrite hnd)
  | .canRead hnd => findConn hnd (.canRead hnd)
  | .canReadWait hnd timeout => findConn hnd (.canReadWait hnd timeout)
  | .canReadSync hnd timeout => findConn hnd (.canReadSync hnd timeout)
  | .canReadStatus hnd => findConn hnd (.canReadStatus hnd)
  | .canFlushReceiveQueue hnd => findConn hnd (.canFlushReceiveQueue hnd)
  | .canIoCtl hnd func =>
    if func = 10 ∨ func = 8 then findConn hnd (.canIoCtl hnd func) else []
  | .canAccept hnd flag envelope => findConn hnd (.canAccept hnd flag envelope)
  | .canSetNotify hnd n => findConn hnd (.canSetNotify hnd n)
  | .canClose hnd => [.lock .conns, .act (.remove hnd)]

/-! ### The RX thread -/

/-- `Shared::push` up to the filter. -/
def push (c : C) (f : Frame) (now : UInt64) : List (Stmt C) :=
  [.lock (.filters c), .act (.accepts c f now)]

/-- `push` behind the filter. -/
def pushAccepted (c : C) (f : Frame) : List (Stmt C) :=
  [.unlock (.filters c), .lock (.q c), .act (.offer c f)]

/-- `push` behind the queue. -/
def pushQueued (c : C) : List (Stmt C) :=
  [.unlock (.q c), .act (.notifyOne c), .lock (.cbActive c), .lock (.notify c),
    .act (.readNotify c)]

/-- The end of `push`, with the callback armed. -/
def pushArmed (c : C) : List (Stmt C) :=
  [.unlock (.notify c), .enterScope, .callback, .leaveScope, .unlock (.cbActive c)]

/-- The end of `push`, with no callback to call. -/
def pushSilent (c : C) : List (Stmt C) := [.unlock (.notify c), .unlock (.cbActive c)]

/-- The statements behind the RX loop. -/
def loopEnd (c : C) : Transport → List (Stmt C)
  | .tcp => [.act (.swapRunning c)]
  | .udp => []

/-- The stores of a loop that has ended on its own. -/
def lostLink (c : C) : List (Stmt C) :=
  .act (.stopNegotiated c) :: .act (.latchLinkLost c) :: markClosed c

/-! ### The shared memory -/

structure Chan where
  transport : Transport
  shared : Shared
  running : Bool
  negotiated : Bool
  hasHandle : Bool
  refs : ℕ

/-- A connection as `Conn::connect` leaves it. -/
def Chan.connected (transport : Transport) : Chan :=
  ⟨transport, Shared.new, true, true, true, 1⟩

/-- The handle table with its counter, and the connections that were ever made. -/
structure Memory (C : Type) where
  nextHandle : Int32
  conns : Int32 → Option C
  opened : C → Bool
  chans : C → Chan

def Memory.init (C : Type) : Memory C :=
  ⟨1, fun _ => none, fun _ => false, fun _ => Chan.connected .udp⟩

def canWaitInfinite : UInt32 := 0xFFFFFFFF

/-- In milliseconds. -/
def timeoutToDuration (timeout : UInt32) : ℕ :=
  if timeout = canWaitInfinite then 2 ^ 32 - 1 else timeout.toNat

/-- A read inside a callback does not wait. -/
def readWaitDuration (inNotifyCb : Bool) (timeout : UInt32) : ℕ :=
  if inNotifyCb then 0 else timeoutToDuration timeout

variable [DecidableEq C]

def Memory.modify (m : Memory C) (c : C) (f : Chan → Chan) : Memory C :=
  { m with chans := Function.update m.chans c (f (m.chans c)) }

def Memory.modifyShared (m : Memory C) (c : C) (f : Shared → Shared) : Memory C :=
  m.modify c fun chan => { chan with shared := f chan.shared }

/-- An open makes a connection that was not there before; the other calls make none. -/
def Memory.connect (m : Memory C) : Request C → Option (Memory C)
  | .canOpenChannel c transport =>
    if m.opened c then none
    else some { m.modify c (fun _ => Chan.connected transport) with
      opened := Function.update m.opened c true }
  | _ => some m

variable [DecidableEq T]

/-- What a statement makes of the memory, and the statements that it leads to. The outcome
says whether a wait has expired before its first look, and whether a write succeeds. -/
def perform (m : Memory C) (th : Thread T C) (inNotifyCb outcome : Bool) :
    Act C → Memory C × List (Stmt C)
  | .fetchHandle c =>
    ({ m with nextHandle := m.nextHandle + 1 },
      [.lock .conns, .act (.insert m.nextHandle c)])
  | .insert hnd c =>
    ({ m with conns := Function.update m.conns hnd (some c) },
      -- a connection that is replaced is dropped while the lock is held
      match m.conns hnd with
      | some old => [.act (.drop old), .unlock .conns]
      | none => [.unlock .conns])
  | .find hnd r =>
    match m.conns hnd with
    | some c =>
      (if r.clonesConn then m.modify c fun chan => { chan with refs := chan.refs + 1 } else m,
        .unlock .conns :: body c r)
    | none => (m, [.unlock .conns])
  | .remove hnd =>
    match m.conns hnd with
    | some c =>
      ({ m with conns := Function.update m.conns hnd none },
        .unlock .conns :: body c (.canClose hnd))
    | none => (m, [.unlock .conns])
  | .drop c =>
    (m.modify c fun chan => { chan with refs := chan.refs - 1 },
      if (m.chans c).refs = 1 then close c else [])
  | .popFront c => (m.modifyShared c fun s => s.pop.2, [])
  | .beginWait c w timeout =>
    (m, [.lock (.q c), .act (.look c w (readWaitDuration inNotifyCb timeout) outcome)])
  | .look c w duration expired =>
    if (m.chans c).shared.waitOver expired then
      (match w with
        | .popWait => m.modifyShared c fun s => s.pop.2
        | .peekWait => m,
        [.unlock (.q c)])
    else (m, [.unlock (.q c), .park c w duration])
  | .empty c => (m.modifyShared c fun s => { s with q := [] }, [])
  | .resetOverflow c => (m.modifyShared c fun s => { s with overflow := false }, [])
  | .level _ => (m, [])
  | .setFilter c flag envelope => (m.modifyShared c fun s => s.setAccept flag envelope, [])
  | .swapNotify c n => (m.modifyShared c fun s => s.setNotify n, [])
  | .drain c =>
    (m, if inNotifyCb then [] else [.lock (.cbActive c), .unlock (.cbActive c)])
  | .checkReady c =>
    (m, if (m.chans c).negotiated then [.lock (.tx c), .act (.send c)] else [])
  | .send c =>
    (m, if outcome then [.unlock (.tx c)]
      else match (m.chans c).transport with
        | .udp => [.unlock (.tx c)]
        | .tcp => [.act (.stopNegotiated c), .act (.stopRunning c), .act (.shutdown c),
            .unlock (.tx c)])
  | .stopRunning c => (m.modify c fun chan => { chan with running := false }, [])
  | .stopNegotiated c => (m.modify c fun chan => { chan with negotiated := false }, [])
  | .shutdown _ => (m, [])
  | .setClosed c => (m.modifyShared c Shared.markClosed, [])
  | .notifyAll _ => (m, [])
  | .takeHandle c =>
    (m.modify c fun chan => { chan with hasHandle := false },
      if (m.chans c).hasHandle then [.unlock (.handle c), .act (.tryJoin c)]
      else [.unlock (.handle c)])
  | .tryJoin c => (m, if th = .rx c then [] else [.join c])
  | .accepts c f now =>
    (m, if (m.chans c).shared.filters.accepts f then pushAccepted c (stamp now f)
      else [.unlock (.filters c)])
  | .offer c f =>
    (m.modifyShared c fun s => (s.enqueue f).1,
      if ((m.chans c).shared.enqueue f).2 then pushQueued c else [.unlock (.q c)])
  | .notifyOne _ => (m, [])
  | .readNotify c =>
    (m, if (m.chans c).shared.notify.Armed then pushArmed c else pushSilent c)
  | .swapRunning c =>
    (m.modify c fun chan => { chan with running := false },
      if (m.chans c).running then lostLink c else [])
  | .latchLinkLost c => (m.modifyShared c Shared.markLinkLost, [])

/-! ### The steps -/

structure Shim (T C : Type) where
  memory : Memory C
  owner : Lock C → Option (Thread T C)
  prog : Thread T C → List (Stmt C)
  inNotifyCb : Thread T C → Bool
  exited : C → Bool

def Shim.init (T C : Type) : Shim T C :=
  ⟨Memory.init C, fun _ => none, fun _ => [], fun _ => false, fun _ => false⟩

def Shim.setProg (s : Shim T C) (th : Thread T C) (is : List (Stmt C)) : Shim T C :=
  { s with prog := Function.update s.prog th is }

/-- A call of the API starts, in front of what the thread goes on with. -/
def begin (s : Shim T C) (th : Thread T C) (r : Request C) (rest : List (Stmt C)) :
    Option (Shim T C) :=
  (s.memory.connect r).map fun m => { s.setProg th (program r ++ rest) with memory := m }

/-- The next statement of a thread. -/
def go (s : Shim T C) (th : Thread T C) (outcome : Bool) : List (Stmt C) → Option (Shim T C)
  | .lock l :: is =>
    if s.owner l = none then
      some { s.setProg th is with owner := Function.update s.owner l (some th) }
    else none
  | .unlock l :: is => some { s.setProg th is with owner := Function.update s.owner l none }
  | .park c w duration :: is =>
    some (s.setProg th (.lock (.q c) :: .act (.look c w duration outcome) :: is))
  | .join c :: is => if s.exited c then some (s.setProg th is) else none
  | .enterScope :: is =>
    some { s.setProg th is with inNotifyCb := Function.update s.inNotifyCb th true }
  | .leaveScope :: is =>
    some { s.setProg th is with inNotifyCb := Function.update s.inNotifyCb th false }
  | .exit c :: is => some { s.setProg th is with exited := Function.update s.exited c true }
  | .act a :: is =>
    let (memory, more) := perform s.memory th (s.inNotifyCb th) outcome a
    some { s.setProg th (more ++ is) with memory := memory }
  | .callback :: _ => none
  | [] => none

inductive Label (T C : Type)
  | call (t : T) (r : Request C)
  | go (th : Thread T C) (outcome : Bool)
  | frame (c : C) (f : Frame) (now : UInt64)
  | leave (c : C)
  | reenter (c : C) (r : Request C)
  | callbackReturns (c : C)

def step (s : Shim T C) : Label T C → Option (Shim T C)
  | .call t r => if s.prog (.app t) = [] then begin s (.app t) r [] else none
  | .go th outcome => go s th outcome (s.prog th)
  | .frame c f now =>
    if s.memory.opened c ∧ s.exited c = false ∧ s.prog (.rx c) = [] then
      some (s.setProg (.rx c) (push c f now))
    else none
  | .leave c =>
    if s.memory.opened c ∧ s.exited c = false ∧ s.prog (.rx c) = [] then
      some (s.setProg (.rx c) (loopEnd c (s.memory.chans c).transport ++ [.exit c]))
    else none
  | .reenter c r =>
    match s.prog (.rx c) with
    | .callback :: is => begin s (.rx c) r (.callback :: is)
    | _ => none
  | .callbackReturns c =>
    match s.prog (.rx c) with
    | .callback :: is => some (s.setProg (.rx c) is)
    | _ => none

def run (ls : List (Label T C)) : Option (Shim T C) := StepSystem.run step (Shim.init T C) ls

/-! ### Who waits for whom -/

omit [DecidableEq C] [DecidableEq T] in
/-- The thread that alone can let this one go on: the owner of the lock it is about to
take, the thread it joins, or the RX thread that a wait inside a callback waits for. -/
def Shim.waitsFor (s : Shim T C) (th : Thread T C) : Option (Thread T C) :=
  match s.prog th with
  | .lock l :: _ => s.owner l
  | .join c :: _ => if s.exited c then none else some (.rx c)
  | .park c _ duration :: _ =>
    if s.inNotifyCb th ∧ duration ≠ 0 then some (.rx c) else none
  | _ => none

def Shim.Waits (s : Shim T C) (th th' : Thread T C) : Prop := s.waitsFor th = some th'

/-- The RX thread of one channel, inside its callback, joins that of another. -/
def Shim.Joins (s : Shim T C) (a b : C) : Prop :=
  (∃ is, s.prog (.rx a) = .join b :: is) ∧ s.exited b = false

end Kvasilloni.Programs
