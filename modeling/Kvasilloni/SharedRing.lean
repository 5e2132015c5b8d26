import Kvasilloni.Frames
import Kvasilloni.Library.BoundedFifo
import Kvasilloni.Library.StepSystem

/-!
The receive state that the RX thread and the API share: the bounded ring, its
latches, the acceptance filter and the registered callback. Each operation is one
critical section of the source, with its reply. The lock that is held across a
callback plays no part here; `Threads` models it.
-/
namespace Kvasilloni.SharedRing

open Frames BoundedFifo

def ringCap : ℕ := 8192

def notifyRx : UInt32 := 0x0001
def eventRx : Int32 := 32000

/-- The acceptance filter; a zero mask accepts everything. -/
structure Accept where
  codeStd : UInt32
  maskStd : UInt32
  codeExt : UInt32
  maskExt : UInt32
  deriving DecidableEq

def Accept.default : Accept := ⟨0, 0, 0, 0⟩

def Accept.accepts (a : Accept) (f : Frame) : Bool :=
  let (id, code, mask) :=
    if f.canId &&& canEffFlag ≠ 0 then (f.canId &&& canEffMask, a.codeExt, a.maskExt)
    else (f.canId &&& canSffMask, a.codeStd, a.maskStd)
  id &&& mask == code &&& mask

/-- One `canAccept` directive. -/
def Accept.set (a : Accept) (flag envelope : UInt32) : Accept :=
  if flag = 3 then { a with codeStd := envelope }
  else if flag = 4 then { a with maskStd := envelope }
  else if flag = 5 then { a with codeExt := envelope }
  else if flag = 6 then { a with maskExt := envelope }
  else a

/-- The registered callback; a zero `cb` is no callback. -/
structure Notify where
  cb : ℕ
  flags : UInt32
  tag : ℕ
  deriving DecidableEq

def Notify.default : Notify := ⟨0, 0, 0⟩

/-- What the callback is called with. -/
structure NotifyData where
  tag : ℕ
  eventType : Int32
  id : Int32
  time : UInt32
  deriving DecidableEq

/-- The callback is armed for received frames. -/
abbrev Notify.Armed (n : Notify) : Prop := n.cb ≠ 0 ∧ n.flags &&& notifyRx ≠ 0

/-- The call that a frame causes. -/
def Notify.call (n : Notify) (f : Frame) : Option NotifyData :=
  if n.Armed then
    some {
      tag := n.tag
      eventType := eventRx
      id := (canidToKvaser f.canId f.fd).1
      time := f.rxTimeMs.toUInt32 }
  else none

theorem Notify.call_of_armed {n : Notify} (h : n.Armed) (f : Frame) : ∃ d, n.call f = some d :=
  ⟨_, if_pos h⟩

theorem Notify.call_of_not_armed {n : Notify} (h : ¬ n.Armed) (f : Frame) : n.call f = none :=
  if_neg h

structure Shared where
  q : List Frame
  closed : Bool
  overflow : Bool
  linkLost : Bool
  filters : Accept
  notify : Notify
  deriving DecidableEq

namespace Shared

def new : Shared := ⟨[], false, false, false, Accept.default, Notify.default⟩

/-- The queue section of `push`: the new state, and whether the frame was queued. -/
def enqueue (s : Shared) (f : Frame) : Shared × Bool :=
  if s.q.length ≥ ringCap then ({ s with overflow := true }, false)
  else ({ s with q := s.q ++ [f] }, true)

theorem enqueue_fst (s : Shared) (f : Frame) :
    ∃ q overflow, (s.enqueue f).1 = { s with q := q, overflow := overflow } := by
  unfold enqueue
  split
  · exact ⟨_, _, rfl⟩
  · exact ⟨_, _, rfl⟩

end Shared

/-- A frame with its receive timestamp. -/
def stamp (now : UInt64) (f : Frame) : Frame := { f with rxTimeMs := now }

namespace Shared

/-- Filter, stamp and queue a frame, and call the callback for it. -/
def push (s : Shared) (now : UInt64) (f : Frame) : Shared × Option NotifyData :=
  if s.filters.accepts f then
    let f := stamp now f
    match s.enqueue f with
    | (s, true) => (s, s.notify.call f)
    | (s, false) => (s, none)
  else (s, none)

/-- A push changes at most the queue and the latch of the overrun. -/
theorem push_fst (s : Shared) (now : UInt64) (f : Frame) :
    ∃ q overflow, (s.push now f).1 = { s with q := q, overflow := overflow } := by
  have hstate : ∀ t : Shared × Bool, (match t with
      | (s, true) => (s, s.notify.call (stamp now f))
      | (s, false) => (s, none)).1 = t.1 := by
    rintro ⟨t, queued⟩
    cases queued <;> rfl
  unfold push
  split
  · rw [hstate]
    exact enqueue_fst s (stamp now f)
  · exact ⟨_, _, rfl⟩

def pop (s : Shared) : Option Frame × Shared :=
  match s.q with
  | [] => (none, s)
  | f :: q => (some f, { s with q := q })

theorem pop_snd (s : Shared) : s.pop.2 = { s with q := s.q.tail } := by
  obtain ⟨_ | ⟨f, q⟩, closed, overflow, linkLost, filters, notify⟩ := s <;> rfl

/-- A blocking reader goes on when there is a frame, the channel is closed or its
timeout has passed. -/
def waitOver (s : Shared) (timedOut : Bool) : Bool :=
  !(s.q.isEmpty && !s.closed) || timedOut

/-- `none` while the reader is still waiting. -/
def popWait (s : Shared) (timedOut : Bool) : Option (Option Frame × Shared) :=
  if s.waitOver timedOut then some s.pop else none

def peekWait (s : Shared) (timedOut : Bool) : Option Bool :=
  if s.waitOver timedOut then some (!s.q.isEmpty) else none

def markClosed (s : Shared) : Shared := { s with closed := true }

def clear (s : Shared) : Shared := { s with q := [], overflow := false }

def level (s : Shared) : ℕ := s.q.length

def overflowed (s : Shared) : Bool := s.overflow

def markLinkLost (s : Shared) : Shared := { s with linkLost := true }

def setAccept (s : Shared) (flag envelope : UInt32) : Shared :=
  { s with filters := s.filters.set flag envelope }

/-- The swap of the registration in `set_notify`. -/
def setNotify (s : Shared) (n : Notify) : Shared := { s with notify := n }

end Shared

/-! ### The status word -/

def canStatBusOff : UInt32 := 0x00000002
def canStatRxPending : UInt32 := 0x00000020
def canStatSwOverrun : UInt32 := 0x00000400

/-- The flags of `canReadStatus`. -/
def Shared.readStatus (s : Shared) : UInt32 :=
  (if s.level > 0 then canStatRxPending else 0) |||
    (if s.overflowed then canStatSwOverrun else 0) |||
    (if s.linkLost then canStatBusOff else 0)

abbrev Shared.BusOff (s : Shared) : Prop := s.readStatus &&& canStatBusOff ≠ 0

theorem Shared.busOff_iff (s : Shared) : s.BusOff ↔ s.linkLost = true := by
  unfold Shared.BusOff Shared.readStatus
  cases s.linkLost <;> cases s.overflowed <;> by_cases hlevel : s.level > 0 <;>
    simp only [hlevel, ↓reduceIte, Bool.false_eq_true] <;> decide

inductive Op
  | push (now : UInt64) (f : Frame)
  | pop
  | popWait (timedOut : Bool)
  | peekWait (timedOut : Bool)
  | clear
  | level
  | overflowed
  | setAccept (flag envelope : UInt32)
  | setNotify (n : Notify)
  | markClosed
  | markLinkLost
  deriving DecidableEq

inductive Reply
  | done
  | frame (f : Option Frame)
  | yes (b : Bool)
  | count (n : ℕ)
  | called (d : Option NotifyData)
  deriving DecidableEq

/-- One operation with its reply; `none` while a reader is still waiting. -/
def exec (s : Shared) : Op → Option (Shared × Reply)
  | .push now f => some ((s.push now f).1, .called (s.push now f).2)
  | .pop => some (s.pop.2, .frame s.pop.1)
  | .popWait timedOut => (s.popWait timedOut).map fun r => (r.2, .frame r.1)
  | .peekWait timedOut => (s.peekWait timedOut).map fun b => (s, .yes b)
  | .clear => some (s.clear, .done)
  | .level => some (s, .count s.level)
  | .overflowed => some (s, .yes s.overflowed)
  | .setAccept flag envelope => some (s.setAccept flag envelope, .done)
  | .setNotify n => some (s.setNotify n, .done)
  | .markClosed => some (s.markClosed, .done)
  | .markLinkLost => some (s.markLinkLost, .done)

/-- The state behind an operation that returns. -/
def after (s : Shared) : Op → Shared
  | .push now f => (s.push now f).1
  | .pop | .popWait _ => s.pop.2
  | .peekWait _ | .level | .overflowed => s
  | .clear => s.clear
  | .setAccept flag envelope => s.setAccept flag envelope
  | .setNotify n => s.setNotify n
  | .markClosed => s.markClosed
  | .markLinkLost => s.markLinkLost

theorem exec_after {s s' : Shared} {op : Op} {reply : Reply}
    (h : exec s op = some (s', reply)) : s' = after s op := by
  cases op with
  | popWait timedOut =>
    simp only [exec, Shared.popWait] at h
    split at h
    · exact (Prod.mk.inj (Option.some.inj h)).1.symm
    · cases h
  | peekWait timedOut =>
    obtain ⟨b, -, heq⟩ := Option.map_eq_some_iff.mp h
    exact (Prod.mk.inj heq).1.symm
  | push | pop | clear | level | overflowed | setAccept | setNotify | markClosed
  | markLinkLost => exact (Prod.mk.inj (Option.some.inj h)).1.symm

def runOps : Shared → List Op → Option Shared :=
  StepSystem.run fun s op => (exec s op).map Prod.fst

/-- The frames an operation removes: the one it replies with, or all that it clears. -/
def removedFrames (s : Shared) : Op → Reply → List Frame
  | .clear, _ => s.q
  | _, .frame (some f) => [f]
  | _, _ => []

/-- The frame an operation adds: one that passes the filter and finds room, stamped. -/
def enteredFrames (s : Shared) : Op → List Frame
  | .push now f => if s.filters.accepts f ∧ s.q.length < ringCap then [stamp now f] else []
  | _ => []

def removals (s : Shared) : List Op → List Frame
  | [] => []
  | op :: ops =>
    match exec s op with
    | none => []
    | some (s', reply) => removedFrames s op reply ++ removals s' ops

def arrivals (s : Shared) : List Op → List Frame
  | [] => []
  | op :: ops =>
    match exec s op with
    | none => []
    | some (s', _) => enteredFrames s op ++ arrivals s' ops

def filtersInForce (a : Accept) : List Op → Accept
  | [] => a
  | .setAccept flag envelope :: ops => filtersInForce (a.set flag envelope) ops
  | _ :: ops => filtersInForce a ops

/-- A frame that passed the filter was dropped for lack of room, and the ring has
not been cleared since. -/
def DroppedSinceClear (s : Shared) (ops : List Op) : Prop :=
  ∃ pre now f post t, ops = pre ++ .push now f :: post ∧ runOps s pre = some t ∧
    t.filters.accepts f = true ∧ ringCap ≤ t.q.length ∧ ∀ op ∈ post, op ≠ .clear

/-- The clock readings of the pushes. -/
def clockReadings : List Op → List UInt64
  | [] => []
  | .push now _ :: ops => now :: clockReadings ops
  | _ :: ops => clockReadings ops

end Kvasilloni.SharedRing
