import Kvasilloni.SharedRing

/-!
The receive ring refines a bounded FIFO. Every operation is one event of the
abstract queue, on the frames that are queued and the overrun latch, so the
bookkeeping of whole runs is that of the abstract queue.
-/
namespace Kvasilloni.RingFifo

open Frames BoundedFifo SharedRing

/-- The abstract queue of a receive state. -/
def abs (s : Shared) : Fifo Frame := ⟨s.q, s.overflow⟩

/-- The event of the abstract queue that an operation is. -/
def event (s : Shared) : Op → Event Frame
  | .push now f => if s.filters.accepts f then .offer (stamp now f) else .observe
  | .pop => .take
  | .popWait _ => .take
  | .clear => .drain
  | _ => .observe

def events (s : Shared) : List Op → List (Event Frame)
  | [] => []
  | op :: ops =>
    match exec s op with
    | none => []
    | some (s', _) => event s op :: events s' ops

/-- What an operation answers, in the terms of the abstract queue: the frame at its
head, whether it holds any, how many, and whether it lost one. A push answers with the
call that the frame causes when it is let in. -/
def answer (s : Shared) (x : Fifo Frame) : Op → Reply
  | .push now f =>
    .called ((letIn ringCap x (event s (.push now f))).head?.bind s.notify.call)
  | .pop | .popWait _ => .frame x.queue.head?
  | .peekWait _ => .yes !x.queue.isEmpty
  | .level => .count x.queue.length
  | .overflowed => .yes x.lost
  | _ => .done

/-- What one operation does to the queue and answers, in the terms of the abstract one. -/
structure Simulates (s : Shared) (op : Op) (s' : Shared) (reply : Reply) : Prop where
  state : abs s' = step ringCap (abs s) (event s op)
  removed : removedFrames s op reply = taken (abs s) (event s op)
  entered : enteredFrames s op = letIn ringCap (abs s) (event s op)
  answered : reply = answer s (abs s) op

theorem push_simulates (s : Shared) (now : UInt64) (f : Frame) :
    Simulates s (.push now f) (s.push now f).1 (.called (s.push now f).2) := by
  cases haccept : s.filters.accepts f with
  | false =>
    constructor <;> simp [abs, event, Shared.push, haccept, step, removedFrames, taken,
      enteredFrames, letIn, answer]
  | true =>
    by_cases hfull : ringCap ≤ s.q.length
    · have hroom : ¬ s.q.length < ringCap := by omega
      constructor <;> simp [abs, event, Shared.push, Shared.enqueue, haccept, hfull, hroom,
        step, removedFrames, taken, enteredFrames, letIn, answer]
    · have hroom : s.q.length < ringCap := by omega
      constructor <;> simp [abs, event, Shared.push, Shared.enqueue, haccept, hfull, hroom,
        step, removedFrames, taken, enteredFrames, letIn, answer]

private theorem pop_abs (s : Shared) :
    abs s.pop.2 = step ringCap (abs s) .take ∧ s.pop.1 = (abs s).queue.head? ∧
      ∀ op, op ≠ .clear → removedFrames s op (.frame s.pop.1) = taken (abs s) .take := by
  cases hq : s.q with
  | nil =>
    refine ⟨by simp [abs, Shared.pop, hq, step], by simp [abs, Shared.pop, hq],
      fun op hop => ?_⟩
    cases op <;> simp [Shared.pop, hq, removedFrames, taken, abs] at hop ⊢
  | cons f q =>
    refine ⟨by simp [abs, Shared.pop, hq, step], by simp [abs, Shared.pop, hq],
      fun op hop => ?_⟩
    cases op <;> simp [Shared.pop, hq, removedFrames, taken, abs] at hop ⊢

theorem exec_simulates {s s' : Shared} {op : Op} {reply : Reply}
    (h : exec s op = some (s', reply)) : Simulates s op s' reply := by
  cases op with
  | push now f =>
    obtain ⟨rfl, rfl⟩ := Prod.mk.inj (Option.some.inj h)
    exact push_simulates s now f
  | pop =>
    obtain ⟨rfl, rfl⟩ := Prod.mk.inj (Option.some.inj h)
    obtain ⟨hstate, hhead, hremoved⟩ := pop_abs s
    exact ⟨hstate, hremoved _ (by simp), rfl, congrArg Reply.frame hhead⟩
  | popWait timedOut =>
    simp only [exec, Shared.popWait] at h
    split at h
    · obtain ⟨rfl, rfl⟩ := Prod.mk.inj (Option.some.inj h)
      obtain ⟨hstate, hhead, hremoved⟩ := pop_abs s
      exact ⟨hstate, hremoved _ (by simp), rfl, congrArg Reply.frame hhead⟩
    · simp at h
  | peekWait timedOut =>
    simp only [exec, Shared.peekWait] at h
    split at h
    · obtain ⟨rfl, rfl⟩ := Prod.mk.inj (Option.some.inj h)
      exact ⟨rfl, rfl, rfl, rfl⟩
    · simp at h
  | clear | level | overflowed | setAccept flag envelope | setNotify n | markClosed
  | markLinkLost =>
    obtain ⟨rfl, rfl⟩ := Prod.mk.inj (Option.some.inj h)
    exact ⟨rfl, rfl, rfl, rfl⟩

/-- What leaves with an operation, in front of what is queued behind it, is what was
queued before it and what it lets in. -/
theorem exec_conserves {s s' : Shared} {op : Op} {reply : Reply}
    (h : exec s op = some (s', reply)) :
    removedFrames s op reply ++ s'.q = s.q ++ enteredFrames s op := by
  have hsim := exec_simulates h
  have hqueue : s'.q = (step ringCap (abs s) (event s op)).queue := congrArg Fifo.queue hsim.state
  rw [hqueue, hsim.removed, hsim.entered]
  exact taken_append_queue ringCap (abs s) (event s op)

/-- Only a reader waits, and only with time left on an empty ring that is not closed. -/
theorem exec_eq_none_iff (s : Shared) (op : Op) :
    exec s op = none ↔
      (op = .popWait false ∨ op = .peekWait false) ∧ s.q = [] ∧ s.closed = false := by
  cases op with
  | popWait timedOut =>
    cases timedOut <;> simp [exec, Shared.popWait, Shared.waitOver]
  | peekWait timedOut =>
    cases timedOut <;> simp [exec, Shared.peekWait, Shared.waitOver]
  | _ => simp [exec]

/-- The operations that only look leave the state as it was. -/
theorem exec_looks {s s' : Shared} {op : Op} {reply : Reply}
    (h : exec s op = some (s', reply))
    (hop : (∃ timedOut, op = .peekWait timedOut) ∨ op = .level ∨ op = .overflowed) :
    s' = s := by
  rcases hop with ⟨timedOut, rfl⟩ | rfl | rfl <;> exact exec_after h

theorem runOps_cons {s t : Shared} {op : Op} {ops : List Op} :
    runOps s (op :: ops) = some t ↔
      ∃ s' reply, exec s op = some (s', reply) ∧ runOps s' ops = some t := by
  simp only [runOps, StepSystem.run_cons, Option.map_eq_some_iff]
  constructor
  · rintro ⟨s', ⟨⟨u, reply⟩, hexec, rfl⟩, hrest⟩
    exact ⟨u, reply, hexec, hrest⟩
  · rintro ⟨s', reply, hexec, hrest⟩
    exact ⟨s', ⟨(s', reply), hexec, rfl⟩, hrest⟩

/-- A run of operations is a run of the abstract queue. -/
theorem runOps_simulates {s t : Shared} {ops : List Op} (h : runOps s ops = some t) :
    abs t = run ringCap (abs s) (events s ops) ∧
      removals s ops = removed ringCap (abs s) (events s ops) ∧
      arrivals s ops = admitted ringCap (abs s) (events s ops) := by
  induction ops generalizing s with
  | nil =>
    obtain rfl := Option.some.inj h
    exact ⟨rfl, rfl, rfl⟩
  | cons op ops ih =>
    obtain ⟨s', reply, hexec, hrest⟩ := runOps_cons.mp h
    have hsim := exec_simulates hexec
    obtain ⟨hstate, hremoved, harrived⟩ := ih hrest
    rw [hsim.state] at hstate hremoved harrived
    refine ⟨?_, ?_, ?_⟩
    · simpa only [events, hexec, run] using hstate
    · simp only [removals, events, hexec, removed, hsim.removed, hremoved]
    · simp only [arrivals, events, hexec, admitted, hsim.entered, harrived]

/-- Whatever a run removes, in front of what it leaves queued, was queued before it or
entered in it, in this order. -/
theorem runOps_conserves {s t : Shared} {ops : List Op} (h : runOps s ops = some t) :
    removals s ops ++ t.q = s.q ++ arrivals s ops := by
  obtain ⟨hstate, hremoved, harrived⟩ := runOps_simulates h
  have hqueue : t.q = (run ringCap (abs s) (events s ops)).queue := congrArg Fifo.queue hstate
  rw [hremoved, harrived, hqueue]
  exact removed_append_queue ringCap (abs s) (events s ops)

theorem exec_filters {s s' : Shared} {op : Op} {reply : Reply}
    (h : exec s op = some (s', reply)) (ops : List Op) :
    filtersInForce s.filters (op :: ops) = filtersInForce s'.filters ops := by
  obtain rfl := exec_after h
  cases op with
  | push now f =>
    show filtersInForce s.filters ops = filtersInForce (s.push now f).1.filters ops
    obtain ⟨q, overflow, hpush⟩ := s.push_fst now f
    rw [hpush]
  | pop | popWait timedOut =>
    show filtersInForce s.filters ops = filtersInForce s.pop.2.filters ops
    rw [Shared.pop_snd]
  | peekWait | clear | level | overflowed | setAccept | setNotify | markClosed | markLinkLost =>
    rfl

theorem runOps_filters {s t : Shared} {ops : List Op} (h : runOps s ops = some t) :
    t.filters = filtersInForce s.filters ops := by
  induction ops generalizing s with
  | nil =>
    obtain rfl := Option.some.inj h
    rfl
  | cons op ops ih =>
    obtain ⟨s', reply, hexec, hrest⟩ := runOps_cons.mp h
    rw [ih hrest, exec_filters hexec]

theorem droppedSinceClear_cons {s s' : Shared} {op : Op} {reply : Reply} {ops : List Op}
    (h : exec s op = some (s', reply)) :
    DroppedSinceClear s (op :: ops) ↔
      DroppedSinceClear s' ops ∨
        (∃ now f, op = .push now f ∧ s.filters.accepts f = true) ∧ ringCap ≤ s.q.length ∧
          ∀ d ∈ ops, d ≠ .clear := by
  constructor
  · rintro ⟨_ | ⟨d, pre⟩, now, f, post, t, hops, hrun, haccept, hfull, hpost⟩
    · simp only [List.nil_append, List.cons.injEq] at hops
      obtain ⟨rfl, rfl⟩ := hops
      obtain rfl := Option.some.inj hrun
      exact Or.inr ⟨⟨now, f, rfl, haccept⟩, hfull, hpost⟩
    · simp only [List.cons_append, List.cons.injEq] at hops
      obtain ⟨rfl, rfl⟩ := hops
      obtain ⟨u, reply', hexec, hrest⟩ := runOps_cons.mp hrun
      obtain ⟨rfl, -⟩ := Prod.mk.inj (Option.some.inj (h.symm.trans hexec))
      exact Or.inl ⟨pre, now, f, post, t, rfl, hrest, haccept, hfull, hpost⟩
  · rintro (⟨pre, now, f, post, t, rfl, hrun, haccept, hfull, hpost⟩ |
      ⟨⟨now, f, rfl, haccept⟩, hfull, hpost⟩)
    · exact ⟨op :: pre, now, f, post, t, rfl, runOps_cons.mpr ⟨s', reply, h, hrun⟩,
        haccept, hfull, hpost⟩
    · exact ⟨[], now, f, ops, s, rfl, rfl, haccept, hfull, hpost⟩

theorem event_offer_iff (s : Shared) (op : Op) :
    (∃ a, event s op = .offer a) ↔ ∃ now f, op = .push now f ∧ s.filters.accepts f = true := by
  cases op with
  | push now f => by_cases h : s.filters.accepts f = true <;> simp [event, h]
  | _ => simp [event]

theorem event_ne_drain_iff (s : Shared) (op : Op) : event s op ≠ .drain ↔ op ≠ .clear := by
  cases op with
  | push now f => by_cases h : s.filters.accepts f = true <;> simp [event, h]
  | _ => simp [event]

theorem events_ne_drain {s t : Shared} {ops : List Op} (h : runOps s ops = some t) :
    (∀ e ∈ events s ops, e ≠ .drain) ↔ ∀ op ∈ ops, op ≠ .clear := by
  induction ops generalizing s with
  | nil => simp [events]
  | cons op ops ih =>
    obtain ⟨s', reply, hexec, hrest⟩ := runOps_cons.mp h
    simp only [events, hexec, List.forall_mem_cons, ih hrest, event_ne_drain_iff]

/-- A refused offer of the abstract run is a frame dropped in the run. -/
theorem refused_iff {s t : Shared} {ops : List Op} (h : runOps s ops = some t) :
    Refused ringCap (abs s) (events s ops) ↔ DroppedSinceClear s ops := by
  induction ops generalizing s with
  | nil =>
    refine ⟨fun hr => absurd hr (refused_nil _ _), ?_⟩
    rintro ⟨pre, now, f, post, u, hops, -⟩
    simp at hops
  | cons op ops ih =>
    obtain ⟨s', reply, hexec, hrest⟩ := runOps_cons.mp h
    rw [droppedSinceClear_cons hexec, ← ih hrest, (exec_simulates hexec).state,
      ← event_offer_iff, ← events_ne_drain hrest]
    simp only [events, hexec]
    exact refused_cons _ _ _ _

theorem offered_events_clock (s : Shared) (ops : List Op) :
    (((events s ops).flatMap offered).map Frame.rxTimeMs).Sublist (clockReadings ops) := by
  induction ops generalizing s with
  | nil => exact List.Sublist.refl _
  | cons op ops ih =>
    simp only [events]
    cases hexec : exec s op with
    | none => exact List.nil_sublist _
    | some r =>
      simp only [List.flatMap_cons, List.map_append]
      cases op with
      | push now f =>
        by_cases haccept : s.filters.accepts f = true
        · simpa [event, haccept, offered, clockReadings, stamp] using ih r.1
        · simpa [event, haccept, offered, clockReadings] using (ih r.1).trans
            (List.sublist_cons_self _ _)
      | _ => simpa [event, offered, clockReadings] using ih r.1

/-- The ring is a bounded FIFO in every run from a fresh state: the run is one of the
abstract queue, and every operation that returns does to the frames what the abstract one
does and answers what it answers, while only a reader of an empty ring that is not closed
waits. It never holds more than its capacity; what was removed, followed by what is queued,
is what passed the filter and found room, in order of arrival; the overrun latch tells
exactly whether a frame was dropped since the last clear; looking changes nothing; and
under a monotonic clock the timestamps never go back. -/
theorem ring_is_bounded_fifo (ops : List Op) (s : Shared)
    (hrun : runOps Shared.new ops = some s) :
    abs s = run ringCap BoundedFifo.empty (events Shared.new ops) ∧
    (∀ op s' reply, exec s op = some (s', reply) → Simulates s op s' reply) ∧
    (∀ op, exec s op = none ↔
      (op = .popWait false ∨ op = .peekWait false) ∧ s.q = [] ∧ s.closed = false) ∧
    s.q.length ≤ ringCap ∧
    removals Shared.new ops ++ s.q = arrivals Shared.new ops ∧
    s.filters = filtersInForce Accept.default ops ∧
    (exec s .overflowed = some (s, .yes true) ↔ DroppedSinceClear Shared.new ops) ∧
    (∀ op s' reply, exec s op = some (s', reply) →
      (∃ timedOut, op = .peekWait timedOut) ∨ op = .level ∨ op = .overflowed → s' = s) ∧
    ((clockReadings ops).Pairwise (· ≤ ·) →
      ((removals Shared.new ops ++ s.q).map Frame.rxTimeMs).Pairwise (· ≤ ·)) := by
  obtain ⟨hstate, -, harrived⟩ := runOps_simulates hrun
  have hqueue : s.q = (run ringCap (abs Shared.new) (events Shared.new ops)).queue :=
    congrArg Fifo.queue hstate
  have hlost : s.overflow = (run ringCap (abs Shared.new) (events Shared.new ops)).lost :=
    congrArg Fifo.lost hstate
  have hconserved : removals Shared.new ops ++ s.q = arrivals Shared.new ops :=
    runOps_conserves hrun
  refine ⟨hstate, fun op s' reply h => exec_simulates h, exec_eq_none_iff s, ?_, hconserved,
    runOps_filters hrun, ?_, fun op s' reply h hop => exec_looks h hop, ?_⟩
  · rw [hqueue]
    exact run_length_le _ _ _ (Nat.zero_le _)
  · have hreply : exec s .overflowed = some (s, .yes true) ↔ s.overflow = true := by
      simp [exec, Shared.overflowed]
    rw [hreply, hlost, run_lost_iff, refused_iff hrun]
    simp [abs, Shared.new]
  · intro hclock
    rw [hconserved, harrived]
    exact hclock.sublist (((admitted_sublist _ _ _).map _).trans
      (offered_events_clock _ _))

/-- One frame passes, a filter is set, the next frame is refused, the first is read. -/
def filteredRun : List Op :=
  [.push 3 Frame.default, .setAccept 4 0x7FF, .setAccept 3 1, .push 5 Frame.default, .pop]

theorem ring_is_bounded_fifo_filtered :
    removals Shared.new filteredRun ++ [] = arrivals Shared.new filteredRun :=
  (ring_is_bounded_fifo filteredRun
    { Shared.new with filters := ⟨1, 0x7FF, 0, 0⟩ } rfl).2.2.2.2.1

end Kvasilloni.RingFifo
