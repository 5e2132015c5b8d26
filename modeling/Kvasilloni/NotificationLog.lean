import Kvasilloni.Library.Projection
import Kvasilloni.RingFifo

/-!
The callback invocations of one channel. The RX thread filters a frame, queues it, looks
at the registration and is inside the callback until that returns. Reads, flushes, filter
changes and registrations may come between any two of these steps: from the app, or from
the callback itself. The invocations are the queued frames, each paired with the
registration in force when it was looked at; and the queued frames are those that the ring
has got: what has been taken out of it and what it still holds.
-/
namespace Kvasilloni.NotificationLog

open Frames SharedRing RingFifo

/-- Where the RX thread stands in `push`. -/
inductive Stage
  | idle
  | filtered (f : Frame)
  | queued (f : Frame)
  | calling

/-- The channel with the callback invocations so far: the function and what it was given. -/
structure Channel where
  shared : Shared
  stage : Stage
  log : List (ℕ × NotifyData)

def opened : Channel := ⟨Shared.new, .idle, []⟩

inductive Label
  | arrive (f : Frame)
  | enqueue (now : UInt64)
  | check
  | callbackReturn
  | api (op : Op)

/-- What the app or its callback may call; the other operations belong to the RX thread
and to closing. -/
def isApi : Op → Bool
  | .push _ _ | .markClosed | .markLinkLost => false
  | _ => true

def enqueueFrame (s : Channel) (f : Frame) : Channel :=
  match s.shared.enqueue f with
  | (shared, true) => { s with shared := shared, stage := .queued f }
  | (shared, false) => { s with shared := shared, stage := .idle }

/-- The registration is read once, and the callback it names is entered if it is armed. -/
def checkRegistration (s : Channel) (f : Frame) : Channel :=
  match s.shared.notify.call f with
  | some d => { s with stage := .calling, log := s.log ++ [(s.shared.notify.cb, d)] }
  | none => { s with stage := .idle }

def pushStep (s : Channel) : Stage → Label → Option Channel
  | .idle, .arrive f =>
    if s.shared.filters.accepts f then some { s with stage := .filtered f } else some s
  | .filtered f, .enqueue now => some (enqueueFrame s (stamp now f))
  | .queued f, .check => some (checkRegistration s f)
  | .calling, .callbackReturn => some { s with stage := .idle }
  | _, _ => none

def step (s : Channel) : Label → Option Channel
  | .api op =>
    if isApi op then (exec s.shared op).map fun r => { s with shared := r.1 } else none
  | l => pushStep s s.stage l

def run (ls : List Label) : Option Channel := StepSystem.run step opened ls

/-! ### What the log should be -/

/-- The frame that `push` is done with in a step, and what the ring gets of it: nothing if
the filter refuses the frame or the ring is full, else the frame with its timestamp. -/
def fate (s : Channel) : Label → List (Frame × Option Frame)
  | .arrive f => if s.shared.filters.accepts f then [] else [(f, none)]
  | .enqueue now =>
    match s.stage with
    | .filtered f => [(f, if s.shared.q.length < ringCap then some (stamp now f) else none)]
    | _ => []
  | _ => []

def fates (ls : List Label) : List (Frame × Option Frame) :=
  StepSystem.shown step fate opened ls

def arriving : Label → List Frame
  | .arrive f => [f]
  | _ => []

/-- The frame that has passed the filter and has not been offered to the ring. -/
def offering (s : Channel) : List Frame :=
  match s.stage with
  | .filtered f => [f]
  | _ => []

/-- The frame that a step queues. -/
def queuedBy (s : Channel) (l : Label) : List Frame := (fate s l).filterMap Prod.snd

/-- The frames that a run queues. -/
def queuedFrames (s : Channel) (ls : List Label) : List Frame :=
  StepSystem.shown step queuedBy s ls

/-- The frames that a call takes out of the ring. -/
def takenBy (s : Channel) : Label → List Frame
  | .api op =>
    match exec s.shared op with
    | some (_, reply) => removedFrames s.shared op reply
    | none => []
  | _ => []

/-- The frames that a run takes out of the ring. -/
def takenFrames (s : Channel) (ls : List Label) : List Frame :=
  StepSystem.shown step takenBy s ls

/-- The registrations in force when `push` checked, from the calls of `canSetNotify` alone. -/
def registrations (n : Notify) : List Label → List Notify
  | [] => []
  | .check :: ls => n :: registrations n ls
  | .api (.setNotify m) :: ls => registrations m ls
  | _ :: ls => registrations n ls

/-- The invocation due for a frame under a registration. -/
def dueCall (p : Frame × Notify) : Option (ℕ × NotifyData) :=
  if p.2.cb ≠ 0 ∧ p.2.flags &&& notifyRx ≠ 0 then
    some (p.2.cb, {
      tag := p.2.tag
      eventType := eventRx
      id := (canidToKvaser p.1.canId p.1.fd).1
      time := p.1.rxTimeMs.toUInt32 })
  else none

/-- The queued frame whose registration has not been checked yet. -/
def unchecked (s : Channel) : List Frame :=
  match s.stage with
  | .queued f => [f]
  | _ => []

/-! ### One step -/

/-- What each step can do. -/
inductive Move (s : Channel) : Label → Channel → Prop
  | accept (f : Frame) (hstage : s.stage = .idle)
      (haccept : s.shared.filters.accepts f = true) :
      Move s (.arrive f) { s with stage := .filtered f }
  | refuse (f : Frame) (hstage : s.stage = .idle)
      (hrefuse : s.shared.filters.accepts f = false) : Move s (.arrive f) s
  | enqueue (f : Frame) (hstage : s.stage = .filtered f) (now : UInt64) :
      Move s (.enqueue now) (enqueueFrame s (stamp now f))
  | check (f : Frame) (hstage : s.stage = .queued f) : Move s .check (checkRegistration s f)
  | callbackReturn (hstage : s.stage = .calling) :
      Move s .callbackReturn { s with stage := .idle }
  | api (op : Op) (hapi : isApi op = true) (shared : Shared) (reply : Reply)
      (hexec : exec s.shared op = some (shared, reply)) :
      Move s (.api op) { s with shared := shared }

theorem pushStep_move {s s' : Channel} {l : Label} (h : pushStep s s.stage l = some s') :
    Move s l s' := by
  cases hstage : s.stage with
  | idle =>
    rw [hstage] at h
    cases l with
    | arrive f =>
      simp only [pushStep] at h
      split at h
      · rename_i haccept
        obtain rfl := Option.some.inj h
        exact .accept f hstage haccept
      · rename_i hrefuse
        obtain rfl := Option.some.inj h
        exact .refuse f hstage (Bool.not_eq_true _ ▸ hrefuse)
    | _ => cases h
  | filtered f =>
    rw [hstage] at h
    cases l with
    | enqueue now =>
      obtain rfl := Option.some.inj h
      exact .enqueue f hstage now
    | _ => cases h
  | queued f =>
    rw [hstage] at h
    cases l with
    | check =>
      obtain rfl := Option.some.inj h
      exact .check f hstage
    | _ => cases h
  | calling =>
    rw [hstage] at h
    cases l with
    | callbackReturn =>
      obtain rfl := Option.some.inj h
      exact .callbackReturn hstage
    | _ => cases h

theorem step_cases {s s' : Channel} {l : Label} (h : step s l = some s') : Move s l s' := by
  cases l with
  | api op =>
    simp only [step] at h
    split at h
    · rename_i hapi
      obtain ⟨⟨shared, reply⟩, hexec, rfl⟩ := Option.map_eq_some_iff.mp h
      exact .api op hapi shared reply hexec
    · cases h
  | _ => exact pushStep_move h

theorem queuedBy_arrive (s : Channel) (f : Frame) : queuedBy s (.arrive f) = [] := by
  simp only [queuedBy, fate]
  split <;> rfl

theorem fate_enqueue {s : Channel} {f : Frame} (hstage : s.stage = .filtered f) (now : UInt64) :
    fate s (.enqueue now) =
      [(f, if s.shared.q.length < ringCap then some (stamp now f) else none)] := by
  simp only [fate, hstage]

theorem enqueueFrame_shared {s : Channel} {f : Frame} (hstage : s.stage = .filtered f)
    (now : UInt64) :
    (enqueueFrame s (stamp now f)).shared.q = s.shared.q ++ queuedBy s (.enqueue now) ∧
      (enqueueFrame s (stamp now f)).shared.notify = s.shared.notify ∧
      unchecked (enqueueFrame s (stamp now f)) = queuedBy s (.enqueue now) := by
  rw [queuedBy, fate_enqueue hstage now]
  by_cases hfull : s.shared.q.length ≥ ringCap
  · simp [enqueueFrame, Shared.enqueue, hfull, unchecked]
  · have hroom : s.shared.q.length < ringCap := by omega
    simp [enqueueFrame, Shared.enqueue, hfull, hroom, unchecked]

theorem registrations_of_ne {l : Label} (hcheck : l ≠ .check)
    (hset : ∀ m, l ≠ .api (.setNotify m)) (n : Notify) (ls : List Label) :
    registrations n (l :: ls) = registrations n ls := by
  cases l with
  | check => exact absurd rfl hcheck
  | api op =>
    cases op with
    | setNotify m => exact absurd rfl (hset m)
    | _ => rfl
  | _ => rfl

theorem exec_notify {s s' : Shared} {op : Op} {reply : Reply}
    (h : exec s op = some (s', reply)) (hpush : ∀ now f, op ≠ .push now f) :
    (∃ m, op = .setNotify m ∧ s'.notify = m) ∨
      (∀ m, op ≠ .setNotify m) ∧ s'.notify = s.notify := by
  obtain rfl := exec_after h
  cases op with
  | push now f => exact absurd rfl (hpush now f)
  | setNotify m => exact Or.inl ⟨m, rfl, rfl⟩
  | pop | popWait timedOut =>
    refine Or.inr ⟨by simp, ?_⟩
    show s.pop.2.notify = s.notify
    rw [Shared.pop_snd]
  | peekWait | clear | level | overflowed | setAccept | markClosed | markLinkLost =>
    exact Or.inr ⟨by simp, rfl⟩

/-- What a step contributes: the frames it leaves to be checked, the registration in force
and the invocations, for whatever follows it. -/
structure Contributes (s : Channel) (l : Label) (s' : Channel) (calls : List (ℕ × NotifyData)) :
    Prop where
  log : s'.log = s.log ++ calls
  pairs : ∀ fs ls, ((unchecked s ++ (queuedBy s l ++ fs)).zip
      (registrations s.shared.notify (l :: ls))).filterMap dueCall =
    calls ++ ((unchecked s' ++ fs).zip (registrations s'.shared.notify ls)).filterMap dueCall
  count : ∀ ls, (unchecked s).length + (queuedBy s l).length +
      (registrations s'.shared.notify ls).length =
    (registrations s.shared.notify (l :: ls)).length + (unchecked s').length

/-- A step that checks nothing and registers nothing. -/
theorem contributes_quiet {s s' : Channel} {l : Label} (hcheck : l ≠ .check)
    (hset : ∀ m, l ≠ .api (.setNotify m)) (hlog : s'.log = s.log)
    (hnotify : s'.shared.notify = s.shared.notify)
    (hframes : unchecked s ++ queuedBy s l = unchecked s') : Contributes s l s' [] := by
  refine ⟨?_, fun fs ls => ?_, fun ls => ?_⟩
  · rw [hlog, List.append_nil]
  · rw [registrations_of_ne hcheck hset, hnotify, ← List.append_assoc, hframes,
      List.nil_append]
  · rw [registrations_of_ne hcheck hset, hnotify, ← hframes, List.length_append]
    omega

theorem checkRegistration_keeps (s : Channel) (f : Frame) :
    (checkRegistration s f).shared = s.shared ∧ unchecked (checkRegistration s f) = [] ∧
      offering (checkRegistration s f) = [] := by
  unfold checkRegistration
  split <;> exact ⟨rfl, rfl, rfl⟩

theorem check_contributes {s : Channel} {f : Frame} (hstage : s.stage = .queued f) :
    Contributes s .check (checkRegistration s f) (dueCall (f, s.shared.notify)).toList := by
  have hcall : (s.shared.notify.call f).map (fun d => (s.shared.notify.cb, d)) =
      dueCall (f, s.shared.notify) := by
    unfold Notify.call dueCall
    split <;> rfl
  have hunchecked : unchecked s = [f] := by simp only [unchecked, hstage]
  have hquiet : queuedBy s .check = [] := rfl
  obtain ⟨hshared, hafter, -⟩ := checkRegistration_keeps s f
  refine ⟨?_, fun fs ls => ?_, fun ls => ?_⟩
  · rw [← hcall]
    unfold checkRegistration
    split <;> rename_i heq <;> simp [heq]
  · rw [hunchecked, hafter, hshared, hquiet]
    simp only [List.nil_append, List.cons_append, registrations, List.zip_cons_cons,
      List.filterMap_cons]
    cases dueCall (f, s.shared.notify) <;> rfl
  · rw [hunchecked, hafter, hshared, hquiet]
    simp only [registrations, List.length_cons, List.length_nil]
    omega

theorem enqueue_contributes {s : Channel} {f : Frame} (hstage : s.stage = .filtered f)
    (now : UInt64) :
    Contributes s (.enqueue now) (enqueueFrame s (stamp now f)) [] := by
  have hunchecked : unchecked s = [] := by simp only [unchecked, hstage]
  obtain ⟨-, hnotify, hafter⟩ := enqueueFrame_shared hstage now
  refine contributes_quiet (fun h => by cases h) (fun m h => by cases h) ?_ hnotify ?_
  · unfold enqueueFrame
    split <;> rfl
  · rw [hunchecked, hafter, List.nil_append]

theorem api_contributes {s : Channel} {op : Op} {shared : Shared} {reply : Reply}
    (hapi : isApi op = true) (hexec : exec s.shared op = some (shared, reply)) :
    Contributes s (.api op) { s with shared := shared } [] := by
  have hpush : ∀ now f, op ≠ .push now f := by
    rintro now f rfl
    cases hapi
  have hquiet : queuedBy s (.api op) = [] := rfl
  rcases exec_notify hexec hpush with ⟨m, rfl, hm⟩ | ⟨hset, hkept⟩
  · refine ⟨(List.append_nil _).symm, fun fs ls => ?_, fun ls => ?_⟩
    · simp only [hquiet, List.nil_append, registrations, hm]
      rfl
    · simp only [hquiet, List.length_nil, registrations, hm]
      exact Nat.add_comm ..
  · refine contributes_quiet (fun hl => by cases hl) (fun m hl => ?_) rfl hkept
      (List.append_nil _)
    exact hset m (Label.api.inj hl)

theorem step_contributes {s s' : Channel} {l : Label} (h : step s l = some s') :
    ∃ calls, Contributes s l s' calls := by
  cases step_cases h with
  | accept f hstage =>
    refine ⟨_, contributes_quiet (fun hl => by cases hl) (fun m hl => by cases hl) rfl rfl ?_⟩
    rw [queuedBy_arrive]
    simp only [unchecked, hstage, List.append_nil]
  | refuse f =>
    refine ⟨_, contributes_quiet (fun hl => by cases hl) (fun m hl => by cases hl) rfl rfl ?_⟩
    rw [queuedBy_arrive, List.append_nil]
  | enqueue f hstage now => exact ⟨_, enqueue_contributes hstage now⟩
  | check f hstage => exact ⟨_, check_contributes hstage⟩
  | callbackReturn hstage =>
    refine ⟨_, contributes_quiet (fun hl => by cases hl) (fun m hl => by cases hl) rfl rfl ?_⟩
    have hquiet : queuedBy s .callbackReturn = [] := rfl
    rw [hquiet]
    simp only [unchecked, hstage, List.append_nil]
  | api op hapi shared reply hexec => exact ⟨_, api_contributes hapi hexec⟩

/-! ### The ring and the frames -/

/-- What a step takes out of the ring, in front of what it leaves there, is what was there
and the frame that it queues. -/
theorem step_takes {s s' : Channel} {l : Label} (h : step s l = some s') :
    takenBy s l ++ s'.shared.q = s.shared.q ++ queuedBy s l := by
  cases step_cases h with
  | accept f | refuse f =>
    rw [queuedBy_arrive, List.append_nil]
    rfl
  | enqueue f hstage now => exact (enqueueFrame_shared hstage now).1
  | check f =>
    rw [(checkRegistration_keeps s f).1]
    exact (List.append_nil _).symm
  | callbackReturn => exact (List.append_nil _).symm
  | api op hapi shared reply hexec =>
    have hentered : enteredFrames s.shared op = [] := by
      cases op with
      | push now f => cases hapi
      | _ => rfl
    have htaken : takenBy s (.api op) = removedFrames s.shared op reply := by
      simp only [takenBy, hexec]
    have hconserves := exec_conserves hexec
    rw [hentered] at hconserves
    rw [htaken]
    exact hconserves

/-- The frames that a step is done with and the one that it leaves to be offered are the one
that there was and the one that arrives. -/
theorem step_offers {s s' : Channel} {l : Label} (h : step s l = some s') :
    (fate s l).map Prod.fst ++ offering s' = offering s ++ arriving l := by
  cases step_cases h with
  | accept f hstage haccept =>
    simp only [fate, haccept, ↓reduceIte, offering, hstage, arriving, List.map_nil]
  | refuse f hstage hrefuse =>
    simp only [fate, hrefuse, Bool.false_eq_true, ↓reduceIte, offering, hstage, arriving,
      List.map_cons, List.map_nil, List.append_nil, List.nil_append]
  | enqueue f hstage now =>
    have hafter : offering (enqueueFrame s (stamp now f)) = [] := by
      unfold enqueueFrame
      split <;> rfl
    rw [fate_enqueue hstage now, hafter]
    simp only [offering, hstage, arriving, List.map_cons, List.map_nil]
  | check f hstage =>
    rw [(checkRegistration_keeps s f).2.2]
    simp only [fate, offering, hstage, arriving, List.map_nil]
  | callbackReturn hstage => simp only [fate, offering, hstage, arriving, List.map_nil]
  | api op => exact (List.append_nil _).symm

/-! ### Whole runs -/

/-- The log grows by the invocations due for the unchecked and the newly queued frames. -/
theorem run_log {s t : Channel} {ls : List Label} (h : StepSystem.run step s ls = some t) :
    t.log = s.log ++ ((unchecked s ++ queuedFrames s ls).zip
      (registrations s.shared.notify ls)).filterMap dueCall ∧
    (unchecked s).length + (queuedFrames s ls).length =
      (registrations s.shared.notify ls).length + (unchecked t).length := by
  induction ls generalizing s with
  | nil =>
    obtain rfl := Option.some.inj h
    simp [registrations, queuedFrames, StepSystem.shown]
  | cons l ls ih =>
    obtain ⟨s', hstep, hrest⟩ := StepSystem.run_cons.mp h
    obtain ⟨calls, hcontributes⟩ := step_contributes hstep
    obtain ⟨hlog, hcount⟩ := ih hrest
    have hqueued : queuedFrames s (l :: ls) = queuedBy s l ++ queuedFrames s' ls := by
      simp only [queuedFrames, StepSystem.shown, hstep]
    have hstepCount := hcontributes.count ls
    rw [hqueued, hlog, hcontributes.log, hcontributes.pairs, List.append_assoc,
      List.length_append]
    exact ⟨rfl, by omega⟩

/-- The queued frames are what has been taken out of the ring and what it holds. -/
theorem run_takes {ls : List Label} {s : Channel} (h : run ls = some s) :
    takenFrames opened ls ++ s.shared.q = queuedFrames opened ls :=
  StepSystem.run_shown_balance (fun s : Channel => s.shared.q)
    (fun _ _ _ hstep => step_takes hstep) h

/-- The frames that `push` is done with are those that have arrived, in their order, but
for the one in hand. -/
theorem run_offers {ls : List Label} {s : Channel} (h : run ls = some s) :
    (fates ls).map Prod.fst ++ offering s = ls.flatMap arriving := by
  have hbalance := StepSystem.run_shown_balance offering (fun _ _ _ hstep => step_offers hstep) h
  rwa [StepSystem.shown_map fate List.map_nil (fun _ _ => List.map_append),
    StepSystem.shown_labels h] at hbalance

/-- In every run the log is made of the queued frames in their order, each with the
registration in force at its check: one invocation where that is armed and none where it
is not. Only a frame that is queued and not yet checked has no registration beside it. The
queued frames are those that have arrived, passed the filter and found room, with their
timestamps; and they are what has been taken out of the ring and what it still holds. -/
theorem log_is_due_calls {ls : List Label} {s : Channel} (h : run ls = some s) :
    s.log = ((queuedFrames opened ls).zip
      (registrations Notify.default ls)).filterMap dueCall ∧
    (queuedFrames opened ls).length =
      (registrations Notify.default ls).length + (unchecked s).length ∧
    takenFrames opened ls ++ s.shared.q = queuedFrames opened ls ∧
    (fates ls).map Prod.fst ++ offering s = ls.flatMap arriving ∧
    queuedFrames opened ls = (fates ls).filterMap Prod.snd := by
  obtain ⟨hlog, hcount⟩ := run_log h
  have hqueued : queuedFrames opened ls = (fates ls).filterMap Prod.snd :=
    StepSystem.shown_map fate List.filterMap_nil (fun _ _ => List.filterMap_append) opened ls
  refine ⟨hlog, ?_, run_takes h, run_offers h, hqueued⟩
  rw [← show Shared.new.notify = Notify.default from rfl]
  simpa [unchecked, opened] using hcount

/-- The callback re-registers when it is called for the first of two frames; a third frame
comes after it has disarmed. -/
def rearming : List Label :=
  [.api (.setNotify ⟨1, notifyRx, 7⟩), .arrive { Frame.default with canId := 1 }, .enqueue 10,
    .check, .api (.setNotify ⟨2, notifyRx, 8⟩), .api .pop, .callbackReturn,
    .arrive { Frame.default with canId := 2 }, .enqueue 11, .check,
    .api (.setNotify ⟨0, 0, 0⟩), .callbackReturn,
    .arrive { Frame.default with canId := 3 }, .enqueue 12, .check]

theorem log_is_due_calls_rearming :
    ∃ s, run rearming = some s ∧ s.log =
      [(1, ⟨7, eventRx, 1, 10⟩), (2, ⟨8, eventRx, 2, 11⟩)] := by
  have hrun : ∃ s, run rearming = some s := ⟨_, rfl⟩
  obtain ⟨s, hs⟩ := hrun
  refine ⟨s, hs, (log_is_due_calls hs).1.trans ?_⟩
  decide

end Kvasilloni.NotificationLog
