import Kvasilloni.SharedRing
import Mathlib.Logic.Function.Basic

/-!
Any number of channels, each with its RX thread, and any number of threads of the app
that register callbacks and close channels. Every access to the registration, to the
lock that is held across a callback, to `running`, to the join handle and to the handle
table is a step of its own. Whether a frame passes the filter and finds room in the ring
is left open here. Each swap of the registration starts a new generation, so that a
registration read before the swap can be told from the one that replaced it.
-/
namespace Kvasilloni.Threads

open SharedRing

variable (C T : Type)

inductive Thread
  | rx (c : C)
  | app (t : T)
  deriving DecidableEq

variable {C T}

/-- Where an RX thread stands: in its loop, or in `push` with some frames of the batch
left behind the current one. -/
inductive RxPc
  | unborn
  | head
  | receiving
  | ingesting (left : ℕ)
  | locking (left : ℕ)
  | locked (left : ℕ)
  | holding (left gen : ℕ) (n : Notify)
  | inCallback (left gen : ℕ)
  | unlocking (left : ℕ)
  | stopped
  deriving DecidableEq

def RxPc.isInCallback : RxPc → Bool
  | .inCallback _ _ => true
  | _ => false

/-- `push` holds `cb_active`. -/
def RxPc.critical : RxPc → Bool
  | .locked _ | .holding _ _ _ | .inCallback _ _ | .unlocking _ => true
  | _ => false

/-- Where a thread stands in `set_notify` or in `Conn::close`. The stores of `close` that
only concern readers and writers play no part here. -/
inductive CallPc (C : Type)
  | idle
  | swapping (b : C) (n : Notify)
  | swapped (b : C) (gen : ℕ)
  | draining (b : C) (gen : ℕ)
  | drained (b : C) (gen : ℕ)
  | clearing (h : C)
  | taking (h : C)
  | joining (h : C)
  deriving DecidableEq

structure Chan (C T : Type) where
  inTable : Bool
  running : Bool
  handle : Bool
  notify : Notify
  gen : ℕ
  cbActive : Option (Thread C T)
  rx : RxPc

/-- A handle that has not been given out yet. -/
def Chan.unborn : Chan C T where
  inTable := false
  running := false
  handle := false
  notify := Notify.default
  gen := 0
  cbActive := none
  rx := .unborn

/-- A channel as `canOpenChannel` leaves it. -/
def Chan.opened : Chan C T where
  inTable := true
  running := true
  handle := true
  notify := Notify.default
  gen := 0
  cbActive := none
  rx := .head

/-- The channels and the calls in progress, with the returned calls: `notified` has the
thread, the channel and the generation of each `set_notify`, and `closed` the thread and
the handle of each `canClose` made after the handle was opened. -/
structure System (C T : Type) where
  chans : C → Chan C T
  calls : Thread C T → CallPc C
  notified : List (Thread C T × C × ℕ)
  closed : List (Thread C T × C)

def System.init : System C T where
  chans := fun _ => Chan.unborn
  calls := fun _ => .idle
  notified := []
  closed := []

/-! ### The RX threads -/

inductive RxEvent
  | go
  | receive (frames : ℕ)
  | timeout
  | fail
  | drop
  deriving DecidableEq

/-- The loop ends; the TCP loop clears `running` behind it. -/
def loopEnd (tcp : Bool) (ch : Chan C T) : Chan C T :=
  { ch with running := !tcp && ch.running, rx := .stopped }

/-- The next step of the RX thread of `c`. A TCP chunk completes one frame at most, and
the TCP loop may also end at its head or behind a frame. The callback returns when it has
no call under way. -/
def rxNext (tcp : Bool) (c : C) (idle : Bool) (ch : Chan C T) :
    RxPc → RxEvent → Option (Chan C T)
  | .head, .go =>
    if ch.running then some { ch with rx := .receiving } else some (loopEnd tcp ch)
  | .head, .fail => if tcp then some (loopEnd tcp ch) else none
  | .receiving, .receive frames =>
    if tcp = true ∧ 1 < frames then none else some { ch with rx := .ingesting frames }
  | .receiving, .timeout => if tcp then none else some { ch with rx := .head }
  | .receiving, .fail => some (loopEnd tcp ch)
  | .ingesting 0, .go => some { ch with rx := .head }
  | .ingesting 0, .fail => if tcp then some (loopEnd tcp ch) else none
  | .ingesting (left + 1), .go => some { ch with rx := .locking left }
  | .ingesting (left + 1), .drop => some { ch with rx := .ingesting left }
  | .locking left, .go =>
    if ch.cbActive.isNone then some { ch with cbActive := some (.rx c), rx := .locked left }
    else none
  | .locked left, .go => some { ch with rx := .holding left ch.gen ch.notify }
  | .holding left gen n, .go =>
    if n.Armed then some { ch with rx := .inCallback left gen }
    else some { ch with rx := .unlocking left }
  | .inCallback left _, .go => if idle then some { ch with rx := .unlocking left } else none
  | .unlocking left, .go => some { ch with cbActive := none, rx := .ingesting left }
  | _, _ => none

/-- The moves of an RX thread on its channel. -/
inductive RxMove (tcp : Bool) (c : C) (idle : Bool) (ch : Chan C T) : Chan C T → Prop
  | stop (hrx : ch.rx = .head ∨ ch.rx = .receiving ∨ ch.rx = .ingesting 0) :
      RxMove tcp c idle ch (loopEnd tcp ch)
  | listen (hrx : ch.rx = .head) (hrunning : ch.running = true) :
      RxMove tcp c idle ch { ch with rx := .receiving }
  | ingest (hrx : ch.rx = .receiving) (frames : ℕ) :
      RxMove tcp c idle ch { ch with rx := .ingesting frames }
  | timeout (hrx : ch.rx = .receiving) : RxMove tcp c idle ch { ch with rx := .head }
  | exhausted (hrx : ch.rx = .ingesting 0) : RxMove tcp c idle ch { ch with rx := .head }
  | queued (left : ℕ) (hrx : ch.rx = .ingesting (left + 1)) :
      RxMove tcp c idle ch { ch with rx := .locking left }
  | dropped (left : ℕ) (hrx : ch.rx = .ingesting (left + 1)) :
      RxMove tcp c idle ch { ch with rx := .ingesting left }
  | lock (left : ℕ) (hrx : ch.rx = .locking left) (hfree : ch.cbActive = none) :
      RxMove tcp c idle ch { ch with cbActive := some (.rx c), rx := .locked left }
  | read (left : ℕ) (hrx : ch.rx = .locked left) :
      RxMove tcp c idle ch { ch with rx := .holding left ch.gen ch.notify }
  | enter (left gen : ℕ) (n : Notify) (hrx : ch.rx = .holding left gen n) (harmed : n.Armed) :
      RxMove tcp c idle ch { ch with rx := .inCallback left gen }
  | skip (left gen : ℕ) (n : Notify) (hrx : ch.rx = .holding left gen n)
      (hdisarmed : ¬ n.Armed) : RxMove tcp c idle ch { ch with rx := .unlocking left }
  | callbackReturn (left gen : ℕ) (hrx : ch.rx = .inCallback left gen) (hidle : idle = true) :
      RxMove tcp c idle ch { ch with rx := .unlocking left }
  | unlock (left : ℕ) (hrx : ch.rx = .unlocking left) :
      RxMove tcp c idle ch { ch with cbActive := none, rx := .ingesting left }

theorem rxNext_move {tcp : Bool} {c : C} {idle : Bool} {ch ch' : Chan C T} {event : RxEvent}
    (h : rxNext tcp c idle ch ch.rx event = some ch') : RxMove tcp c idle ch ch' := by
  have hstop : ∀ {ch''}, (if tcp then some (loopEnd tcp ch) else none) = some ch'' →
      ch'' = loopEnd tcp ch := by
    intro ch'' hch
    split at hch
    · exact (Option.some.inj hch).symm
    · cases hch
  cases hrx : ch.rx with
  | head =>
    rw [hrx] at h
    cases event with
    | go =>
      simp only [rxNext] at h
      split at h
      · rename_i hrunning
        obtain rfl := Option.some.inj h
        exact .listen hrx hrunning
      · obtain rfl := Option.some.inj h
        exact .stop (Or.inl hrx)
    | fail =>
      obtain rfl := hstop h
      exact .stop (Or.inl hrx)
    | _ => cases h
  | receiving =>
    rw [hrx] at h
    cases event with
    | receive frames =>
      simp only [rxNext] at h
      split at h
      · cases h
      · obtain rfl := Option.some.inj h
        exact .ingest hrx frames
    | timeout =>
      simp only [rxNext] at h
      split at h
      · cases h
      · obtain rfl := Option.some.inj h
        exact .timeout hrx
    | fail =>
      obtain rfl := Option.some.inj h
      exact .stop (Or.inr (Or.inl hrx))
    | _ => cases h
  | ingesting left =>
    rw [hrx] at h
    cases left with
    | zero =>
      cases event with
      | go =>
        obtain rfl := Option.some.inj h
        exact .exhausted hrx
      | fail =>
        obtain rfl := hstop h
        exact .stop (Or.inr (Or.inr hrx))
      | _ => cases h
    | succ left =>
      cases event with
      | go =>
        obtain rfl := Option.some.inj h
        exact .queued left hrx
      | drop =>
        obtain rfl := Option.some.inj h
        exact .dropped left hrx
      | _ => cases h
  | locking left =>
    rw [hrx] at h
    cases event with
    | go =>
      simp only [rxNext] at h
      split at h
      · rename_i hfree
        obtain rfl := Option.some.inj h
        exact .lock left hrx (Option.isNone_iff_eq_none.mp hfree)
      · cases h
    | _ => cases h
  | locked left =>
    rw [hrx] at h
    cases event with
    | go =>
      obtain rfl := Option.some.inj h
      exact .read left hrx
    | _ => cases h
  | holding left gen n =>
    rw [hrx] at h
    cases event with
    | go =>
      simp only [rxNext] at h
      split at h
      · rename_i harmed
        obtain rfl := Option.some.inj h
        exact .enter left gen n hrx harmed
      · rename_i hdisarmed
        obtain rfl := Option.some.inj h
        exact .skip left gen n hrx hdisarmed
    | _ => cases h
  | inCallback left gen =>
    rw [hrx] at h
    cases event with
    | go =>
      simp only [rxNext] at h
      split at h
      · rename_i hidle
        obtain rfl := Option.some.inj h
        exact .callbackReturn left gen hrx hidle
      · cases h
    | _ => cases h
  | unlocking left =>
    rw [hrx] at h
    cases event with
    | go =>
      obtain rfl := Option.some.inj h
      exact .unlock left hrx
    | _ => cases h
  | unborn | stopped =>
    rw [hrx] at h
    cases event <;> cases h

theorem loopEnd_running {tcp : Bool} {ch : Chan C T} (h : (loopEnd tcp ch).running = true) :
    ch.running = true := by
  simp only [loopEnd, Bool.and_eq_true] at h
  exact h.2

/-- An RX thread leaves the table, the handle and the registration alone, and never sets
`running`. -/
theorem rxMove_keeps {tcp : Bool} {c : C} {idle : Bool} {ch ch' : Chan C T}
    (hmove : RxMove tcp c idle ch ch') :
    ch'.inTable = ch.inTable ∧ ch'.handle = ch.handle ∧ ch'.notify = ch.notify ∧
      ch'.gen = ch.gen ∧ (ch'.running = true → ch.running = true) := by
  cases hmove with
  | stop hrx => exact ⟨rfl, rfl, rfl, rfl, loopEnd_running⟩
  | _ => exact ⟨rfl, rfl, rfl, rfl, id⟩

theorem rxMove_born {tcp : Bool} {c : C} {idle : Bool} {ch ch' : Chan C T}
    (hmove : RxMove tcp c idle ch ch') : ch.rx ≠ .unborn ∧ ch'.rx ≠ .unborn := by
  cases hmove with
  | stop hrx =>
    refine ⟨fun hnone => ?_, fun hnone => by cases hnone⟩
    rw [hnone] at hrx
    rcases hrx with hrx | hrx | hrx <;> cases hrx
  | listen hrx | ingest hrx | timeout hrx | exhausted hrx | queued left hrx
  | dropped left hrx | lock left hrx | read left hrx | enter left gen n hrx
  | skip left gen n hrx | callbackReturn left gen hrx | unlock left hrx =>
    refine ⟨fun hnone => ?_, fun hnone => by cases hnone⟩
    rw [hnone] at hrx
    cases hrx

/-- `cb_active` and the section it protects. -/
theorem rxMove_section {tcp : Bool} {c : C} {idle : Bool} {ch ch' : Chan C T}
    (hmove : RxMove tcp c idle ch ch') :
    ch'.cbActive = ch.cbActive ∧ ch'.rx.critical = ch.rx.critical ∨
    ch.cbActive = none ∧ ch'.cbActive = some (.rx c) ∧ ch'.rx.critical = true ∨
    ch.rx.critical = true ∧ ch'.cbActive = none ∧ ch'.rx.critical = false := by
  cases hmove with
  | stop hrx =>
    refine Or.inl ⟨rfl, ?_⟩
    rcases hrx with hrx | hrx | hrx <;> rw [hrx] <;> rfl
  | lock left hrx hfree => exact Or.inr (Or.inl ⟨hfree, rfl, rfl⟩)
  | unlock left hrx =>
    refine Or.inr (Or.inr ⟨?_, rfl, rfl⟩)
    rw [hrx]
    rfl
  | listen hrx | ingest hrx | timeout hrx | exhausted hrx | queued left hrx
  | dropped left hrx | read left hrx | enter left gen n hrx | skip left gen n hrx
  | callbackReturn left gen hrx =>
    refine Or.inl ⟨rfl, ?_⟩
    rw [hrx]
    rfl

/-- A thread leaves its callback only when no call of it is under way. -/
theorem rxMove_inside {tcp : Bool} {c : C} {idle : Bool} {ch ch' : Chan C T}
    (hmove : RxMove tcp c idle ch ch') (hinside : ch.rx.isInCallback = true) :
    idle = true := by
  cases hmove with
  | callbackReturn left gen hrx hidle => exact hidle
  | stop hrx => rcases hrx with hrx | hrx | hrx <;> rw [hrx] at hinside <;> cases hinside
  | listen hrx | ingest hrx | timeout hrx | exhausted hrx | queued left hrx
  | dropped left hrx | lock left hrx | read left hrx | enter left gen n hrx
  | skip left gen n hrx | unlock left hrx =>
    rw [hrx] at hinside
    cases hinside

variable [DecidableEq C]

def setChan (s : System C T) (c : C) (ch : Chan C T) : System C T :=
  { s with chans := Function.update s.chans c ch }

@[simp] theorem setChan_self (s : System C T) (c : C) (ch : Chan C T) :
    (setChan s c ch).chans c = ch := Function.update_self ..

theorem setChan_of_ne (s : System C T) {b c : C} (ch : Chan C T) (h : b ≠ c) :
    (setChan s c ch).chans b = s.chans b := Function.update_of_ne h ..

@[simp] theorem setChan_calls (s : System C T) (c : C) (ch : Chan C T) :
    (setChan s c ch).calls = s.calls := rfl

/-- What is written back unchanged to one channel is unchanged in all. -/
theorem setChan_same {α : Type} (f : Chan C T → α) (s : System C T) {c : C} {ch : Chan C T}
    (h : f ch = f (s.chans c)) (b : C) : f ((setChan s c ch).chans b) = f (s.chans b) := by
  by_cases hb : b = c
  · subst hb
    rw [setChan_self]
    exact h
  · rw [setChan_of_ne s ch hb]

variable [DecidableEq T]

def setCall (s : System C T) (th : Thread C T) (pc : CallPc C) : System C T :=
  { s with calls := Function.update s.calls th pc }

@[simp] theorem setCall_self (s : System C T) (th : Thread C T) (pc : CallPc C) :
    (setCall s th pc).calls th = pc := Function.update_self ..

theorem setCall_of_ne (s : System C T) {other th : Thread C T} (pc : CallPc C)
    (h : other ≠ th) : (setCall s th pc).calls other = s.calls other :=
  Function.update_of_ne h ..

@[simp] theorem setCall_chans (s : System C T) (th : Thread C T) (pc : CallPc C) :
    (setCall s th pc).chans = s.chans := rfl

/-! ### The calls -/

/-- `IN_NOTIFY_CB`, the flag of the thread and not of the channel. -/
def inNotifyCallback (s : System C T) : Thread C T → Bool
  | .rx c => (s.chans c).rx.isInCallback
  | .app _ => false

/-- An RX thread runs code of the app in its callback only, one call at a time. -/
def MayCall (s : System C T) : Thread C T → Prop
  | .rx c => (s.chans c).rx.isInCallback = true ∧ s.calls (.rx c) = .idle
  | .app t => s.calls (.app t) = .idle

instance (s : System C T) : (th : Thread C T) → Decidable (MayCall s th)
  | .rx _ => inferInstanceAs (Decidable (_ ∧ _))
  | .app _ => inferInstanceAs (Decidable (_ = _))

def returnNotify (s : System C T) (th : Thread C T) (b : C) (gen : ℕ) : System C T :=
  { setCall s th .idle with notified := (th, b, gen) :: s.notified }

def returnClose (s : System C T) (th : Thread C T) (h : C) : System C T :=
  { setCall s th .idle with closed := (th, h) :: s.closed }

@[simp] theorem returnNotify_chans (s : System C T) (th : Thread C T) (b : C) (gen : ℕ) :
    (returnNotify s th b gen).chans = s.chans := rfl

/-- The next statement of a call, or `none` where it waits. -/
def callNext (s : System C T) (th : Thread C T) : CallPc C → Option (System C T)
  | .idle => none
  | .swapping b n =>
    let gen := (s.chans b).gen + 1
    some (setCall (setChan s b { s.chans b with notify := n, gen := gen }) th (.swapped b gen))
  | .swapped b gen =>
    if inNotifyCallback s th then some (returnNotify s th b gen)
    else some (setCall s th (.draining b gen))
  | .draining b gen =>
    if (s.chans b).cbActive.isNone then
      some (setCall (setChan s b { s.chans b with cbActive := some th }) th (.drained b gen))
    else none
  | .drained b gen =>
    some (returnNotify (setChan s b { s.chans b with cbActive := none }) th b gen)
  | .clearing h =>
    some (setCall (setChan s h { s.chans h with running := false }) th (.taking h))
  | .taking h =>
    if (s.chans h).handle = false then some (returnClose s th h)
    else if th = .rx h then
      some (returnClose (setChan s h { s.chans h with handle := false }) th h)
    else some (setCall (setChan s h { s.chans h with handle := false }) th (.joining h))
  | .joining h => if (s.chans h).rx = .stopped then some (returnClose s th h) else none

/-- `canSetNotify`: a handle that is not in the table is refused at once. -/
def canSetNotify (s : System C T) (th : Thread C T) (b : C) (n : Notify) : System C T :=
  if (s.chans b).inTable then setCall s th (.swapping b n) else s

/-- `canClose`: a handle that is not in the table is no error, and nothing is left to do. -/
def canClose (s : System C T) (th : Thread C T) (h : C) : System C T :=
  if (s.chans h).inTable then
    setCall (setChan s h { s.chans h with inTable := false }) th (.clearing h)
  else if (s.chans h).rx = .unborn then s
  else { s with closed := (th, h) :: s.closed }

/-! ### The steps -/

inductive Label (C T : Type)
  | canOpenChannel (c : C)
  | rx (c : C) (event : RxEvent)
  | writeFails (c : C)
  | canSetNotify (th : Thread C T) (b : C) (n : Notify)
  | canClose (th : Thread C T) (h : C)
  | call (th : Thread C T)

/-- The channels for which `tcp` holds use TCP. A write that fails there clears
`running`. -/
def step (tcp : C → Bool) (s : System C T) : Label C T → Option (System C T)
  | .canOpenChannel c =>
    if (s.chans c).rx = .unborn then some (setChan s c Chan.opened) else none
  | .rx c event =>
    (rxNext (tcp c) c (s.calls (.rx c) = .idle) (s.chans c) (s.chans c).rx event).map
      (setChan s c)
  | .writeFails c =>
    if tcp c then some (setChan s c { s.chans c with running := false }) else none
  | .canSetNotify th b n => if MayCall s th then some (canSetNotify s th b n) else none
  | .canClose th h => if MayCall s th then some (canClose s th h) else none
  | .call th => callNext s th (s.calls th)

/-- The states that a run from the start of the program passes through. -/
def run (tcp : C → Bool) (ls : List (Label C T)) : Option (System C T) :=
  StepSystem.run (step tcp) System.init ls

/-! ### What a step can do -/

/-- The moves of the system. -/
inductive Move (tcp : C → Bool) (s : System C T) : Label C T → System C T → Prop
  | canOpenChannel (c : C) (hrx : (s.chans c).rx = .unborn) :
      Move tcp s (.canOpenChannel c) (setChan s c Chan.opened)
  | rx (c : C) (event : RxEvent) (ch : Chan C T)
      (hmove : RxMove (tcp c) c (s.calls (.rx c) = .idle) (s.chans c) ch) :
      Move tcp s (.rx c event) (setChan s c ch)
  | writeFails (c : C) :
      Move tcp s (.writeFails c) (setChan s c { s.chans c with running := false })
  | canSetNotify (th : Thread C T) (b : C) (n : Notify) (hmay : MayCall s th)
      (htable : (s.chans b).inTable = true) :
      Move tcp s (.canSetNotify th b n) (setCall s th (.swapping b n))
  | canClose (th : Thread C T) (h : C) (hmay : MayCall s th)
      (htable : (s.chans h).inTable = true) :
      Move tcp s (.canClose th h)
        (setCall (setChan s h { s.chans h with inTable := false }) th (.clearing h))
  | canCloseGone (th : Thread C T) (h : C) (hmay : MayCall s th)
      (htable : (s.chans h).inTable = false) (hopened : (s.chans h).rx ≠ .unborn) :
      Move tcp s (.canClose th h) { s with closed := (th, h) :: s.closed }
  | refused (l : Label C T) : Move tcp s l s
  | swapping (th : Thread C T) (b : C) (n : Notify) (hcall : s.calls th = .swapping b n) :
      Move tcp s (.call th)
        (setCall (setChan s b { s.chans b with notify := n, gen := (s.chans b).gen + 1 }) th
          (.swapped b ((s.chans b).gen + 1)))
  | undrained (th : Thread C T) (b : C) (gen : ℕ) (hcall : s.calls th = .swapped b gen)
      (hinside : inNotifyCallback s th = true) :
      Move tcp s (.call th) (returnNotify s th b gen)
  | swapped (th : Thread C T) (b : C) (gen : ℕ) (hcall : s.calls th = .swapped b gen)
      (houtside : inNotifyCallback s th = false) :
      Move tcp s (.call th) (setCall s th (.draining b gen))
  | draining (th : Thread C T) (b : C) (gen : ℕ) (hcall : s.calls th = .draining b gen)
      (hfree : (s.chans b).cbActive = none) :
      Move tcp s (.call th)
        (setCall (setChan s b { s.chans b with cbActive := some th }) th (.drained b gen))
  | drained (th : Thread C T) (b : C) (gen : ℕ) (hcall : s.calls th = .drained b gen) :
      Move tcp s (.call th)
        (returnNotify (setChan s b { s.chans b with cbActive := none }) th b gen)
  | clearing (th : Thread C T) (h : C) (hcall : s.calls th = .clearing h) :
      Move tcp s (.call th)
        (setCall (setChan s h { s.chans h with running := false }) th (.taking h))
  | takingNone (th : Thread C T) (h : C) (hcall : s.calls th = .taking h)
      (hhandle : (s.chans h).handle = false) : Move tcp s (.call th) (returnClose s th h)
  | takingOwn (th : Thread C T) (h : C) (hcall : s.calls th = .taking h) (hown : th = .rx h) :
      Move tcp s (.call th)
        (returnClose (setChan s h { s.chans h with handle := false }) th h)
  | taking (th : Thread C T) (h : C) (hcall : s.calls th = .taking h) (hother : th ≠ .rx h) :
      Move tcp s (.call th)
        (setCall (setChan s h { s.chans h with handle := false }) th (.joining h))
  | joining (th : Thread C T) (h : C) (hcall : s.calls th = .joining h)
      (hstopped : (s.chans h).rx = .stopped) : Move tcp s (.call th) (returnClose s th h)

theorem callNext_move {tcp : C → Bool} {s s' : System C T} {th : Thread C T}
    (h : callNext s th (s.calls th) = some s') : Move tcp s (.call th) s' := by
  cases hcall : s.calls th with
  | idle =>
    rw [hcall] at h
    cases h
  | swapping b n =>
    rw [hcall] at h
    obtain rfl := Option.some.inj h
    exact .swapping th b n hcall
  | swapped b gen =>
    rw [hcall] at h
    simp only [callNext] at h
    split at h
    · rename_i hinside
      obtain rfl := Option.some.inj h
      exact .undrained th b gen hcall hinside
    · rename_i houtside
      obtain rfl := Option.some.inj h
      exact .swapped th b gen hcall (Bool.eq_false_iff.mpr houtside)
  | draining b gen =>
    rw [hcall] at h
    simp only [callNext] at h
    split at h
    · rename_i hfree
      obtain rfl := Option.some.inj h
      exact .draining th b gen hcall (Option.isNone_iff_eq_none.mp hfree)
    · cases h
  | drained b gen =>
    rw [hcall] at h
    obtain rfl := Option.some.inj h
    exact .drained th b gen hcall
  | clearing c =>
    rw [hcall] at h
    obtain rfl := Option.some.inj h
    exact .clearing th c hcall
  | taking c =>
    rw [hcall] at h
    simp only [callNext] at h
    split at h
    · rename_i hhandle
      obtain rfl := Option.some.inj h
      exact .takingNone th c hcall hhandle
    · split at h
      · rename_i hown
        obtain rfl := Option.some.inj h
        exact .takingOwn th c hcall hown
      · rename_i hother
        obtain rfl := Option.some.inj h
        exact .taking th c hcall hother
  | joining c =>
    rw [hcall] at h
    simp only [callNext] at h
    split at h
    · rename_i hstopped
      obtain rfl := Option.some.inj h
      exact .joining th c hcall hstopped
    · cases h

theorem step_move {tcp : C → Bool} {s s' : System C T} {l : Label C T}
    (h : step tcp s l = some s') : Move tcp s l s' := by
  cases l with
  | canOpenChannel c =>
    simp only [step] at h
    split at h
    · rename_i hrx
      obtain rfl := Option.some.inj h
      exact .canOpenChannel c hrx
    · cases h
  | rx c event =>
    obtain ⟨ch, hnext, rfl⟩ := Option.map_eq_some_iff.mp h
    exact .rx c event ch (rxNext_move hnext)
  | writeFails c =>
    simp only [step] at h
    split at h
    · obtain rfl := Option.some.inj h
      exact .writeFails c
    · cases h
  | canSetNotify th b n =>
    simp only [step] at h
    split at h
    · rename_i hmay
      obtain rfl := Option.some.inj h
      unfold canSetNotify
      split
      · rename_i htable
        exact .canSetNotify th b n hmay htable
      · exact .refused _
    · cases h
  | canClose th c =>
    simp only [step] at h
    split at h
    · rename_i hmay
      obtain rfl := Option.some.inj h
      unfold canClose
      split
      · rename_i htable
        exact .canClose th c hmay htable
      · rename_i htable
        split
        · exact .refused _
        · rename_i hopened
          exact .canCloseGone th c hmay (Bool.eq_false_iff.mpr htable) hopened
    · cases h
  | call th => exact callNext_move h

/-- A channel that has been opened moves with its RX thread, or its RX thread stays where
it is; and it is not put back into the table, not set running and not given an old
generation. -/
theorem move_chan {tcp : C → Bool} {s t : System C T} {l : Label C T} (hmove : Move tcp s l t)
    {b : C} (hborn : (s.chans b).rx ≠ .unborn) :
    ((∃ idle, RxMove (tcp b) b idle (s.chans b) (t.chans b)) ∨
      (t.chans b).rx = (s.chans b).rx) ∧
    ((t.chans b).inTable = true → (s.chans b).inTable = true) ∧
    ((t.chans b).running = true → (s.chans b).running = true) ∧
    (s.chans b).gen ≤ (t.chans b).gen := by
  have hset : ∀ {c : C} {ch : Chan C T}, t.chans b = (setChan s c ch).chans b →
      ch.rx = (s.chans c).rx → (ch.inTable = true → (s.chans c).inTable = true) →
      (ch.running = true → (s.chans c).running = true) → (s.chans c).gen ≤ ch.gen →
      ((∃ idle, RxMove (tcp b) b idle (s.chans b) (t.chans b)) ∨
        (t.chans b).rx = (s.chans b).rx) ∧
      ((t.chans b).inTable = true → (s.chans b).inTable = true) ∧
      ((t.chans b).running = true → (s.chans b).running = true) ∧
      (s.chans b).gen ≤ (t.chans b).gen := by
    intro c ch hchans hrx htable hrunning hgen
    rw [hchans]
    by_cases hne : b = c
    · subst hne
      rw [setChan_self]
      exact ⟨Or.inr hrx, htable, hrunning, hgen⟩
    · rw [setChan_of_ne s ch hne]
      exact ⟨Or.inr rfl, id, id, le_rfl⟩
  cases hmove with
  | canOpenChannel c hrx =>
    have hne : b ≠ c := by
      intro hbc
      exact hborn (hbc ▸ hrx)
    rw [setChan_of_ne s _ hne]
    exact ⟨Or.inr rfl, id, id, le_rfl⟩
  | rx c event ch hmove =>
    by_cases hne : b = c
    · subst hne
      rw [setChan_self]
      obtain ⟨htable, -, -, hgen, hrunning⟩ := rxMove_keeps hmove
      exact ⟨Or.inl ⟨_, hmove⟩, fun hin => htable ▸ hin, hrunning, hgen.ge⟩
    · rw [setChan_of_ne s _ hne]
      exact ⟨Or.inr rfl, id, id, le_rfl⟩
  | writeFails c | clearing th c => exact hset rfl rfl id nofun le_rfl
  | canClose th c => exact hset rfl rfl nofun id le_rfl
  | swapping th c n => exact hset rfl rfl id id (Nat.le_succ _)
  | draining th c | drained th c | takingOwn th c | taking th c =>
    exact hset rfl rfl id id le_rfl
  | canSetNotify | canCloseGone | refused | undrained | swapped | takingNone | joining =>
    exact ⟨Or.inr rfl, id, id, le_rfl⟩

theorem move_born {tcp : C → Bool} {s t : System C T} {l : Label C T} (hmove : Move tcp s l t)
    {b : C} (hborn : (s.chans b).rx ≠ .unborn) : (t.chans b).rx ≠ .unborn := by
  rcases (move_chan hmove hborn).1 with ⟨idle, hrxMove⟩ | hrx
  · exact (rxMove_born hrxMove).2
  · rwa [hrx]

end Kvasilloni.Threads
