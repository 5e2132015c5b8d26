import Kvasilloni.Programs

/-!
The order in which the threads take their locks. A thread holds one lock at a time, takes
no other one and joins nobody while it holds it; only `cb_active` is held by an RX thread
over the callback, and then the RX thread takes no second `cb_active`. The rule is read off
a list of statements by following it, and each statement puts only lists in front of the
rest that keep it.
-/
namespace Kvasilloni.LockOrder

open Frames SharedRing Programs
open Reception (Transport)

/-- What a thread is doing: it is a thread of the app, or an RX thread that is outside
`cb_active`, inside it, or inside the callback. -/
inductive Zone (C : Type)
  | app
  | loop (c : C)
  | active (c : C)
  | inside (c : C)

/-- A zone with the lock that is held there, not counting the `cb_active` of the zone. -/
structure Place (C : Type) where
  zone : Zone C
  held : Option (Lock C)

variable {T C : Type}

/-- The API is called by threads of the app and from inside callbacks. -/
def Zone.Calls : Zone C → Prop
  | .app => True
  | .inside _ => True
  | _ => False

def Zone.Inside : Zone C → Prop
  | .inside _ => True
  | _ => False

instance (z : Zone C) : Decidable z.Calls := by
  cases z <;> unfold Zone.Calls <;> infer_instance

instance (z : Zone C) : Decidable z.Inside := by
  cases z <;> unfold Zone.Inside <;> infer_instance

/-- The zone owns its `cb_active`, and the place the lock that is held there. -/
def Place.Owns (p : Place C) (l : Lock C) : Prop :=
  p.held = some l ∨ ∃ c, l = .cbActive c ∧ (p.zone = .active c ∨ p.zone = .inside c)

/-- Where the thread stands between its calls or frames. -/
def home : Thread T C → Place C
  | .app _ => ⟨.app, none⟩
  | .rx c => ⟨.loop c, none⟩

def Fits : Zone C → Thread T C → Prop
  | .app, .app _ => True
  | .loop c, .rx d => c = d
  | .active c, .rx d => c = d
  | .inside c, .rx d => c = d
  | _, _ => False

variable [DecidableEq C]

/-- Only an RX thread keeps a lock, its own `cb_active`, while it takes another. -/
def Place.acquire (p : Place C) (l : Lock C) : Option (Place C) :=
  match p.held with
  | some _ => none
  | none =>
    match l, p.zone with
    | .cbActive d, .app => some ⟨.app, some (.cbActive d)⟩
    | .cbActive d, .loop c => if d = c then some ⟨.active c, none⟩ else none
    | .cbActive _, _ => none
    | l, z => some ⟨z, some l⟩

def Place.release (p : Place C) (l : Lock C) : Option (Place C) :=
  match p.held with
  | some l' => if l = l' then some ⟨p.zone, none⟩ else none
  | none =>
    match l, p.zone with
    | .cbActive d, .active c => if d = c then some ⟨.loop c, none⟩ else none
    | _, _ => none

/-- Where an act and the statements that it leads to leave the thread. -/
@[simp] def trackAct (p : Place C) : Act C → Option (Place C)
  | .find _ _ | .insert _ _ | .remove _ =>
    if p.zone.Calls ∧ p.held = some .conns then some ⟨p.zone, none⟩ else none
  | .fetchHandle _ | .drop _ | .beginWait _ _ _ | .drain _ | .checkReady _ | .tryJoin _ =>
    if p.zone.Calls ∧ p.held = none then some p else none
  | .look c _ duration _ =>
    if p.zone.Calls ∧ p.held = some (.q c) ∧ (p.zone.Inside → duration = 0) then
      some ⟨p.zone, none⟩
    else none
  | .popFront c | .empty c | .level c | .setClosed c =>
    if p.held = some (.q c) then some p else none
  | .setFilter c _ _ => if p.held = some (.filters c) then some p else none
  | .swapNotify c _ => if p.held = some (.notify c) then some p else none
  | .send c => if p.held = some (.tx c) then some ⟨p.zone, none⟩ else none
  | .takeHandle c =>
    if p.zone.Calls ∧ p.held = some (.handle c) then some ⟨p.zone, none⟩ else none
  | .accepts c _ _ =>
    match p with
    | ⟨.loop d, some (.filters e)⟩ => if c = d ∧ c = e then some ⟨.loop d, none⟩ else none
    | _ => none
  | .offer c _ =>
    match p with
    | ⟨.loop d, some (.q e)⟩ => if c = d ∧ c = e then some ⟨.loop d, none⟩ else none
    | _ => none
  | .readNotify c =>
    match p with
    | ⟨.active d, some (.notify e)⟩ => if c = d ∧ c = e then some ⟨.loop d, none⟩ else none
    | _ => none
  | .swapRunning c =>
    match p with
    | ⟨.loop d, none⟩ => if c = d then some p else none
    | _ => none
  | .resetOverflow _ | .stopRunning _ | .stopNegotiated _ | .shutdown _ | .notifyAll _ |
    .notifyOne _ | .latchLinkLost _ => some p

@[simp] def track (p : Place C) : Stmt C → Option (Place C)
  | .lock l => p.acquire l
  | .unlock l => p.release l
  | .park _ _ duration =>
    if p.zone.Calls ∧ p.held = none ∧ (p.zone.Inside → duration = 0) then some p else none
  | .join _ => none
  | .enterScope =>
    match p with
    | ⟨.active c, none⟩ => some ⟨.inside c, none⟩
    | _ => none
  | .callback =>
    match p with
    | ⟨.inside _, none⟩ => some p
    | _ => none
  | .leaveScope =>
    match p with
    | ⟨.inside c, none⟩ => some ⟨.active c, none⟩
    | _ => none
  | .exit _ =>
    match p with
    | ⟨.loop _, none⟩ => some p
    | _ => none
  | .act a => trackAct p a

/-- The list leads from one place to another. -/
def Leads (p : Place C) (is : List (Stmt C)) (p' : Place C) : Prop :=
  is.foldlM track p = some p'

@[simp] theorem leads_nil {p p' : Place C} : Leads p [] p' ↔ p = p' := by
  simp [Leads]

@[simp] theorem leads_cons {p p' : Place C} {i : Stmt C} {is : List (Stmt C)} :
    Leads p (i :: is) p' ↔ ∃ p₁, track p i = some p₁ ∧ Leads p₁ is p' := by
  simp [Leads, List.foldlM_cons, Option.bind_eq_some_iff]

theorem leads_append {p p' : Place C} {is js : List (Stmt C)} :
    Leads p (is ++ js) p' ↔ ∃ p₁, Leads p is p₁ ∧ Leads p₁ js p' := by
  simp [Leads, List.foldlM_append, Option.bind_eq_some_iff]

/-! ### The lists of the source -/

section Lists

variable {z : Zone C}

@[simp] theorem acquire_conns : Place.acquire ⟨z, none⟩ .conns = some ⟨z, some .conns⟩ := rfl
@[simp] theorem acquire_q (c : C) :
    Place.acquire ⟨z, none⟩ (.q c) = some ⟨z, some (.q c)⟩ := rfl
@[simp] theorem acquire_filters (c : C) :
    Place.acquire ⟨z, none⟩ (.filters c) = some ⟨z, some (.filters c)⟩ := rfl
@[simp] theorem acquire_notify (c : C) :
    Place.acquire ⟨z, none⟩ (.notify c) = some ⟨z, some (.notify c)⟩ := rfl
@[simp] theorem acquire_tx (c : C) :
    Place.acquire ⟨z, none⟩ (.tx c) = some ⟨z, some (.tx c)⟩ := rfl
@[simp] theorem acquire_handle (c : C) :
    Place.acquire ⟨z, none⟩ (.handle c) = some ⟨z, some (.handle c)⟩ := rfl
@[simp] theorem release_held (l : Lock C) :
    Place.release ⟨z, some l⟩ l = some ⟨z, none⟩ := by simp [Place.release]

theorem markClosed_leads (c : C) : Leads ⟨z, none⟩ (markClosed c) ⟨z, none⟩ := by
  simp [markClosed]

theorem clear_leads (c : C) : Leads ⟨z, none⟩ (clear c) ⟨z, none⟩ := by
  simp [clear]

theorem level_leads (c : C) : Leads ⟨z, none⟩ (level c) ⟨z, none⟩ := by
  simp [level]

theorem pop_leads (c : C) : Leads ⟨z, none⟩ (pop c) ⟨z, none⟩ := by
  simp [pop]

theorem setAccept_leads (c : C) (flag envelope : UInt32) :
    Leads ⟨z, none⟩ (setAccept c flag envelope) ⟨z, none⟩ := by
  simp [setAccept]

theorem setNotify_leads (hz : z.Calls) (c : C) (n : Notify) :
    Leads ⟨z, none⟩ (setNotify c n) ⟨z, none⟩ := by
  simp [setNotify, hz]

theorem close_leads (hz : z.Calls) (c : C) : Leads ⟨z, none⟩ (close c) ⟨z, none⟩ := by
  have htail : Leads ⟨z, none⟩ [.act (.shutdown c), .lock (.handle c), .act (.takeHandle c)]
      ⟨z, none⟩ := by
    simp [hz]
  have hclosed := leads_append.mpr ⟨_, markClosed_leads c, htail⟩
  simpa [close] using hclosed

theorem drop_leads (hz : z.Calls) (c : C) : Leads ⟨z, none⟩ [.act (.drop c)] ⟨z, none⟩ := by
  simp [hz]

theorem body_leads (hz : z.Calls) (c : C) (r : Request C) :
    Leads ⟨z, none⟩ (body c r) ⟨z, none⟩ := by
  have hdrop : ∀ is, Leads ⟨z, none⟩ is ⟨z, none⟩ →
      Leads ⟨z, none⟩ (is ++ [.act (.drop c)]) ⟨z, none⟩ :=
    fun is his => leads_append.mpr ⟨_, his, drop_leads hz c⟩
  cases r with
  | canWrite hnd => simp [body, write, hz]
  | canRead hnd => exact hdrop _ (pop_leads c)
  | canReadWait hnd timeout => simp [body, hz]
  | canReadSync hnd timeout => simp [body, hz]
  | canReadStatus hnd => exact hdrop _ (level_leads c)
  | canFlushReceiveQueue hnd => exact hdrop _ (clear_leads c)
  | canIoCtl hnd func =>
    refine hdrop _ ?_
    split
    · exact clear_leads c
    · exact level_leads c
  | canAccept hnd flag envelope => exact hdrop _ (setAccept_leads c flag envelope)
  | canSetNotify hnd n => exact hdrop _ (setNotify_leads hz c n)
  | canOpenChannel d transport => exact leads_nil.mpr rfl
  | canClose hnd => exact hdrop _ (close_leads hz c)

theorem program_leads (hz : z.Calls) (r : Request C) :
    Leads ⟨z, none⟩ (program r) ⟨z, none⟩ := by
  cases r with
  | canIoCtl hnd func =>
    simp only [program]
    split <;> simp [findConn, hz]
  | _ => simp [program, findConn, hz]

end Lists

/-! ### The acts of a push and of the teardown -/

theorem trackAct_accepts {p p' : Place C} {c : C} {f : Frame} {now : UInt64}
    (h : trackAct p (.accepts c f now) = some p') :
    p = ⟨.loop c, some (.filters c)⟩ ∧ p' = ⟨.loop c, none⟩ := by
  simp only [trackAct] at h
  split at h
  · simp only [Option.ite_none_right_eq_some, Option.some.injEq] at h
    obtain ⟨⟨rfl, rfl⟩, rfl⟩ := h
    exact ⟨rfl, rfl⟩
  · cases h

theorem trackAct_offer {p p' : Place C} {c : C} {f : Frame}
    (h : trackAct p (.offer c f) = some p') :
    p = ⟨.loop c, some (.q c)⟩ ∧ p' = ⟨.loop c, none⟩ := by
  simp only [trackAct] at h
  split at h
  · simp only [Option.ite_none_right_eq_some, Option.some.injEq] at h
    obtain ⟨⟨rfl, rfl⟩, rfl⟩ := h
    exact ⟨rfl, rfl⟩
  · cases h

theorem trackAct_readNotify {p p' : Place C} {c : C}
    (h : trackAct p (.readNotify c) = some p') :
    p = ⟨.active c, some (.notify c)⟩ ∧ p' = ⟨.loop c, none⟩ := by
  simp only [trackAct] at h
  split at h
  · simp only [Option.ite_none_right_eq_some, Option.some.injEq] at h
    obtain ⟨⟨rfl, rfl⟩, rfl⟩ := h
    exact ⟨rfl, rfl⟩
  · cases h

theorem trackAct_swapRunning {p p' : Place C} {c : C}
    (h : trackAct p (.swapRunning c) = some p') : p = ⟨.loop c, none⟩ ∧ p' = p := by
  simp only [trackAct] at h
  split at h
  · simp only [Option.ite_none_right_eq_some, Option.some.injEq] at h
    obtain ⟨rfl, rfl⟩ := h
    exact ⟨rfl, rfl⟩
  · cases h

/-- What an act puts in front of the rest leads to where the act is said to lead. -/
theorem perform_leads [DecidableEq T] (m : Memory C) (th : Thread T C) {p p' : Place C}
    {inNotifyCb : Bool} (outcome : Bool) {a : Act C} (hflag : inNotifyCb = true ↔ p.zone.Inside)
    (htrack : trackAct p a = some p') (hjoin : ∀ c, a ≠ .tryJoin c)
    (hinsert : ∀ hnd c, a = .insert hnd c → m.conns hnd = none) :
    Leads p (perform m th inNotifyCb outcome a).2 p' := by
  obtain ⟨z, held⟩ := p
  cases a with
  | find hnd r =>
    simp only [trackAct, Option.ite_none_right_eq_some, Option.some.injEq] at htrack
    obtain ⟨⟨hz, rfl⟩, rfl⟩ := htrack
    have hbody := fun c => body_leads hz c r
    cases hconn : m.conns hnd <;> simp [perform, hconn, hbody]
  | remove hnd =>
    simp only [trackAct, Option.ite_none_right_eq_some, Option.some.injEq] at htrack
    obtain ⟨⟨hz, rfl⟩, rfl⟩ := htrack
    have hbody := fun c => body_leads hz c (.canClose hnd)
    cases hconn : m.conns hnd <;> simp [perform, hconn, hbody]
  | insert hnd c =>
    simp only [trackAct, Option.ite_none_right_eq_some, Option.some.injEq] at htrack
    obtain ⟨⟨hz, rfl⟩, rfl⟩ := htrack
    simp [perform, hinsert hnd c rfl]
  | fetchHandle c =>
    simp only [trackAct, Option.ite_none_right_eq_some, Option.some.injEq] at htrack
    obtain ⟨⟨hz, rfl⟩, rfl⟩ := htrack
    simp [perform, hz]
  | drop c =>
    simp only [trackAct, Option.ite_none_right_eq_some, Option.some.injEq] at htrack
    obtain ⟨⟨hz, rfl⟩, rfl⟩ := htrack
    simp only [perform]
    split
    · exact close_leads hz c
    · exact leads_nil.mpr rfl
  | beginWait c w timeout =>
    simp only [trackAct, Option.ite_none_right_eq_some, Option.some.injEq] at htrack
    obtain ⟨⟨hz, rfl⟩, rfl⟩ := htrack
    have hzero : z.Inside → readWaitDuration inNotifyCb timeout = 0 := by
      intro hinside
      rw [hflag.mpr hinside]
      rfl
    simpa [perform, hz] using hzero
  | look c w duration expired =>
    simp only [trackAct, Option.ite_none_right_eq_some, Option.some.injEq] at htrack
    obtain ⟨⟨hz, rfl, hzero⟩, rfl⟩ := htrack
    simp only [perform]
    split
    · simp
    · simpa [hz] using hzero
  | drain c =>
    simp only [trackAct, Option.ite_none_right_eq_some, Option.some.injEq] at htrack
    obtain ⟨⟨hz, rfl⟩, rfl⟩ := htrack
    simp only [perform]
    split
    · exact leads_nil.mpr rfl
    · rename_i hout
      cases z with
      | app => simp [Place.acquire, Place.release]
      | inside d => exact absurd (hflag.mpr trivial) hout
      | loop d | active d => exact hz.elim
  | checkReady c =>
    simp only [trackAct, Option.ite_none_right_eq_some, Option.some.injEq] at htrack
    obtain ⟨⟨hz, rfl⟩, rfl⟩ := htrack
    simp only [perform]
    split <;> simp
  | send c =>
    simp only [trackAct, Option.ite_none_right_eq_some, Option.some.injEq] at htrack
    obtain ⟨rfl, rfl⟩ := htrack
    simp only [perform]
    split
    · simp
    · split <;> simp
  | takeHandle c =>
    simp only [trackAct, Option.ite_none_right_eq_some, Option.some.injEq] at htrack
    obtain ⟨⟨hz, rfl⟩, rfl⟩ := htrack
    simp only [perform]
    split <;> simp [hz]
  | tryJoin c => exact absurd rfl (hjoin c)
  | accepts c f now =>
    obtain ⟨heq, rfl⟩ := trackAct_accepts htrack
    cases heq
    simp only [perform]
    split <;> simp [pushAccepted]
  | offer c f =>
    obtain ⟨heq, rfl⟩ := trackAct_offer htrack
    cases heq
    simp only [perform]
    split <;> simp [pushQueued, Place.acquire]
  | readNotify c =>
    obtain ⟨heq, rfl⟩ := trackAct_readNotify htrack
    cases heq
    simp only [perform]
    split <;> simp [pushArmed, pushSilent, Place.release]
  | swapRunning c =>
    obtain ⟨heq, rfl⟩ := trackAct_swapRunning htrack
    cases heq
    simp only [perform]
    split
    · simp [lostLink, markClosed_leads]
    · exact leads_nil.mpr rfl
  | popFront c | empty c | level c | setClosed c | setFilter c flag envelope | swapNotify c n =>
    simp only [trackAct, Option.ite_none_right_eq_some, Option.some.injEq] at htrack
    exact leads_nil.mpr htrack.2
  | resetOverflow c | stopRunning c | stopNegotiated c | latchLinkLost c =>
    exact leads_nil.mpr (Option.some.inj htrack)
  | shutdown c | notifyAll c | notifyOne c => exact leads_nil.mpr (Option.some.inj htrack)

end Kvasilloni.LockOrder
