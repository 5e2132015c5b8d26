import Kvasilloni.Library.Projection
import Kvasilloni.HandleTable
import Kvasilloni.ReadOrder
import Kvasilloni.CloseCompletes

/-!
All channels of a process. An open that has connected brings a channel of its own, whose RX
thread has been running since the connect when the open takes its handle. A call finds its
channel through the table of handles and goes on on that channel alone. A call that a callback
makes on the handle of another connection counts there as one of the app, since it does not
come from the RX thread of that connection; the callback may return before it does. The calls
are the reads, the flush, the filter, the registration and `canClose`. Not among them are those
that only look at a channel, and `canWrite`, whose failing write would tear a TCP link down;
`TcpLink` has it.
-/
namespace Kvasilloni.Channels

open StepSystem SharedRing ReadOrder
open HandleTable (Table Numbered Tabled handleOf withConn canErrInvHandle)
open Reception (Setup Channel Caller Request)
open CloseCompletes (isRx)

/-- A thread of the app, or the callback of a connection. -/
inductive Thread
  | app
  | callback (c : ℕ)
  deriving DecidableEq

/-- What a call of the thread is on the channel of the connection `c`. -/
def Thread.callerOn (c : ℕ) : Thread → Caller
  | .app => .app
  | .callback d => if d = c then .callback else .app

/-- The table of handles, the channel of every connection, and which connection each call on
a handle has reached. -/
structure Process where
  table : Table
  channels : ℕ → Channel
  reached : List (Int32 × ℕ)

def loaded : Process := ⟨Table.init, fun _ => Reception.opened, []⟩

def setChannel (s : Process) (c : ℕ) (ch : Channel) : Process :=
  { s with channels := Function.update s.channels c ch }

@[simp] theorem setChannel_self (s : Process) (c : ℕ) (ch : Channel) :
    (setChannel s c ch).channels c = ch := Function.update_self ..

theorem setChannel_of_ne {s : Process} {c d : ℕ} (ch : Channel) (h : c ≠ d) :
    (setChannel s d ch).channels c = s.channels c := Function.update_of_ne h ..

def mayCall (s : Process) : Thread → Bool
  | .app => true
  | .callback c => Reception.mayCall (s.channels c) .callback

/-! ### The steps -/

inductive Label
  | connectFails
  | fetchAdd (before : List Reception.Label)
  | insert (i : ℕ)
  | rx (c : ℕ) (l : Reception.Label)
  | request (thread : Thread) (hnd : Int32) (r : Request)
  | canClose (thread : Thread) (hnd : Int32)
  | proceed (c i : ℕ) (timedOut : Bool)
  deriving DecidableEq

/-- The open takes its handle; its RX thread has taken some steps since the connect. -/
def fetchAdd (setups : ℕ → Setup) (s : Process) (before : List Reception.Label) :
    Option Process :=
  if before.all (isRx Reception.opened) then
    (run (Reception.step (setups s.table.connected)) (s.channels s.table.connected) before).bind
      fun ch => (HandleTable.step s.table .fetchAdd).map fun table =>
        { setChannel s s.table.connected ch with table := table }
  else none

/-- A call on a handle that is not in the table returns at once. -/
def request (s : Process) (thread : Thread) (hnd : Int32) (r : Request) : Process :=
  match withConn s.table hnd canErrInvHandle with
  | .error _ => s
  | .ok c =>
    { setChannel s c (Reception.request (s.channels c) (thread.callerOn c) r) with
      reached := s.reached ++ [(hnd, c)] }

/-- The handle leaves the table, and its connection is closed. -/
def canClose (s : Process) (thread : Thread) (hnd : Int32) : Process :=
  match s.table.conns hnd with
  | none => { s with table := HandleTable.canClose s.table hnd }
  | some c =>
    { setChannel s c (Reception.canClose (s.channels c) (thread.callerOn c)) with
      table := HandleTable.canClose s.table hnd
      reached := s.reached ++ [(hnd, c)] }

def step (setups : ℕ → Setup) (s : Process) : Label → Option Process
  | .connectFails => some s
  | .fetchAdd before => fetchAdd setups s before
  | .insert i =>
    (HandleTable.step s.table (.insert i)).map fun table => { s with table := table }
  | .rx c l =>
    if c < s.table.connected ∧ isRx (s.channels c) l then
      (Reception.step (setups c) (s.channels c) l).map (setChannel s c)
    else none
  | .request thread hnd r => if mayCall s thread then some (request s thread hnd r) else none
  | .canClose thread hnd => if mayCall s thread then some (canClose s thread hnd) else none
  | .proceed c i timedOut =>
    if c < s.table.connected then
      (Reception.step (setups c) (s.channels c) (.proceed i timedOut)).map (setChannel s c)
    else none

/-! ### What the table and a channel see of a step -/

def handled : Process → Label → List HandleTable.Label
  | _, .connectFails => [.connectFails]
  | _, .fetchAdd _ => [.fetchAdd]
  | _, .insert i => [.insert i]
  | _, .canClose _ hnd => [.canClose hnd]
  | _, _ => []

/-- The steps of the connection's own RX thread and the calls that the table leads to it. -/
def heard (c : ℕ) : Process → Label → List Reception.Label
  | s, .fetchAdd before => if s.table.connected = c then before else []
  | _, .rx d l => if d = c then [l] else []
  | s, .request thread hnd r =>
    if s.table.conns hnd = some c then [.request (thread.callerOn c) r] else []
  | s, .canClose thread hnd =>
    if s.table.conns hnd = some c then [.canClose (thread.callerOn c)] else []
  | _, .proceed d i timedOut => if d = c then [.proceed i timedOut] else []
  | _, _ => []

variable {setups : ℕ → Setup}

theorem mayCall_callerOn {s : Process} {thread : Thread} (c : ℕ) (h : mayCall s thread) :
    Reception.mayCall (s.channels c) (thread.callerOn c) = true := by
  cases thread with
  | app => rfl
  | callback d =>
    by_cases hd : d = c
    · subst hd
      simpa [Thread.callerOn, mayCall] using h
    · simp [Thread.callerOn, hd, Reception.mayCall]

theorem fetchAdd_eq {s s' : Process} {before : List Reception.Label}
    (h : fetchAdd setups s before = some s') :
    ∃ ch table, before.all (isRx Reception.opened) = true ∧
      run (Reception.step (setups s.table.connected)) (s.channels s.table.connected) before =
        some ch ∧
      HandleTable.step s.table .fetchAdd = some table ∧
      s' = { setChannel s s.table.connected ch with table := table } := by
  unfold fetchAdd at h
  split at h
  · rename_i hall
    obtain ⟨ch, hrun, htable⟩ := Option.bind_eq_some_iff.mp h
    obtain ⟨table, hstep, rfl⟩ := Option.map_eq_some_iff.mp htable
    exact ⟨ch, table, hall, hrun, hstep, rfl⟩
  · cases h

theorem request_eq (s : Process) (thread : Thread) (hnd : Int32) (r : Request) :
    s.table.conns hnd = none ∧ request s thread hnd r = s ∨
      ∃ c, s.table.conns hnd = some c ∧ request s thread hnd r =
        { setChannel s c (Reception.request (s.channels c) (thread.callerOn c) r) with
          reached := s.reached ++ [(hnd, c)] } := by
  cases hconn : s.table.conns hnd with
  | none =>
    left
    simp [request, withConn, hconn]
  | some c =>
    right
    exact ⟨c, rfl, by simp [request, withConn, hconn]⟩

theorem step_table {s s' : Process} {l : Label} (h : step setups s l = some s') :
    run HandleTable.step s.table (handled s l) = some s'.table := by
  cases l with
  | connectFails =>
    obtain rfl := Option.some.inj h
    rfl
  | fetchAdd before =>
    obtain ⟨ch, table, -, -, htable, rfl⟩ := fetchAdd_eq h
    exact run_cons.mpr ⟨table, htable, rfl⟩
  | insert i =>
    obtain ⟨table, htable, rfl⟩ := Option.map_eq_some_iff.mp h
    exact run_cons.mpr ⟨table, htable, rfl⟩
  | rx c l =>
    simp only [step] at h
    split at h
    · obtain ⟨ch, -, rfl⟩ := Option.map_eq_some_iff.mp h
      rfl
    · cases h
  | request thread hnd r =>
    simp only [step] at h
    split at h
    · obtain rfl := Option.some.inj h
      rcases request_eq s thread hnd r with ⟨-, heq⟩ | ⟨c, -, heq⟩
      · rw [heq]
        rfl
      · rw [heq]
        rfl
    · cases h
  | canClose thread hnd =>
    simp only [step] at h
    split at h
    · obtain rfl := Option.some.inj h
      refine run_cons.mpr ⟨HandleTable.canClose s.table hnd, rfl, ?_⟩
      unfold canClose
      split <;> rfl
    · cases h
  | proceed c i timedOut =>
    simp only [step] at h
    split at h
    · obtain ⟨ch, -, rfl⟩ := Option.map_eq_some_iff.mp h
      rfl
    · cases h

theorem run_other {s : Process} {c d : ℕ} {ch : Channel} (h : d ≠ c) :
    run (Reception.step (setups c)) (s.channels c) [] = some ((setChannel s d ch).channels c) := by
  rw [run_nil, setChannel_of_ne ch h.symm]

/-- A step of one channel is a run of it, and a run of no steps of every other. -/
theorem run_set {s : Process} {d : ℕ} {ch : Channel} {l : Reception.Label} (c : ℕ)
    (h : Reception.step (setups d) (s.channels d) l = some ch) :
    run (Reception.step (setups c)) (s.channels c) (if d = c then [l] else []) =
      some ((setChannel s d ch).channels c) := by
  by_cases hd : d = c
  · subst hd
    rw [if_pos rfl, setChannel_self]
    exact run_cons.mpr ⟨ch, h, rfl⟩
  · rw [if_neg hd]
    exact run_other hd

theorem step_channel (c : ℕ) {s s' : Process} {l : Label} (h : step setups s l = some s') :
    run (Reception.step (setups c)) (s.channels c) (heard c s l) = some (s'.channels c) := by
  cases l with
  | connectFails =>
    obtain rfl := Option.some.inj h
    rfl
  | fetchAdd before =>
    obtain ⟨ch, table, -, hrun, -, rfl⟩ := fetchAdd_eq h
    by_cases hc : s.table.connected = c
    · subst hc
      simpa [heard, setChannel] using hrun
    · rw [heard, if_neg hc]
      exact run_other hc
  | insert i =>
    obtain ⟨table, -, rfl⟩ := Option.map_eq_some_iff.mp h
    rfl
  | rx d l =>
    simp only [step] at h
    split at h
    · obtain ⟨ch, hstep, rfl⟩ := Option.map_eq_some_iff.mp h
      exact run_set c hstep
    · cases h
  | request thread hnd r =>
    simp only [step] at h
    split at h
    · rename_i hmay
      obtain rfl := Option.some.inj h
      rcases request_eq s thread hnd r with ⟨hnone, heq⟩ | ⟨d, hsome, heq⟩
      · rw [heq]
        simp [heard, hnone]
      · have hcall : Reception.step (setups d) (s.channels d)
            (.request (thread.callerOn d) r) =
            some (Reception.request (s.channels d) (thread.callerOn d) r) := by
          simp [Reception.step, mayCall_callerOn d hmay]
        have hset := run_set c hcall
        rw [heq]
        by_cases hd : d = c
        · subst hd
          simpa [heard, hsome] using hset
        · simpa [heard, hsome, hd] using hset
    · cases h
  | canClose thread hnd =>
    simp only [step] at h
    split at h
    · rename_i hmay
      obtain rfl := Option.some.inj h
      unfold canClose
      split
      · rename_i hnone
        simp [heard, hnone]
      · rename_i d hsome
        have hcall : Reception.step (setups d) (s.channels d) (.canClose (thread.callerOn d)) =
            some (Reception.canClose (s.channels d) (thread.callerOn d)) := by
          simp [Reception.step, mayCall_callerOn d hmay]
        have hset := run_set c hcall
        by_cases hd : d = c
        · subst hd
          simpa [heard, hsome] using hset
        · simpa [heard, hsome, hd] using hset
    · cases h
  | proceed d i timedOut =>
    simp only [step] at h
    split at h
    · obtain ⟨ch, hstep, rfl⟩ := Option.map_eq_some_iff.mp h
      exact run_set c hstep
    · cases h

/-! ### Handles and connections -/

/-- Calls have reached connections that their handle was returned for, and a channel is open
exactly until its handle is closed. -/
structure Inv (s : Process) : Prop where
  numbered : Numbered s.table
  tabled : Tabled s.table
  reached : ∀ q ∈ s.reached, q ∈ s.table.returned
  shut : ∀ c, (s.channels c).isOpen = false → handleOf c ∈ s.table.closed
  closed : ∀ p ∈ s.table.returned, p.1 ∈ s.table.closed → (s.channels p.2).isOpen = false

theorem loaded_inv : Inv loaded where
  numbered := HandleTable.init_numbered
  tabled := HandleTable.init_tabled
  reached := fun _ h => absurd h List.not_mem_nil
  shut := fun _ h => by cases h
  closed := fun _ h => absurd h List.not_mem_nil

theorem Inv.keep {s s' : Process} (h : Inv s) (htable : s'.table = s.table)
    (hreached : ∀ q ∈ s'.reached, q ∈ s.table.returned)
    (hopen : ∀ c, (s'.channels c).isOpen = (s.channels c).isOpen) : Inv s' := by
  refine ⟨htable ▸ h.numbered, htable ▸ h.tabled, htable ▸ hreached, fun c hc => ?_,
    fun p hp hmem => ?_⟩
  · rw [htable]
    exact h.shut c ((hopen c).symm.trans hc)
  · rw [htable] at hp hmem
    exact (hopen p.2).trans (h.closed p hp hmem)

theorem setChannel_isOpen {s : Process} {c : ℕ} {ch : Channel}
    (h : ch.isOpen = (s.channels c).isOpen) (d : ℕ) :
    ((setChannel s c ch).channels d).isOpen = (s.channels d).isOpen := by
  by_cases hd : d = c
  · subst hd
    rw [setChannel_self, h]
  · rw [setChannel_of_ne ch hd]

theorem rx_isOpen {setup : Setup} {ch ch' : Channel} {l : Reception.Label}
    (hrx : isRx ch l = true) (h : Reception.step setup ch l = some ch') :
    ch'.isOpen = ch.isOpen := by
  rcases CloseCompletes.step_rx h with ⟨-, hstep⟩ | ⟨hnot, -⟩
  · exact (Reception.rxMove_keeps (Reception.rxStep_move hstep)).1
  · rw [hrx] at hnot
    cases hnot

theorem isRx_eq (ch ch' : Channel) (l : Reception.Label) : isRx ch l = isRx ch' l := by
  cases l <;> rfl

theorem run_isOpen {setup : Setup} {ch ch' : Channel} {ls : List Reception.Label}
    (hrx : ls.all (isRx Reception.opened) = true)
    (h : run (Reception.step setup) ch ls = some ch') : ch'.isOpen = ch.isOpen := by
  induction ls generalizing ch with
  | nil =>
    obtain rfl := Option.some.inj h
    rfl
  | cons l ls ih =>
    obtain ⟨mid, hl, hrest⟩ := run_cons.mp h
    rw [List.all_cons, Bool.and_eq_true] at hrx
    have hone : isRx ch l = true := (isRx_eq ch Reception.opened l).trans hrx.1
    exact (ih hrx.2 hrest).trans (rx_isOpen hone hl)

theorem proceed_isOpen {setup : Setup} {ch ch' : Channel} {i : ℕ} {timedOut : Bool}
    (h : Reception.proceed setup ch i timedOut = some ch') : ch'.isOpen = ch.isOpen := by
  unfold Reception.proceed at h
  split at h
  · cases h
  · obtain ⟨t, hperform, rfl⟩ := Option.map_eq_some_iff.mp h
    exact (Reception.perform_keeps hperform).1
  · obtain ⟨⟨t, next⟩, hclose, rfl⟩ := Option.map_eq_some_iff.mp h
    have hopen := (Reception.closeStep_keeps hclose).2.1
    cases next with
    | none => exact hopen
    | some stage => exact hopen

theorem request_isOpen (ch : Channel) (caller : Caller) (r : Request) :
    (Reception.request ch caller r).isOpen = ch.isOpen := by
  unfold Reception.request
  split <;> rfl

theorem canClose_isOpen (ch : Channel) (caller : Caller) :
    (Reception.canClose ch caller).isOpen = false := by
  unfold Reception.canClose
  split
  · rfl
  · rename_i hshut
    exact Bool.eq_false_iff.mpr hshut

theorem mem_closed {t : Table} {hnd k : Int32} :
    k ∈ (HandleTable.canClose t hnd).closed ↔
      k ∈ t.closed ∨ k = hnd ∧ hnd ∈ t.returned.map Prod.fst := by
  unfold HandleTable.canClose
  dsimp only
  split
  · rename_i hknown
    simp only [List.mem_cons, hknown, and_true]
    exact or_comm
  · rename_i hunknown
    simp [hunknown]

/-- A handle that is not in the table any more was closed before. -/
theorem Inv.closed_of_none {s : Process} (h : Inv s) {hnd k : Int32}
    (hnone : s.table.conns hnd = none)
    (hk : k ∈ (HandleTable.canClose s.table hnd).closed) : k ∈ s.table.closed := by
  rcases mem_closed.mp hk with hk | ⟨rfl, hknown⟩
  · exact hk
  · obtain ⟨p, hp, rfl⟩ := List.mem_map.mp hknown
    by_contra hopen
    have hlive := h.tabled.live p hp hopen
    rw [hnone] at hlive
    cases hlive

theorem Inv.key_eq {s : Process} (h : Inv s) {p : Int32 × ℕ} (hp : p ∈ s.table.returned) :
    p.1 = handleOf p.2 ∧ p.2 < s.table.connected :=
  h.numbered.keyed p (List.mem_append_right _ hp)

theorem canClose_inv {s : Process} (h : Inv s) (hfew : s.table.connected ≤ 2 ^ 31 - 1)
    (thread : Thread) (hnd : Int32) : Inv (canClose s thread hnd) := by
  have hnumbered : Numbered (HandleTable.canClose s.table hnd) :=
    HandleTable.step_numbered (l := .canClose hnd) h.numbered rfl
  have htabled := HandleTable.close_tabled h.tabled hnd
  unfold canClose
  split
  · rename_i hnone
    refine ⟨hnumbered, htabled, h.reached, fun c hc => ?_, fun p hp hmem => ?_⟩
    · exact mem_closed.mpr (Or.inl (h.shut c hc))
    · exact h.closed p hp (h.closed_of_none hnone hmem)
  · rename_i c hsome
    have hheld : (hnd, c) ∈ s.table.returned := h.tabled.held hnd c hsome
    refine ⟨hnumbered, htabled, fun q hq => ?_, fun d hd => ?_, fun p hp hmem => ?_⟩
    · rcases List.mem_append.mp hq with hq | hq
      · exact h.reached q hq
      · obtain rfl := List.mem_singleton.mp hq
        exact hheld
    · by_cases hdc : d = c
      · subst hdc
        have hkey : hnd = handleOf d := (h.key_eq hheld).1
        exact mem_closed.mpr (Or.inr ⟨hkey.symm, List.mem_map_of_mem hheld⟩)
      · have hbefore := h.shut d (by rwa [← setChannel_of_ne _ hdc])
        exact mem_closed.mpr (Or.inl hbefore)
    · by_cases hpc : p.2 = c
      · have hself : ((setChannel s c (Reception.canClose (s.channels c)
            (thread.callerOn c))).channels c).isOpen = false := by
          rw [setChannel_self]
          exact canClose_isOpen ..
        rw [hpc]
        exact hself
      · have hkept : p.1 ∈ s.table.closed := by
          rcases mem_closed.mp hmem with hmem | ⟨heq, -⟩
          · exact hmem
          · have hp' := h.key_eq hp
            have hc' := h.key_eq hheld
            have hsame : handleOf p.2 = handleOf c := hp'.1.symm.trans (heq.trans hc'.1)
            exact absurd (HandleTable.handleOf_inj (by omega) (by omega) hsame) hpc
        have hother := setChannel_of_ne (s := s)
          (Reception.canClose (s.channels c) (thread.callerOn c)) hpc
        exact (congrArg Channel.isOpen hother).trans (h.closed p hp hkept)

theorem insert_inv {s : Process} (h : Inv s) (hfew : s.table.connected ≤ 2 ^ 31 - 1) {i : ℕ}
    {table : Table} (hstep : HandleTable.step s.table (.insert i) = some table) :
    Inv { s with table := table } := by
  have hnumbered := HandleTable.step_numbered h.numbered hstep
  have htabled := HandleTable.step_tabled h.numbered hfew h.tabled hstep
  obtain ⟨p, hp, rfl⟩ := Option.map_eq_some_iff.mp hstep
  refine ⟨hnumbered, htabled, fun q hq => ?_, h.shut, fun q hq hmem => ?_⟩
  · exact List.mem_append_left _ (h.reached q hq)
  · rcases List.mem_append.mp hq with hq | hq
    · exact h.closed q hq hmem
    · obtain rfl := List.mem_singleton.mp hq
      obtain ⟨r, hr, heq⟩ := List.mem_map.mp (h.tabled.known _ hmem)
      have hne := HandleTable.inserting_ne h.numbered hfew (List.mem_of_getElem? hp) hr
      exact absurd heq hne

theorem fetchAdd_inv {s s' : Process} {before : List Reception.Label} (h : Inv s)
    (hfew : s.table.connected ≤ 2 ^ 31 - 1) (hstep : fetchAdd setups s before = some s') :
    Inv s' := by
  obtain ⟨ch, table, hall, hrun, htable, rfl⟩ := fetchAdd_eq hstep
  have hnumbered := HandleTable.step_numbered h.numbered htable
  have htabled := HandleTable.step_tabled h.numbered hfew h.tabled htable
  have hopen := setChannel_isOpen (run_isOpen hall hrun)
  obtain rfl := Option.some.inj htable
  refine ⟨hnumbered, htabled, h.reached, fun c hc => ?_, fun p hp hmem => ?_⟩
  · exact h.shut c ((hopen c).symm.trans hc)
  · exact (hopen p.2).trans (h.closed p hp hmem)

theorem step_inv {s s' : Process} {l : Label} (h : Inv s)
    (hfew : s.table.connected ≤ 2 ^ 31 - 1) (hstep : step setups s l = some s') : Inv s' := by
  cases l with
  | connectFails =>
    obtain rfl := Option.some.inj hstep
    exact h
  | fetchAdd before => exact fetchAdd_inv h hfew hstep
  | insert i =>
    obtain ⟨table, htable, rfl⟩ := Option.map_eq_some_iff.mp hstep
    exact insert_inv h hfew htable
  | rx c l =>
    simp only [step] at hstep
    split at hstep
    · rename_i hrx
      obtain ⟨ch, hone, rfl⟩ := Option.map_eq_some_iff.mp hstep
      exact h.keep rfl h.reached (setChannel_isOpen (rx_isOpen hrx.2 hone))
    · cases hstep
  | request thread hnd r =>
    simp only [step] at hstep
    split at hstep
    · obtain rfl := Option.some.inj hstep
      rcases request_eq s thread hnd r with ⟨-, heq⟩ | ⟨c, hsome, heq⟩
      · rw [heq]
        exact h
      · rw [heq]
        refine h.keep rfl (fun q hq => ?_) (setChannel_isOpen (request_isOpen ..))
        rcases List.mem_append.mp hq with hq | hq
        · exact h.reached q hq
        · obtain rfl := List.mem_singleton.mp hq
          exact h.tabled.held hnd c hsome
    · cases hstep
  | canClose thread hnd =>
    simp only [step] at hstep
    split at hstep
    · obtain rfl := Option.some.inj hstep
      exact canClose_inv h hfew thread hnd
    · cases hstep
  | proceed c i timedOut =>
    simp only [step] at hstep
    split at hstep
    · obtain ⟨ch, hone, rfl⟩ := Option.map_eq_some_iff.mp hstep
      exact h.keep rfl h.reached (setChannel_isOpen (proceed_isOpen hone))
    · cases hstep

/-! ### Runs -/

theorem run_connected {s t : Process} {ls : List Label}
    (h : StepSystem.run (step setups) s ls = some t) :
    s.table.connected ≤ t.table.connected := by
  have htable := run_shown Process.table handled (fun _ _ _ hstep => step_table hstep) h
  rw [HandleTable.run_connected htable]
  exact Nat.le_add_right ..

theorem run_inv {s t : Process} {ls : List Label} (hs : Inv s)
    (h : StepSystem.run (step setups) s ls = some t)
    (hfew : t.table.connected ≤ 2 ^ 31 - 1) : Inv t := by
  induction ls generalizing s with
  | nil =>
    obtain rfl := Option.some.inj h
    exact hs
  | cons l ls ih =>
    obtain ⟨s', hl, hrest⟩ := run_cons.mp h
    have hgrown := run_connected h
    exact ih (step_inv hs (by omega) hl) hrest

def run (setups : ℕ → Setup) (ls : List Label) : Option Process :=
  StepSystem.run (step setups) loaded ls

/-- What a returned handle and its connection have to do with each other, and with nothing
else: a call on the handle reaches the connection and no other call does, the connection's
channel is in the state of a run of it alone, and it is open until the handle is closed. So
the reads on a handle give a subsequence of what the wire of its own connection has brought,
whatever is opened, closed and called on the other handles. -/
theorem channels_isolated (setups : ℕ → Setup) (ls : List Label) (t : Process)
    (hrun : run setups ls = some t) (hfew : t.table.connected ≤ 2 ^ 31 - 1) :
    ∀ p ∈ t.table.returned,
      (∀ q ∈ t.reached, q.1 = p.1 ↔ q.2 = p.2) ∧
      Reception.run (setups p.2) (shown (step setups) (heard p.2) loaded ls) =
        some (t.channels p.2) ∧
      ((t.channels p.2).isOpen = true ↔ p.1 ∉ t.table.closed) ∧
      ∃ ws, List.Forall₂ (ReadOf (setups p.2)) (t.channels p.2).reads ws ∧
        ws.Sublist (received (setups p.2) (t.channels p.2)) := by
  intro p hp
  have hinv := run_inv loaded_inv hrun hfew
  have hkey := hinv.key_eq hp
  have halone : Reception.run (setups p.2) (shown (step setups) (heard p.2) loaded ls) =
      some (t.channels p.2) :=
    run_shown (fun s : Process => s.channels p.2) (heard p.2)
      (fun _ _ _ hstep => step_channel p.2 hstep) hrun
  refine ⟨fun q hq => ?_, halone, ?_, (run_ordered halone).reads⟩
  · have hqkey := hinv.key_eq (hinv.reached q hq)
    constructor
    · intro heq
      have hsame : handleOf q.2 = handleOf p.2 := hqkey.1.symm.trans (heq.trans hkey.1)
      exact HandleTable.handleOf_inj (by omega) (by omega) hsame
    · intro heq
      rw [hqkey.1, heq, hkey.1]
  · constructor
    · intro hopen hmem
      have hshut := hinv.closed p hp hmem
      rw [hopen] at hshut
      cases hshut
    · intro hnot
      by_contra hshut
      have hmem := hinv.shut p.2 (Bool.eq_false_iff.mpr hshut)
      rw [← hkey.1] at hmem
      exact hnot hmem

/-- Two channels are opened; one frame is read on the second handle, and the first is closed. -/
def twoChannels : List Label :=
  [.fetchAdd [.loop], .fetchAdd [], .insert 0, .insert 0, .rx 1 .loop,
    .rx 1 (.datagram (.v4 0) [2, 0, 0, 0, 1, 0, 0, 1, 0x23, 2, 0xAA, 0xBB]), .rx 1 .advance,
    .rx 1 (.enqueue 5), .rx 1 .notify,
    .request .app 2 (.read ⟨some 0, some [9, 9, 9, 9, 9, 9, 9, 9], some 0, some 0, some 0⟩),
    .canClose .app 1, .proceed 1 0 false]

theorem channels_isolated_twoChannels :
    ∃ (t : Process) (ws : List Frames.Frame), t.reached = [(2, 1), (1, 0)] ∧
      (t.channels 1).reads.length = 1 ∧
      List.Forall₂ (ReadOf Reception.openUdp) (t.channels 1).reads ws ∧
      ws.Sublist (received Reception.openUdp (t.channels 1)) := by
  have hrun : ∃ t, run (fun _ => Reception.openUdp) twoChannels = some t ∧
      t.table.connected = 2 ∧ t.table.returned = [(1, 0), (2, 1)] ∧
      t.reached = [(2, 1), (1, 0)] ∧ (t.channels 1).reads.length = 1 :=
    ⟨_, rfl, rfl, rfl, rfl, rfl⟩
  obtain ⟨t, hrun, htwo, hreturned, hreached, hone⟩ := hrun
  have hall := channels_isolated (fun _ => Reception.openUdp) twoChannels t hrun (by omega)
  obtain ⟨-, -, -, ws, hreads, hsub⟩ := hall (2, 1) (by simp [hreturned])
  exact ⟨t, ws, hreached, hone, hreads, hsub⟩

end Kvasilloni.Channels
