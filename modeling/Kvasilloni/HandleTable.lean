import Kvasilloni.Library.StepSystem
import Mathlib.Data.List.Perm.Basic
import Mathlib.Data.List.Nodup
import Mathlib.Logic.Function.Basic
import Mathlib.Algebra.Group.Nat.Defs

/-!
The handle table. An open that has connected takes its handle from a 32-bit counter that
wraps around, and inserts the connection under it in a step of its own; a close removes it;
every other call looks its handle up. Connections are numbered in the order of their
opens. The handles are sound as long as the counter has not left the positive numbers.
-/
namespace Kvasilloni.HandleTable

def canErrInvHandle : Int32 := -10

/-- The table and the counter, with the opens that have a handle and have yet to insert
their connection, the handles that opens have returned, and those closed since. -/
structure Table where
  nextHandle : Int32
  conns : Int32 → Option ℕ
  connected : ℕ
  inserting : List (Int32 × ℕ)
  returned : List (Int32 × ℕ)
  closed : List Int32

def Table.init : Table := ⟨1, fun _ => none, 0, [], [], []⟩

/-- The connection that a call on the handle works on, or the error it returns. -/
def withConn (s : Table) (hnd err : Int32) : Except Int32 ℕ :=
  match s.conns hnd with
  | some c => .ok c
  | none => .error err

/-! ### The calls on a handle -/

def canRead (s : Table) (hnd : Int32) : Except Int32 ℕ := withConn s hnd canErrInvHandle
def canReadWait (s : Table) (hnd : Int32) : Except Int32 ℕ := withConn s hnd canErrInvHandle
def canReadSync (s : Table) (hnd : Int32) : Except Int32 ℕ := withConn s hnd canErrInvHandle
def writeFrame (s : Table) (hnd : Int32) : Except Int32 ℕ := withConn s hnd canErrInvHandle
def canWrite (s : Table) (hnd : Int32) : Except Int32 ℕ := writeFrame s hnd
def canWriteWait (s : Table) (hnd : Int32) : Except Int32 ℕ := writeFrame s hnd
def canFlushReceiveQueue (s : Table) (hnd : Int32) : Except Int32 ℕ :=
  withConn s hnd canErrInvHandle
def canAccept (s : Table) (hnd : Int32) : Except Int32 ℕ := withConn s hnd canErrInvHandle
def canSetNotify (s : Table) (hnd : Int32) : Except Int32 ℕ := withConn s hnd canErrInvHandle

inductive Call
  | canRead
  | canReadWait
  | canReadSync
  | canWrite
  | canWriteWait
  | canFlushReceiveQueue
  | canAccept
  | canSetNotify
  deriving DecidableEq

def lookup (s : Table) (hnd : Int32) : Call → Except Int32 ℕ
  | .canRead => canRead s hnd
  | .canReadWait => canReadWait s hnd
  | .canReadSync => canReadSync s hnd
  | .canWrite => canWrite s hnd
  | .canWriteWait => canWriteWait s hnd
  | .canFlushReceiveQueue => canFlushReceiveQueue s hnd
  | .canAccept => canAccept s hnd
  | .canSetNotify => canSetNotify s hnd

/-! ### The steps -/

/-- An open that cannot connect touches nothing; one that can takes a handle and inserts
its connection later, which is when it returns. -/
inductive Label
  | connectFails
  | fetchAdd
  | insert (i : ℕ)
  | canClose (hnd : Int32)
  | call (hnd : Int32) (c : Call)
  deriving DecidableEq

/-- The connection goes in under its handle, over whatever was there. -/
def insertConn (s : Table) (i : ℕ) (p : Int32 × ℕ) : Table :=
  { s with
    conns := Function.update s.conns p.1 (some p.2)
    inserting := s.inserting.eraseIdx i
    returned := s.returned ++ [p] }

/-- The handle leaves the table; a close counts once an open has returned the handle. -/
def canClose (s : Table) (hnd : Int32) : Table :=
  { s with
    conns := Function.update s.conns hnd none
    closed := if hnd ∈ s.returned.map Prod.fst then hnd :: s.closed else s.closed }

def step (s : Table) : Label → Option Table
  | .connectFails => some s
  | .fetchAdd =>
    some { s with
      nextHandle := s.nextHandle + 1
      connected := s.connected + 1
      inserting := s.inserting ++ [(s.nextHandle, s.connected)] }
  | .insert i => s.inserting[i]?.map (insertConn s i)
  | .canClose hnd => some (canClose s hnd)
  | .call _ _ => some s

def run (ls : List Label) : Option Table := StepSystem.run step Table.init ls

/-- The handles that have been returned are positive and all different, the next ones to be
inserted are free, and calls reach the connection of the open that returned the handle
until that is closed, and no connection afterwards. -/
structure Sound (s : Table) : Prop where
  positive : ∀ p ∈ s.returned, 0 < p.1
  distinct : (s.returned.map Prod.fst).Nodup
  vacant : ∀ p ∈ s.inserting, s.conns p.1 = none
  reached : ∀ p ∈ s.returned, p.1 ∉ s.closed → ∀ c, lookup s p.1 c = .ok p.2
  refused : ∀ hnd ∈ s.closed, ∀ c, lookup s hnd c = .error canErrInvHandle

theorem lookup_eq (s : Table) (hnd : Int32) (c : Call) :
    lookup s hnd c = withConn s hnd canErrInvHandle := by
  cases c <;> rfl

/-! ### The counter -/

/-- The handle that the open number `c` gets, counted from zero. -/
def handleOf (c : ℕ) : Int32 := Int32.ofNat (c + 1)

theorem handleOf_succ (c : ℕ) : handleOf (c + 1) = handleOf c + 1 :=
  Int32.ofNat_add (c + 1) 1

theorem toInt_handleOf {c : ℕ} (h : c < 2 ^ 31 - 1) : (handleOf c).toInt = c + 1 := by
  rw [handleOf, Int32.toInt_ofNat_of_lt (by omega)]
  rfl

theorem handleOf_pos {c : ℕ} (h : c < 2 ^ 31 - 1) : 0 < handleOf c := by
  rw [Int32.lt_iff_toInt_lt, toInt_handleOf h, Int32.toInt_zero]
  omega

theorem handleOf_inj {c d : ℕ} (hc : c < 2 ^ 31 - 1) (hd : d < 2 ^ 31 - 1)
    (h : handleOf c = handleOf d) : c = d := by
  have hint := congrArg Int32.toInt h
  rw [toInt_handleOf hc, toInt_handleOf hd] at hint
  omega

/-- One open too many. -/
theorem handleOf_last_neg : ¬ 0 < handleOf (2 ^ 31 - 1) := by decide

def Table.issued (s : Table) : List (Int32 × ℕ) := s.inserting ++ s.returned

/-- The opens so far have the handles of their numbers, each number once. -/
structure Numbered (s : Table) : Prop where
  next : s.nextHandle = handleOf s.connected
  keyed : ∀ p ∈ s.issued, p.1 = handleOf p.2 ∧ p.2 < s.connected
  complete : ∀ c < s.connected, (handleOf c, c) ∈ s.issued
  nodup : (s.issued.map Prod.snd).Nodup

theorem init_numbered : Numbered Table.init where
  next := rfl
  keyed := by simp [Table.issued, Table.init]
  complete := by simp [Table.init]
  nodup := List.nodup_nil

theorem insert_issued {s : Table} {i : ℕ} {p : Int32 × ℕ} (h : s.inserting[i]? = some p) :
    (insertConn s i p).issued.Perm s.issued := by
  obtain ⟨hi, rfl⟩ := List.getElem?_eq_some_iff.mp h
  have hperm := (List.getElem_cons_eraseIdx_perm hi).append_right s.returned
  refine List.Perm.trans ?_ hperm
  simp only [Table.issued, insertConn, ← List.append_assoc]
  exact List.perm_append_singleton _ _

theorem fetchAdd_numbered {s : Table} (hinv : Numbered s) :
    Numbered { s with
      nextHandle := s.nextHandle + 1
      connected := s.connected + 1
      inserting := s.inserting ++ [(s.nextHandle, s.connected)] } := by
  have hissued : ((s.inserting ++ [(s.nextHandle, s.connected)]) ++ s.returned).Perm
      ((handleOf s.connected, s.connected) :: s.issued) := by
    rw [hinv.next, List.append_assoc]
    exact List.perm_middle
  refine ⟨?_, fun p hp => ?_, fun c hc => ?_, ?_⟩
  · rw [hinv.next, handleOf_succ]
  · rcases List.mem_cons.mp (hissued.mem_iff.mp hp) with rfl | hp
    · exact ⟨rfl, Nat.lt_succ_self _⟩
    · exact ⟨(hinv.keyed p hp).1, Nat.lt_succ_of_lt (hinv.keyed p hp).2⟩
  · refine hissued.mem_iff.mpr ?_
    rcases Nat.lt_succ_iff_lt_or_eq.mp hc with hc | rfl
    · exact List.mem_cons_of_mem _ (hinv.complete c hc)
    · exact List.mem_cons_self ..
  · refine ((hissued.map Prod.snd).nodup_iff).mpr ?_
    rw [List.map_cons, List.nodup_cons]
    refine ⟨fun hmem => ?_, hinv.nodup⟩
    obtain ⟨p, hp, hsnd⟩ := List.mem_map.mp hmem
    have hlt := (hinv.keyed p hp).2
    omega

theorem step_numbered {s s' : Table} {l : Label} (hinv : Numbered s)
    (h : step s l = some s') : Numbered s' := by
  cases l with
  | fetchAdd =>
    obtain rfl := Option.some.inj h
    exact fetchAdd_numbered hinv
  | insert i =>
    obtain ⟨p, hp, rfl⟩ := Option.map_eq_some_iff.mp h
    have hperm := insert_issued hp
    exact ⟨hinv.next, fun q hq => hinv.keyed q (hperm.mem_iff.mp hq),
      fun c hc => hperm.mem_iff.mpr (hinv.complete c hc),
      ((hperm.map Prod.snd).nodup_iff).mpr hinv.nodup⟩
  | connectFails | canClose hnd | call hnd c =>
    obtain rfl := Option.some.inj h
    exact ⟨hinv.next, hinv.keyed, hinv.complete, hinv.nodup⟩

/-- The number of opens that have connected. -/
def opens (ls : List Label) : ℕ := ls.count .fetchAdd

theorem step_connected {s s' : Table} {l : Label} (h : step s l = some s') :
    s'.connected = s.connected + if l = .fetchAdd then 1 else 0 := by
  cases l with
  | insert i =>
    obtain ⟨p, -, rfl⟩ := Option.map_eq_some_iff.mp h
    rfl
  | fetchAdd | connectFails | canClose hnd | call hnd c =>
    obtain rfl := Option.some.inj h
    rfl

theorem run_connected {s t : Table} {ls : List Label}
    (h : StepSystem.run step s ls = some t) : t.connected = s.connected + opens ls := by
  induction ls generalizing s with
  | nil =>
    obtain rfl := Option.some.inj h
    rfl
  | cons l ls ih =>
    obtain ⟨s', hstep, hrest⟩ := StepSystem.run_cons.mp h
    rw [ih hrest, step_connected hstep, opens, opens, List.count_cons]
    by_cases hl : l = .fetchAdd
    · subst hl
      simp only [↓reduceIte, beq_self_eq_true]
      omega
    · simp [hl]

/-! ### The table -/

/-- The table holds the connections of the handles that were returned and not closed. -/
structure Tabled (s : Table) : Prop where
  held : ∀ hnd c, s.conns hnd = some c → (hnd, c) ∈ s.returned
  live : ∀ p ∈ s.returned, p.1 ∉ s.closed → s.conns p.1 = some p.2
  gone : ∀ hnd ∈ s.closed, s.conns hnd = none
  known : ∀ hnd ∈ s.closed, hnd ∈ s.returned.map Prod.fst

theorem init_tabled : Tabled Table.init where
  held := fun _ _ h => by cases h
  live := fun _ h => absurd h List.not_mem_nil
  gone := fun _ h => absurd h List.not_mem_nil
  known := fun _ h => absurd h List.not_mem_nil

/-- An open that has yet to insert has a handle that no open has returned. -/
theorem inserting_ne {s : Table} (hinv : Numbered s) (hfew : s.connected ≤ 2 ^ 31 - 1)
    {p q : Int32 × ℕ} (hp : p ∈ s.inserting) (hq : q ∈ s.returned) : q.1 ≠ p.1 := by
  intro heq
  have hpkey := hinv.keyed p (List.mem_append_left _ hp)
  have hqkey := hinv.keyed q (List.mem_append_right _ hq)
  have hsnd : q.2 = p.2 :=
    handleOf_inj (by omega) (by omega) (hqkey.1.symm.trans (heq.trans hpkey.1))
  have hnodup := hinv.nodup
  rw [Table.issued, List.map_append, List.nodup_append] at hnodup
  exact hnodup.2.2 p.2 (List.mem_map_of_mem hp) q.2 (List.mem_map_of_mem hq) hsnd.symm

theorem insert_tabled {s : Table} {i : ℕ} {p : Int32 × ℕ} (hnum : Numbered s)
    (hfew : s.connected ≤ 2 ^ 31 - 1) (hinv : Tabled s) (hp : s.inserting[i]? = some p) :
    Tabled (insertConn s i p) := by
  have hne := fun {q} hq => inserting_ne hnum hfew (List.mem_of_getElem? hp) (q := q) hq
  refine ⟨fun hnd c hc => ?_, fun q hq hopen => ?_, fun hnd hmem => ?_, fun hnd hmem => ?_⟩
  · by_cases heq : hnd = p.1
    · subst heq
      simp only [insertConn, Function.update_self, Option.some.injEq] at hc
      subst hc
      exact List.mem_append_right _ (List.mem_singleton_self _)
    · simp only [insertConn, Function.update_of_ne heq] at hc
      exact List.mem_append_left _ (hinv.held hnd c hc)
  · rcases List.mem_append.mp hq with hq | hq
    · exact (Function.update_of_ne (hne hq) ..).trans (hinv.live q hq hopen)
    · obtain rfl := List.mem_singleton.mp hq
      exact Function.update_self ..
  · obtain ⟨q, hq, rfl⟩ := List.mem_map.mp (hinv.known hnd hmem)
    exact (Function.update_of_ne (hne hq) ..).trans (hinv.gone _ hmem)
  · show hnd ∈ (s.returned ++ [p]).map Prod.fst
    rw [List.map_append]
    exact List.mem_append_left _ (hinv.known hnd hmem)

theorem close_tabled {s : Table} (hinv : Tabled s) (hnd : Int32) : Tabled (canClose s hnd) := by
  have hclosed : ∀ k ∈ (canClose s hnd).closed, k = hnd ∧ hnd ∈ s.returned.map Prod.fst ∨
      k ∈ s.closed := by
    intro k hk
    simp only [canClose] at hk
    split at hk
    · rename_i hknown
      rcases List.mem_cons.mp hk with rfl | hk
      · exact Or.inl ⟨rfl, hknown⟩
      · exact Or.inr hk
    · exact Or.inr hk
  refine ⟨fun k c hc => ?_, fun p hp hopen => ?_, fun k hk => ?_, fun k hk => ?_⟩
  · by_cases hk : k = hnd
    · subst hk
      simp only [canClose, Function.update_self] at hc
      cases hc
    · simp only [canClose, Function.update_of_ne hk] at hc
      exact hinv.held k c hc
  · have hne : p.1 ≠ hnd := by
      rintro rfl
      refine hopen ?_
      rw [show (canClose s p.1).closed = p.1 :: s.closed from if_pos (List.mem_map_of_mem hp)]
      exact List.mem_cons_self ..
    have hstill : p.1 ∉ s.closed := by
      intro hmem
      refine hopen ?_
      simp only [canClose]
      split
      · exact List.mem_cons_of_mem _ hmem
      · exact hmem
    exact (Function.update_of_ne hne ..).trans (hinv.live p hp hstill)
  · by_cases heq : k = hnd
    · subst heq
      exact Function.update_self ..
    · rcases hclosed k hk with ⟨rfl, -⟩ | hk
      · exact absurd rfl heq
      · exact (Function.update_of_ne heq ..).trans (hinv.gone k hk)
  · rcases hclosed k hk with ⟨rfl, hknown⟩ | hk
    · exact hknown
    · exact hinv.known k hk

theorem step_tabled {s s' : Table} {l : Label} (hnum : Numbered s)
    (hfew : s.connected ≤ 2 ^ 31 - 1) (hinv : Tabled s) (h : step s l = some s') :
    Tabled s' := by
  cases l with
  | insert i =>
    obtain ⟨p, hp, rfl⟩ := Option.map_eq_some_iff.mp h
    exact insert_tabled hnum hfew hinv hp
  | canClose hnd =>
    obtain rfl := Option.some.inj h
    exact close_tabled hinv hnd
  | fetchAdd | connectFails | call hnd c =>
    obtain rfl := Option.some.inj h
    exact ⟨hinv.held, hinv.live, hinv.gone, hinv.known⟩

theorem run_tabled {s t : Table} {ls : List Label} (hnum : Numbered s) (hinv : Tabled s)
    (h : StepSystem.run step s ls = some t) (hfew : t.connected ≤ 2 ^ 31 - 1) :
    Numbered t ∧ Tabled t := by
  induction ls generalizing s with
  | nil =>
    obtain rfl := Option.some.inj h
    exact ⟨hnum, hinv⟩
  | cons l ls ih =>
    obtain ⟨s', hstep, hrest⟩ := StepSystem.run_cons.mp h
    have hgrown := run_connected h
    have hbound : s.connected ≤ 2 ^ 31 - 1 := by omega
    exact ih (step_numbered hnum hstep) (step_tabled hnum hbound hinv hstep) hrest

theorem sound_of_tabled {s : Table} (hnum : Numbered s) (hinv : Tabled s)
    (hfew : s.connected ≤ 2 ^ 31 - 1) : Sound s := by
  have hkey : ∀ p ∈ s.returned, p.1 = handleOf p.2 ∧ p.2 < s.connected :=
    fun p hp => hnum.keyed p (List.mem_append_right _ hp)
  refine ⟨fun p hp => ?_, ?_, fun p hp => ?_, fun p hp hopen c => ?_, fun hnd hmem c => ?_⟩
  · rw [(hkey p hp).1]
    have hlt := (hkey p hp).2
    exact handleOf_pos (by omega)
  · have hnodup := hnum.nodup
    rw [Table.issued, List.map_append, List.nodup_append] at hnodup
    refine List.Nodup.map_on (fun p hp q hq heq => ?_) (List.Nodup.of_map _ hnodup.2.1)
    have hlp := (hkey p hp).2
    have hlq := (hkey q hq).2
    have hsnd : p.2 = q.2 := by
      refine handleOf_inj (by omega) (by omega) ?_
      rw [← (hkey p hp).1, ← (hkey q hq).1, heq]
    exact Prod.ext heq hsnd
  · by_contra hsome
    obtain ⟨c, hc⟩ := Option.ne_none_iff_exists'.mp hsome
    exact inserting_ne hnum hfew hp (hinv.held p.1 c hc) rfl
  · rw [lookup_eq, withConn, hinv.live p hp hopen]
  · rw [lookup_eq, withConn, hinv.gone hnd hmem]

/-! ### The end of the positive handles -/

/-- With one open too many, that open returns a handle that is not positive. -/
theorem exists_unsound {s : Table} (hnum : Numbered s) (hmany : 2 ^ 31 ≤ s.connected) :
    ∃ ks t, .fetchAdd ∉ ks ∧ StepSystem.run step s ks = some t ∧ ¬ Sound t := by
  have hissued := hnum.complete (2 ^ 31 - 1) (by omega)
  rcases List.mem_append.mp hissued with hwaiting | hreturned
  · obtain ⟨i, hi⟩ := List.mem_iff_getElem?.mp hwaiting
    refine ⟨[.insert i], insertConn s i (handleOf (2 ^ 31 - 1), 2 ^ 31 - 1), by simp, ?_,
      fun hsound => ?_⟩
    · refine StepSystem.run_cons.mpr ⟨_, ?_, rfl⟩
      simp only [step, hi, Option.map_some]
    · have hmem : (handleOf (2 ^ 31 - 1), 2 ^ 31 - 1) ∈
          s.returned ++ [(handleOf (2 ^ 31 - 1), 2 ^ 31 - 1)] :=
        List.mem_append_right _ (List.mem_singleton_self _)
      have hpos := hsound.positive _ hmem
      exact handleOf_last_neg hpos
  · refine ⟨[], s, List.not_mem_nil, rfl, fun hsound => ?_⟩
    have hpos := hsound.positive _ hreturned
    exact handleOf_last_neg hpos

theorem run_numbered {ls : List Label} {s : Table} (h : run ls = some s) : Numbered s :=
  StepSystem.run_invariant (fun _ _ _ hinv hstep => step_numbered hinv hstep) init_numbered h

/-- Whatever a run is followed by, short of another open, the handles stay sound exactly
when at most `2 ^ 31 - 1` opens of the run have connected. -/
theorem handles_sound_iff {ls : List Label} {s : Table} (h : run ls = some s) :
    (∀ ks t, .fetchAdd ∉ ks → StepSystem.run step s ks = some t → Sound t) ↔
      opens ls ≤ 2 ^ 31 - 1 := by
  have hcount : s.connected = opens ls := by
    rw [run_connected h]
    exact Nat.zero_add _
  constructor
  · intro hall
    by_contra hmany
    obtain ⟨ks, t, hks, hrun, hunsound⟩ := exists_unsound (run_numbered h) (by omega)
    exact hunsound (hall ks t hks hrun)
  · intro hfew ks t hks hrun
    have hall : run (ls ++ ks) = some t := StepSystem.run_append.mpr ⟨s, h, hrun⟩
    have hnone : opens ks = 0 := List.count_eq_zero.mpr hks
    have hconnected : t.connected ≤ 2 ^ 31 - 1 := by
      rw [run_connected hrun]
      omega
    obtain ⟨hnum, htabled⟩ := run_tabled init_numbered init_tabled hall hconnected
    exact sound_of_tabled hnum htabled hconnected

/-- Two channels are opened, and the first is closed. -/
theorem handles_sound_two :
    ∃ s, run [.fetchAdd, .fetchAdd, .insert 1, .insert 0, .canClose 1] = some s ∧
      s.returned = [(2, 1), (1, 0)] ∧ s.closed = [1] ∧ Sound s := by
  have hrun : ∃ s, run [.fetchAdd, .fetchAdd, .insert 1, .insert 0, .canClose 1] = some s ∧
      s.returned = [(2, 1), (1, 0)] ∧ s.closed = [1] := ⟨_, rfl, rfl, rfl⟩
  obtain ⟨s, hs, hreturned, hclosed⟩ := hrun
  have hsound := (handles_sound_iff hs).mpr (by decide)
  exact ⟨s, hs, hreturned, hclosed, hsound [] s List.not_mem_nil rfl⟩

/-- The opens of `n` channels, one after the other. -/
def openAll : ℕ → List Label
  | 0 => []
  | n + 1 => .fetchAdd :: .insert 0 :: openAll n

theorem openAll_run (n : ℕ) {s : Table} (hs : s.inserting = []) :
    ∃ t, StepSystem.run step s (openAll n) = some t ∧ t.connected = s.connected + n := by
  induction n generalizing s with
  | zero => exact ⟨s, rfl, rfl⟩
  | succ n ih =>
    obtain ⟨t, hrun, hconnected⟩ := ih
      (s := insertConn { s with
        nextHandle := s.nextHandle + 1
        connected := s.connected + 1
        inserting := [(s.nextHandle, s.connected)] } 0 (s.nextHandle, s.connected)) rfl
    refine ⟨t, StepSystem.run_cons.mpr ⟨_, rfl, StepSystem.run_cons.mpr ⟨_, ?_, hrun⟩⟩, ?_⟩
    · rw [hs]
      rfl
    · rw [hconnected]
      show s.connected + 1 + n = s.connected + (n + 1)
      omega

/-- The open number `2 ^ 31` returns a negative handle. -/
theorem handles_unsound : ¬ ∀ ls s, run ls = some s → Sound s := by
  intro h
  obtain ⟨s, hrun, hconnected⟩ := openAll_run (2 ^ 31) (s := Table.init) rfl
  have hmany : 2 ^ 31 ≤ s.connected := by
    rw [hconnected]
    exact Nat.le_add_left _ _
  obtain ⟨ks, t, -, hks, hunsound⟩ := exists_unsound (run_numbered hrun) hmany
  exact hunsound (h _ t (StepSystem.run_append.mpr ⟨s, hrun, hks⟩))

end Kvasilloni.HandleTable
