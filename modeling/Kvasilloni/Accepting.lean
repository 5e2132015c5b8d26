import Kvasilloni.UdpLoop
import Kvasilloni.Library.Progress

/-!
The wait of a TCP server for its client. Clients line up at the listener while the loop polls
it, refuses those that are not allowed and sleeps when nobody is there; past the deadline the
next check ends the wait. The client that is let in is the first allowed one in the line, and
the loop takes a bounded number of turns.
-/
namespace Kvasilloni.Accepting

open Reception UdpLoop

/-- The time in nanoseconds. -/
def fromMillis (ms : ℕ) : ℕ := ms * 1000000

/-- What the loop sleeps for when no client is there. -/
def nap : ℕ := fromMillis 50

structure IoError where
  kind : ErrorKind
  text : String
  deriving DecidableEq

/-- Where `accept_with_timeout` stands. -/
inductive AcceptPc
  | polling
  | refusing
  | blocked
  | sleeping (wake : ℕ)
  | settling
  | admitted
  | timedOut (text : String)
  | failed (e : IoError)
  deriving DecidableEq

/-- The listener with the line of clients, those that have arrived so far, those that were shut
down, and the allowed one whose connection was taken. -/
structure Listener where
  elapsed : ℕ
  line : List IpAddr
  arrived : List IpAddr
  refused : List IpAddr
  taken : Option IpAddr
  pc : AcceptPc

def Listener.start : Listener := ⟨0, [], [], [], none, .polling⟩

inductive Label
  | arrive (client : IpAddr)
  | pass (time : ℕ)
  | accept
  | acceptFails (e : IoError)
  | check
  | wake
  | settle (result : Except IoError Unit)
  deriving DecidableEq

section Loop

variable (total : ℕ) (allow : List IpAddr) (peerCheck : Bool)

/-- `accept` on the non-blocking listener. -/
def accept (s : Listener) : Listener :=
  match s.line with
  | [] => { s with pc := .blocked }
  | a :: line =>
    if peerAllowed a allow peerCheck then { s with line := line, taken := some a, pc := .settling }
    else { s with line := line, refused := s.refused ++ [a], pc := .refusing }

def step (s : Listener) : Label → Option Listener
  | .arrive a => some { s with line := s.line ++ [a], arrived := s.arrived ++ [a] }
  | .pass time => some { s with elapsed := s.elapsed + time }
  | .accept => if s.pc = .polling then some (accept allow peerCheck s) else none
  | .acceptFails e =>
    if s.pc = .polling ∧ e.kind ≠ .wouldBlock then some { s with pc := .failed e } else none
  | .check =>
    match s.pc with
    | .refusing =>
      if s.elapsed > total then some { s with pc := .timedOut "no allowed client" }
      else some { s with pc := .polling }
    | .blocked =>
      if s.elapsed > total then some { s with pc := .timedOut "no client" }
      else some { s with pc := .sleeping (s.elapsed + nap) }
    | _ => none
  | .wake =>
    match s.pc with
    | .sleeping wake => if wake ≤ s.elapsed then some { s with pc := .polling } else none
    | _ => none
  | .settle result =>
    if s.pc = .settling then
      match result with
      | .ok _ => some { s with pc := .admitted }
      | .error e => some { s with pc := .failed e }
    else none

def run (ls : List Label) : Option Listener :=
  StepSystem.run (step total allow peerCheck) Listener.start ls

/-- What each step can do. -/
inductive Move (s : Listener) : Label → Listener → Prop
  | arrive (a : IpAddr) :
      Move s (.arrive a) { s with line := s.line ++ [a], arrived := s.arrived ++ [a] }
  | pass (time : ℕ) : Move s (.pass time) { s with elapsed := s.elapsed + time }
  | nobody (hpc : s.pc = .polling) (hline : s.line = []) : Move s .accept { s with pc := .blocked }
  | take (a : IpAddr) (line : List IpAddr) (hpc : s.pc = .polling) (hline : s.line = a :: line)
      (hallowed : peerAllowed a allow peerCheck = true) :
      Move s .accept { s with line := line, taken := some a, pc := .settling }
  | refuse (a : IpAddr) (line : List IpAddr) (hpc : s.pc = .polling) (hline : s.line = a :: line)
      (hallowed : peerAllowed a allow peerCheck = false) :
      Move s .accept { s with line := line, refused := s.refused ++ [a], pc := .refusing }
  | acceptFails (e : IoError) (hpc : s.pc = .polling) (hkind : e.kind ≠ .wouldBlock) :
      Move s (.acceptFails e) { s with pc := .failed e }
  | lateRefusing (hpc : s.pc = .refusing) (hlate : total < s.elapsed) :
      Move s .check { s with pc := .timedOut "no allowed client" }
  | lateBlocked (hpc : s.pc = .blocked) (hlate : total < s.elapsed) :
      Move s .check { s with pc := .timedOut "no client" }
  | again (hpc : s.pc = .refusing) (hearly : s.elapsed ≤ total) :
      Move s .check { s with pc := .polling }
  | sleep (hpc : s.pc = .blocked) (hearly : s.elapsed ≤ total) :
      Move s .check { s with pc := .sleeping (s.elapsed + nap) }
  | wake (wake : ℕ) (hpc : s.pc = .sleeping wake) (hover : wake ≤ s.elapsed) :
      Move s .wake { s with pc := .polling }
  | accepted (hpc : s.pc = .settling) : Move s (.settle (.ok ())) { s with pc := .admitted }
  | settleFails (e : IoError) (hpc : s.pc = .settling) :
      Move s (.settle (.error e)) { s with pc := .failed e }

theorem accept_move {s : Listener} (hpc : s.pc = .polling) :
    Move total allow peerCheck s .accept (accept allow peerCheck s) := by
  unfold accept
  split
  · rename_i hline
    exact .nobody hpc hline
  · rename_i a line hline
    split
    · rename_i hallowed
      exact .take a line hpc hline hallowed
    · rename_i hallowed
      exact .refuse a line hpc hline (Bool.not_eq_true _ ▸ hallowed)

theorem check_move {s s' : Listener} (h : step total allow peerCheck s .check = some s') :
    Move total allow peerCheck s .check s' := by
  simp only [step] at h
  split at h
  · rename_i hpc
    split at h <;> obtain rfl := Option.some.inj h
    · rename_i hlate
      exact .lateRefusing hpc hlate
    · rename_i hearly
      exact .again hpc (Nat.not_lt.mp hearly)
  · rename_i hpc
    split at h <;> obtain rfl := Option.some.inj h
    · rename_i hlate
      exact .lateBlocked hpc hlate
    · rename_i hearly
      exact .sleep hpc (Nat.not_lt.mp hearly)
  · cases h

theorem step_move {s s' : Listener} {l : Label} (h : step total allow peerCheck s l = some s') :
    Move total allow peerCheck s l s' := by
  cases l with
  | arrive a =>
    obtain rfl := Option.some.inj h
    exact .arrive a
  | pass time =>
    obtain rfl := Option.some.inj h
    exact .pass time
  | accept =>
    simp only [step] at h
    split at h
    · rename_i hpc
      obtain rfl := Option.some.inj h
      exact accept_move total allow peerCheck hpc
    · cases h
  | acceptFails e =>
    simp only [step] at h
    split at h
    · rename_i hpc
      obtain rfl := Option.some.inj h
      exact .acceptFails e hpc.1 hpc.2
    · cases h
  | check => exact check_move total allow peerCheck h
  | wake =>
    simp only [step] at h
    split at h
    · rename_i wake hpc
      split at h
      · rename_i hover
        obtain rfl := Option.some.inj h
        exact .wake wake hpc hover
      · cases h
    · cases h
  | settle result =>
    simp only [step] at h
    split at h
    · rename_i hpc
      cases result with
      | ok u =>
        obtain rfl := Option.some.inj h
        exact .accepted hpc
      | error e =>
        obtain rfl := Option.some.inj h
        exact .settleFails e hpc
    · cases h

/-- The loop has returned. -/
def AcceptPc.Done : AcceptPc → Bool
  | .admitted | .timedOut _ | .failed _ => true
  | _ => false

/-! ### The line -/

/-- Those that have arrived were refused, in their order, or one was taken, or they wait. -/
structure Orderly (s : Listener) : Prop where
  arrived : s.arrived = s.refused ++ (s.taken.toList ++ s.line)
  refused : ∀ a ∈ s.refused, peerAllowed a allow peerCheck = false
  taken : ∀ a ∈ s.taken, peerAllowed a allow peerCheck = true
  admitted : s.pc = .settling ∨ s.pc = .admitted → s.taken.isSome = true
  waiting : s.pc.Done = false → s.pc ≠ .settling → s.taken = none
  late : ∀ text, s.pc = .timedOut text → total < s.elapsed ∧ s.taken = none

theorem start_orderly : Orderly total allow peerCheck Listener.start where
  arrived := rfl
  refused _ h := absurd h List.not_mem_nil
  taken _ h := by cases h
  admitted h := by simp [Listener.start] at h
  waiting _ _ := rfl
  late _ h := by cases h

/-- The loop goes on, or ends, with nobody taken. -/
theorem Orderly.move {s : Listener} (hs : Orderly total allow peerCheck s) (hnone : s.taken = none)
    {pc : AcceptPc} (hpc : pc ≠ .settling ∧ pc ≠ .admitted)
    (hlate : ∀ text, pc = .timedOut text → total < s.elapsed) :
    Orderly total allow peerCheck { s with pc := pc } := by
  refine ⟨hs.arrived, hs.refused, hs.taken, fun h => ?_, fun _ _ => hnone,
    fun text h => ⟨hlate text h, hnone⟩⟩
  rcases h with h | h
  · exact absurd h hpc.1
  · exact absurd h hpc.2

theorem step_orderly {s s' : Listener} {l : Label} (hs : Orderly total allow peerCheck s)
    (h : step total allow peerCheck s l = some s') : Orderly total allow peerCheck s' := by
  have harrived := hs.arrived
  have hnone : ∀ {pc}, s.pc = pc → pc.Done = false → pc ≠ .settling → s.taken = none :=
    fun hpc hgo hne => hs.waiting (hpc ▸ hgo) (hpc ▸ hne)
  cases step_move total allow peerCheck h with
  | arrive a =>
    refine ⟨?_, hs.refused, hs.taken, hs.admitted, hs.waiting, hs.late⟩
    dsimp only
    rw [harrived]
    simp only [List.append_assoc]
  | pass time =>
    refine ⟨harrived, hs.refused, hs.taken, hs.admitted, hs.waiting, fun text htext => ?_⟩
    obtain ⟨hlate, hgone⟩ := hs.late text htext
    exact ⟨Nat.lt_add_right time hlate, hgone⟩
  | nobody hpc | wake wake hpc | again hpc | sleep hpc | acceptFails e hpc =>
    exact hs.move total allow peerCheck (hnone hpc rfl (by simp)) (by simp) (by simp)
  | lateRefusing hpc hlate | lateBlocked hpc hlate =>
    exact hs.move total allow peerCheck (hnone hpc rfl (by simp)) (by simp) fun _ _ => hlate
  | take a line hpc hline hallowed =>
    rw [hline, hnone hpc rfl (by simp)] at harrived
    refine ⟨harrived, hs.refused, fun b hb => ?_, fun _ => rfl, fun _ h => absurd rfl h,
      fun text h => by cases h⟩
    obtain rfl := Option.some.inj hb
    exact hallowed
  | refuse a line hpc hline hallowed =>
    have hgone := hnone hpc rfl (by simp)
    rw [hline, hgone] at harrived
    refine ⟨?_, fun b hb => ?_, hs.taken, fun h => by simp at h, fun _ _ => hgone,
      fun text h => by cases h⟩
    · dsimp only
      rw [harrived, hgone, List.append_assoc]
      rfl
    · rcases List.mem_append.mp hb with hb | hb
      · exact hs.refused b hb
      · obtain rfl := List.mem_singleton.mp hb
        exact hallowed
  | accepted hpc | settleFails e hpc =>
    have hsome := hs.admitted (Or.inl hpc)
    exact ⟨harrived, hs.refused, hs.taken, fun _ => hsome, fun h => (by cases h),
      fun text h => (by cases h)⟩

/-- However clients arrive and time passes, the client that is let in is the first allowed one
of those that have arrived: all in front of it were refused, and none that is allowed was. And
when the wait ends because of the deadline, it has passed, and nobody was taken. -/
theorem first_allowed (ls : List Label) (s : Listener)
    (hrun : run total allow peerCheck ls = some s) :
    (∀ a ∈ s.refused, peerAllowed a allow peerCheck = false) ∧
    (s.pc = .admitted → ∃ a later, s.arrived = s.refused ++ a :: later ∧
      peerAllowed a allow peerCheck = true ∧ s.taken = some a) ∧
    (∀ text, s.pc = .timedOut text → total < s.elapsed ∧ s.arrived = s.refused ++ s.line) := by
  have horderly : Orderly total allow peerCheck s :=
    StepSystem.run_invariant (fun _ _ _ => step_orderly total allow peerCheck)
      (start_orderly total allow peerCheck) hrun
  have harrived := horderly.arrived
  refine ⟨horderly.refused, fun hpc => ?_, fun text hpc => ?_⟩
  · obtain ⟨a, ha⟩ := Option.isSome_iff_exists.mp (horderly.admitted (Or.inr hpc))
    rw [ha] at harrived
    exact ⟨a, s.line, harrived, horderly.taken a ha, ha⟩
  · obtain ⟨hlate, hnone⟩ := horderly.late text hpc
    rw [hnone] at harrived
    exact ⟨hlate, harrived⟩

end Loop

/-! ### The turns -/

/-- A turn of the loop, and not of the clients or the clock. -/
def isTurn : Listener → Label → Bool
  | _, .arrive _ | _, .pass _ => false
  | _, _ => true

/-- A turn for which the loop waits for nothing but the clock: it polls, looks at the deadline,
wakes up, and goes on with a client that it has taken. -/
def isPlain : Label → Bool
  | .accept | .check | .wake | .settle (.ok _) => true
  | _ => false

/-- What is left of the sleep of the loop. -/
def Listener.sleepLeft (s : Listener) : ℕ :=
  match s.pc with
  | .sleeping wake => wake - s.elapsed
  | _ => 0

/-- A client that arrives takes at most two turns of the loop. -/
def allowance : Label → ℕ
  | .arrive _ => 2
  | _ => 0

def arrivals (ls : List Label) : ℕ := ls.countP fun
  | .arrive _ => true
  | _ => false

theorem sum_allowance (ls : List Label) : (ls.map allowance).sum = 2 * arrivals ls := by
  induction ls with
  | nil => rfl
  | cons l ls ih =>
    rw [List.map_cons, List.sum_cons, ih]
    cases l with
    | arrive a =>
      simp only [allowance, arrivals, List.countP_cons, if_true]
      omega
    | _ => simp [allowance, arrivals]

/-- The turns until the next nap has begun. -/
def AcceptPc.turns : AcceptPc → ℕ
  | .refusing | .sleeping _ => 3
  | .polling => 2
  | .blocked | .settling => 1
  | .admitted | .timedOut _ | .failed _ => 0

/-- When the loop is next awake. -/
def Listener.awake (s : Listener) : ℕ :=
  match s.pc with
  | .sleeping wake => max s.elapsed wake
  | _ => s.elapsed

/-- What is still to do: naps of three turns each, the turns up to the next one, and two turns
for each client in the line. -/
def turnsLeft (total : ℕ) (s : Listener) : ℕ :=
  3 * ((total + nap - s.awake) / nap) + s.pc.turns + 2 * s.line.length

theorem naps_anti (total : ℕ) {a b : ℕ} (h : a ≤ b) :
    (total + nap - b) / nap ≤ (total + nap - a) / nap :=
  Nat.div_le_div_right (by omega)

/-- A nap that begins before the deadline uses one of those that are left up. -/
theorem naps_nap {total a : ℕ} (h : a ≤ total) :
    (total + nap - (a + nap)) / nap + 1 = (total + nap - a) / nap := by
  have hpos : 0 < nap := by decide
  have hmore : total + nap - a = (total + nap - (a + nap)) + nap := by omega
  rw [hmore, Nat.add_div_right _ hpos]

theorem awake_le_pass (s : Listener) (time : ℕ) :
    s.awake ≤ Listener.awake { s with elapsed := s.elapsed + time } := by
  unfold Listener.awake
  dsimp only
  split
  · omega
  · omega

theorem turnsLeft_awake (total : ℕ) {s : Listener} (h : ∀ wake, s.pc ≠ .sleeping wake) :
    turnsLeft total s =
      3 * ((total + nap - s.elapsed) / nap) + s.pc.turns + 2 * s.line.length := by
  have hawake : s.awake = s.elapsed := by
    unfold Listener.awake
    split
    · rename_i wake hpc
      exact absurd hpc (h wake)
    · rfl
  rw [turnsLeft, hawake]

section Turns

variable (total : ℕ) (allow : List IpAddr) (peerCheck : Bool)

/-- Each turn is taken off what is left to do; a nap takes its turns off the time. -/
theorem step_turnsLeft {s s' : Listener} {l : Label}
    (h : step total allow peerCheck s l = some s') :
    (isTurn s l).toNat + turnsLeft total s' ≤ turnsLeft total s + allowance l := by
  cases step_move total allow peerCheck h with
  | arrive a =>
    have hsame : Listener.awake { s with line := s.line ++ [a], arrived := s.arrived ++ [a] } =
        s.awake := rfl
    simp only [turnsLeft, hsame, isTurn, allowance, List.length_append, List.length_singleton,
      Bool.toNat_false]
    omega
  | pass time =>
    have hnaps := naps_anti total (awake_le_pass s time)
    simp only [turnsLeft, isTurn, allowance, Bool.toNat_false]
    omega
  | nobody hpc hline | take a line hpc hline | refuse a line hpc hline =>
    rw [turnsLeft_awake total (s := s) (by simp [hpc]), turnsLeft_awake total (by simp), hpc]
    simp only [hline, isTurn, allowance, AcceptPc.turns, List.length_nil, List.length_cons,
      Bool.toNat_true]
    omega
  | acceptFails e hpc | lateRefusing hpc | lateBlocked hpc | again hpc | accepted hpc
  | settleFails e hpc =>
    rw [turnsLeft_awake total (s := s) (by simp [hpc]), turnsLeft_awake total (by simp), hpc]
    simp only [isTurn, allowance, AcceptPc.turns, Bool.toNat_true]
    omega
  | sleep hpc hearly =>
    have hnap := naps_nap hearly
    have hmax : max s.elapsed (s.elapsed + nap) = s.elapsed + nap := by omega
    rw [turnsLeft_awake total (s := s) (by simp [hpc]), hpc]
    simp only [turnsLeft, Listener.awake, isTurn, allowance, AcceptPc.turns, hmax,
      Bool.toNat_true]
    omega
  | wake wake hpc hover =>
    have hmax : max s.elapsed wake = s.elapsed := by omega
    rw [turnsLeft_awake total (by simp)]
    simp only [turnsLeft, Listener.awake, hpc, hmax, isTurn, allowance, AcceptPc.turns,
      Bool.toNat_true]
    omega

theorem countTurns_le {s t : Listener} {ls : List Label}
    (hrun : StepSystem.run (step total allow peerCheck) s ls = some t) :
    StepSystem.countSteps (step total allow peerCheck) isTurn s ls ≤
      turnsLeft total s + 2 * arrivals ls := by
  have hstep : ∀ s l s', step total allow peerCheck s l = some s' →
      (isTurn s l).toNat + turnsLeft total s' ≤ turnsLeft total s + allowance l :=
    fun _ _ _ => step_turnsLeft total allow peerCheck
  have hcount := StepSystem.countSteps_le_allowance (turnsLeft total) hstep hrun
  rw [sum_allowance] at hcount
  omega

theorem turnsLeft_start (ms : ℕ) :
    turnsLeft (fromMillis ms) Listener.start = 3 * (ms / 50 + 1) + 2 := by
  have hnaps : (fromMillis ms + nap) / nap = ms / 50 + 1 := by
    rw [Nat.add_div_right _ (by decide)]
    simp only [nap, fromMillis]
    omega
  rw [turnsLeft_awake _ (by simp [Listener.start])]
  simp only [Listener.start, Nat.sub_zero, hnaps, AcceptPc.turns, List.length_nil, Nat.mul_zero,
    Nat.add_zero]

/-- Past the deadline there is no time for a nap. -/
theorem turnsLeft_late {s : Listener} (hlate : total < s.elapsed) :
    turnsLeft total s ≤ 3 + 2 * s.line.length := by
  have hawake : s.elapsed ≤ s.awake := by
    unfold Listener.awake
    split
    · omega
    · omega
  have hnone : (total + nap - s.awake) / nap = 0 := Nat.div_eq_of_lt (by
    have hpos : 0 < nap := by decide
    omega)
  have hturns : s.pc.turns ≤ 3 := by
    cases s.pc <;> simp [AcceptPc.turns]
  rw [turnsLeft, hnone]
  omega

/-- The loop is never stuck: it takes a turn now, or once it has slept. -/
theorem exists_turn {s : Listener} (hgo : s.pc.Done = false) :
    ∃ l, isPlain l = true ∧ ∀ time, s.sleepLeft ≤ time →
      ∃ t, StepSystem.run (step total allow peerCheck) s [.pass time, l] = some t := by
  have hturn : ∀ l, isPlain l = true →
      (∀ time, s.sleepLeft ≤ time →
        (step total allow peerCheck { s with elapsed := s.elapsed + time } l).isSome = true) →
      ∃ l, isPlain l = true ∧ ∀ time, s.sleepLeft ≤ time →
        ∃ t, StepSystem.run (step total allow peerCheck) s [.pass time, l] = some t := by
    intro l hl hsome
    refine ⟨l, hl, fun time htime => ?_⟩
    obtain ⟨t, ht⟩ := Option.isSome_iff_exists.mp (hsome time htime)
    exact ⟨t, StepSystem.run_cons.mpr ⟨_, rfl, StepSystem.run_cons.mpr ⟨t, ht, rfl⟩⟩⟩
  cases hpc : s.pc with
  | polling => exact hturn .accept rfl fun time _ => by simp [step, hpc]
  | refusing =>
    refine hturn .check rfl fun time _ => ?_
    simp only [step, hpc]
    split <;> rfl
  | blocked =>
    refine hturn .check rfl fun time _ => ?_
    simp only [step, hpc]
    split <;> rfl
  | sleeping wake =>
    refine hturn .wake rfl fun time htime => ?_
    have hover : wake ≤ s.elapsed + time := by
      simp only [Listener.sleepLeft, hpc] at htime
      omega
    simp [step, hpc, hover]
  | settling => exact hturn (.settle (.ok ())) rfl fun time _ => by simp [step, hpc]
  | admitted | timedOut text | failed e => simp [AcceptPc.Done, hpc] at hgo

/-- Only a check puts the loop to sleep, and for one nap; time only makes it shorter. -/
theorem step_sleepLeft {s s' : Listener} {l : Label} (hs : s.sleepLeft ≤ nap)
    (h : step total allow peerCheck s l = some s') : s'.sleepLeft ≤ nap := by
  cases step_move total allow peerCheck h with
  | arrive a => exact hs
  | pass time =>
    unfold Listener.sleepLeft at hs ⊢
    dsimp only
    split
    · rename_i wake hpc
      simp only [hpc] at hs
      omega
    · exact Nat.zero_le _
  | sleep hpc => exact (Nat.add_sub_cancel_left s.elapsed nap).le
  | nobody | take | refuse | acceptFails | lateRefusing | lateBlocked | again | wake | accepted
  | settleFails =>
    exact Nat.zero_le _

end Turns

/-- However clients arrive and time passes, the wait for a client takes at most three turns of
the loop for every 50 ms of the timeout and two for each client that arrives; from a state in
which the deadline has passed, at most three more and two for each client that is or comes to
be in the line. And until it has returned, the loop has a turn to take as soon as it has slept,
which is never more than 50 ms away: no other thread and no error is needed for it. -/
theorem turns_bounded (ms : ℕ) (allow : List IpAddr) (peerCheck : Bool) (ls ks : List Label)
    (s t : Listener) (hrun : run (fromMillis ms) allow peerCheck ls = some s)
    (hmore : StepSystem.run (step (fromMillis ms) allow peerCheck) s ks = some t) :
    StepSystem.countSteps (step (fromMillis ms) allow peerCheck) isTurn Listener.start ls ≤
        3 * (ms / 50 + 1) + 2 + 2 * arrivals ls ∧
      (fromMillis ms < s.elapsed →
        StepSystem.countSteps (step (fromMillis ms) allow peerCheck) isTurn s ks ≤
          3 + 2 * (s.line.length + arrivals ks)) ∧
      s.sleepLeft ≤ nap ∧
      (s.pc.Done = false → ∃ l, isPlain l = true ∧ ∀ time, s.sleepLeft ≤ time →
        ∃ u, StepSystem.run (step (fromMillis ms) allow peerCheck) s [.pass time, l] =
          some u) := by
  refine ⟨?_, fun hlate => ?_, ?_, exists_turn (fromMillis ms) allow peerCheck⟩
  · have hcount := countTurns_le (fromMillis ms) allow peerCheck hrun
    rwa [turnsLeft_start] at hcount
  · have hcount := countTurns_le (fromMillis ms) allow peerCheck hmore
    have hlast := turnsLeft_late (fromMillis ms) hlate
    omega
  · exact StepSystem.run_invariant
      (fun _ _ _ => step_sleepLeft (fromMillis ms) allow peerCheck) (Nat.zero_le _) hrun

/-- A stranger is refused, nobody comes for 50 ms, and then two allowed clients arrive. -/
def strangerFirst : List Label :=
  [.arrive (.v4 9), .accept, .check, .accept, .check, .pass nap, .wake, .arrive (.v4 1),
    .arrive (.v4 1), .accept, .settle (.ok ())]

theorem first_allowed_strangerFirst :
    ∃ (s : Listener) (a : IpAddr) (later : List IpAddr),
      s.arrived = [.v4 9] ++ a :: later ∧ peerAllowed a [.v4 1] true = true := by
  have hrun : (run (fromMillis 30000) [.v4 1] true strangerFirst).map
      (fun s => (s.pc, s.refused)) = some (.admitted, [.v4 9]) := by decide
  obtain ⟨s, hrun, hends⟩ := Option.map_eq_some_iff.mp hrun
  obtain ⟨hpc, hrefused⟩ := Prod.mk.inj hends
  obtain ⟨a, later, harrived, hallowed, -⟩ :=
    (first_allowed (fromMillis 30000) [.v4 1] true strangerFirst s hrun).2.1 hpc
  rw [hrefused] at harrived
  exact ⟨s, a, later, harrived, hallowed⟩

theorem turns_bounded_strangerFirst :
    StepSystem.countSteps (step (fromMillis 30000) [.v4 1] true) isTurn Listener.start
      strangerFirst ≤ 3 * (30000 / 50 + 1) + 2 + 2 * arrivals strangerFirst := by
  have hrun : (run (fromMillis 30000) [.v4 1] true strangerFirst).isSome = true := by decide
  obtain ⟨s, hrun⟩ := Option.isSome_iff_exists.mp hrun
  exact (turns_bounded 30000 [.v4 1] true strangerFirst [] s s hrun rfl).1

end Kvasilloni.Accepting
