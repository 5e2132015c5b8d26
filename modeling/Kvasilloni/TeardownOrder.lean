import Kvasilloni.TcpLink

/-!
Who tears a TCP link down. The RX loop, a failing writer and a closer race to clear
`running`; the first of them is the head of the record, and only a loop that comes first
goes through the stores behind its swap. The invariants here hold in every state of every
run; what they say about the latches is drawn from them elsewhere.
-/
namespace Kvasilloni.TeardownOrder

open Frames SharedRing TcpLink
open WaitingReaders hiding step run Label
open Streams (RxStream)

variable {W C : Type}

/-- How far the RX thread has come: in the loop, before the swap, between the stores
behind it, or at its end. -/
def stage : RxPc → ℕ
  | .swapping => 1
  | .clearing => 2
  | .latching => 3
  | .closing => 4
  | .waking => 5
  | .returned => 6
  | _ => 0

/-- The loop was the first to clear `running`. -/
def Won (s : Link W C) : Prop := s.clearedBy.head? = some .loop

/-- A step of the RX thread in the loop, or out of it up to the swap. -/
structure Working (s s' : Link W C) : Prop where
  start : stage s.rx = 0
  finish : stage s'.rx ≤ 1
  isOpen : s'.isOpen = s.isOpen
  running : s'.running = s.running
  negotiated : s'.negotiated = s.negotiated
  clearedBy : s'.clearedBy = s.clearedBy
  linkLost : s'.ring.shared.linkLost = s.ring.shared.linkLost
  writers : s'.writers = s.writers
  closers : s'.closers = s.closers
  ending : s'.ending = s.ending ∧ (stage s'.rx = 0) ∨
    ∃ e, s'.ending = some e ∧ (e = .stopped → s.running = false)

theorem offer_linkLost (r : Ring) (f : Frame) :
    (r.offer f).1.shared.linkLost = r.shared.linkLost := by
  obtain ⟨⟨q, overflow, hshared⟩, -, -⟩ := offer_keeps r f
  rw [hshared]

theorem working_leave {s : Link W C} (hrx : stage s.rx = 0) (e : Ending)
    (hstop : e = .stopped → s.running = false) : Working s (leave s e) :=
  ⟨hrx, le_rfl, rfl, rfl, rfl, rfl, rfl, rfl, rfl, Or.inr ⟨e, rfl, hstop⟩⟩

theorem working_resume {s t : Link W C} (next : Option RxStream) (hrx : stage s.rx = 0)
    (hkeep : t = { s with ring := t.ring, offered := t.offered, rx := t.rx })
    (hlost : t.ring.shared.linkLost = s.ring.shared.linkLost) :
    Working s (resume t next) := by
  rw [hkeep]
  rcases resume_cases { s with ring := t.ring, offered := t.offered, rx := t.rx } next with
    ⟨rx, -, heq⟩ | ⟨-, heq⟩
  · rw [heq]
    exact ⟨hrx, Nat.zero_le _, rfl, rfl, rfl, rfl, hlost, rfl, rfl, Or.inl ⟨rfl, rfl⟩⟩
  · rw [heq]
    exact ⟨hrx, le_rfl, rfl, rfl, rfl, rfl, hlost, rfl, rfl,
      Or.inr ⟨.broken, rfl, fun h => by cases h⟩⟩

/-- A move of the RX thread is a step of the loop, the swap, or one of the stores behind
it. -/
theorem rxMove_cases {s s' : Link W C} (hmove : RxMove s s') :
    Working s s' ∨
    (s.rx = .swapping ∧ s.running = true ∧
      s' = { s with running := false, rx := .clearing, clearedBy := s.clearedBy ++ [.loop] }) ∨
    (s.rx = .swapping ∧ s.running = false ∧ s' = { s with rx := .returned }) ∨
    (s.rx = .clearing ∧ s' = { s with negotiated := false, rx := .latching }) ∨
    (s.rx = .latching ∧ s' = { s with
      ring := { s.ring with shared := s.ring.shared.markLinkLost }
      rx := .closing }) ∨
    (s.rx = .closing ∧ s' = { s with ring := s.ring.markClosed, rx := .waking }) ∨
    (s.rx = .waking ∧ s' = { s with ring := s.ring.notifyAll, rx := .returned }) := by
  have hloop : ∀ {pc}, s.rx = pc → stage pc = 0 → stage s.rx = 0 := fun h h0 => by rw [h, h0]
  cases hmove with
  | stopped hrx hstop => exact Or.inl (working_leave (hloop hrx rfl) _ fun _ => hstop)
  | broken hrx | undecodable hrx | readError hrx =>
    exact Or.inl (working_leave (hloop hrx rfl) _ fun h => by cases h)
  | listen hrx | next hrx | decode hrx | accept f next hrx =>
    exact Or.inl ⟨hloop hrx rfl, Nat.zero_le _, rfl, rfl, rfl, rfl, rfl, rfl, rfl,
      Or.inl ⟨rfl, rfl⟩⟩
  | reject f next hrx => exact Or.inl (working_resume next (hloop hrx rfl) rfl rfl)
  | enqueue f now next hrx =>
    exact Or.inl ⟨hloop hrx rfl, Nat.zero_le _, rfl, rfl, rfl, rfl, offer_linkLost _ _, rfl,
      rfl, Or.inl ⟨rfl, rfl⟩⟩
  | overrun f now next hrx =>
    exact Or.inl (working_resume next (hloop hrx rfl) rfl (offer_linkLost _ _))
  | notify next hrx target ring hnotify =>
    exact Or.inl ⟨hloop hrx rfl, Nat.zero_le _, rfl, rfl, rfl, rfl,
      (notifyOne_reads hnotify).linkLost, rfl, rfl, Or.inl ⟨rfl, rfl⟩⟩
  | called next hrx => exact Or.inl (working_resume next (hloop hrx rfl) rfl rfl)
  | swap hrx hrunning => exact Or.inr (Or.inl ⟨hrx, hrunning, rfl⟩)
  | late hrx hstop => exact Or.inr (Or.inr (Or.inl ⟨hrx, hstop, rfl⟩))
  | clear hrx => exact Or.inr (Or.inr (Or.inr (Or.inl ⟨hrx, rfl⟩)))
  | latch hrx => exact Or.inr (Or.inr (Or.inr (Or.inr (Or.inl ⟨hrx, rfl⟩))))
  | close hrx => exact Or.inr (Or.inr (Or.inr (Or.inr (Or.inr (Or.inl ⟨hrx, rfl⟩)))))
  | wake hrx => exact Or.inr (Or.inr (Or.inr (Or.inr (Or.inr (Or.inr ⟨hrx, rfl⟩)))))

/-! ### The other parties -/

/-- What a reader, a writer or a closer does to the link. -/
structure Others (s s' : Link W C) : Prop where
  rx : s'.rx = s.rx
  ending : s'.ending = s.ending
  decoder : s'.decoder = s.decoder
  decoded : s'.decoded = s.decoded
  offered : s'.offered = s.offered
  entered : s'.ring.entered = s.ring.entered
  linkLost : s'.ring.shared.linkLost = s.ring.shared.linkLost
  negotiated : s.negotiated = false → s'.negotiated = false
  closed : s.ring.shared.closed = true → s'.ring.shared.closed = true
  shut : s.ring.Shut → s'.ring.Shut
  clearedBy : s'.clearedBy = s.clearedBy ∧ s'.running = s.running ∨
    ∃ p, p ≠ .loop ∧ s'.clearedBy = s.clearedBy ++ [p] ∧ s'.running = false

theorem access_move {r r' : Ring} {a : Access} (h : access r a = some r') :
    Ring.Move r r' ∨ a = .empty ∧ r' = r.empty := by
  cases a with
  | pop =>
    obtain rfl := Option.some.inj h
    exact Or.inl .pop
  | enter w expired =>
    obtain rfl := Option.some.inj h
    exact Or.inl (.enter w expired)
  | expire i => exact Or.inl (.expire i r' h)
  | wake i => exact Or.inl (.wake i r' h)
  | recheck i => exact Or.inl (.recheck i r' h)
  | empty =>
    obtain rfl := Option.some.inj h
    exact Or.inr ⟨rfl, rfl⟩
  | resetOverflow =>
    obtain rfl := Option.some.inj h
    exact Or.inl .resetOverflow
  | setAccept flag envelope =>
    obtain rfl := Option.some.inj h
    exact Or.inl (.setAccept flag envelope)

/-- Nothing that the app calls queues a frame or latches the lost link. -/
theorem access_keeps {r r' : Ring} {a : Access} (h : access r a = some r') :
    r'.shared.linkLost = r.shared.linkLost ∧ r'.entered = r.entered := by
  have hreads : Ring.Reads r r' → r'.shared.linkLost = r.shared.linkLost ∧
      r'.entered = r.entered := fun hreads => ⟨hreads.linkLost, hreads.entered⟩
  cases a with
  | pop =>
    obtain rfl := Option.some.inj h
    exact hreads (take_reads r _)
  | enter w expired =>
    obtain rfl := Option.some.inj h
    exact hreads (enter_reads r w expired)
  | expire i => exact hreads (expire_reads h)
  | wake i => exact hreads (wake_reads h)
  | recheck i => exact hreads (recheck_reads h)
  | empty | resetOverflow | setAccept flag envelope =>
    obtain rfl := Option.some.inj h
    exact ⟨rfl, rfl⟩

theorem others_access {s : Link W C} {a : Access} {ring : Ring}
    (h : access s.ring a = some ring) : Others s { s with ring := ring } := by
  obtain ⟨hlost, hentered⟩ := access_keeps h
  refine ⟨rfl, rfl, rfl, rfl, rfl, hentered, hlost, id, fun hclosed => ?_, fun hshut => ?_,
    Or.inl ⟨rfl, rfl⟩⟩
  · rcases access_move h with hmove | ⟨-, rfl⟩
    · exact hmove.closed hclosed
    · exact hclosed
  · rcases access_move h with hmove | ⟨-, rfl⟩
    · exact hmove.shut hshut
    · exact ⟨hshut.closed, hshut.awake⟩

/-- The RX thread moves the ring as its other users do, or latches the lost link. -/
theorem rxMove_ring {s s' : Link W C} (hmove : RxMove s s') :
    Ring.Move s.ring s'.ring ∨
      s'.ring = { s.ring with shared := s.ring.shared.markLinkLost } := by
  have hresume : ∀ (t : Link W C) (next : Option RxStream), (resume t next).ring = t.ring := by
    intro t next
    cases next <;> rfl
  cases hmove with
  | reject f next hrx | called next hrx =>
    rw [hresume]
    exact Or.inl .stay
  | enqueue f now next hrx => exact Or.inl (.offer _)
  | overrun f now next hrx =>
    rw [hresume]
    exact Or.inl (.offer _)
  | notify next hrx target ring hnotify => exact Or.inl (notifyOne_move hnotify)
  | latch => exact Or.inr rfl
  | close => exact Or.inl .markClosed
  | wake => exact Or.inl .notifyAll
  | _ => exact Or.inl .stay

theorem rxMove_shut {s s' : Link W C} (hmove : RxMove s s') (hshut : s.ring.Shut) :
    s'.ring.Shut := by
  rcases rxMove_ring hmove with hring | hring
  · exact hring.shut hshut
  · rw [hring]
    exact ⟨hshut.closed, hshut.awake⟩

/-- A step that only moves a writer or a closer, or takes the handle out of the table. -/
theorem others_quiet (s : Link W C) (writers : W → WriterPc) (closers : C → CloserPc)
    (isOpen : Bool) :
    Others s { s with writers := writers, closers := closers, isOpen := isOpen } :=
  ⟨rfl, rfl, rfl, rfl, rfl, rfl, rfl, id, id, id, Or.inl ⟨rfl, rfl⟩⟩

variable [DecidableEq W] [DecidableEq C]

omit [DecidableEq C] in
theorem writerGo_ring {s s' : Link W C} {w : W} {ok : Bool}
    (h : writerGo s w ok (s.writers w) = some s') : s'.ring = s.ring := by
  cases hpc : s.writers w with
  | idle =>
    rw [hpc] at h
    cases h
  | found | ready =>
    simp only [hpc, writerGo] at h
    split at h <;> obtain rfl := Option.some.inj h <;> rfl
  | failing stage =>
    rw [hpc] at h
    cases stage <;> obtain rfl := Option.some.inj h <;> rfl

omit [DecidableEq W] in
theorem closerGo_ring {s s' : Link W C} {c : C}
    (h : closerGo s c (s.closers c) = some s') : Ring.Move s.ring s'.ring := by
  cases hpc : s.closers c with
  | idle =>
    rw [hpc] at h
    cases h
  | running | negotiated | shutdown =>
    rw [hpc] at h
    obtain rfl := Option.some.inj h
    exact .stay
  | markClosed =>
    rw [hpc] at h
    obtain rfl := Option.some.inj h
    exact .markClosed
  | notifyAll =>
    rw [hpc] at h
    obtain rfl := Option.some.inj h
    exact .notifyAll

omit [DecidableEq C] in
theorem others_writer {s s' : Link W C} {w : W} {ok : Bool}
    (h : writerGo s w ok (s.writers w) = some s') : Others s s' := by
  cases hpc : s.writers w with
  | idle =>
    rw [hpc] at h
    cases h
  | found | ready =>
    simp only [hpc, writerGo] at h
    split at h <;> obtain rfl := Option.some.inj h <;> exact others_quiet s _ _ _
  | failing stage =>
    rw [hpc] at h
    cases stage with
    | negotiated =>
      obtain rfl := Option.some.inj h
      exact ⟨rfl, rfl, rfl, rfl, rfl, rfl, rfl, fun _ => rfl, id, id, Or.inl ⟨rfl, rfl⟩⟩
    | running =>
      obtain rfl := Option.some.inj h
      exact ⟨rfl, rfl, rfl, rfl, rfl, rfl, rfl, id, id, id,
        Or.inr ⟨.writer, by decide, rfl, rfl⟩⟩
    | shutdown =>
      obtain rfl := Option.some.inj h
      exact others_quiet s _ _ _

omit [DecidableEq W] in
theorem others_closer {s s' : Link W C} {c : C}
    (h : closerGo s c (s.closers c) = some s') : Others s s' := by
  cases hpc : s.closers c with
  | idle =>
    rw [hpc] at h
    cases h
  | running =>
    rw [hpc] at h
    obtain rfl := Option.some.inj h
    exact ⟨rfl, rfl, rfl, rfl, rfl, rfl, rfl, id, id, id, Or.inr ⟨.closer, by decide, rfl, rfl⟩⟩
  | negotiated =>
    rw [hpc] at h
    obtain rfl := Option.some.inj h
    exact ⟨rfl, rfl, rfl, rfl, rfl, rfl, rfl, fun _ => rfl, id, id, Or.inl ⟨rfl, rfl⟩⟩
  | markClosed =>
    rw [hpc] at h
    obtain rfl := Option.some.inj h
    exact ⟨rfl, rfl, rfl, rfl, rfl, rfl, rfl, id, fun _ => rfl,
      Ring.Move.shut .markClosed, Or.inl ⟨rfl, rfl⟩⟩
  | notifyAll =>
    rw [hpc] at h
    obtain rfl := Option.some.inj h
    exact ⟨rfl, rfl, rfl, rfl, rfl, rfl, rfl, id, id, Ring.Move.shut .notifyAll,
      Or.inl ⟨rfl, rfl⟩⟩
  | shutdown =>
    rw [hpc] at h
    obtain rfl := Option.some.inj h
    exact others_quiet s _ _ _

theorem step_others {s s' : Link W C} {l : Label W C} (hl : ∀ event, l ≠ .rx event)
    (h : step s l = some s') : Others s s' := by
  cases l with
  | rx event => exact absurd rfl (hl event)
  | access a =>
    obtain ⟨ring, hring, rfl⟩ := Option.map_eq_some_iff.mp h
    exact others_access hring
  | canWrite w | canClose c | drop c =>
    simp only [step] at h
    split at h
    · obtain rfl := Option.some.inj h
      exact others_quiet s _ _ _
    · cases h
  | write w ok => exact others_writer h
  | close c => exact others_closer h

theorem step_cases {s s' : Link W C} {l : Label W C} (h : step s l = some s') :
    RxMove s s' ∨ Others s s' := by
  cases l with
  | rx event => exact Or.inl (rxStep_move h)
  | _ => exact Or.inr (step_others (fun _ hl => by cases hl) h)

/-- But for a flush, each step moves the ring as a user of it or latches the lost link. -/
theorem step_ring {s s' : Link W C} {l : Label W C} (hl : l ≠ .access .empty)
    (h : step s l = some s') :
    Ring.Move s.ring s'.ring ∨
      s'.ring = { s.ring with shared := s.ring.shared.markLinkLost } := by
  cases l with
  | rx event => exact rxMove_ring (rxStep_move h)
  | access a =>
    obtain ⟨ring, hring, rfl⟩ := Option.map_eq_some_iff.mp h
    rcases access_move hring with hmove | ⟨rfl, -⟩
    · exact Or.inl hmove
    · exact absurd rfl hl
  | canWrite w | canClose c | drop c =>
    simp only [step] at h
    split at h
    · obtain rfl := Option.some.inj h
      exact Or.inl .stay
    · cases h
  | write w ok =>
    rw [writerGo_ring h]
    exact Or.inl .stay
  | close c => exact Or.inl (closerGo_ring h)

/-! ### The order of the stores -/

/-- What holds of the flags and latches at each stage of the RX thread. -/
structure Ordered (s : Link W C) : Prop where
  running : s.running = true ↔ s.clearedBy = []
  before : stage s.rx ≤ 1 → .loop ∉ s.clearedBy
  won : 2 ≤ stage s.rx → stage s.rx ≤ 5 → Won s
  once : s.clearedBy.count .loop ≤ 1
  returned : stage s.rx = 6 → s.clearedBy ≠ []
  negotiated : Won s → 3 ≤ stage s.rx → s.negotiated = false
  lost : s.ring.shared.linkLost = true ↔ Won s ∧ 4 ≤ stage s.rx
  closed : Won s → 5 ≤ stage s.rx → s.ring.shared.closed = true
  shut : Won s → stage s.rx = 6 → s.ring.Shut
  ending : 1 ≤ stage s.rx → ∃ e, s.ending = some e ∧ (e = .stopped → s.clearedBy ≠ [] ∧ ¬ Won s)

omit [DecidableEq W] [DecidableEq C] in
theorem opened_ordered : Ordered (opened W C) where
  running := ⟨fun _ => rfl, fun _ => rfl⟩
  before := fun _ => List.not_mem_nil
  won := fun h => absurd h (Nat.not_succ_le_zero 1)
  once := Nat.zero_le _
  returned := fun h => by cases h
  negotiated := fun h => by cases h
  lost := ⟨fun h => (by cases h), fun h => (by cases h.1)⟩
  closed := fun h => by cases h
  shut := fun h => by cases h
  ending := fun h => absurd h (Nat.not_succ_le_zero 0)

omit [DecidableEq W] [DecidableEq C] in
theorem not_won_of_before {s : Link W C} (h : .loop ∉ s.clearedBy) : ¬ Won s := by
  intro hwon
  exact h (List.mem_of_mem_head? hwon)

omit [DecidableEq W] [DecidableEq C] in
/-- Who came first stays first. -/
theorem won_append {s s' : Link W C} {p : Party} (hp : p ≠ .loop)
    (h : s'.clearedBy = s.clearedBy ++ [p]) : Won s' ↔ Won s := by
  unfold Won
  rw [h]
  cases s.clearedBy with
  | nil =>
    simp only [List.nil_append, List.head?_cons, List.head?_nil, Option.some.injEq, reduceCtorEq,
      iff_false]
    exact hp
  | cons q ps => rfl

omit [DecidableEq W] [DecidableEq C] in
theorem working_ordered {s s' : Link W C} (hinv : Ordered s) (h : Working s s') :
    Ordered s' := by
  have hbefore : .loop ∉ s'.clearedBy := by
    rw [h.clearedBy]
    exact hinv.before (by rw [h.start]; exact Nat.zero_le _)
  have hnot := not_won_of_before hbefore
  have hfinish := h.finish
  refine ⟨?_, fun _ => hbefore, fun h2 => ?_, ?_, fun h6 => ?_, fun hwon => absurd hwon hnot,
    ?_, fun hwon => absurd hwon hnot, fun hwon => absurd hwon hnot, fun h1 => ?_⟩
  · rw [h.running, h.clearedBy]
    exact hinv.running
  · omega
  · rw [List.count_eq_zero.mpr hbefore]
    exact Nat.zero_le _
  · omega
  · rw [h.linkLost, hinv.lost]
    constructor
    · rintro ⟨-, h4⟩
      rw [h.start] at h4
      omega
    · exact fun hwon => absurd hwon.1 hnot
  · rcases h.ending with ⟨-, h0⟩ | ⟨e, he, hstop⟩
    · omega
    · refine ⟨e, he, fun hes => ⟨?_, hnot⟩⟩
      rw [h.clearedBy]
      intro hnil
      rw [hinv.running.mpr hnil] at hstop
      cases hstop hes

omit [DecidableEq W] [DecidableEq C] in
theorem others_ordered {s s' : Link W C} (hinv : Ordered s) (h : Others s s') :
    Ordered s' := by
  rcases h.clearedBy with ⟨hcleared, hrunning⟩ | ⟨p, hp, hcleared, hrunning⟩
  · have hwon : Won s' ↔ Won s := by rw [Won, Won, hcleared]
    refine ⟨?_, fun h1 => ?_, fun h2 h5 => ?_, ?_, fun h6 => ?_, fun hw h3 => ?_, ?_,
      fun hw h5 => ?_, fun hw h6 => ?_, fun h1 => ?_⟩
    · rw [hrunning, hcleared]
      exact hinv.running
    · rw [hcleared]
      exact hinv.before (h.rx ▸ h1)
    · exact hwon.mpr (hinv.won (h.rx ▸ h2) (h.rx ▸ h5))
    · rw [hcleared]
      exact hinv.once
    · rw [hcleared]
      exact hinv.returned (h.rx ▸ h6)
    · exact h.negotiated (hinv.negotiated (hwon.mp hw) (h.rx ▸ h3))
    · rw [h.linkLost, h.rx, hwon]
      exact hinv.lost
    · exact h.closed (hinv.closed (hwon.mp hw) (h.rx ▸ h5))
    · exact h.shut (hinv.shut (hwon.mp hw) (h.rx ▸ h6))
    · rw [h.ending, hcleared, hwon]
      exact hinv.ending (h.rx ▸ h1)
  · have hwon : Won s' ↔ Won s := won_append hp hcleared
    have hne : s'.clearedBy ≠ [] := by simp [hcleared]
    refine ⟨?_, fun h1 => ?_, fun h2 h5 => ?_, ?_, fun _ => hne, fun hw h3 => ?_, ?_,
      fun hw h5 => ?_, fun hw h6 => ?_, fun h1 => ?_⟩
    · rw [hrunning]
      exact ⟨fun hrun => (by cases hrun), fun hnil => absurd hnil hne⟩
    · rw [hcleared, List.mem_append, List.mem_singleton]
      rintro (hmem | rfl)
      · exact hinv.before (h.rx ▸ h1) hmem
      · exact hp rfl
    · exact hwon.mpr (hinv.won (h.rx ▸ h2) (h.rx ▸ h5))
    · rw [hcleared, List.count_append, List.count_singleton, beq_false_of_ne hp]
      exact hinv.once
    · exact h.negotiated (hinv.negotiated (hwon.mp hw) (h.rx ▸ h3))
    · rw [h.linkLost, h.rx, hwon]
      exact hinv.lost
    · exact h.closed (hinv.closed (hwon.mp hw) (h.rx ▸ h5))
    · exact h.shut (hinv.shut (hwon.mp hw) (h.rx ▸ h6))
    · obtain ⟨e, he, hstop⟩ := hinv.ending (h.rx ▸ h1)
      exact ⟨e, h.ending.trans he, fun hes => ⟨hne, fun hw => (hstop hes).2 (hwon.mp hw)⟩⟩

omit [DecidableEq W] [DecidableEq C] in
/-- The swap of a loop that comes first starts the teardown. -/
theorem swap_ordered {s : Link W C} (hinv : Ordered s) (hrx : s.rx = .swapping)
    (hrunning : s.running = true) :
    Ordered { s with running := false, rx := .clearing, clearedBy := s.clearedBy ++ [.loop] } := by
  have hnil : s.clearedBy = [] := hinv.running.mp hrunning
  have hnot : ¬ Won s := by
    intro hwon
    rw [Won, hnil] at hwon
    cases hwon
  have hstage : stage s.rx = 1 := by rw [hrx]; rfl
  have hfree : s.ring.shared.linkLost ≠ true := fun hlost => hnot (hinv.lost.mp hlost).1
  refine ⟨?_, fun h1 => ?_, fun _ _ => ?_, ?_, fun h6 => ?_, fun _ h3 => ?_, ?_,
    fun _ h5 => ?_, fun _ h6 => ?_, fun _ => ?_⟩
  · simp [hnil]
  · simp [stage] at h1
  · simp [Won, hnil]
  · simp [hnil]
  · cases h6
  · simp [stage] at h3
  · refine ⟨fun hlost => absurd hlost hfree, fun h => ?_⟩
    have h4 := h.2
    simp [stage] at h4
  · simp [stage] at h5
  · cases h6
  · obtain ⟨e, he, hstop⟩ := hinv.ending (by omega)
    exact ⟨e, he, fun hes => absurd hnil (hstop hes).1⟩

omit [DecidableEq W] [DecidableEq C] in
/-- A loop that finds `running` cleared leaves the teardown to whoever cleared it. -/
theorem late_ordered {s : Link W C} (hinv : Ordered s) (hrx : s.rx = .swapping)
    (hstop : s.running = false) : Ordered { s with rx := .returned } := by
  have hstage : stage s.rx = 1 := by rw [hrx]; rfl
  have hnot : ¬ Won s := not_won_of_before (hinv.before (by omega))
  have hfree : s.ring.shared.linkLost ≠ true := fun hlost => hnot (hinv.lost.mp hlost).1
  have hne : s.clearedBy ≠ [] := by
    intro hnil
    rw [hinv.running.mpr hnil] at hstop
    cases hstop
  refine ⟨hinv.running, fun h1 => ?_, fun _ h5 => ?_, hinv.once, fun _ => hne,
    fun hwon => absurd hwon hnot, ?_, fun hwon => absurd hwon hnot,
    fun hwon => absurd hwon hnot, fun _ => hinv.ending (by omega)⟩
  · simp [stage] at h1
  · simp [stage] at h5
  · exact ⟨fun hlost => absurd hlost hfree, fun h => absurd h.1 hnot⟩

omit [DecidableEq W] [DecidableEq C] in
/-- The stores behind the swap come one after the other. -/
theorem store_ordered {s s' : Link W C} (hinv : Ordered s) (hlate : 2 ≤ stage s.rx)
    (hnext : stage s'.rx = stage s.rx + 1) (hend : stage s.rx ≤ 5)
    (hrunning : s'.running = s.running) (hcleared : s'.clearedBy = s.clearedBy)
    (hending : s'.ending = s.ending)
    (hneg : s.negotiated = false ∨ stage s.rx = 2 → s'.negotiated = false)
    (hlost : s'.ring.shared.linkLost = true ↔
      s.ring.shared.linkLost = true ∨ stage s.rx = 3)
    (hclosed : s.ring.shared.closed = true ∨ stage s.rx = 4 → s'.ring.shared.closed = true)
    (hshut : s.ring.shared.closed = true → stage s.rx = 5 → s'.ring.Shut) : Ordered s' := by
  have hw : Won s := hinv.won hlate hend
  have hwon : Won s' := by
    rw [Won, hcleared]
    exact hw
  refine ⟨?_, fun h1 => ?_, fun _ _ => hwon, ?_, fun _ => ?_, fun _ h3 => hneg ?_, ?_,
    fun _ h5 => hclosed ?_, fun _ h6 => ?_, fun _ => ?_⟩
  · rw [hrunning, hcleared]
    exact hinv.running
  · omega
  · rw [hcleared]
    exact hinv.once
  · rw [hcleared]
    intro hnil
    rw [Won, hnil] at hw
    cases hw
  · rcases Nat.lt_or_ge (stage s.rx) 3 with h2 | h2
    · exact Or.inr (by omega)
    · exact Or.inl (hinv.negotiated hw h2)
  · rw [hlost, hinv.lost]
    constructor
    · intro h
      exact ⟨hwon, by omega⟩
    · rintro ⟨-, h4⟩
      rcases Nat.lt_or_ge (stage s.rx) 4 with h3 | h3
      · exact Or.inr (by omega)
      · exact Or.inl ⟨hw, h3⟩
  · rcases Nat.lt_or_ge (stage s.rx) 5 with h4 | h4
    · exact Or.inr (by omega)
    · exact Or.inl (hinv.closed hw h4)
  · exact hshut (hinv.closed hw (by omega)) (by omega)
  · rw [hending, hcleared]
    obtain ⟨e, he, hstop⟩ := hinv.ending (by omega)
    exact ⟨e, he, fun hes => absurd hw (hstop hes).2⟩

omit [DecidableEq W] [DecidableEq C] in
theorem rxMove_ordered {s s' : Link W C} (hinv : Ordered s) (hmove : RxMove s s') :
    Ordered s' := by
  rcases rxMove_cases hmove with hworking | ⟨hrx, hrunning, rfl⟩ | ⟨hrx, hstop, rfl⟩ |
    ⟨hrx, rfl⟩ | ⟨hrx, rfl⟩ | ⟨hrx, rfl⟩ | ⟨hrx, rfl⟩
  · exact working_ordered hinv hworking
  · exact swap_ordered hinv hrx hrunning
  · exact late_ordered hinv hrx hstop
  · refine store_ordered hinv ?_ ?_ ?_ rfl rfl rfl (fun _ => rfl) ?_ ?_ ?_ <;>
      simp [hrx, stage]
  · refine store_ordered hinv ?_ ?_ ?_ rfl rfl rfl ?_ ?_ ?_ ?_ <;>
      simp [hrx, stage, Shared.markLinkLost]
  · refine store_ordered hinv ?_ ?_ ?_ rfl rfl rfl ?_ ?_ ?_ ?_ <;>
      simp [hrx, stage, Ring.markClosed, Shared.markClosed]
  · refine store_ordered hinv ?_ ?_ ?_ rfl rfl rfl ?_ ?_ ?_ (fun hclosed _ =>
      notifyAll_shut hclosed) <;> simp [hrx, stage, Ring.notifyAll]

theorem step_ordered {s s' : Link W C} {l : Label W C} (hinv : Ordered s)
    (h : step s l = some s') : Ordered s' := by
  rcases step_cases h with hmove | hothers
  · exact rxMove_ordered hinv hmove
  · exact others_ordered hinv hothers

theorem run_ordered {ls : List (Label W C)} {s : Link W C} (h : run ls = some s) : Ordered s :=
  StepSystem.run_invariant (fun _ _ _ hinv hstep => step_ordered hinv hstep) opened_ordered h

end Kvasilloni.TeardownOrder
