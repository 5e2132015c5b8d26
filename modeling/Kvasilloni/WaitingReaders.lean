import Kvasilloni.SharedRing
import Mathlib.Data.List.Perm.Basic

/-!
The readers that block on the ring of one channel. A blocking read holds the lock of
the queue while it looks, and gives it up only by parking on the condition variable, so
each section under the lock is one step. A parked reader goes on when it is notified,
when its timeout has passed, or for no reason at all, and looks again once it has the
lock back. The calls of `notify_one` and `notify_all`, and the reset of the latch in
`clear`, come after the section and are steps of their own.
-/
namespace Kvasilloni.WaitingReaders

open Frames SharedRing

inductive Wait
  | popWait
  | peekWait
  deriving DecidableEq

/-- A blocking read that has found nothing: parked, or woken and about to look again. -/
structure Reader where
  wait : Wait
  expired : Bool
  parked : Bool
  deriving DecidableEq

/-- The result of a read; for a blocking one, also whether its timeout had passed. -/
inductive ReadReply
  | pop (f : Option Frame)
  | popWait (f : Option Frame) (expired : Bool)
  | peekWait (found expired : Bool)
  deriving DecidableEq

/-- The frame that a read hands out. -/
def ReadReply.frame : ReadReply → Option Frame
  | .pop f => f
  | .popWait f _ => f
  | .peekWait _ _ => none

/-- The shared state with its blocked readers, and a record of the frames that were queued
and of the replies to the reads. -/
structure Ring where
  shared : Shared
  readers : List Reader
  entered : List Frame
  replies : List ReadReply

def Ring.new : Ring := ⟨Shared.new, [], [], []⟩

namespace Ring

/-- The queue section of `push`. -/
def offer (r : Ring) (f : Frame) : Ring × Bool :=
  match r.shared.enqueue f with
  | (shared, true) => ({ r with shared := shared, entered := r.entered ++ [f] }, true)
  | (shared, false) => ({ r with shared := shared }, false)

/-- The head of the queue leaves it. -/
def take (r : Ring) (reply : Option Frame → ReadReply) : Ring :=
  { r with
    shared := r.shared.pop.2
    replies := r.replies ++ [reply r.shared.pop.1] }

def pop (r : Ring) : Ring := r.take .pop

/-- A blocking read returns, with the lock held, when the wait is over. -/
def finish (r : Ring) (expired : Bool) : Wait → Ring
  | .popWait => r.take fun f => .popWait f expired
  | .peekWait => { r with replies := r.replies ++ [.peekWait (!r.shared.q.isEmpty) expired] }

/-- The first look of a blocking read. -/
def enter (r : Ring) (w : Wait) (expired : Bool) : Ring :=
  if r.shared.waitOver expired then r.finish expired w
  else { r with readers := r.readers ++ [⟨w, false, true⟩] }

/-- A woken reader has the lock back. -/
def recheck (r : Ring) (i : ℕ) : Option Ring :=
  match r.readers[i]? with
  | some ⟨w, expired, false⟩ =>
    if r.shared.waitOver expired then
      some { r.finish expired w with readers := r.readers.eraseIdx i }
    else some { r with readers := r.readers.set i ⟨w, false, true⟩ }
  | _ => none

/-- The timeout of a reader passes, which lets a parked one go. -/
def expire (r : Ring) (i : ℕ) : Option Ring :=
  match r.readers[i]? with
  | some b => some { r with readers := r.readers.set i ⟨b.wait, true, false⟩ }
  | none => none

/-- A parked reader is let go, by a notification or spuriously. -/
def wake (r : Ring) (i : ℕ) : Option Ring :=
  match r.readers[i]? with
  | some ⟨w, expired, true⟩ =>
    some { r with readers := r.readers.set i ⟨w, expired, false⟩ }
  | _ => none

def Parked (r : Ring) : Prop := ∃ b ∈ r.readers, b.parked = true

instance (r : Ring) : Decidable r.Parked :=
  inferInstanceAs (Decidable (∃ b ∈ r.readers, b.parked = true))

/-- `notify_one` lets an arbitrary parked reader go, if there is one. -/
def notifyOne (r : Ring) : Option ℕ → Option Ring
  | some i => r.wake i
  | none => if r.Parked then none else some r

def notifyAll (r : Ring) : Ring :=
  { r with readers := r.readers.map fun b => { b with parked := false } }

/-- The section of `mark_closed`. -/
def markClosed (r : Ring) : Ring := { r with shared := r.shared.markClosed }

/-- The section of `clear`, which leaves the latch for later. -/
def empty (r : Ring) : Ring := { r with shared := { r.shared with q := [] } }

/-- The store behind the section of `clear`. -/
def resetOverflow (r : Ring) : Ring := { r with shared := { r.shared with overflow := false } }

end Ring

/-- The ring with the calls that have a step still to take: frames past the filter, calls
of `notify_one` and of `notify_all`, and resets of the latch. -/
structure System where
  ring : Ring
  offering : List Frame
  notifies : ℕ
  wakings : ℕ
  resets : ℕ
  closeReturned : Bool

def System.init : System := ⟨Ring.new, [], 0, 0, 0, false⟩

inductive Label
  | push (now : UInt64) (f : Frame)
  | offer (i : ℕ)
  | notifyOne (target : Option ℕ)
  | pop
  | enter (w : Wait) (expired : Bool)
  | expire (i : ℕ)
  | wake (i : ℕ)
  | recheck (i : ℕ)
  | markClosed
  | notifyAll
  | clear
  | resetOverflow
  | setAccept (flag envelope : UInt32)
  deriving DecidableEq

/-- The queue section of a push; only a frame that was queued is notified. -/
def offerFrame (s : System) (i : ℕ) (f : Frame) : System :=
  match s.ring.offer f with
  | (ring, true) =>
    { s with ring := ring, offering := s.offering.eraseIdx i, notifies := s.notifies + 1 }
  | (ring, false) => { s with ring := ring, offering := s.offering.eraseIdx i }

def step (s : System) : Label → Option System
  | .push now f =>
    if s.ring.shared.filters.accepts f then
      some { s with offering := s.offering ++ [stamp now f] }
    else some s
  | .offer i =>
    match s.offering[i]? with
    | some f => some (offerFrame s i f)
    | none => none
  | .notifyOne target =>
    match s.notifies with
    | 0 => none
    | n + 1 => (s.ring.notifyOne target).map fun ring => { s with ring := ring, notifies := n }
  | .pop => some { s with ring := s.ring.pop }
  | .enter w expired => some { s with ring := s.ring.enter w expired }
  | .expire i => (s.ring.expire i).map fun ring => { s with ring := ring }
  | .wake i => (s.ring.wake i).map fun ring => { s with ring := ring }
  | .recheck i => (s.ring.recheck i).map fun ring => { s with ring := ring }
  | .markClosed => some { s with ring := s.ring.markClosed, wakings := s.wakings + 1 }
  | .notifyAll =>
    match s.wakings with
    | 0 => none
    | n + 1 => some { s with ring := s.ring.notifyAll, wakings := n, closeReturned := true }
  | .clear => some { s with ring := s.ring.empty, resets := s.resets + 1 }
  | .resetOverflow =>
    match s.resets with
    | 0 => none
    | n + 1 => some { s with ring := s.ring.resetOverflow, resets := n }
  | .setAccept flag envelope =>
    some { s with
      ring := { s.ring with shared := s.ring.shared.setAccept flag envelope } }

def run (ls : List Label) : Option System := StepSystem.run step System.init ls

/-! ### Waiting and counting -/

theorem waitOver_eq_false {s : Shared} {expired : Bool} (h : s.waitOver expired = false) :
    s.q = [] ∧ s.closed = false ∧ expired = false := by
  simp only [Shared.waitOver, Bool.or_eq_false_iff, Bool.not_eq_false', Bool.and_eq_true,
    List.isEmpty_iff, Bool.not_eq_true'] at h
  exact ⟨h.1.1, h.1.2, h.2⟩

/-- The readers of one kind, when one is written anew. -/
theorem countP_set {α : Type} (p : α → Bool) {l : List α} {i : ℕ} {a : α} (b : α)
    (h : l[i]? = some a) :
    (l.set i b).countP p + (if p a then 1 else 0) = l.countP p + (if p b then 1 else 0) := by
  obtain ⟨hi, rfl⟩ := List.getElem?_eq_some_iff.mp h
  have hset := (List.set_perm_cons_eraseIdx hi b).countP_eq p
  have herase := (List.getElem_cons_eraseIdx_perm hi).countP_eq p
  rw [List.countP_cons] at hset herase
  omega

theorem countP_eraseIdx {α : Type} (p : α → Bool) {l : List α} {i : ℕ} {a : α}
    (h : l[i]? = some a) :
    (l.eraseIdx i).countP p + (if p a then 1 else 0) = l.countP p := by
  obtain ⟨hi, rfl⟩ := List.getElem?_eq_some_iff.mp h
  have herase := (List.getElem_cons_eraseIdx_perm hi).countP_eq p
  rwa [List.countP_cons] at herase

/-! ### What each step can do -/

theorem expire_cases {r r' : Ring} {i : ℕ} (h : r.expire i = some r') :
    ∃ b, r.readers[i]? = some b ∧
      r' = { r with readers := r.readers.set i ⟨b.wait, true, false⟩ } := by
  simp only [Ring.expire] at h
  split at h
  · rename_i b hreader
    exact ⟨b, hreader, (Option.some.inj h).symm⟩
  · cases h

theorem wake_cases {r r' : Ring} {i : ℕ} (h : r.wake i = some r') :
    ∃ w expired, r.readers[i]? = some ⟨w, expired, true⟩ ∧
      r' = { r with readers := r.readers.set i ⟨w, expired, false⟩ } := by
  simp only [Ring.wake] at h
  split at h
  · rename_i w expired hreader
    exact ⟨w, expired, hreader, (Option.some.inj h).symm⟩
  · cases h

theorem recheck_cases {r r' : Ring} {i : ℕ} (h : r.recheck i = some r') :
    ∃ w expired, r.readers[i]? = some ⟨w, expired, false⟩ ∧
      (r.shared.waitOver expired = true ∧
          r' = { r.finish expired w with readers := r.readers.eraseIdx i } ∨
        r.shared.waitOver expired = false ∧
          r' = { r with readers := r.readers.set i ⟨w, false, true⟩ }) := by
  simp only [Ring.recheck] at h
  split at h
  · rename_i w expired hreader
    refine ⟨w, expired, hreader, ?_⟩
    split at h
    · rename_i hover
      exact Or.inl ⟨hover, (Option.some.inj h).symm⟩
    · rename_i hover
      exact Or.inr ⟨Bool.not_eq_true _ ▸ hover, (Option.some.inj h).symm⟩
  · cases h

theorem notifyOne_cases {r r' : Ring} {target : Option ℕ} (h : r.notifyOne target = some r') :
    (∃ i, target = some i ∧ r.wake i = some r') ∨ target = none ∧ ¬ r.Parked ∧ r' = r := by
  cases target with
  | some i => exact Or.inl ⟨i, rfl, h⟩
  | none =>
    simp only [Ring.notifyOne] at h
    split at h
    · cases h
    · rename_i hnone
      exact Or.inr ⟨rfl, hnone, (Option.some.inj h).symm⟩

/-- The steps, each with its guard. -/
inductive Stepped (s : System) : Label → System → Prop
  | push (now : UInt64) (f : Frame) :
      Stepped s (.push now f) { s with offering := s.offering ++ [stamp now f] }
  | filter (now : UInt64) (f : Frame) : Stepped s (.push now f) s
  | offer (i : ℕ) (f : Frame) (hf : s.offering[i]? = some f) :
      Stepped s (.offer i) (offerFrame s i f)
  | notifyOne (target : Option ℕ) (n : ℕ) (ring : Ring) (hn : s.notifies = n + 1)
      (hring : s.ring.notifyOne target = some ring) :
      Stepped s (.notifyOne target) { s with ring := ring, notifies := n }
  | pop : Stepped s .pop { s with ring := s.ring.pop }
  | enter (w : Wait) (expired : Bool) :
      Stepped s (.enter w expired) { s with ring := s.ring.enter w expired }
  | expire (i : ℕ) (ring : Ring) (hring : s.ring.expire i = some ring) :
      Stepped s (.expire i) { s with ring := ring }
  | wake (i : ℕ) (ring : Ring) (hring : s.ring.wake i = some ring) :
      Stepped s (.wake i) { s with ring := ring }
  | recheck (i : ℕ) (ring : Ring) (hring : s.ring.recheck i = some ring) :
      Stepped s (.recheck i) { s with ring := ring }
  | markClosed :
      Stepped s .markClosed { s with ring := s.ring.markClosed, wakings := s.wakings + 1 }
  | notifyAll (n : ℕ) (hn : s.wakings = n + 1) :
      Stepped s .notifyAll
        { s with ring := s.ring.notifyAll, wakings := n, closeReturned := true }
  | clear : Stepped s .clear { s with ring := s.ring.empty, resets := s.resets + 1 }
  | resetOverflow (n : ℕ) (hn : s.resets = n + 1) :
      Stepped s .resetOverflow { s with ring := s.ring.resetOverflow, resets := n }
  | setAccept (flag envelope : UInt32) :
      Stepped s (.setAccept flag envelope)
        { s with ring := { s.ring with shared := s.ring.shared.setAccept flag envelope } }

theorem step_cases {s s' : System} {l : Label} (h : step s l = some s') : Stepped s l s' := by
  cases l with
  | push now f =>
    simp only [step] at h
    split at h
    · obtain rfl := Option.some.inj h
      exact .push now f
    · obtain rfl := Option.some.inj h
      exact .filter now f
  | offer i =>
    simp only [step] at h
    split at h
    · rename_i f hf
      obtain rfl := Option.some.inj h
      exact .offer i f hf
    · cases h
  | notifyOne target =>
    simp only [step] at h
    split at h
    · cases h
    · rename_i n hn
      obtain ⟨ring, hring, rfl⟩ := Option.map_eq_some_iff.mp h
      exact .notifyOne target n ring hn hring
  | pop =>
    obtain rfl := Option.some.inj h
    exact .pop
  | enter w expired =>
    obtain rfl := Option.some.inj h
    exact .enter w expired
  | expire i =>
    obtain ⟨ring, hring, rfl⟩ := Option.map_eq_some_iff.mp h
    exact .expire i ring hring
  | wake i =>
    obtain ⟨ring, hring, rfl⟩ := Option.map_eq_some_iff.mp h
    exact .wake i ring hring
  | recheck i =>
    obtain ⟨ring, hring, rfl⟩ := Option.map_eq_some_iff.mp h
    exact .recheck i ring hring
  | markClosed =>
    obtain rfl := Option.some.inj h
    exact .markClosed
  | notifyAll =>
    simp only [step] at h
    split at h
    · cases h
    · rename_i n hn
      obtain rfl := Option.some.inj h
      exact .notifyAll n hn
  | clear =>
    obtain rfl := Option.some.inj h
    exact .clear
  | resetOverflow =>
    simp only [step] at h
    split at h
    · cases h
    · rename_i n hn
      obtain rfl := Option.some.inj h
      exact .resetOverflow n hn
  | setAccept flag envelope =>
    obtain rfl := Option.some.inj h
    exact .setAccept flag envelope

/-! ### What happens to the ring -/

/-- The moves of the ring, but for the emptying of the queue. -/
inductive Ring.Move (r : Ring) : Ring → Prop
  | stay : Move r r
  | offer (f : Frame) : Move r (r.offer f).1
  | pop : Move r r.pop
  | enter (w : Wait) (expired : Bool) : Move r (r.enter w expired)
  | expire (i : ℕ) (r' : Ring) (h : r.expire i = some r') : Move r r'
  | wake (i : ℕ) (r' : Ring) (h : r.wake i = some r') : Move r r'
  | recheck (i : ℕ) (r' : Ring) (h : r.recheck i = some r') : Move r r'
  | markClosed : Move r r.markClosed
  | notifyAll : Move r r.notifyAll
  | resetOverflow : Move r r.resetOverflow
  | setAccept (flag envelope : UInt32) :
      Move r { r with shared := r.shared.setAccept flag envelope }

theorem notifyOne_move {r r' : Ring} {target : Option ℕ} (h : r.notifyOne target = some r') :
    Ring.Move r r' := by
  obtain ⟨i, -, hwake⟩ | ⟨-, -, rfl⟩ := notifyOne_cases h
  · exact .wake i r' hwake
  · exact .stay

theorem offerFrame_ring (s : System) (i : ℕ) (f : Frame) :
    (offerFrame s i f).ring = (s.ring.offer f).1 := by
  unfold offerFrame
  split <;> simp_all only

theorem step_ring {s s' : System} {l : Label} (h : step s l = some s') :
    Ring.Move s.ring s'.ring ∨ l = .clear ∧ s'.ring = s.ring.empty := by
  cases step_cases h with
  | push | filter => exact Or.inl .stay
  | offer i f =>
    rw [offerFrame_ring]
    exact Or.inl (.offer f)
  | notifyOne target n ring hn hring => exact Or.inl (notifyOne_move hring)
  | pop => exact Or.inl .pop
  | enter w expired => exact Or.inl (.enter w expired)
  | expire i ring hring => exact Or.inl (.expire i ring hring)
  | wake i ring hring => exact Or.inl (.wake i ring hring)
  | recheck i ring hring => exact Or.inl (.recheck i ring hring)
  | markClosed => exact Or.inl .markClosed
  | notifyAll => exact Or.inl .notifyAll
  | clear => exact Or.inr ⟨rfl, rfl⟩
  | resetOverflow => exact Or.inl .resetOverflow
  | setAccept flag envelope => exact Or.inl (.setAccept flag envelope)

/-- The channel is closed and no reader is parked. -/
structure Ring.Shut (r : Ring) : Prop where
  closed : r.shared.closed = true
  awake : ∀ b ∈ r.readers, b.parked = false

theorem Ring.Shut.not_parked {r : Ring} (h : r.Shut) : ¬ r.Parked := by
  rintro ⟨b, hb, hpark⟩
  rw [h.awake b hb] at hpark
  cases hpark

theorem offer_keeps (r : Ring) (f : Frame) :
    (∃ q overflow, (r.offer f).1.shared = { r.shared with q := q, overflow := overflow }) ∧
      (r.offer f).1.readers = r.readers ∧ (r.offer f).1.replies = r.replies := by
  obtain ⟨q, overflow, hstate⟩ := r.shared.enqueue_fst f
  unfold Ring.offer
  split
  · rename_i shared heq
    rw [heq] at hstate
    exact ⟨⟨q, overflow, hstate⟩, rfl, rfl⟩
  · rename_i shared heq
    rw [heq] at hstate
    exact ⟨⟨q, overflow, hstate⟩, rfl, rfl⟩

/-- What a reader does: of the shared state at most the queue changes, and no frame enters
it. -/
structure Ring.Reads (r r' : Ring) : Prop where
  closed : r'.shared.closed = r.shared.closed
  overflow : r'.shared.overflow = r.shared.overflow
  linkLost : r'.shared.linkLost = r.shared.linkLost
  entered : r'.entered = r.entered

theorem take_reads (r : Ring) (reply : Option Frame → ReadReply) : r.Reads (r.take reply) := by
  have hshared : (r.take reply).shared = { r.shared with q := r.shared.q.tail } :=
    r.shared.pop_snd
  constructor
  · rw [hshared]
  · rw [hshared]
  · rw [hshared]
  · rfl

theorem finish_reads (r : Ring) (expired : Bool) (w : Wait) : r.Reads (r.finish expired w) := by
  cases w with
  | popWait => exact take_reads r fun f => .popWait f expired
  | peekWait => exact ⟨rfl, rfl, rfl, rfl⟩

theorem enter_reads (r : Ring) (w : Wait) (expired : Bool) : r.Reads (r.enter w expired) := by
  unfold Ring.enter
  split
  · exact finish_reads r expired w
  · exact ⟨rfl, rfl, rfl, rfl⟩

theorem expire_reads {r r' : Ring} {i : ℕ} (h : r.expire i = some r') : r.Reads r' := by
  obtain ⟨b, -, rfl⟩ := expire_cases h
  exact ⟨rfl, rfl, rfl, rfl⟩

theorem wake_reads {r r' : Ring} {i : ℕ} (h : r.wake i = some r') : r.Reads r' := by
  obtain ⟨w, expired, -, rfl⟩ := wake_cases h
  exact ⟨rfl, rfl, rfl, rfl⟩

theorem notifyOne_reads {r r' : Ring} {target : Option ℕ} (h : r.notifyOne target = some r') :
    r.Reads r' := by
  obtain ⟨i, -, hwake⟩ | ⟨-, -, rfl⟩ := notifyOne_cases h
  · exact wake_reads hwake
  · exact ⟨rfl, rfl, rfl, rfl⟩

theorem recheck_reads {r r' : Ring} {i : ℕ} (h : r.recheck i = some r') : r.Reads r' := by
  obtain ⟨w, expired, -, ⟨-, rfl⟩ | ⟨-, rfl⟩⟩ := recheck_cases h
  · obtain ⟨hclosed, hoverflow, hlost, hentered⟩ := finish_reads r expired w
    exact ⟨hclosed, hoverflow, hlost, hentered⟩
  · exact ⟨rfl, rfl, rfl, rfl⟩

theorem finish_readers (r : Ring) (expired : Bool) (w : Wait) :
    (r.finish expired w).readers = r.readers := by
  cases w <;> rfl

theorem waitOver_of_closed {s : Shared} (h : s.closed = true) (expired : Bool) :
    s.waitOver expired = true := by
  simp [Shared.waitOver, h]

/-- A closed channel stays closed. -/
theorem Ring.Move.closed {r r' : Ring} (hmove : Ring.Move r r') (h : r.shared.closed = true) :
    r'.shared.closed = true := by
  cases hmove with
  | offer f =>
    obtain ⟨⟨q, overflow, hshared⟩, -, -⟩ := offer_keeps r f
    rw [hshared]
    exact h
  | pop => exact (take_reads r _).closed.trans h
  | enter w expired => exact (enter_reads r w expired).closed.trans h
  | expire i r' hexpire => exact (expire_reads hexpire).closed.trans h
  | wake i r' hwake => exact (wake_reads hwake).closed.trans h
  | recheck i r' hrecheck => exact (recheck_reads hrecheck).closed.trans h
  | markClosed => rfl
  | stay | notifyAll | resetOverflow | setAccept flag envelope => exact h

/-- Nobody parks on a closed channel. -/
theorem Ring.Move.shut {r r' : Ring} (hmove : Ring.Move r r') (h : r.Shut) : r'.Shut := by
  refine ⟨hmove.closed h.closed, ?_⟩
  have hset : ∀ (i : ℕ) (c : Reader), c.parked = false → ∀ b ∈ r.readers.set i c,
      b.parked = false := by
    intro i c hc b hb
    rcases List.mem_or_eq_of_mem_set hb with hb | rfl
    · exact h.awake b hb
    · exact hc
  cases hmove with
  | offer f =>
    rw [(offer_keeps r f).2.1]
    exact h.awake
  | enter w expired =>
    simp only [Ring.enter, waitOver_of_closed h.closed, ↓reduceIte]
    rw [finish_readers]
    exact h.awake
  | expire i r' hexpire =>
    obtain ⟨b, -, rfl⟩ := expire_cases hexpire
    exact hset i _ rfl
  | wake i r' hwake =>
    obtain ⟨w, expired, -, rfl⟩ := wake_cases hwake
    exact hset i _ rfl
  | recheck i r' hrecheck =>
    obtain ⟨w, expired, -, ⟨-, rfl⟩ | ⟨hover, -⟩⟩ := recheck_cases hrecheck
    · exact fun b hb => h.awake b (List.mem_of_mem_eraseIdx hb)
    · rw [waitOver_of_closed h.closed] at hover
      cases hover
  | notifyAll =>
    intro b hb
    obtain ⟨c, -, rfl⟩ := List.mem_map.mp hb
    rfl
  | stay | pop | markClosed | resetOverflow | setAccept flag envelope => exact h.awake

theorem notifyAll_shut {r : Ring} (h : r.shared.closed = true) : r.notifyAll.Shut := by
  refine ⟨h, fun b hb => ?_⟩
  obtain ⟨c, -, rfl⟩ := List.mem_map.mp hb
  rfl

end Kvasilloni.WaitingReaders
