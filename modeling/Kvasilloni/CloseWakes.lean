import Kvasilloni.WaitingReaders

/-!
Closing a channel on which readers are blocked. The flag is set under the lock of the
queue, so a reader either sees it before it parks or is parked when `notify_all` comes.
A blocking read gives up early only on an empty queue of a closed channel, and closing
takes no frame away.
-/
namespace Kvasilloni.CloseWakes

open Frames SharedRing WaitingReaders

theorem step_ring_shut {s s' : System} {l : Label} (h : step s l = some s')
    (hshut : s.ring.Shut) : s'.ring.Shut := by
  rcases step_ring h with hmove | ⟨-, hring⟩
  · exact hmove.shut hshut
  · rw [hring]
    exact ⟨hshut.closed, hshut.awake⟩

theorem run_shut {ks : List Label} {s t : System} (hshut : s.ring.Shut)
    (h : StepSystem.run step s ks = some t) : t.ring.Shut :=
  StepSystem.run_invariant (fun _ _ _ hinv hstep => step_ring_shut hstep hinv) hshut h

/-! ### The replies and the queue -/

/-- The new replies and the new frames of a move. -/
structure Accounts (r r' : Ring) (out : List ReadReply) (new : List Frame) : Prop where
  replies : r'.replies = r.replies ++ out
  entered : r'.entered = r.entered ++ new
  queue : out.filterMap ReadReply.frame ++ r'.shared.q = r.shared.q ++ new

theorem accounts_refl (r : Ring) : Accounts r r [] [] :=
  ⟨(List.append_nil _).symm, (List.append_nil _).symm, (List.append_nil _).symm⟩

theorem Accounts.trans {r s t : Ring} {out out' : List ReadReply} {new new' : List Frame}
    (h : Accounts r s out new) (h' : Accounts s t out' new') :
    Accounts r t (out ++ out') (new ++ new') := by
  refine ⟨?_, ?_, ?_⟩
  · rw [h'.replies, h.replies, List.append_assoc]
  · rw [h'.entered, h.entered, List.append_assoc]
  · rw [List.filterMap_append, List.append_assoc, h'.queue, ← List.append_assoc, h.queue,
      List.append_assoc]

/-- What an early reply of nothing says about the ring. -/
def Honest (r : Ring) : ReadReply → Prop
  | .pop none => r.shared.q = []
  | .popWait none expired => r.shared.q = [] ∧ (expired = true ∨ r.shared.closed = true)
  | _ => True

theorem pop_queue (s : Shared) :
    s.pop.1.toList ++ s.pop.2.q = s.q ∧ (s.pop.1 = none → s.q = []) := by
  cases hq : s.q <;> simp [Shared.pop, hq]

theorem take_accounts (r : Ring) (reply : Option Frame → ReadReply)
    (hreply : ∀ f, (reply f).frame = f) :
    Accounts r (r.take reply) [reply r.shared.pop.1] [] := by
  refine ⟨rfl, (List.append_nil _).symm, ?_⟩
  rw [List.append_nil, ← (pop_queue r.shared).1]
  simp only [List.filterMap_cons, hreply, List.filterMap_nil]
  cases r.shared.pop.1 <;> rfl

theorem finish_accounts (r : Ring) {expired : Bool} (w : Wait)
    (hover : r.shared.waitOver expired = true) :
    ∃ reply, Accounts r (r.finish expired w) [reply] [] ∧ Honest r reply := by
  cases w with
  | popWait =>
    refine ⟨_, take_accounts r (fun f => .popWait f expired) (fun _ => rfl), ?_⟩
    cases hpop : r.shared.pop.1 with
    | some f => exact trivial
    | none =>
      have hempty := (pop_queue r.shared).2 hpop
      refine ⟨hempty, ?_⟩
      simp only [Shared.waitOver, hempty, List.isEmpty_nil, Bool.true_and, Bool.not_not,
        Bool.or_eq_true] at hover
      exact hover.symm
  | peekWait =>
    exact ⟨_, ⟨rfl, (List.append_nil _).symm, (List.append_nil _).symm⟩, trivial⟩

/-- A move queues some frames and hands some out, and its replies are honest. -/
theorem move_accounts {r r' : Ring} (hmove : Ring.Move r r') :
    ∃ out new, Accounts r r' out new ∧ ∀ reply ∈ out, Honest r reply := by
  have hkeep : ∀ r'' : Ring, r''.replies = r.replies → r''.entered = r.entered →
      r''.shared.q = r.shared.q →
      ∃ out new, Accounts r r'' out new ∧ ∀ reply ∈ out, Honest r reply := by
    intro r'' hreplies hentered hq
    refine ⟨[], [], ⟨?_, ?_, ?_⟩, fun _ hmem => absurd hmem List.not_mem_nil⟩
    · rw [hreplies, List.append_nil]
    · rw [hentered, List.append_nil]
    · rw [hq, List.append_nil, List.filterMap_nil, List.nil_append]
  cases hmove with
  | offer f =>
    by_cases hfull : r.shared.q.length ≥ ringCap
    · apply hkeep <;> simp [Ring.offer, Shared.enqueue, hfull]
    · refine ⟨[], [f], ⟨?_, ?_, ?_⟩, fun _ hmem => absurd hmem List.not_mem_nil⟩ <;>
        simp [Ring.offer, Shared.enqueue, hfull]
  | pop =>
    refine ⟨_, _, take_accounts r .pop (fun _ => rfl), fun reply hmem => ?_⟩
    obtain rfl := List.mem_singleton.mp hmem
    cases hpop : r.shared.pop.1 with
    | some f => exact trivial
    | none => exact (pop_queue r.shared).2 hpop
  | enter w expired =>
    cases hover : r.shared.waitOver expired with
    | true =>
      obtain ⟨reply, haccounts, hhonest⟩ := finish_accounts r w hover
      refine ⟨[reply], [], ?_, fun reply' hmem => ?_⟩
      · simpa only [Ring.enter, hover, ↓reduceIte] using haccounts
      · obtain rfl := List.mem_singleton.mp hmem
        exact hhonest
    | false => apply hkeep <;> simp [Ring.enter, hover]
  | expire i r' hexpire =>
    obtain ⟨b, -, rfl⟩ := expire_cases hexpire
    exact hkeep _ rfl rfl rfl
  | wake i r' hwake =>
    obtain ⟨w, expired, -, rfl⟩ := wake_cases hwake
    exact hkeep _ rfl rfl rfl
  | recheck i r' hrecheck =>
    obtain ⟨w, expired, -, ⟨hover, rfl⟩ | ⟨-, rfl⟩⟩ := recheck_cases hrecheck
    · obtain ⟨reply, haccounts, hhonest⟩ := finish_accounts r w hover
      refine ⟨[reply], [], ⟨haccounts.replies, haccounts.entered, haccounts.queue⟩,
        fun reply' hmem => ?_⟩
      obtain rfl := List.mem_singleton.mp hmem
      exact hhonest
    · exact hkeep _ rfl rfl rfl
  | stay | markClosed | notifyAll | resetOverflow | setAccept flag envelope =>
    exact hkeep _ rfl rfl rfl

/-- While nobody flushes, what is handed out and what is still queued are the frames that
were queued, in their order. -/
theorem run_accounts {ks : List Label} {s t : System} (hflush : .clear ∉ ks)
    (h : StepSystem.run step s ks = some t) :
    ∃ out new, Accounts s.ring t.ring out new := by
  induction ks generalizing s with
  | nil =>
    obtain rfl := Option.some.inj h
    exact ⟨[], [], accounts_refl _⟩
  | cons l ks ih =>
    obtain ⟨s', hstep, hrest⟩ := StepSystem.run_cons.mp h
    have hl : l ≠ .clear := fun hl => hflush (hl ▸ List.mem_cons_self ..)
    obtain ⟨out', new', haccounts'⟩ := ih (fun hmem => hflush (List.mem_cons_of_mem l hmem)) hrest
    rcases step_ring hstep with hmove | ⟨hclear, -⟩
    · obtain ⟨out, new, haccounts, -⟩ := move_accounts hmove
      exact ⟨_, _, haccounts.trans haccounts'⟩
    · exact absurd hclear hl

end Kvasilloni.CloseWakes
