import Kvasilloni.WaitingReaders

/-!
The overrun latch against a concurrent flush. `clear` empties the queue under its lock and
resets the latch behind it. A frame that is dropped between the two is forgotten; any other
drop stays latched until the queue is emptied again.
-/
namespace Kvasilloni.OverrunLatch

open Frames SharedRing WaitingReaders

/-- The queue section of a push finds the ring full and drops the frame. -/
def Drops (s : System) (l : Label) : Prop :=
  ∃ i f, l = .offer i ∧ s.offering[i]? = some f ∧ ringCap ≤ s.ring.shared.q.length

/-- The latch stays set until a later `clear` begins. -/
def Latched (s : System) : Prop :=
  ∀ ks t, StepSystem.run step s ks = some t → .clear ∉ ks →
    t.ring.shared.overflowed = true

/-- The latch is set and nobody is about to reset it. -/
structure Settled (s : System) : Prop where
  latched : s.ring.shared.overflowed = true
  resets : s.resets = 0

theorem offer_overflowed {r : Ring} (f : Frame) (h : r.shared.overflowed = true) :
    (r.offer f).1.shared.overflowed = true := by
  by_cases hfull : r.shared.q.length ≥ ringCap
  · simp [Ring.offer, Shared.enqueue, hfull, Shared.overflowed]
  · simpa [Ring.offer, Shared.enqueue, hfull, Shared.overflowed] using h

theorem step_settled {s s' : System} {l : Label} (hinv : Settled s) (hl : l ≠ .clear)
    (h : step s l = some s') : Settled s' := by
  cases step_cases h with
  | push | filter | notifyAll => exact ⟨hinv.latched, hinv.resets⟩
  | offer i f =>
    refine ⟨?_, ?_⟩
    · rw [offerFrame_ring]
      exact offer_overflowed f hinv.latched
    · unfold offerFrame
      split <;> exact hinv.resets
  | notifyOne target n ring hn hring =>
    exact ⟨(notifyOne_reads hring).overflow.trans hinv.latched, hinv.resets⟩
  | pop => exact ⟨(take_reads _ _).overflow.trans hinv.latched, hinv.resets⟩
  | enter w expired =>
    exact ⟨(enter_reads _ w expired).overflow.trans hinv.latched, hinv.resets⟩
  | expire i ring hring =>
    exact ⟨(expire_reads hring).overflow.trans hinv.latched, hinv.resets⟩
  | wake i ring hring => exact ⟨(wake_reads hring).overflow.trans hinv.latched, hinv.resets⟩
  | recheck i ring hring =>
    exact ⟨(recheck_reads hring).overflow.trans hinv.latched, hinv.resets⟩
  | clear => exact absurd rfl hl
  | resetOverflow n hn =>
    rw [hinv.resets] at hn
    cases hn
  | markClosed | setAccept => exact ⟨hinv.latched, hinv.resets⟩

theorem Settled.stays {s : System} (hinv : Settled s) : Latched s := by
  intro ks t hrun hclear
  suffices hsettled : Settled t from hsettled.latched
  induction ks generalizing s with
  | nil =>
    obtain rfl := Option.some.inj hrun
    exact hinv
  | cons l ks ih =>
    obtain ⟨s', hstep, hrest⟩ := StepSystem.run_cons.mp hrun
    have hl : l ≠ .clear := fun hl => hclear (hl ▸ List.mem_cons_self ..)
    exact ih (step_settled hinv hl hstep) hrest fun hmem => hclear (List.mem_cons_of_mem l hmem)

theorem drop_step {s s' : System} {l : Label} (hdrop : Drops s l) (h : step s l = some s') :
    s'.ring.shared.overflowed = true ∧ s'.resets = s.resets := by
  obtain ⟨i, f, rfl, hoffering, hfull⟩ := hdrop
  simp only [step, hoffering] at h
  obtain rfl := Option.some.inj h
  constructor
  · rw [offerFrame_ring]
    simp [Ring.offer, Shared.enqueue, hfull, Shared.overflowed]
  · unfold offerFrame
    split <;> rfl

/-- A pending reset will take the latch away. -/
theorem not_latched {s : System} (hpending : s.resets ≠ 0) : ¬ Latched s := by
  intro hstays
  obtain ⟨n, hn⟩ := Nat.exists_eq_succ_of_ne_zero hpending
  have hreset : step s .resetOverflow =
      some { s with ring := s.ring.resetOverflow, resets := n } := by
    simp only [step, hn]
  have hlost := hstays [.resetOverflow] _ (StepSystem.run_cons.mpr ⟨_, hreset, rfl⟩) (by simp)
  cases hlost

/-- A drop stays latched, in every order of the later steps, exactly when no `clear` stands
between emptying the queue and resetting the latch. -/
theorem latched_iff {s s' : System} {l : Label} (hdrop : Drops s l)
    (hstep : step s l = some s') : Latched s' ↔ s.resets = 0 := by
  obtain ⟨hlatched, hresets⟩ := drop_step hdrop hstep
  constructor
  · intro hstays
    by_contra hpending
    exact not_latched (hresets.trans_ne hpending) hstays
  · intro hnone
    exact Settled.stays ⟨hlatched, hresets.trans hnone⟩

/-! ### A ring that runs full -/

/-- The pushes of `n` frames. -/
def fill : ℕ → List Label
  | 0 => []
  | n + 1 => .push 1 Frame.default :: .offer 0 :: fill n

/-- Between two pushes, with `n` frames in the queue and every frame accepted. -/
structure Filling (s : System) (n : ℕ) : Prop where
  offering : s.offering = []
  accepts : s.ring.shared.filters.accepts Frame.default = true
  queued : s.ring.shared.q.length = n

theorem fill_run {s : System} {m : ℕ} (n : ℕ) (hs : Filling s m) (hroom : m + n ≤ ringCap) :
    ∃ t, StepSystem.run step s (fill n) = some t ∧ Filling t (m + n) ∧ t.resets = s.resets := by
  induction n generalizing s m with
  | zero => exact ⟨s, rfl, hs, rfl⟩
  | succ n ih =>
    have hpush : step s (.push 1 Frame.default) =
        some { s with offering := [stamp 1 Frame.default] } := by
      simp [step, hs.accepts, hs.offering]
    have hnotfull : ¬ ringCap ≤ m := by omega
    obtain ⟨t, hrun, ht, hresets⟩ := ih (m := m + 1)
      (s := offerFrame { s with offering := [stamp 1 Frame.default] } 0 (stamp 1 Frame.default))
      (by
        constructor <;>
          simp [offerFrame, Ring.offer, Shared.enqueue, hnotfull, hs.accepts, hs.queued])
      (by omega)
    refine ⟨t, ?_, by rwa [Nat.add_right_comm] at ht, ?_⟩
    · exact StepSystem.run_cons.mpr ⟨_, hpush, StepSystem.run_cons.mpr ⟨_, rfl, hrun⟩⟩
    · rw [hresets]
      simp [offerFrame, Ring.offer, Shared.enqueue, hs.queued, hnotfull]

/-- The ring is full and one more frame has passed the filter. -/
theorem full_run {ls : List Label} {s : System} (h : run ls = some s) (hs : Filling s 0) :
    ∃ t t', run (ls ++ (fill ringCap ++ [.push 1 Frame.default])) = some t ∧
      t.resets = s.resets ∧ Drops t (.offer 0) ∧ step t (.offer 0) = some t' := by
  obtain ⟨t, hrun, ht, hresets⟩ := fill_run ringCap hs (by omega)
  have hpush : step t (.push 1 Frame.default) =
      some { t with offering := [stamp 1 Frame.default] } := by
    simp [step, ht.accepts, ht.offering]
  have hfull : ringCap ≤ t.ring.shared.q.length := by
    rw [ht.queued]
    omega
  refine ⟨{ t with offering := [stamp 1 Frame.default] }, _, ?_, hresets,
    ⟨0, _, rfl, rfl, hfull⟩, rfl⟩
  exact StepSystem.run_append.mpr ⟨s, h, StepSystem.run_append.mpr
    ⟨t, hrun, StepSystem.run_cons.mpr ⟨_, hpush, rfl⟩⟩⟩

theorem cleared_run : ∃ s, run [.clear] = some s ∧ Filling s 0 ∧ s.resets = 1 :=
  ⟨_, rfl, ⟨rfl, rfl, rfl⟩, rfl⟩

theorem flushed_run : ∃ s, run [.clear, .resetOverflow] = some s ∧ Filling s 0 ∧ s.resets = 0 :=
  ⟨_, rfl, ⟨rfl, rfl, rfl⟩, rfl⟩

/-- The ring runs full after a flush, and the drop stays latched. -/
theorem latched_after_flush :
    ∃ ls s s', run (.clear :: .resetOverflow :: ls) = some s ∧ step s (.offer 0) = some s' ∧
      Latched s' := by
  obtain ⟨s, hrun, hfilling, hresets⟩ := flushed_run
  obtain ⟨t, t', hfull, hkept, hdrop, hstep⟩ := full_run hrun hfilling
  exact ⟨_, t, t', hfull, hstep, (latched_iff hdrop hstep).mpr (hkept.trans hresets)⟩

/-- The ring is refilled, and a frame dropped, before `clear` resets the latch. -/
theorem drop_forgotten :
    ¬ ∀ ls s s' l, run ls = some s → .clear ∈ ls → Drops s l → step s l = some s' →
      Latched s' := by
  intro h
  obtain ⟨s, hrun, hfilling, hresets⟩ := cleared_run
  obtain ⟨t, t', hfull, hkept, hdrop, hstep⟩ := full_run hrun hfilling
  have hpending : t'.resets ≠ 0 := by
    rw [(drop_step hdrop hstep).2, hkept, hresets]
    decide
  exact not_latched hpending (h _ t t' _ hfull (List.mem_cons_self ..) hdrop hstep)

end Kvasilloni.OverrunLatch
