import Kvasilloni.CanBridge
import Kvasilloni.Library.Progress

/-!
A bridge that is told to stop. The timed receive brings a pump back to the test of the stop
event whether frames come in or not, so from the signal on each pump takes at most three more
turns and sends at most one more frame, and it can always take them.
-/
namespace Kvasilloni.BridgeStop

open CanBridge StepSystem

variable {κ μ : Type} [DecidableEq κ]

/-- The turns of a pump that has been told to stop until it has ended. -/
def turns : Point μ → ℕ
  | .test => 1
  | .recv => 3
  | .backOff => 2
  | .send _ => 2
  | .ended _ => 0

/-- The frames that it may still send. -/
def sends : Point μ → ℕ
  | .recv | .send _ => 1
  | .test | .backOff | .ended _ => 0

def isTurn (d : PumpId κ) (_ : System κ μ) : Label κ μ → Bool
  | .pump e _ _ => e == d
  | _ => false

def isSend (d : PumpId κ) (_ : System κ μ) : Label κ μ → Bool
  | .pump e .send _ => e == d
  | _ => false

theorem turns_le (p : Point μ) : turns p ≤ 3 := by
  cases p <;> simp [turns]

theorem sends_le (p : Point μ) : sends p ≤ 1 := by
  cases p <;> simp [sends]

/-! ### One step -/

/-- What a turn of a pump that has been told to stop leaves of its turns and its sends. -/
theorem pump_winds_down {p p' : Pump μ} {act : Act} {sent : Option μ}
    (h : p.step true act = some (p', sent)) :
    turns p'.point + 1 ≤ turns p.point ∧
      (decide (act = .send)).toNat + sends p'.point ≤ sends p.point := by
  cases step_turn h with
  | listen hpoint hstop => cases hstop
  | halt hpoint | recv m rest hpoint | recvNone hpoint | recvFails exc hpoint | wake hpoint
  | send m hpoint | sendFails m exc hpoint => simp [turns, sends, hpoint]
  | recvRaises exc hpoint | sendRaises m exc hpoint => simp [turns, sends, hpoint, Pump.die]

variable {bridges : κ → Bridge}

/-- A turn of a pump: only its own point moves, as it does by itself. -/
theorem turn_point {s s' : System κ μ} {e : PumpId κ} {act : Act} {lost : List (PumpId κ)}
    (h : step bridges s (.pump e act lost) = some s') :
    s'.stop = s.stop ∧ ∃ p sent, (s.pump e).step (s.stop e.1) act = some (p, sent) ∧
      ∀ d, (s'.pump d).point = if d = e then p.point else (s.pump d).point := by
  obtain ⟨⟨p, sent⟩, hpump, rfl⟩ := Option.map_eq_some_iff.mp h
  have hset : ∀ d, ((setPump s e p).pump d).point =
      if d = e then p.point else (s.pump d).point := by
    intro d
    by_cases hd : d = e
    · subst hd
      simp
    · simp [hd]
  cases sent with
  | none => exact ⟨rfl, p, none, hpump, hset⟩
  | some m =>
    refine ⟨rfl, p, some m, hpump, fun d => ?_⟩
    rw [← hset d]
    exact transmit_point _ _ _ _ _ d

theorem step_winds_down {s s' : System κ μ} {l : Label κ μ} (d : PumpId κ)
    (hstop : s.stop d.1 = true) (h : step bridges s l = some s') :
    s'.stop d.1 = true ∧
      (isTurn d s l).toNat + turns (s'.pump d).point ≤ turns (s.pump d).point ∧
      (isSend d s l).toNat + sends (s'.pump d).point ≤ sends (s.pump d).point := by
  cases l with
  | app iface m lost =>
    obtain rfl := Option.some.inj h
    refine ⟨hstop, ?_⟩
    rw [transmit_point]
    simp [isTurn, isSend]
  | signal k =>
    obtain rfl := Option.some.inj h
    refine ⟨?_, by simp [isTurn], by simp [isSend]⟩
    by_cases hk : d.1 = k
    · simp [hk]
    · simp [hk, hstop]
  | pump e act lost =>
    obtain ⟨hsame, p, sent, hpump, hpoint⟩ := turn_point h
    refine ⟨hsame ▸ hstop, ?_⟩
    rw [hpoint d]
    by_cases hd : d = e
    · subst hd
      rw [hstop] at hpump
      obtain ⟨hturns, hsends⟩ := pump_winds_down hpump
      have hone : isSend d s (.pump d act lost) = decide (act = .send) := by
        cases act <;> simp [isSend]
      rw [hone, if_pos rfl]
      refine ⟨?_, hsends⟩
      simp only [isTurn, beq_self_eq_true, Bool.toNat_true]
      omega
    · have hturn : isTurn d s (.pump e act lost) = false := by
        simp [isTurn, Ne.symm hd]
      have hsend : isSend d s (.pump e act lost) = false := by
        cases act <;> simp [isSend, Ne.symm hd]
      rw [hturn, hsend, if_neg hd]
      simp

/-! ### The end -/

/-- What a pump does without a frame coming in: it tests the stop event, its receive times
out, its sleep is over, and it sends what it has in hand. -/
def Unfed (_ : Pump μ) : Act → Prop
  | .test | .recvNone | .wake | .send => True
  | .recv | .recvFails _ | .sendFails _ | .raises _ => False

/-- What it does by itself: it takes what is queued, and only on an empty socket its receive
times out. -/
def Unaided (p : Pump μ) : Act → Prop
  | .test | .wake | .send => True
  | .recv => p.queue ≠ []
  | .recvNone => p.queue = []
  | .recvFails _ | .sendFails _ | .raises _ => False

/-- A pump that has not ended goes on in this way. -/
def Goes (own : Pump μ → Act → Prop) : Prop :=
  ∀ p, (∀ held, p.point ≠ .ended held) →
    ∃ act p' sent, own p act ∧ p.step true act = some (p', sent)

theorem unfed_goes : Goes (Unfed (μ := μ)) := by
  rintro ⟨queue, missed, point, direction⟩ h
  cases point with
  | test => exact ⟨.test, _, _, trivial, rfl⟩
  | recv => exact ⟨.recvNone, _, _, trivial, rfl⟩
  | backOff => exact ⟨.wake, _, _, trivial, rfl⟩
  | send m => exact ⟨.send, _, _, trivial, rfl⟩
  | ended held => exact absurd rfl (h held)

theorem unaided_goes : Goes (Unaided (μ := μ)) := by
  rintro ⟨queue, missed, point, direction⟩ h
  cases point with
  | test => exact ⟨.test, _, _, trivial, rfl⟩
  | recv =>
    cases queue with
    | nil => exact ⟨.recvNone, _, _, rfl, rfl⟩
    | cons m rest => exact ⟨.recv, _, _, List.cons_ne_nil m rest, rfl⟩
  | backOff => exact ⟨.wake, _, _, trivial, rfl⟩
  | send m => exact ⟨.send, _, _, trivial, rfl⟩
  | ended held => exact absurd rfl (h held)

/-- A turn of the one pump, taken in the given way. -/
def TurnOf (own : Pump μ → Act → Prop) (d : PumpId κ) (s : System κ μ) (l : Label κ μ) : Prop :=
  ∃ act, own (s.pump d) act ∧ l = .pump d act []

theorem exists_end {own : Pump μ → Act → Prop} (hown : Goes own) (d : PumpId κ)
    {s : System κ μ} (hstop : s.stop d.1 = true) :
    ∃ ls, ∃ t : System κ μ, Guarded (step bridges) (TurnOf own d) s ls ∧
      run (step bridges) s ls = some t ∧ ∃ held, (t.pump d).point = .ended held := by
  have hstep : ∀ s : System κ μ, s.stop d.1 = true →
      ¬ (∃ held, (s.pump d).point = .ended held) →
      ∃ l s', TurnOf own d s l ∧ step bridges s l = some s' ∧
        s'.stop d.1 = true ∧ turns (s'.pump d).point < turns (s.pump d).point := by
    intro s hs hgoing
    obtain ⟨act, p, sent, hact, hpump⟩ := hown (s.pump d) (not_exists.mp hgoing)
    have hone : ∃ s', step bridges s (.pump d act []) = some s' := by
      simp only [step, hs, hpump, Option.map_some]
      exact ⟨_, rfl⟩
    obtain ⟨s', hone⟩ := hone
    obtain ⟨hs', hturns, -⟩ := step_winds_down d hs hone
    have hturn : isTurn d s (.pump d act []) = true := by simp [isTurn]
    rw [hturn, Bool.toNat_true] at hturns
    exact ⟨_, s', ⟨act, hact, rfl⟩, hone, hs', by omega⟩
  obtain ⟨ls, t, hls, hrun, -, hended⟩ :=
    exists_guarded_run (fun s : System κ μ => turns (s.pump d).point) hstep hstop
  exact ⟨ls, t, hls, hrun, hended⟩

/-- Once a bridge has been told to stop, each of its pumps takes at most three more turns and
sends at most one more frame, however much comes in and whatever the other bridges do; and
turns of the pump alone lead to its end, with no receive that takes a frame or fails and no
exception, and likewise where it takes what is queued and only an empty socket times out. -/
theorem bridge_stops (bridges : κ → Bridge) (s t : System κ μ) (ks : List (Label κ μ))
    (d : PumpId κ) (hstop : s.stop d.1 = true) (hrun : run (step bridges) s ks = some t) :
    countSteps (step bridges) (isTurn d) s ks ≤ 3 ∧
      countSteps (step bridges) (isSend d) s ks ≤ 1 ∧
      (∃ ls, ∃ u : System κ μ, Guarded (step bridges) (TurnOf Unfed d) t ls ∧
        run (step bridges) t ls = some u ∧ ∃ held, (u.pump d).point = .ended held) ∧
      ∃ ls, ∃ u : System κ μ, Guarded (step bridges) (TurnOf Unaided d) t ls ∧
        run (step bridges) t ls = some u ∧ ∃ held, (u.pump d).point = .ended held := by
  have hstep : ∀ (s : System κ μ) l s', s.stop d.1 = true → step bridges s l = some s' →
      s'.stop d.1 = true ∧ _ := fun s l s' => step_winds_down d
  have hturns := countSteps_le_of_invariant (fun s : System κ μ => turns (s.pump d).point)
    (fun s l s' hs hl => ⟨(hstep s l s' hs hl).1, (hstep s l s' hs hl).2.1⟩) hstop hrun
  have hsends := countSteps_le_of_invariant (fun s : System κ μ => sends (s.pump d).point)
    (fun s l s' hs hl => ⟨(hstep s l s' hs hl).1, (hstep s l s' hs hl).2.2⟩) hstop hrun
  have hstill : t.stop d.1 = true :=
    run_invariant (fun s l s' hs hl => (hstep s l s' hs hl).1) hstop hrun
  have hthree := turns_le (s.pump d).point
  have hone := sends_le (s.pump d).point
  exact ⟨by omega, by omega, exists_end unfed_goes d hstill, exists_end unaided_goes d hstill⟩

/-- The signal comes while a pump waits for its first frame. -/
def signalled : List (Label Unit ℕ) := [.pump ((), false) .test [], .signal ()]

def lastTurns : List (Label Unit ℕ) :=
  [.app "vcan0" 7 [], .pump ((), false) .recv [], .app "vcan0" 8 [],
    .pump ((), false) .send [], .pump ((), false) .test []]

theorem bridge_stops_signalled :
    ∃ s t : System Unit ℕ, run (step oneBridge) (start oneBridge) signalled = some s ∧
      run (step oneBridge) s lastTurns = some t ∧
      (t.wire "vcan1").map Prod.snd = [7] ∧
      countSteps (step oneBridge) (isTurn ((), false)) s lastTurns ≤ 3 ∧
      countSteps (step oneBridge) (isSend ((), false)) s lastTurns ≤ 1 := by
  have hruns : ∃ s t : System Unit ℕ,
      run (step oneBridge) (start oneBridge) signalled = some s ∧
      run (step oneBridge) s lastTurns = some t ∧ s.stop () = true ∧
      (t.wire "vcan1").map Prod.snd = [7] := ⟨_, _, rfl, rfl, rfl, by decide⟩
  obtain ⟨s, t, hs, ht, hstop, hwire⟩ := hruns
  have hends := bridge_stops oneBridge s t lastTurns ((), false) hstop ht
  exact ⟨s, t, hs, ht, hwire, hends.1, hends.2.1⟩

end Kvasilloni.BridgeStop
