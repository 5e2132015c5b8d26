import Kvasilloni.TcpPeers

/-!
The symmetric handshake. Both sides send their banner before they wait for the other one, so
neither waits for bytes that nobody is going to send; and the twelve bytes that a side
compares are the first ones of the other side, whatever it sends behind them.
-/
namespace Kvasilloni.TcpHandshake

open CheckedMemory Frames Grammar Streams TransmitIntegrity TcpPeers
open Transmit hiding step

variable {W C : Type}

def isConnected : Phase W C → Bool
  | .connected _ _ => true
  | .greeting _ | .expecting _ | .refused _ => false

def isRefused : Phase W C → Bool
  | .refused _ => true
  | .greeting _ | .expecting _ | .connected _ _ => false

/-- What the handshake of a side has still to do: the bytes to send and to read, and the
turns between them. -/
def handshakeWork : Phase W C → ℕ
  | .greeting n => (12 - n) + 14
  | .expecting buf => (12 - buf.length) + 1
  | .connected _ _ | .refused _ => 0

def work (s : Peers W C) : ℕ := handshakeWork (s true).phase + handshakeWork (s false).phase

/-- The step is one of a side whose handshake is not over. -/
def duringHandshake (s : Peers W C) (l : Bool × Act W C) : Bool :=
  !isConnected (s l.1).phase

theorem connectV1_length : connectV1.length = 12 := rfl

theorem leave_connected {link : Link W C} {loop : RxLoop} {why : Leaving} {phase : Phase W C}
    (h : leave link loop why = some phase) : isConnected phase = true := by
  obtain ⟨-, -, rfl⟩ := leave_eq h
  rfl

theorem loopGo_connected {link : Link W C} {loop : RxLoop} {phase : Phase W C}
    (h : loopGo link loop = some phase) : isConnected phase = true := by
  unfold loopGo at h
  split at h
  · split at h
    · exact leave_connected h
    · split at h
      · exact leave_connected h
      · obtain rfl := Option.some.inj h
        rfl
  · split at h
    · cases h
    · split at h
      · obtain rfl := Option.some.inj h
        rfl
      · obtain rfl := Option.some.inj h
        rfl
      · exact leave_connected h
      · exact leave_connected h
  · obtain ⟨-, -, rfl⟩ := Option.map_eq_some_iff.mp h
    rfl

theorem work_of_connected {phase : Phase W C} (h : isConnected phase = true) :
    handshakeWork phase = 0 := by
  cases phase with
  | connected link loop => rfl
  | greeting | expecting | refused => cases h

/-- A step of a side leads from the one phase to the other. -/
structure Works (phase phase' : Phase W C) : Prop where
  less : (!isConnected phase).toNat + handshakeWork phase' ≤ handshakeWork phase

theorem works_connected {link : Link W C} {loop : RxLoop} {phase : Phase W C}
    (h : isConnected phase = true) : Works (.connected link loop) phase := by
  constructor
  rw [work_of_connected h]
  exact Nat.le_refl 0

theorem greet_works {phase phase' : Phase W C} {k : ℕ} (h : greet k phase = some phase') :
    Works phase phase' := by
  cases phase with
  | greeting n =>
    simp only [greet] at h
    split at h
    · rename_i hk
      obtain rfl := Option.some.inj h
      have hlen := connectV1_length
      constructor
      simp only [isConnected, handshakeWork, Bool.not_false, Bool.toNat_true]
      omega
    · cases h
  | expecting | connected | refused => cases h

theorem take_works {phase phase' : Phase W C} {piece : Bytes} (hpos : 0 < piece.length)
    (h : take piece phase = some phase') : Works phase phase' := by
  cases phase with
  | expecting buf =>
    simp only [take] at h
    split at h
    · rename_i hroom
      obtain rfl := Option.some.inj h
      constructor
      simp only [isConnected, handshakeWork, List.length_append, Bool.not_false, Bool.toNat_true]
      omega
    · cases h
  | connected link loop =>
    simp only [take] at h
    split at h
    · split at h
      · obtain rfl := Option.some.inj h
        exact works_connected rfl
      · cases h
    · cases h
  | greeting | refused => cases h

theorem go_works {phase phase' : Phase W C} (h : go phase = some phase') :
    Works phase phase' := by
  cases phase with
  | greeting n =>
    simp only [go] at h
    split at h
    · obtain rfl := Option.some.inj h
      constructor
      simp only [isConnected, handshakeWork, List.length_nil, Bool.not_false, Bool.toNat_true]
      omega
    · cases h
  | expecting buf =>
    simp only [go] at h
    split at h
    · split at h
      · obtain rfl := Option.some.inj h
        exact ⟨Nat.le_add_left _ _⟩
      · obtain rfl := Option.some.inj h
        exact ⟨Nat.le_add_left _ _⟩
    · cases h
  | connected link loop => exact works_connected (loopGo_connected h)
  | refused => cases h

theorem fail_works {phase phase' : Phase W C} (h : fail phase = some phase') :
    Works phase phase' := by
  cases phase with
  | greeting n =>
    obtain rfl := Option.some.inj h
    constructor
    simp only [isConnected, handshakeWork, Bool.not_false, Bool.toNat_true]
    omega
  | expecting buf =>
    obtain rfl := Option.some.inj h
    exact ⟨Nat.le_add_left _ _⟩
  | connected link loop =>
    simp only [fail] at h
    split at h
    · split at h
      · exact works_connected (leave_connected h)
      · cases h
    · cases h
  | refused => cases h

/-! ### No side waits in vain -/

/-- The banner of the other side is what a side reads first. -/
theorem expecting_whole {s : Peers W C} (hinv : Inv s) {b : Bool} {buf : Bytes}
    (hb : (s b).phase = .expecting buf) (hwhole : buf.length = 12) : buf = connectV1 := by
  obtain ⟨hread, hphase⟩ := hinv b
  rw [hb] at hphase
  obtain ⟨rfl, -⟩ := hphase
  have hlen := connectV1_length
  rw [List.length_take] at hwhole
  obtain ⟨body, hsent, -⟩ := (hinv (!b)).phase.framed (by omega)
  have htake : (s b).read = connectV1.length := by omega
  rw [hsent, htake, List.take_left]

theorem connect_banner : ∃ link, connect W C connectV1 = some link := ⟨_, rfl⟩

theorem go_expecting {s : Peers W C} (hinv : Inv s) {b : Bool} {buf : Bytes}
    (hb : (s b).phase = .expecting buf) (hwhole : buf.length = 12) :
    ∃ link, go (s b).phase = some (.connected link ⟨primed, .head, []⟩) := by
  obtain ⟨link, hlink⟩ := connect_banner (W := W) (C := C)
  refine ⟨link, ?_⟩
  rw [hb]
  obtain rfl := expecting_whole hinv hb hwhole
  simp only [go, if_pos hwhole, hlink]

theorem go_open {s : Peers W C} (hinv : Inv s) {b : Bool} {phase : Phase W C}
    (h : go (s b).phase = some phase) : isRefused phase = false := by
  cases hb : (s b).phase with
  | greeting n =>
    rw [hb] at h
    simp only [go] at h
    split at h
    · obtain rfl := Option.some.inj h
      rfl
    · cases h
  | expecting buf =>
    have hwhole : buf.length = 12 := by
      rw [hb] at h
      simp only [go] at h
      split at h
      · assumption
      · cases h
    obtain ⟨link, hgo⟩ := go_expecting hinv hb hwhole
    obtain rfl := Option.some.inj (hgo.symm.trans h)
    rfl
  | connected link loop =>
    rw [hb] at h
    have hconnected := loopGo_connected h
    cases phase with
    | refused => cases hconnected
    | greeting | expecting | connected => rfl
  | refused =>
    rw [hb] at h
    cases h

theorem take_open {phase phase' : Phase W C} {piece : Bytes} (h : take piece phase = some phase') :
    isRefused phase' = false := by
  unfold take at h
  split at h
  · split at h
    · obtain rfl := Option.some.inj h
      rfl
    · cases h
  · split at h
    · split at h
      · obtain rfl := Option.some.inj h
        rfl
      · cases h
    · cases h
  · cases h

theorem greet_open {phase phase' : Phase W C} {k : ℕ} (h : greet k phase = some phase') :
    isRefused phase' = false := by
  unfold greet at h
  split at h
  · split at h
    · obtain rfl := Option.some.inj h
      rfl
    · cases h
  · cases h

/-- The states of runs without a failed operation. -/
structure Sound (s : Peers W C) : Prop where
  inv : Inv s
  unrefused : ∀ b, isRefused (s b).phase = false

/-- A side that has sent its banner has put all twelve bytes into the connection. -/
theorem banner_sent {s : Peers W C} (hs : Sound s) {b : Bool}
    (hb : ∀ n, (s b).phase ≠ .greeting n) : 12 ≤ (s b).phase.sent.length := by
  have hphase := (hs.inv b).phase
  have hopen := hs.unrefused b
  have hlen := connectV1_length
  cases hp : (s b).phase with
  | greeting n => exact absurd hp (hb n)
  | expecting buf => exact hlen.ge
  | connected link loop =>
    rw [hp] at hphase
    obtain ⟨tail, hsent, -⟩ := hphase.1.stream
    simp only [Phase.sent, hsent, List.length_append]
    omega
  | refused sent =>
    rw [hp] at hopen
    cases hopen

section Runs

variable [DecidableEq W] [DecidableEq C]

theorem api_works {phase phase' : Phase W C} {l : Label W C} (h : api l phase = some phase') :
    Works phase phase' := by
  cases phase with
  | connected link loop =>
    simp only [api] at h
    split at h
    · cases h
    · obtain ⟨link', -, rfl⟩ := Option.map_eq_some_iff.mp h
      exact works_connected rfl
  | greeting | expecting | refused => cases h

theorem act_works {sent : Bytes} {e e' : Endpoint W C} {a : Act W C}
    (h : act sent e a = some e') : Works e.phase e'.phase := by
  cases a with
  | recv k =>
    simp only [act] at h
    split at h
    · rename_i hk
      obtain ⟨phase', htake, rfl⟩ := Option.map_eq_some_iff.mp h
      refine take_works ?_ htake
      rw [List.length_take, List.length_drop]
      omega
    · cases h
  | greet k =>
    obtain ⟨phase', hphase, rfl⟩ := Option.map_eq_some_iff.mp h
    exact greet_works hphase
  | go =>
    obtain ⟨phase', hphase, rfl⟩ := Option.map_eq_some_iff.mp h
    exact go_works hphase
  | fail =>
    obtain ⟨phase', hphase, rfl⟩ := Option.map_eq_some_iff.mp h
    exact fail_works hphase
  | api l =>
    obtain ⟨phase', hphase, rfl⟩ := Option.map_eq_some_iff.mp h
    exact api_works hphase

theorem step_works {s t : Peers W C} {l : Bool × Act W C} (h : step s l = some t) :
    (duringHandshake s l).toNat + work t ≤ work s := by
  obtain ⟨b, a⟩ := l
  obtain ⟨e, hact, rfl⟩ := Option.map_eq_some_iff.mp h
  have hless := (act_works hact).less
  unfold work duringHandshake
  dsimp only at hless ⊢
  cases b <;> simp only [Function.update_self, Function.update_of_ne, ne_eq, reduceCtorEq,
    not_false_eq_true] <;> omega

theorem api_open {phase phase' : Phase W C} {l : Label W C} (h : api l phase = some phase') :
    isRefused phase' = false := by
  unfold api at h
  split at h
  · split at h
    · cases h
    · obtain ⟨-, -, rfl⟩ := Option.map_eq_some_iff.mp h
      rfl
  · cases h

/-- Only a failed operation leads a side to refuse the other one. -/
theorem act_open {s : Peers W C} (hinv : Inv s) {b : Bool} {a : Act W C} {e : Endpoint W C}
    (ha : a ≠ .fail) (h : act (s (!b)).phase.sent (s b) a = some e) :
    isRefused e.phase = false := by
  cases a with
  | recv k =>
    simp only [act] at h
    split at h
    · obtain ⟨phase', hphase, rfl⟩ := Option.map_eq_some_iff.mp h
      exact take_open hphase
    · cases h
  | greet k =>
    obtain ⟨phase', hphase, rfl⟩ := Option.map_eq_some_iff.mp h
    exact greet_open hphase
  | go =>
    obtain ⟨phase', hphase, rfl⟩ := Option.map_eq_some_iff.mp h
    exact go_open hinv hphase
  | fail => exact absurd rfl ha
  | api l =>
    obtain ⟨phase', hphase, rfl⟩ := Option.map_eq_some_iff.mp h
    exact api_open hphase

theorem step_sound {s t : Peers W C} {l : Bool × Act W C} (hs : Sound s) (hl : l.2 ≠ .fail)
    (h : step s l = some t) : Sound t := by
  refine ⟨step_peers hs.inv h, fun c => ?_⟩
  obtain ⟨b, a⟩ := l
  obtain ⟨e, hact, rfl⟩ := Option.map_eq_some_iff.mp h
  by_cases hc : c = b
  · subst hc
    rw [Function.update_self]
    exact act_open hs.inv hl hact
  · rw [Function.update_of_ne hc]
    exact hs.unrefused c

theorem run_sound {ls : List (Bool × Act W C)} {s : Peers W C} (hls : ∀ l ∈ ls, l.2 ≠ .fail)
    (hrun : StepSystem.run step (start W C) ls = some s) : Sound s := by
  have hguard : StepSystem.Guarded step (fun _ l => l.2 ≠ .fail) (start W C) ls :=
    StepSystem.guarded_of_forall (fun l hl _ => hls l hl) _
  exact StepSystem.run_invariant_of_guarded (fun _ _ _ hs hl h => step_sound hs hl h)
    ⟨start_inv, fun _ => rfl⟩ hguard hrun

theorem greeting_moves {s : Peers W C} (hinv : Inv s) {b : Bool} {n : ℕ}
    (hb : (s b).phase = .greeting n) :
    ∃ a t, a ≠ .fail ∧ step s (b, a) = some t := by
  have hphase := (hinv b).phase
  rw [hb] at hphase
  obtain ⟨hn, -⟩ := hphase
  by_cases hwhole : n = connectV1.length
  · have hgo : go (s b).phase = some (.expecting []) := by
      rw [hb]
      simp only [go, if_pos hwhole]
    obtain ⟨t, hstep, -⟩ := step_go hgo
    exact ⟨.go, t, by simp, hstep⟩
  · have hgreet : act (s (!b)).phase.sent (s b) (.greet 1) =
        some ⟨.greeting (n + 1), (s b).read⟩ := by
      have hroom : 0 < 1 ∧ n + 1 ≤ connectV1.length := by omega
      simp only [act, hb, greet, if_pos hroom, Option.map_some]
    obtain ⟨t, hstep, -⟩ := step_of_act hgreet
    exact ⟨.greet 1, t, by simp, hstep⟩

theorem expecting_moves {s : Peers W C} (hinv : Inv s) {b : Bool} {buf : Bytes}
    (hb : (s b).phase = .expecting buf) (hsent : 12 ≤ (s (!b)).phase.sent.length) :
    ∃ a t, a ≠ .fail ∧ step s (b, a) = some t := by
  obtain ⟨hread, hphase⟩ := hinv b
  rw [hb] at hphase
  obtain ⟨hbuf, hle⟩ := hphase
  by_cases hwhole : buf.length = 12
  · obtain ⟨link, hgo⟩ := go_expecting hinv hb hwhole
    obtain ⟨t, hstep, -⟩ := step_go hgo
    exact ⟨.go, t, by simp, hstep⟩
  · have hlen := congrArg List.length hbuf
    rw [List.length_take] at hlen
    have hone : (((s (!b)).phase.sent.drop (s b).read).take 1).length = 1 := by
      rw [List.length_take, List.length_drop]
      omega
    have hrecv : ∃ e, act (s (!b)).phase.sent (s b) (.recv 1) = some e := by
      simp only [act]
      rw [if_pos ⟨Nat.one_pos, by omega⟩, hb]
      simp only [take, hone]
      rw [if_pos (by omega)]
      exact ⟨_, rfl⟩
    obtain ⟨e, hrecv⟩ := hrecv
    obtain ⟨t, hstep, -⟩ := step_of_act hrecv
    exact ⟨.recv 1, t, by simp, hstep⟩

/-- A side whose handshake is not over has something to do, or waits for bytes that the other
side has still to send, and then that one has something to do. -/
theorem handshake_moves {s : Peers W C} (hs : Sound s) {b : Bool}
    (hb : isConnected (s b).phase = false) :
    ∃ l t, l.2 ≠ .fail ∧ duringHandshake s l = true ∧ step s l = some t := by
  have hself : ∀ c, isConnected (s c).phase = false →
      (∃ a t, a ≠ .fail ∧ step s (c, a) = some t) →
      ∃ l t, l.2 ≠ .fail ∧ duringHandshake s l = true ∧ step s l = some t := by
    rintro c hc ⟨a, t, ha, hstep⟩
    exact ⟨(c, a), t, ha, by simp [duringHandshake, hc], hstep⟩
  have hopen := hs.unrefused b
  cases hp : (s b).phase with
  | greeting n => exact hself b hb (greeting_moves hs.inv hp)
  | expecting buf =>
    by_cases hpeer : ∃ n, (s (!b)).phase = .greeting n
    · obtain ⟨n, hn⟩ := hpeer
      exact hself (!b) (by rw [hn]; rfl) (greeting_moves hs.inv hn)
    · exact hself b hb (expecting_moves hs.inv hp (banner_sent hs (not_exists.mp hpeer)))
  | connected link loop =>
    rw [hp] at hb
    cases hb
  | refused sent =>
    rw [hp] at hopen
    cases hopen

/-- The handshake is over after at most 52 steps of the sides that are not connected yet,
whatever the interleaving. Without a failed operation neither side refuses the other one, not
even if that one sends frames right behind its banner, and as long as a side is not connected
a step is possible that brings the handshake on: the two sides never wait for each other. -/
theorem handshake_settles (ls : List (Bool × Act W C)) (s : Peers W C)
    (hrun : StepSystem.run step (start W C) ls = some s) :
    StepSystem.countSteps step duringHandshake (start W C) ls ≤ 52 ∧
    ((∀ l ∈ ls, l.2 ≠ .fail) →
      (∀ b, isRefused (s b).phase = false) ∧
      ∀ b, isConnected (s b).phase = false →
        ∃ l t, l.2 ≠ .fail ∧ duringHandshake s l = true ∧ step s l = some t) := by
  refine ⟨?_, fun hls => ⟨(run_sound hls hrun).unrefused, fun b hb => ?_⟩⟩
  · have hcount : StepSystem.countSteps step duringHandshake (start W C) ls + work s ≤
        work (start W C) := StepSystem.countSteps_le work (fun _ _ _ h => step_works h) hrun
    have hwork : work (start W C) = 52 := rfl
    omega
  · exact handshake_moves (run_sound hls hrun) hb

/-- One side has sent five bytes of its banner. -/
theorem handshake_settles_begun :
    ∃ s : Peers Unit Unit, isConnected (s true).phase = false ∧
      ∃ l t, l.2 ≠ .fail ∧ duringHandshake s l = true ∧ step s l = some t := by
  have hrun : ∃ s, StepSystem.run step (start Unit Unit) [(true, .greet 5)] = some s ∧
      isConnected (s true).phase = false := ⟨_, rfl, rfl⟩
  obtain ⟨s, hrun, hb⟩ := hrun
  exact ⟨s, hb, ((handshake_settles [(true, .greet 5)] s hrun).2 (by simp)).2 true hb⟩

end Runs

end Kvasilloni.TcpHandshake
