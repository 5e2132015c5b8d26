import Kvasilloni.CallbackLock

/-!
`set_notify` swaps the registration and then waits for `cb_active`. The wait is left out
on a thread that is inside a callback, of whichever channel, and there a callback that has
been replaced may still be called.
-/
namespace Kvasilloni.NotifyQuiescence

open StepSystem LockOwner SharedRing Threads CallbackLock

variable {C T : Type}

/-- The RX thread is in a callback that was registered before generation `gen`. -/
def Stale (pc : RxPc) (gen : ℕ) : Prop :=
  ∃ left old, pc = .inCallback left old ∧ old < gen

/-- The RX thread is in such a callback, or has read its registration and will enter it. -/
def InHand (pc : RxPc) (gen : ℕ) : Prop :=
  Stale pc gen ∨ ∃ left old n, pc = .holding left old n ∧ n.Armed ∧ old < gen

/-- No callback is running on a channel that was replaced by a `canSetNotify` that has
returned on another thread than the channel's own. -/
def Quiescent (s : System C T) : Prop :=
  ∀ th b gen, (th, b, gen) ∈ s.notified → th ≠ .rx b → ¬ Stale (s.chans b).rx gen

/-- When `set_notify` leaves the drain out on another thread than the channel's own, there
is nothing to drain. -/
def DrainNotNeeded (s : System C T) : Label C T → Prop
  | .call th => ∀ b gen, s.calls th = .swapped b gen → th ≠ .rx b →
      inNotifyCallback s th = true → ¬ InHand (s.chans b).rx gen
  | _ => True

/-- The label is no statement of a call that a callback has made. -/
def outside : Label C T → Bool
  | .call (.rx _) => false
  | _ => true

/-- A thread of the app never leaves the drain out. -/
theorem drainNotNeeded_of_outside (s : System C T) {l : Label C T} (h : outside l = true) :
    DrainNotNeeded s l := by
  cases l with
  | call th =>
    cases th with
    | rx c => cases h
    | app t =>
      intro b gen hcall hother hinside
      cases hinside
  | _ => exact trivial

/-- The swap that a call has made: its channel, and the generation it started. -/
def swapMade : CallPc C → Option (C × ℕ)
  | .swapped b gen | .draining b gen | .drained b gen => some (b, gen)
  | _ => none

theorem target_of_swapMade {pc : CallPc C} {b : C} {gen : ℕ}
    (h : swapMade pc = some (b, gen)) : target pc = some b := by
  cases pc with
  | swapped c g | draining c g | drained c g =>
    obtain ⟨rfl, -⟩ := Prod.mk.inj (Option.some.inj h)
    rfl
  | _ => cases h

/-- The swaps made and the calls returned are known to their channels, and what they have
replaced is out of hand. -/
structure Settled (s : System C T) : Prop where
  orderly : Orderly s
  made : ∀ th b gen, swapMade (s.calls th) = some (b, gen) → gen ≤ (s.chans b).gen
  known : ∀ th b gen, (th, b, gen) ∈ s.notified →
    (s.chans b).rx ≠ .unborn ∧ gen ≤ (s.chans b).gen
  settled : ∀ th b gen, (th, b, gen) ∈ s.notified → th ≠ .rx b → ¬ InHand (s.chans b).rx gen

theorem Settled.quiescent {s : System C T} (h : Settled s) : Quiescent s :=
  fun th b gen hreturned hother hstale => h.settled th b gen hreturned hother (Or.inl hstale)

theorem init_settled : Settled (System.init : System C T) where
  orderly := init_orderly
  made th b gen hmade := by cases hmade
  known th b gen hreturned := absurd hreturned List.not_mem_nil
  settled th b gen hreturned := absurd hreturned List.not_mem_nil

theorem critical_of_inHand {pc : RxPc} {gen : ℕ} (h : InHand pc gen) : pc.critical = true := by
  rcases h with ⟨left, old, hpc, -⟩ | ⟨left, old, n, hpc, -⟩
  · rw [hpc]
    rfl
  · rw [hpc]
    rfl

/-- A registration that is read is of the current generation. -/
theorem rxMove_inHand {tcp : Bool} {c : C} {idle : Bool} {ch ch' : Chan C T} {gen : ℕ}
    (hmove : RxMove tcp c idle ch ch') (hgen : gen ≤ ch.gen) (h : InHand ch'.rx gen) :
    InHand ch.rx gen := by
  rcases h with ⟨left, old, hpc, hold⟩ | ⟨left, old, n, hpc, harmed, hold⟩
  · cases hmove with
    | enter left' gen' n hrx harmed =>
      cases hpc
      exact Or.inr ⟨left, old, n, hrx, harmed, hold⟩
    | _ => cases hpc
  · cases hmove with
    | read left' hrx =>
      cases hpc
      omega
    | _ => cases hpc

/-- While `set_notify` holds `cb_active` nothing is in hand. -/
theorem not_inHand_of_drained {s : System C T} (h : Orderly s) {th : Thread C T} {b : C}
    {gen gen' : ℕ} (hcall : s.calls th = .drained b gen) : ¬ InHand (s.chans b).rx gen' := by
  intro hhand
  have howns : Owns s b th := by
    refine Or.inr ?_
    rw [hcall]
    rfl
  have hrx : Owns s b (.rx b) := Or.inl ⟨rfl, critical_of_inHand hhand⟩
  exact h.app_of_drained hcall b ((h.locks b).exclusive howns hrx)

variable [DecidableEq C] [DecidableEq T]

/-- What is in hand after a step was in hand before. -/
theorem move_inHand {tcp : C → Bool} {s t : System C T} {l : Label C T}
    (hmove : Move tcp s l t) {b : C} {gen : ℕ} (hborn : (s.chans b).rx ≠ .unborn)
    (hgen : gen ≤ (s.chans b).gen) (h : InHand (t.chans b).rx gen) :
    InHand (s.chans b).rx gen := by
  rcases (move_chan hmove hborn).1 with ⟨idle, hrxMove⟩ | hrx
  · exact rxMove_inHand hrxMove hgen h
  · rwa [hrx] at h

theorem swapMade_update {s : System C T} {th other : Thread C T} {pc : CallPc C}
    {p : C × ℕ} (hpc : swapMade pc = none ∨ swapMade pc = swapMade (s.calls th))
    (hmade : swapMade (Function.update s.calls th pc other) = some p) :
    swapMade (s.calls other) = some p := by
  by_cases hne : other = th
  · subst hne
    rw [Function.update_self] at hmade
    rcases hpc with hnone | hsame
    · rw [hnone] at hmade
      cases hmade
    · rwa [hsame] at hmade
  · rwa [Function.update_of_ne hne] at hmade

/-- A swap under way was made before, or has just been made. -/
theorem move_swapMade {tcp : C → Bool} {s t : System C T} {l : Label C T}
    (hmove : Move tcp s l t) {th : Thread C T} {b : C} {gen : ℕ}
    (hmade : swapMade (t.calls th) = some (b, gen)) :
    swapMade (s.calls th) = some (b, gen) ∨ gen = (t.chans b).gen := by
  cases hmove with
  | swapping caller c n hcall =>
    by_cases hne : th = caller
    · subst hne
      rw [setCall_self] at hmade
      obtain ⟨rfl, rfl⟩ := Prod.mk.inj (Option.some.inj hmade)
      rw [setCall_chans, setChan_self]
      exact Or.inr rfl
    · rw [setCall_of_ne _ _ hne] at hmade
      exact Or.inl hmade
  | canOpenChannel | rx | writeFails | canCloseGone | refused => exact Or.inl hmade
  | swapped caller c g hcall | draining caller c g hcall =>
    exact Or.inl (swapMade_update (Or.inr (hcall ▸ rfl)) hmade)
  | canSetNotify | canClose | undrained | drained | clearing | takingNone | takingOwn | taking
  | joining => exact Or.inl (swapMade_update (Or.inl rfl) hmade)

/-- A `canSetNotify` returns from the check of the flag, or from the drain. -/
theorem move_notified {tcp : C → Bool} {s t : System C T} {l : Label C T}
    (hmove : Move tcp s l t) {th : Thread C T} {b : C} {gen : ℕ}
    (hreturned : (th, b, gen) ∈ t.notified) :
    (th, b, gen) ∈ s.notified ∨
    l = .call th ∧ s.calls th = .swapped b gen ∧ inNotifyCallback s th = true ∨
    s.calls th = .drained b gen := by
  cases hmove with
  | undrained caller c g hcall hinside =>
    rcases List.mem_cons.mp hreturned with heq | hbefore
    · cases heq
      exact Or.inr (Or.inl ⟨rfl, hcall, hinside⟩)
    · exact Or.inl hbefore
  | drained caller c g hcall =>
    rcases List.mem_cons.mp hreturned with heq | hbefore
    · cases heq
      exact Or.inr (Or.inr hcall)
    · exact Or.inl hbefore
  | _ => exact Or.inl hreturned

theorem move_settled {tcp : C → Bool} {s t : System C T} {l : Label C T} (h : Settled s)
    (hguard : DrainNotNeeded s l) (hmove : Move tcp s l t) : Settled t := by
  have hmade : ∀ {th b gen}, swapMade (s.calls th) = some (b, gen) →
      (s.chans b).rx ≠ .unborn ∧ gen ≤ (s.chans b).gen := by
    intro th b gen hswap
    exact ⟨h.orderly.born th b (target_of_swapMade hswap), h.made th b gen hswap⟩
  -- a call that returns has made its swap
  have hknown : ∀ {th b gen}, (th, b, gen) ∈ t.notified →
      (s.chans b).rx ≠ .unborn ∧ gen ≤ (s.chans b).gen := by
    intro th b gen hreturned
    rcases move_notified hmove hreturned with hbefore | ⟨-, hcall, -⟩ | hcall
    · exact h.known th b gen hbefore
    · exact hmade (by rw [hcall]; rfl)
    · exact hmade (by rw [hcall]; rfl)
  refine ⟨move_orderly h.orderly hmove, fun th b gen hswap => ?_, fun th b gen hreturned => ?_,
    fun th b gen hreturned hother hhand => ?_⟩
  · rcases move_swapMade hmove hswap with hbefore | hnow
    · obtain ⟨hborn, hle⟩ := hmade hbefore
      exact hle.trans (move_chan hmove hborn).2.2.2
    · exact hnow.le
  · obtain ⟨hborn, hle⟩ := hknown hreturned
    exact ⟨move_born hmove hborn, hle.trans (move_chan hmove hborn).2.2.2⟩
  · obtain ⟨hborn, hle⟩ := hknown hreturned
    have hhand := move_inHand hmove hborn hle hhand
    rcases move_notified hmove hreturned with hbefore | ⟨rfl, hcall, hinside⟩ | hcall
    · exact h.settled th b gen hbefore hother hhand
    · exact hguard b gen hcall hother hinside hhand
    · exact not_inHand_of_drained h.orderly hcall hhand

/-- Where the drain was needed and left out, the RX thread is in the old callback, or is
about to enter it. -/
theorem not_quiescent_of_inHand {tcp : C → Bool} {s : System C T} {th : Thread C T} {b : C}
    {gen : ℕ} (hreturned : (th, b, gen) ∈ s.notified) (hother : th ≠ .rx b)
    (hhand : InHand (s.chans b).rx gen) :
    ∃ ks u, StepSystem.run (step tcp) s ks = some u ∧ ¬ Quiescent u := by
  rcases hhand with hstale | ⟨left, old, n, hpc, harmed, hold⟩
  · exact ⟨[], s, rfl, fun hquiet => hquiet th b gen hreturned hother hstale⟩
  · refine ⟨[.rx b .go], setChan s b { s.chans b with rx := .inCallback left old }, ?_, ?_⟩
    · simp only [StepSystem.run, step, hpc, rxNext, if_pos harmed, Option.map_some]
    · intro hquiet
      apply hquiet th b gen hreturned hother
      rw [setChan_self]
      exact ⟨left, old, rfl, hold⟩

/-- In every run in which the drain is left out only where it is not needed, the states
are quiescent; and a step that leaves it out where it is needed leads to one that is not. -/
theorem set_notify_quiescent (tcp : C → Bool) (ls : List (Label C T)) (s : System C T)
    (hrun : run tcp ls = some s) :
    (Guarded (step tcp) DrainNotNeeded System.init ls → Quiescent s) ∧
    ∀ l t, step tcp s l = some t → ¬ DrainNotNeeded s l →
      ∃ ks u, StepSystem.run (step tcp) t ks = some u ∧ ¬ Quiescent u := by
  refine ⟨fun hguard => ?_, fun l t hstep hneeded => ?_⟩
  · have hsettled := run_invariant_of_guarded
      (fun s l t h hg hstep => move_settled h hg (step_move hstep)) init_settled hguard hrun
    exact hsettled.quiescent
  · cases l with
    | call th =>
      simp only [DrainNotNeeded, not_forall, not_not] at hneeded
      obtain ⟨b, gen, hcall, hother, hinside, hhand⟩ := hneeded
      simp only [step, hcall, callNext, if_pos hinside] at hstep
      obtain rfl := Option.some.inj hstep
      exact not_quiescent_of_inHand (List.mem_cons_self ..) hother hhand
    | _ => exact absurd trivial hneeded

/-- The app registers a callback on a channel. -/
def arm (b : Bool) : List (Label Bool Unit) :=
  [.canSetNotify (.app ()) b ⟨1, notifyRx, 0⟩, .call (.app ()), .call (.app ()),
    .call (.app ()), .call (.app ())]

/-- The RX thread receives a frame and enters the callback. -/
def intoCallback (b : Bool) : List (Label Bool Unit) :=
  [.rx b .go, .rx b (.receive 1), .rx b .go, .rx b .go, .rx b .go, .rx b .go]

/-- Both channels are opened and armed. -/
def armedPair : List (Label Bool Unit) :=
  [.canOpenChannel false, .canOpenChannel true] ++ arm false ++ arm true

/-- From inside its callback the first channel disarms the second. -/
def disarmOther : List (Label Bool Unit) :=
  [.canSetNotify (.rx false) true Notify.default, .call (.rx false), .call (.rx false)]

/-- The second channel is inside its own callback when it is disarmed. -/
theorem set_notify_not_quiescent :
    ¬ ∀ (ls : List (Label Bool Unit)) s, run (fun _ => false) ls = some s → Quiescent s := by
  intro h
  exact h (armedPair ++ intoCallback true ++ intoCallback false ++ disarmOther) _ rfl
    (.rx false) true 2 (List.mem_cons_self ..) nofun ⟨0, 1, rfl, by decide⟩

/-- The second channel has received nothing yet. -/
theorem set_notify_quiescent_idle :
    ∃ s, run (fun _ => false) (armedPair ++ intoCallback false ++ disarmOther) = some s ∧
      ((.rx false, true, 2) ∈ s.notified) ∧ Quiescent s := by
  have hguard : Guarded (step fun _ => false) DrainNotNeeded (System.init : System Bool Unit)
      (armedPair ++ intoCallback false ++ disarmOther) := by
    apply guarded_append
    · apply guarded_of_forall
      intro l hl s
      have hall : (armedPair ++ intoCallback false).all outside = true := rfl
      exact drainNotNeeded_of_outside s (List.all_eq_true.mp hall l hl)
    · intro t hrun
      obtain rfl := Option.some.inj hrun
      refine ⟨trivial, fun s₁ h₁ => ?_⟩
      obtain rfl := Option.some.inj h₁
      refine ⟨fun b gen hcall => (by cases hcall), fun s₂ h₂ => ?_⟩
      obtain rfl := Option.some.inj h₂
      refine ⟨fun b gen hcall hother hinside hhand => ?_, fun s₃ h₃ => trivial⟩
      cases hcall
      cases critical_of_inHand hhand
  exact ⟨_, rfl, List.mem_cons_self .., (set_notify_quiescent _ _ _ rfl).1 hguard⟩

end Kvasilloni.NotifyQuiescence
