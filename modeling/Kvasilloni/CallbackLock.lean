import Kvasilloni.Threads
import Kvasilloni.Library.LockOwner

/-!
The lock `cb_active`. `push` holds it from before it reads the registration until the
callback has returned, and `set_notify` takes it once it has swapped the registration. In
every state it has one owner, and an RX thread never waits for it but in `push`.
-/
namespace Kvasilloni.CallbackLock

open LockOwner SharedRing Threads

variable {C T : Type}

/-- The channel that a call works on. -/
def target : CallPc C → Option C
  | .idle => none
  | .swapping b _ | .swapped b _ | .draining b _ | .drained b _ => some b
  | .clearing h | .taking h | .joining h => some h

/-- The channel whose drain is over but not given back. -/
def drains : CallPc C → Option C
  | .drained b _ => some b
  | _ => none

/-- The thread is between the lock and the unlock of `cb_active`. -/
def Owns (s : System C T) (b : C) (th : Thread C T) : Prop :=
  th = .rx b ∧ (s.chans b).rx.critical = true ∨ drains (s.calls th) = some b

/-- An RX thread calls from its callback only, and waits for no `cb_active` there but in
`push`; calls reach channels that have been opened; and `cb_active` has one owner. -/
structure Orderly (s : System C T) : Prop where
  inside : ∀ c, s.calls (.rx c) ≠ .idle → (s.chans c).rx.isInCallback = true
  undrained : ∀ c b gen, s.calls (.rx c) ≠ .draining b gen
  undrains : ∀ c, drains (s.calls (.rx c)) = none
  born : ∀ th c, target (s.calls th) = some c → (s.chans c).rx ≠ .unborn
  table : ∀ c, (s.chans c).inTable = true → (s.chans c).rx ≠ .unborn
  locks : ∀ b, Tracks (Owns s b) (s.chans b).cbActive

theorem init_orderly : Orderly (System.init : System C T) where
  inside c hcall := absurd rfl hcall
  undrained c b gen hcall := by cases hcall
  undrains c := rfl
  born th c hcall := by cases hcall
  table c htable := by cases htable
  locks b := by
    apply tracks_none
    intro th howns
    rcases howns with ⟨-, hcritical⟩ | hdrains
    · cases hcritical
    · cases hdrains

theorem target_of_drains {pc : CallPc C} {b : C} (h : drains pc = some b) :
    target pc = some b := by
  cases pc with
  | drained c gen => exact h
  | _ => cases h

/-- An RX thread with a call under way is inside its callback. -/
theorem Orderly.inside_of_call {s : System C T} (h : Orderly s) {th : Thread C T}
    {pc : CallPc C} (hcall : s.calls th = pc) (hpc : pc ≠ .idle) (c : C) (hth : th = .rx c) :
    (s.chans c).rx.isInCallback = true := by
  subst hth
  apply h.inside c
  rw [hcall]
  exact hpc

theorem inside_of_mayCall {s : System C T} {th : Thread C T} (hmay : MayCall s th) (c : C)
    (hth : th = .rx c) : (s.chans c).rx.isInCallback = true := by
  subst hth
  exact hmay.1

theorem calls_of_mayCall {s : System C T} {th : Thread C T} (hmay : MayCall s th) :
    s.calls th = .idle := by
  cases th with
  | rx c => exact hmay.2
  | app t => exact hmay

/-- Only a thread of the app waits for `cb_active` in `set_notify`. -/
theorem Orderly.app_of_draining {s : System C T} (h : Orderly s) {th : Thread C T} {b : C}
    {gen : ℕ} (hcall : s.calls th = .draining b gen) (c : C) : th ≠ .rx c := by
  intro hth
  exact h.undrained c b gen (hth ▸ hcall)

theorem Orderly.app_of_drained {s : System C T} (h : Orderly s) {th : Thread C T} {b : C}
    {gen : ℕ} (hcall : s.calls th = .drained b gen) (c : C) : th ≠ .rx c := by
  intro hth
  have hnone := h.undrains c
  rw [← hth, hcall] at hnone
  cases hnone

theorem Orderly.same {s t : System C T} (h : Orderly s) (hcalls : t.calls = s.calls)
    (hrx : ∀ c, (t.chans c).rx = (s.chans c).rx)
    (hactive : ∀ c, (t.chans c).cbActive = (s.chans c).cbActive)
    (htable : ∀ c, (t.chans c).inTable = (s.chans c).inTable) : Orderly t := by
  refine ⟨fun c hin => ?_, fun c => ?_, fun c => ?_, fun th c htarget => ?_, fun c hin => ?_,
    fun b => ?_⟩
  · rw [hrx]
    exact h.inside c (hcalls ▸ hin)
  · rw [hcalls]
    exact h.undrained c
  · rw [hcalls]
    exact h.undrains c
  · rw [hrx]
    exact h.born th c (hcalls ▸ htarget)
  · rw [hrx]
    exact h.table c (htable c ▸ hin)
  · rw [hactive]
    apply (h.locks b).keep
    intro th
    unfold Owns
    rw [hrx, hcalls]

variable [DecidableEq C]

/-- A step of an RX thread. -/
theorem Orderly.rx {s : System C T} (h : Orderly s) {tcp : Bool} {c : C} {ch : Chan C T}
    (hmove : RxMove tcp c (s.calls (.rx c) = .idle) (s.chans c) ch) :
    Orderly (setChan s c ch) := by
  obtain ⟨htable, -⟩ := rxMove_keeps hmove
  have hborn : ∀ b, (s.chans b).rx ≠ .unborn → ((setChan s c ch).chans b).rx ≠ .unborn := by
    intro b hb
    by_cases hne : b = c
    · subst hne
      rw [setChan_self]
      exact (rxMove_born hmove).2
    · rwa [setChan_of_ne s ch hne]
  refine ⟨fun b hcall => ?_, h.undrained, h.undrains, fun th b htarget => ?_, fun b hin => ?_,
    fun b => ?_⟩
  · by_cases hne : b = c
    · subst hne
      have hidle := rxMove_inside hmove (h.inside b hcall)
      exact absurd (of_decide_eq_true hidle) hcall
    · rw [setChan_of_ne s ch hne]
      exact h.inside b hcall
  · exact hborn b (h.born th b htarget)
  · rw [setChan_same Chan.inTable s htable] at hin
    exact hborn b (h.table b hin)
  · by_cases hne : b = c
    · subst hne
      have hrest : ∀ other, other ≠ .rx b → (Owns (setChan s b ch) b other ↔ Owns s b other) := by
        intro other hother
        unfold Owns
        simp only [hother, false_and, false_or, setChan_calls]
      rw [setChan_self]
      rcases rxMove_section hmove with ⟨hactive, hcritical⟩ | ⟨hfree, hactive, hcritical⟩ |
        ⟨hheld, hactive, hcritical⟩
      · rw [hactive]
        apply (h.locks b).keep
        intro other
        unfold Owns
        rw [setChan_self, hcritical, setChan_calls]
      · rw [hactive]
        have htracks := h.locks b
        rw [hfree] at htracks
        apply htracks.acquire _ hrest
        refine Or.inl ⟨rfl, ?_⟩
        rw [setChan_self]
        exact hcritical
      · rw [hactive]
        have hlocks := h.locks b
        have howner := (hlocks (.rx b)).mp (Or.inl ⟨rfl, hheld⟩)
        rw [howner] at hlocks
        apply hlocks.release _ hrest
        intro howns
        rcases howns with ⟨-, hstill⟩ | hdrains
        · rw [setChan_self, hcritical] at hstill
          cases hstill
        · rw [setChan_calls, h.undrains] at hdrains
          cases hdrains
    · rw [setChan_of_ne s ch hne]
      apply (h.locks b).keep
      intro other
      unfold Owns
      rw [setChan_of_ne s ch hne, setChan_calls]

/-- `canOpenChannel` reaches a channel that nothing works on yet. -/
theorem Orderly.open {s : System C T} (h : Orderly s) {c : C}
    (hrx : (s.chans c).rx = .unborn) : Orderly (setChan s c Chan.opened) := by
  have hborn : ∀ b, (s.chans b).rx ≠ .unborn →
      ((setChan s c Chan.opened).chans b).rx ≠ .unborn := by
    intro b hb
    have hne : b ≠ c := by
      intro hbc
      exact hb (hbc ▸ hrx)
    rwa [setChan_of_ne s _ hne]
  refine ⟨fun b hcall => ?_, h.undrained, h.undrains, fun th b htarget => ?_, fun b hin => ?_,
    fun b => ?_⟩
  · have hne : b ≠ c := by
      intro hbc
      have hinside := h.inside b hcall
      rw [hbc, hrx] at hinside
      cases hinside
    rw [setChan_of_ne s _ hne]
    exact h.inside b hcall
  · exact hborn b (h.born th b htarget)
  · by_cases hne : b = c
    · subst hne
      rw [setChan_self]
      intro hunborn
      cases hunborn
    · rw [setChan_of_ne s _ hne] at hin ⊢
      exact h.table b hin
  · by_cases hne : b = c
    · subst hne
      rw [setChan_self]
      apply tracks_none
      intro th howns
      rcases howns with ⟨-, hcritical⟩ | hdrains
      · rw [setChan_self] at hcritical
        cases hcritical
      · exact h.born th b (target_of_drains hdrains) hrx
    · rw [setChan_of_ne s _ hne]
      apply (h.locks b).keep
      intro other
      unfold Owns
      rw [setChan_of_ne s _ hne, setChan_calls]

variable [DecidableEq T]

/-- A call goes on, with `cb_active` as it is accounted for. -/
theorem Orderly.advance {s t : System C T} (h : Orderly s) {th : Thread C T} {pc : CallPc C}
    (hcalls : t.calls = Function.update s.calls th pc)
    (hrx : ∀ c, (t.chans c).rx = (s.chans c).rx)
    (htable : ∀ c, (t.chans c).inTable = true → (s.chans c).inTable = true)
    (hinside : ∀ c, th = .rx c → (s.chans c).rx.isInCallback = true)
    (hwaits : ∀ c, th = .rx c → (∀ b gen, pc ≠ .draining b gen) ∧ drains pc = none)
    (hborn : ∀ c, target pc = some c → (s.chans c).rx ≠ .unborn)
    (hlocks : ∀ b, Tracks (Owns t b) (t.chans b).cbActive) : Orderly t := by
  have hself : t.calls th = pc := by rw [hcalls, Function.update_self]
  have hother : ∀ other, other ≠ th → t.calls other = s.calls other := by
    intro other hne
    rw [hcalls, Function.update_of_ne hne]
  refine ⟨fun c hcall => ?_, fun c b gen => ?_, fun c => ?_, fun other c htarget => ?_,
    fun c hin => ?_, hlocks⟩
  · rw [hrx]
    by_cases hne : Thread.rx c = th
    · exact hinside c hne.symm
    · rw [hother _ hne] at hcall
      exact h.inside c hcall
  · by_cases hne : Thread.rx c = th
    · rw [hne, hself]
      exact (hwaits c hne.symm).1 b gen
    · rw [hother _ hne]
      exact h.undrained c b gen
  · by_cases hne : Thread.rx c = th
    · rw [hne, hself]
      exact (hwaits c hne.symm).2
    · rw [hother _ hne]
      exact h.undrains c
  · rw [hrx]
    by_cases hne : other = th
    · rw [hne, hself] at htarget
      exact hborn c htarget
    · rw [hother _ hne] at htarget
      exact h.born other c htarget
  · rw [hrx]
    exact h.table c (htable c hin)

/-- A call goes on, and neither takes `cb_active` nor gives it back. -/
theorem Orderly.call {s t : System C T} (h : Orderly s) {th : Thread C T} {pc : CallPc C}
    (hcalls : t.calls = Function.update s.calls th pc)
    (hrx : ∀ c, (t.chans c).rx = (s.chans c).rx)
    (hactive : ∀ c, (t.chans c).cbActive = (s.chans c).cbActive)
    (htable : ∀ c, (t.chans c).inTable = true → (s.chans c).inTable = true)
    (hinside : ∀ c, th = .rx c → (s.chans c).rx.isInCallback = true)
    (hwaits : ∀ c b gen, th = .rx c → pc ≠ .draining b gen)
    (hborn : ∀ c, target pc = some c → (s.chans c).rx ≠ .unborn)
    (hfrom : drains (s.calls th) = none) (hto : drains pc = none) : Orderly t := by
  apply h.advance hcalls hrx htable hinside (fun c hth => ⟨fun b gen => hwaits c b gen hth, hto⟩)
    hborn
  intro b
  rw [hactive]
  apply (h.locks b).keep
  intro other
  unfold Owns
  rw [hrx, hcalls]
  by_cases hne : other = th
  · rw [hne, Function.update_self, hfrom, hto]
  · rw [Function.update_of_ne hne]

/-- `set_notify` takes `cb_active`. -/
theorem Orderly.drain {s t : System C T} (h : Orderly s) {th : Thread C T} {b : C} {gen : ℕ}
    (hcall : s.calls th = .draining b gen) (hfree : (s.chans b).cbActive = none)
    (hcalls : t.calls = Function.update s.calls th (.drained b gen))
    (hchans : t.chans = (setChan s b { s.chans b with cbActive := some th }).chans) :
    Orderly t := by
  have hrx : ∀ c, (t.chans c).rx = (s.chans c).rx := by
    rw [hchans]
    exact setChan_same Chan.rx s rfl
  have htable : ∀ c, (t.chans c).inTable = (s.chans c).inTable := by
    rw [hchans]
    exact setChan_same Chan.inTable s rfl
  apply h.advance hcalls hrx (fun c hin => htable c ▸ hin)
    (fun c hth => absurd hth (h.app_of_draining hcall c))
    (fun c hth => absurd hth (h.app_of_draining hcall c))
  · intro c htarget
    apply h.born th c
    rw [hcall]
    exact htarget
  · intro c
    have hother : ∀ other, other ≠ th → (Owns t c other ↔ Owns s c other) := by
      intro other hne
      unfold Owns
      rw [hrx, hcalls, Function.update_of_ne hne]
    by_cases hne : c = b
    · subst hne
      have htracks := h.locks c
      rw [hfree] at htracks
      rw [hchans, setChan_self]
      apply htracks.acquire _ hother
      refine Or.inr ?_
      rw [hcalls, Function.update_self]
      rfl
    · rw [hchans, setChan_of_ne s _ hne]
      apply (h.locks c).keep
      intro other
      by_cases hself : other = th
      · subst hself
        unfold Owns
        rw [hrx, hcalls, Function.update_self, hcall]
        refine or_congr_right ⟨fun hdrains => ?_, fun hdrains => by cases hdrains⟩
        exact absurd (Option.some.inj hdrains).symm hne
      · exact hother other hself

/-- `set_notify` gives `cb_active` back. -/
theorem Orderly.release {s t : System C T} (h : Orderly s) {th : Thread C T} {b : C}
    {gen : ℕ} (hcall : s.calls th = .drained b gen)
    (hcalls : t.calls = Function.update s.calls th .idle)
    (hchans : t.chans = (setChan s b { s.chans b with cbActive := none }).chans) :
    Orderly t := by
  have hrx : ∀ c, (t.chans c).rx = (s.chans c).rx := by
    rw [hchans]
    exact setChan_same Chan.rx s rfl
  have htable : ∀ c, (t.chans c).inTable = (s.chans c).inTable := by
    rw [hchans]
    exact setChan_same Chan.inTable s rfl
  have hnot : ∀ c, ¬ Owns t c th := by
    intro c howns
    rcases howns with ⟨hth, -⟩ | hdrains
    · exact h.app_of_drained hcall c hth
    · rw [hcalls, Function.update_self] at hdrains
      cases hdrains
  apply h.advance hcalls hrx (fun c hin => htable c ▸ hin)
    (fun c hth => absurd hth (h.app_of_drained hcall c))
    (fun c hth => absurd hth (h.app_of_drained hcall c))
    (fun c htarget => by cases htarget)
  intro c
  have hother : ∀ other, other ≠ th → (Owns t c other ↔ Owns s c other) := by
    intro other hne
    unfold Owns
    rw [hrx, hcalls, Function.update_of_ne hne]
  by_cases hne : c = b
  · subst hne
    have htracks := h.locks c
    have howner : (s.chans c).cbActive = some th := by
      apply (htracks th).mp
      refine Or.inr ?_
      rw [hcall]
      rfl
    rw [howner] at htracks
    rw [hchans, setChan_self]
    exact htracks.release (hnot c) hother
  · rw [hchans, setChan_of_ne s _ hne]
    apply (h.locks c).keep
    intro other
    by_cases hself : other = th
    · subst hself
      refine ⟨fun howns => absurd howns (hnot c), fun howns => ?_⟩
      rcases howns with ⟨hth, -⟩ | hdrains
      · exact absurd hth (h.app_of_drained hcall c)
      · rw [hcall] at hdrains
        exact absurd (Option.some.inj hdrains).symm hne
    · exact hother other hself

/-- A call that is under way goes on with its channel, or returns. -/
theorem Orderly.goOn {s t : System C T} (h : Orderly s) {th : Thread C T} {pc pc' : CallPc C}
    (hcall : s.calls th = pc) (hcalls : t.calls = Function.update s.calls th pc')
    (hrx : ∀ c, (t.chans c).rx = (s.chans c).rx)
    (hactive : ∀ c, (t.chans c).cbActive = (s.chans c).cbActive)
    (htable : ∀ c, (t.chans c).inTable = (s.chans c).inTable)
    (hpc : pc ≠ .idle) (htarget : target pc' = none ∨ target pc' = target pc)
    (hfrom : drains pc = none) (hto : drains pc' = none)
    (hwaits : ∀ c b gen, th = .rx c → pc' ≠ .draining b gen) : Orderly t := by
  apply h.call hcalls hrx hactive (fun c hin => htable c ▸ hin) (h.inside_of_call hcall hpc)
    hwaits _ (hcall ▸ hfrom) hto
  intro c hc
  apply h.born th c
  rcases htarget with hnone | hsame
  · rw [hnone] at hc
    cases hc
  · rw [hcall, ← hsame]
    exact hc

theorem move_orderly {tcp : C → Bool} {s t : System C T} {l : Label C T} (h : Orderly s)
    (hmove : Move tcp s l t) : Orderly t := by
  cases hmove with
  | canOpenChannel c hrx => exact h.open hrx
  | rx c event ch hmove => exact h.rx hmove
  | writeFails c =>
    exact h.same rfl (setChan_same Chan.rx s rfl) (setChan_same Chan.cbActive s rfl)
      (setChan_same Chan.inTable s rfl)
  | canSetNotify th b n hmay htable =>
    refine h.call rfl (fun _ => rfl) (fun _ => rfl) (fun _ => id) (inside_of_mayCall hmay)
      (fun _ _ _ _ hpc => by cases hpc) (fun c htarget => ?_) ?_ rfl
    · obtain rfl := Option.some.inj htarget
      exact h.table b htable
    · rw [calls_of_mayCall hmay]
      rfl
  | canClose th b hmay htable =>
    refine h.call rfl (setChan_same Chan.rx s rfl) (setChan_same Chan.cbActive s rfl)
      (fun c hin => ?_) (inside_of_mayCall hmay) (fun _ _ _ _ hpc => by cases hpc)
      (fun c htarget => ?_) ?_ rfl
    · by_cases hne : c = b
      · exact hne ▸ htable
      · rwa [setCall_chans, setChan_of_ne s _ hne] at hin
    · obtain rfl := Option.some.inj htarget
      exact h.table b htable
    · rw [calls_of_mayCall hmay]
      rfl
  | canCloseGone th b hmay htable hopened =>
    exact h.same rfl (fun _ => rfl) (fun _ => rfl) (fun _ => rfl)
  | refused l => exact h
  | swapping th b n hcall =>
    exact h.goOn hcall rfl (setChan_same Chan.rx s rfl) (setChan_same Chan.cbActive s rfl)
      (setChan_same Chan.inTable s rfl) nofun (Or.inr rfl) rfl rfl nofun
  | undrained th b gen hcall hinside =>
    exact h.goOn hcall rfl (fun _ => rfl) (fun _ => rfl) (fun _ => rfl) nofun (Or.inl rfl)
      rfl rfl nofun
  | swapped th b gen hcall houtside =>
    refine h.goOn hcall rfl (fun _ => rfl) (fun _ => rfl) (fun _ => rfl) nofun (Or.inr rfl)
      rfl rfl (fun c _ _ hth _ => ?_)
    have hinside := h.inside_of_call hcall nofun c hth
    subst hth
    have hnot : (s.chans c).rx.isInCallback = false := houtside
    rw [hnot] at hinside
    cases hinside
  | draining th b gen hcall hfree => exact h.drain hcall hfree rfl rfl
  | drained th b gen hcall => exact h.release hcall rfl rfl
  | clearing th b hcall | taking th b hcall =>
    exact h.goOn hcall rfl (setChan_same Chan.rx s rfl) (setChan_same Chan.cbActive s rfl)
      (setChan_same Chan.inTable s rfl) nofun (Or.inr rfl) rfl rfl nofun
  | takingOwn th b hcall hown =>
    exact h.goOn hcall rfl (setChan_same Chan.rx s rfl) (setChan_same Chan.cbActive s rfl)
      (setChan_same Chan.inTable s rfl) nofun (Or.inl rfl) rfl rfl nofun
  | takingNone th b hcall | joining th b hcall =>
    exact h.goOn hcall rfl (fun _ => rfl) (fun _ => rfl) (fun _ => rfl) nofun (Or.inl rfl)
      rfl rfl nofun

theorem run_orderly {tcp : C → Bool} {s : System C T} {ls : List (Label C T)}
    (hrun : run tcp ls = some s) : Orderly s :=
  StepSystem.run_invariant (fun _ _ _ h hstep => move_orderly h (step_move hstep))
    init_orderly hrun

end Kvasilloni.CallbackLock
