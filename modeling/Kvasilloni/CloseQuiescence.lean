import Kvasilloni.CallbackLock

/-!
`canClose` takes the handle out of the table, and the thread that found it there joins the
RX thread. A thread that finds the handle gone returns at once, and the callback may then
still be running.
-/
namespace Kvasilloni.CloseQuiescence

open StepSystem LockOwner SharedRing Threads CallbackLock

variable {C T : Type}

/-- The RX thread is in its callback, or has read the registration and will enter it. -/
def CallingBack : RxPc → Prop
  | .holding _ _ n => n.Armed
  | .inCallback _ _ => True
  | _ => False

/-- A frame behind the current one may still be pushed. -/
def MayPush : RxPc → Bool → Prop
  | .unborn, _ | .stopped, _ => False
  | .head, running => running = true
  | .receiving, _ | .locking _, _ | .locked _, _ => True
  | .ingesting left, running | .holding left _ _, running | .inCallback left _, running
  | .unlocking left, running => 0 < left ∨ running = true

/-- The registration is armed, or a `canSetNotify` under way will arm it. -/
def Armable (s : System C T) (h : C) : Prop :=
  (s.chans h).notify.Armed ∨ ∃ th n, s.calls th = .swapping h n ∧ n.Armed

/-- The channel will call back no more. -/
def Spent (s : System C T) (h : C) : Prop :=
  ¬ CallingBack (s.chans h).rx ∧
    (¬ Armable s h ∨ ¬ MayPush (s.chans h).rx (s.chans h).running)

/-- No callback is running on a channel for which a `canClose` has returned on another
thread than the channel's own. -/
def Quiescent (s : System C T) : Prop :=
  ∀ th h, (th, h) ∈ s.closed → th ≠ .rx h → (s.chans h).rx.isInCallback = false

/-- A `canClose` on another thread than the channel's own that finds the handle gone finds
a channel that calls back no more. -/
def GoneIsSpent (s : System C T) : Label C T → Prop
  | .canClose th h => th ≠ .rx h → (s.chans h).inTable = false → (s.chans h).rx ≠ .unborn →
      Spent s h
  | _ => True

def noClose : Label C T → Bool
  | .canClose _ _ => false
  | _ => true

theorem goneIsSpent_of_noClose (s : System C T) {l : Label C T} (h : noClose l = true) :
    GoneIsSpent s l := by
  cases l with
  | canClose th b => cases h
  | _ => exact trivial

/-- The channel whose join handle a call has still to take. -/
def closes : CallPc C → Option C
  | .clearing h | .taking h => some h
  | _ => none

/-- The join handle of a channel is there as long as the channel is in the table, and then
until the one call that took it out takes the join handle too. -/
structure Retired (s : System C T) : Prop where
  orderly : Orderly s
  table : ∀ h, (s.chans h).inTable = true → (s.chans h).handle = true
  closing : ∀ th h, closes (s.calls th) = some h →
    (s.chans h).handle = true ∧ (s.chans h).inTable = false
  unique : ∀ th th' h, closes (s.calls th) = some h → closes (s.calls th') = some h → th = th'
  joining : ∀ th h, s.calls th = .joining h → (s.chans h).inTable = false
  gone : ∀ th h, (th, h) ∈ s.closed → (s.chans h).rx ≠ .unborn ∧ (s.chans h).inTable = false
  spent : ∀ th h, (th, h) ∈ s.closed → th ≠ .rx h → Spent s h

theorem init_retired : Retired (System.init : System C T) where
  orderly := init_orderly
  table h htable := by cases htable
  closing th h hcall := by cases hcall
  unique th th' h hcall := by cases hcall
  joining th h hcall := by cases hcall
  gone th h hreturned := absurd hreturned List.not_mem_nil
  spent th h hreturned := absurd hreturned List.not_mem_nil

theorem Retired.quiescent {s : System C T} (h : Retired s) : Quiescent s := by
  intro th b hreturned hother
  have hspent := (h.spent th b hreturned hother).1
  cases hpc : (s.chans b).rx with
  | inCallback left gen =>
    rw [hpc] at hspent
    exact absurd trivial hspent
  | _ => rfl

theorem target_of_closes {pc : CallPc C} {b : C} (h : closes pc = some b) :
    target pc = some b := by
  cases pc with
  | clearing c | taking c => exact h
  | _ => cases h

theorem spent_of_stopped {s : System C T} {h : C} (hrx : (s.chans h).rx = .stopped) :
    Spent s h := by
  unfold Spent
  rw [hrx]
  exact ⟨id, Or.inr id⟩

theorem Spent.mono {s t : System C T} {b : C} (h : Spent s b)
    (hcalling : CallingBack (t.chans b).rx → CallingBack (s.chans b).rx ∨
      Armable s b ∧ MayPush (s.chans b).rx (s.chans b).running)
    (harm : Armable t b → Armable s b)
    (hpush : MayPush (t.chans b).rx (t.chans b).running →
      MayPush (s.chans b).rx (s.chans b).running) : Spent t b := by
  obtain ⟨hnot, hrest⟩ := h
  refine ⟨fun hcall => ?_, ?_⟩
  · rcases hcalling hcall with hbefore | ⟨harmable, hmay⟩
    · exact hnot hbefore
    · rcases hrest with hno | hno
      · exact hno harmable
      · exact hno hmay
  · rcases hrest with hno | hno
    · exact Or.inl fun harmable => hno (harm harmable)
    · exact Or.inr fun hmay => hno (hpush hmay)

theorem mayPush_mono {pc : RxPc} {running running' : Bool}
    (hrunning : running' = true → running = true) (h : MayPush pc running') :
    MayPush pc running := by
  cases pc with
  | head => exact hrunning h
  | ingesting | holding | inCallback | unlocking => exact h.imp_right hrunning
  | unborn | stopped => exact h
  | receiving | locking | locked => exact trivial

/-- The RX thread enters a callback with a frame it may push, and with the registration
armed. -/
theorem rxMove_callingBack {tcp : Bool} {c : C} {idle : Bool} {ch ch' : Chan C T}
    (hmove : RxMove tcp c idle ch ch') (h : CallingBack ch'.rx) :
    CallingBack ch.rx ∨ ch.notify.Armed ∧ MayPush ch.rx ch.running := by
  cases hmove with
  | read left hrx =>
    rw [hrx]
    exact Or.inr ⟨h, trivial⟩
  | enter left gen n hrx harmed =>
    rw [hrx]
    exact Or.inl harmed
  | _ => exact absurd h id

theorem rxMove_mayPush {tcp : Bool} {c : C} {idle : Bool} {ch ch' : Chan C T}
    (hmove : RxMove tcp c idle ch ch') (h : MayPush ch'.rx ch'.running) :
    MayPush ch.rx ch.running := by
  cases hmove with
  | stop => exact absurd h id
  | listen hrx hrunning =>
    rw [hrx]
    exact hrunning
  | ingest hrx | timeout hrx | lock left hrx | read left hrx =>
    rw [hrx]
    exact trivial
  | exhausted hrx =>
    rw [hrx]
    exact Or.inr h
  | queued left hrx | dropped left hrx =>
    rw [hrx]
    exact Or.inl (Nat.succ_pos left)
  | enter left gen n hrx | skip left gen n hrx | callbackReturn left gen hrx
  | unlock left hrx =>
    rw [hrx]
    exact h

variable [DecidableEq C] [DecidableEq T]

/-- A handle that is out of the table stays out. -/
theorem move_gone {tcp : C → Bool} {s t : System C T} {l : Label C T}
    (hmove : Move tcp s l t) {b : C} (hborn : (s.chans b).rx ≠ .unborn)
    (hgone : (s.chans b).inTable = false) : (t.chans b).inTable = false := by
  rw [Bool.eq_false_iff] at hgone ⊢
  exact fun hin => hgone ((move_chan hmove hborn).2.1 hin)

/-- Only `canOpenChannel` puts a handle into the table. -/
theorem move_table {tcp : C → Bool} {s t : System C T} {l : Label C T}
    (hmove : Move tcp s l t) {b : C} (htable : (t.chans b).inTable = true) :
    (s.chans b).inTable = true ∨ (t.chans b).handle = true := by
  have hkeep : (∀ c, (t.chans c).inTable = (s.chans c).inTable) →
      (s.chans b).inTable = true ∨ (t.chans b).handle = true := by
    intro hsame
    exact Or.inl (hsame b ▸ htable)
  cases hmove with
  | canOpenChannel c hrx =>
    by_cases hne : b = c
    · subst hne
      rw [setChan_self]
      exact Or.inr rfl
    · rw [setChan_of_ne s _ hne] at htable
      exact Or.inl htable
  | rx c event ch hmove => exact hkeep (setChan_same Chan.inTable s (rxMove_keeps hmove).1)
  | canClose th c =>
    by_cases hne : b = c
    · subst hne
      rw [setCall_chans, setChan_self] at htable
      cases htable
    · rw [setCall_chans, setChan_of_ne s _ hne] at htable
      exact Or.inl htable
  | writeFails | swapping | draining | drained | clearing | takingOwn | taking =>
    exact hkeep (setChan_same Chan.inTable s rfl)
  | canSetNotify | canCloseGone | refused | undrained | swapped | takingNone | joining =>
    exact hkeep fun _ => rfl

/-- The join handle is taken by a call that has nothing to take then. -/
theorem move_handle {tcp : C → Bool} {s t : System C T} {l : Label C T}
    (hmove : Move tcp s l t) {b : C} (hhandle : (s.chans b).handle = true) :
    (t.chans b).handle = true ∨
      ∃ th, closes (s.calls th) = some b ∧ closes (t.calls th) = none := by
  have hkeep : (∀ c, (t.chans c).handle = (s.chans c).handle) →
      (t.chans b).handle = true ∨
        ∃ th, closes (s.calls th) = some b ∧ closes (t.calls th) = none := by
    intro hsame
    exact Or.inl ((hsame b).trans hhandle)
  have htaken : ∀ {th c}, s.calls th = .taking c → closes (t.calls th) = none →
      (∀ d, d ≠ c → t.chans d = s.chans d) → (t.chans b).handle = true ∨
        ∃ th, closes (s.calls th) = some b ∧ closes (t.calls th) = none := by
    intro th c hcall hnone hother
    by_cases hne : b = c
    · subst hne
      refine Or.inr ⟨th, ?_, hnone⟩
      rw [hcall]
      rfl
    · rw [hother b hne]
      exact Or.inl hhandle
  cases hmove with
  | canOpenChannel c hrx =>
    by_cases hne : b = c
    · subst hne
      rw [setChan_self]
      exact Or.inl rfl
    · rw [setChan_of_ne s _ hne]
      exact Or.inl hhandle
  | rx c event ch hmove => exact hkeep (setChan_same Chan.handle s (rxMove_keeps hmove).2.1)
  | takingOwn th c hcall | taking th c hcall =>
    refine htaken hcall ?_ fun d hne => setChan_of_ne s _ hne
    change closes (Function.update s.calls th _ th) = none
    rw [Function.update_self]
    rfl
  | canClose | writeFails | swapping | draining | drained | clearing =>
    exact hkeep (setChan_same Chan.handle s rfl)
  | canSetNotify | canCloseGone | refused | undrained | swapped | takingNone | joining =>
    exact hkeep fun _ => rfl

theorem closes_update {s : System C T} {th other : Thread C T} {pc : CallPc C} {b : C}
    (hpc : closes pc = none ∨ closes pc = closes (s.calls th))
    (h : closes (Function.update s.calls th pc other) = some b) :
    closes (s.calls other) = some b := by
  by_cases hne : other = th
  · subst hne
    rw [Function.update_self] at h
    rcases hpc with hnone | hsame
    · rw [hnone] at h
      cases h
    · rwa [hsame] at h
  · rwa [Function.update_of_ne hne] at h

/-- A call that has still to take the join handle did so before, or has just taken the
handle out of the table. -/
theorem move_closes {tcp : C → Bool} {s t : System C T} {l : Label C T}
    (hmove : Move tcp s l t) {th : Thread C T} {b : C} (h : closes (t.calls th) = some b) :
    closes (s.calls th) = some b ∨
      l = .canClose th b ∧ (s.chans b).inTable = true ∧ (t.chans b).inTable = false := by
  cases hmove with
  | canClose caller c hmay htable =>
    by_cases hne : th = caller
    · subst hne
      rw [setCall_self] at h
      obtain rfl := Option.some.inj h
      rw [setCall_chans, setChan_self]
      exact Or.inr ⟨rfl, htable, rfl⟩
    · rw [setCall_of_ne _ _ hne] at h
      exact Or.inl h
  | clearing caller c hcall => exact Or.inl (closes_update (Or.inr (hcall ▸ rfl)) h)
  | canOpenChannel | rx | writeFails | canCloseGone | refused => exact Or.inl h
  | canSetNotify | swapping | undrained | swapped | draining | drained | takingNone
  | takingOwn | taking | joining => exact Or.inl (closes_update (Or.inl rfl) h)

theorem joining_update {s : System C T} {th other : Thread C T} {pc : CallPc C} {b : C}
    (hpc : ∀ c, pc ≠ .joining c) (h : Function.update s.calls th pc other = .joining b) :
    s.calls other = .joining b := by
  by_cases hne : other = th
  · subst hne
    rw [Function.update_self] at h
    exact absurd h (hpc b)
  · rwa [Function.update_of_ne hne] at h

theorem move_joining {tcp : C → Bool} {s t : System C T} {l : Label C T}
    (hmove : Move tcp s l t) {th : Thread C T} {b : C} (h : t.calls th = .joining b) :
    s.calls th = .joining b ∨ s.calls th = .taking b := by
  cases hmove with
  | taking caller c hcall =>
    by_cases hne : th = caller
    · subst hne
      rw [setCall_self] at h
      obtain rfl := CallPc.joining.inj h
      exact Or.inr hcall
    · rw [setCall_of_ne _ _ hne] at h
      exact Or.inl h
  | canOpenChannel | rx | writeFails | canCloseGone | refused => exact Or.inl h
  | canSetNotify | canClose | swapping | undrained | swapped | draining | drained | clearing
  | takingNone | takingOwn | joining =>
    exact Or.inl (joining_update (fun _ hpc => by cases hpc) h)

/-- How a `canClose` returns. -/
theorem move_closed {tcp : C → Bool} {s t : System C T} {l : Label C T}
    (hmove : Move tcp s l t) {th : Thread C T} {b : C} (hreturned : (th, b) ∈ t.closed) :
    (th, b) ∈ s.closed ∨
    l = .canClose th b ∧ (s.chans b).inTable = false ∧ (s.chans b).rx ≠ .unborn ∨
    s.calls th = .taking b ∧ ((s.chans b).handle = false ∨ th = .rx b) ∨
    s.calls th = .joining b ∧ (s.chans b).rx = .stopped := by
  cases hmove with
  | canCloseGone caller c hmay htable hopened =>
    rcases List.mem_cons.mp hreturned with heq | hbefore
    · cases heq
      exact Or.inr (Or.inl ⟨rfl, htable, hopened⟩)
    · exact Or.inl hbefore
  | takingNone caller c hcall hhandle =>
    rcases List.mem_cons.mp hreturned with heq | hbefore
    · cases heq
      exact Or.inr (Or.inr (Or.inl ⟨hcall, Or.inl hhandle⟩))
    · exact Or.inl hbefore
  | takingOwn caller c hcall hown =>
    rcases List.mem_cons.mp hreturned with heq | hbefore
    · cases heq
      exact Or.inr (Or.inr (Or.inl ⟨hcall, Or.inr hown⟩))
    · exact Or.inl hbefore
  | joining caller c hcall hstopped =>
    rcases List.mem_cons.mp hreturned with heq | hbefore
    · cases heq
      exact Or.inr (Or.inr (Or.inr ⟨hcall, hstopped⟩))
    · exact Or.inl hbefore
  | _ => exact Or.inl hreturned

/-- Behind the table no registration is armed that was not about to be. -/
theorem move_armable {tcp : C → Bool} {s t : System C T} {l : Label C T}
    (hmove : Move tcp s l t) {b : C} (hborn : (s.chans b).rx ≠ .unborn)
    (hgone : (s.chans b).inTable = false) (h : Armable t b) : Armable s b := by
  have hkeep : (∀ c, (t.chans c).notify = (s.chans c).notify) →
      (∀ th n, t.calls th = .swapping b n → s.calls th = .swapping b n) → Armable s b := by
    intro hnotify hcalls
    rcases h with harmed | ⟨th, n, hcall, harmed⟩
    · rw [hnotify] at harmed
      exact Or.inl harmed
    · exact Or.inr ⟨th, n, hcalls th n hcall, harmed⟩
  have hother : ∀ {caller : Thread C T} {pc : CallPc C}, (∀ n, pc ≠ .swapping b n) →
      ∀ th n, Function.update s.calls caller pc th = .swapping b n →
        s.calls th = .swapping b n := by
    intro caller pc hpc th n hcall
    by_cases hne : th = caller
    · subst hne
      rw [Function.update_self] at hcall
      exact absurd hcall (hpc n)
    · rwa [Function.update_of_ne hne] at hcall
  cases hmove with
  | canOpenChannel c hrx =>
    have hne : b ≠ c := by
      intro hbc
      exact hborn (hbc ▸ hrx)
    rcases h with harmed | hcall
    · rw [setChan_of_ne s _ hne] at harmed
      exact Or.inl harmed
    · exact Or.inr hcall
  | rx c event ch hmove =>
    exact hkeep (setChan_same Chan.notify s (rxMove_keeps hmove).2.2.1) fun _ _ => id
  | canSetNotify caller c n hmay htable =>
    apply hkeep (fun _ => rfl)
    intro th n' hcall
    by_cases hne : th = caller
    · subst hne
      rw [setCall_self] at hcall
      obtain ⟨rfl, -⟩ := CallPc.swapping.inj hcall
      rw [htable] at hgone
      cases hgone
    · rwa [setCall_of_ne _ _ hne] at hcall
  | swapping caller c n hcall =>
    rcases h with harmed | ⟨th, n', hcall', harmed⟩
    · by_cases hne : b = c
      · subst hne
        rw [setCall_chans, setChan_self] at harmed
        exact Or.inr ⟨caller, n, hcall, harmed⟩
      · rw [setCall_chans, setChan_of_ne s _ hne] at harmed
        exact Or.inl harmed
    · have hbefore := hother (fun _ hpc => by cases hpc) th n' hcall'
      exact Or.inr ⟨th, n', hbefore, harmed⟩
  | canCloseGone | refused => exact hkeep (fun _ => rfl) fun _ _ => id
  | writeFails => exact hkeep (setChan_same Chan.notify s rfl) fun _ _ => id
  | canClose | draining | drained | clearing | takingOwn | taking =>
    exact hkeep (setChan_same Chan.notify s rfl) (hother nofun)
  | undrained | swapped | takingNone | joining =>
    exact hkeep (fun _ => rfl) (hother nofun)

theorem move_spent {tcp : C → Bool} {s t : System C T} {l : Label C T}
    (hmove : Move tcp s l t) {b : C} (hborn : (s.chans b).rx ≠ .unborn)
    (hgone : (s.chans b).inTable = false) (h : Spent s b) : Spent t b := by
  obtain ⟨hrx, -, hrunning, -⟩ := move_chan hmove hborn
  have harm := move_armable hmove hborn hgone
  rcases hrx with ⟨idle, hrxMove⟩ | hrx
  · apply h.mono _ harm (rxMove_mayPush hrxMove)
    intro hcalling
    exact (rxMove_callingBack hrxMove hcalling).imp_right (And.imp_left Or.inl)
  · apply h.mono _ harm
    · intro hmay
      rw [hrx] at hmay
      exact mayPush_mono hrunning hmay
    · rw [hrx]
      exact Or.inl

theorem move_retired {tcp : C → Bool} {s t : System C T} {l : Label C T} (h : Retired s)
    (hguard : GoneIsSpent s l) (hmove : Move tcp s l t) : Retired t := by
  have hborn : ∀ {th b}, closes (s.calls th) = some b → (s.chans b).rx ≠ .unborn := by
    intro th b hcloses
    exact h.orderly.born th b (target_of_closes hcloses)
  have hunique : ∀ {th th' b}, closes (t.calls th) = some b → closes (t.calls th') = some b →
      th = th' := by
    intro th th' b hth hth'
    rcases move_closes hmove hth with hbefore | ⟨rfl, hin, -⟩
    · rcases move_closes hmove hth' with hbefore' | ⟨rfl, hin, -⟩
      · exact h.unique th th' b hbefore hbefore'
      · rw [(h.closing th b hbefore).2] at hin
        cases hin
    · rcases move_closes hmove hth' with hbefore' | ⟨hl, -, -⟩
      · rw [(h.closing th' b hbefore').2] at hin
        cases hin
      · exact (Label.canClose.inj hl).1
  -- a call that returns has found its handle out of the table
  have hknown : ∀ {th b}, (th, b) ∈ t.closed →
      (s.chans b).rx ≠ .unborn ∧ (s.chans b).inTable = false := by
    intro th b hreturned
    rcases move_closed hmove hreturned with hbefore | ⟨-, hgone, hb⟩ | ⟨htaking, -⟩ |
      ⟨hjoining, -⟩
    · exact h.gone th b hbefore
    · exact ⟨hb, hgone⟩
    · have hcloses : closes (s.calls th) = some b := by
        rw [htaking]
        rfl
      exact ⟨hborn hcloses, (h.closing th b hcloses).2⟩
    · exact ⟨h.orderly.born th b (by rw [hjoining]; rfl), h.joining th b hjoining⟩
  refine ⟨move_orderly h.orderly hmove, fun b hin => ?_, fun th b hcloses => ?_,
    fun th th' b => hunique, fun th b hjoin => ?_, fun th b hreturned => ?_,
    fun th b hreturned hother => ?_⟩
  · rcases move_table hmove hin with hbefore | hhandle
    · rcases move_handle hmove (h.table b hbefore) with hhandle | ⟨th, hcloses, -⟩
      · exact hhandle
      · rw [(h.closing th b hcloses).2] at hbefore
        cases hbefore
    · exact hhandle
  · rcases move_closes hmove hcloses with hbefore | ⟨-, hin, hgone⟩
    · obtain ⟨hhandle, hgone⟩ := h.closing th b hbefore
      refine ⟨?_, move_gone hmove (hborn hbefore) hgone⟩
      rcases move_handle hmove hhandle with hhandle | ⟨taker, htaker, hnone⟩
      · exact hhandle
      · rw [h.unique taker th b htaker hbefore, hcloses] at hnone
        cases hnone
    · refine ⟨?_, hgone⟩
      rcases move_handle hmove (h.table b hin) with hhandle | ⟨taker, htaker, -⟩
      · exact hhandle
      · rw [(h.closing taker b htaker).2] at hin
        cases hin
  · rcases move_joining hmove hjoin with hbefore | htaking
    · have hb := h.orderly.born th b (by rw [hbefore]; rfl)
      exact move_gone hmove hb (h.joining th b hbefore)
    · have hcloses : closes (s.calls th) = some b := by
        rw [htaking]
        rfl
      exact move_gone hmove (hborn hcloses) (h.closing th b hcloses).2
  · obtain ⟨hb, hgone⟩ := hknown hreturned
    exact ⟨move_born hmove hb, move_gone hmove hb hgone⟩
  · obtain ⟨hb, hgone⟩ := hknown hreturned
    apply move_spent hmove hb hgone
    rcases move_closed hmove hreturned with hbefore | ⟨rfl, -, -⟩ | ⟨htaking, hfound⟩ |
      ⟨-, hstopped⟩
    · exact h.spent th b hbefore hother
    · exact hguard hother hgone hb
    · rcases hfound with hnone | hown
      · rw [(h.closing th b (by rw [htaking]; rfl)).1] at hnone
        cases hnone
      · exact absurd hown hother
    · exact spent_of_stopped hstopped

/-! ### A channel that is not spent -/

/-- Some run from here enters the callback. -/
def CallsBack (tcp : C → Bool) (s : System C T) (b : C) : Prop :=
  ∃ ks u, StepSystem.run (step tcp) s ks = some u ∧ (u.chans b).rx.isInCallback = true ∧
    s.closed ⊆ u.closed

theorem callsBack_of_inCallback {tcp : C → Bool} {s : System C T} {b : C}
    (h : (s.chans b).rx.isInCallback = true) : CallsBack tcp s b :=
  ⟨[], s, rfl, h, List.Subset.refl _⟩

theorem callsBack_of_step {tcp : C → Bool} {s t : System C T} {b : C} (l : Label C T)
    (horderly : Orderly s) (hstep : step tcp s l = some t) (hclosed : s.closed ⊆ t.closed)
    (hrest : Orderly t → CallsBack tcp t b) : CallsBack tcp s b := by
  obtain ⟨ks, u, hrun, hinside, hkept⟩ := hrest (move_orderly horderly (step_move hstep))
  exact ⟨l :: ks, u, run_cons.mpr ⟨t, hstep, hrun⟩, hinside, List.Subset.trans hclosed hkept⟩

/-- The RX thread of the channel takes a step. -/
theorem callsBack_of_rx {tcp : C → Bool} {s : System C T} {b : C} {ch : Chan C T}
    (event : RxEvent) (horderly : Orderly s)
    (hnext : rxNext (tcp b) b (s.calls (.rx b) = .idle) (s.chans b) (s.chans b).rx event =
      some ch)
    (hrest : Orderly (setChan s b ch) → CallsBack tcp (setChan s b ch) b) :
    CallsBack tcp s b := by
  have hstep : step tcp s (.rx b event) = some (setChan s b ch) := by
    simp only [step, hnext, Option.map_some]
  exact callsBack_of_step (.rx b event) horderly hstep (List.Subset.refl _) hrest

theorem callsBack_of_holding {tcp : C → Bool} {s : System C T} {b : C} {left gen : ℕ}
    {n : Notify} (horderly : Orderly s) (hrx : (s.chans b).rx = .holding left gen n)
    (harmed : n.Armed) : CallsBack tcp s b := by
  apply callsBack_of_rx .go horderly
  · rw [hrx]
    exact if_pos harmed
  · intro _
    apply callsBack_of_inCallback
    rw [setChan_self]
    rfl

theorem callsBack_of_locked {tcp : C → Bool} {s : System C T} {b : C} {left : ℕ}
    (horderly : Orderly s) (hrx : (s.chans b).rx = .locked left)
    (harmed : (s.chans b).notify.Armed) : CallsBack tcp s b := by
  apply callsBack_of_rx .go horderly
  · rw [hrx]
    rfl
  · intro h
    exact callsBack_of_holding h (congrArg Chan.rx (setChan_self ..)) harmed

theorem callsBack_of_free {tcp : C → Bool} {s : System C T} {b : C} {left : ℕ}
    (horderly : Orderly s) (hrx : (s.chans b).rx = .locking left)
    (harmed : (s.chans b).notify.Armed) (hfree : (s.chans b).cbActive = none) :
    CallsBack tcp s b := by
  apply callsBack_of_rx .go horderly
  · rw [hrx]
    simp only [rxNext, hfree, Option.isNone_none, if_true]
    rfl
  · intro h
    apply callsBack_of_locked h (congrArg Chan.rx (setChan_self ..))
    rw [setChan_self]
    exact harmed

/-- A `set_notify` that holds `cb_active` gives it back. -/
theorem callsBack_of_locking {tcp : C → Bool} {s : System C T} {b : C} {left : ℕ}
    (horderly : Orderly s) (hrx : (s.chans b).rx = .locking left)
    (harmed : (s.chans b).notify.Armed) : CallsBack tcp s b := by
  cases hactive : (s.chans b).cbActive with
  | none => exact callsBack_of_free horderly hrx harmed hactive
  | some th =>
    have howns := (horderly.locks b th).mpr hactive
    rcases howns with ⟨-, hcritical⟩ | hdrains
    · rw [hrx] at hcritical
      cases hcritical
    · cases hcall : s.calls th with
      | drained c gen =>
        rw [hcall] at hdrains
        obtain rfl := Option.some.inj hdrains
        have hstep : step tcp s (.call th) =
            some (returnNotify (setChan s c { s.chans c with cbActive := none }) th c gen) := by
          simp only [step, hcall, callNext]
        apply callsBack_of_step (.call th) horderly hstep (List.Subset.refl _)
        intro h
        apply callsBack_of_free h
        · rw [returnNotify_chans, setChan_self]
          exact hrx
        · rw [returnNotify_chans, setChan_self]
          exact harmed
        · rw [returnNotify_chans, setChan_self]
      | _ =>
        rw [hcall] at hdrains
        cases hdrains

theorem callsBack_of_frame {tcp : C → Bool} {s : System C T} {b : C} {left : ℕ}
    (horderly : Orderly s) (hrx : (s.chans b).rx = .ingesting (left + 1))
    (harmed : (s.chans b).notify.Armed) : CallsBack tcp s b := by
  apply callsBack_of_rx .go horderly
  · rw [hrx]
    rfl
  · intro h
    apply callsBack_of_locking h (congrArg Chan.rx (setChan_self ..))
    rw [setChan_self]
    exact harmed

theorem callsBack_of_receiving {tcp : C → Bool} {s : System C T} {b : C}
    (horderly : Orderly s) (hrx : (s.chans b).rx = .receiving)
    (harmed : (s.chans b).notify.Armed) : CallsBack tcp s b := by
  apply callsBack_of_rx (.receive 1) horderly
  · rw [hrx]
    exact if_neg fun hmany => absurd hmany.2 (lt_irrefl 1)
  · intro h
    apply callsBack_of_frame h (congrArg Chan.rx (setChan_self ..))
    rw [setChan_self]
    exact harmed

theorem callsBack_of_head {tcp : C → Bool} {s : System C T} {b : C}
    (horderly : Orderly s) (hrx : (s.chans b).rx = .head)
    (harmed : (s.chans b).notify.Armed) (hrunning : (s.chans b).running = true) :
    CallsBack tcp s b := by
  apply callsBack_of_rx .go horderly
  · rw [hrx]
    exact if_pos hrunning
  · intro h
    apply callsBack_of_receiving h (congrArg Chan.rx (setChan_self ..))
    rw [setChan_self]
    exact harmed

theorem callsBack_of_batch {tcp : C → Bool} {s : System C T} {b : C} {left : ℕ}
    (horderly : Orderly s) (hrx : (s.chans b).rx = .ingesting left)
    (harmed : (s.chans b).notify.Armed) (hmay : 0 < left ∨ (s.chans b).running = true) :
    CallsBack tcp s b := by
  cases left with
  | succ left => exact callsBack_of_frame horderly hrx harmed
  | zero =>
    rcases hmay with hleft | hrunning
    · exact absurd hleft (lt_irrefl 0)
    · apply callsBack_of_rx .go horderly
      · rw [hrx]
        rfl
      · intro h
        apply callsBack_of_head h (congrArg Chan.rx (setChan_self ..))
        · rw [setChan_self]
          exact harmed
        · rw [setChan_self]
          exact hrunning

theorem callsBack_of_unlocking {tcp : C → Bool} {s : System C T} {b : C} {left : ℕ}
    (horderly : Orderly s) (hrx : (s.chans b).rx = .unlocking left)
    (harmed : (s.chans b).notify.Armed) (hmay : 0 < left ∨ (s.chans b).running = true) :
    CallsBack tcp s b := by
  apply callsBack_of_rx .go horderly
  · rw [hrx]
    rfl
  · intro h
    apply callsBack_of_batch h (congrArg Chan.rx (setChan_self ..))
    · rw [setChan_self]
      exact harmed
    · rw [setChan_self]
      exact hmay

theorem callsBack_of_mayPush {tcp : C → Bool} {s : System C T} {b : C}
    (horderly : Orderly s) (harmed : (s.chans b).notify.Armed)
    (hmay : MayPush (s.chans b).rx (s.chans b).running) : CallsBack tcp s b := by
  cases hrx : (s.chans b).rx with
  | unborn | stopped =>
    rw [hrx] at hmay
    exact absurd hmay id
  | head =>
    rw [hrx] at hmay
    exact callsBack_of_head horderly hrx harmed hmay
  | receiving => exact callsBack_of_receiving horderly hrx harmed
  | ingesting left =>
    rw [hrx] at hmay
    exact callsBack_of_batch horderly hrx harmed hmay
  | locking left => exact callsBack_of_locking horderly hrx harmed
  | locked left => exact callsBack_of_locked horderly hrx harmed
  | holding left gen n =>
    rw [hrx] at hmay
    by_cases hn : n.Armed
    · exact callsBack_of_holding horderly hrx hn
    · apply callsBack_of_rx .go horderly
      · rw [hrx]
        exact if_neg hn
      · intro h
        apply callsBack_of_unlocking h (congrArg Chan.rx (setChan_self ..))
        · rw [setChan_self]
          exact harmed
        · rw [setChan_self]
          exact hmay
  | inCallback left gen =>
    apply callsBack_of_inCallback
    rw [hrx]
    rfl
  | unlocking left =>
    rw [hrx] at hmay
    exact callsBack_of_unlocking horderly hrx harmed hmay

theorem callsBack_of_not_spent {tcp : C → Bool} {s : System C T} {b : C}
    (horderly : Orderly s) (h : ¬ Spent s b) : CallsBack tcp s b := by
  by_cases hcalling : CallingBack (s.chans b).rx
  · cases hrx : (s.chans b).rx with
    | holding left gen n =>
      rw [hrx] at hcalling
      exact callsBack_of_holding horderly hrx hcalling
    | inCallback left gen =>
      apply callsBack_of_inCallback
      rw [hrx]
      rfl
    | _ =>
      rw [hrx] at hcalling
      exact absurd hcalling id
  · have harmable : Armable s b := by
      by_contra hnot
      exact h ⟨hcalling, Or.inl hnot⟩
    have hmay : MayPush (s.chans b).rx (s.chans b).running := by
      by_contra hnot
      exact h ⟨hcalling, Or.inr hnot⟩
    rcases harmable with harmed | ⟨th, n, hcall, harmed⟩
    · exact callsBack_of_mayPush horderly harmed hmay
    · have hstep : step tcp s (.call th) = callNext s th (.swapping b n) := by
        simp only [step, hcall]
      apply callsBack_of_step (.call th) horderly hstep (List.Subset.refl _)
      intro h
      apply callsBack_of_mayPush h
      · rw [setCall_chans, setChan_self]
        exact harmed
      · rw [setCall_chans, setChan_self]
        exact hmay

/-- In every run in which a `canClose` finds the handle gone only where the channel is
spent, the states are quiescent; and one that finds it gone where the channel is not spent
leads to a state that is not. -/
theorem close_quiescent (tcp : C → Bool) (ls : List (Label C T)) (s : System C T)
    (hrun : run tcp ls = some s) :
    (Guarded (step tcp) GoneIsSpent System.init ls → Quiescent s) ∧
    ∀ l t, step tcp s l = some t → ¬ GoneIsSpent s l →
      ∃ ks u, StepSystem.run (step tcp) t ks = some u ∧ ¬ Quiescent u := by
  refine ⟨fun hguard => ?_, fun l t hstep hgone => ?_⟩
  · have hretired := run_invariant_of_guarded
      (fun s l t h hg hstep => move_retired h hg (step_move hstep)) init_retired hguard hrun
    exact hretired.quiescent
  · have horderly := move_orderly (run_orderly hrun) (step_move hstep)
    cases l with
    | canClose th b =>
      simp only [GoneIsSpent, Classical.not_imp] at hgone
      obtain ⟨hother, htable, hborn, hspent⟩ := hgone
      simp only [step] at hstep
      split at hstep
      · simp only [canClose, htable, Bool.false_eq_true, if_false, if_neg hborn] at hstep
        obtain rfl := Option.some.inj hstep
        obtain ⟨ks, u, hrest, hinside, hkept⟩ := callsBack_of_not_spent horderly hspent
        refine ⟨ks, u, hrest, fun hquiet => ?_⟩
        have hnot := hquiet th b (hkept (List.mem_cons_self ..)) hother
        rw [hnot] at hinside
        cases hinside
      · cases hstep
    | _ => exact absurd trivial hgone

/-- A channel is opened, and the app registers a callback on it. -/
def armed : List (Label Unit Bool) :=
  [.canOpenChannel (), .canSetNotify (.app false) () ⟨1, notifyRx, 0⟩, .call (.app false),
    .call (.app false), .call (.app false), .call (.app false)]

/-- The RX thread receives a frame and enters the callback. -/
def intoCallback : List (Label Unit Bool) :=
  [.rx () .go, .rx () (.receive 1), .rx () .go, .rx () .go, .rx () .go, .rx () .go]

/-- The thread that took the handle out of the table joins the RX thread. -/
def joined : List (Label Unit Bool) :=
  [.call (.app false), .call (.app false), .rx () .go, .call (.app false)]

/-- Of two threads that close the channel, the second returns while the callback runs. -/
theorem close_not_quiescent :
    ¬ ∀ (ls : List (Label Unit Bool)) s, run (fun _ => false) ls = some s → Quiescent s := by
  intro h
  have hquiet := h (armed ++ intoCallback ++
    [.canClose (.app false) (), .canClose (.app true) ()]) _ rfl
    (.app true) () (List.mem_cons_self ..) nofun
  cases hquiet

/-- The second thread finds the RX thread stopped. -/
theorem close_quiescent_twice :
    ∃ s, run (fun _ => false) (armed ++ .canClose (.app false) () ::
        (joined ++ [.canClose (.app true) ()])) = some s ∧
      (.app true, ()) ∈ s.closed ∧ Quiescent s := by
  have hguard : Guarded (step fun _ => false) GoneIsSpent (System.init : System Unit Bool)
      (armed ++ .canClose (.app false) () :: (joined ++ [.canClose (.app true) ()])) := by
    apply guarded_append
    · apply guarded_of_forall
      intro l hl s
      have hall : armed.all noClose = true := rfl
      exact goneIsSpent_of_noClose s (List.all_eq_true.mp hall l hl)
    · intro t hrun
      obtain rfl := Option.some.inj hrun
      refine ⟨fun _ htable => (by cases htable), fun u hclose => ?_⟩
      obtain rfl := Option.some.inj hclose
      apply guarded_append
      · apply guarded_of_forall
        intro l hl s
        have hall : joined.all noClose = true := rfl
        exact goneIsSpent_of_noClose s (List.all_eq_true.mp hall l hl)
      · intro v hrest
        obtain rfl := Option.some.inj hrest
        exact ⟨fun _ _ _ => spent_of_stopped rfl, fun _ _ => trivial⟩
  exact ⟨_, rfl, List.mem_cons_self .., (close_quiescent _ _ _ rfl).1 hguard⟩

end Kvasilloni.CloseQuiescence
