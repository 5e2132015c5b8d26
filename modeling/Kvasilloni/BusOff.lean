import Kvasilloni.CloseWakes
import Kvasilloni.Library.Projection
import Kvasilloni.TeardownOrder

/-!
What the lost link on the status word stands for. The loop latches it behind its swap, and
only where the swap came first; by then every frame it has decoded has gone through `push`.
What the filter let pass and the ring had room for has been queued. The loop is over, so
nothing is queued any more, and a reader that drains the ring has everything that was ever
queued.
-/
namespace Kvasilloni.BusOff

open Frames Streams SharedRing TeardownOrder
open TcpLink hiding Ending
open WaitingReaders hiding step run Label offerFrame
open CloseWakes (Accounts accounts_refl move_accounts)

variable {W C : Type}

/-! ### What the loop has decoded -/

/-- The frame that is decoded and has not been offered to the ring. -/
def pending : RxPc → List Frame
  | .filtering f _ => [f]
  | .offering f _ _ => [f]
  | _ => []

/-- Behind a frame the loop starts the next one. -/
def Fresh : RxPc → Prop
  | .filtering _ next => next = some primed
  | .offering _ _ next => next = some primed
  | .notifying next => next = some primed
  | .calling next => next = some primed
  | _ => True

structure Streaming (s : Link W C) : Prop where
  decoder : Expecting s.decoder
  fresh : Fresh s.rx
  decodes : s.ending ≠ some .broken
  delivered : s.decoded = s.offered ++ pending s.rx

theorem opened_streaming : Streaming (opened W C) :=
  ⟨primed_expecting, trivial, fun h => (by cases h), rfl⟩

theorem Streaming.settled {s : Link W C} (h : Streaming s) (hrx : pending s.rx = []) :
    s.decoded = s.offered := by
  rw [h.delivered, hrx, List.append_nil]

theorem streaming_leave {s : Link W C} (hinv : Streaming s) (hrx : pending s.rx = [])
    {e : TcpLink.Ending} (he : e ≠ .broken) : Streaming (leave s e) :=
  ⟨hinv.decoder, trivial, fun h => he (Option.some.inj h),
    (hinv.settled hrx).trans (List.append_nil _).symm⟩

theorem streaming_resume {s : Link W C} {next : Option RxStream} (hnext : next = some primed)
    (hdecodes : s.ending ≠ some .broken) (hsettled : s.decoded = s.offered) :
    Streaming (resume s next) := by
  rw [hnext]
  exact ⟨primed_expecting, trivial, hdecodes, hsettled.trans (List.append_nil _).symm⟩

theorem rxMove_streaming {s s' : Link W C} (hinv : Streaming s) (hmove : RxMove s s') :
    Streaming s' := by
  have hfresh := hinv.fresh
  have hdelivered := hinv.delivered
  cases hmove with
  | stopped hrx | undecodable hrx | readError hrx =>
    exact streaming_leave hinv (by rw [hrx]; rfl) (by decide)
  | broken hrx hneed =>
    have hpos := hinv.decoder.pos
    have hle := hinv.decoder.le
    omega
  | listen hrx =>
    exact ⟨hinv.decoder, trivial, hinv.decodes, by rw [hdelivered, hrx]; rfl⟩
  | next hrx bytes hlen rx hnext =>
    exact ⟨rxChunk_expecting hinv.decoder hnext, trivial, hinv.decodes,
      by rw [hdelivered, hrx]; rfl⟩
  | decode hrx bytes f next hpush =>
    refine ⟨hinv.decoder, rxChunk_push hpush, hinv.decodes, ?_⟩
    show s.decoded ++ [f] = s.offered ++ [f]
    rw [hinv.settled (by rw [hrx]; rfl)]
  | accept f next hrx now =>
    rw [hrx] at hfresh hdelivered
    exact ⟨hinv.decoder, hfresh, hinv.decodes, hdelivered⟩
  | reject f next hrx =>
    rw [hrx] at hfresh hdelivered
    exact streaming_resume hfresh hinv.decodes hdelivered
  | enqueue f now next hrx =>
    rw [hrx] at hfresh hdelivered
    exact ⟨hinv.decoder, hfresh, hinv.decodes, hdelivered.trans (List.append_nil _).symm⟩
  | overrun f now next hrx =>
    rw [hrx] at hfresh hdelivered
    exact streaming_resume hfresh hinv.decodes hdelivered
  | notify next hrx target ring hnotify =>
    rw [hrx] at hfresh hdelivered
    exact ⟨hinv.decoder, hfresh, hinv.decodes, hdelivered⟩
  | called next hrx =>
    rw [hrx] at hfresh
    exact streaming_resume hfresh hinv.decodes (hinv.settled (by rw [hrx]; rfl))
  | swap hrx | late hrx | clear hrx | latch hrx | close hrx | wake hrx =>
    exact ⟨hinv.decoder, trivial, hinv.decodes, by rw [hdelivered, hrx]; rfl⟩

theorem others_streaming {s s' : Link W C} (hinv : Streaming s) (h : Others s s') :
    Streaming s' := by
  refine ⟨?_, ?_, ?_, ?_⟩
  · rw [h.decoder]
    exact hinv.decoder
  · rw [h.rx]
    exact hinv.fresh
  · rw [h.ending]
    exact hinv.decodes
  · rw [h.decoded, h.offered, h.rx]
    exact hinv.delivered

theorem pending_of_stage {pc : RxPc} (h : 1 ≤ stage pc) : pending pc = [] := by
  cases pc with
  | filtering f next | offering f now next => exact absurd h (Nat.not_succ_le_zero 0)
  | _ => rfl

/-- A loop that is over neither decodes nor queues a frame. -/
theorem rxMove_over {s s' : Link W C} (hmove : RxMove s s') (h : 1 ≤ stage s.rx) :
    1 ≤ stage s'.rx ∧ s'.decoded = s.decoded ∧ s'.ring.entered = s.ring.entered ∧
      (s.ring.shared.linkLost = true → s'.ring.shared.linkLost = true) := by
  rcases rxMove_cases hmove with hworking | ⟨-, -, rfl⟩ | ⟨-, -, rfl⟩ | ⟨-, rfl⟩ | ⟨-, rfl⟩ |
    ⟨-, rfl⟩ | ⟨-, rfl⟩
  · have hstart := hworking.start
    omega
  · exact ⟨Nat.succ_pos _, rfl, rfl, id⟩
  · exact ⟨Nat.succ_pos _, rfl, rfl, id⟩
  · exact ⟨Nat.succ_pos _, rfl, rfl, id⟩
  · exact ⟨Nat.succ_pos _, rfl, rfl, fun _ => rfl⟩
  · exact ⟨Nat.succ_pos _, rfl, rfl, id⟩
  · exact ⟨Nat.succ_pos _, rfl, rfl, id⟩

variable [DecidableEq W] [DecidableEq C]

theorem step_streaming {s s' : Link W C} {l : Label W C} (hinv : Streaming s)
    (h : step s l = some s') : Streaming s' := by
  rcases step_cases h with hmove | hothers
  · exact rxMove_streaming hinv hmove
  · exact others_streaming hinv hothers

theorem run_streaming {ls : List (Label W C)} {s : Link W C} (h : run ls = some s) :
    Streaming s :=
  StepSystem.run_invariant (fun _ _ _ hinv hstep => step_streaming hinv hstep)
    opened_streaming h

/-- What stays as it is once the loop is over. -/
structure Over (s t : Link W C) : Prop where
  stage : 1 ≤ stage t.rx
  decoded : t.decoded = s.decoded
  entered : t.ring.entered = s.ring.entered
  linkLost : s.ring.shared.linkLost = true → t.ring.shared.linkLost = true

theorem step_over {s t t' : Link W C} {l : Label W C} (hinv : Over s t)
    (h : step t l = some t') : Over s t' := by
  rcases step_cases h with hmove | hothers
  · obtain ⟨hstage, hdecoded, hentered, hlost⟩ := rxMove_over hmove hinv.stage
    exact ⟨hstage, hdecoded.trans hinv.decoded, hentered.trans hinv.entered,
      fun h => hlost (hinv.linkLost h)⟩
  · refine ⟨?_, hothers.decoded.trans hinv.decoded, hothers.entered.trans hinv.entered,
      fun h => hothers.linkLost.trans (hinv.linkLost h)⟩
    rw [hothers.rx]
    exact hinv.stage

theorem run_over {ks : List (Label W C)} {s t : Link W C} (hs : 1 ≤ stage s.rx)
    (h : StepSystem.run step s ks = some t) : Over s t :=
  StepSystem.run_invariant (fun _ _ _ hinv hstep => step_over hinv hstep)
    ⟨hs, rfl, rfl, id⟩ h

/-! ### What the ring has got -/

/-- The frame that a step is done with, and what the ring gets of it: nothing if the filter
refuses the frame or the ring is full, else the frame with its timestamp. -/
def fate (s : Link W C) : Label W C → List (Frame × Option Frame)
  | .rx (.stamp _) =>
    match s.rx with
    | .filtering f _ => if s.ring.shared.filters.accepts f then [] else [(f, none)]
    | _ => []
  | .rx .go =>
    match s.rx with
    | .offering f now _ =>
      [(f, if s.ring.shared.q.length < ringCap then some (stamp now f) else none)]
    | _ => []
  | _ => []

/-- The frames that a run is done with, in their order. -/
def fates (ls : List (Label W C)) : List (Frame × Option Frame) :=
  StepSystem.shown step fate (opened W C) ls

/-- The frames offered so far are those that have met their fate, and the frames queued so
far are what the ring got of them. -/
structure Settled (s : Link W C) (fs : List (Frame × Option Frame)) : Prop where
  offered : s.offered = fs.map Prod.fst
  entered : s.ring.entered = fs.filterMap Prod.snd

omit [DecidableEq W] [DecidableEq C] in
theorem Settled.snoc {s s' : Link W C} {fs new : List (Frame × Option Frame)}
    (hinv : Settled s fs) (hoffered : s'.offered = s.offered ++ new.map Prod.fst)
    (hentered : s'.ring.entered = s.ring.entered ++ new.filterMap Prod.snd) :
    Settled s' (fs ++ new) :=
  ⟨by rw [hoffered, hinv.offered, List.map_append],
    by rw [hentered, hinv.entered, List.filterMap_append]⟩

omit [DecidableEq W] [DecidableEq C] in
theorem Settled.keep {s s' : Link W C} {fs : List (Frame × Option Frame)} (hinv : Settled s fs)
    (hoffered : s'.offered = s.offered) (hentered : s'.ring.entered = s.ring.entered) :
    Settled s' (fs ++ []) :=
  hinv.snoc (hoffered.trans (List.append_nil _).symm) (hentered.trans (List.append_nil _).symm)

omit [DecidableEq W] [DecidableEq C] in
theorem settled_resume {s : Link W C} {fs : List (Frame × Option Frame)}
    (next : Option RxStream) (hinv : Settled s fs) : Settled (resume s next) fs := by
  cases next <;> exact ⟨hinv.offered, hinv.entered⟩

omit [DecidableEq W] [DecidableEq C] in
theorem filterFrame_settled {s : Link W C} {fs : List (Frame × Option Frame)}
    (hinv : Settled s fs) {f : Frame} {next : Option RxStream} (hrx : s.rx = .filtering f next)
    (now : UInt64) : Settled (filterFrame s f now next) (fs ++ fate s (.rx (.stamp now))) := by
  have hfate : fate s (.rx (.stamp now)) =
      if s.ring.shared.filters.accepts f then [] else [(f, none)] := by
    simp only [fate, hrx]
  rw [hfate, filterFrame]
  split
  · exact hinv.keep rfl rfl
  · exact settled_resume _ (hinv.snoc rfl (List.append_nil _).symm)

omit [DecidableEq W] [DecidableEq C] in
theorem offerFrame_settled {s : Link W C} {fs : List (Frame × Option Frame)}
    (hinv : Settled s fs) {f : Frame} {now : UInt64} {next : Option RxStream}
    (hrx : s.rx = .offering f now next) :
    Settled (offerFrame s f now next) (fs ++ fate s (.rx .go)) := by
  have hfate : fate s (.rx .go) =
      [(f, if s.ring.shared.q.length < ringCap then some (stamp now f) else none)] := by
    simp only [fate, hrx]
  rw [hfate]
  by_cases hfull : s.ring.shared.q.length ≥ ringCap
  · simp only [offerFrame, Ring.offer, Shared.enqueue, hfull, ↓reduceIte, Nat.not_lt.mpr hfull]
    exact settled_resume _ (hinv.snoc rfl (List.append_nil _).symm)
  · simp only [offerFrame, Ring.offer, Shared.enqueue, hfull, ↓reduceIte, Nat.lt_of_not_ge hfull]
    exact hinv.snoc rfl rfl

omit [DecidableEq W] [DecidableEq C] in
/-- With no frame in hand the loop neither is done with one nor queues one. -/
theorem rxMove_settled {s s' : Link W C} {fs : List (Frame × Option Frame)}
    (hinv : Settled s fs) (hmove : RxMove s s') (hpending : pending s.rx = []) :
    Settled s' fs := by
  cases hmove with
  | accept f next hrx | reject f next hrx | enqueue f now next hrx | overrun f now next hrx =>
    rw [hrx] at hpending
    cases hpending
  | called next hrx => exact settled_resume next hinv
  | notify next hrx target ring hnotify =>
    exact ⟨hinv.offered, (notifyOne_reads hnotify).entered.trans hinv.entered⟩
  | stopped | broken | listen | next | decode | undecodable | readError | swap | late | clear
  | latch | close | wake => exact ⟨hinv.offered, hinv.entered⟩

theorem rxStep_settled {s s' : Link W C} {fs : List (Frame × Option Frame)} {event : RxEvent}
    (hinv : Settled s fs) (h : step s (.rx event) = some s') :
    Settled s' (fs ++ fate s (.rx event)) := by
  cases hrx : s.rx with
  | filtering f next =>
    simp only [step, hrx] at h
    cases event with
    | stamp now =>
      obtain rfl := Option.some.inj h
      exact filterFrame_settled hinv hrx now
    | _ => cases h
  | offering f now next =>
    simp only [step, hrx] at h
    cases event with
    | go =>
      obtain rfl := Option.some.inj h
      exact offerFrame_settled hinv hrx
    | _ => cases h
  | _ =>
    have hfate : fate s (.rx event) = [] := by cases event <;> simp only [fate, hrx]
    have hpending : pending s.rx = [] := by rw [hrx]; rfl
    rw [hfate, List.append_nil]
    exact rxMove_settled hinv (rxStep_move h) hpending

theorem step_settled {s s' : Link W C} {fs : List (Frame × Option Frame)} {l : Label W C}
    (hinv : Settled s fs) (h : step s l = some s') : Settled s' (fs ++ fate s l) := by
  cases l with
  | rx event => exact rxStep_settled hinv h
  | _ =>
    have hothers := step_others (fun _ hl => by cases hl) h
    exact hinv.keep hothers.offered hothers.entered

theorem run_settled {ls : List (Label W C)} {s : Link W C} (h : run ls = some s) :
    Settled s (fates ls) := by
  have hopened : Settled (opened W C) [] := ⟨rfl, rfl⟩
  exact StepSystem.run_shown_invariant (fun _ _ _ _ hinv hstep => step_settled hinv hstep)
    hopened h

/-! ### What the readers have received -/

omit [DecidableEq W] [DecidableEq C] in
theorem accounts_latch (r : Ring) :
    Accounts r { r with shared := r.shared.markLinkLost } [] [] :=
  ⟨(List.append_nil _).symm, (List.append_nil _).symm, (List.append_nil _).symm⟩

/-- Unless the app flushes, each step hands out and queues some frames. -/
theorem step_accounts {s s' : Link W C} {l : Label W C} (hl : l ≠ .access .empty)
    (h : step s l = some s') : ∃ out new, Accounts s.ring s'.ring out new := by
  have hring : Ring.Move s.ring s'.ring ∨
      s'.ring = { s.ring with shared := s.ring.shared.markLinkLost } := step_ring hl h
  rcases hring with hmove | hlatch
  · obtain ⟨out, new, haccounts, -⟩ := move_accounts hmove
    exact ⟨out, new, haccounts⟩
  · rw [hlatch]
    exact ⟨[], [], accounts_latch s.ring⟩

theorem run_accounts {ks : List (Label W C)} {s t : Link W C} (hflush : .access .empty ∉ ks)
    (h : StepSystem.run step s ks = some t) : ∃ out new, Accounts s.ring t.ring out new := by
  induction ks generalizing s with
  | nil =>
    obtain rfl := Option.some.inj h
    exact ⟨[], [], accounts_refl _⟩
  | cons l ks ih =>
    obtain ⟨s', hstep, hrest⟩ := StepSystem.run_cons.mp h
    have hl : l ≠ .access .empty := fun hl => hflush (hl ▸ List.mem_cons_self ..)
    obtain ⟨out, new, haccounts⟩ := step_accounts hl hstep
    obtain ⟨out', new', haccounts'⟩ := ih (fun hmem => hflush (List.mem_cons_of_mem l hmem)) hrest
    exact ⟨_, _, haccounts.trans haccounts'⟩

theorem run_drains {ls : List (Label W C)} {s : Link W C} (hflush : .access .empty ∉ ls)
    (h : run ls = some s) :
    s.ring.replies.filterMap ReadReply.frame ++ s.ring.shared.q = s.ring.entered := by
  obtain ⟨out, new, haccounts⟩ := run_accounts hflush h
  have hreplies : s.ring.replies = out := haccounts.replies
  have hentered : s.ring.entered = new := haccounts.entered
  rw [hreplies, hentered]
  exact haccounts.queue

/-! ### The lost link -/

/-- Only one teardown ever swaps `running` away. What was queued is, of the frames offered
and in their order, those that the filter let pass and that found room, with their
timestamps. Where the lost link is latched, the loop ended on its own and its swap came
before every other store to `running`; from then on the channel is never ready, nothing is
decoded or queued, every decoded frame has been offered, and what the readers receive is
what was queued. -/
theorem bus_off_final {ls : List (Label W C)} {s : Link W C} (h : run ls = some s) :
    s.clearedBy.count .loop ≤ 1 ∧
      (s.offered = (fates ls).map Prod.fst ∧
        s.ring.entered = (fates ls).filterMap Prod.snd) ∧
      (.access .empty ∉ ls →
        s.ring.replies.filterMap ReadReply.frame ++ s.ring.shared.q = s.ring.entered) ∧
      (s.ring.shared.linkLost = true →
        (s.ending = some .readError ∨ s.ending = some .undecodable) ∧
          s.clearedBy.head? = some .loop ∧ s.offered = s.decoded ∧
          ∀ ks t, StepSystem.run step s ks = some t →
            t.ring.shared.linkLost = true ∧ t.isReady = false ∧ t.decoded = s.decoded ∧
              t.ring.entered = s.ring.entered ∧
              (.access .empty ∉ ks → ∃ out, t.ring.replies = s.ring.replies ++ out ∧
                out.filterMap ReadReply.frame ++ t.ring.shared.q = s.ring.shared.q)) := by
  have hordered := run_ordered h
  have hstreaming := run_streaming h
  have hsettled := run_settled h
  refine ⟨hordered.once, ⟨hsettled.offered, hsettled.entered⟩,
    fun hflush => run_drains hflush h, fun hlost => ?_⟩
  obtain ⟨hwon, hstage⟩ := hordered.lost.mp hlost
  refine ⟨?_, hwon, (hstreaming.settled (pending_of_stage (by omega))).symm,
    fun ks t hrun => ?_⟩
  · obtain ⟨e, he, hstop⟩ := hordered.ending (by omega)
    cases e with
    | stopped => exact absurd hwon (hstop rfl).2
    | readError => exact Or.inl he
    | undecodable => exact Or.inr he
    | broken => exact absurd he hstreaming.decodes
  · have hover := run_over (by omega) hrun
    have hlater := hover.linkLost hlost
    have ht : run (ls ++ ks) = some t := StepSystem.run_append.mpr ⟨s, h, hrun⟩
    have hordered' := run_ordered ht
    obtain ⟨hwon', hstage'⟩ := hordered'.lost.mp hlater
    refine ⟨hlater, hordered'.negotiated hwon' (by omega), hover.decoded, hover.entered,
      fun hflush => ?_⟩
    obtain ⟨out, new, haccounts⟩ := run_accounts hflush hrun
    have hnew : new = [] :=
      List.append_right_eq_self.mp (haccounts.entered.symm.trans hover.entered)
    refine ⟨out, haccounts.replies, ?_⟩
    rw [haccounts.queue, hnew, List.append_nil]

/-- One empty frame arrives and is queued, the peer closes, and the loop latches the lost
link. -/
def frameThenEnd : List (Label Unit Unit) :=
  [.rx .go, .rx (.chunk [0, 0, 1, 35]), .rx .go, .rx (.chunk [0]), .rx (.stamp 5), .rx .go,
    .rx (.wake none), .rx .go, .rx .go, .rx .fail, .rx .go, .rx .go, .rx .go]

theorem bus_off_final_drained :
    ∃ s, run frameThenEnd = some s ∧ s.ring.shared.linkLost = true ∧ s.decoded.length = 1 ∧
      s.offered = s.decoded ∧ s.ring.shared.q = (fates frameThenEnd).filterMap Prod.snd ∧
      ∀ ks t, StepSystem.run step s ks = some t → t.isReady = false := by
  have hrun : ∃ s, run frameThenEnd = some s ∧ s.ring.shared.linkLost = true ∧
      s.decoded.length = 1 ∧ s.ring.replies = [] := ⟨_, rfl, rfl, rfl, rfl⟩
  obtain ⟨s, hs, hlost, hlength, hreplies⟩ := hrun
  obtain ⟨-, ⟨-, hentered⟩, hdrains, hfinal⟩ := bus_off_final hs
  obtain ⟨-, -, hoffered, hlater⟩ := hfinal hlost
  have hqueue := hdrains (by simp [frameThenEnd])
  rw [hreplies] at hqueue
  exact ⟨s, hs, hlost, hlength, hoffered, hqueue.trans hentered,
    fun ks t h => (hlater ks t h).2.1⟩

end Kvasilloni.BusOff
