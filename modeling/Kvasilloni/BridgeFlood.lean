import Kvasilloni.CanBridge
import Kvasilloni.Library.Progress
import Kvasilloni.Library.Spawning
import Mathlib.Data.Fintype.Prod

/-!
Several bridges at once. What one pump sends on is heard by the pumps of the other bridges
on that interface, and they send it on in their turn. The frames die out, after a number of
sends that the topology bounds, exactly if this never leads back to the same pump; where it
does, one frame is sent on for ever, as long as nothing is lost.
-/
namespace Kvasilloni.BridgeFlood

open CanBridge StepSystem Spawning

variable {κ μ : Type}

/-- What the one pump sends on, the other hears. -/
def Feeds (bridges : κ → Bridge) (d e : PumpId κ) : Prop :=
  Hears bridges (some d) (dst bridges d) e

variable {bridges : κ → Bridge}

/-- The two pumps of a bridge. -/
theorem eq_or_back {d e : PumpId κ} (hsame : d.1 = e.1) : e = d ∨ e = back d := by
  obtain ⟨k, flipped⟩ := d
  obtain ⟨j, other⟩ := e
  obtain rfl : k = j := hsame
  cases flipped <;> cases other <;> simp [back]

/-- A bridge does not feed itself. -/
theorem Feeds.bridge_ne {d e : PumpId κ} (h : Feeds bridges d e) : d.1 ≠ e.1 := by
  intro hsame
  obtain ⟨hiface, hown⟩ := h
  rcases eq_or_back hsame with rfl | rfl
  · exact src_ne_dst bridges e hiface
  · exact hown (by simp)

/-- What a pump feeds does not feed the other pump of its bridge. -/
theorem Feeds.not_back {d e : PumpId κ} (h : Feeds bridges d e) : ¬ Feeds bridges e (back d) := by
  intro hback
  have hin : src bridges e = dst bridges d := h.1
  have hout : dst bridges d = dst bridges e := hback.1
  exact src_ne_dst bridges e (hin.trans hout)

variable [DecidableEq κ]

instance (bridges : κ → Bridge) : DecidableRel (Feeds bridges) := fun d e =>
  inferInstanceAs (Decidable (Hears bridges (some d) (dst bridges d) e))

/-! ### The frames that a pump still has to send on -/

/-- Queued or in hand. -/
def pending (p : Pump μ) : ℕ :=
  p.queue.length + match p.point with
    | .send _ => 1
    | _ => 0

def isForward (_ : System κ μ) : Label κ μ → Bool
  | .pump _ .send _ => true
  | _ => false

theorem pending_arrive (p : Pump μ) (m : μ) (isLost : Bool) :
    pending (p.arrive m isLost) ≤ pending p + 1 := by
  cases isLost with
  | true => exact Nat.le_succ _
  | false =>
    simp only [pending, Pump.arrive, Bool.false_eq_true, if_false, List.length_append,
      List.length_singleton]
    omega

/-- No step that drops the frame in hand. -/
def Act.keeps : Act → Prop
  | .sendFails _ | .raises _ => False
  | _ => True

/-- What a pump takes in hand it has had queued, and it sends what it has in hand. -/
structure Spends (stop : Bool) (p p' : Pump μ) (act : Act) (sent : Option μ) : Prop where
  le : pending p' + sent.toList.length ≤ pending p
  sends : sent.isSome = true ↔ act = .send
  keeps : Act.keeps act → pending p ≤ pending p' + sent.toList.length
  going : stop = false → Act.keeps act → ∀ held, p'.point ≠ .ended held

theorem step_spends {stop : Bool} {p p' : Pump μ} {act : Act} {sent : Option μ}
    (h : p.step stop act = some (p', sent)) : Spends stop p p' act sent := by
  cases step_turn h with
  | halt hpoint hstop | listen hpoint hstop =>
    constructor <;> simp [pending, hpoint, hstop]
  | recv m rest hpoint hqueue => constructor <;> simp [pending, hpoint, hqueue]
  | recvNone hpoint | recvFails exc hpoint | wake hpoint | send m hpoint =>
    constructor <;> simp [pending, hpoint]
  | recvRaises exc hpoint | sendFails m exc hpoint | sendRaises m exc hpoint =>
    constructor <;> simp [pending, hpoint, Pump.die, Act.keeps]

theorem pending_transmit (s : System κ μ) (sender : Option (PumpId κ)) (iface : String) (m : μ)
    (lost : List (PumpId κ)) (d : PumpId κ) :
    pending ((transmit bridges s sender iface m lost).pump d) ≤
      pending (s.pump d) + if Hears bridges sender iface d then 1 else 0 := by
  unfold transmit
  by_cases hhears : Hears bridges sender iface d
  · simpa [hhears] using pending_arrive (s.pump d) m (decide (d ∈ lost))
  · simp [hhears]

/-! ### Frames die out where no pump feeds itself in the end -/

section Bounded

variable [Fintype κ] (hwf : WellFounded (flip (Feeds bridges)))

noncomputable def load (s : System κ μ) : ℕ := work hwf fun d => pending (s.pump d)

/-- The sends that one frame on the interface comes to. -/
noncomputable def share (iface : String) : ℕ :=
  ∑ d, if Hears bridges none iface d then weight hwf d else 0

/-- What a bound allows for the frames that come in from outside. -/
def allowance (bound : String → ℕ) : Label κ μ → ℕ
  | .app iface _ _ => bound iface
  | .signal _ => 0
  | .pump _ _ _ => 0

theorem step_load {s s' : System κ μ} {l : Label κ μ} (h : step bridges s l = some s') :
    (isForward s l).toNat + load hwf s' ≤ load hwf s + allowance (share hwf) l := by
  cases l with
  | app iface m lost =>
    obtain rfl := Option.some.inj h
    simp only [isForward, Bool.toNat_false, Nat.zero_add, allowance]
    exact work_add_le hwf fun d => pending_transmit s none iface m lost d
  | signal k =>
    obtain rfl := Option.some.inj h
    simp [isForward, allowance, load]
  | pump d act lost =>
    obtain ⟨⟨p, sent⟩, hpump, hs'⟩ := Option.map_eq_some_iff.mp h
    obtain ⟨hpending, hact, -, -⟩ := step_spends hpump
    have hset : ∀ e, pending ((setPump s d p).pump e) + (if e = d then sent.toList.length else 0) ≤
        pending (s.pump e) := by
      intro e
      by_cases he : e = d
      · subst he
        simpa using hpending
      · simp [he]
    cases sent with
    | none =>
      obtain rfl := hs'
      have hkind : isForward s (.pump d act lost : Label κ μ) = false := by
        cases act <;> first | rfl | simp at hact
      have hle : load hwf (setPump s d p) ≤ load hwf s :=
        work_le hwf fun e => le_trans (Nat.le_add_right _ _) (hset e)
      simpa [hkind, allowance] using hle
    | some m =>
      obtain rfl := hs'
      obtain rfl : act = .send := hact.mp rfl
      have hlt : load hwf (transmit bridges (setPump s d p) (some d) (dst bridges d) m lost) <
          load hwf s := by
        refine work_done_lt (a := d) hwf fun e => ?_
        have harrive :
            pending ((transmit bridges (setPump s d p) (some d) (dst bridges d) m lost).pump e)
              ≤ _ :=
          pending_transmit (setPump s d p) (some d) (dst bridges d) m lost e
        have hone := hset e
        simp only [Option.toList_some, List.length_singleton] at hone
        change _ ≤ _ + if Hears bridges (some d) (dst bridges d) e then 1 else 0
        omega
      simp only [isForward, Bool.toNat_true, allowance, Nat.add_zero]
      omega

theorem run_bounded {ls : List (Label κ μ)} {t : System κ μ}
    (h : run (step bridges) (start bridges) ls = some t) :
    countSteps (step bridges) isForward (start bridges) ls ≤
      (ls.map (allowance (share hwf))).sum := by
  have hle : countSteps (step bridges) isForward (start bridges) ls + load hwf t ≤
      load hwf (start bridges) + (ls.map (allowance (share hwf))).sum :=
    countSteps_le_allowance (load hwf) (fun _ _ _ => step_load hwf) h
  have hidle : load hwf (start bridges : System κ μ) = 0 := by
    simp [load, work, start, pending]
  omega

end Bounded

/-! ### Frames go round for ever where a pump feeds itself in the end -/

/-- Nothing is lost and no bridge is stopped. -/
def Undisturbed : Label κ μ → Prop
  | .app _ _ lost => lost = []
  | .signal _ => False
  | .pump _ act lost => Act.keeps act ∧ lost = []

/-- Every pump goes on. -/
structure Running (s : System κ μ) : Prop where
  going : ∀ k, s.stop k = false
  alive : ∀ d held, (s.pump d).point ≠ .ended held

/-- The frame is queued or in hand. -/
def Holds (p : Pump μ) (m : μ) : Prop := m ∈ p.queue ∨ p.point = .send m

/-- Some pump has the frame to send, and it will come round for ever. -/
def Afloat (bridges : κ → Bridge) (m : μ) (s : System κ μ) : Prop :=
  ∃ d, Endless (Feeds bridges) d ∧ Holds (s.pump d) m

theorem step_running {s s' : System κ μ} {l : Label κ μ} (h : Running s) (hl : Undisturbed l)
    (hstep : step bridges s l = some s') : Running s' := by
  obtain ⟨hgoing, halive⟩ := h
  cases l with
  | app iface m lost =>
    obtain rfl := Option.some.inj hstep
    exact ⟨hgoing, fun d held => by simpa using halive d held⟩
  | signal k => exact absurd hl id
  | pump d act lost =>
    obtain ⟨⟨p, sent⟩, hpump, hs'⟩ := Option.map_eq_some_iff.mp hstep
    have hgo := (step_spends hpump).going (hgoing d.1) hl.1
    have hset : ∀ e held, ((setPump s d p).pump e).point ≠ .ended held := by
      intro e held
      by_cases he : e = d
      · subst he
        simpa using hgo held
      · simpa [he] using halive e held
    cases sent with
    | none =>
      obtain rfl := hs'
      exact ⟨hgoing, hset⟩
    | some m =>
      obtain rfl := hs'
      refine ⟨hgoing, fun e held => ?_⟩
      rw [transmit_point]
      exact hset e held

theorem arrive_holds {p : Pump μ} {m : μ} (h : Holds p m) (n : μ) (isLost : Bool) :
    Holds (p.arrive n isLost) m := by
  rcases h with hqueue | hpoint
  · left
    unfold Pump.arrive
    split
    · exact hqueue
    · exact List.mem_append_left _ hqueue
  · exact Or.inr ((arrive_point p n isLost).trans hpoint)

theorem transmit_holds {s : System κ μ} {d : PumpId κ} {m : μ} (h : Holds (s.pump d) m)
    (sender : Option (PumpId κ)) (iface : String) (n : μ) (lost : List (PumpId κ)) :
    Holds ((transmit bridges s sender iface n lost).pump d) m := by
  unfold transmit
  by_cases hhears : Hears bridges sender iface d
  · simp only [hhears, if_true]
    exact arrive_holds h n _
  · simp only [hhears, if_false]
    exact h

/-- A pump that drops nothing has the frame still, or has just sent it. -/
theorem step_holds {stop : Bool} {p p' : Pump μ} {act : Act} {sent : Option μ} {m : μ}
    (h : p.step stop act = some (p', sent)) (hkeeps : Act.keeps act) (hm : Holds p m) :
    Holds p' m ∨ sent = some m := by
  cases step_turn h with
  | halt hpoint | listen hpoint | recvNone hpoint | recvFails exc hpoint | wake hpoint =>
    rcases hm with hqueue | hsend
    · exact Or.inl (Or.inl hqueue)
    · cases hpoint.symm.trans hsend
  | recv n rest hpoint hqueue =>
    rcases hm with hmem | hsend
    · rw [hqueue] at hmem
      rcases List.mem_cons.mp hmem with rfl | hrest
      · exact Or.inl (Or.inr rfl)
      · exact Or.inl (Or.inl hrest)
    · cases hpoint.symm.trans hsend
  | send n hpoint =>
    rcases hm with hqueue | hsend
    · exact Or.inl (Or.inl hqueue)
    · cases hpoint.symm.trans hsend
      exact Or.inr rfl
  | recvRaises | sendFails | sendRaises => exact absurd hkeeps id

theorem transmit_afloat (s : System κ μ) {sender : Option (PumpId κ)} {iface : String} (m : μ)
    {d : PumpId κ} (hd : Endless (Feeds bridges) d) (hhears : Hears bridges sender iface d) :
    Afloat bridges m (transmit bridges s sender iface m []) := by
  refine ⟨d, hd, Or.inl ?_⟩
  simp [transmit, hhears, Pump.arrive]

theorem step_afloat {s s' : System κ μ} {l : Label κ μ} {m : μ} (h : Afloat bridges m s)
    (hl : Undisturbed l) (hstep : step bridges s l = some s') : Afloat bridges m s' := by
  obtain ⟨d, hd, hholds⟩ := h
  cases l with
  | app iface n lost =>
    obtain rfl := Option.some.inj hstep
    exact ⟨d, hd, transmit_holds hholds none iface n lost⟩
  | signal k => exact absurd hl id
  | pump e act lost =>
    obtain ⟨hkeeps, rfl⟩ := hl
    obtain ⟨⟨p, sent⟩, hpump, hs'⟩ := Option.map_eq_some_iff.mp hstep
    -- Either the pump that had the frame has it still, or it is the one that sends it.
    have hcases : Holds ((setPump s e p).pump d) m ∨ d = e ∧ sent = some m := by
      by_cases hde : d = e
      · subst hde
        rcases step_holds hpump hkeeps hholds with hstill | hsent
        · exact Or.inl (by simpa using hstill)
        · exact Or.inr ⟨rfl, hsent⟩
      · exact Or.inl (by simpa [hde] using hholds)
    rcases hcases with hstill | ⟨rfl, rfl⟩
    · cases sent with
      | none =>
        obtain rfl := hs'
        exact ⟨d, hd, hstill⟩
      | some n =>
        obtain rfl := hs'
        exact ⟨d, hd, transmit_holds hstill _ _ n []⟩
    · obtain rfl := hs'
      obtain ⟨next, hfeeds, hnext⟩ := hd.next
      exact transmit_afloat _ m hnext hfeeds

/-- The pumps are at rest, and one has a frame that will come round for ever. -/
structure Turning (bridges : κ → Bridge) (s : System κ μ) (d : PumpId κ) : Prop where
  going : ∀ e, s.stop e = false
  testing : ∀ e, (s.pump e).point = .test
  queued : (s.pump d).queue ≠ []
  endless : Endless (Feeds bridges) d

/-- One pass of the loop of a pump. -/
def pass (d : PumpId κ) : List (Label κ μ) :=
  [.pump d .test [], .pump d .recv [], .pump d .send []]

theorem test_go {s : System κ μ} {d : PumpId κ} (hpoint : (s.pump d).point = .test)
    (hgoing : s.stop d.1 = false) : step bridges s (.pump d .test []) =
      some (setPump s d { s.pump d with point := .recv }) := by
  simp [step, Pump.step, hpoint, hgoing]

theorem recv_go {s : System κ μ} {d : PumpId κ} {m : μ} {rest : List μ}
    (hpoint : (s.pump d).point = .recv) (hqueue : (s.pump d).queue = m :: rest) :
    step bridges s (.pump d .recv []) = some (setPump s d
      ⟨rest, (s.pump d).missed, .send m, (s.pump d).direction.noteRxOk⟩) := by
  simp [step, Pump.step, hpoint, hqueue]

theorem send_go {s : System κ μ} {d : PumpId κ} {m : μ} (hpoint : (s.pump d).point = .send m) :
    step bridges s (.pump d .send []) = some (transmit bridges (setPump s d
        { s.pump d with point := .test, direction := (s.pump d).direction.count.noteTxOk })
      (some d) (dst bridges d) m []) := by
  simp [step, Pump.step, hpoint]

theorem pass_turning {s : System κ μ} {d : PumpId κ} (h : Turning bridges s d) :
    ∃ t e, run (step bridges) s (pass d) = some t ∧
      countSteps (step bridges) isForward s (pass d) = 1 ∧ Turning bridges t e := by
  obtain ⟨hgoing, htesting, hqueued, hendless⟩ := h
  obtain ⟨e, hfeeds, he⟩ := hendless.next
  obtain ⟨m, rest, hqueue⟩ := List.exists_cons_of_ne_nil hqueued
  obtain ⟨s₁, hs₁, htest⟩ : ∃ s₁, s₁ = setPump s d { s.pump d with point := .recv } ∧
      step bridges s (.pump d .test []) = some s₁ := ⟨_, rfl, test_go (htesting d) (hgoing d.1)⟩
  obtain ⟨s₂, hs₂, hrecv⟩ : ∃ s₂, s₂ = setPump s₁ d
        ⟨rest, (s₁.pump d).missed, .send m, (s₁.pump d).direction.noteRxOk⟩ ∧
      step bridges s₁ (.pump d .recv []) = some s₂ :=
    ⟨_, rfl, recv_go (by simp [hs₁]) (by simp [hs₁, hqueue])⟩
  obtain ⟨t, ht, hsend⟩ : ∃ t, t = transmit bridges (setPump s₂ d
          { s₂.pump d with point := .test, direction := (s₂.pump d).direction.count.noteTxOk })
        (some d) (dst bridges d) m [] ∧
      step bridges s₂ (.pump d .send []) = some t := ⟨_, rfl, send_go (by simp [hs₂])⟩
  refine ⟨t, e, ?_, ?_, ?_, ?_, ?_, he⟩
  · exact run_cons.mpr ⟨s₁, htest, run_cons.mpr ⟨s₂, hrecv, run_cons.mpr ⟨t, hsend, rfl⟩⟩⟩
  · simp [BridgeFlood.pass, countSteps, htest, hrecv, hsend, isForward]
  · intro k
    simpa [ht, hs₂, hs₁, transmit] using hgoing k
  · intro x
    by_cases hx : x = d
    · subst hx
      simp [ht, transmit, apply_ite]
    · simp [ht, hs₂, hs₁, transmit, hx, htesting, apply_ite]
  · have hhears : Hears bridges (some d) (dst bridges d) e := hfeeds
    simp [ht, transmit, hhears, Pump.arrive]

theorem passes {s : System κ μ} {d : PumpId κ} (h : Turning bridges s d) (bound : String → ℕ)
    (n : ℕ) : ∃ ls t, run (step bridges) s ls = some t ∧
      countSteps (step bridges) isForward s ls = n ∧ (ls.map (allowance bound)).sum = 0 := by
  induction n generalizing s d with
  | zero => exact ⟨[], s, rfl, rfl, rfl⟩
  | succ n ih =>
    obtain ⟨s', e, hpass, hone, hs'⟩ := pass_turning h
    obtain ⟨ls, t, hrun, hcount, hsum⟩ := ih hs'
    refine ⟨pass d ++ ls, t, run_append.mpr ⟨s', hpass, hrun⟩, ?_, ?_⟩
    · rw [countSteps_append hpass, hone, hcount, Nat.add_comm]
    · simpa [BridgeFlood.pass, allowance] using hsum

theorem cycle_unbounded (m : μ) {d : PumpId κ}
    (h : Relation.TransGen (Feeds bridges) d d) (bound : String → ℕ) :
    ∃ ls, ∃ t : System κ μ, run (step bridges) (start bridges) ls = some t ∧
      (ls.map (allowance bound)).sum < countSteps (step bridges) isForward (start bridges) ls := by
  have happ : step bridges (start bridges) (.app (src bridges d) m []) =
      some (transmit bridges (start bridges) none (src bridges d) m []) := rfl
  have hturning :
      Turning bridges (transmit bridges (start bridges) none (src bridges d) m []) d := by
    refine ⟨fun _ => rfl, fun e => ?_, ?_, endless_of_cycle h⟩
    · simp [transmit, start, apply_ite]
    · have hhears : Hears bridges none (src bridges d) d := ⟨rfl, by simp⟩
      simp [transmit, hhears, Pump.arrive]
  obtain ⟨ls, t, hrun, hcount, hsum⟩ := passes hturning bound (bound (src bridges d) + 1)
  refine ⟨_ :: ls, t, run_cons.mpr ⟨_, happ, hrun⟩, ?_⟩
  simp only [countSteps, happ, hcount, isForward, List.map_cons, List.sum_cons, hsum, allowance,
    Bool.toNat_false]
  omega

/-! ### Main results -/

/-- The frames that come in from outside are sent on a number of times that their interfaces
bound, in every interleaving, exactly if no chain of pumps leads back to where it began. -/
theorem frames_die_out_iff [Fintype κ] [Inhabited μ] (bridges : κ → Bridge) :
    (∃ bound : String → ℕ, ∀ (ls : List (Label κ μ)) (t : System κ μ),
      run (step bridges) (start bridges) ls = some t →
        countSteps (step bridges) isForward (start bridges) ls ≤
          (ls.map (allowance bound)).sum) ↔
    ∀ d, ¬ Relation.TransGen (Feeds bridges) d d := by
  constructor
  · rintro ⟨bound, hbound⟩ d hcycle
    obtain ⟨ls, t, hrun, hlt⟩ := cycle_unbounded (default : μ) hcycle bound
    have hle := hbound ls t hrun
    omega
  · intro hnone
    have hwf := wellFounded_iff_no_cycle.mpr hnone
    exact ⟨share hwf, fun ls t hrun => run_bounded hwf hrun⟩

theorem undisturbed_guarded {ls : List (Label κ μ)} (hls : ∀ l ∈ ls, Undisturbed l)
    (s : System κ μ) : Guarded (step bridges) (fun _ l => Undisturbed l) s ls :=
  guarded_of_forall (fun l hl _ => hls l hl) s

theorem run_running {s t : System κ μ} {ls : List (Label κ μ)} (h : Running s)
    (hls : ∀ l ∈ ls, Undisturbed l) (hrun : run (step bridges) s ls = some t) : Running t :=
  run_invariant_of_guarded (fun _ _ _ hs hl hstep => step_running hs hl hstep) h
    (undisturbed_guarded hls s) hrun

theorem run_afloat {s t : System κ μ} {ls : List (Label κ μ)} {m : μ}
    (h : Afloat bridges m s) (hls : ∀ l ∈ ls, Undisturbed l)
    (hrun : run (step bridges) s ls = some t) : Afloat bridges m t :=
  run_invariant_of_guarded (fun _ _ _ hs hl hstep => step_afloat hs hl hstep) h
    (undisturbed_guarded hls s) hrun

/-- A frame that comes in where a chain of pumps leads back to its beginning never dies out:
however the bridges go on, as long as nothing is lost and none of them is stopped, a running
pump has it still to send, and what it sends comes round again. -/
theorem frame_never_dies (bridges : κ → Bridge) {d : PumpId κ}
    (hcycle : Relation.TransGen (Feeds bridges) d d) {before after : List (Label κ μ)} {m : μ}
    {t : System κ μ} (hquiet : ∀ l ∈ before ++ after, Undisturbed l)
    (h : run (step bridges) (start bridges) (before ++ .app (src bridges d) m [] :: after) =
      some t) :
    ∃ e, Endless (Feeds bridges) e ∧
      (m ∈ (t.pump e).queue ∨ (t.pump e).point = .send m) ∧
      ∀ held, (t.pump e).point ≠ .ended held := by
  obtain ⟨s, hbefore, hrest⟩ := run_append.mp h
  obtain ⟨s', happ, hafter⟩ := run_cons.mp hrest
  have hs' : Afloat bridges m s' := by
    obtain rfl := Option.some.inj happ
    exact transmit_afloat s m (endless_of_cycle hcycle) ⟨rfl, by simp⟩
  obtain ⟨e, he, hholds⟩ :=
    run_afloat hs' (fun l hl => hquiet l (List.mem_append_right _ hl)) hafter
  have hstart : Running (start bridges : System κ μ) :=
    ⟨fun _ => rfl, fun _ _ => by simp [start]⟩
  have hs : Running s := run_running hstart
    (fun l hl => hquiet l (List.mem_append_left _ hl)) hbefore
  have hrunning : Running t := run_running (step_running hs (l := .app _ m []) rfl happ)
    (fun l hl => hquiet l (List.mem_append_right _ hl)) hafter
  exact ⟨e, he, hholds, hrunning.alive e⟩

theorem vcan0_ne_vcan1 : "vcan0" ≠ "vcan1" := by decide

/-- Two bridges over one pair, the second the other way round. -/
def twoBridges : Bool → Bridge
  | false => ⟨"vcan0", "vcan1", vcan0_ne_vcan1⟩
  | true => ⟨"vcan1", "vcan0", vcan0_ne_vcan1.symm⟩

theorem twoBridges_cycle :
    Relation.TransGen (Feeds twoBridges) (false, false) (false, false) := by
  have hthere : Feeds twoBridges (false, false) (true, false) := by decide
  have hback : Feeds twoBridges (true, false) (false, false) := by decide
  exact (Relation.TransGen.single hthere).tail hback

theorem frame_never_dies_twoBridges :
    ∃ t : System Bool ℕ, (t.wire "vcan1").map Prod.snd = [7] ∧
      ∃ e, Endless (Feeds twoBridges) e ∧
        (7 ∈ (t.pump e).queue ∨ (t.pump e).point = .send 7) ∧
        ∀ held, (t.pump e).point ≠ .ended held := by
  have hrun : ∃ t : System Bool ℕ, run (step twoBridges) (start twoBridges)
        ([] ++ .app (src twoBridges (false, false)) 7 [] :: pass (false, false)) = some t ∧
      (t.wire "vcan1").map Prod.snd = [7] := ⟨_, rfl, by decide⟩
  obtain ⟨t, hrun, hwire⟩ := hrun
  refine ⟨t, hwire, frame_never_dies twoBridges twoBridges_cycle ?_ hrun⟩
  simp [BridgeFlood.pass, Undisturbed, Act.keeps]

end Kvasilloni.BridgeFlood
