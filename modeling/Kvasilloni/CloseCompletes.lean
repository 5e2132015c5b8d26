import Kvasilloni.Library.Progress
import Kvasilloni.ClosingInside

/-!
A close comes to its end. Once `running` is clear, the RX thread looks at it at the next head
of its loop, and before that it has at most one datagram to work off: it takes a bounded number
of steps whatever the app, the callback and the wire do. So a close that waits for the thread
can always be carried through, and with it every other call that is still at work: a TCP
thread that sits in its read comes out of it once the close has shut the socket down.
-/
namespace Kvasilloni.CloseCompletes

open CheckedMemory Frames Grammar Datagrams Streams Marshal SharedRing Reception ClosingInside

/-! ### The steps of the RX thread -/

/-- A datagram of 2048 bytes holds no more frames. -/
def maxBatch : ℕ := 408

/-- The steps until a thread that has been told to stop has stopped. -/
def RxPc.work : RxPc → ℕ
  | .stopped => 0
  | .head => 1
  | .receiving => 4 * maxBatch + 3
  | .ingesting batch => 4 * batch.length + 2
  | .filtered _ batch => 4 * batch.length + 5
  | .queued _ batch => 4 * batch.length + 4
  | .inCallback batch => 4 * batch.length + 3

theorem flatMap_wireImage_length (fs : List Frame) :
    5 * fs.length ≤ (fs.flatMap wireImage).length := by
  induction fs with
  | nil => exact Nat.le_refl 0
  | cons f fs ih =>
    have hf := wireImage_length_ge f
    rw [List.flatMap_cons, List.length_append, List.length_cons]
    omega

theorem datagramFrames_length {bytes : Bytes} (hfits : bytes.length ≤ 2048) :
    (datagramFrames bytes).length ≤ maxBatch := by
  unfold datagramFrames
  rcases parseUdp_spec bytes with ⟨fs, ⟨seq, count, body, tail, -, hbody, hbytes, hcan⟩, hparse⟩ |
    ⟨-, hparse⟩
  · rw [hparse]
    have hsame := Except.ok.inj ((encodeFrames_canonical hcan).symm.trans hbody)
    have hlength := congrArg List.length hbytes
    have hheader : ([2, 0, seq] ++ toBe16 count : Bytes).length = 5 := rfl
    rw [List.length_append, List.length_append, hheader, ← hsame] at hlength
    have hframes := flatMap_wireImage_length fs
    unfold maxBatch
    dsimp only
    omega
  · rw [hparse]
    exact Nat.zero_le _

theorem tearDown_work (setup : Setup) (s : Channel) : RxPc.work (tearDown setup s).rx = 0 := by
  rw [(tearDown_keeps setup s).2.2.2.2.1]
  rfl

/-- What is received is a datagram of limited size, or one frame of a stream. -/
theorem receiving_work {setup : Setup} {s s' : Channel} {l : Label}
    (h : rxStep setup s .receiving l = some s') :
    RxPc.work s'.rx < RxPc.work .receiving := by
  cases l with
  | datagram source bytes =>
    simp only [rxStep] at h
    split at h
    · rename_i hfits
      obtain rfl := Option.some.inj h
      have hbatch := datagramFrames_length hfits.2
      unfold receiveDatagram
      split
      · simp only [RxPc.work]
        omega
      · simp only [RxPc.work]
        omega
    · cases h
  | chunk bytes =>
    simp only [rxStep] at h
    split at h
    · split at h
      · obtain rfl := Option.some.inj h
        unfold receiveChunk
        dsimp only
        split
        · simp only [RxPc.work]
          omega
        · simp only [RxPc.work, List.length_singleton, maxBatch]
          omega
        · rw [tearDown_work]
          simp only [RxPc.work]
          omega
      · cases h
    · cases h
  | timeout =>
    simp only [rxStep] at h
    split at h
    · obtain rfl := Option.some.inj h
      simp only [RxPc.work]
      omega
    · cases h
  | fail =>
    obtain rfl := Option.some.inj h
    rw [tearDown_work]
    simp only [RxPc.work]
    omega
  | _ => cases h

/-- Each step of the thread brings it nearer to its end, but for the loop that goes on. -/
theorem rxStep_work {setup : Setup} {s s' : Channel} {l : Label}
    (h : rxStep setup s s.rx l = some s') :
    RxPc.work s'.rx < RxPc.work s.rx ∨ (s.running = true ∧ s'.rx = .receiving) := by
  have hdown := tearDown_work setup s
  by_cases hreceiving : s.rx = .receiving
  · left
    rw [hreceiving] at h ⊢
    exact receiving_work h
  cases rxStep_move h with
  | loop hrx =>
    have hone : RxPc.work s.rx = 1 := by rw [hrx]; rfl
    unfold loopHead
    split
    · left
      omega
    · rename_i hgo
      rw [Bool.not_eq_false] at hgo
      split
      · exact Or.inr ⟨hgo, rfl⟩
      · left
        omega
      · split
        · left
          omega
        · exact Or.inr ⟨hgo, rfl⟩
  | datagram hrx hudp source bytes => exact absurd hrx hreceiving
  | chunk hrx htcp rx hdecoder bytes hlen => exact absurd hrx hreceiving
  | timeout hrx => exact absurd hrx hreceiving
  | fail hrx => exact absurd hrx hreceiving
  | advance batch hrx =>
    left
    rw [hrx]
    cases batch with
    | nil =>
      dsimp only [advance]
      split
      · rw [hdown]
        simp only [RxPc.work]
        omega
      · simp only [RxPc.work]
        omega
    | cons f batch =>
      dsimp only [advance]
      split
      · simp only [RxPc.work, List.length_cons]
        omega
      · simp only [RxPc.work, List.length_cons]
        omega
  | enqueue f batch hrx now =>
    left
    rw [hrx]
    unfold enqueueFrame
    split
    · simp only [RxPc.work]
      omega
    · simp only [RxPc.work]
      omega
  | notify f batch hrx =>
    left
    rw [hrx]
    unfold notifyFrame
    split
    · simp only [RxPc.work]
      omega
    · simp only [RxPc.work]
      omega
  | callbackReturn batch hrx =>
    left
    rw [hrx]
    simp only [RxPc.work]
    omega

/-! ### The other steps -/

/-- The step is one of the RX thread, and not of a call. -/
def isRx : Channel → Label → Bool
  | _, .request _ _ | _, .canClose _ | _, .proceed _ _ => false
  | _, _ => true

/-- A call that goes on leaves the RX thread where it is and never sets `running`. -/
theorem proceed_rx {setup : Setup} {s s' : Channel} {i : ℕ} {timedOut : Bool}
    (h : proceed setup s i timedOut = some s') :
    s'.rx = s.rx ∧ (s.running = false → s'.running = false) := by
  unfold proceed at h
  split at h
  · cases h
  · obtain ⟨t, hperform, rfl⟩ := Option.map_eq_some_iff.mp h
    obtain ⟨-, hrunning, hrx, -⟩ := perform_keeps hperform
    exact ⟨hrx, fun hoff => hrunning.trans hoff⟩
  · obtain ⟨⟨t, next⟩, hclose, rfl⟩ := Option.map_eq_some_iff.mp h
    obtain ⟨hrunning, -, hrx, -⟩ := closeStep_keeps hclose
    have hoff : s.running = false → t.running = false := by
      intro hoff
      rcases hrunning with ⟨hsame, -⟩ | hstored
      · exact hsame.trans hoff
      · exact hstored
    cases next with
    | none => exact ⟨hrx, hoff⟩
    | some stage => exact ⟨hrx, hoff⟩

/-- A step is one of the RX thread, or it leaves the thread where it is. -/
theorem step_rx {setup : Setup} {s s' : Channel} {l : Label} (h : step setup s l = some s') :
    (isRx s l = true ∧ rxStep setup s s.rx l = some s') ∨
      (isRx s l = false ∧ s'.rx = s.rx ∧ (s.running = false → s'.running = false)) := by
  cases l with
  | request caller r =>
    right
    simp only [step] at h
    split at h
    · obtain rfl := Option.some.inj h
      unfold request
      split
      · exact ⟨rfl, rfl, id⟩
      · exact ⟨rfl, rfl, id⟩
    · cases h
  | canClose caller =>
    right
    simp only [step] at h
    split at h
    · obtain rfl := Option.some.inj h
      unfold canClose
      split
      · exact ⟨rfl, rfl, id⟩
      · exact ⟨rfl, rfl, id⟩
    · cases h
  | proceed i timedOut => exact Or.inr ⟨rfl, proceed_rx h⟩
  | _ => exact Or.inl ⟨rfl, h⟩

theorem rxStep_halted {setup : Setup} {s s' : Channel} {l : Label}
    (h : rxStep setup s s.rx l = some s') (hoff : s.running = false) : s'.running = false := by
  rcases (rxMove_keeps (rxStep_move h)).2.2.2 with hsame | hclear
  · exact hsame.trans hoff
  · exact hclear

/-- While `running` is clear, the steps of the RX thread use up its work and no other step
adds to it. -/
theorem step_work {setup : Setup} {s s' : Channel} {l : Label} (hoff : s.running = false)
    (h : step setup s l = some s') :
    s'.running = false ∧ (isRx s l).toNat + RxPc.work s'.rx ≤ RxPc.work s.rx := by
  rcases step_rx h with ⟨hone, hstep⟩ | ⟨hnone, hrx, hhalted⟩
  · rw [hone, Bool.toNat_true]
    rcases rxStep_work hstep with hless | ⟨hgo, -⟩
    · exact ⟨rxStep_halted hstep hoff, by omega⟩
    · rw [hoff] at hgo
      cases hgo
  · rw [hnone, hrx, Bool.toNat_false]
    exact ⟨hhalted hoff, by omega⟩

/-- The work of the thread is limited at all times. -/
theorem run_work {setup : Setup} {s : Channel} {ls : List Label}
    (hrun : run setup ls = some s) : RxPc.work s.rx ≤ RxPc.work .receiving := by
  have hstep : ∀ s l s', RxPc.work s.rx ≤ RxPc.work .receiving → step setup s l = some s' →
      RxPc.work s'.rx ≤ RxPc.work .receiving := by
    intro s l s' hwork h
    rcases step_rx h with ⟨-, hstep⟩ | ⟨-, hrx, -⟩
    · rcases rxStep_work hstep with hless | ⟨-, hrx⟩
      · omega
      · rw [hrx]
    · rw [hrx]
      exact hwork
  have hstart : RxPc.work opened.rx ≤ RxPc.work .receiving := by decide
  exact StepSystem.run_invariant hstep hstart hrun

/-! ### The calls -/

/-- The statements that a call has still to execute. -/
def Call.work : Call → ℕ
  | .request _ => 1
  | .close .running => 6
  | .close .negotiated => 5
  | .close .markClosed => 4
  | .close .shutdown => 3
  | .close .takeHandle => 2
  | .close .join => 1

def pendingWork (s : Channel) : ℕ := (s.pending.map fun p => Call.work p.2).sum

theorem Call.work_pos (c : Call) : 0 < Call.work c := by
  cases c with
  | request r => exact Nat.one_pos
  | close stage => cases stage <;> decide

theorem sum_eraseIdx {α : Type} (w : α → ℕ) {l : List α} {i : ℕ} {a : α} (h : l[i]? = some a) :
    ((l.eraseIdx i).map w).sum + w a = (l.map w).sum := by
  obtain ⟨hi, rfl⟩ := List.getElem?_eq_some_iff.mp h
  have herase := ((List.getElem_cons_eraseIdx_perm hi).map w).sum_eq
  rw [List.map_cons, List.sum_cons] at herase
  omega

theorem sum_set {α : Type} (w : α → ℕ) {l : List α} {i : ℕ} {a : α} (b : α)
    (h : l[i]? = some a) : ((l.set i b).map w).sum + w a = (l.map w).sum + w b := by
  have herase := sum_eraseIdx w h
  obtain ⟨hi, rfl⟩ := List.getElem?_eq_some_iff.mp h
  have hset := ((List.set_perm_cons_eraseIdx hi b).map w).sum_eq
  rw [List.map_cons, List.sum_cons] at hset
  omega

theorem closeStep_work {s t : Channel} {caller : Caller} {stage next : CloseStage}
    (h : closeStep s caller stage = some (t, some next)) :
    Call.work (.close next) < Call.work (.close stage) := by
  cases stage with
  | takeHandle =>
    obtain ⟨-, hnext⟩ := Prod.mk.inj (Option.some.inj h)
    split at hnext
    · obtain rfl := Option.some.inj hnext
      decide
    · cases hnext
  | join =>
    simp only [closeStep] at h
    split at h
    · obtain ⟨-, hnext⟩ := Prod.mk.inj (Option.some.inj h)
      cases hnext
    · cases h
  | running | negotiated | markClosed | shutdown =>
    obtain ⟨-, hnext⟩ := Prod.mk.inj (Option.some.inj h)
    obtain rfl := Option.some.inj hnext
    decide

/-- A call that goes on has less to do, and the other calls have as much as before. -/
theorem proceed_work {setup : Setup} {s s' : Channel} {i : ℕ} {timedOut : Bool}
    (h : proceed setup s i timedOut = some s') : pendingWork s' < pendingWork s := by
  unfold proceed at h
  split at h
  · cases h
  · rename_i caller r hpending
    obtain ⟨t, hperform, rfl⟩ := Option.map_eq_some_iff.mp h
    have hcalls := (perform_keeps hperform).2.2.2.2.2
    have hsum := sum_eraseIdx (fun p : Caller × Call => Call.work p.2) hpending
    have hpos := Call.work_pos (.request r)
    simp only [pendingWork, hcalls]
    dsimp only at hsum
    omega
  · rename_i caller stage hpending
    obtain ⟨⟨t, next⟩, hclose, rfl⟩ := Option.map_eq_some_iff.mp h
    have hcalls := (closeStep_keeps hclose).2.2.2.2.2.1
    cases next with
    | none =>
      have hsum := sum_eraseIdx (fun p : Caller × Call => Call.work p.2) hpending
      have hpos := Call.work_pos (.close stage)
      simp only [pendingWork, hcalls]
      dsimp only at hsum
      omega
    | some next =>
      have hsum := sum_set (fun p : Caller × Call => Call.work p.2) (caller, .close next) hpending
      have hless := closeStep_work hclose
      simp only [pendingWork, hcalls]
      dsimp only at hsum
      omega

/-- A call can go on, unless it joins a thread that has not stopped; a reader that waits goes on
when its time is over. -/
theorem proceed_ready (setup : Setup) {s : Channel} {i : ℕ} {caller : Caller} {call : Call}
    (hpending : s.pending[i]? = some (caller, call))
    (hjoin : call = .close .join → s.rx = .stopped) :
    ∃ s', proceed setup s i true = some s' := by
  unfold proceed
  rw [hpending]
  cases call with
  | request r =>
    dsimp only
    have hsome : (perform setup s true r).isSome = true := by
      have hover : s.shared.waitOver true = true := by simp [Shared.waitOver]
      cases r with
      | readWait out => simp [perform, Shared.popWait, hover]
      | readSync => simp [perform, Shared.peekWait, hover]
      | read out | flush | accept flag envelope | setNotify n => rfl
    obtain ⟨t, ht⟩ := Option.isSome_iff_exists.mp hsome
    exact ⟨_, by rw [ht]; rfl⟩
  | close stage =>
    dsimp only
    have hsome : (closeStep s caller stage).isSome = true := by
      cases stage with
      | join => simp [closeStep, hjoin rfl]
      | running | negotiated | markClosed | shutdown | takeHandle => rfl
    obtain ⟨t, ht⟩ := Option.isSome_iff_exists.mp hsome
    exact ⟨_, by rw [ht]; rfl⟩

/-- No call of the callback joins the thread that it runs on. -/
def JoinFree (s : Channel) : Prop := (Caller.callback, Call.close .join) ∉ s.pending

theorem closeStep_joinFree {s t : Channel} {stage : CloseStage}
    (h : closeStep s .callback stage = some (t, some .join)) : False := by
  cases stage with
  | takeHandle =>
    obtain ⟨-, hnext⟩ := Prod.mk.inj (Option.some.inj h)
    simp at hnext
  | join =>
    simp only [closeStep] at h
    split at h
    · cases (Prod.mk.inj (Option.some.inj h)).2
    · cases h
  | running | negotiated | markClosed | shutdown =>
    cases (Prod.mk.inj (Option.some.inj h)).2

theorem move_joinFree {setup : Setup} {s t : Channel} (h : JoinFree s)
    (hmove : Move setup s t) : JoinFree t := by
  unfold JoinFree at h ⊢
  cases hmove with
  | rx t hmove =>
    rw [(rxMove_keeps hmove).2.2.1]
    exact h
  | request caller r =>
    unfold request
    split
    · simpa using h
    · exact h
  | canClose caller =>
    unfold canClose
    split
    · simpa using h
    · exact h
  | perform i timedOut caller r t hpending hperform =>
    rw [(perform_keeps hperform).2.2.2.2.2]
    exact fun hmem => h (List.mem_of_mem_eraseIdx hmem)
  | closing i caller stage next t hpending hclose =>
    rw [(closeStep_keeps hclose).2.2.2.2.2.1]
    intro hmem
    rcases List.mem_or_eq_of_mem_set hmem with hmem | hnew
    · exact h hmem
    · obtain ⟨rfl, hstage⟩ := Prod.mk.inj hnew
      obtain rfl := Call.close.inj hstage
      exact closeStep_joinFree hclose
  | closed i caller stage t hpending hclose =>
    rw [(closeStep_keeps hclose).2.2.2.2.2.1]
    exact fun hmem => h (List.mem_of_mem_eraseIdx hmem)

/-! ### The shutdown of the socket -/

/-- The stages in front of the shutdown and the shutdown itself. -/
def CloseStage.isEarly : CloseStage → Bool
  | .running | .negotiated | .markClosed | .shutdown => true
  | .takeHandle | .join => false

/-- The socket has been shut down, or a close that is at work will do it. -/
def Winding (s : Channel) : Prop :=
  s.shutdown = true ∨ ∃ caller stage, (caller, .close stage) ∈ s.pending ∧
    CloseStage.isEarly stage = true

theorem tearDown_shutdown (setup : Setup) (s : Channel) :
    (tearDown setup s).shutdown = s.shutdown := by
  unfold tearDown
  split <;> rfl

theorem rxMove_shutdown {setup : Setup} {s t : Channel} (h : RxMove setup s t) :
    t.shutdown = s.shutdown := by
  have hdown := tearDown_shutdown setup s
  cases h with
  | loop hrx =>
    unfold loopHead
    repeat' split
    all_goals first
      | rfl
      | exact hdown
  | datagram hrx hudp source bytes =>
    unfold receiveDatagram
    split <;> rfl
  | chunk hrx htcp rx hdecoder bytes hlen =>
    unfold receiveChunk
    dsimp only
    split
    · rfl
    · rfl
    · exact tearDown_shutdown setup _
  | timeout hrx => rfl
  | fail hrx => exact hdown
  | advance batch hrx =>
    cases batch with
    | nil =>
      dsimp only [advance]
      split
      · exact hdown
      · rfl
    | cons f batch =>
      dsimp only [advance]
      split <;> rfl
  | enqueue f batch hrx now =>
    unfold enqueueFrame
    split <;> rfl
  | notify f batch hrx =>
    unfold notifyFrame
    split <;> rfl
  | callbackReturn batch hrx => rfl

theorem perform_shutdown {setup : Setup} {s t : Channel} {timedOut : Bool} {r : Request}
    (h : perform setup s timedOut r = some t) : t.shutdown = s.shutdown := by
  cases r with
  | read out =>
    obtain rfl := Option.some.inj h
    unfold deliver
    split <;> rfl
  | readWait out =>
    obtain ⟨r, -, rfl⟩ := Option.map_eq_some_iff.mp h
    unfold deliver
    split <;> rfl
  | readSync =>
    obtain ⟨b, -, rfl⟩ := Option.map_eq_some_iff.mp h
    rfl
  | flush | accept flag envelope | setNotify n =>
    obtain rfl := Option.some.inj h
    rfl

/-- Behind an early stage comes another one, or the socket has just been shut down; no
statement of a close takes the shutdown back. -/
theorem closeStep_shutdown {s t : Channel} {caller : Caller} {stage : CloseStage}
    {next : Option CloseStage} (h : closeStep s caller stage = some (t, next)) :
    (s.shutdown = true → t.shutdown = true) ∧ (CloseStage.isEarly stage = true →
      t.shutdown = true ∨ ∃ later, next = some later ∧ CloseStage.isEarly later = true) := by
  cases stage with
  | running | negotiated | markClosed =>
    obtain ⟨rfl, rfl⟩ := Prod.mk.inj (Option.some.inj h)
    exact ⟨id, fun _ => Or.inr ⟨_, rfl, rfl⟩⟩
  | shutdown =>
    obtain ⟨rfl, rfl⟩ := Prod.mk.inj (Option.some.inj h)
    exact ⟨fun _ => rfl, fun _ => Or.inl rfl⟩
  | takeHandle =>
    obtain ⟨rfl, -⟩ := Prod.mk.inj (Option.some.inj h)
    exact ⟨id, fun hearly => by cases hearly⟩
  | join =>
    simp only [closeStep] at h
    split at h
    · obtain ⟨rfl, -⟩ := Prod.mk.inj (Option.some.inj h)
      exact ⟨id, fun hearly => by cases hearly⟩
    · cases h

theorem Winding.carry {s t : Channel} (h : Winding s) (hshut : t.shutdown = s.shutdown)
    (hpending : ∀ caller stage, (caller, .close stage) ∈ s.pending →
      (caller, .close stage) ∈ t.pending) : Winding t := by
  rcases h with hdone | ⟨caller, stage, hmem, hearly⟩
  · exact Or.inl (hshut.trans hdone)
  · exact Or.inr ⟨caller, stage, hpending caller stage hmem, hearly⟩

theorem move_winding {setup : Setup} {s t : Channel} (h : Winding s)
    (hmove : Move setup s t) : Winding t := by
  cases hmove with
  | rx t hmove =>
    refine h.carry (rxMove_shutdown hmove) fun caller stage hmem => ?_
    rw [(rxMove_keeps hmove).2.2.1]
    exact hmem
  | request caller r =>
    unfold request
    split
    · exact h.carry rfl fun _ _ hmem => List.mem_append_left _ hmem
    · exact h
  | canClose caller =>
    unfold canClose
    split
    · exact h.carry rfl fun _ _ hmem => List.mem_append_left _ hmem
    · exact h.carry rfl fun _ _ hmem => hmem
  | perform i timedOut caller r t hpending hperform =>
    have hshut : t.shutdown = s.shutdown := perform_shutdown hperform
    refine h.carry hshut fun c stage hmem => ?_
    rw [(perform_keeps hperform).2.2.2.2.2]
    exact mem_eraseIdx_of_ne hpending hmem (by simp)
  | closing i caller stage next t hpending hclose =>
    obtain ⟨hkept, hnext⟩ := closeStep_shutdown hclose
    have hcalls := (closeStep_keeps hclose).2.2.2.2.2.1
    rcases h with hdone | ⟨c, early, hmem, hearly⟩
    · exact Or.inl (hkept hdone)
    · by_cases hsame : (c, Call.close early) = (caller, Call.close stage)
      · obtain ⟨-, hstage⟩ := Prod.mk.inj hsame
        obtain rfl := Call.close.inj hstage
        rcases hnext hearly with hdone | ⟨later, hlater, hearly'⟩
        · exact Or.inl hdone
        · obtain rfl := Option.some.inj hlater
          refine Or.inr ⟨caller, next, ?_, hearly'⟩
          rw [hcalls]
          exact List.mem_set (List.getElem?_eq_some_iff.mp hpending).1 _
      · refine Or.inr ⟨c, early, ?_, hearly⟩
        rw [hcalls]
        exact mem_set_of_ne _ hpending hmem hsame
  | closed i caller stage t hpending hclose =>
    obtain ⟨hkept, hnext⟩ := closeStep_shutdown hclose
    have hcalls := (closeStep_keeps hclose).2.2.2.2.2.1
    rcases h with hdone | ⟨c, early, hmem, hearly⟩
    · exact Or.inl (hkept hdone)
    · by_cases hsame : (c, Call.close early) = (caller, Call.close stage)
      · obtain ⟨-, hstage⟩ := Prod.mk.inj hsame
        obtain rfl := Call.close.inj hstage
        rcases hnext hearly with hdone | ⟨later, hlater, -⟩
        · exact Or.inl hdone
        · cases hlater
      · refine Or.inr ⟨c, early, ?_, hearly⟩
        rw [hcalls]
        exact mem_eraseIdx_of_ne hpending hmem hsame

/-- Only `canClose` takes the handle out of the table, and it begins a close. -/
theorem move_closed {setup : Setup} {s t : Channel} (h : s.isOpen = false → Winding s)
    (hmove : Move setup s t) : t.isOpen = false → Winding t := by
  cases hopen : s.isOpen with
  | false => exact fun _ => move_winding (h hopen) hmove
  | true =>
    intro hclosed
    cases hmove with
    | canClose caller =>
      unfold canClose
      rw [if_pos hopen]
      exact Or.inr ⟨caller, .running, by simp, rfl⟩
    | rx t hmove => simp [(rxMove_keeps hmove).1, hopen] at hclosed
    | request caller r =>
      unfold request at hclosed
      rw [if_pos hopen] at hclosed
      simp [hopen] at hclosed
    | perform i timedOut caller r t hpending hperform =>
      simp [(perform_keeps hperform).1, hopen] at hclosed
    | closing i caller stage next t hpending hclose =>
      simp [(closeStep_keeps hclose).2.1, hopen] at hclosed
    | closed i caller stage t hpending hclose =>
      simp [(closeStep_keeps hclose).2.1, hopen] at hclosed

theorem run_winding {setup : Setup} {s : Channel} {ls : List Label}
    (hrun : run setup ls = some s) (hclosed : s.isOpen = false) : Winding s := by
  have hstart : opened.isOpen = false → Winding opened := fun h => by cases h
  exact StepSystem.run_invariant (fun _ _ _ h hstep => move_closed h (step_move hstep))
    hstart hrun hclosed

/-! ### To the end -/

/-- The step needs no new call and nothing from the wire: a UDP read times out, and a TCP read
fails only once the socket has been shut down. -/
def unaided (setup : Setup) (s : Channel) : Label → Bool
  | .datagram _ _ | .chunk _ | .request _ _ | .canClose _ => false
  | .fail => setup.transport == .tcp && s.shutdown
  | .loop | .timeout | .advance | .enqueue _ | .notify | .callbackReturn | .proceed _ _ => true

def workLeft (s : Channel) : ℕ := RxPc.work s.rx + pendingWork s

theorem rxStep_progress {setup : Setup} {s s' : Channel} {l : Label} (hoff : s.running = false)
    (h : rxStep setup s s.rx l = some s') : workLeft s' < workLeft s := by
  have hcalls : pendingWork s' = pendingWork s := by
    rw [pendingWork, (rxMove_keeps (rxStep_move h)).2.2.1]
    rfl
  rcases rxStep_work h with hless | ⟨hgo, -⟩
  · unfold workLeft
    omega
  · rw [hoff] at hgo
    cases hgo

theorem proceed_progress {setup : Setup} {s s' : Channel} {i : ℕ} {timedOut : Bool}
    (h : proceed setup s i timedOut = some s') : workLeft s' < workLeft s := by
  have hless := proceed_work h
  unfold workLeft
  rw [(proceed_rx h).1]
  omega

/-- A channel whose close has begun to bear on the RX thread. -/
structure Ending (s : Channel) : Prop where
  running : s.running = false
  joinFree : JoinFree s
  winding : Winding s

theorem step_ending {setup : Setup} {s s' : Channel} {l : Label} (h : Ending s)
    (hstep : step setup s l = some s') : Ending s' :=
  ⟨(step_work h.running hstep).1, move_joinFree h.joinFree (step_move hstep),
    move_winding h.winding (step_move hstep)⟩

/-- While anything is left to do, some step does it unaided. -/
theorem exists_unaided (setup : Setup) {s : Channel} (h : Ending s)
    (hleft : ¬ (s.rx = .stopped ∧ s.pending = [])) :
    ∃ l s', unaided setup s l = true ∧ step setup s l = some s' ∧ workLeft s' < workLeft s := by
  have hthread : ∀ l s', unaided setup s l = true → (∀ s s', rxStep setup s s.rx l = some s' →
      step setup s l = some s') → rxStep setup s s.rx l = some s' →
      ∃ l s', unaided setup s l = true ∧ step setup s l = some s' ∧ workLeft s' < workLeft s :=
    fun l s' hl hstep hrx => ⟨l, s', hl, hstep s s' hrx, rxStep_progress h.running hrx⟩
  have hcall : ∀ (caller : Caller) (call : Call), (caller, call) ∈ s.pending →
      (call = .close .join → s.rx = .stopped) →
      ∃ l s', unaided setup s l = true ∧ step setup s l = some s' ∧
        workLeft s' < workLeft s := by
    intro caller call hmem hjoin
    obtain ⟨i, hpending⟩ := List.mem_iff_getElem?.mp hmem
    obtain ⟨s', hproceed⟩ := proceed_ready setup hpending hjoin
    exact ⟨.proceed i true, s', rfl, hproceed, proceed_progress hproceed⟩
  cases hrx : s.rx with
  | head => exact hthread .loop _ rfl (fun _ _ h => h) (by rw [hrx]; rfl)
  | receiving =>
    cases htransport : setup.transport with
    | udp =>
      refine hthread .timeout { s with rx := .head } rfl (fun _ _ h => h) ?_
      rw [hrx]
      exact if_pos htransport
    | tcp =>
      -- the thread sits in its read until a close has come to the shutdown
      rcases h.winding with hdone | ⟨caller, stage, hmem, hearly⟩
      · refine hthread .fail (tearDown setup s) (by simp [unaided, htransport, hdone])
          (fun _ _ h => h) ?_
        rw [hrx]
        rfl
      · refine hcall caller _ hmem fun hjoin => ?_
        obtain rfl := Call.close.inj hjoin
        cases hearly
  | ingesting batch => exact hthread .advance _ rfl (fun _ _ h => h) (by rw [hrx]; rfl)
  | filtered f batch => exact hthread (.enqueue 0) _ rfl (fun _ _ h => h) (by rw [hrx]; rfl)
  | queued f batch => exact hthread .notify _ rfl (fun _ _ h => h) (by rw [hrx]; rfl)
  | inCallback batch =>
    by_cases hbusy : callbackBusy s = true
    · obtain ⟨⟨caller, call⟩, hmem, hcaller⟩ := List.any_eq_true.mp hbusy
      obtain rfl := eq_of_beq hcaller
      refine hcall .callback call hmem fun hjoin => ?_
      rw [hjoin] at hmem
      exact absurd hmem h.joinFree
    · refine hthread .callbackReturn { s with rx := .ingesting batch } rfl (fun _ _ h => h) ?_
      rw [hrx]
      exact if_neg hbusy
  | stopped =>
    cases hpending : s.pending with
    | nil => exact absurd ⟨hrx, hpending⟩ hleft
    | cons p ps => exact hcall p.1 p.2 (by simp [hpending]) fun _ => hrx

theorem exists_end (setup : Setup) {s : Channel} (h : Ending s) :
    ∃ ks t, StepSystem.Guarded (step setup) (fun s l => unaided setup s l = true) s ks ∧
      StepSystem.run (step setup) s ks = some t ∧ t.pending = [] ∧ t.rx = .stopped := by
  have hstep : ∀ s, Ending s → ¬ (s.rx = .stopped ∧ s.pending = []) →
      ∃ l s', unaided setup s l = true ∧ step setup s l = some s' ∧ Ending s' ∧
        workLeft s' < workLeft s := by
    intro s hs hleft
    obtain ⟨l, s', hl, hone, hless⟩ := exists_unaided setup hs hleft
    exact ⟨l, s', hl, hone, step_ending hs hone, hless⟩
  obtain ⟨ks, t, hks, hrun, -, hrx, hpending⟩ :=
    StepSystem.exists_guarded_run workLeft hstep h
  exact ⟨ks, t, hks, hrun, hpending, hrx⟩

theorem run_joinFree {setup : Setup} {s : Channel} {ls : List Label}
    (hrun : run setup ls = some s) : JoinFree s := by
  have hstart : JoinFree opened := List.not_mem_nil
  exact StepSystem.run_invariant (fun _ _ _ h hstep => move_joinFree h (step_move hstep))
    hstart hrun

/-- From every state in which the channel is closed or being closed, its end can be reached
without a new call and without anything from the wire: every call returns, those that join the
RX thread and those that wait for a frame among them, and the thread has stopped. -/
theorem close_completes (setup : Setup) (ls : List Label) (s : Channel)
    (hrun : run setup ls = some s) (hclosed : s.isOpen = false) :
    ∃ ks t, StepSystem.Guarded (step setup) (fun s l => unaided setup s l = true) s ks ∧
      StepSystem.run (step setup) s ks = some t ∧ t.pending = [] ∧ t.rx = .stopped := by
  have hfree := run_joinFree hrun
  have hwinding := run_winding hrun hclosed
  rcases (run_orderly hrun).halted hclosed with hoff | ⟨caller, hmem⟩
  · exact exists_end setup ⟨hoff, hfree, hwinding⟩
  · obtain ⟨i, hpending⟩ := List.mem_iff_getElem?.mp hmem
    -- the first statement of the close is still to come
    have hfirst : step setup s (.proceed i true) = some { s with
        running := false, pending := s.pending.set i (caller, .close .negotiated) } := by
      simp only [step, proceed, hpending, closeStep, Option.map_some]
    obtain ⟨ks, t, hks, hmore, hends⟩ := exists_end setup
      ⟨rfl, move_joinFree hfree (step_move hfirst), move_winding hwinding (step_move hfirst)⟩
    refine ⟨.proceed i true :: ks, t, ⟨rfl, fun s' hs' => ?_⟩, ?_, hends⟩
    · obtain rfl := Option.some.inj (hfirst.symm.trans hs')
      exact hks
    · exact StepSystem.run_cons.mpr ⟨_, hfirst, hmore⟩

/-- Once `running` is clear, the RX thread takes at most 1635 more steps, however many calls
are issued and however much the wire brings: no more than one datagram is worked off. -/
theorem stopping_bounded (setup : Setup) (ls ks : List Label) (s t : Channel)
    (hrun : run setup ls = some s) (hoff : s.running = false)
    (hmore : StepSystem.run (step setup) s ks = some t) :
    StepSystem.countSteps (step setup) isRx s ks ≤ 1635 := by
  have hstep : ∀ s l s', s.running = false → step setup s l = some s' →
      s'.running = false ∧ (isRx s l).toNat + RxPc.work s'.rx ≤ RxPc.work s.rx :=
    fun _ _ _ => step_work
  have hcount := StepSystem.countSteps_le_of_invariant (fun s : Channel => RxPc.work s.rx)
    hstep hoff hmore
  have hwork := run_work hrun
  have hlimit : RxPc.work .receiving = 1635 := rfl
  omega

/-- A reader waits, and the app closes the channel. -/
def closing : List Label :=
  [.loop, .request .app (.readWait ⟨none, none, none, none, none⟩), .canClose .app,
    .proceed 1 false]

/-- A classic TCP channel that checks no peers. -/
def openTcp : Setup := ⟨.tcp, false, [], false⟩

/-- On TCP the thread sits in its read, and the socket is still to be shut down. -/
theorem close_completes_readerWaits :
    (∃ s ks t, run openUdp closing = some s ∧ s.pending.length = 2 ∧
      StepSystem.run (step openUdp) s ks = some t ∧ t.pending = [] ∧ t.rx = .stopped) ∧
    ∃ s ks t, run openTcp closing = some s ∧ s.pending.length = 2 ∧ s.rx = .receiving ∧
      s.shutdown = false ∧
      StepSystem.Guarded (step openTcp) (fun s l => unaided openTcp s l = true) s ks ∧
      StepSystem.run (step openTcp) s ks = some t ∧ t.pending = [] ∧ t.rx = .stopped := by
  have hudp : ∃ s, run openUdp closing = some s ∧ s.pending.length = 2 ∧ s.isOpen = false :=
    ⟨_, rfl, rfl, rfl⟩
  have htcp : ∃ s, run openTcp closing = some s ∧ s.pending.length = 2 ∧ s.isOpen = false ∧
      s.rx = .receiving ∧ s.shutdown = false := ⟨_, rfl, rfl, rfl, rfl, rfl⟩
  constructor
  · obtain ⟨s, hrun, htwo, hclosed⟩ := hudp
    obtain ⟨ks, t, -, hends⟩ := close_completes openUdp closing s hrun hclosed
    exact ⟨s, ks, t, hrun, htwo, hends⟩
  · obtain ⟨s, hrun, htwo, hclosed, hrx, hopen⟩ := htcp
    obtain ⟨ks, t, hends⟩ := close_completes openTcp closing s hrun hclosed
    exact ⟨s, ks, t, hrun, htwo, hrx, hopen, hends⟩

/-- A callback is registered, the loop receives, and the app closes the channel. -/
def closingArmed : List Label :=
  [.request .app (.setNotify ⟨1, notifyRx, 0⟩), .proceed 0 false, .loop, .canClose .app,
    .proceed 0 false]

/-- A datagram with two empty frames comes in all the same, and the callback is called for
both. -/
def lastDatagram : List Label :=
  [.datagram (.v4 0) [2, 0, 0, 0, 2, 0, 0, 0, 1, 0, 0, 0, 0, 2, 0], .advance, .enqueue 1,
    .notify, .callbackReturn, .advance, .enqueue 2, .notify, .callbackReturn, .advance, .loop]

theorem stopping_bounded_readerWaits :
    ∃ s t : Channel, run openUdp closingArmed = some s ∧
      StepSystem.run (step openUdp) s lastDatagram = some t ∧ t.calls.length = 2 ∧
      t.rx = .stopped ∧ StepSystem.countSteps (step openUdp) isRx s lastDatagram ≤ 1635 := by
  have hruns : ∃ s t, run openUdp closingArmed = some s ∧ s.running = false ∧
      StepSystem.run (step openUdp) s lastDatagram = some t ∧ t.calls.length = 2 ∧
      t.rx = .stopped := ⟨_, _, rfl, rfl, rfl, rfl, rfl⟩
  obtain ⟨s, t, hrun, hoff, hmore, htwo, hstopped⟩ := hruns
  exact ⟨s, t, hrun, hmore, htwo, hstopped,
    stopping_bounded openUdp closingArmed lastDatagram s t hrun hoff hmore⟩

end Kvasilloni.CloseCompletes
