import Kvasilloni.ReadOrder

/-!
The times that a channel reports. Each frame is stamped when it is pushed; what has been read
and what is queued carry, in this order, a subsequence of the clock's readings, and so do the
notifications. So no read and no notification reports an earlier time than the one before it,
but for the wrap of the 32 bits that the app sees.
-/
namespace Kvasilloni.ReadTimes

open CheckedMemory Frames Datagrams Streams Marshal SharedRing Reception ReadBounds

/-- The clock reading in a step: that of `push`. -/
def reading : Label → Option UInt64
  | .enqueue now => some now
  | _ => none

/-- The frame for which the registration is still to be read. -/
def RxPc.stamped : RxPc → List Frame
  | .queued f _ => [f]
  | _ => []

/-- The read gave this frame. -/
def Gave (setup : Setup) (r : ReadRecord) (f : Frame) : Prop :=
  r.result = writeReadOutputs f r.out setup.fdCapable

theorem Notify.call_time {n : Notify} {f : Frame} {d : NotifyData} (h : n.call f = some d) :
    d.time = f.rxTimeMs.toUInt32 := by
  unfold Notify.call at h
  split at h
  · obtain rfl := Option.some.inj h
    rfl
  · cases h

structure Timed (setup : Setup) (times : List UInt64) (s : Channel) : Prop where
  reads : ∃ fs, List.Forall₂ (Gave setup) s.reads fs ∧
    ((fs ++ s.shared.q).map Frame.rxTimeMs).Sublist times
  calls : ∃ ts : List UInt64, s.calls.map NotifyData.time = ts.map UInt64.toUInt32 ∧
    (ts ++ (RxPc.stamped s.rx).map Frame.rxTimeMs).Sublist times

theorem opened_timed (setup : Setup) : Timed setup [] opened :=
  ⟨⟨[], .nil, .refl _⟩, ⟨[], rfl, .refl _⟩⟩

/-- A step that reads, queues and stamps nothing. -/
theorem Timed.carry {setup : Setup} {times : List UInt64} {s t : Channel}
    (h : Timed setup times s) (hreads : t.reads = s.reads) (hq : t.shared.q = s.shared.q)
    (hcalls : t.calls = s.calls) (hrx : RxPc.stamped t.rx = RxPc.stamped s.rx) :
    Timed setup times t := by
  obtain ⟨hread, hcall⟩ := h
  exact ⟨by rwa [hreads, hq], by rwa [hcalls, hrx]⟩

theorem tearDown_timed {setup : Setup} {times : List UInt64} {s : Channel}
    (h : Timed setup times s) (hrx : RxPc.stamped s.rx = []) :
    Timed setup times (tearDown setup s) := by
  unfold tearDown
  split
  · exact h.carry rfl rfl rfl hrx.symm
  · exact h.carry rfl rfl rfl hrx.symm

theorem loopHead_timed {setup : Setup} {times : List UInt64} {s : Channel}
    (h : Timed setup times s) (hrx : s.rx = .head) : Timed setup times (loopHead setup s) := by
  have hnone : RxPc.stamped s.rx = [] := by rw [hrx]; rfl
  have hreceiving : Timed setup times { s with rx := .receiving } :=
    h.carry rfl rfl rfl hnone.symm
  unfold loopHead
  split
  · exact tearDown_timed h hnone
  · split
    · exact hreceiving
    · exact tearDown_timed h hnone
    · split
      · exact tearDown_timed h hnone
      · exact hreceiving

theorem receiveChunk_timed {setup : Setup} {times : List UInt64} {s : Channel}
    (h : Timed setup times s) (hrx : s.rx = .receiving) (rx : RxStream) (bytes : Bytes) :
    Timed setup times (receiveChunk setup s rx bytes) := by
  have hnone : RxPc.stamped s.rx = [] := by rw [hrx]; rfl
  have hkept : Timed setup times { s with stream := s.stream ++ bytes } :=
    h.carry rfl rfl rfl rfl
  unfold receiveChunk
  dsimp only
  cases rxChunk rx bytes with
  | next rx' => exact h.carry rfl rfl rfl hnone.symm
  | push f next => exact h.carry rfl rfl rfl hnone.symm
  | stop => exact tearDown_timed hkept hnone

theorem advance_timed {setup : Setup} {times : List UInt64} {s : Channel}
    (h : Timed setup times s) {batch : List Frame} (hrx : s.rx = .ingesting batch) :
    Timed setup times (advance setup s batch) := by
  have hnone : RxPc.stamped s.rx = [] := by rw [hrx]; rfl
  cases batch with
  | nil =>
    dsimp only [advance]
    split
    · exact tearDown_timed h hnone
    · exact h.carry rfl rfl rfl hnone.symm
  | cons f batch =>
    dsimp only [advance]
    split
    · exact h.carry rfl rfl rfl hnone.symm
    · exact h.carry rfl rfl rfl hnone.symm

/-- The reading of the clock goes with the frame to the end of the queue. -/
theorem enqueueFrame_timed {setup : Setup} {times : List UInt64} {s : Channel}
    (h : Timed setup times s) {f : Frame} {batch : List Frame} (hrx : s.rx = .filtered f batch)
    (now : UInt64) : Timed setup (times ++ [now]) (enqueueFrame s now f batch) := by
  obtain ⟨⟨fs, hread, hqueued⟩, ⟨ts, hcalls, hstamped⟩⟩ := h
  have hnone : RxPc.stamped s.rx = [] := by rw [hrx]; rfl
  rw [hnone, List.map_nil, List.append_nil] at hstamped
  unfold enqueueFrame Shared.enqueue
  by_cases hfull : s.shared.q.length ≥ ringCap
  · rw [if_pos hfull]
    refine ⟨⟨fs, hread, hqueued.trans (List.sublist_append_left _ _)⟩, ⟨ts, hcalls, ?_⟩⟩
    exact (by simpa [RxPc.stamped] using hstamped.trans (List.sublist_append_left _ _))
  · rw [if_neg hfull]
    refine ⟨⟨fs, hread, ?_⟩, ⟨ts, hcalls, hstamped.append_right [now]⟩⟩
    have hmore := hqueued.append_right [now]
    simpa [stamp] using hmore

theorem notifyFrame_timed {setup : Setup} {times : List UInt64} {s : Channel}
    (h : Timed setup times s) {f : Frame} {batch : List Frame} (hrx : s.rx = .queued f batch) :
    Timed setup times (notifyFrame s f batch) := by
  obtain ⟨hread, ⟨ts, hcalls, hstamped⟩⟩ := h
  rw [hrx] at hstamped
  unfold notifyFrame
  split
  · rename_i d hd
    have htime := Notify.call_time hd
    refine ⟨hread, ⟨ts ++ [f.rxTimeMs], ?_, by simpa [RxPc.stamped] using hstamped⟩⟩
    rw [List.map_append, List.map_append, hcalls, List.map_singleton, htime]
    exact rfl
  · refine ⟨hread, ⟨ts, hcalls, ?_⟩⟩
    have hfewer := (List.sublist_append_left ts [f.rxTimeMs]).trans hstamped
    simpa [RxPc.stamped] using hfewer

/-- The clock is read once more. -/
theorem Timed.later {setup : Setup} {times : List UInt64} {s : Channel}
    (h : Timed setup times s) (more : List UInt64) : Timed setup (times ++ more) s := by
  obtain ⟨⟨fs, hread, hqueued⟩, ⟨ts, hcalls, hstamped⟩⟩ := h
  have hmore := List.sublist_append_left times more
  exact ⟨⟨fs, hread, hqueued.trans hmore⟩, ⟨ts, hcalls, hstamped.trans hmore⟩⟩

theorem rxStep_timed {setup : Setup} {times : List UInt64} {s s' : Channel} {l : Label}
    (h : Timed setup times s) (hstep : rxStep setup s s.rx l = some s') :
    Timed setup (times ++ (reading l).toList) s' := by
  cases rxStep_move hstep with
  | loop hrx => exact (loopHead_timed h hrx).later _
  | datagram hrx hudp source bytes =>
    unfold receiveDatagram
    refine Timed.later ?_ _
    split
    · exact h.carry rfl rfl rfl (by rw [hrx]; rfl)
    · exact h.carry rfl rfl rfl (by rw [hrx]; rfl)
  | chunk hrx htcp rx hdecoder bytes hlen => exact (receiveChunk_timed h hrx rx bytes).later _
  | timeout hrx =>
    refine Timed.later ?_ _
    exact h.carry rfl rfl rfl (by rw [hrx]; rfl)
  | fail hrx => exact (tearDown_timed h (by rw [hrx]; rfl)).later _
  | advance batch hrx => exact (advance_timed h hrx).later _
  | enqueue f batch hrx now =>
    -- only the label knows which reading of the clock it was
    rw [hrx] at hstep
    cases l with
    | enqueue now' =>
      obtain hsame := Option.some.inj hstep
      rw [← hsame]
      exact enqueueFrame_timed h hrx now'
    | _ => cases hstep
  | notify f batch hrx => exact (notifyFrame_timed h hrx).later _
  | callbackReturn batch hrx =>
    refine Timed.later ?_ _
    exact h.carry rfl rfl rfl (by rw [hrx]; rfl)

/-- The head of the queue moves to the end of what has been read. -/
theorem deliver_timed {setup : Setup} {times : List UInt64} {s : Channel}
    (h : Timed setup times s) (out : ReadArgs) :
    Timed setup times (deliver setup s out s.shared.pop) := by
  unfold Shared.pop
  cases hq : s.shared.q with
  | nil => exact h
  | cons f q =>
    obtain ⟨⟨fs, hread, hqueued⟩, hcalls⟩ := h
    refine ⟨⟨fs ++ [f], List.rel_append hread (.cons rfl .nil), ?_⟩, hcalls⟩
    rw [hq] at hqueued
    rw [List.append_assoc]
    exact hqueued

theorem perform_timed {setup : Setup} {times : List UInt64} {s s' : Channel}
    (h : Timed setup times s) {timedOut : Bool} {r : Request}
    (hperform : perform setup s timedOut r = some s') : Timed setup times s' := by
  cases r with
  | read out =>
    obtain rfl := Option.some.inj hperform
    exact deliver_timed h out
  | readWait out =>
    simp only [perform, Shared.popWait] at hperform
    split at hperform
    · obtain rfl := Option.some.inj hperform
      exact deliver_timed h out
    · cases hperform
  | readSync =>
    obtain ⟨b, -, rfl⟩ := Option.map_eq_some_iff.mp hperform
    exact h
  | flush =>
    obtain rfl := Option.some.inj hperform
    obtain ⟨⟨fs, hread, hqueued⟩, hcalls⟩ := h
    refine ⟨⟨fs, hread, ?_⟩, hcalls⟩
    have hfewer : (fs ++ []).Sublist (fs ++ s.shared.q) :=
      (List.append_sublist_append_left fs).mpr (List.nil_sublist _)
    exact (hfewer.map Frame.rxTimeMs).trans hqueued
  | accept flag envelope =>
    obtain rfl := Option.some.inj hperform
    exact h.carry rfl rfl rfl rfl
  | setNotify n =>
    obtain rfl := Option.some.inj hperform
    exact h.carry rfl rfl rfl rfl

theorem closeStep_timed {setup : Setup} {times : List UInt64} {s s' : Channel}
    (h : Timed setup times s) {caller : Caller} {stage : CloseStage} {next : Option CloseStage}
    (hclose : closeStep s caller stage = some (s', next)) : Timed setup times s' := by
  cases stage with
  | join =>
    simp only [closeStep] at hclose
    split at hclose
    · obtain ⟨rfl, -⟩ := Prod.mk.inj (Option.some.inj hclose)
      exact h
    · cases hclose
  | running | negotiated | markClosed | shutdown | takeHandle =>
    obtain ⟨rfl, -⟩ := Prod.mk.inj (Option.some.inj hclose)
    exact h.carry rfl rfl rfl rfl

theorem proceed_timed {setup : Setup} {times : List UInt64} {s s' : Channel}
    (h : Timed setup times s) {i : ℕ} {timedOut : Bool}
    (hproceed : proceed setup s i timedOut = some s') : Timed setup times s' := by
  unfold proceed at hproceed
  split at hproceed
  · cases hproceed
  · obtain ⟨t, ht, rfl⟩ := Option.map_eq_some_iff.mp hproceed
    exact (perform_timed h ht).carry rfl rfl rfl rfl
  · obtain ⟨⟨t, next⟩, ht, rfl⟩ := Option.map_eq_some_iff.mp hproceed
    have hclosed := closeStep_timed h ht
    cases next with
    | none => exact hclosed.carry rfl rfl rfl rfl
    | some stage => exact hclosed.carry rfl rfl rfl rfl

theorem step_timed {setup : Setup} {times : List UInt64} {s s' : Channel} {l : Label}
    (h : Timed setup times s) (hstep : step setup s l = some s') :
    Timed setup (times ++ (reading l).toList) s' := by
  cases l with
  | request caller r =>
    simp only [step] at hstep
    split at hstep
    · obtain rfl := Option.some.inj hstep
      refine Timed.later ?_ _
      unfold request
      split
      · exact h.carry rfl rfl rfl rfl
      · exact h
    · cases hstep
  | canClose caller =>
    simp only [step] at hstep
    split at hstep
    · obtain rfl := Option.some.inj hstep
      refine Timed.later ?_ _
      unfold canClose
      split
      · exact h.carry rfl rfl rfl rfl
      · exact h.carry rfl rfl rfl rfl
    · cases hstep
  | proceed i timedOut => exact (proceed_timed h hstep).later _
  | _ => exact rxStep_timed h hstep

theorem run_timed {setup : Setup} {ls : List Label} {s s' : Channel} {times : List UInt64}
    (h : Timed setup times s) (hrun : StepSystem.run (step setup) s ls = some s') :
    Timed setup (times ++ ls.filterMap reading) s' := by
  induction ls generalizing s times with
  | nil =>
    obtain rfl := Option.some.inj hrun
    simpa using h
  | cons l ls ih =>
    obtain ⟨t, hl, hls⟩ := StepSystem.run_cons.mp hrun
    have hnext := ih (step_timed h hl) hls
    have hsame : (reading l).toList ++ ls.filterMap reading = (l :: ls).filterMap reading := by
      cases hreading : reading l with
      | none => simp [hreading]
      | some now => simp [hreading]
    rw [List.append_assoc, hsame] at hnext
    exact hnext

/-- A read that asks for the time gets this one. -/
def TimeOf (r : ReadRecord) (t : UInt64) : Prop :=
  ∀ after, r.result = .ok after → after.time = r.out.time.map fun _ => t.toUInt32

theorem Gave.time {setup : Setup} {r : ReadRecord} {f : Frame} (h : Gave setup r f) :
    TimeOf r f.rxTimeMs := by
  intro after hafter
  rw [h, writeReadOutputs_withHead] at hafter
  split at hafter
  · obtain rfl := Except.ok.inj hafter
    exact rfl
  · split at hafter
    · obtain ⟨src, -, hmsg⟩ := bind_eq_ok.mp hafter
      obtain ⟨dst, -, hresult⟩ := bind_eq_ok.mp hmsg
      obtain rfl := Except.ok.inj hresult
      exact rfl
    · obtain rfl := Except.ok.inj hafter
      exact rfl

/-- On a clock that does not go back, the times of a channel's reads never decrease, and
neither do those of its notifications: they are subsequences of the times at which the
received frames were pushed, cut to the 32 bits that the app sees. -/
theorem read_times (setup : Setup) (ls : List Label) (s : Channel)
    (hrun : run setup ls = some s) (hclock : (ls.filterMap reading).Pairwise (· ≤ ·)) :
    ∃ read called : List UInt64,
      List.Forall₂ TimeOf s.reads read ∧ read.Sublist (ls.filterMap reading) ∧
        read.Pairwise (· ≤ ·) ∧
      s.calls.map NotifyData.time = called.map UInt64.toUInt32 ∧
        called.Sublist (ls.filterMap reading) ∧ called.Pairwise (· ≤ ·) := by
  have htimed := run_timed (opened_timed setup) hrun
  rw [List.nil_append] at htimed
  obtain ⟨⟨fs, hread, hqueued⟩, ⟨called, hcalls, hstamped⟩⟩ := htimed
  have hreads : (fs.map Frame.rxTimeMs).Sublist (ls.filterMap reading) :=
    ((List.sublist_append_left fs _).map _).trans hqueued
  have hcalled := (List.sublist_append_left called _).trans hstamped
  have htimes : List.Forall₂ TimeOf s.reads (fs.map Frame.rxTimeMs) := by
    rw [List.forall₂_map_right_iff]
    exact hread.imp fun r f hgave => hgave.time
  exact ⟨_, called, htimes, hreads, hclock.sublist hreads, hcalls, hcalled,
    hclock.sublist hcalled⟩

theorem read_times_oneRead :
    ∃ (s : Channel) (read : List UInt64), s.reads.length = 1 ∧
      List.Forall₂ TimeOf s.reads read ∧ read.Sublist [5] := by
  have hrun : ∃ s, run openUdp oneRead = some s ∧ s.reads.length = 1 := ⟨_, rfl, rfl⟩
  obtain ⟨s, hrun, hone⟩ := hrun
  obtain ⟨read, -, htimes, hsub, -⟩ :=
    read_times openUdp oneRead s hrun (List.pairwise_singleton _ _)
  exact ⟨s, read, hone, htimes, hsub⟩

end Kvasilloni.ReadTimes
