import Kvasilloni.ReadTimes

/-!
What is queued is read. From any state of a channel on, as long as nothing is flushed, the
reads give first what is queued in that state, in its order, and whatever has not been read is
still queued: neither a close nor a lost link nor a change of the filter takes a frame away.
So a frame that a status poll or `canReadSync` has seen stays there for the next read.
-/
namespace Kvasilloni.QueuedReads

open CheckedMemory Frames Datagrams Streams Marshal SharedRing Reception ReadBounds ReadTimes

/-- The step empties the queue for `canFlushReceiveQueue`. -/
def flushes (s : Channel) : Label → Bool
  | .proceed i _ => s.pending[i]?.map Prod.snd == some (.request .flush)
  | _ => false

/-- What is queued in `s` has been read up to `t`, in its order, or is still queued there. -/
def Follows (setup : Setup) (s t : Channel) : Prop :=
  ∃ new fs, t.reads = s.reads ++ new ∧ List.Forall₂ (Gave setup) new fs ∧
    s.shared.q <+: fs ++ t.shared.q

theorem Follows.of_grows {setup : Setup} {s t : Channel} (hreads : t.reads = s.reads)
    (hq : s.shared.q <+: t.shared.q) : Follows setup s t :=
  ⟨[], [], by rw [hreads, List.append_nil], .nil, hq⟩

theorem Follows.refl (setup : Setup) (s : Channel) : Follows setup s s :=
  .of_grows rfl (List.prefix_refl _)

theorem Follows.trans {setup : Setup} {s t u : Channel} (h : Follows setup s t)
    (hmore : Follows setup t u) : Follows setup s u := by
  obtain ⟨new, fs, hreads, hgave, hq⟩ := h
  obtain ⟨new', fs', hreads', hgave', hq'⟩ := hmore
  refine ⟨new ++ new', fs ++ fs', ?_, List.rel_append hgave hgave', ?_⟩
  · rw [hreads', hreads, List.append_assoc]
  · have hmoved : fs ++ t.shared.q <+: fs ++ (fs' ++ u.shared.q) :=
      (List.prefix_append_right_inj fs).mpr hq'
    rw [List.append_assoc]
    exact hq.trans hmoved

/-! ### Steps -/

theorem tearDown_follows (setup : Setup) (s : Channel) : Follows setup s (tearDown setup s) := by
  unfold tearDown
  split
  · exact .of_grows rfl (List.prefix_refl _)
  · exact .of_grows rfl (List.prefix_refl _)

theorem loopHead_follows (setup : Setup) (s : Channel) : Follows setup s (loopHead setup s) := by
  have hreceiving : Follows setup s { s with rx := .receiving } :=
    .of_grows rfl (List.prefix_refl _)
  unfold loopHead
  split
  · exact tearDown_follows setup s
  · split
    · exact hreceiving
    · exact tearDown_follows setup s
    · split
      · exact tearDown_follows setup s
      · exact hreceiving

theorem receiveChunk_follows (setup : Setup) (s : Channel) (rx : RxStream) (bytes : Bytes) :
    Follows setup s (receiveChunk setup s rx bytes) := by
  unfold receiveChunk
  dsimp only
  split
  · exact .of_grows rfl (List.prefix_refl _)
  · exact .of_grows rfl (List.prefix_refl _)
  · have hkept : Follows setup s { s with stream := s.stream ++ bytes } :=
      .of_grows rfl (List.prefix_refl _)
    exact hkept.trans (tearDown_follows setup _)

theorem advance_follows (setup : Setup) (s : Channel) (batch : List Frame) :
    Follows setup s (advance setup s batch) := by
  cases batch with
  | nil =>
    dsimp only [advance]
    split
    · exact tearDown_follows setup s
    · exact .of_grows rfl (List.prefix_refl _)
  | cons f batch =>
    dsimp only [advance]
    split
    · exact .of_grows rfl (List.prefix_refl _)
    · exact .of_grows rfl (List.prefix_refl _)

/-- A frame is queued behind the others, and a dropped one drops nothing else. -/
theorem enqueueFrame_follows (setup : Setup) (s : Channel) (now : UInt64) (f : Frame)
    (batch : List Frame) : Follows setup s (enqueueFrame s now f batch) := by
  unfold enqueueFrame Shared.enqueue
  by_cases hfull : s.shared.q.length ≥ ringCap
  · rw [if_pos hfull]
    exact .of_grows rfl (List.prefix_refl _)
  · rw [if_neg hfull]
    exact .of_grows rfl (List.prefix_append _ _)

theorem rxMove_follows {setup : Setup} {s t : Channel} (h : RxMove setup s t) :
    Follows setup s t := by
  cases h with
  | loop hrx => exact loopHead_follows setup s
  | datagram hrx hudp source bytes =>
    unfold receiveDatagram
    split
    · exact .of_grows rfl (List.prefix_refl _)
    · exact .of_grows rfl (List.prefix_refl _)
  | chunk hrx htcp rx hdecoder bytes hlen => exact receiveChunk_follows setup s rx bytes
  | timeout hrx => exact .of_grows rfl (List.prefix_refl _)
  | fail hrx => exact tearDown_follows setup s
  | advance batch hrx => exact advance_follows setup s batch
  | enqueue f batch hrx now => exact enqueueFrame_follows setup s now f batch
  | notify f batch hrx =>
    unfold notifyFrame
    split
    · exact .of_grows rfl (List.prefix_refl _)
    · exact .of_grows rfl (List.prefix_refl _)
  | callbackReturn batch hrx => exact .of_grows rfl (List.prefix_refl _)

/-- The head of the queue has been read. -/
theorem deliver_follows (setup : Setup) (s : Channel) (out : ReadArgs) :
    Follows setup s (deliver setup s out s.shared.pop) := by
  unfold Shared.pop
  cases hq : s.shared.q with
  | nil => exact .refl setup s
  | cons f q =>
    refine ⟨_, [f], rfl, .cons rfl .nil, ?_⟩
    rw [hq]
    exact List.prefix_refl _

theorem perform_follows {setup : Setup} {s s' : Channel} {timedOut : Bool} {r : Request}
    (hr : r ≠ .flush) (hperform : perform setup s timedOut r = some s') :
    Follows setup s s' := by
  cases r with
  | read out =>
    obtain rfl := Option.some.inj hperform
    exact deliver_follows setup s out
  | readWait out =>
    simp only [perform, Shared.popWait] at hperform
    split at hperform
    · obtain rfl := Option.some.inj hperform
      exact deliver_follows setup s out
    · cases hperform
  | readSync =>
    obtain ⟨b, -, rfl⟩ := Option.map_eq_some_iff.mp hperform
    exact .refl setup s
  | flush => exact absurd rfl hr
  | accept flag envelope =>
    obtain rfl := Option.some.inj hperform
    exact .of_grows rfl (List.prefix_refl _)
  | setNotify n =>
    obtain rfl := Option.some.inj hperform
    exact .of_grows rfl (List.prefix_refl _)

theorem closeStep_follows {setup : Setup} {s s' : Channel} {caller : Caller}
    {stage : CloseStage} {next : Option CloseStage}
    (hclose : closeStep s caller stage = some (s', next)) : Follows setup s s' := by
  cases stage with
  | join =>
    simp only [closeStep] at hclose
    split at hclose
    · obtain ⟨rfl, -⟩ := Prod.mk.inj (Option.some.inj hclose)
      exact .refl setup s
    · cases hclose
  | running | negotiated | markClosed | shutdown | takeHandle =>
    obtain ⟨rfl, -⟩ := Prod.mk.inj (Option.some.inj hclose)
    exact .of_grows rfl (List.prefix_refl _)

theorem proceed_follows {setup : Setup} {s s' : Channel} {i : ℕ} {timedOut : Bool}
    (hquiet : flushes s (.proceed i timedOut) = false)
    (hproceed : proceed setup s i timedOut = some s') : Follows setup s s' := by
  unfold proceed at hproceed
  split at hproceed
  · cases hproceed
  · rename_i caller r hpending
    obtain ⟨t, ht, rfl⟩ := Option.map_eq_some_iff.mp hproceed
    have hr : r ≠ .flush := by
      rintro rfl
      simp [flushes, hpending] at hquiet
    exact (perform_follows hr ht).trans (.of_grows rfl (List.prefix_refl _))
  · obtain ⟨⟨t, next⟩, ht, rfl⟩ := Option.map_eq_some_iff.mp hproceed
    have hclosed : Follows setup s t := closeStep_follows ht
    cases next with
    | none => exact hclosed.trans (.of_grows rfl (List.prefix_refl _))
    | some stage => exact hclosed.trans (.of_grows rfl (List.prefix_refl _))

theorem step_follows {setup : Setup} {s s' : Channel} {l : Label} (hquiet : flushes s l = false)
    (hstep : step setup s l = some s') : Follows setup s s' := by
  cases l with
  | request caller r =>
    simp only [step] at hstep
    split at hstep
    · obtain rfl := Option.some.inj hstep
      unfold request
      split
      · exact .of_grows rfl (List.prefix_refl _)
      · exact .refl setup s
    · cases hstep
  | canClose caller =>
    simp only [step] at hstep
    split at hstep
    · obtain rfl := Option.some.inj hstep
      unfold canClose
      split
      · exact .of_grows rfl (List.prefix_refl _)
      · exact .of_grows rfl (List.prefix_refl _)
    · cases hstep
  | proceed i timedOut => exact proceed_follows hquiet hstep
  | _ => exact rxMove_follows (rxStep_move hstep)

/-! ### Runs -/

theorem run_follows {setup : Setup} {s t : Channel} {ls : List Label}
    (hquiet : StepSystem.Guarded (step setup) (fun s l => flushes s l = false) s ls)
    (hrun : StepSystem.run (step setup) s ls = some t) : Follows setup s t := by
  have hstep : ∀ u l u', Follows setup s u → flushes u l = false → step setup u l = some u' →
      Follows setup s u' := fun u l u' h hquiet hl => h.trans (step_follows hquiet hl)
  exact StepSystem.run_invariant_of_guarded hstep (.refl setup s) hquiet hrun

/-- The head of the queue is what a read gives. -/
theorem read_gives_head {setup : Setup} {t : Channel} {i : ℕ} {caller : Caller} {out : ReadArgs}
    (hpending : t.pending[i]? = some (caller, .request (.read out))) {f : Frame}
    (hhead : t.shared.q.head? = some f) :
    ∃ u, step setup t (.proceed i false) = some u ∧
      u.reads = t.reads ++ [⟨out, writeReadOutputs f out setup.fdCapable⟩] := by
  obtain ⟨q, hq⟩ := List.head?_eq_some_iff.mp hhead
  simp only [step, proceed, hpending, perform, Shared.pop, hq, deliver]
  exact ⟨_, rfl, rfl⟩

/-- However the calls of the app and its callback interleave with the RX thread, the reads
from a state on give first what is queued in it, in its order, and what they have not given
is still queued, unless the queue is flushed. So the next read gives the frame in the place
that the number of the reads so far says. -/
theorem queued_is_read {setup : Setup} {s t : Channel} {ls : List Label}
    (hquiet : StepSystem.Guarded (step setup) (fun s l => flushes s l = false) s ls)
    (hrun : StepSystem.run (step setup) s ls = some t) :
    ∃ new fs, t.reads = s.reads ++ new ∧ List.Forall₂ (Gave setup) new fs ∧
      s.shared.q <+: fs ++ t.shared.q ∧
      ∀ f i caller out, s.shared.q[new.length]? = some f →
        t.pending[i]? = some (caller, .request (.read out)) →
        ∃ u, step setup t (.proceed i false) = some u ∧
          u.reads = t.reads ++ [⟨out, writeReadOutputs f out setup.fdCapable⟩] := by
  obtain ⟨new, fs, hreads, hgave, hq⟩ := run_follows hquiet hrun
  refine ⟨new, fs, hreads, hgave, hq, fun f i caller out hf hpending => ?_⟩
  refine read_gives_head hpending ?_
  obtain ⟨later, hlater⟩ := hq
  have hfound : (fs ++ t.shared.q)[fs.length]? = some f := by
    rw [← hlater, ← hgave.length_eq]
    have hlt := (List.getElem?_eq_some_iff.mp hf).1
    rwa [List.getElem?_append_left hlt]
  rw [List.getElem?_append_right (Nat.le_refl _), Nat.sub_self] at hfound
  rw [List.head?_eq_getElem?]
  exact hfound

/-- Two frames are queued; then one is read, the filter is set and the channel is closed. -/
def twoQueued : List Label :=
  [.loop, .datagram (.v4 0) [2, 0, 0, 0, 2, 0, 0, 1, 0x23, 1, 0xAA, 0, 0, 1, 0x24, 1, 0xBB],
    .advance, .enqueue 5, .notify, .advance, .enqueue 6, .notify]

def readAndClose : List Label :=
  [.request .app (.read ⟨none, some [9, 9], none, none, none⟩), .proceed 0 false,
    .request .app (.accept 3 0x7FF), .proceed 0 false,
    .request .app (.read ⟨none, some [9, 9], none, none, none⟩), .canClose .app,
    .proceed 1 false, .proceed 1 false, .proceed 1 false]

theorem queued_is_read_closed :
    ∃ (s t : Channel) (new : List ReadRecord) (fs : List Frame),
      run openUdp twoQueued = some s ∧ s.shared.q.length = 2 ∧ t.shared.closed = true ∧
        t.reads = s.reads ++ new ∧ List.Forall₂ (Gave openUdp) new fs ∧
        s.shared.q <+: fs ++ t.shared.q ∧ new.length = 1 := by
  have hruns : ∃ s t, run openUdp twoQueued = some s ∧
      StepSystem.Guarded (step openUdp) (fun s l => flushes s l = false) s readAndClose ∧
      StepSystem.run (step openUdp) s readAndClose = some t ∧
      s.shared.q.length = 2 ∧ t.shared.closed = true ∧ s.reads.length = 0 ∧
      t.reads.length = 1 := ⟨_, _, rfl, by decide, rfl, rfl, rfl, rfl, rfl⟩
  obtain ⟨s, t, hfirst, hquiet, hrun, htwo, hclosed, hnone, hone⟩ := hruns
  obtain ⟨new, fs, hreads, hgave, hq, -⟩ := queued_is_read hquiet hrun
  refine ⟨s, t, new, fs, hfirst, htwo, hclosed, hreads, hgave, hq, ?_⟩
  have hlen := congrArg List.length hreads
  rw [List.length_append] at hlen
  omega

end Kvasilloni.QueuedReads
