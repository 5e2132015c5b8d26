import Kvasilloni.ReadBounds
import Mathlib.Data.List.Forall2

/-!
The order in which a channel reads. What has been read, what is queued and what waits to be
pushed is, in this order, a subsequence of what the wire has brought: a frame may be refused
by the filter, dropped for lack of room or flushed, but none comes twice, none comes before
an earlier one, and none comes that was not received.
-/
namespace Kvasilloni.ReadOrder

open CheckedMemory Frames Datagrams Streams Marshal SharedRing Reception ReadBounds

/-- The frames that the wire has brought so far. -/
def received (setup : Setup) (s : Channel) : List Frame :=
  match setup.transport with
  | .udp => s.datagrams.flatMap datagramFrames
  | .tcp => (decodeTcp s.stream).frames

/-- The read gave this frame, with some receive time. -/
def ReadOf (setup : Setup) (r : ReadRecord) (w : Frame) : Prop :=
  ∃ now, r.result = writeReadOutputs (stamp now w) r.out setup.fdCapable

def Stamped (f w : Frame) : Prop := ∃ now, f = stamp now w

/-- What has been read and what is queued goes back to these frames. -/
structure Accounts (setup : Setup) (s : Channel) (read queued : List Frame) : Prop where
  read : List.Forall₂ (ReadOf setup) s.reads read
  queued : List.Forall₂ Stamped s.shared.q queued

def Ordered (setup : Setup) (s : Channel) : Prop :=
  ∃ read queued, Accounts setup s read queued ∧
    (read ++ queued ++ s.rx.unpushed).Sublist (received setup s)

theorem opened_ordered (setup : Setup) : Ordered setup opened :=
  ⟨[], [], ⟨.nil, .nil⟩, List.nil_sublist _⟩

/-- A step that reads and queues nothing new keeps the order. -/
theorem Ordered.carry {setup : Setup} {s t : Channel} (h : Ordered setup s)
    (hreads : t.reads = s.reads) (hq : t.shared.q = s.shared.q)
    (hunpushed : t.rx.unpushed.Sublist s.rx.unpushed)
    (hreceived : (received setup s).Sublist (received setup t)) : Ordered setup t := by
  obtain ⟨read, queued, ⟨hread, hqueued⟩, hsub⟩ := h
  refine ⟨read, queued, ⟨hreads ▸ hread, hq ▸ hqueued⟩, ?_⟩
  exact ((List.append_sublist_append_left _).mpr hunpushed).trans (hsub.trans hreceived)

/-- New frames arrive while none waits to be pushed. -/
theorem Ordered.arrive {setup : Setup} {s t : Channel} (h : Ordered setup s)
    (hreads : t.reads = s.reads) (hq : t.shared.q = s.shared.q)
    (hnone : s.rx.unpushed = [])
    (hreceived : (received setup s ++ t.rx.unpushed).Sublist (received setup t)) :
    Ordered setup t := by
  obtain ⟨read, queued, ⟨hread, hqueued⟩, hsub⟩ := h
  rw [hnone, List.append_nil] at hsub
  exact ⟨read, queued, ⟨hreads ▸ hread, hq ▸ hqueued⟩,
    (hsub.append_right _).trans hreceived⟩

theorem tearDown_ordered {setup : Setup} {s : Channel} (h : Ordered setup s) :
    Ordered setup (tearDown setup s) := by
  unfold tearDown
  split
  · exact h.carry rfl rfl (List.nil_sublist _) (List.Sublist.refl _)
  · exact h.carry rfl rfl (List.nil_sublist _) (List.Sublist.refl _)

theorem loopHead_ordered {setup : Setup} {s : Channel} (h : Ordered setup s) :
    Ordered setup (loopHead setup s) := by
  have hreceiving : Ordered setup { s with rx := .receiving } :=
    h.carry rfl rfl (List.nil_sublist _) (List.Sublist.refl _)
  unfold loopHead
  split
  · exact tearDown_ordered h
  · split
    · exact hreceiving
    · exact tearDown_ordered h
    · split
      · exact tearDown_ordered h
      · exact hreceiving

theorem receiveDatagram_ordered {setup : Setup} {s : Channel} (h : Ordered setup s)
    (hudp : setup.transport = .udp) (hrx : s.rx = .receiving) (source : IpAddr) (bytes : Bytes) :
    Ordered setup (receiveDatagram setup s source bytes) := by
  unfold receiveDatagram
  split
  · refine h.arrive rfl rfl (by rw [hrx]; rfl) ?_
    simp only [received, hudp, List.flatMap_append, List.flatMap_singleton]
    exact List.Sublist.refl _
  · exact h.carry rfl rfl (List.nil_sublist _) (List.Sublist.refl _)

/-- What a chunk adds to the frames that the stream begins with. -/
theorem chunk_received {setup : Setup} {s : Channel} (h : Sound setup s)
    (htcp : setup.transport = .tcp) (hrx : s.rx = .receiving) {rx : RxStream}
    (hdecoder : s.decoder = some rx) {bytes : Bytes} (hlen : bytes.length = rx.need) :
    (decodeTcp (s.stream ++ bytes)).frames = (decodeTcp s.stream).frames ++
      match rxChunk rx bytes with
      | .next rx' => (tcpRxLoop rx' []).frames
      | .push f (some rx') => f :: (tcpRxLoop rx' []).frames
      | .push f none => [f]
      | .stop => [] := by
  obtain ⟨hpos, hle⟩ := h.reading hrx htcp rx hdecoder
  obtain ⟨rx', fs, hsame, hframes⟩ := h.decoding htcp (by simp [hrx])
  obtain rfl := Option.some.inj (hdecoder.symm.trans hsame)
  have hnow := hframes []
  rw [List.append_nil, tcpRxLoop_waiting rx [] hpos hle (by simpa using hpos),
    List.append_nil] at hnow
  have hstep := tcpRxLoop_step rx bytes [] hlen hpos hle
  rw [List.append_nil] at hstep
  rw [hframes bytes, hnow, hstep]
  cases rxChunk rx bytes with
  | next rx' => rfl
  | push f next => cases next <;> rfl
  | stop => rfl

theorem receiveChunk_ordered {setup : Setup} {s : Channel} (h : Ordered setup s)
    (hsound : Sound setup s) (htcp : setup.transport = .tcp) (hrx : s.rx = .receiving)
    {rx : RxStream} (hdecoder : s.decoder = some rx) {bytes : Bytes}
    (hlen : bytes.length = rx.need) : Ordered setup (receiveChunk setup s rx bytes) := by
  have hgrown := chunk_received hsound htcp hrx hdecoder hlen
  have hnone : s.rx.unpushed = [] := by rw [hrx]; rfl
  have hmore : (received setup s).Sublist
      (received setup { s with stream := s.stream ++ bytes }) := by
    simp only [received, htcp, hgrown]
    exact List.sublist_append_left _ _
  have hkept : Ordered setup { s with stream := s.stream ++ bytes } :=
    h.carry rfl rfl (List.Sublist.refl _) hmore
  unfold receiveChunk
  dsimp only
  cases hchunk : rxChunk rx bytes with
  | next rx' => exact hkept.carry rfl rfl (List.nil_sublist _) (List.Sublist.refl _)
  | push f next =>
    refine h.arrive rfl rfl hnone ?_
    rw [hchunk] at hgrown
    simp only [received, htcp, hgrown, RxPc.unpushed]
    refine (List.append_sublist_append_left _).mpr ?_
    cases next with
    | none => exact List.Sublist.refl _
    | some rx' => exact (List.nil_sublist _).cons_cons f
  | stop => exact tearDown_ordered hkept

theorem advance_ordered {setup : Setup} {s : Channel} (h : Ordered setup s)
    {batch : List Frame} (hrx : s.rx = .ingesting batch) :
    Ordered setup (advance setup s batch) := by
  cases batch with
  | nil =>
    dsimp only [advance]
    split
    · exact tearDown_ordered h
    · exact h.carry rfl rfl (List.nil_sublist _) (List.Sublist.refl _)
  | cons f batch =>
    dsimp only [advance]
    split
    · exact h.carry rfl rfl (by rw [hrx]; exact List.Sublist.refl _) (List.Sublist.refl _)
    · exact h.carry rfl rfl (by rw [hrx]; exact List.sublist_cons_self f batch)
        (List.Sublist.refl _)

/-- The frame at the head of the batch moves to the end of the queue. -/
theorem enqueueFrame_ordered {setup : Setup} {s : Channel} (h : Ordered setup s)
    {f : Frame} {batch : List Frame} (hrx : s.rx = .filtered f batch) (now : UInt64) :
    Ordered setup (enqueueFrame s now f batch) := by
  unfold enqueueFrame Shared.enqueue
  by_cases hfull : s.shared.q.length ≥ ringCap
  · rw [if_pos hfull]
    exact h.carry rfl rfl (by rw [hrx]; exact List.sublist_cons_self f batch)
      (List.Sublist.refl _)
  · rw [if_neg hfull]
    obtain ⟨read, queued, ⟨hread, hqueued⟩, hsub⟩ := h
    refine ⟨read, queued ++ [f], ⟨hread, ?_⟩, ?_⟩
    · exact List.rel_append hqueued (.cons ⟨now, rfl⟩ .nil)
    · have hmoved : read ++ (queued ++ [f]) ++ batch = read ++ queued ++ (f :: batch) := by
        simp only [List.append_assoc, List.singleton_append]
      rw [hrx] at hsub
      exact hmoved ▸ hsub

theorem notifyFrame_ordered {setup : Setup} {s : Channel} (h : Ordered setup s)
    {f : Frame} {batch : List Frame} (hrx : s.rx = .queued f batch) :
    Ordered setup (notifyFrame s f batch) := by
  have hbatch : batch.Sublist s.rx.unpushed := by
    rw [hrx]
    exact List.Sublist.refl _
  unfold notifyFrame
  split
  · exact h.carry rfl rfl hbatch (List.Sublist.refl _)
  · exact h.carry rfl rfl hbatch (List.Sublist.refl _)

theorem rxMove_ordered {setup : Setup} {s s' : Channel} (h : Ordered setup s)
    (hsound : Sound setup s) (hmove : RxMove setup s s') : Ordered setup s' := by
  cases hmove with
  | loop hrx => exact loopHead_ordered h
  | datagram hrx hudp source bytes => exact receiveDatagram_ordered h hudp hrx source bytes
  | chunk hrx htcp rx hdecoder bytes hlen =>
    exact receiveChunk_ordered h hsound htcp hrx hdecoder hlen
  | timeout hrx => exact h.carry rfl rfl (List.nil_sublist _) (List.Sublist.refl _)
  | fail hrx => exact tearDown_ordered h
  | advance batch hrx => exact advance_ordered h hrx
  | enqueue f batch hrx now => exact enqueueFrame_ordered h hrx now
  | notify f batch hrx => exact notifyFrame_ordered h hrx
  | callbackReturn batch hrx =>
    exact h.carry rfl rfl (by rw [hrx]; exact List.Sublist.refl _) (List.Sublist.refl _)

/-- The head of the queue moves to the end of what has been read. -/
theorem deliver_ordered {setup : Setup} {s : Channel} (h : Ordered setup s) (out : ReadArgs) :
    Ordered setup (deliver setup s out s.shared.pop) := by
  unfold Shared.pop
  cases hq : s.shared.q with
  | nil => exact h
  | cons f q =>
    obtain ⟨read, queued, ⟨hread, hqueued⟩, hsub⟩ := h
    rw [hq] at hqueued
    cases hqueued with
    | cons hf hrest =>
      rename_i w queued
      obtain ⟨now, rfl⟩ := hf
      refine ⟨read ++ [w], queued, ⟨?_, hrest⟩, ?_⟩
      · exact List.rel_append hread (.cons ⟨now, rfl⟩ .nil)
      · have hmoved : read ++ [w] ++ queued ++ s.rx.unpushed =
            read ++ (w :: queued) ++ s.rx.unpushed := by
          simp only [List.append_assoc, List.singleton_append]
        exact hmoved ▸ hsub

theorem perform_ordered {setup : Setup} {s s' : Channel} (h : Ordered setup s)
    {timedOut : Bool} {r : Request} (hperform : perform setup s timedOut r = some s') :
    Ordered setup s' := by
  cases r with
  | read out =>
    obtain rfl := Option.some.inj hperform
    exact deliver_ordered h out
  | readWait out =>
    simp only [perform, Shared.popWait] at hperform
    split at hperform
    · obtain rfl := Option.some.inj hperform
      exact deliver_ordered h out
    · cases hperform
  | readSync =>
    obtain ⟨b, -, rfl⟩ := Option.map_eq_some_iff.mp hperform
    exact h
  | flush =>
    obtain rfl := Option.some.inj hperform
    obtain ⟨read, queued, ⟨hread, -⟩, hsub⟩ := h
    refine ⟨read, [], ⟨hread, .nil⟩, List.Sublist.trans ?_ hsub⟩
    rw [List.append_nil, List.append_assoc]
    exact (List.append_sublist_append_left _).mpr (List.sublist_append_right _ _)
  | accept flag envelope =>
    obtain rfl := Option.some.inj hperform
    exact h.carry rfl rfl (List.Sublist.refl _) (List.Sublist.refl _)
  | setNotify n =>
    obtain rfl := Option.some.inj hperform
    exact h.carry rfl rfl (List.Sublist.refl _) (List.Sublist.refl _)

theorem closeStep_ordered {setup : Setup} {s s' : Channel} (h : Ordered setup s)
    {caller : Caller} {stage : CloseStage} {next : Option CloseStage}
    (hclose : closeStep s caller stage = some (s', next)) : Ordered setup s' := by
  cases stage with
  | join =>
    simp only [closeStep] at hclose
    split at hclose
    · obtain ⟨rfl, -⟩ := Prod.mk.inj (Option.some.inj hclose)
      exact h
    · cases hclose
  | running | negotiated | markClosed | shutdown | takeHandle =>
    obtain ⟨rfl, -⟩ := Prod.mk.inj (Option.some.inj hclose)
    exact h.carry rfl rfl (List.Sublist.refl _) (List.Sublist.refl _)

theorem move_ordered {setup : Setup} {s s' : Channel} (h : Ordered setup s)
    (hsound : Sound setup s) (hmove : Move setup s s') : Ordered setup s' := by
  cases hmove with
  | rx s' hmove => exact rxMove_ordered h hsound hmove
  | request caller r =>
    unfold request
    split
    · exact h.carry rfl rfl (List.Sublist.refl _) (List.Sublist.refl _)
    · exact h
  | canClose caller =>
    unfold canClose
    split
    · exact h.carry rfl rfl (List.Sublist.refl _) (List.Sublist.refl _)
    · exact h.carry rfl rfl (List.Sublist.refl _) (List.Sublist.refl _)
  | perform i timedOut caller r t hpending hperform =>
    exact (perform_ordered h hperform).carry rfl rfl (List.Sublist.refl _)
      (List.Sublist.refl _)
  | closing i caller stage next t hpending hclose =>
    exact (closeStep_ordered h hclose).carry rfl rfl (List.Sublist.refl _)
      (List.Sublist.refl _)
  | closed i caller stage t hpending hclose =>
    exact (closeStep_ordered h hclose).carry rfl rfl (List.Sublist.refl _)
      (List.Sublist.refl _)

theorem run_ordered {setup : Setup} {s : Channel} {ls : List Label}
    (hrun : run setup ls = some s) : Ordered setup s := by
  have hstep : ∀ s l s', Sound setup s ∧ Ordered setup s → step setup s l = some s' →
      Sound setup s' ∧ Ordered setup s' := by
    rintro s l s' ⟨hsound, hordered⟩ h
    have hmove := step_move h
    exact ⟨move_sound hsound hmove, move_ordered hordered hsound hmove⟩
  exact (StepSystem.run_invariant hstep ⟨opened_sound setup, opened_ordered setup⟩ hrun).2

theorem Ordered.reads {setup : Setup} {s : Channel} (h : Ordered setup s) :
    ∃ ws, List.Forall₂ (ReadOf setup) s.reads ws ∧ ws.Sublist (received setup s) := by
  obtain ⟨read, queued, haccounts, hsub⟩ := h
  refine ⟨read, haccounts.read, List.Sublist.trans ?_ hsub⟩
  rw [List.append_assoc]
  exact List.sublist_append_left _ _

/-- However the calls of the app and its callback interleave with the RX thread, the
successful reads of a channel give, in their order, a subsequence of the frames that the wire
has brought: none twice, none out of order and none that was not received. -/
theorem read_order (setup : Setup) (ls : List Label) (s : Channel)
    (hrun : run setup ls = some s) :
    ∃ ws, List.Forall₂ (ReadOf setup) s.reads ws ∧ ws.Sublist (received setup s) :=
  (run_ordered hrun).reads

theorem read_order_oneRead :
    ∃ (s : Channel) (ws : List Frame), s.reads.length = 1 ∧
      List.Forall₂ (ReadOf openUdp) s.reads ws ∧ ws.Sublist (received openUdp s) := by
  have hrun : ∃ s, run openUdp oneRead = some s ∧ s.reads.length = 1 := ⟨_, rfl, rfl⟩
  obtain ⟨s, hrun, hone⟩ := hrun
  obtain ⟨ws, hreads, hsub⟩ := read_order openUdp oneRead s hrun
  exact ⟨s, ws, hone, hreads, hsub⟩

end Kvasilloni.ReadOrder
