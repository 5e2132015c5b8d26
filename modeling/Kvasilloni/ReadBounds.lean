import Kvasilloni.Reception

/-!
From received bytes to the caller's buffer. Every frame that waits to be pushed, is
queued or has been read was received as a canonical frame, so the length class that
the decoders establish reaches the marshaller, whatever the order of the calls.
-/
namespace Kvasilloni.ReadBounds

open CheckedMemory SelfDelimiting Frames Grammar Datagrams Streams Marshal SharedRing Reception

/-- A frame of a received datagram, or of the canonical frames that the received stream
begins with. -/
def OnWire (transport : Transport) (datagrams : List Bytes) (stream : Bytes) (f : Frame) :
    Prop :=
  match transport with
  | .udp => ∃ bytes ∈ datagrams, ∃ fs, IsDatagram bytes fs ∧ f ∈ fs
  | .tcp => ∃ fs body rest, encodeFrames [] fs = .ok body ∧ stream = body ++ rest ∧
      (∀ g ∈ fs, Canonical g) ∧ f ∈ fs

theorem OnWire.canonical {transport : Transport} {datagrams : List Bytes} {stream : Bytes}
    {f : Frame} (h : OnWire transport datagrams stream f) : Canonical f := by
  cases transport with
  | udp =>
    obtain ⟨bytes, -, fs, ⟨-, -, -, -, -, -, -, hcan⟩, hf⟩ := h
    exact hcan f hf
  | tcp =>
    obtain ⟨fs, -, -, -, -, hcan, hf⟩ := h
    exact hcan f hf

/-- Receiving more takes nothing away. -/
theorem OnWire.more {transport : Transport} {datagrams : List Bytes} {stream : Bytes}
    {f : Frame} (h : OnWire transport datagrams stream f) (ds : List Bytes) (bytes : Bytes) :
    OnWire transport (datagrams ++ ds) (stream ++ bytes) f := by
  cases transport with
  | udp =>
    obtain ⟨d, hd, hrest⟩ := h
    exact ⟨d, List.mem_append_left ds hd, hrest⟩
  | tcp =>
    obtain ⟨fs, body, rest, hbody, hstream, hcan, hf⟩ := h
    refine ⟨fs, body, rest ++ bytes, hbody, ?_, hcan, hf⟩
    rw [hstream, List.append_assoc]

theorem onWire_of_decoded {stream : Bytes} {f : Frame} (datagrams : List Bytes)
    (h : f ∈ (decodeTcp stream).frames) : OnWire .tcp datagrams stream f := by
  obtain ⟨rest, hstream, hcan, -⟩ := decodeTcp_spec stream
  exact ⟨_, _, rest, encodeFrames_canonical hcan, hstream, hcan, h⟩

theorem datagramFrames_isDatagram {bytes : Bytes} {f : Frame} (h : f ∈ datagramFrames bytes) :
    ∃ fs, IsDatagram bytes fs ∧ f ∈ fs := by
  unfold datagramFrames at h
  rcases parseUdp_spec bytes with ⟨fs, hfs, hparse⟩ | ⟨-, hparse⟩
  · rw [hparse] at h
    exact ⟨fs, hfs, h⟩
  · rw [hparse] at h
    exact absurd h List.not_mem_nil

/-- Every frame of the channel came off the wire, and the TCP decoder stands where the
bytes received so far have brought it. -/
structure Sound (setup : Setup) (s : Channel) : Prop where
  unpushed : ∀ f ∈ s.rx.unpushed, OnWire setup.transport s.datagrams s.stream f
  queued : ∀ f ∈ s.shared.q, ∃ w now,
    OnWire setup.transport s.datagrams s.stream w ∧ f = stamp now w
  read : ∀ r ∈ s.reads, ∃ w now, OnWire setup.transport s.datagrams s.stream w ∧
    r.result = writeReadOutputs (stamp now w) r.out setup.fdCapable
  decoding : setup.transport = .tcp → s.rx ≠ .stopped →
    ∃ rx fs, s.decoder = some rx ∧
      ∀ t, (decodeTcp (s.stream ++ t)).frames = fs ++ (tcpRxLoop rx t).frames
  reading : s.rx = .receiving → setup.transport = .tcp → ∀ rx, s.decoder = some rx →
    0 < rx.need ∧ rx.need ≤ 80

theorem opened_sound (setup : Setup) : Sound setup opened where
  unpushed f hf := absurd hf List.not_mem_nil
  queued f hf := absurd hf List.not_mem_nil
  read r hr := absurd hr List.not_mem_nil
  decoding _ _ := ⟨primed, [], rfl, fun t => rfl⟩
  reading h := by simp [opened] at h

theorem tearDown_sound {setup : Setup} {s : Channel} (h : Sound setup s) :
    Sound setup (tearDown setup s) := by
  unfold tearDown
  split
  · exact ⟨fun f hf => absurd hf List.not_mem_nil, h.queued, h.read,
      fun _ hrx => absurd rfl hrx, fun hrx => by simp at hrx⟩
  · exact ⟨fun f hf => absurd hf List.not_mem_nil, h.queued, h.read,
      fun _ hrx => absurd rfl hrx, fun hrx => by simp at hrx⟩

theorem loopHead_sound {setup : Setup} {s : Channel} (h : Sound setup s)
    (hrx : s.rx = .head) : Sound setup (loopHead setup s) := by
  have hgo : s.rx ≠ .stopped := by simp [hrx]
  unfold loopHead
  split
  · exact tearDown_sound h
  · split
    · rename_i hudp hsame
      exact ⟨fun f hf => absurd hf List.not_mem_nil, h.queued, h.read,
        fun htcp _ => h.decoding htcp hgo, fun _ htcp => by simp [hsame] at htcp⟩
    · exact tearDown_sound h
    · split
      · exact tearDown_sound h
      · rename_i rx htcp hdecoder hneed
        refine ⟨fun f hf => absurd hf List.not_mem_nil, h.queued, h.read,
          fun htcp _ => h.decoding htcp hgo, fun _ _ rx' hrx' => ?_⟩
        obtain rfl := Option.some.inj (hdecoder.symm.trans hrx')
        omega

theorem receiveDatagram_sound {setup : Setup} {s : Channel} (h : Sound setup s)
    (hudp : setup.transport = .udp) (source : IpAddr) (bytes : Bytes) :
    Sound setup (receiveDatagram setup s source bytes) := by
  have htcp : ¬ setup.transport = .tcp := by simp [hudp]
  unfold receiveDatagram
  split
  · refine ⟨fun f hf => ?_, fun f hf => ?_, fun r hr => ?_, fun hsame => absurd hsame htcp,
      fun hrx => by simp at hrx⟩
    · rw [hudp]
      exact ⟨bytes, List.mem_append_right _ (List.mem_singleton.mpr rfl),
        datagramFrames_isDatagram hf⟩
    · obtain ⟨w, now, hw, hf⟩ := h.queued f hf
      have hmore := hw.more [bytes] []
      rw [List.append_nil] at hmore
      exact ⟨w, now, hmore, hf⟩
    · obtain ⟨w, now, hw, hr⟩ := h.read r hr
      have hmore := hw.more [bytes] []
      rw [List.append_nil] at hmore
      exact ⟨w, now, hmore, hr⟩
  · exact ⟨fun f hf => absurd hf List.not_mem_nil, h.queued, h.read,
      fun hsame => absurd hsame htcp, fun hrx => by simp at hrx⟩

theorem receiveChunk_sound {setup : Setup} {s : Channel} (h : Sound setup s)
    (htcp : setup.transport = .tcp) (hrx : s.rx = .receiving) {rx : RxStream}
    (hdecoder : s.decoder = some rx) {bytes : Bytes} (hlen : bytes.length = rx.need) :
    Sound setup (receiveChunk setup s rx bytes) := by
  have hneed := h.reading hrx htcp rx hdecoder
  obtain ⟨rx', fs, hsame, hframes⟩ := h.decoding htcp (by simp [hrx])
  obtain rfl := Option.some.inj (hdecoder.symm.trans hsame)
  have hloop := fun t => tcpRxLoop_step rx bytes t hlen hneed.1 hneed.2
  have hgrown : Sound setup { s with stream := s.stream ++ bytes, rx := .stopped } := by
    refine ⟨fun f hf => absurd hf List.not_mem_nil, fun f hf => ?_, fun r hr => ?_,
      fun _ hgo => absurd rfl hgo, fun hrx => by simp at hrx⟩
    · obtain ⟨w, now, hw, hf⟩ := h.queued f hf
      have hmore := hw.more [] bytes
      rw [List.append_nil] at hmore
      exact ⟨w, now, hmore, hf⟩
    · obtain ⟨w, now, hw, hr⟩ := h.read r hr
      have hmore := hw.more [] bytes
      rw [List.append_nil] at hmore
      exact ⟨w, now, hmore, hr⟩
  unfold receiveChunk
  dsimp only
  cases hchunk : rxChunk rx bytes with
  | next rx' =>
    refine ⟨fun f hf => absurd hf List.not_mem_nil, hgrown.queued, hgrown.read,
      fun _ _ => ⟨rx', fs, rfl, fun t => ?_⟩, fun hrx => by simp at hrx⟩
    rw [List.append_assoc, hframes, hloop, hchunk]
  | push f next =>
    have hnext : next = some primed := by
      unfold rxChunk at hchunk
      split at hchunk
      · cases hchunk
      · exact (ChunkResult.push.inj hchunk).2.symm
      · cases hchunk
    subst hnext
    have hdecoded : ∀ t, (decodeTcp (s.stream ++ bytes ++ t)).frames =
        (fs ++ [f]) ++ (tcpRxLoop primed t).frames := by
      intro t
      rw [List.append_assoc, hframes, hloop, hchunk, List.append_assoc]
      rfl
    refine ⟨fun g hg => ?_, hgrown.queued, hgrown.read,
      fun _ _ => ⟨primed, fs ++ [f], rfl, hdecoded⟩, fun hrx => by simp at hrx⟩
    obtain rfl := List.mem_singleton.mp hg
    rw [htcp]
    apply onWire_of_decoded
    have hall := hdecoded []
    rw [List.append_nil] at hall
    rw [hall]
    simp
  | stop =>
    have hdown := tearDown_sound hgrown
    unfold tearDown at hdown ⊢
    exact hdown

theorem advance_sound {setup : Setup} {s : Channel} (h : Sound setup s)
    {batch : List Frame} (hrx : s.rx = .ingesting batch) :
    Sound setup (advance setup s batch) := by
  have hgo : s.rx ≠ .stopped := by simp [hrx]
  have hbatch := h.unpushed
  rw [hrx] at hbatch
  cases batch with
  | nil =>
    dsimp only [advance]
    split
    · exact tearDown_sound h
    · exact ⟨fun f hf => absurd hf List.not_mem_nil, h.queued, h.read,
        fun htcp _ => h.decoding htcp hgo, fun hrx => by simp at hrx⟩
  | cons f batch =>
    dsimp only [advance]
    split
    · exact ⟨hbatch, h.queued, h.read, fun htcp _ => h.decoding htcp hgo,
        fun hrx => by simp at hrx⟩
    · exact ⟨fun g hg => hbatch g (List.mem_cons_of_mem f hg), h.queued, h.read,
        fun htcp _ => h.decoding htcp hgo, fun hrx => by simp at hrx⟩

theorem enqueueFrame_sound {setup : Setup} {s : Channel} (h : Sound setup s)
    {f : Frame} {batch : List Frame} (hrx : s.rx = .filtered f batch) (now : UInt64) :
    Sound setup (enqueueFrame s now f batch) := by
  have hgo : s.rx ≠ .stopped := by simp [hrx]
  have hbatch := h.unpushed
  rw [hrx] at hbatch
  have hf : OnWire setup.transport s.datagrams s.stream f := hbatch f (List.mem_cons_self ..)
  have hrest := fun g hg => hbatch g (List.mem_cons_of_mem f hg)
  unfold enqueueFrame Shared.enqueue
  by_cases hfull : s.shared.q.length ≥ ringCap
  · rw [if_pos hfull]
    exact ⟨hrest, h.queued, h.read, fun htcp _ => h.decoding htcp hgo,
      fun hrx => by simp at hrx⟩
  · rw [if_neg hfull]
    refine ⟨hrest, fun g hg => ?_, h.read, fun htcp _ => h.decoding htcp hgo,
      fun hrx => by simp at hrx⟩
    rcases List.mem_append.mp hg with hg | hg
    · exact h.queued g hg
    · exact ⟨f, now, hf, List.mem_singleton.mp hg⟩

theorem notifyFrame_sound {setup : Setup} {s : Channel} (h : Sound setup s)
    {f : Frame} {batch : List Frame} (hrx : s.rx = .queued f batch) :
    Sound setup (notifyFrame s f batch) := by
  have hgo : s.rx ≠ .stopped := by simp [hrx]
  have hbatch := h.unpushed
  rw [hrx] at hbatch
  unfold notifyFrame
  split
  · exact ⟨hbatch, h.queued, h.read, fun htcp _ => h.decoding htcp hgo,
      fun hrx => by simp at hrx⟩
  · exact ⟨hbatch, h.queued, h.read, fun htcp _ => h.decoding htcp hgo,
      fun hrx => by simp at hrx⟩

theorem rxMove_sound {setup : Setup} {s s' : Channel} (h : Sound setup s)
    (hmove : RxMove setup s s') : Sound setup s' := by
  cases hmove with
  | loop hrx => exact loopHead_sound h hrx
  | datagram hrx hudp source bytes => exact receiveDatagram_sound h hudp source bytes
  | chunk hrx htcp rx hdecoder bytes hlen => exact receiveChunk_sound h htcp hrx hdecoder hlen
  | timeout hrx =>
    have hgo : s.rx ≠ .stopped := by simp [hrx]
    exact ⟨fun f hf => absurd hf List.not_mem_nil, h.queued, h.read,
      fun htcp _ => h.decoding htcp hgo, fun hrx => by simp at hrx⟩
  | fail hrx => exact tearDown_sound h
  | advance batch hrx => exact advance_sound h hrx
  | enqueue f batch hrx now => exact enqueueFrame_sound h hrx now
  | notify f batch hrx => exact notifyFrame_sound h hrx
  | callbackReturn batch hrx =>
    have hgo : s.rx ≠ .stopped := by simp [hrx]
    have hbatch := h.unpushed
    rw [hrx] at hbatch
    exact ⟨hbatch, h.queued, h.read, fun htcp _ => h.decoding htcp hgo,
      fun hrx => by simp at hrx⟩

theorem deliver_sound {setup : Setup} {s : Channel} (h : Sound setup s) (out : ReadArgs) :
    Sound setup (deliver setup s out s.shared.pop) := by
  unfold Shared.pop
  cases hq : s.shared.q with
  | nil => exact h
  | cons f q =>
    obtain ⟨w, now, hw, rfl⟩ := h.queued f (by simp [hq])
    refine ⟨h.unpushed, fun g hg => h.queued g ?_, fun r hr => ?_, h.decoding, h.reading⟩
    · rw [hq]
      exact List.mem_cons_of_mem _ hg
    · rcases List.mem_append.mp hr with hr | hr
      · exact h.read r hr
      · obtain rfl := List.mem_singleton.mp hr
        exact ⟨w, now, hw, rfl⟩

theorem perform_sound {setup : Setup} {s s' : Channel} (h : Sound setup s) {timedOut : Bool}
    {r : Request} (hperform : perform setup s timedOut r = some s') : Sound setup s' := by
  cases r with
  | read out =>
    obtain rfl := Option.some.inj hperform
    exact deliver_sound h out
  | readWait out =>
    simp only [perform, Shared.popWait] at hperform
    split at hperform
    · obtain rfl := Option.some.inj hperform
      exact deliver_sound h out
    · cases hperform
  | readSync =>
    obtain ⟨b, -, rfl⟩ := Option.map_eq_some_iff.mp hperform
    exact h
  | flush =>
    obtain rfl := Option.some.inj hperform
    exact ⟨h.unpushed, fun f hf => absurd hf List.not_mem_nil, h.read, h.decoding, h.reading⟩
  | accept flag envelope =>
    obtain rfl := Option.some.inj hperform
    exact ⟨h.unpushed, h.queued, h.read, h.decoding, h.reading⟩
  | setNotify n =>
    obtain rfl := Option.some.inj hperform
    exact ⟨h.unpushed, h.queued, h.read, h.decoding, h.reading⟩

theorem closeStep_sound {setup : Setup} {s s' : Channel} (h : Sound setup s)
    {caller : Caller} {stage : CloseStage} {next : Option CloseStage}
    (hclose : closeStep s caller stage = some (s', next)) : Sound setup s' := by
  cases stage with
  | join =>
    simp only [closeStep] at hclose
    split at hclose
    · obtain ⟨rfl, -⟩ := Prod.mk.inj (Option.some.inj hclose)
      exact h
    · cases hclose
  | running | negotiated | markClosed | shutdown | takeHandle =>
    obtain ⟨rfl, -⟩ := Prod.mk.inj (Option.some.inj hclose)
    exact ⟨h.unpushed, h.queued, h.read, h.decoding, h.reading⟩

theorem move_sound {setup : Setup} {s s' : Channel} (h : Sound setup s)
    (hmove : Move setup s s') : Sound setup s' := by
  cases hmove with
  | rx s' hmove => exact rxMove_sound h hmove
  | request caller r =>
    unfold request
    split
    · exact ⟨h.unpushed, h.queued, h.read, h.decoding, h.reading⟩
    · exact h
  | canClose caller =>
    unfold canClose
    split
    · exact ⟨h.unpushed, h.queued, h.read, h.decoding, h.reading⟩
    · exact ⟨h.unpushed, h.queued, h.read, h.decoding, h.reading⟩
  | perform i timedOut caller r t hpending hperform =>
    have ht := perform_sound h hperform
    exact ⟨ht.unpushed, ht.queued, ht.read, ht.decoding, ht.reading⟩
  | closing i caller stage next t hpending hclose =>
    have ht := closeStep_sound h hclose
    exact ⟨ht.unpushed, ht.queued, ht.read, ht.decoding, ht.reading⟩
  | closed i caller stage t hpending hclose =>
    have ht := closeStep_sound h hclose
    exact ⟨ht.unpushed, ht.queued, ht.read, ht.decoding, ht.reading⟩

theorem run_sound {setup : Setup} {s : Channel} {ls : List Label}
    (hrun : run setup ls = some s) : Sound setup s :=
  StepSystem.run_invariant (fun _ _ _ h hstep => move_sound h (step_move hstep))
    (opened_sound setup) hrun

/-- The size of the buffer that a caller of the channel owns. -/
def bufferLimit (fdCapable : Bool) : ℕ := if fdCapable then 64 else 8

/-- A read of the frame `w` reports `n` bytes and writes only them. -/
structure Reports (fdCapable : Bool) (w : Frame) (before after : ReadArgs) (n : ℕ) : Prop where
  bound : n ≤ bufferLimit fdCapable
  dlc : after.dlc = before.dlc.map fun _ => UInt32.ofNat n
  written : ((wirePayload w).take n).length = if w.isRtr then 0 else n
  msg : after.msg = before.msg.map fun dst =>
    (wirePayload w).take n ++ dst.drop ((wirePayload w).take n).length
  classic : fdCapable = false → ∀ flag, after.flag = some flag →
    flag &&& (canMsgFdf ||| canMsgBrs ||| canMsgEsi) = 0
  fd : fdCapable = true → 8 < n → ∀ flag, after.flag = some flag → flag &&& canMsgFdf ≠ 0

theorem deliveredLen_le (f : Frame) (fdCapable : Bool) :
    deliveredLen f fdCapable ≤ bufferLimit fdCapable := by
  cases fdCapable <;> exact min_le_right _ _

/-- A longer length than a classic one reported on an FD channel is that of an FD frame. -/
theorem fd_of_deliveredLen {f : Frame} (hf : Canonical f)
    (hlong : 8 < deliveredLen f true) : f.fd = true := by
  by_contra hfd
  have hle := hf.len_le
  have hmin : deliveredLen f true ≤ f.len.toNat := min_le_left _ _
  rw [Bool.not_eq_true] at hfd
  rw [hfd] at hle
  simp only [lenLimit, Bool.false_eq_true, ↓reduceIte, classicFrameMaxLen] at hle
  omega

theorem reports_of_result {fdCapable : Bool} {w : Frame} (hw : Canonical w) (now : UInt64)
    {before after : ReadArgs}
    (h : writeReadOutputs (stamp now w) before fdCapable = .ok after) :
    Reports fdCapable w before after (deliveredLen w fdCapable) := by
  have hmax := hw.len_le_max
  have hstamp : (stamp now w).len.toNat ≤ 64 := hmax
  have hroom := writeReadOutputs_room hstamp h
  rw [writeReadOutputs_eq (stamp now w) before fdCapable hstamp hroom] at h
  obtain rfl := Except.ok.inj h
  have hmin : deliveredLen w fdCapable ≤ w.len.toNat := min_le_left _ _
  have hpayload : w.isRtr = false →
      (wirePayload w).take (deliveredLen w fdCapable) =
        w.data.toList.take (deliveredLen w fdCapable) := by
    intro hrtr
    rw [wirePayload, if_neg (by simp [hrtr]), List.take_take, min_eq_left hmin]
  have hlength : ((wirePayload w).take (deliveredLen w fdCapable)).length =
      if w.isRtr then 0 else deliveredLen w fdCapable := by
    cases hrtr : w.isRtr with
    | true => simp [wirePayload, hrtr]
    | false =>
      rw [hpayload hrtr, if_neg (by simp), List.length_take, List.Vector.toList_length]
      omega
  refine ⟨deliveredLen_le w fdCapable, rfl, hlength, ?_, ?_, ?_⟩
  · rw [hlength]
    cases hrtr : w.isRtr with
    | true =>
      have hstamped : (stamp now w).isRtr = true := hrtr
      simp [hstamped, wirePayload, hrtr]
    | false =>
      have hstamped : (stamp now w).isRtr = false := hrtr
      rw [hpayload hrtr]
      simp only [hstamped, Bool.false_eq_true, ↓reduceIte]
      rfl
  · rintro rfl flag hflag
    obtain ⟨-, -, rfl⟩ := Option.map_eq_some_iff.mp hflag
    exact deliveredFlag_classic (stamp now w)
  · rintro rfl hlong flag hflag
    obtain ⟨-, -, rfl⟩ := Option.map_eq_some_iff.mp hflag
    have hfd : w.fd = true := fd_of_deliveredLen hw hlong
    exact deliveredFlag_fd (stamp now w) hfd

/-- Whatever bytes arrive and however the calls interleave, a read never writes past the
buffer of its channel class: it reports the frame as it was on the wire, cut to that
class, and leaves the bytes behind the payload alone. -/
theorem read_bounds (setup : Setup) (ls : List Label) (s : Channel)
    (hrun : run setup ls = some s) (r : ReadRecord) (hr : r ∈ s.reads) :
    ∃ w, OnWire setup.transport s.datagrams s.stream w ∧
      ((∀ dst, r.out.msg = some dst → bufferLimit setup.fdCapable ≤ dst.length) →
        ∃ after, r.result = .ok after) ∧
      ∀ after, r.result = .ok after →
        Reports setup.fdCapable w r.out after (deliveredLen w setup.fdCapable) := by
  obtain ⟨w, now, hw, hresult⟩ := (run_sound hrun).read r hr
  have hcan := hw.canonical
  refine ⟨w, hw, ?_, ?_⟩
  · intro hbuffer
    rw [hresult, writeReadOutputs_eq (stamp now w) r.out setup.fdCapable hcan.len_le_max
      (fun dst hdst _ => (deliveredLen_le _ _).trans (hbuffer dst hdst))]
    exact ⟨_, rfl⟩
  · intro after hafter
    rw [hresult] at hafter
    exact reports_of_result hcan now hafter

/-- One datagram with a two-byte frame, and a read into a buffer of eight bytes. -/
def oneRead : List Label :=
  [.loop, .datagram (.v4 0) [2, 0, 0, 0, 1, 0, 0, 1, 0x23, 2, 0xAA, 0xBB], .advance,
    .enqueue 5, .notify,
    .request .app (.read ⟨some 0, some [9, 9, 9, 9, 9, 9, 9, 9], some 0, some 0, some 0⟩),
    .proceed 0 false]

theorem read_bounds_oneRead :
    ∃ (s : Channel) (r : ReadRecord) (w : Frame), r ∈ s.reads ∧
      OnWire .udp s.datagrams s.stream w ∧
      ∀ after, r.result = .ok after → Reports false w r.out after (deliveredLen w false) := by
  have hrun : ∃ s r, run openUdp oneRead = some s ∧ r ∈ s.reads :=
    ⟨_, _, rfl, List.mem_cons_self ..⟩
  obtain ⟨s, r, hrun, hr⟩ := hrun
  obtain ⟨w, hw, -, hreports⟩ := read_bounds openUdp oneRead s hrun r hr
  exact ⟨s, r, w, hr, hw, hreports⟩

end Kvasilloni.ReadBounds
