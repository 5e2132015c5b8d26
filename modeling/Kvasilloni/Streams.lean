import Kvasilloni.Grammar

/-!
The streaming decoder of the headerless TCP stream, and the loop that feeds it.
The loop reads exactly the requested number of bytes, hands them to the decoder,
pushes each completed frame and starts again. Between two frames its state is
always the primed one, on which it reads one frame of the grammar.
-/
namespace Kvasilloni.Streams

open CheckedMemory SelfDelimiting Frames Grammar

inductive DecodeState
  | init
  | canId
  | len
  | flags
  | data
  deriving DecidableEq, Repr

inductive Decoded
  | need (n : ℕ)
  | complete
  | error
  deriving DecidableEq, Repr

/-- One call of the decoder: its answer, the frame under construction and the
state it leaves behind. -/
def decodeStream (data : Bytes) (f : Frame) (state : DecodeState) :
    Checked (Decoded × Frame × DecodeState) :=
  match state with
  | .init => return (.need 4, Frame.default, .canId)
  | .canId =>
    if data.length ≠ 4 then return (.error, f, .canId)
    else do
      let b0 ← index data 0
      let b1 ← index data 1
      let b2 ← index data 2
      let b3 ← index data 3
      return (.need 1, { f with canId := fromBe32 b0 b1 b2 b3 }, .len)
  | .len =>
    if data.length ≠ 1 then return (.error, f, .len)
    else do
      let raw ← index data 0
      if raw &&& canfdFrame ≠ 0 then
        let f := { f with fd := true, len := raw &&& ~~~canfdFrame }
        if f.len.toNat > maxFrameLen then return (.error, f, .len)
        else return (.need 1, f, .flags)
      else
        let f := { f with fd := false, len := raw }
        if f.len.toNat > classicFrameMaxLen then return (.error, f, .len)
        else if f.isRtr then return (.complete, f, .init)
        else if f.len = 0 then return (.complete, f, .init)
        else return (.need f.len.toNat, f, .data)
  | .flags =>
    if data.length ≠ 1 then return (.error, f, .flags)
    else do
      let flags ← index data 0
      let f := { f with fdFlags := flags }
      if f.isRtr ∨ f.len = 0 then return (.complete, f, .init)
      else return (.need f.len.toNat, f, .data)
  | .data =>
    let n := f.len.toNat
    if data.length ≠ n ∨ n > f.data.toList.length then return (.error, f, .data)
    else do
      let src ← slice data 0 n
      let data ← overwriteBlock f.data src
      return (.complete, { f with data := data }, .init)

/-- A fault inside the decoder surfaces as `Decoded::Error`. -/
def guardedDecodeStream (chunk : Bytes) (f : Frame) (st : DecodeState) :
    Decoded × Frame × DecodeState :=
  match decodeStream chunk f st with
  | .ok r => r
  | .error _ => (.error, f, st)

/-- The locals of `tcp_rx_loop`: the frame, the decoder state and the byte count
of the next read. -/
structure RxStream where
  f : Frame
  st : DecodeState
  need : ℕ

/-- The call with an empty slice that starts a frame. -/
def startFrame : Option RxStream :=
  match decodeStream [] Frame.default .init with
  | .ok (.need n, f, st) => some ⟨f, st, n⟩
  | _ => none

/-- The state before the first read; a failed start leaves `need = 0`. -/
def primed : RxStream := startFrame.getD ⟨Frame.default, .init, 0⟩

/-- What the loop does with one chunk of exactly the requested length. -/
inductive ChunkResult
  | next (rx : RxStream)
  | push (f : Frame) (rx : Option RxStream)
  | stop

def rxChunk (rx : RxStream) (chunk : Bytes) : ChunkResult :=
  match guardedDecodeStream chunk rx.f rx.st with
  | (.need n, f, st) => .next ⟨f, st, n⟩
  | (.complete, f, _) => .push f startFrame
  | (.error, _, _) => .stop

/-- Why the loop is not decoding any further. -/
inductive Ending
  | waiting
  | error
  | broken
  deriving DecidableEq, Repr

/-- The frames pushed, the ending, and the bytes the decoder was never given. -/
structure StreamRun where
  frames : List Frame
  ending : Ending
  unread : Bytes
  deriving DecidableEq

/-- The loop of `tcp_rx_loop` over a whole byte string. A read that the string
cannot satisfy leaves the loop waiting. -/
def tcpRxLoop (rx : RxStream) (s : Bytes) : StreamRun :=
  if _hneed : rx.need = 0 ∨ rx.need > 80 then ⟨[], .broken, s⟩
  else if _hs : s.length < rx.need then ⟨[], .waiting, s⟩
  else match rxChunk rx (s.take rx.need) with
    | .next rx' => tcpRxLoop rx' (s.drop rx.need)
    | .push f (some rx') =>
      let r := tcpRxLoop rx' (s.drop rx.need)
      { r with frames := f :: r.frames }
    | .push f none => ⟨[f], .broken, s.drop rx.need⟩
    | .stop => ⟨[], .error, s.drop rx.need⟩
  termination_by s.length
  decreasing_by all_goals
    simp only [List.length_drop]
    omega

/-- Decode the bytes received after the handshake. -/
def decodeTcp (s : Bytes) : StreamRun := tcpRxLoop primed s

/-- The run that pushes one more frame first. -/
def StreamRun.push (f : Frame) (r : StreamRun) : StreamRun :=
  { r with frames := f :: r.frames }

/-! ### One call of the decoder -/

/-- The answer to a complete head: a remote or empty frame is done, any other one
needs its payload. -/
def headAnswer (g : Frame) : Decoded × Frame × DecodeState :=
  if g.isRtr ∨ g.len = 0 then (.complete, g, .init) else (.need g.len.toNat, g, .data)

theorem decodeStream_canId (a b c d : UInt8) (g : Frame) :
    decodeStream [a, b, c, d] g .canId =
      .ok (.need 1, { g with canId := fromBe32 a b c d }, .len) := rfl

theorem decodeStream_len_illegal (g : Frame) {raw : UInt8} (hraw : IllegalLen raw) :
    ∃ f, decodeStream [raw] g .len = .ok (.error, f, .len) := by
  unfold IllegalLen at hraw
  by_cases hbit : raw &&& canfdFrame ≠ 0
  · rw [if_pos hbit] at hraw
    refine ⟨{ g with fd := true, len := raw &&& ~~~canfdFrame }, ?_⟩
    simp only [decodeStream, index_zero, ok_bind, pure_eq_ok, List.length_singleton, ne_eq,
      not_true_eq_false, ↓reduceIte]
    rw [if_pos hbit, if_pos hraw]
  · rw [if_neg hbit] at hraw
    refine ⟨{ g with fd := false, len := raw }, ?_⟩
    simp only [decodeStream, index_zero, ok_bind, pure_eq_ok, List.length_singleton, ne_eq,
      not_true_eq_false, ↓reduceIte]
    rw [if_neg hbit, if_pos hraw]

theorem decodeStream_len_fd (g : Frame) {raw : UInt8} (hbit : raw &&& canfdFrame ≠ 0)
    (hle : ¬ maxFrameLen < (raw &&& ~~~canfdFrame).toNat) :
    decodeStream [raw] g .len =
      .ok (.need 1, { g with fd := true, len := raw &&& ~~~canfdFrame }, .flags) := by
  simp only [decodeStream, index_zero, ok_bind, pure_eq_ok, List.length_singleton, ne_eq,
    not_true_eq_false, ↓reduceIte, gt_iff_lt]
  rw [if_pos hbit, if_neg hle]

theorem decodeStream_len_classic (g : Frame) {raw : UInt8}
    (hbit : ¬ raw &&& canfdFrame ≠ 0) (hle : ¬ classicFrameMaxLen < raw.toNat) :
    decodeStream [raw] g .len = .ok (headAnswer { g with fd := false, len := raw }) := by
  simp only [decodeStream, index_zero, ok_bind, pure_eq_ok, List.length_singleton, ne_eq,
    not_true_eq_false, ↓reduceIte, gt_iff_lt, headAnswer]
  rw [if_neg hbit, if_neg hle]
  by_cases hrtr : Frame.isRtr { g with fd := false, len := raw } = true
  · simp [hrtr]
  · by_cases hlen : raw = 0 <;> simp [hrtr, hlen]

theorem decodeStream_flags (g : Frame) (flags : UInt8) :
    decodeStream [flags] g .flags = .ok (headAnswer { g with fdFlags := flags }) := by
  simp only [decodeStream, index_zero, ok_bind, pure_eq_ok, List.length_singleton, ne_eq,
    not_true_eq_false, ↓reduceIte, headAnswer]
  split <;> rfl

theorem decodeStream_data {g : Frame} (hg : Head g) {bs : Bytes}
    (hlen : bs.length = g.len.toNat) :
    decodeStream bs g .data = .ok (.complete, { g with data := padded bs }, .init) := by
  have hn := hg.len_le_max
  have hslice : slice bs 0 g.len.toNat = .ok bs := by
    rw [slice_zero bs _ (by omega), ← hlen, List.take_length]
  have hwrite : overwriteBlock g.data bs = .ok (padded bs) := by
    rw [hg.no_data]
    exact overwriteBlock_zeroPayload bs (by omega)
  have hroom : ¬ (bs.length ≠ g.len.toNat ∨ g.len.toNat > g.data.toList.length) := by
    simp only [List.Vector.toList_length]
    omega
  simp only [decodeStream]
  rw [if_neg hroom]
  simp [hslice, hwrite]

/-! ### The loop, chunk by chunk -/

theorem primed_eq : primed = ⟨Frame.default, .canId, 4⟩ := rfl

theorem startFrame_eq : startFrame = some primed := rfl

theorem tcpRxLoop_waiting (rx : RxStream) (s : Bytes) (hpos : 0 < rx.need)
    (hle : rx.need ≤ 80) (h : s.length < rx.need) : tcpRxLoop rx s = ⟨[], .waiting, s⟩ := by
  have hneed : ¬ (rx.need = 0 ∨ rx.need > 80) := by omega
  rw [tcpRxLoop, dif_neg hneed, dif_pos h]

/-- With enough bytes at hand the loop hands over exactly the requested chunk. -/
theorem tcpRxLoop_step (rx : RxStream) (chunk s : Bytes) (hlen : chunk.length = rx.need)
    (hpos : 0 < rx.need) (hle : rx.need ≤ 80) :
    tcpRxLoop rx (chunk ++ s) =
      match rxChunk rx chunk with
      | .next rx' => tcpRxLoop rx' s
      | .push f (some rx') => (tcpRxLoop rx' s).push f
      | .push f none => ⟨[f], .broken, s⟩
      | .stop => ⟨[], .error, s⟩ := by
  have hneed : ¬ (rx.need = 0 ∨ rx.need > 80) := by omega
  have hs : ¬ (chunk ++ s).length < rx.need := by
    rw [List.length_append]
    omega
  rw [tcpRxLoop, dif_neg hneed, dif_neg hs, ← hlen, List.take_left, List.drop_left]
  rfl

/-- How the loop goes on behind a chunk, given the decoder's answer to it. -/
def answered (s : Bytes) : Decoded × Frame × DecodeState → StreamRun
  | (.need n, f, st) => tcpRxLoop ⟨f, st, n⟩ s
  | (.complete, f, _) => (tcpRxLoop primed s).push f
  | (.error, _, _) => ⟨[], .error, s⟩

theorem tcpRxLoop_chunk (rx : RxStream) (chunk s : Bytes) (hlen : chunk.length = rx.need)
    (hpos : 0 < rx.need) (hle : rx.need ≤ 80) {r : Decoded × Frame × DecodeState}
    (hr : decodeStream chunk rx.f rx.st = .ok r) :
    tcpRxLoop rx (chunk ++ s) = answered s r := by
  rw [tcpRxLoop_step rx chunk s hlen hpos hle]
  obtain ⟨answer, f, st⟩ := r
  cases answer <;> simp [rxChunk, guardedDecodeStream, hr, startFrame_eq, answered]

/-- What the loop makes of a reading, when it stands at the start of a frame. -/
def afterReading (s : Bytes) : Reading → StreamRun → Prop
  | .frame f rest, r => r = (tcpRxLoop primed rest).push f
  | .illegal, r => r = ⟨[], .error, s.drop 5⟩
  | .short, r => ∃ unread, r = ⟨[], .waiting, unread⟩

/-- After a complete head the loop reads the payload of the grammar. -/
theorem tcpRxLoop_payload (whole : Bytes) (rx : RxStream) (chunk s : Bytes) {g : Frame}
    (hg : Head g) (hlen : chunk.length = rx.need) (hpos : 0 < rx.need)
    (hle : rx.need ≤ 80) (hr : decodeStream chunk rx.f rx.st = .ok (headAnswer g)) :
    afterReading whole (readPayload g s) (tcpRxLoop rx (chunk ++ s)) := by
  have hn := hg.len_le_max
  rw [tcpRxLoop_chunk rx chunk s hlen hpos hle hr]
  unfold headAnswer readPayload
  by_cases hrtr : g.isRtr = true
  · simp [hrtr, afterReading, answered]
  by_cases hzero : g.len = 0
  · have hfill : { g with data := padded [] } = g := by
      rw [show padded [] = g.data from hg.no_data.symm]
    have hnone : g.len.toNat = 0 := by rw [hzero]; rfl
    rw [if_pos (Or.inr hzero), if_neg hrtr, if_neg (by omega), hnone, List.take_zero, hfill]
    rfl
  · have hpos' : 0 < g.len.toNat := by
      rw [Nat.pos_iff_ne_zero]
      intro h
      exact hzero (UInt8.toNat_inj.mp h)
    rw [if_neg (not_or.mpr ⟨hrtr, hzero⟩), if_neg hrtr]
    by_cases hshort : s.length < g.len.toNat
    · rw [if_pos hshort]
      exact ⟨s, tcpRxLoop_waiting _ s hpos' (by dsimp only; omega) hshort⟩
    · have htake : (s.take g.len.toNat).length = g.len.toNat := by
        rw [List.length_take]
        omega
      have hchunk := tcpRxLoop_chunk ⟨g, .data, g.len.toNat⟩ (s.take g.len.toNat)
        (s.drop g.len.toNat) htake hpos' (by dsimp only; omega) (decodeStream_data hg htake)
      rw [List.take_append_drop] at hchunk
      rw [if_neg hshort]
      exact hchunk

/-- From the start of a frame the loop reads one frame of the grammar. -/
theorem decodeTcp_reading (s : Bytes) : afterReading s (readFrame s) (decodeTcp s) := by
  rcases s with _ | ⟨a, _ | ⟨b, _ | ⟨c, _ | ⟨d, t⟩⟩⟩⟩
  case cons.cons.cons.cons =>
    let g := { Frame.default with canId := fromBe32 a b c d }
    have hone : 1 ≤ 80 := by omega
    have hid : decodeTcp (a :: b :: c :: d :: t) = tcpRxLoop ⟨g, .len, 1⟩ t :=
      tcpRxLoop_chunk primed [a, b, c, d] t rfl (by decide) (by decide)
        (decodeStream_canId a b c d Frame.default)
    rw [hid]
    cases t with
    | nil => exact ⟨[], tcpRxLoop_waiting _ _ Nat.one_pos hone (by simp)⟩
    | cons raw t =>
      by_cases hraw : IllegalLen raw
      · have hread := (readFrame_illegal_iff (a :: b :: c :: d :: raw :: t)).mpr
          ⟨a, b, c, d, raw, t, rfl, hraw⟩
        obtain ⟨f, hf⟩ := decodeStream_len_illegal g hraw
        rw [hread]
        exact tcpRxLoop_chunk ⟨g, .len, 1⟩ [raw] t rfl Nat.one_pos hone hf
      · unfold IllegalLen at hraw
        simp only [readFrame]
        by_cases hbit : raw &&& canfdFrame ≠ 0
        · rw [if_pos hbit] at hraw
          rw [if_pos hbit, if_neg hraw]
          have hlen : tcpRxLoop ⟨g, .len, 1⟩ (raw :: t) = tcpRxLoop ⟨{ g with
              fd := true, len := raw &&& ~~~canfdFrame }, .flags, 1⟩ t :=
            tcpRxLoop_chunk ⟨g, .len, 1⟩ [raw] t rfl Nat.one_pos hone
              (decodeStream_len_fd g hbit hraw)
          rw [hlen]
          cases t with
          | nil =>
            exact ⟨[], tcpRxLoop_waiting _ _ Nat.one_pos hone (by simp)⟩
          | cons flags t =>
            exact tcpRxLoop_payload _ ⟨_, .flags, 1⟩ [flags] t
              (fd_head (fromBe32 a b c d) _ flags hraw) rfl Nat.one_pos hone
              (decodeStream_flags _ flags)
        · rw [if_neg hbit] at hraw
          rw [if_neg hbit, if_neg hraw]
          exact tcpRxLoop_payload _ ⟨g, .len, 1⟩ [raw] t
            (classic_head (fromBe32 a b c d) raw hraw) rfl Nat.one_pos hone
            (decodeStream_len_classic g hbit hraw)
  all_goals
    refine ⟨_, tcpRxLoop_waiting _ _ (by decide) (by decide) ?_⟩
    simp [primed_eq]

/-- The run over a byte string: the frames that begin it, and a remainder that is
either illegal or cut short. -/
theorem decodeTcp_spec (s : Bytes) :
    ∃ rem, s = (decodeTcp s).frames.flatMap wireImage ++ rem ∧
      (∀ f ∈ (decodeTcp s).frames, Canonical f) ∧
      ((readFrame rem = .illegal ∧ (decodeTcp s).ending = .error ∧
          (decodeTcp s).unread = rem.drop 5) ∨
        (readFrame rem = .short ∧ (decodeTcp s).ending = .waiting)) := by
  induction hn : s.length using Nat.strong_induction_on generalizing s with
  | _ n ih =>
    have hreading := decodeTcp_reading s
    cases hread : readFrame s with
    | frame f rest =>
      obtain ⟨hcan, hs⟩ := readFrame_frame hread
      rw [hread] at hreading
      have hrun : decodeTcp s = (decodeTcp rest).push f := hreading
      have hlt : rest.length < n := by
        have := wireImage_length_ge f
        rw [← hn, hs, List.length_append]
        omega
      obtain ⟨rem, hrest, hall, hend⟩ := ih rest.length hlt rest rfl
      refine ⟨rem, ?_, ?_, ?_⟩
      · rw [hrun, hs]
        simp only [StreamRun.push, List.flatMap_cons, List.append_assoc]
        rw [← hrest]
      · intro g hg
        rw [hrun] at hg
        rcases List.mem_cons.mp hg with rfl | hg
        · exact hcan
        · exact hall g hg
      · rw [hrun]
        exact hend
    | illegal =>
      rw [hread] at hreading
      have hrun : decodeTcp s = ⟨[], .error, s.drop 5⟩ := hreading
      rw [hrun]
      exact ⟨s, rfl, by simp, Or.inl ⟨hread, rfl, rfl⟩⟩
    | short =>
      rw [hread] at hreading
      obtain ⟨unread, hrun⟩ := hreading
      have hrun' : decodeTcp s = ⟨[], .waiting, unread⟩ := hrun
      rw [hrun']
      exact ⟨s, rfl, by simp, Or.inr ⟨hread, rfl⟩⟩

theorem stuck_of_ending {rem : Bytes}
    (h : readFrame rem = .illegal ∨ readFrame rem = .short) : frameCode.Stuck rem := by
  apply stuck_of_readFrame
  rintro f rest hread
  rcases h with h | h <;> rw [h] at hread <;> cases hread

/-- Whole encoded frames in front of a byte string are decoded first. -/
theorem decodeTcp_images {fs : List Frame} (hfs : ∀ f ∈ fs, Canonical f) (t : Bytes) :
    decodeTcp (fs.flatMap wireImage ++ t) =
      { decodeTcp t with frames := fs ++ (decodeTcp t).frames } := by
  induction fs with
  | nil => simp
  | cons f fs ih =>
    obtain ⟨hf, hfs'⟩ := frameCode.allValid_cons hfs
    have hreading := decodeTcp_reading (wireImage f ++ (fs.flatMap wireImage ++ t))
    rw [readFrame_wireImage hf] at hreading
    have hrun : decodeTcp (wireImage f ++ (fs.flatMap wireImage ++ t)) =
      (decodeTcp (fs.flatMap wireImage ++ t)).push f := hreading
    rw [List.flatMap_cons, List.append_assoc, hrun, ih hfs']
    rfl

/-- Bytes that no image begins complete no frame. -/
theorem decodeTcp_stuck {t : Bytes} (ht : frameCode.Stuck t) : (decodeTcp t).frames = [] := by
  obtain ⟨rem, hs, hall, -⟩ := decodeTcp_spec t
  cases hfs : (decodeTcp t).frames with
  | nil => rfl
  | cons f fs =>
    rw [hfs, List.flatMap_cons, List.append_assoc] at hs
    rw [hfs] at hall
    exact absurd ⟨_, hs.symm⟩ (ht f (hall f (List.mem_cons_self ..)))

/-- The stream is decoded exactly: as far as whole canonical frames begin it, with an
error at an illegal length byte and otherwise waiting in the middle of a frame. -/
theorem decodeTcp_exact (s : Bytes) :
    ∃ body rem, encodeFrames [] (decodeTcp s).frames = .ok body ∧ s = body ++ rem ∧
      (∀ f ∈ (decodeTcp s).frames, Canonical f) ∧
      (∀ gs image, (∀ g ∈ gs, Canonical g) → encodeFrames [] gs = .ok image →
        image <+: s → gs <+: (decodeTcp s).frames) ∧
      ((decodeTcp s).ending = .error ↔ IllegalHead rem) ∧
      ((decodeTcp s).ending = .error → (decodeTcp s).unread = rem.drop 5) ∧
      (¬ IllegalHead rem → (decodeTcp s).ending = .waiting ∧
        ∃ f image, Canonical f ∧ encodeFrame [] f = .ok image ∧
          rem <+: image ∧ rem ≠ image) ∧
      (rem = [] → ∀ t, (decodeTcp (s ++ t)).frames =
        (decodeTcp s).frames ++ (decodeTcp t).frames) := by
  obtain ⟨rem, hs, hall, hend⟩ := decodeTcp_spec s
  have hstuck : frameCode.Stuck rem :=
    stuck_of_ending (hend.imp (fun h => h.1) (fun h => h.1))
  refine ⟨_, rem, encodeFrames_canonical hall, hs, hall, ?_, ?_, ?_, ?_, ?_⟩
  · intro gs image hgs himage hpre
    rw [encodeFrames_canonical hgs] at himage
    rw [← Except.ok.inj himage, hs] at hpre
    exact frameCode.prefix_of_stuck hgs hall hstuck hpre
  · rw [← readFrame_illegal_iff]
    rcases hend with ⟨hread, hending, -⟩ | ⟨hread, hending⟩ <;> simp [hread, hending]
  · intro herror
    rcases hend with ⟨-, -, hunread⟩ | ⟨-, hending⟩
    · exact hunread
    · rw [hending] at herror
      cases herror
  · intro hlegal
    rw [← readFrame_illegal_iff] at hlegal
    rcases hend with ⟨hread, -⟩ | ⟨hread, hending⟩
    · exact absurd hread hlegal
    · obtain ⟨f, hcan, hpre, hne⟩ := readFrame_short hread
      exact ⟨hending, f, wireImage f, hcan, encodeFrame_eq [] f hcan.len_le_max, hpre, hne⟩
  · rintro rfl t
    rw [List.append_nil] at hs
    conv_lhs => rw [hs]
    rw [decodeTcp_images hall]

/-! ### What the decoder asks for -/

/-- The loop can serve the next read: it asks for some bytes and has room for them. -/
structure Expecting (rx : RxStream) : Prop where
  pos : 0 < rx.need
  le : rx.need ≤ 80
  head : rx.st = .flags → rx.f.len.toNat ≤ maxFrameLen

theorem primed_expecting : Expecting primed := by
  rw [primed_eq]
  exact ⟨Nat.succ_pos 3, by simp, fun h => by cases h⟩

theorem expecting_one {f : Frame} {st : DecodeState}
    (h : st = .flags → f.len.toNat ≤ maxFrameLen) : Expecting ⟨f, st, 1⟩ :=
  ⟨Nat.one_pos, by simp, h⟩

theorem expecting_payload {f : Frame} (hne : ¬ f.len = 0) (hle : f.len.toNat ≤ maxFrameLen) :
    Expecting ⟨f, .data, f.len.toNat⟩ := by
  have hpos : f.len.toNat ≠ 0 := fun h => hne (UInt8.toNat_inj.mp h)
  refine ⟨Nat.pos_of_ne_zero hpos, ?_, fun h => by cases h⟩
  unfold maxFrameLen at hle
  show f.len.toNat ≤ 80
  omega

/-- Whatever the decoder asks for, the buffer of the loop has room for it. -/
theorem decodeStream_expecting {data : Bytes} {f f' : Frame} {st st' : DecodeState} {n : ℕ}
    (hf : st = .flags → f.len.toNat ≤ maxFrameLen)
    (h : decodeStream data f st = .ok (.need n, f', st')) : Expecting ⟨f', st', n⟩ := by
  cases st with
  | init =>
    cases h
    exact primed_expecting
  | canId =>
    simp only [decodeStream] at h
    split at h
    · cases h
    · simp only [bind_eq_ok] at h
      obtain ⟨b0, -, b1, -, b2, -, b3, -, h⟩ := h
      cases h
      exact expecting_one fun heq => by cases heq
  | len =>
    simp only [decodeStream] at h
    split at h
    · cases h
    · simp only [bind_eq_ok] at h
      obtain ⟨raw, -, h⟩ := h
      split at h
      · split at h
        · cases h
        · rename_i hle
          cases h
          exact expecting_one fun _ => Nat.le_of_not_gt hle
      · split at h
        · cases h
        · rename_i hle
          split at h
          · cases h
          · split at h
            · cases h
            · rename_i hne
              cases h
              exact expecting_payload hne ((Nat.le_of_not_gt hle).trans (by decide))
  | flags =>
    simp only [decodeStream] at h
    split at h
    · cases h
    · simp only [bind_eq_ok] at h
      obtain ⟨flags, -, h⟩ := h
      split at h
      · cases h
      · rename_i hmore
        cases h
        exact expecting_payload (fun h0 => hmore (Or.inr h0)) (hf rfl)
  | data =>
    simp only [decodeStream] at h
    split at h
    · cases h
    · simp only [bind_eq_ok] at h
      obtain ⟨src, -, d, -, h⟩ := h
      cases h

theorem rxChunk_expecting {rx rx' : RxStream} {chunk : Bytes} (hrx : Expecting rx)
    (h : rxChunk rx chunk = .next rx') : Expecting rx' := by
  cases hdecode : decodeStream chunk rx.f rx.st with
  | error e =>
    simp only [rxChunk, guardedDecodeStream, hdecode] at h
    cases h
  | ok answer =>
    obtain ⟨answer, f, st⟩ := answer
    simp only [rxChunk, guardedDecodeStream, hdecode] at h
    cases answer with
    | need n =>
      cases h
      exact decodeStream_expecting hrx.head hdecode
    | complete => cases h
    | error => cases h

theorem rxChunk_push {rx : RxStream} {chunk : Bytes} {f : Frame} {next : Option RxStream}
    (h : rxChunk rx chunk = .push f next) : next = some primed := by
  unfold rxChunk at h
  split at h <;> cases h
  exact startFrame_eq

end Kvasilloni.Streams
