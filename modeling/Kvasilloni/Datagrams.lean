import Kvasilloni.Grammar

/-!
The UDP packet codec. A datagram is a five-byte header followed by as many
frames as the header counts; what stands behind them is not looked at. The
parser's offset is related to the part of the buffer it has not read yet, on
which each round of its loop reads exactly one frame of the grammar.
-/
namespace Kvasilloni.Datagrams

open CheckedMemory SelfDelimiting Frames Grammar

/-- Build a one-frame datagram. -/
def buildUdp (f : Frame) (seqNo : UInt8) : Checked Bytes := do
  let out := [frameVersion]
  let out := out ++ [opData]
  let out := out ++ [seqNo]
  let out := out ++ toBe16 1
  encodeFrame out f

/-- The end of one round of the loop of `parse_udp`: check the length against its
class and copy the payload. -/
def parseUdpPayload (buf : Bytes) (f : Frame) (p : ℕ) : Checked (Option (Frame × ℕ)) :=
  let dlen := (f.len &&& 0x7F).toNat
  let limit := if f.fd then maxFrameLen else classicFrameMaxLen
  if dlen > limit then return none
  else if f.isRtr then return some (f, p)
  else if p + dlen > buf.length then return none
  else do
    let src ← slice buf p (p + dlen)
    let data ← overwriteBlock f.data src
    return some ({ f with data := data }, p + dlen)

/-- One round of the loop of `parse_udp`: the frame at offset `p` and the offset
behind it, or `none` where the source returns. -/
def parseUdpFrame (buf : Bytes) (p : ℕ) : Checked (Option (Frame × ℕ)) :=
  if p + frameBaseSize > buf.length then return none
  else do
    let b0 ← index buf p
    let b1 ← index buf (p + 1)
    let b2 ← index buf (p + 2)
    let b3 ← index buf (p + 3)
    let f := { Frame.default with canId := fromBe32 b0 b1 b2 b3 }
    let p := p + 4
    let raw ← index buf p
    let p := p + 1
    if raw &&& canfdFrame ≠ 0 then
      let f := { f with fd := true, len := raw &&& ~~~canfdFrame }
      if p + 1 > buf.length then return none
      else
        let flags ← index buf p
        parseUdpPayload buf { f with fdFlags := flags } (p + 1)
    else
      parseUdpPayload buf { f with len := raw } p

/-- The loop of `parse_udp`, with the rounds left, the offset and the frames so far. -/
def parseUdpLoop (buf : Bytes) : ℕ → ℕ → List Frame → Checked (Option (List Frame))
  | 0, _, frames => return some frames
  | n + 1, p, frames => do
    match ← parseUdpFrame buf p with
    | none => return none
    | some (f, p) => parseUdpLoop buf n p (frames ++ [f])

/-- Parse a datagram, returning the frames it contains. -/
def parseUdp (buf : Bytes) : Checked (Option (List Frame)) :=
  if buf.length < dataPacketBaseSize then return none
  else do
    let version ← index buf 0
    let op ← index buf 1
    if version ≠ frameVersion ∨ op ≠ opData then return none
    else
      let hi ← index buf 3
      let lo ← index buf 4
      let count := fromBe16 hi lo
      parseUdpLoop buf count.toNat dataPacketBaseSize []

/-- The frame a reading found in a buffer, with the offset behind it. -/
def found (buf : Bytes) : Reading → Option (Frame × ℕ)
  | .frame f rest => some (f, buf.length - rest.length)
  | .illegal => none
  | .short => none

theorem parseUdpPayload_eq (pre s : Bytes) (g : Frame) (hdata : g.data = zeroPayload)
    (hlen : g.len.toNat < 128) :
    parseUdpPayload (pre ++ s) g pre.length =
      .ok (if g.len.toNat > lenLimit g.fd then none
        else found (pre ++ s) (readPayload g s)) := by
  have hmask : (g.len &&& 0x7F).toNat = g.len.toNat := by
    rw [toNat_and_mask]
    omega
  have hlimit := lenLimit_le g.fd
  unfold parseUdpPayload
  simp only [hmask]
  change (if g.len.toNat > lenLimit g.fd then _ else _) = _
  split
  · rfl
  · rename_i hle
    cases hrtr : g.isRtr with
    | true => simp [readPayload, hrtr, found]
    | false =>
      by_cases hshort : s.length < g.len.toNat
      · simp [readPayload, hrtr, hshort, found]
      · have hslice : slice (pre ++ s) pre.length (pre.length + g.len.toNat) =
            .ok (s.take g.len.toNat) := by
          have h := slice_append pre s 0 g.len.toNat
          rw [Nat.add_zero] at h
          rw [h, slice_zero s _ (by omega)]
        have htake : (s.take g.len.toNat).length = g.len.toNat := by
          rw [List.length_take]
          omega
        have hwrite : overwriteBlock g.data (s.take g.len.toNat) =
            .ok (padded (s.take g.len.toNat)) := by
          rw [hdata]
          exact overwriteBlock_zeroPayload _ (by omega)
        have hend : pre.length + s.length - (s.length - g.len.toNat) =
            pre.length + g.len.toNat := by omega
        simp [readPayload, hrtr, hshort, hslice, hwrite, found, hend]

private theorem payload_behind (pre head s : Bytes) (g : Frame) (hdata : g.data = zeroPayload)
    (hlen : g.len.toNat < 128) :
    parseUdpPayload (pre ++ (head ++ s)) g (pre.length + head.length) =
      .ok (if g.len.toNat > lenLimit g.fd then none
        else found (pre ++ (head ++ s)) (readPayload g s)) := by
  rw [← List.append_assoc, ← List.length_append]
  exact parseUdpPayload_eq (pre ++ head) s g hdata hlen

/-- A round of the loop reads one frame of the grammar from the unread bytes. -/
theorem parseUdpFrame_eq (pre s : Bytes) :
    parseUdpFrame (pre ++ s) pre.length = .ok (found (pre ++ s) (readFrame s)) := by
  rcases s with _ | ⟨a, _ | ⟨b, _ | ⟨c, _ | ⟨d, _ | ⟨raw, t⟩⟩⟩⟩⟩
  case cons.cons.cons.cons.cons =>
    have hindex : ∀ i, index (pre ++ a :: b :: c :: d :: raw :: t) (pre.length + i) =
        index (a :: b :: c :: d :: raw :: t) i := fun i => index_append _ _ _
    have h0 := hindex 0
    rw [Nat.add_zero] at h0
    have hlength : ¬ pre.length + frameBaseSize >
        (pre ++ a :: b :: c :: d :: raw :: t).length := by
      simp [frameBaseSize]
    unfold parseUdpFrame
    simp only [hlength, ↓reduceIte, h0, hindex, index_zero, index_succ, ok_bind,
      Nat.add_assoc, Nat.reduceAdd, readFrame]
    by_cases hbit : raw &&& canfdFrame ≠ 0
    · have hlt : (raw &&& ~~~canfdFrame).toNat < 128 := by
        rw [and_not_canfdFrame, toNat_and_mask]
        omega
      rw [if_pos hbit, if_pos hbit]
      cases t with
      | nil =>
        rw [if_pos (by simp)]
        split <;> rfl
      | cons flags t =>
        have h : parseUdpPayload (pre ++ a :: b :: c :: d :: raw :: flags :: t) _
            (pre.length + 6) = _ :=
          payload_behind pre [a, b, c, d, raw, flags] t { Frame.default with
            canId := fromBe32 a b c d, fd := true, len := raw &&& ~~~canfdFrame,
            fdFlags := flags } rfl hlt
        rw [if_neg (by simp), index_zero, ok_bind, h]
        simp only [lenLimit, ↓reduceIte, gt_iff_lt]
        split <;> rfl
    · have hlt : raw.toNat < 128 := by
        rw [and_canfdFrame_ne] at hbit
        omega
      have h : parseUdpPayload (pre ++ a :: b :: c :: d :: raw :: t) _ (pre.length + 5) = _ :=
        payload_behind pre [a, b, c, d, raw] t { Frame.default with
          canId := fromBe32 a b c d, len := raw } rfl hlt
      rw [if_neg hbit, if_neg hbit, h]
      simp only [lenLimit, Frame.default, Bool.false_eq_true, ↓reduceIte, gt_iff_lt]
      split <;> rfl
  all_goals simp [parseUdpFrame, frameBaseSize, readFrame, found]

/-- The bytes begin with the images of these frames, all of them canonical. -/
def BodyOf (s : Bytes) (fs : List Frame) : Prop :=
  (∀ f ∈ fs, Canonical f) ∧ fs.flatMap wireImage <+: s

/-- The loop accepts exactly when as many frames as it has rounds left begin the
unread bytes, and it returns those frames. -/
theorem parseUdpLoop_spec (n : ℕ) (pre s : Bytes) (frames : List Frame) :
    (∃ fs, fs.length = n ∧ BodyOf s fs ∧
      parseUdpLoop (pre ++ s) n pre.length frames = .ok (some (frames ++ fs))) ∨
    ((∀ fs, fs.length = n → ¬ BodyOf s fs) ∧
      parseUdpLoop (pre ++ s) n pre.length frames = .ok none) := by
  induction n generalizing pre s frames with
  | zero =>
    left
    exact ⟨[], rfl, ⟨by simp, List.nil_prefix⟩, by simp [parseUdpLoop]⟩
  | succ n ih =>
    have hround := parseUdpFrame_eq pre s
    cases hread : readFrame s with
    | frame f rest =>
      obtain ⟨hcan, hs⟩ := readFrame_frame hread
      have hbuf : pre ++ s = (pre ++ wireImage f) ++ rest := by rw [hs, List.append_assoc]
      have hoff : (pre ++ s).length - rest.length = (pre ++ wireImage f).length := by
        rw [hbuf, List.length_append]
        omega
      rw [hread] at hround
      have hloop : parseUdpLoop (pre ++ s) (n + 1) pre.length frames =
          parseUdpLoop ((pre ++ wireImage f) ++ rest) n (pre ++ wireImage f).length
            (frames ++ [f]) := by
        simp only [parseUdpLoop, hround, found, ok_bind, hoff]
        rw [hbuf]
      rcases ih (pre ++ wireImage f) rest (frames ++ [f]) with
        ⟨fs, hlen, hbody, hparse⟩ | ⟨hnone, hparse⟩
      · left
        refine ⟨f :: fs, by simp [hlen], ⟨?_, ?_⟩, ?_⟩
        · intro g hg
          rcases List.mem_cons.mp hg with rfl | hg
          · exact hcan
          · exact hbody.1 g hg
        · rw [hs, List.flatMap_cons]
          exact (List.prefix_append_right_inj _).mpr hbody.2
        · rw [hloop, hparse]
          simp
      · right
        refine ⟨?_, by rw [hloop, hparse]⟩
        rintro (_ | ⟨g, fs⟩) hlen ⟨hvalid, u, hu⟩
        · simp at hlen
        · obtain ⟨hg, hfs⟩ := frameCode.allValid_cons hvalid
          rw [List.flatMap_cons, List.append_assoc, hs] at hu
          obtain ⟨rfl, hrest⟩ := frameCode.enc_append_inj hg hcan hu
          exact hnone fs (by simpa using hlen) ⟨hfs, u, hrest⟩
    | illegal | short =>
      right
      rw [hread] at hround
      refine ⟨?_, by simp [parseUdpLoop, hround, found]⟩
      rintro (_ | ⟨g, fs⟩) hlen ⟨hvalid, u, hu⟩
      · simp at hlen
      · obtain ⟨hg, -⟩ := frameCode.allValid_cons hvalid
        rw [List.flatMap_cons, List.append_assoc] at hu
        have hframe := readFrame_wireImage hg (fs.flatMap wireImage ++ u)
        rw [hu, hread] at hframe
        cases hframe

/-- The datagram grammar: version, operation, a sequence byte, the frame count in
two bytes, the encoded frames, and a tail of any kind. -/
def IsDatagram (buf : Bytes) (fs : List Frame) : Prop :=
  ∃ (seq : UInt8) (count : UInt16) (body tail : Bytes),
    count.toNat = fs.length ∧ encodeFrames [] fs = .ok body ∧
    buf = [2, 0, seq] ++ toBe16 count ++ body ++ tail ∧ ∀ f ∈ fs, Canonical f

theorem isDatagram_header (v o q hi lo : UInt8) (s : Bytes) (fs : List Frame) :
    IsDatagram (v :: o :: q :: hi :: lo :: s) fs ↔
      v = frameVersion ∧ o = opData ∧ fs.length = (fromBe16 hi lo).toNat ∧ BodyOf s fs := by
  constructor
  · rintro ⟨seq, count, body, tail, hcount, hbody, hbuf, hcan⟩
    obtain ⟨hi', lo', hbytes, hvalue⟩ := exists_toBe16 count
    rw [encodeFrames_canonical hcan] at hbody
    simp only [hbytes, ← Except.ok.inj hbody, List.cons_append, List.nil_append,
      List.cons.injEq] at hbuf
    obtain ⟨rfl, rfl, -, rfl, rfl, rfl⟩ := hbuf
    exact ⟨rfl, rfl, by rw [hvalue, hcount], hcan, List.prefix_append _ _⟩
  · rintro ⟨rfl, rfl, hcount, hcan, tail, htail⟩
    refine ⟨q, fromBe16 hi lo, _, tail, hcount.symm, encodeFrames_canonical hcan, ?_, hcan⟩
    rw [toBe16_fromBe16, ← htail]
    rfl

theorem IsDatagram.length_ge {buf : Bytes} {fs : List Frame} (h : IsDatagram buf fs) :
    dataPacketBaseSize ≤ buf.length := by
  obtain ⟨seq, count, body, tail, -, -, rfl, -⟩ := h
  simp [dataPacketBaseSize, toBe16]

theorem parseUdp_header (v o q hi lo : UInt8) (s : Bytes) :
    parseUdp (v :: o :: q :: hi :: lo :: s) =
      if v ≠ frameVersion ∨ o ≠ opData then .ok none
      else parseUdpLoop ([v, o, q, hi, lo] ++ s) (fromBe16 hi lo).toNat 5 [] := by
  simp [parseUdp, dataPacketBaseSize]

/-- The parser returns the frames of the datagram or refuses it; it never faults. -/
theorem parseUdp_spec (buf : Bytes) :
    (∃ fs, IsDatagram buf fs ∧ parseUdp buf = .ok (some fs)) ∨
    ((∀ fs, ¬ IsDatagram buf fs) ∧ parseUdp buf = .ok none) := by
  by_cases hlen : buf.length < dataPacketBaseSize
  · right
    refine ⟨fun fs h => ?_, by simp [parseUdp, hlen]⟩
    have := h.length_ge
    omega
  rcases buf with _ | ⟨v, _ | ⟨o, _ | ⟨q, _ | ⟨hi, _ | ⟨lo, s⟩⟩⟩⟩⟩
  case cons.cons.cons.cons.cons =>
    rw [parseUdp_header]
    by_cases hhead : v ≠ frameVersion ∨ o ≠ opData
    · right
      refine ⟨fun fs h => ?_, by rw [if_pos hhead]⟩
      obtain ⟨hv, ho, -⟩ := (isDatagram_header v o q hi lo s fs).mp h
      rcases hhead with hne | hne
      · exact hne hv
      · exact hne ho
    · rw [if_neg hhead]
      simp only [not_or, ne_eq, not_not] at hhead
      rcases parseUdpLoop_spec (fromBe16 hi lo).toNat [v, o, q, hi, lo] s [] with
        ⟨fs, hcount, hbody, hparse⟩ | ⟨hnone, hparse⟩
      · left
        exact ⟨fs, (isDatagram_header v o q hi lo s fs).mpr ⟨hhead.1, hhead.2, hcount, hbody⟩,
          hparse⟩
      · right
        refine ⟨fun fs h => ?_, hparse⟩
        obtain ⟨-, -, hcount, hbody⟩ := (isDatagram_header v o q hi lo s fs).mp h
        exact hnone fs hcount hbody
  all_goals simp [dataPacketBaseSize] at hlen

/-- A buffer is the datagram of at most one frame list. -/
theorem IsDatagram.unique {buf : Bytes} {fs gs : List Frame} (hf : IsDatagram buf fs)
    (hg : IsDatagram buf gs) : fs = gs := by
  have hlen := hf.length_ge
  rcases buf with _ | ⟨v, _ | ⟨o, _ | ⟨q, _ | ⟨hi, _ | ⟨lo, s⟩⟩⟩⟩⟩
  case cons.cons.cons.cons.cons =>
    obtain ⟨-, -, hfl, hfc, t, ht⟩ := (isDatagram_header v o q hi lo s fs).mp hf
    obtain ⟨-, -, hgl, hgc, u, hu⟩ := (isDatagram_header v o q hi lo s gs).mp hg
    exact (frameCode.stream_append_inj hfc hgc (by omega) (ht.trans hu.symm)).1
  all_goals simp [dataPacketBaseSize] at hlen

/-- The parser accepts exactly the datagrams of the grammar and refuses every other
buffer, always without a fault. -/
theorem parseUdp_accepts_exactly (buf : Bytes) :
    (∀ fs, parseUdp buf = .ok (some fs) ↔ IsDatagram buf fs) ∧
      (parseUdp buf = .ok none ↔ ∀ fs, ¬ IsDatagram buf fs) := by
  rcases parseUdp_spec buf with ⟨gs, hgs, hparse⟩ | ⟨hnone, hparse⟩
  · rw [hparse]
    refine ⟨fun fs => ⟨fun h => ?_, fun h => ?_⟩, fun h => ?_, fun h => ?_⟩
    · obtain rfl := Option.some.inj (Except.ok.inj h)
      exact hgs
    · rw [h.unique hgs]
    · simp at h
    · exact absurd hgs (h gs)
  · rw [hparse]
    refine ⟨fun fs => ⟨fun h => ?_, fun h => ?_⟩, fun _ => hnone, fun _ => rfl⟩
    · simp at h
    · exact absurd h (hnone fs)

end Kvasilloni.Datagrams
