import Kvasilloni.Frames
import Kvasilloni.Library.PrefixCode

/-!
The cannelloni frame format: the encoder of the source, the bytes it appends,
and the canonical frames, which are the ones the bytes determine. Reading one
frame off a byte string is stated here once, as the format's own grammar; the
two decoders of the source are compared with it in `Datagrams` and `Streams`.
-/
namespace Kvasilloni.Grammar

open CheckedMemory SelfDelimiting Frames

/-- Encode one frame, appending to `out`. -/
def encodeFrame (out : Bytes) (f : Frame) : Checked Bytes := do
  let len := f.len &&& 0x7F
  let len := if f.fd then len ||| canfdFrame else len
  let out := out ++ toBe32 f.canId
  let out := out ++ [len]
  let out := if f.fd then out ++ [f.fdFlags] else out
  if f.isRtr then
    return out
  else
    let dlen := (f.len &&& 0x7F).toNat
    let payload ← slice f.data.toList 0 dlen
    return out ++ payload

/-- Encode the frames of a batch one behind the other. -/
def encodeFrames (out : Bytes) : List Frame → Checked Bytes
  | [] => .ok out
  | f :: fs => do
    let out ← encodeFrame out f
    encodeFrames out fs

/-- The length byte on the wire, with the high bit marking CAN FD. -/
def lenByte (f : Frame) : UInt8 :=
  if f.fd then (f.len &&& 0x7F) ||| canfdFrame else f.len &&& 0x7F

/-- The payload bytes on the wire: a remote frame carries none. -/
def wirePayload (f : Frame) : Bytes :=
  if f.isRtr then [] else f.data.toList.take f.len.toNat

def wireImage (f : Frame) : Bytes :=
  toBe32 f.canId ++ lenByte f :: ((if f.fd then [f.fdFlags] else []) ++ wirePayload f)

/-- The largest length a frame of the class may have. -/
def lenLimit (fd : Bool) : ℕ := if fd then maxFrameLen else classicFrameMaxLen

/-- A frame with no content besides what its wire image carries. -/
structure Canonical (f : Frame) : Prop where
  len_le : f.len.toNat ≤ lenLimit f.fd
  classic_flags : f.fd = false → f.fdFlags = 0
  padding : ∀ b ∈ f.data.toList.drop f.len.toNat, b = 0
  rtr_data : f.isRtr = true → f.data = zeroPayload
  unstamped : f.rxTimeMs = 0

theorem lenLimit_le (fd : Bool) : lenLimit fd ≤ 64 := by
  cases fd <;> decide

/-! ### Bytes -/

theorem and_canfdFrame_ne (x : UInt8) : x &&& canfdFrame ≠ 0 ↔ 128 ≤ x.toNat := by
  revert x
  exact forall_byte (by decide +kernel)

theorem toNat_and_mask (x : UInt8) : (x &&& 0x7F).toNat = x.toNat % 128 := by
  revert x
  exact forall_byte (by decide +kernel)

theorem and_not_canfdFrame (x : UInt8) : x &&& ~~~canfdFrame = x &&& 0x7F := rfl

theorem and_mask_of_lt (x : UInt8) (h : x.toNat < 128) : x &&& 0x7F = x := by
  rw [← UInt8.toNat_inj, toNat_and_mask]
  omega

theorem or_canfdFrame_ne (x : UInt8) : (x ||| canfdFrame) &&& canfdFrame ≠ 0 := by
  revert x
  exact forall_byte (by decide +kernel)

theorem or_canfdFrame_and_mask (x : UInt8) : (x ||| canfdFrame) &&& 0x7F = x &&& 0x7F := by
  revert x
  exact forall_byte (by decide +kernel)

theorem and_mask_or_canfdFrame (x : UInt8) (h : x &&& canfdFrame ≠ 0) :
    ((x &&& 0x7F) &&& 0x7F) ||| canfdFrame = x := by
  revert x
  exact forall_byte (by decide +kernel)

/-! ### The encoder -/

theorem encodeFrame_eq (out : Bytes) (f : Frame) (h : f.len.toNat ≤ 64) :
    encodeFrame out f = .ok (out ++ wireImage f) := by
  have hlen : (f.len &&& 0x7F).toNat = f.len.toNat := by
    rw [toNat_and_mask]
    omega
  have hslice : slice f.data.toList 0 f.len.toNat = .ok (f.data.toList.take f.len.toNat) :=
    slice_zero _ _ (by simpa using h)
  cases hfd : f.fd <;> cases hrtr : f.isRtr <;>
    simp [encodeFrame, wireImage, wirePayload, lenByte, hfd, hrtr, hlen, hslice]

theorem encodeFrames_eq (out : Bytes) (fs : List Frame) (h : ∀ f ∈ fs, f.len.toNat ≤ 64) :
    encodeFrames out fs = .ok (out ++ fs.flatMap wireImage) := by
  induction fs generalizing out with
  | nil => simp [encodeFrames]
  | cons f fs ih =>
    have hf := encodeFrame_eq out f (h f (List.mem_cons_self ..))
    have hfs := ih (out ++ wireImage f) (fun g hg => h g (List.mem_cons_of_mem _ hg))
    simp [encodeFrames, hf, hfs]

theorem Canonical.len_le_max {f : Frame} (hf : Canonical f) : f.len.toNat ≤ 64 :=
  hf.len_le.trans (lenLimit_le f.fd)

theorem encodeFrames_canonical {fs : List Frame} (h : ∀ f ∈ fs, Canonical f) :
    encodeFrames [] fs = .ok (fs.flatMap wireImage) := by
  rw [encodeFrames_eq [] fs (fun f hf => (h f hf).len_le_max), List.nil_append]

theorem wireImage_length_ge (f : Frame) : 5 ≤ (wireImage f).length := by
  simp [wireImage, toBe32]

theorem wireImage_ne_nil (f : Frame) : wireImage f ≠ [] := by
  intro h
  have hlen := wireImage_length_ge f
  rw [h] at hlen
  simp at hlen

/-! ### Reading one frame -/

/-- What a byte string begins with. -/
inductive Reading
  | frame (f : Frame) (rest : Bytes)
  | illegal
  | short

/-- The payload array that starts with the given bytes and is zero behind them. -/
def padded (bs : Bytes) : Payload :=
  ⟨bs.take 64 ++ List.replicate (64 - bs.length) 0, by
    simp only [List.length_append, List.length_take, List.length_replicate]
    omega⟩

/-- Read the payload of a frame whose head is known. -/
def readPayload (f : Frame) (s : Bytes) : Reading :=
  if f.isRtr then .frame f s
  else if s.length < f.len.toNat then .short
  else .frame { f with data := padded (s.take f.len.toNat) } (s.drop f.len.toNat)

def readFrame : Bytes → Reading
  | a :: b :: c :: d :: raw :: rest =>
    let f := { Frame.default with canId := fromBe32 a b c d }
    if raw &&& canfdFrame ≠ 0 then
      let f := { f with fd := true, len := raw &&& ~~~canfdFrame }
      if maxFrameLen < f.len.toNat then .illegal
      else match rest with
        | [] => .short
        | flags :: rest => readPayload { f with fdFlags := flags } rest
    else
      let f := { f with len := raw }
      if classicFrameMaxLen < f.len.toNat then .illegal else readPayload f rest
  | _ => .short

/-- The length byte exceeds the limit of its class. -/
def IllegalLen (raw : UInt8) : Prop :=
  if raw &&& canfdFrame ≠ 0 then maxFrameLen < (raw &&& ~~~canfdFrame).toNat
  else classicFrameMaxLen < raw.toNat

instance (raw : UInt8) : Decidable (IllegalLen raw) := by
  unfold IllegalLen
  infer_instance

/-- Four id bytes followed by an illegal length byte. -/
def IllegalHead (s : Bytes) : Prop :=
  ∃ a b c d raw rest, s = a :: b :: c :: d :: raw :: rest ∧ IllegalLen raw

theorem padded_toList (bs : Bytes) (h : bs.length ≤ 64) :
    (padded bs).toList = bs ++ List.replicate (64 - bs.length) 0 := by
  change bs.take 64 ++ _ = _
  rw [List.take_of_length_le h]

theorem zeroPayload_toList : zeroPayload.toList = List.replicate 64 0 := rfl

/-- Copying into a fresh payload array pads the bytes with zeros. -/
theorem overwriteBlock_zeroPayload (bs : Bytes) (h : bs.length ≤ 64) :
    overwriteBlock zeroPayload bs = .ok (padded bs) := by
  obtain ⟨data, hwrite, hvalue⟩ := overwriteBlock_ok zeroPayload bs h
  rw [hwrite]
  congr 1
  apply Subtype.ext
  change data.toList = (padded bs).toList
  rw [hvalue, padded_toList bs h, zeroPayload_toList, List.drop_replicate]

theorem padded_take {data : Payload} {n : ℕ} (hn : n ≤ 64)
    (h : ∀ b ∈ data.toList.drop n, b = 0) : padded (data.toList.take n) = data := by
  have hlen : (data.toList.take n).length = n := by simpa using hn
  have hzero : data.toList.drop n = List.replicate (64 - n) 0 := by
    apply List.eq_replicate_iff.mpr
    exact ⟨by simp, h⟩
  apply Subtype.ext
  change (padded (data.toList.take n)).toList = data.toList
  rw [padded_toList _ (by omega), hlen, ← hzero, List.take_append_drop]

theorem readPayload_wirePayload {f : Frame} (hf : Canonical f) (rest : Bytes) :
    readPayload { f with data := zeroPayload } (wirePayload f ++ rest) = .frame f rest := by
  have hn := hf.len_le_max
  cases hrtr : f.isRtr with
  | true =>
    have hdata := hf.rtr_data hrtr
    have hsame : { f with data := zeroPayload } = f := by rw [← hdata]
    simp [readPayload, wirePayload, hsame, hrtr]
  | false =>
    have hlen : (f.data.toList.take f.len.toNat).length = f.len.toNat := by simpa using hn
    have hpad := padded_take hn hf.padding
    have hrtr' : Frame.isRtr { f with data := zeroPayload } = false := hrtr
    simp only [readPayload, wirePayload, hrtr, hrtr', Bool.false_eq_true, ↓reduceIte,
      List.length_append, hlen, List.take_left' hlen, List.drop_left' hlen, hpad]
    simp

/-- The reader recovers a canonical frame and leaves what follows its image. -/
theorem readFrame_wireImage {f : Frame} (hf : Canonical f) (rest : Bytes) :
    readFrame (wireImage f ++ rest) = .frame f rest := by
  obtain ⟨a, b, c, d, hbytes, hid⟩ := exists_toBe32 f.canId
  have hn := hf.len_le
  have hpay := readPayload_wirePayload hf rest
  cases hfd : f.fd with
  | true =>
    have hlt : f.len.toNat < 128 := by simp [lenLimit, maxFrameLen, hfd] at hn; omega
    have hle : ¬ maxFrameLen < f.len.toNat := by simpa [lenLimit, hfd] using hn
    have hsame : { Frame.default with
        canId := f.canId, fd := true, len := f.len, fdFlags := f.fdFlags } =
          { f with data := zeroPayload } := by
      simp [Frame.default, ← hfd, ← hf.unstamped]
    simp only [wireImage, lenByte, hbytes, hfd, and_mask_of_lt _ hlt, ↓reduceIte,
      List.cons_append, List.nil_append, readFrame, or_canfdFrame_ne, ne_eq,
      not_false_eq_true, and_not_canfdFrame, or_canfdFrame_and_mask, hle, hid]
    rw [hsame, hpay]
  | false =>
    have hflags := hf.classic_flags hfd
    have hlt : f.len.toNat < 128 := by
      simp [lenLimit, classicFrameMaxLen, hfd] at hn
      omega
    have hle : ¬ classicFrameMaxLen < f.len.toNat := by simpa [lenLimit, hfd] using hn
    have hbit : ¬ f.len &&& canfdFrame ≠ 0 := by
      rw [and_canfdFrame_ne]
      omega
    have hsame : { Frame.default with canId := f.canId, len := f.len } =
        { f with data := zeroPayload } := by
      simp [Frame.default, ← hfd, ← hf.unstamped, ← hflags]
    simp only [wireImage, lenByte, hbytes, hfd, and_mask_of_lt _ hlt, Bool.false_eq_true,
      ↓reduceIte, List.cons_append, List.nil_append, readFrame, hbit, hle, hid]
    rw [hsame, hpay]

/-- A head is a frame still without payload whose class and length fit together. -/
structure Head (g : Frame) : Prop where
  len_le : g.len.toNat ≤ lenLimit g.fd
  classic_flags : g.fd = false → g.fdFlags = 0
  no_data : g.data = zeroPayload
  unstamped : g.rxTimeMs = 0

theorem Head.len_le_max {g : Frame} (hg : Head g) : g.len.toNat ≤ 64 :=
  hg.len_le.trans (lenLimit_le g.fd)

/-- Filling in as many payload bytes as the head announces makes it canonical. -/
theorem Head.fill {g : Frame} (hg : Head g) (bs : Bytes) (hrtr : g.isRtr = false)
    (hlen : bs.length = g.len.toNat) :
    Canonical { g with data := padded bs } ∧ wirePayload { g with data := padded bs } = bs := by
  have hn := hg.len_le_max
  have hdata := padded_toList bs (by omega)
  have hrtr' : Frame.isRtr { g with data := padded bs } = false := hrtr
  refine ⟨⟨hg.len_le, hg.classic_flags, ?_, ?_, hg.unstamped⟩, ?_⟩
  · intro b hb
    simp only [hdata, ← hlen, List.drop_left] at hb
    exact List.eq_of_mem_replicate hb
  · simp [hrtr']
  · simp [wirePayload, hrtr', hdata, ← hlen]

/-- With its zero payload a head is itself canonical. -/
theorem Head.canonical {g : Frame} (hg : Head g) : Canonical g where
  len_le := hg.len_le
  classic_flags := hg.classic_flags
  padding b hb := by
    rw [hg.no_data] at hb
    exact List.eq_of_mem_replicate (List.mem_of_mem_drop hb)
  rtr_data _ := hg.no_data
  unstamped := hg.unstamped

theorem readPayload_frame {g f : Frame} {s rest : Bytes} (hg : Head g)
    (h : readPayload g s = .frame f rest) :
    Canonical f ∧ s = wirePayload f ++ rest ∧ f = { g with data := f.data } := by
  unfold readPayload at h
  split at h
  · rename_i hrtr
    obtain ⟨rfl, rfl⟩ := Reading.frame.inj h
    exact ⟨hg.canonical, by simp [wirePayload, hrtr], rfl⟩
  · rename_i hrtr
    split at h
    · cases h
    · rename_i hlen
      obtain ⟨rfl, rfl⟩ := Reading.frame.inj h
      have htake : (s.take g.len.toNat).length = g.len.toNat := by simp; omega
      obtain ⟨hcan, hpay⟩ := hg.fill (s.take g.len.toNat) (by simpa using hrtr) htake
      exact ⟨hcan, by rw [hpay, List.take_append_drop], rfl⟩

/-- A payload that is cut short is a proper prefix of one that is not. -/
theorem readPayload_short {g : Frame} {s : Bytes} (hg : Head g)
    (h : readPayload g s = .short) :
    ∃ f, Canonical f ∧ f = { g with data := f.data } ∧ s <+: wirePayload f ∧
      s.length < (wirePayload f).length := by
  unfold readPayload at h
  split at h
  · cases h
  · rename_i hrtr
    split at h
    · rename_i hlen
      let bs := s ++ List.replicate (g.len.toNat - s.length) 0
      have hbs : bs.length = g.len.toNat := by simp [bs]; omega
      obtain ⟨hcan, hpay⟩ := hg.fill bs (by simpa using hrtr) hbs
      refine ⟨_, hcan, rfl, ?_, ?_⟩
      · rw [hpay]
        exact List.prefix_append _ _
      · rw [hpay, hbs]
        exact hlen
    · cases h

theorem readPayload_ne_illegal (g : Frame) (s : Bytes) : readPayload g s ≠ .illegal := by
  unfold readPayload
  split
  · simp
  · split <;> simp

theorem classic_head (canId : UInt32) (raw : UInt8)
    (hle : ¬ classicFrameMaxLen < raw.toNat) :
    Head { Frame.default with canId := canId, len := raw } where
  len_le := by simpa [lenLimit, Frame.default] using hle
  classic_flags _ := rfl
  no_data := rfl
  unstamped := rfl

theorem fd_head (canId : UInt32) (len flags : UInt8) (hle : ¬ maxFrameLen < len.toNat) :
    Head { Frame.default with canId := canId, fd := true, len := len, fdFlags := flags } where
  len_le := by simpa [lenLimit] using hle
  classic_flags h := by simp at h
  no_data := rfl
  unstamped := rfl

theorem lenByte_classic {f : Frame} (hfd : f.fd = false) (hlt : f.len.toNat < 128) :
    lenByte f = f.len := by
  simp [lenByte, hfd, and_mask_of_lt _ hlt]

theorem lenByte_fd {f : Frame} {raw : UInt8} (hfd : f.fd = true)
    (hbit : raw &&& canfdFrame ≠ 0) (hlen : f.len = raw &&& ~~~canfdFrame) :
    lenByte f = raw := by
  simp only [lenByte, hfd, ↓reduceIte, hlen, and_not_canfdFrame]
  exact and_mask_or_canfdFrame raw hbit

theorem wireImage_classic {f : Frame} {a b c d raw : UInt8}
    (hle : ¬ classicFrameMaxLen < raw.toNat)
    (hf : f = { Frame.default with canId := fromBe32 a b c d, len := raw, data := f.data }) :
    wireImage f = a :: b :: c :: d :: raw :: wirePayload f := by
  have hid : f.canId = fromBe32 a b c d := by rw [hf]
  have hfd : f.fd = false := by rw [hf]; rfl
  have hlen : f.len = raw := by rw [hf]
  have hlt : f.len.toNat < 128 := by
    rw [hlen]
    simp only [classicFrameMaxLen] at hle
    omega
  simp [wireImage, hid, toBe32_fromBe32, lenByte_classic hfd hlt, hlen, hfd]

theorem wireImage_fd {f : Frame} {a b c d raw flags : UInt8} (hbit : raw &&& canfdFrame ≠ 0)
    (hf : f = { Frame.default with
      canId := fromBe32 a b c d, fd := true, len := raw &&& ~~~canfdFrame, fdFlags := flags,
      data := f.data }) :
    wireImage f = a :: b :: c :: d :: raw :: flags :: wirePayload f := by
  have hid : f.canId = fromBe32 a b c d := by rw [hf]
  have hfd : f.fd = true := by rw [hf]
  have hlen : f.len = raw &&& ~~~canfdFrame := by rw [hf]
  have hflags : f.fdFlags = flags := by rw [hf]
  simp [wireImage, hid, toBe32_fromBe32, lenByte_fd hfd hbit hlen, hfd, hflags]

/-- What the reader returns is canonical and was there on the wire. -/
theorem readFrame_frame {s rest : Bytes} {f : Frame} (h : readFrame s = .frame f rest) :
    Canonical f ∧ s = wireImage f ++ rest := by
  unfold readFrame at h
  split at h
  · rename_i a b c d raw tail
    dsimp only at h
    split at h
    · rename_i hbit
      split at h
      · cases h
      · rename_i hle
        split at h
        · cases h
        · rename_i flags tail
          obtain ⟨hcan, htail, hf⟩ := readPayload_frame (fd_head _ _ flags hle) h
          exact ⟨hcan, by rw [wireImage_fd hbit hf, htail]; rfl⟩
    · split at h
      · cases h
      · rename_i hle
        obtain ⟨hcan, htail, hf⟩ := readPayload_frame (classic_head _ raw hle) h
        exact ⟨hcan, by rw [wireImage_classic hle hf, htail]; rfl⟩
  · cases h

theorem readFrame_illegal_iff (s : Bytes) : readFrame s = .illegal ↔ IllegalHead s := by
  constructor
  · intro h
    unfold readFrame at h
    split at h
    · rename_i a b c d raw tail
      refine ⟨a, b, c, d, raw, tail, rfl, ?_⟩
      dsimp only at h
      unfold IllegalLen
      split at h
      · rename_i hbit
        rw [if_pos hbit]
        split at h
        · assumption
        · split at h
          · cases h
          · exact absurd h (readPayload_ne_illegal _ _)
      · rename_i hbit
        rw [if_neg hbit]
        split at h
        · assumption
        · exact absurd h (readPayload_ne_illegal _ _)
    · cases h
  · rintro ⟨a, b, c, d, raw, tail, rfl, hraw⟩
    unfold IllegalLen at hraw
    unfold readFrame
    dsimp only
    split at hraw
    · rename_i hbit
      rw [if_pos hbit, if_pos hraw]
    · rename_i hbit
      rw [if_neg hbit, if_pos hraw]

private theorem head_cut (s : Bytes) (h : s.length < 5) :
    ∃ f, Canonical f ∧ s <+: wireImage f := by
  have hbytes : ∃ a b c d, s <+: [a, b, c, d] := by
    rcases s with _ | ⟨a, _ | ⟨b, _ | ⟨c, _ | ⟨d, _ | ⟨e, t⟩⟩⟩⟩⟩
    · exact ⟨0, 0, 0, 0, List.nil_prefix⟩
    · exact ⟨a, 0, 0, 0, ⟨[0, 0, 0], rfl⟩⟩
    · exact ⟨a, b, 0, 0, ⟨[0, 0], rfl⟩⟩
    · exact ⟨a, b, c, 0, ⟨[0], rfl⟩⟩
    · exact ⟨a, b, c, d, List.prefix_rfl⟩
    · simp only [List.length_cons] at h
      omega
  obtain ⟨a, b, c, d, hs⟩ := hbytes
  have hle : ¬ classicFrameMaxLen < (0 : UInt8).toNat := by decide
  refine ⟨_, (classic_head (fromBe32 a b c d) 0 hle).canonical, hs.trans ?_⟩
  rw [wireImage_classic hle rfl]
  exact ⟨_, rfl⟩

/-- When the reader runs out of bytes, they are a proper prefix of some image. -/
theorem readFrame_short {s : Bytes} (h : readFrame s = .short) :
    ∃ f, Canonical f ∧ s <+: wireImage f ∧ s ≠ wireImage f := by
  by_cases hfive : s.length < 5
  · obtain ⟨f, hcan, hs⟩ := head_cut s hfive
    refine ⟨f, hcan, hs, ?_⟩
    rintro rfl
    have := wireImage_length_ge f
    omega
  unfold readFrame at h
  split at h
  · rename_i a b c d raw tail
    dsimp only at h
    split at h
    · rename_i hbit
      split at h
      · cases h
      · rename_i hle
        split at h
        · refine ⟨_, (fd_head (fromBe32 a b c d) _ 0 hle).canonical, ?_, ?_⟩ <;>
            rw [wireImage_fd hbit rfl]
          · exact ⟨_, rfl⟩
          · simp
        · rename_i flags tail
          obtain ⟨f, hcan, hf, hpre, hlen⟩ := readPayload_short (fd_head _ _ flags hle) h
          refine ⟨f, hcan, ?_, ?_⟩ <;> rw [wireImage_fd hbit hf]
          · simpa using hpre
          · intro heq
            simp only [List.cons.injEq, true_and] at heq
            rw [heq] at hlen
            omega
    · split at h
      · cases h
      · rename_i hle
        obtain ⟨f, hcan, hf, hpre, hlen⟩ := readPayload_short (classic_head _ raw hle) h
        refine ⟨f, hcan, ?_, ?_⟩ <;> rw [wireImage_classic hle hf]
        · simpa using hpre
        · intro heq
          simp only [List.cons.injEq, true_and] at heq
          rw [heq] at hlen
          omega
  · rename_i hnot
    rcases s with _ | ⟨a, _ | ⟨b, _ | ⟨c, _ | ⟨d, _ | ⟨e, t⟩⟩⟩⟩⟩
    all_goals first
      | exact absurd rfl (hnot _ _ _ _ _ _)
      | simp at hfive

/-! ### The code -/

/-- Canonical frames under their wire images. -/
def frameCode : PrefixCode Frame UInt8 where
  Valid := Canonical
  enc := wireImage
  enc_ne_nil f _ := wireImage_ne_nil f
  eq_of_prefix f g hf hg h := by
    obtain ⟨t, ht⟩ := h
    have hread := readFrame_wireImage hf t
    rw [ht, ← List.append_nil (wireImage g), readFrame_wireImage hg []] at hread
    exact (Reading.frame.inj hread).1.symm

/-- No frame begins a string the reader takes no frame from. -/
theorem stuck_of_readFrame {s : Bytes} (h : ∀ f rest, readFrame s ≠ .frame f rest) :
    frameCode.Stuck s := by
  rintro f hf ⟨t, rfl⟩
  exact h f t (readFrame_wireImage hf t)

end Kvasilloni.Grammar
