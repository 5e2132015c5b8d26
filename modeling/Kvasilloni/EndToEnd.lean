import Kvasilloni.Datagrams
import Kvasilloni.Streams
import Kvasilloni.Marshal

/-!
From `canWrite` on one side to `canRead` on the other. The frame built from the
caller's arguments is canonical, so both transports carry it unchanged, and the
marshaller hands back identifier, flags, length and padded payload.
-/
namespace Kvasilloni.EndToEnd

open CheckedMemory Frames Grammar Datagrams Streams Marshal

/-- The data lengths a CAN FD frame can have. -/
def validFdLens : List ℕ := [0, 1, 2, 3, 4, 5, 6, 7, 8, 12, 16, 20, 24, 32, 48, 64]

/-- How many bytes of the caller's buffer are read. -/
def userBytes (dlc flag : UInt32) : ℕ :=
  if flag &&& canMsgFdf ≠ 0 then min dlc.toNat 64 else min dlc.toNat 8

/-- The length the frame must have: for CAN FD the least valid one that holds the
caller's bytes, otherwise their number. -/
def IsWireLen (dlc flag : UInt32) (len : ℕ) : Prop :=
  if flag &&& canMsgFdf ≠ 0 then
    len ∈ validFdLens ∧ min dlc.toNat 64 ≤ len ∧
      ∀ m ∈ validFdLens, min dlc.toNat 64 ≤ m → len ≤ m
  else len = min dlc.toNat 8

/-- The caller's bytes that travel: none behind a null pointer. -/
def supplied (msg : Option Bytes) (dlc flag : UInt32) : Bytes :=
  (msg.getD []).take (userBytes dlc flag)

/-- The flags a reader of an FD channel sees for a frame written with `flag`. -/
def reportedFlags (flag : UInt32) : UInt32 :=
  (if flag &&& canMsgExt ≠ 0 then canMsgExt else canMsgStd) |||
  (if flag &&& canMsgRtr ≠ 0 then canMsgRtr else 0) |||
  (if flag &&& canMsgFdf ≠ 0 then canMsgFdf else 0) |||
  (if flag &&& canMsgFdf ≠ 0 ∧ flag &&& canMsgBrs ≠ 0 then canMsgBrs else 0) |||
  (if flag &&& canMsgFdf ≠ 0 ∧ flag &&& canMsgEsi ≠ 0 then canMsgEsi else 0)

def reportedId (id : Int32) (flag : UInt32) : Int32 :=
  if flag &&& canMsgExt ≠ 0 then id &&& 0x1FFFFFFF else id &&& 0x7FF

theorem min_toNat (a b : UInt32) : (min a b).toNat = min a.toNat b.toNat := by
  change (if a ≤ b then a else b).toNat = _
  split
  · rename_i h
    rw [min_eq_left (UInt32.le_iff_toNat_le.mp h)]
  · rename_i h
    rw [UInt32.le_iff_toNat_le] at h
    rw [min_eq_right (by omega)]

theorem min_toUInt8_toNat (a b : UInt32) (hb : b.toNat < 256) :
    (min a b).toUInt8.toNat = min a.toNat b.toNat := by
  rw [UInt32.toNat_toUInt8, min_toNat]
  omega

theorem fdRoundLen_least (n : UInt8) (h : n.toNat ≤ 64) :
    (fdRoundLen n).toNat ∈ validFdLens ∧ n.toNat ≤ (fdRoundLen n).toNat ∧
      ∀ m ∈ validFdLens, n.toNat ≤ m → (fdRoundLen n).toNat ≤ m := by
  revert n
  exact forall_byte (by decide +kernel)

theorem validFdLens_le {m : ℕ} (h : m ∈ validFdLens) : m ≤ 64 := by
  revert m
  decide

/-! ### The frame that is built -/

/-- The frame before its payload is copied in. -/
def unfilled (id : Int32) (dlc flag : UInt32) : Frame :=
  if flag &&& canMsgFdf ≠ 0 then
    { Frame.default with
      canId := kvaserToCanid id flag
      fd := true
      fdFlags := kvaserToFdFlags flag
      len := fdRoundLen (min dlc 64).toUInt8 }
  else { Frame.default with canId := kvaserToCanid id flag, len := (min dlc 8).toUInt8 }

theorem unfilled_canId (id : Int32) (dlc flag : UInt32) :
    (unfilled id dlc flag).canId = kvaserToCanid id flag := by
  unfold unfilled
  split <;> rfl

theorem unfilled_isRtr (id : Int32) (dlc flag : UInt32) :
    (unfilled id dlc flag).isRtr = true ↔ flag &&& canMsgRtr ≠ 0 := by
  simp only [Frame.isRtr, unfilled_canId, bne_iff_ne]
  exact kvaserToCanid_rtr id flag

theorem unfilled_isWireLen (id : Int32) (dlc flag : UInt32) :
    IsWireLen dlc flag (unfilled id dlc flag).len.toNat := by
  unfold IsWireLen unfilled
  split
  · have hbytes : (min dlc 64).toUInt8.toNat = min dlc.toNat 64 :=
      min_toUInt8_toNat dlc 64 (by decide)
    have hleast := fdRoundLen_least (min dlc 64).toUInt8 (by omega)
    rw [hbytes] at hleast
    exact hleast
  · exact min_toUInt8_toNat dlc 8 (by decide)

/-- The announced length holds the caller's bytes and fits the class. -/
theorem IsWireLen.bounds {dlc flag : UInt32} {len : ℕ} (h : IsWireLen dlc flag len) :
    userBytes dlc flag ≤ len ∧ len ≤ lenLimit (decide (flag &&& canMsgFdf ≠ 0)) := by
  unfold IsWireLen at h
  unfold userBytes
  by_cases hfd : flag &&& canMsgFdf ≠ 0
  · rw [if_pos hfd] at h
    rw [if_pos hfd, decide_eq_true hfd]
    exact ⟨h.2.1, validFdLens_le h.1⟩
  · rw [if_neg hfd] at h
    rw [if_neg hfd, decide_eq_false hfd, h]
    exact ⟨le_rfl, min_le_right _ _⟩

theorem unfilled_head (id : Int32) (dlc flag : UInt32) : Head (unfilled id dlc flag) where
  len_le := by
    have hfd : (unfilled id dlc flag).fd = decide (flag &&& canMsgFdf ≠ 0) := by
      unfold unfilled
      split
      · rename_i h
        rw [decide_eq_true h]
      · rename_i h
        rw [decide_eq_false h]
        rfl
    rw [hfd]
    exact (unfilled_isWireLen id dlc flag).bounds.2
  classic_flags := by
    unfold unfilled
    split <;> simp [Frame.default]
  no_data := by
    unfold unfilled
    split <;> rfl
  unstamped := by
    unfold unfilled
    split <;> rfl

/-- The payload a reader gets for a data frame of length `len`. -/
def received (msg : Option Bytes) (dlc flag : UInt32) (len : ℕ) : Bytes :=
  supplied msg dlc flag ++ List.replicate (len - (supplied msg dlc flag).length) 0

/-- The frame built from the arguments of `canWrite`. -/
def builtFrame (id : Int32) (msg : Option Bytes) (dlc flag : UInt32) : Frame :=
  let g := unfilled id dlc flag
  if flag &&& canMsgRtr ≠ 0 then g
  else { g with data := padded (received msg dlc flag g.len.toNat) }

theorem writeFrame_unfilled (id : Int32) (msg : Option Bytes) (dlc flag : UInt32) :
    writeFrame id msg dlc flag =
      match msg with
      | none => .ok (unfilled id dlc flag)
      | some buf =>
        if userBytes dlc flag > 0 ∧ flag &&& canMsgRtr = 0 then do
          let src ← slice buf 0 (userBytes dlc flag)
          let data ← overwriteBlock zeroPayload src
          return { unfilled id dlc flag with data := data }
        else .ok (unfilled id dlc flag) := by
  have hfdBytes : (min dlc 64).toNat = min dlc.toNat 64 := min_toNat dlc 64
  have hbytes : (min dlc 8).toUInt8.toNat = min dlc.toNat 8 :=
    min_toUInt8_toNat dlc 8 (by decide)
  unfold writeFrame unfilled userBytes
  by_cases hfd : flag &&& canMsgFdf ≠ 0
  · simp only [if_pos hfd, hfdBytes]
    rfl
  · simp only [if_neg hfd, hbytes]
    rfl

theorem supplied_length_le (msg : Option Bytes) (dlc flag : UInt32) :
    (supplied msg dlc flag).length ≤ userBytes dlc flag := by
  rw [supplied, List.length_take]
  exact min_le_left _ _

theorem received_length (msg : Option Bytes) {dlc flag : UInt32} {len : ℕ}
    (h : userBytes dlc flag ≤ len) : (received msg dlc flag len).length = len := by
  have hle := supplied_length_le msg dlc flag
  rw [received, List.length_append, List.length_replicate]
  omega

theorem padded_received (msg : Option Bytes) (dlc flag : UInt32) {len : ℕ}
    (h : userBytes dlc flag ≤ len) (hlen : len ≤ 64) :
    padded (received msg dlc flag len) = padded (supplied msg dlc flag) := by
  have hle := supplied_length_le msg dlc flag
  have hreceived := received_length msg h
  apply Subtype.ext
  change (padded _).toList = (padded _).toList
  rw [padded_toList _ (by omega), padded_toList _ (by omega), hreceived, received,
    List.append_assoc, List.replicate_append_replicate]
  congr 2
  omega

/-- With enough bytes behind the pointer the frame is built without a fault. -/
theorem writeFrame_eq (id : Int32) (msg : Option Bytes) (dlc flag : UInt32)
    (hbuf : ∀ buf, msg = some buf → flag &&& canMsgRtr = 0 →
      userBytes dlc flag ≤ buf.length) :
    writeFrame id msg dlc flag = .ok (builtFrame id msg dlc flag) := by
  have hhead := unfilled_head id dlc flag
  have hbytes := (unfilled_isWireLen id dlc flag).bounds.1
  have hempty : supplied msg dlc flag = [] →
      { unfilled id dlc flag with data := padded (supplied msg dlc flag) } =
        unfilled id dlc flag := by
    intro h
    rw [h, show padded [] = (unfilled id dlc flag).data from hhead.no_data.symm]
  rw [writeFrame_unfilled, builtFrame, padded_received msg dlc flag hbytes hhead.len_le_max]
  by_cases hrtr : flag &&& canMsgRtr = 0
  · rw [if_neg (not_not.mpr hrtr)]
    cases msg with
    | none => rw [hempty (by simp [supplied])]
    | some buf =>
      have hlen := hbuf buf rfl hrtr
      have hsupplied : supplied (some buf) dlc flag = buf.take (userBytes dlc flag) := rfl
      by_cases hpos : userBytes dlc flag > 0
      · have hwrite := overwriteBlock_zeroPayload (buf.take (userBytes dlc flag))
          (by rw [List.length_take]; have := hhead.len_le_max; omega)
        simp only [hpos, hrtr, and_self, ↓reduceIte, slice_zero buf _ hlen, ok_bind, hwrite,
          pure_eq_ok, hsupplied]
      · have hzero : userBytes dlc flag = 0 := by omega
        rw [hempty (by rw [hsupplied, hzero, List.take_zero])]
        simp [hpos]
  · rw [if_pos hrtr]
    cases msg with
    | none => rfl
    | some buf => simp [hrtr]

theorem builtFrame_isRtr (id : Int32) (msg : Option Bytes) (dlc flag : UInt32) :
    (builtFrame id msg dlc flag).isRtr = true ↔ flag &&& canMsgRtr ≠ 0 := by
  rw [← unfilled_isRtr id dlc flag]
  unfold builtFrame
  dsimp only
  split <;> rfl

theorem builtFrame_canonical (id : Int32) (msg : Option Bytes) (dlc flag : UInt32) :
    Canonical (builtFrame id msg dlc flag) ∧
      (flag &&& canMsgRtr = 0 → wirePayload (builtFrame id msg dlc flag) =
        received msg dlc flag (unfilled id dlc flag).len.toNat) := by
  have hhead := unfilled_head id dlc flag
  have hbytes := (unfilled_isWireLen id dlc flag).bounds.1
  unfold builtFrame
  dsimp only
  split
  · rename_i hrtr
    exact ⟨hhead.canonical, fun h => absurd h hrtr⟩
  · rename_i hrtr
    have hdata : (unfilled id dlc flag).isRtr = false := by
      rw [← Bool.not_eq_true, unfilled_isRtr]
      exact hrtr
    obtain ⟨hcan, hpay⟩ := hhead.fill _ hdata (received_length msg hbytes)
    exact ⟨hcan, fun _ => hpay⟩

/-- Whatever `canWrite` is called with, a frame that is built at all is canonical. -/
theorem writeFrame_canonical {id : Int32} {msg : Option Bytes} {dlc flag : UInt32} {f : Frame}
    (h : writeFrame id msg dlc flag = .ok f) : Canonical f := by
  have hbuf : ∀ buf, msg = some buf → flag &&& canMsgRtr = 0 →
      userBytes dlc flag ≤ buf.length := by
    intro buf hmsg hrtr
    by_contra hshort
    have hpos : userBytes dlc flag > 0 := by omega
    rw [writeFrame_unfilled, hmsg] at h
    simp only [hpos, hrtr, and_self, ↓reduceIte, slice, Nat.zero_le, true_and, hshort] at h
    cases h
  rw [writeFrame_eq id msg dlc flag hbuf] at h
  rw [← Except.ok.inj h]
  exact (builtFrame_canonical id msg dlc flag).1

/-! ### What the reader sees -/

theorem builtFrame_canId (id : Int32) (msg : Option Bytes) (dlc flag : UInt32) :
    (builtFrame id msg dlc flag).canId = kvaserToCanid id flag := by
  rw [← unfilled_canId id dlc flag]
  unfold builtFrame
  dsimp only
  split <;> rfl

theorem builtFrame_len (id : Int32) (msg : Option Bytes) (dlc flag : UInt32) :
    (builtFrame id msg dlc flag).len = (unfilled id dlc flag).len := by
  unfold builtFrame
  dsimp only
  split <;> rfl

theorem builtFrame_fd (id : Int32) (msg : Option Bytes) (dlc flag : UInt32) :
    (builtFrame id msg dlc flag).fd = decide (flag &&& canMsgFdf ≠ 0) ∧
      (flag &&& canMsgFdf ≠ 0 →
        (builtFrame id msg dlc flag).fdFlags = kvaserToFdFlags flag) := by
  have hkeep : (builtFrame id msg dlc flag).fd = (unfilled id dlc flag).fd ∧
      (builtFrame id msg dlc flag).fdFlags = (unfilled id dlc flag).fdFlags := by
    unfold builtFrame
    dsimp only
    split <;> exact ⟨rfl, rfl⟩
  rw [hkeep.1, hkeep.2]
  unfold unfilled
  by_cases hfd : flag &&& canMsgFdf ≠ 0
  · rw [if_pos hfd, decide_eq_true hfd]
    exact ⟨rfl, fun _ => rfl⟩
  · rw [if_neg hfd, decide_eq_false hfd]
    exact ⟨rfl, fun h => absurd h hfd⟩

theorem reportedId_eq (id : Int32) (flag : UInt32) :
    (canidToKvaser (kvaserToCanid id flag) false).1 = reportedId id flag := by
  have heff := kvaserToCanid_eff id flag
  unfold canidToKvaser reportedId
  by_cases hext : flag &&& canMsgExt ≠ 0
  · rw [if_pos (heff.mpr hext), if_pos hext]
    exact kvaserToCanid_ext_id id hext
  · rw [if_neg (mt heff.mp hext), if_neg hext]
    exact kvaserToCanid_std_id id hext

theorem reportedFlags_eq (id : Int32) (msg : Option Bytes) (dlc flag : UInt32) :
    deliveredFlag (builtFrame id msg dlc flag) true = reportedFlags flag := by
  have heff := kvaserToCanid_eff id flag
  have hrtr := kvaserToCanid_rtr id flag
  obtain ⟨hfd, hfdFlags⟩ := builtFrame_fd id msg dlc flag
  unfold deliveredFlag
  rw [hfd, builtFrame_canId, Bool.and_true]
  by_cases hfdf : flag &&& canMsgFdf ≠ 0
  · rw [hfdFlags hfdf]
    unfold reportedFlags canidToKvaser fdFlagsToKvaser kvaserToFdFlags
    simp only [heff, hrtr, hfdf, decide_true, ↓reduceIte, not_false_eq_true, ne_eq, true_and]
    by_cases hext : flag &&& canMsgExt = 0 <;> by_cases hremote : flag &&& canMsgRtr = 0 <;>
      by_cases hbrs : flag &&& canMsgBrs = 0 <;> by_cases hesi : flag &&& canMsgEsi = 0 <;>
      simp only [hext, hremote, hbrs, hesi, not_true_eq_false, not_false_eq_true,
        ↓reduceIte] <;>
      rfl
  · unfold reportedFlags canidToKvaser
    simp only [heff, hrtr, hfdf, decide_false, Bool.false_eq_true, ↓reduceIte, false_and]
    by_cases hext : flag &&& canMsgExt = 0 <;> by_cases hremote : flag &&& canMsgRtr = 0 <;>
      simp only [hext, hremote, ne_eq, not_true_eq_false, not_false_eq_true, ↓reduceIte] <;>
      rfl

/-- A canonical frame crosses either transport unchanged. -/
theorem transports_deliver {f : Frame} (hf : Canonical f) (seqNo : UInt8) :
    (∃ datagram, buildUdp f seqNo = .ok datagram ∧ parseUdp datagram = .ok (some [f])) ∧
      decodeTcp (wireImage f) = ⟨[f], .waiting, []⟩ := by
  have hencode : buildUdp f seqNo = .ok ([2, 0, seqNo] ++ toBe16 1 ++ wireImage f) :=
    encodeFrame_eq _ f hf.len_le_max
  have hgrammar : IsDatagram ([2, 0, seqNo] ++ toBe16 1 ++ wireImage f) [f] := by
    refine ⟨seqNo, 1, wireImage f, [], rfl, ?_, by simp, by simpa using hf⟩
    simp [encodeFrames, encodeFrame_eq [] f hf.len_le_max]
  refine ⟨⟨_, hencode, ?_⟩, ?_⟩
  · rcases parseUdp_spec ([2, 0, seqNo] ++ toBe16 1 ++ wireImage f) with
      ⟨fs, hfs, hparse⟩ | ⟨hnone, -⟩
    · rw [hparse, hfs.unique hgrammar]
    · exact absurd hgrammar (hnone [f])
  · have hrun := decodeTcp_images (show ∀ g ∈ [f], Canonical g by simpa using hf) []
    have hempty : decodeTcp [] = ⟨[], .waiting, []⟩ :=
      tcpRxLoop_waiting primed [] (by decide) (by decide) (by decide)
    simpa [hempty] using hrun

/-- Whatever `canWrite` is called with, both transports yield the one frame it built,
and a reader of an FD channel gets identifier, flags, length and padded payload. -/
theorem canWrite_canRead (id : Int32) (msg : Option Bytes) (dlc flag : UInt32) (seqNo : UInt8)
    (hbuf : ∀ buf, msg = some buf → flag &&& canMsgRtr = 0 →
      userBytes dlc flag ≤ buf.length) :
    ∃ f image datagram len,
      writeFrame id msg dlc flag = .ok f ∧
      encodeFrame [] f = .ok image ∧
      buildUdp f seqNo = .ok datagram ∧
      parseUdp datagram = .ok (some [f]) ∧
      decodeTcp image = ⟨[f], .waiting, []⟩ ∧
      IsWireLen dlc flag len ∧
      ∀ out : ReadArgs, (∀ dst, out.msg = some dst → len ≤ dst.length) →
        writeReadOutputs f out true = .ok {
          id := out.id.map fun _ => reportedId id flag
          msg := out.msg.map fun dst =>
            if flag &&& canMsgRtr ≠ 0 then dst
            else received msg dlc flag len ++ dst.drop len
          dlc := out.dlc.map fun _ => UInt32.ofNat len
          flag := out.flag.map fun _ => reportedFlags flag
          time := out.time.map fun _ => 0 } := by
  obtain ⟨hcan, hpay⟩ := builtFrame_canonical id msg dlc flag
  obtain ⟨⟨datagram, hbuild, hparse⟩, hstream⟩ := transports_deliver hcan seqNo
  have hlen : (builtFrame id msg dlc flag).len = (unfilled id dlc flag).len :=
    builtFrame_len id msg dlc flag
  have hmax := hcan.len_le_max
  have hdelivered : deliveredLen (builtFrame id msg dlc flag) true =
      (unfilled id dlc flag).len.toNat := by
    rw [← hlen]
    exact min_eq_left hmax
  refine ⟨_, _, datagram, _, writeFrame_eq id msg dlc flag hbuf,
    encodeFrame_eq [] _ hmax, hbuild, hparse, hstream, unfilled_isWireLen id dlc flag, ?_⟩
  intro out hroom
  rw [writeReadOutputs_eq _ out true hmax (fun dst hdst _ => hdelivered ▸ hroom dst hdst)]
  have hmsg : (fun dst => if (builtFrame id msg dlc flag).isRtr then dst else
      (builtFrame id msg dlc flag).data.toList.take
        (deliveredLen (builtFrame id msg dlc flag) true) ++
        dst.drop (deliveredLen (builtFrame id msg dlc flag) true)) =
      fun dst => if flag &&& canMsgRtr ≠ 0 then dst else
        received msg dlc flag (unfilled id dlc flag).len.toNat ++
          dst.drop (unfilled id dlc flag).len.toNat := by
    funext dst
    by_cases hrtr : flag &&& canMsgRtr = 0
    · have hdata : ¬ (builtFrame id msg dlc flag).isRtr = true := by
        rw [builtFrame_isRtr]
        exact not_not.mpr hrtr
      have hwire := hpay hrtr
      rw [wirePayload, if_neg hdata, hlen] at hwire
      rw [if_neg hdata, if_neg (not_not.mpr hrtr), hdelivered, hwire]
    · rw [if_pos ((builtFrame_isRtr id msg dlc flag).mpr hrtr), if_pos hrtr]
  rw [hmsg]
  simp only [withHead, builtFrame_canId, reportedId_eq, reportedFlags_eq, hdelivered,
    hcan.unstamped]
  rfl

/-- A standard data frame of three bytes, read into a buffer of eight. -/
theorem canWrite_canRead_data :
    ∃ f image datagram len,
      writeFrame 0x123 (some [1, 2, 3]) 3 canMsgStd = .ok f ∧
      encodeFrame [] f = .ok image ∧
      buildUdp f 7 = .ok datagram ∧
      parseUdp datagram = .ok (some [f]) ∧
      decodeTcp image = ⟨[f], .waiting, []⟩ ∧
      IsWireLen 3 canMsgStd len ∧
      ∀ out : ReadArgs, (∀ dst, out.msg = some dst → len ≤ dst.length) →
        writeReadOutputs f out true = .ok {
          id := out.id.map fun _ => reportedId 0x123 canMsgStd
          msg := out.msg.map fun dst =>
            if canMsgStd &&& canMsgRtr ≠ 0 then dst
            else received (some [1, 2, 3]) 3 canMsgStd len ++ dst.drop len
          dlc := out.dlc.map fun _ => UInt32.ofNat len
          flag := out.flag.map fun _ => reportedFlags canMsgStd
          time := out.time.map fun _ => 0 } :=
  canWrite_canRead 0x123 (some [1, 2, 3]) 3 canMsgStd 7 (by
    rintro buf ⟨⟩ -
    decide)

end Kvasilloni.EndToEnd
