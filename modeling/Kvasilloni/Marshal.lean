import Kvasilloni.Frames

/-!
The marshalling of frames at the C boundary: the frame that `canWrite` builds from
its arguments, and the out-parameters that `canRead` and `canReadWait` fill in.
A pointer argument is an option, and a buffer is the bytes the caller owns there,
so an access past them is a fault. The C long of the ABI has 32 bits.
-/
namespace Kvasilloni.Marshal

open CheckedMemory Frames

/-- The frame `write_frame` builds before it looks the channel up. -/
def writeFrame (id : Int32) (msg : Option Bytes) (dlc flag : UInt32) : Checked Frame := do
  let f := { Frame.default with canId := kvaserToCanid id flag }
  let (f, userBytes) :=
    if flag &&& canMsgFdf ≠ 0 then
      ({ f with
        fd := true
        fdFlags := kvaserToFdFlags flag
        len := fdRoundLen (min dlc 64).toUInt8 }, (min dlc 64).toNat)
    else
      let f := { f with len := (min dlc 8).toUInt8 }
      (f, f.len.toNat)
  match msg with
  | none => return f
  | some buf =>
    if userBytes > 0 ∧ flag &&& canMsgRtr = 0 then
      let src ← slice buf 0 userBytes
      let data ← overwriteBlock f.data src
      return { f with data := data }
    else return f

/-- The out-parameters of a read: `none` is a null pointer, and otherwise what the
caller's memory holds. -/
structure ReadArgs where
  id : Option Int32
  msg : Option Bytes
  dlc : Option UInt32
  flag : Option UInt32
  time : Option UInt32
  deriving DecidableEq

/-- Marshal a received frame into the out-parameters. -/
def writeReadOutputs (f : Frame) (out : ReadArgs) (fdCapable : Bool) : Checked ReadArgs :=
  let reportFd := f.fd && fdCapable
  let (oid, oflag) := canidToKvaser f.canId reportFd
  let oflag := if reportFd then oflag ||| fdFlagsToKvaser f.fdFlags else oflag
  let maxLen := if fdCapable then maxFrameLen else classicFrameMaxLen
  let n := min f.len.toNat maxLen
  let out := { out with
    id := out.id.map fun _ => oid
    flag := out.flag.map fun _ => oflag
    dlc := out.dlc.map fun _ => UInt32.ofNat n
    time := out.time.map fun _ => f.rxTimeMs.toUInt32 }
  match out.msg with
  | none => return out
  | some dst =>
    if n > 0 ∧ f.isRtr = false then do
      let src ← slice f.data.toList 0 n
      let dst ← overwrite dst src
      return { out with msg := some dst }
    else return out

/-- The number of payload bytes reported for a frame. -/
def deliveredLen (f : Frame) (fdCapable : Bool) : ℕ :=
  min f.len.toNat (if fdCapable then maxFrameLen else classicFrameMaxLen)

/-- The message flags reported for a frame. -/
def deliveredFlag (f : Frame) (fdCapable : Bool) : UInt32 :=
  if f.fd && fdCapable then (canidToKvaser f.canId true).2 ||| fdFlagsToKvaser f.fdFlags
  else (canidToKvaser f.canId false).2

/-- The out-parameters with everything but the payload filled in. -/
def withHead (out : ReadArgs) (f : Frame) (fdCapable : Bool) : ReadArgs :=
  { out with
    id := out.id.map fun _ => (canidToKvaser f.canId false).1
    flag := out.flag.map fun _ => deliveredFlag f fdCapable
    dlc := out.dlc.map fun _ => UInt32.ofNat (deliveredLen f fdCapable)
    time := out.time.map fun _ => f.rxTimeMs.toUInt32 }

theorem writeReadOutputs_withHead (f : Frame) (out : ReadArgs) (fdCapable : Bool) :
    writeReadOutputs f out fdCapable =
      match out.msg with
      | none => .ok (withHead out f fdCapable)
      | some dst =>
        if deliveredLen f fdCapable > 0 ∧ f.isRtr = false then do
          let src ← slice f.data.toList 0 (deliveredLen f fdCapable)
          let dst ← overwrite dst src
          return { withHead out f fdCapable with msg := some dst }
        else .ok (withHead out f fdCapable) := by
  unfold writeReadOutputs withHead deliveredFlag
  cases f.fd && fdCapable <;> rfl

theorem deliveredBytes_length {f : Frame} (hlen : f.len.toNat ≤ 64) (fdCapable : Bool) :
    deliveredLen f fdCapable ≤ f.data.toList.length ∧
      (f.data.toList.take (deliveredLen f fdCapable)).length = deliveredLen f fdCapable := by
  have hle : deliveredLen f fdCapable ≤ f.data.toList.length := by
    rw [List.Vector.toList_length]
    exact (min_le_left _ _).trans hlen
  refine ⟨hle, ?_⟩
  rw [List.length_take]
  omega

/-- A read into a buffer that holds the reported bytes succeeds, and it changes
nothing behind them. -/
theorem writeReadOutputs_eq (f : Frame) (out : ReadArgs) (fdCapable : Bool)
    (hlen : f.len.toNat ≤ 64)
    (hdst : ∀ dst, out.msg = some dst → f.isRtr = false →
      deliveredLen f fdCapable ≤ dst.length) :
    writeReadOutputs f out fdCapable = .ok { withHead out f fdCapable with
      msg := out.msg.map fun dst => if f.isRtr then dst else
        f.data.toList.take (deliveredLen f fdCapable) ++
          dst.drop (deliveredLen f fdCapable) } := by
  obtain ⟨hle, hsrc⟩ := deliveredBytes_length hlen fdCapable
  have hkeep : ∀ msg, out.msg = msg →
      withHead out f fdCapable = { withHead out f fdCapable with msg := msg } := by
    intro msg hmsg
    rw [← hmsg]
    rfl
  rw [writeReadOutputs_withHead]
  cases hmsg : out.msg with
  | none => exact congrArg Except.ok (hkeep none hmsg)
  | some dst =>
    dsimp only
    cases hrtr : f.isRtr with
    | true =>
      rw [if_neg (by simp)]
      exact congrArg Except.ok (hkeep (some dst) hmsg)
    | false =>
      have hroom := hdst dst hmsg hrtr
      by_cases hpos : deliveredLen f fdCapable > 0
      · rw [if_pos ⟨hpos, rfl⟩, slice_zero _ _ hle, ok_bind, overwrite_ok _ _ (by omega), hsrc]
        rfl
      · rw [if_neg (fun h => hpos h.1), show deliveredLen f fdCapable = 0 by omega]
        exact congrArg Except.ok (hkeep (some dst) hmsg)

/-- A read succeeds only if the buffer holds the reported bytes. -/
theorem writeReadOutputs_room {f : Frame} {out out' : ReadArgs} {fdCapable : Bool}
    (hlen : f.len.toNat ≤ 64) (h : writeReadOutputs f out fdCapable = .ok out')
    (dst : Bytes) (hmsg : out.msg = some dst) (hrtr : f.isRtr = false) :
    deliveredLen f fdCapable ≤ dst.length := by
  by_contra hshort
  obtain ⟨hle, hsrc⟩ := deliveredBytes_length hlen fdCapable
  rw [writeReadOutputs_withHead, hmsg] at h
  dsimp only at h
  rw [if_pos ⟨by omega, hrtr⟩, slice_zero _ _ hle, ok_bind, overwrite,
    if_neg (by omega)] at h
  cases h

theorem deliveredFlag_classic (f : Frame) :
    deliveredFlag f false &&& (canMsgFdf ||| canMsgBrs ||| canMsgEsi) = 0 := by
  unfold deliveredFlag
  rw [Bool.and_false]
  unfold canidToKvaser
  by_cases hext : f.canId &&& canEffFlag = 0 <;> by_cases hrtr : f.canId &&& canRtrFlag = 0 <;>
    simp only [hext, hrtr, Bool.false_eq_true, ne_eq, not_true_eq_false, not_false_eq_true,
      ↓reduceIte] <;>
    rfl

theorem deliveredFlag_fd (f : Frame) (hfd : f.fd = true) :
    deliveredFlag f true &&& canMsgFdf ≠ 0 := by
  unfold deliveredFlag
  rw [hfd]
  unfold canidToKvaser fdFlagsToKvaser
  by_cases hext : f.canId &&& canEffFlag = 0 <;> by_cases hrtr : f.canId &&& canRtrFlag = 0 <;>
    by_cases hbrs : f.fdFlags &&& canfdBrs = 0 <;>
    by_cases hesi : f.fdFlags &&& canfdEsi = 0 <;>
    simp only [hext, hrtr, hbrs, hesi, Bool.and_self, ne_eq, not_true_eq_false,
      not_false_eq_true, ↓reduceIte] <;>
    decide

/-! ### Identifier and flag bits -/

theorem or_and (a b c : UInt32) : (a ||| b) &&& c = (a &&& c) ||| (b &&& c) :=
  UInt32.toBitVec_inj.1 BitVec.and_or_distrib_right

theorem kvaserToCanid_rtr (id : Int32) (flag : UInt32) :
    kvaserToCanid id flag &&& canRtrFlag ≠ 0 ↔ flag &&& canMsgRtr ≠ 0 := by
  have heff : canEffMask &&& canRtrFlag = 0 := rfl
  have hsff : canSffMask &&& canRtrFlag = 0 := rfl
  have hflag : canEffFlag &&& canRtrFlag = 0 := rfl
  have hself : canRtrFlag &&& canRtrFlag = canRtrFlag := rfl
  have hne : canRtrFlag ≠ 0 := by decide
  unfold kvaserToCanid
  by_cases hext : flag &&& canMsgExt ≠ 0 <;> by_cases hrtr : flag &&& canMsgRtr ≠ 0 <;>
    simp [hext, hrtr, or_and, UInt32.and_assoc, heff, hsff, hflag, hself, hne]

theorem kvaserToCanid_eff (id : Int32) (flag : UInt32) :
    kvaserToCanid id flag &&& canEffFlag ≠ 0 ↔ flag &&& canMsgExt ≠ 0 := by
  have heff : canEffMask &&& canEffFlag = 0 := rfl
  have hsff : canSffMask &&& canEffFlag = 0 := rfl
  have hself : canEffFlag &&& canEffFlag = canEffFlag := rfl
  have hrtrEff : canRtrFlag &&& canEffFlag = 0 := rfl
  have hne : canEffFlag ≠ 0 := by decide
  unfold kvaserToCanid
  by_cases hext : flag &&& canMsgExt ≠ 0 <;> by_cases hrtr : flag &&& canMsgRtr ≠ 0 <;>
    simp [hext, hrtr, or_and, UInt32.and_assoc, heff, hsff, hself, hrtrEff, hne]

theorem kvaserToCanid_ext_id (id : Int32) {flag : UInt32} (hext : flag &&& canMsgExt ≠ 0) :
    (kvaserToCanid id flag &&& canEffMask).toInt32 = id &&& 0x1FFFFFFF := by
  have hself : canEffMask &&& canEffMask = canEffMask := rfl
  have hflag : canEffFlag &&& canEffMask = 0 := rfl
  have hrtrEff : canRtrFlag &&& canEffMask = 0 := rfl
  have hid : (id.toUInt32 &&& canEffMask).toInt32 = id &&& 0x1FFFFFFF := rfl
  unfold kvaserToCanid
  by_cases hrtr : flag &&& canMsgRtr ≠ 0
  · rw [if_pos hext, if_pos hrtr, or_and, or_and, UInt32.and_assoc, hself, hflag, hrtrEff,
      UInt32.or_zero, UInt32.or_zero, hid]
  · rw [if_pos hext, if_neg hrtr, or_and, UInt32.and_assoc, hself, hflag, UInt32.or_zero, hid]

theorem kvaserToCanid_std_id (id : Int32) {flag : UInt32} (hext : ¬ flag &&& canMsgExt ≠ 0) :
    (kvaserToCanid id flag &&& canSffMask).toInt32 = id &&& 0x7FF := by
  have hself : canSffMask &&& canSffMask = canSffMask := rfl
  have hrtrSff : canRtrFlag &&& canSffMask = 0 := rfl
  have hid : (id.toUInt32 &&& canSffMask).toInt32 = id &&& 0x7FF := rfl
  unfold kvaserToCanid
  by_cases hrtr : flag &&& canMsgRtr ≠ 0
  · rw [if_neg hext, if_pos hrtr, or_and, UInt32.and_assoc, hself, hrtrSff, UInt32.or_zero, hid]
  · rw [if_neg hext, if_neg hrtr, UInt32.and_assoc, hself, hid]

end Kvasilloni.Marshal
