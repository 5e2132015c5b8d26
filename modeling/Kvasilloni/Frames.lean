import Kvasilloni.Library.CheckedMemory
import Mathlib.Data.UInt

/-!
Cannelloni frames in SocketCAN terms, and the translation of identifiers and
flags between Kvaser and SocketCAN. The machine integers of the source are
Lean's fixed-width ones, and the payload array has its 64 bytes in its type.
-/
namespace Kvasilloni.Frames

open CheckedMemory

abbrev Bytes := List UInt8

/-- The `[u8; 64]` of a frame. -/
abbrev Payload := List.Vector UInt8 64

def frameVersion : UInt8 := 2
def opData : UInt8 := 0
def dataPacketBaseSize : ℕ := 5
def frameBaseSize : ℕ := 5
def canfdFrame : UInt8 := 0x80

/-- `CONNECT_V1`, the bytes of "CANNELLONIv1". -/
def connectV1 : Bytes :=
  [0x43, 0x41, 0x4E, 0x4E, 0x45, 0x4C, 0x4C, 0x4F, 0x4E, 0x49, 0x76, 0x31]

def maxFrameLen : ℕ := 64
def classicFrameMaxLen : ℕ := 8

def canEffFlag : UInt32 := 0x80000000
def canRtrFlag : UInt32 := 0x40000000
def canEffMask : UInt32 := 0x1FFFFFFF
def canSffMask : UInt32 := 0x000007FF

def canMsgRtr : UInt32 := 0x0001
def canMsgStd : UInt32 := 0x0002
def canMsgExt : UInt32 := 0x0004
def canMsgFdf : UInt32 := 0x00010000
def canMsgBrs : UInt32 := 0x00020000
def canMsgEsi : UInt32 := 0x00040000

def canfdBrs : UInt8 := 0x01
def canfdEsi : UInt8 := 0x02

/-- Round a byte count up to a valid CAN FD data length. -/
def fdRoundLen (n : UInt8) : UInt8 :=
  if n ≤ 8 then n
  else if n ≤ 12 then 12
  else if n ≤ 16 then 16
  else if n ≤ 20 then 20
  else if n ≤ 24 then 24
  else if n ≤ 32 then 32
  else if n ≤ 48 then 48
  else 64

def kvaserToFdFlags (kvaserFlag : UInt32) : UInt8 :=
  let f : UInt8 := 0
  let f := if kvaserFlag &&& canMsgBrs ≠ 0 then f ||| canfdBrs else f
  if kvaserFlag &&& canMsgEsi ≠ 0 then f ||| canfdEsi else f

def fdFlagsToKvaser (fdFlags : UInt8) : UInt32 :=
  let f : UInt32 := 0
  let f := if fdFlags &&& canfdBrs ≠ 0 then f ||| canMsgBrs else f
  if fdFlags &&& canfdEsi ≠ 0 then f ||| canMsgEsi else f

structure Frame where
  canId : UInt32
  len : UInt8
  fd : Bool
  fdFlags : UInt8
  data : Payload
  rxTimeMs : UInt64
  deriving DecidableEq

def zeroPayload : Payload := List.Vector.replicate 64 0

/-- `Frame::default()`. -/
def Frame.default : Frame :=
  { canId := 0, len := 0, fd := false, fdFlags := 0, data := zeroPayload, rxTimeMs := 0 }

def Frame.isRtr (f : Frame) : Bool := f.canId &&& canRtrFlag != 0

/-- Build a SocketCAN id from a Kvaser id and its message flags. -/
def kvaserToCanid (id : Int32) (kvaserFlag : UInt32) : UInt32 :=
  let canId :=
    if kvaserFlag &&& canMsgExt ≠ 0 then (id.toUInt32 &&& canEffMask) ||| canEffFlag
    else id.toUInt32 &&& canSffMask
  if kvaserFlag &&& canMsgRtr ≠ 0 then canId ||| canRtrFlag else canId

/-- Split a SocketCAN id into a Kvaser id and its message flags. -/
def canidToKvaser (canId : UInt32) (fd : Bool) : Int32 × UInt32 :=
  let (id, flag) :=
    if canId &&& canEffFlag ≠ 0 then ((canId &&& canEffMask).toInt32, canMsgExt)
    else ((canId &&& canSffMask).toInt32, canMsgStd)
  let flag := if canId &&& canRtrFlag ≠ 0 then flag ||| canMsgRtr else flag
  let flag := if fd then flag ||| canMsgFdf else flag
  (id, flag)

/-- `u32::to_be_bytes`. -/
def toBe32 (x : UInt32) : Bytes :=
  [(x >>> 24).toUInt8, (x >>> 16).toUInt8, (x >>> 8).toUInt8, x.toUInt8]

/-- `u32::from_be_bytes`. -/
def fromBe32 (a b c d : UInt8) : UInt32 :=
  a.toUInt32 * 0x1000000 + b.toUInt32 * 0x10000 + c.toUInt32 * 0x100 + d.toUInt32

/-- `u16::to_be_bytes`. -/
def toBe16 (x : UInt16) : Bytes := [(x >>> 8).toUInt8, x.toUInt8]

/-- `u16::from_be_bytes`. -/
def fromBe16 (a b : UInt8) : UInt16 := a.toUInt16 * 0x100 + b.toUInt16

/-- A property of bytes can be checked value by value. -/
theorem forall_byte {p : UInt8 → Prop} (h : ∀ n : Fin 256, p (UInt8.ofFin n)) (x : UInt8) :
    p x := h x.toFin

theorem fromBe32_toNat (a b c d : UInt8) :
    (fromBe32 a b c d).toNat =
      a.toNat * 0x1000000 + b.toNat * 0x10000 + c.toNat * 0x100 + d.toNat := by
  have ha := a.toNat_lt
  have hb := b.toNat_lt
  have hc := c.toNat_lt
  have hd := d.toNat_lt
  simp only [fromBe32, UInt32.toNat_add, UInt32.toNat_mul, UInt8.toNat_toUInt32,
    UInt32.reduceToNat]
  omega

theorem toBe32_fromBe32 (a b c d : UInt8) : toBe32 (fromBe32 a b c d) = [a, b, c, d] := by
  have ha := a.toNat_lt
  have hb := b.toNat_lt
  have hc := c.toNat_lt
  have hd := d.toNat_lt
  have h := fromBe32_toNat a b c d
  simp only [toBe32, List.cons.injEq, ← UInt8.toNat_inj, UInt32.toNat_toUInt8,
    UInt32.toNat_shiftRight, UInt32.reduceToNat, Nat.shiftRight_eq_div_pow, Nat.reduceMod,
    Nat.reducePow, h, and_true]
  omega

theorem exists_toBe32 (x : UInt32) :
    ∃ a b c d, toBe32 x = [a, b, c, d] ∧ fromBe32 a b c d = x := by
  refine ⟨_, _, _, _, rfl, ?_⟩
  have hx := x.toNat_lt
  simp only [← UInt32.toNat_inj, fromBe32_toNat, UInt32.toNat_toUInt8,
    UInt32.toNat_shiftRight, UInt32.reduceToNat, Nat.shiftRight_eq_div_pow, Nat.reduceMod,
    Nat.reducePow]
  omega

theorem fromBe16_toNat (a b : UInt8) :
    (fromBe16 a b).toNat = a.toNat * 0x100 + b.toNat := by
  have ha := a.toNat_lt
  have hb := b.toNat_lt
  simp only [fromBe16, UInt16.toNat_add, UInt16.toNat_mul, UInt8.toNat_toUInt16,
    UInt16.reduceToNat]
  omega

theorem toBe16_fromBe16 (a b : UInt8) : toBe16 (fromBe16 a b) = [a, b] := by
  have ha := a.toNat_lt
  have hb := b.toNat_lt
  have h := fromBe16_toNat a b
  simp only [toBe16, List.cons.injEq, ← UInt8.toNat_inj, UInt16.toNat_toUInt8,
    UInt16.toNat_shiftRight, UInt16.reduceToNat, Nat.shiftRight_eq_div_pow, Nat.reduceMod,
    Nat.reducePow, h, and_true]
  omega

theorem exists_toBe16 (x : UInt16) : ∃ a b, toBe16 x = [a, b] ∧ fromBe16 a b = x := by
  refine ⟨_, _, rfl, ?_⟩
  have hx := x.toNat_lt
  simp only [← UInt16.toNat_inj, fromBe16_toNat, UInt16.toNat_toUInt8,
    UInt16.toNat_shiftRight, UInt16.reduceToNat, Nat.shiftRight_eq_div_pow, Nat.reduceMod,
    Nat.reducePow]
  omega

end Kvasilloni.Frames
