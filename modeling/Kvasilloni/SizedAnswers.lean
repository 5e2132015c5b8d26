import Kvasilloni.HandleTable
import Kvasilloni.SharedRing

/-!
The exports that answer into a buffer whose size the caller gives: `canGetChannelData`,
`canIoCtl`, `canGetErrorText` and `canGetBusStatistics`. Whatever is asked for, nothing is
written behind the given size, and a refused call writes nothing at all; a text that is too
long is cut, so what has been written always reads back as a string.
-/
namespace Kvasilloni.SizedAnswers

open CheckedMemory Frames SharedRing HandleTable

def canOk : Int32 := 0
def canErrParam : Int32 := -1
def canErrNoMsg : Int32 := -2
def canErrNotFound : Int32 := -3
def canErrNotImplemented : Int32 := -32

def canChannelCapExtendedCan : UInt32 := 0x00000001
def canChannelCapVirtual : UInt32 := 0x00010000
def canChannelCapCanFd : UInt32 := 0x00080000

/-- The memory that a pointer of the caller points to; `none` is the null pointer. -/
abbrev Buffer := Option Bytes

/-- The result of a call, and what became of the caller's memory. -/
abbrev Answer := Checked (Int32 × Buffer)

/-- Write one byte at a position. -/
def store (mem : Bytes) (i : ℕ) (b : UInt8) : Checked Bytes :=
  if i < mem.length then .ok (mem.set i b) else .error .overwrite

/-- The last bytes of a number, the lowest one first. -/
def leBytes : ℕ → ℕ → Bytes
  | 0, _ => []
  | n + 1, v => UInt8.ofNat v :: leBytes n (v / 256)

def outU32 (buf : Buffer) (bufsize : ℕ) (val : UInt32) : Answer :=
  match buf with
  | none => .ok (canErrParam, none)
  | some mem =>
    if bufsize < 4 then .ok (canErrParam, some mem)
    else do
      let mem ← overwrite mem (leBytes 4 val.toNat)
      return (canOk, some mem)

def outU64 (buf : Buffer) (bufsize : ℕ) (val : UInt64) : Answer :=
  match buf with
  | none => .ok (canErrParam, none)
  | some mem =>
    if bufsize < 8 then .ok (canErrParam, some mem)
    else do
      let mem ← overwrite mem (leBytes 8 val.toNat)
      return (canOk, some mem)

/-- Copy `n` bytes of a text and end it. -/
def copyCut (mem text : Bytes) (n : ℕ) : Checked Bytes := do
  let mem ← overwrite mem (text.take n)
  store mem n 0

def outCstr (buf : Buffer) (bufsize : ℕ) (s : Bytes) : Answer :=
  match buf with
  | none => .ok (canErrParam, none)
  | some mem =>
    if bufsize = 0 then .ok (canErrParam, some mem)
    else do
      let mem ← copyCut mem s (min s.length (bufsize - 1))
      return (canOk, some mem)

/-! ### The exports -/

/-- The bytes of an ASCII text. -/
def ascii (t : List Char) : Bytes := t.map fun c => UInt8.ofNat c.toNat

def decimal (i : ℤ) : List Char :=
  if i < 0 then '-' :: Nat.toDigits 10 i.natAbs else Nat.toDigits 10 i.natAbs

def channelName (channel : Int32) : Bytes :=
  ascii ("kvasilloni vcan".toList ++ decimal channel.toInt)

/-- With overflow checks the serial number of channel -1 panics, which the guard turns into an
error; without them it wraps. -/
def canGetChannelData (overflowChecks : Bool) (channel item : Int32) (buffer : Buffer)
    (bufsize : ℕ) : Answer :=
  match item.toInt with
  | 13 => outCstr buffer bufsize (channelName channel)
  | 26 => outCstr buffer bufsize (ascii "kvasilloni virtual CAN".toList)
  | 24 => outCstr buffer bufsize (ascii "kvasilloni".toList)
  | 1 => outU32 buffer bufsize
      (canChannelCapExtendedCan ||| canChannelCapVirtual ||| canChannelCapCanFd)
  | 3 => outU32 buffer bufsize 0
  | 4 => outU32 buffer bufsize 0
  | 5 => outU32 buffer bufsize 0
  | 6 => outU32 buffer bufsize channel.toUInt32
  | 7 =>
    if overflowChecks ∧ channel.toInt64.toUInt64 = 0xFFFFFFFFFFFFFFFF then
      .ok (canErrParam, buffer)
    else outU64 buffer bufsize (channel.toInt64.toUInt64 + 1)
  | _ => .ok (canErrParam, buffer)

/-- The call on the connection of a handle, with what becomes of its ring; `none` is a handle
that is not open. -/
def canIoCtl (conn : Option Shared) (func : UInt32) (buf : Buffer) (buflen : ℕ) :
    Answer × Option Shared :=
  match func.toNat with
  | 10 =>
    match conn with
    | some s => (.ok (canOk, buf), some s.clear)
    | none => (.ok (canErrInvHandle, buf), none)
  | 11 => (.ok (canOk, buf), conn)
  | 6 | 7 | 13 => (.ok (canOk, buf), conn)
  | 12 => (outU32 buf buflen 1000, conn)
  | 8 =>
    match conn with
    | some s => (outU32 buf buflen (UInt32.ofNat s.level), some s)
    | none => (.ok (canErrInvHandle, buf), none)
  | 9 => (outU32 buf buflen 0, conn)
  | _ => (.ok (canErrNotImplemented, buf), conn)

/-- The text of an error, without the NUL behind it. -/
def errorText (err : Int32) : Bytes :=
  if err = canOk then ascii "OK".toList
  else if err = canErrParam then ascii "Error in parameter".toList
  else if err = canErrNoMsg then ascii "No messages available".toList
  else if err = canErrNotFound then ascii "Specified device not found".toList
  else ascii "Unknown error".toList

def canGetErrorText (err : Int32) (buf : Buffer) (bufsiz : ℕ) : Answer :=
  match buf with
  | none => .ok (canOk, none)
  | some mem =>
    if bufsiz > 0 then do
      let mem ← copyCut mem (errorText err) (min (bufsiz - 1) (errorText err).length)
      return (canOk, some mem)
    else .ok (canOk, some mem)

def canGetBusStatistics (stat : Buffer) (bufsiz : ℕ) : Answer :=
  match stat with
  | none => .ok (canOk, none)
  | some mem =>
    if bufsiz > 0 then do
      let mem ← overwrite mem (List.replicate bufsiz 0)
      return (canOk, some mem)
    else .ok (canOk, some mem)

/-! ### What is written -/

/-- The call does not fault, changes nothing behind the given size, and changes nothing at all
when it is refused. -/
def Within (size : ℕ) (mem : Bytes) (r : Answer) : Prop :=
  ∃ code mem', r = .ok (code, some mem') ∧ mem'.length = mem.length ∧
    mem'.drop size = mem.drop size ∧ (code ≠ canOk → mem' = mem)

theorem within_unchanged (size : ℕ) (mem : Bytes) (code : Int32) :
    Within size mem (.ok (code, some mem)) :=
  ⟨code, mem, rfl, rfl, rfl, fun _ => rfl⟩

theorem within_written {size : ℕ} {mem src : Bytes} (hsrc : src.length ≤ size)
    (hsize : size ≤ mem.length) :
    Within size mem (.ok (canOk, some (src ++ mem.drop src.length))) := by
  refine ⟨canOk, _, rfl, ?_, ?_, fun h => absurd rfl h⟩
  · rw [List.length_append, List.length_drop]
    omega
  · have hskip : src.length + (size - src.length) = size := by omega
    rw [List.drop_append, List.drop_eq_nil_of_le hsrc, List.nil_append, List.drop_drop, hskip]

theorem leBytes_length (n v : ℕ) : (leBytes n v).length = n := by
  induction n generalizing v with
  | zero => rfl
  | succ n ih => rw [leBytes, List.length_cons, ih]

theorem outU32_eq {mem : Bytes} {size : ℕ} (hsize : size ≤ mem.length) (val : UInt32) :
    outU32 (some mem) size val =
      if size < 4 then .ok (canErrParam, some mem)
      else .ok (canOk, some (leBytes 4 val.toNat ++ mem.drop (leBytes 4 val.toNat).length)) := by
  unfold outU32
  dsimp only
  split
  · rfl
  · rw [overwrite_ok _ _ (by rw [leBytes_length]; omega)]
    rfl

theorem outU64_eq {mem : Bytes} {size : ℕ} (hsize : size ≤ mem.length) (val : UInt64) :
    outU64 (some mem) size val =
      if size < 8 then .ok (canErrParam, some mem)
      else .ok (canOk, some (leBytes 8 val.toNat ++ mem.drop (leBytes 8 val.toNat).length)) := by
  unfold outU64
  dsimp only
  split
  · rfl
  · rw [overwrite_ok _ _ (by rw [leBytes_length]; omega)]
    rfl

/-- The text that is copied with the byte that ends it. -/
theorem copyCut_eq {mem text : Bytes} {n : ℕ} (hn : n ≤ text.length) (hmem : n < mem.length) :
    copyCut mem text n =
      .ok ((text.take n ++ [0]) ++ mem.drop (text.take n ++ [0]).length) := by
  have htake : (text.take n).length = n := List.length_take_of_le hn
  rw [copyCut, overwrite_ok _ _ (by omega), htake]
  have hlt : n < (text.take n ++ mem.drop n).length := by
    rw [List.length_append, List.length_drop]
    omega
  rw [ok_bind, store, if_pos hlt, List.set_append_right _ _ (by omega), htake, Nat.sub_self]
  have hdrop : mem.drop n = mem[n] :: mem.drop (n + 1) := List.drop_eq_getElem_cons hmem
  rw [hdrop, List.set_cons_zero, List.length_append, htake, List.append_assoc]
  rfl

theorem take_cut_length {text : Bytes} {n : ℕ} (hn : n ≤ text.length) :
    (text.take n ++ [0]).length = n + 1 := by
  rw [List.length_append, List.length_take_of_le hn, List.length_singleton]

theorem outU32_within {mem : Bytes} {size : ℕ} (hsize : size ≤ mem.length) (val : UInt32) :
    Within size mem (outU32 (some mem) size val) := by
  rw [outU32_eq hsize]
  split
  · exact within_unchanged size mem canErrParam
  · exact within_written (by rw [leBytes_length]; omega) hsize

theorem outU64_within {mem : Bytes} {size : ℕ} (hsize : size ≤ mem.length) (val : UInt64) :
    Within size mem (outU64 (some mem) size val) := by
  rw [outU64_eq hsize]
  split
  · exact within_unchanged size mem canErrParam
  · exact within_written (by rw [leBytes_length]; omega) hsize

theorem outCstr_eq {mem : Bytes} {size : ℕ} (hsize : size ≤ mem.length) (hpos : 0 < size)
    (s : Bytes) : outCstr (some mem) size s =
      .ok (canOk, some ((s.take (min s.length (size - 1)) ++ [0]) ++
        mem.drop (s.take (min s.length (size - 1)) ++ [0]).length)) := by
  unfold outCstr
  dsimp only
  rw [if_neg (by omega), copyCut_eq (by omega) (by omega)]
  rfl

theorem outCstr_within {mem : Bytes} {size : ℕ} (hsize : size ≤ mem.length) (s : Bytes) :
    Within size mem (outCstr (some mem) size s) := by
  by_cases hpos : 0 < size
  · rw [outCstr_eq hsize hpos]
    refine within_written ?_ hsize
    rw [take_cut_length (by omega)]
    omega
  · have hzero : size = 0 := by omega
    rw [hzero]
    exact within_unchanged 0 mem canErrParam

theorem canGetErrorText_eq {size : ℕ} (hpos : 0 < size) (mem : Bytes) (err : Int32) :
    canGetErrorText err (some mem) size = outCstr (some mem) size (errorText err) := by
  have hmin : min (size - 1) (errorText err).length = min (errorText err).length (size - 1) :=
    Nat.min_comm _ _
  unfold canGetErrorText outCstr
  dsimp only
  rw [if_pos hpos, if_neg (by omega), hmin]

theorem canGetChannelData_within {mem : Bytes} {size : ℕ} (hsize : size ≤ mem.length)
    (overflowChecks : Bool) (channel item : Int32) :
    Within size mem (canGetChannelData overflowChecks channel item (some mem) size) := by
  unfold canGetChannelData
  split
  · exact outCstr_within hsize _
  · exact outCstr_within hsize _
  · exact outCstr_within hsize _
  · exact outU32_within hsize _
  · exact outU32_within hsize _
  · exact outU32_within hsize _
  · exact outU32_within hsize _
  · exact outU32_within hsize _
  · split
    · exact within_unchanged size mem canErrParam
    · exact outU64_within hsize _
  · exact within_unchanged size mem canErrParam

theorem canIoCtl_within {mem : Bytes} {size : ℕ} (hsize : size ≤ mem.length)
    (conn : Option Shared) (func : UInt32) :
    Within size mem (canIoCtl conn func (some mem) size).1 := by
  unfold canIoCtl
  split
  · cases conn with
    | none => exact within_unchanged size mem _
    | some s => exact within_unchanged size mem _
  · exact within_unchanged size mem _
  · exact within_unchanged size mem _
  · exact within_unchanged size mem _
  · exact within_unchanged size mem _
  · exact outU32_within hsize _
  · cases conn with
    | none => exact within_unchanged size mem _
    | some s => exact outU32_within hsize _
  · exact outU32_within hsize _
  · exact within_unchanged size mem _

/-- Whatever is asked for, and whichever channel it is asked of: the exports that are given a
size never fault in memory of that size, write nothing behind it, and write nothing when they
return an error. -/
theorem answers_within {mem : Bytes} {size : ℕ} (hsize : size ≤ mem.length) :
    (∀ overflowChecks channel item,
      Within size mem (canGetChannelData overflowChecks channel item (some mem) size)) ∧
    (∀ conn func, Within size mem (canIoCtl conn func (some mem) size).1) ∧
    (∀ err, Within size mem (canGetErrorText err (some mem) size)) ∧
    Within size mem (canGetBusStatistics (some mem) size) := by
  refine ⟨canGetChannelData_within hsize, canIoCtl_within hsize, fun err => ?_, ?_⟩
  · by_cases hpos : 0 < size
    · rw [canGetErrorText_eq hpos]
      exact outCstr_within hsize _
    · unfold canGetErrorText
      dsimp only
      rw [if_neg hpos]
      exact within_unchanged size mem canOk
  · unfold canGetBusStatistics
    dsimp only
    split
    · rw [overwrite_ok _ _ (by rw [List.length_replicate]; exact hsize)]
      exact within_written (by rw [List.length_replicate]) hsize
    · exact within_unchanged size mem canOk

theorem answers_within_cutName :
    Within 4 [9, 9, 9, 9, 9] (canGetChannelData true 2 13 (some [9, 9, 9, 9, 9]) 4) ∧
      canGetChannelData true 2 13 (some [9, 9, 9, 9, 9]) 4 =
        .ok (canOk, some [0x6B, 0x76, 0x61, 0, 9]) := by
  have hsize : 4 ≤ ([9, 9, 9, 9, 9] : Bytes).length := by decide
  exact ⟨(answers_within hsize).1 true 2 13, by decide⟩

/-! ### What reads back -/

/-- What the caller reads as a string: up to the first NUL. -/
def cString (mem : Bytes) : Bytes := mem.takeWhile fun b => b != 0

def ofLeBytes (bytes : Bytes) : ℕ := bytes.foldr (fun b n => b.toNat + 256 * n) 0

theorem cString_cut {text : Bytes} (htext : ∀ b ∈ text, b ≠ 0) (n : ℕ) (rest : Bytes) :
    cString ((text.take n ++ [0]) ++ rest) = text.take n := by
  have hkept : ∀ b ∈ text.take n, (b != 0) = true := by
    intro b hb
    exact bne_iff_ne.mpr (htext b (List.mem_of_mem_take hb))
  rw [cString, List.append_assoc, List.takeWhile_append_of_pos hkept, List.singleton_append,
    List.takeWhile_cons_of_neg (by decide), List.append_nil]

theorem ofLeBytes_leBytes (n v : ℕ) : ofLeBytes (leBytes n v) = v % 256 ^ n := by
  induction n generalizing v with
  | zero => rw [Nat.pow_zero, Nat.mod_one]; rfl
  | succ n ih =>
    have hbyte : (UInt8.ofNat v).toNat = v % 256 := rfl
    have hfold : ofLeBytes (leBytes (n + 1) v) = (UInt8.ofNat v).toNat +
        256 * ofLeBytes (leBytes n (v / 256)) := rfl
    rw [hfold, ih, hbyte, Nat.pow_succ, Nat.mul_comm (256 ^ n) 256, Nat.mod_mul]

theorem ascii_ne_zero {t : List Char} (h : ∀ c ∈ t, c.toNat ≠ 0 ∧ c.toNat < 256) :
    ∀ b ∈ ascii t, b ≠ 0 := by
  intro b hb
  obtain ⟨c, hc, rfl⟩ := List.mem_map.mp hb
  obtain ⟨hpos, hlt⟩ := h c hc
  intro hzero
  have hnat : (UInt8.ofNat c.toNat).toNat = c.toNat := UInt8.toNat_ofNat_of_lt hlt
  rw [hzero] at hnat
  exact hpos hnat.symm

theorem decimal_chars (i : ℤ) : ∀ c ∈ decimal i, c.toNat ≠ 0 ∧ c.toNat < 256 := by
  have hdigits : ∀ n, ∀ c ∈ Nat.toDigits 10 n, c.toNat ≠ 0 ∧ c.toNat < 256 := by
    intro n c hc
    have hdigit := Nat.isDigit_of_mem_toDigits (by decide) (by decide) hc
    simp only [Char.isDigit, Bool.and_eq_true, decide_eq_true_eq, ge_iff_le,
      UInt32.le_iff_toNat_le] at hdigit
    have hlow : '0'.val.toNat = 48 := rfl
    have hhigh : '9'.val.toNat = 57 := rfl
    have hcode : c.toNat = c.val.toNat := rfl
    omega
  intro c hc
  unfold decimal at hc
  split at hc
  · rcases List.mem_cons.mp hc with rfl | hc
    · decide
    · exact hdigits _ c hc
  · exact hdigits _ c hc

theorem channelName_ne_zero (channel : Int32) : ∀ b ∈ channelName channel, b ≠ 0 := by
  refine ascii_ne_zero fun c hc => ?_
  rcases List.mem_append.mp hc with hc | hc
  · have hname : ("kvasilloni vcan".toList.all fun c => c.toNat ≠ 0 ∧ c.toNat < 256) = true := rfl
    simpa using List.all_eq_true.mp hname c hc
  · exact decimal_chars _ c hc

theorem errorText_ne_zero (err : Int32) : ∀ b ∈ errorText err, b ≠ 0 := by
  have htexts : ∀ t : Bytes, (t.all fun b => b != 0) = true → ∀ b ∈ t, b ≠ 0 := by
    intro t ht b hb
    exact bne_iff_ne.mp (List.all_eq_true.mp ht b hb)
  refine htexts _ ?_
  unfold errorText
  repeat' split
  all_goals rfl

/-- The text in the caller's memory, cut to what fits. -/
theorem outCstr_reads {mem : Bytes} {size : ℕ} (hsize : size ≤ mem.length) (hpos : 0 < size)
    {s : Bytes} (hs : ∀ b ∈ s, b ≠ 0) :
    ∃ mem', outCstr (some mem) size s = .ok (canOk, some mem') ∧
      cString mem' = s.take (size - 1) := by
  refine ⟨_, outCstr_eq hsize hpos s, ?_⟩
  rw [cString_cut hs, Nat.min_comm, ← List.take_take, List.take_length]

theorem outU32_reads {mem : Bytes} {size : ℕ} (hsize : size ≤ mem.length) (hfour : 4 ≤ size)
    (val : UInt32) : ∃ mem', outU32 (some mem) size val = .ok (canOk, some mem') ∧
      ofLeBytes (mem'.take 4) = val.toNat := by
  refine ⟨_, (outU32_eq hsize val).trans (if_neg (by omega)), ?_⟩
  have hval : val.toNat < 2 ^ 32 := val.toNat_lt
  rw [List.take_left' (leBytes_length 4 _), ofLeBytes_leBytes]
  omega

theorem outU64_reads {mem : Bytes} {size : ℕ} (hsize : size ≤ mem.length) (height : 8 ≤ size)
    (val : UInt64) : ∃ mem', outU64 (some mem) size val = .ok (canOk, some mem') ∧
      ofLeBytes (mem'.take 8) = val.toNat := by
  refine ⟨_, (outU64_eq hsize val).trans (if_neg (by omega)), ?_⟩
  have hval : val.toNat < 2 ^ 64 := val.toNat_lt
  rw [List.take_left' (leBytes_length 8 _), ofLeBytes_leBytes]
  omega

/-- A channel number that is not negative does not overflow when it is counted from one. -/
theorem serial_toNat {channel : Int32} (h : 0 ≤ channel.toInt) :
    channel.toInt64.toUInt64 ≠ 0xFFFFFFFFFFFFFFFF ∧
      ((channel.toInt64.toUInt64 + 1).toNat : ℤ) = channel.toInt + 1 := by
  have hlow : (0 : Int64) ≤ channel.toInt64 := by
    rw [Int64.le_iff_toInt_le, Int32.toInt_toInt64]
    exact h
  have hnat : (channel.toInt64.toUInt64.toNat : ℤ) = channel.toInt := by
    rw [Int64.toNat_toUInt64_of_le hlow, Int64.toNatClampNeg, Int32.toInt_toInt64]
    omega
  have hlt : channel.toInt < 2 ^ 31 := channel.toInt_lt
  constructor
  · intro hmax
    rw [hmax] at hnat
    have hbig : (0xFFFFFFFFFFFFFFFF : UInt64).toNat = 2 ^ 64 - 1 := rfl
    omega
  · rw [UInt64.toNat_add]
    have hone : (1 : UInt64).toNat = 1 := rfl
    omega

/-- The name of every channel and the text of every error read back as a string, cut to what
fits into the given size; a serial number and the level of a ring read back as the number. -/
theorem answers_read_back {mem : Bytes} {size : ℕ} (hsize : size ≤ mem.length) :
    (0 < size → ∀ overflowChecks channel, ∃ mem',
      canGetChannelData overflowChecks channel 13 (some mem) size = .ok (canOk, some mem') ∧
        cString mem' = (channelName channel).take (size - 1)) ∧
    (0 < size → ∀ err, ∃ mem', canGetErrorText err (some mem) size = .ok (canOk, some mem') ∧
      cString mem' = (errorText err).take (size - 1)) ∧
    (8 ≤ size → ∀ (overflowChecks : Bool) (channel : Int32), 0 ≤ channel.toInt → ∃ mem',
      canGetChannelData overflowChecks channel 7 (some mem) size = .ok (canOk, some mem') ∧
        (ofLeBytes (mem'.take 8) : ℤ) = channel.toInt + 1) ∧
    (4 ≤ size → ∀ s : Shared, s.q.length ≤ ringCap → ∃ mem',
      (canIoCtl (some s) 8 (some mem) size).1 = .ok (canOk, some mem') ∧
        ofLeBytes (mem'.take 4) = s.level) := by
  refine ⟨fun hpos overflowChecks channel => ?_, fun hpos err => ?_,
    fun height overflowChecks channel hchannel => ?_, fun hfour s hring => ?_⟩
  · exact outCstr_reads hsize hpos (channelName_ne_zero channel)
  · rw [canGetErrorText_eq hpos]
    exact outCstr_reads hsize hpos (errorText_ne_zero err)
  · obtain ⟨hfits, hserial⟩ := serial_toNat hchannel
    obtain ⟨mem', hout, hread⟩ :=
      outU64_reads hsize height (channel.toInt64.toUInt64 + 1)
    have hitem : canGetChannelData overflowChecks channel 7 (some mem) size =
        outU64 (some mem) size (channel.toInt64.toUInt64 + 1) :=
      if_neg fun hpanic => hfits hpanic.2
    exact ⟨mem', hitem.trans hout, by rw [hread]; exact hserial⟩
  · obtain ⟨mem', hout, hread⟩ := outU32_reads hsize hfour (UInt32.ofNat s.level)
    have hlevel : (UInt32.ofNat s.level).toNat = s.level := by
      have hcap : s.q.length < 2 ^ 32 := Nat.lt_of_le_of_lt hring (by decide)
      exact UInt32.toNat_ofNat_of_lt hcap
    exact ⟨mem', hout, by rw [hread, hlevel]⟩

theorem answers_read_back_cutName : ∃ mem',
    canGetChannelData true 2 13 (some [9, 9, 9, 9, 9]) 4 = .ok (canOk, some mem') ∧
      cString mem' = [0x6B, 0x76, 0x61] := by
  have hsize : 4 ≤ ([9, 9, 9, 9, 9] : Bytes).length := by decide
  obtain ⟨mem', hout, hread⟩ := (answers_read_back hsize).1 (by decide) true 2
  refine ⟨mem', hout, hread.trans ?_⟩
  decide

end Kvasilloni.SizedAnswers
