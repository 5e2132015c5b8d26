import Kvasilloni.Reception

/-!
IP addresses from text, as the standard library of the shim's language reads them. A reader
takes its part from the front of the text and leaves the rest; an address stands for
itself only if nothing is left. A group of digits may be followed by further groups, each
behind its separator.
-/
namespace Kvasilloni.IpLiterals

open Reception

abbrev Text := List Char

/-- The value of a digit in a radix up to sixteen. -/
def toDigit (radix : ℕ) (c : Char) : Option ℕ :=
  let value :=
    if '0' ≤ c ∧ c ≤ '9' then c.toNat - '0'.toNat
    else if 'a' ≤ c ∧ c ≤ 'f' then c.toNat - 'a'.toNat + 10
    else if 'A' ≤ c ∧ c ≤ 'F' then c.toNat - 'A'.toNat + 10
    else radix
  if value < radix then some value else none

def readGivenChar (c : Char) : Text → Option Text
  | [] => none
  | d :: t => if d = c then some t else none

/-- Before every part but the first stands its separator. -/
def readSeparator {α : Type} (sep : Char) (index : ℕ) (inner : Text → Option (α × Text))
    (t : Text) : Option (α × Text) :=
  if index = 0 then inner t else (readGivenChar sep t).bind inner

/-- All the digits at the front of the text, with their value and their count. -/
def readDigits (radix : ℕ) : ℕ → ℕ → Text → ℕ × ℕ × Text
  | result, count, [] => (result, count, [])
  | result, count, c :: t =>
    match toDigit radix c with
    | some digit => readDigits radix (result * radix + digit) (count + 1) t
    | none => (result, count, c :: t)

/-- A number below the bound, of at most so many digits. -/
def readNumber (bound radix maxDigits : ℕ) (allowZeroPrefix : Bool) (t : Text) :
    Option (ℕ × Text) :=
  let (result, count, rest) := readDigits radix 0 0 t
  if maxDigits < count ∨ bound ≤ result ∨ count = 0 then none
  else if allowZeroPrefix = false ∧ t.head? = some '0' ∧ 1 < count then none
  else some (result, rest)

def readOctet : Text → Option (ℕ × Text) := readNumber (2 ^ 8) 10 3 false

def readIpv4Addr (t : Text) : Option ((ℕ × ℕ × ℕ × ℕ) × Text) := do
  let (one, t) ← readSeparator '.' 0 readOctet t
  let (two, t) ← readSeparator '.' 1 readOctet t
  let (three, t) ← readSeparator '.' 2 readOctet t
  let (four, t) ← readSeparator '.' 3 readOctet t
  some ((one, two, three, four), t)

/-- Up to `limit` further groups, the first of them number `i`; the flag reports an IPv4
address that took the place of the last two. -/
def readGroups (limit i : ℕ) (t : Text) : List ℕ × Bool × Text :=
  match limit with
  | 0 => ([], false, t)
  | limit + 1 =>
    -- an IPv4 address needs two groups
    match if 0 < limit then readSeparator ':' i readIpv4Addr t else none with
    | some ((one, two, three, four), rest) =>
      ([one * 2 ^ 8 + two, three * 2 ^ 8 + four], true, rest)
    | none =>
      match readSeparator ':' i (readNumber (2 ^ 16) 16 4 true) t with
      | some (group, rest) =>
        let (groups, ipv4, rest) := readGroups limit (i + 1) rest
        (group :: groups, ipv4, rest)
      | none => ([], false, t)

/-- The eight groups, with zeros in place of a double colon. -/
def readIpv6Addr (t : Text) : Option (List ℕ × Text) := do
  let (head, headIpv4, t) := readGroups 8 0 t
  if head.length = 8 then some (head, t)
  else if headIpv4 then none
  else
    let t ← readGivenChar ':' t
    let t ← readGivenChar ':' t
    let (tail, _, t) := readGroups (8 - (head.length + 1)) 0 t
    some (head ++ List.replicate (8 - head.length - tail.length) 0 ++ tail, t)

def ofOctets : ℕ × ℕ × ℕ × ℕ → IpAddr
  | (one, two, three, four) =>
    .v4 (UInt32.ofNat (one * 2 ^ 24 + two * 2 ^ 16 + three * 2 ^ 8 + four))

def ofGroups (groups : List ℕ) : IpAddr :=
  let half (gs : List ℕ) := UInt64.ofNat (gs.foldl (fun acc g => acc * 2 ^ 16 + g) 0)
  .v6 (half (groups.take 4)) (half (groups.drop 4))

/-- The IPv6 form is tried where no IPv4 address stands at the front. -/
def readIpAddr (t : Text) : Option (IpAddr × Text) :=
  match readIpv4Addr t with
  | some (octets, rest) => some (ofOctets octets, rest)
  | none => (readIpv6Addr t).map fun r => (ofGroups r.1, r.2)

def parseIpAddr (t : Text) : Option IpAddr :=
  match readIpAddr t with
  | some (addr, []) => some addr
  | _ => none

/-! ### What is read fits the address -/

theorem readNumber_lt {bound radix maxDigits : ℕ} {allow : Bool} {t rest : Text} {n : ℕ}
    (h : readNumber bound radix maxDigits allow t = some (n, rest)) : n < bound := by
  unfold readNumber at h
  dsimp only at h
  split at h
  · cases h
  · split at h
    · cases h
    · obtain ⟨rfl, -⟩ := Prod.mk.inj (Option.some.inj h)
      omega

theorem readSeparator_some {α : Type} {sep : Char} {index : ℕ} {inner : Text → Option (α × Text)}
    {t : Text} {r : α × Text} (h : readSeparator sep index inner t = some r) :
    ∃ t', inner t' = some r := by
  unfold readSeparator at h
  split at h
  · exact ⟨t, h⟩
  · obtain ⟨t', -, hinner⟩ := Option.bind_eq_some_iff.mp h
    exact ⟨t', hinner⟩

theorem readIpv4Addr_lt {t rest : Text} {one two three four : ℕ}
    (h : readIpv4Addr t = some ((one, two, three, four), rest)) :
    one < 2 ^ 8 ∧ two < 2 ^ 8 ∧ three < 2 ^ 8 ∧ four < 2 ^ 8 := by
  have hoctet : ∀ {index : ℕ} {t : Text} {r : ℕ × Text},
      readSeparator '.' index readOctet t = some r → r.1 < 2 ^ 8 := by
    intro index t r hr
    obtain ⟨t', ht'⟩ := readSeparator_some hr
    exact readNumber_lt ht'
  simp only [readIpv4Addr, Option.bind_eq_bind, Option.bind_eq_some_iff] at h
  obtain ⟨r₁, h₁, r₂, h₂, r₃, h₃, r₄, h₄, h⟩ := h
  obtain ⟨heq, -⟩ := Prod.mk.inj (Option.some.inj h)
  cases heq
  exact ⟨hoctet h₁, hoctet h₂, hoctet h₃, hoctet h₄⟩

theorem readGroups_fits (limit i : ℕ) (t : Text) :
    (readGroups limit i t).1.length ≤ limit ∧ ∀ g ∈ (readGroups limit i t).1, g < 2 ^ 16 := by
  induction limit generalizing i t with
  | zero => simp [readGroups]
  | succ limit ih =>
    rw [readGroups]
    split
    · rename_i one two three four rest hv4
      have hlimit : 0 < limit := by
        by_contra hzero
        rw [if_neg hzero] at hv4
        cases hv4
      rw [if_pos hlimit] at hv4
      obtain ⟨t', ht'⟩ := readSeparator_some hv4
      obtain ⟨h₁, h₂, h₃, h₄⟩ := readIpv4Addr_lt ht'
      refine ⟨by simp; omega, fun g hg => ?_⟩
      simp only [List.mem_cons, List.not_mem_nil, or_false] at hg
      omega
    · split
      · rename_i group rest hgroup
        obtain ⟨t', ht'⟩ := readSeparator_some hgroup
        obtain ⟨hlength, hbound⟩ := ih (i + 1) rest
        refine ⟨Nat.succ_le_succ hlength, fun g hg => ?_⟩
        rcases List.mem_cons.mp hg with rfl | hg
        · exact readNumber_lt ht'
        · exact hbound g hg
      · exact ⟨Nat.zero_le _, fun g hg => absurd hg List.not_mem_nil⟩

/-- An IPv6 address has its eight groups, each of sixteen bits. -/
theorem readIpv6Addr_fits {t rest : Text} {groups : List ℕ}
    (h : readIpv6Addr t = some (groups, rest)) :
    groups.length = 8 ∧ ∀ g ∈ groups, g < 2 ^ 16 := by
  simp only [readIpv6Addr] at h
  obtain ⟨hhead, hheadBound⟩ := readGroups_fits 8 0 t
  by_cases hfull : (readGroups 8 0 t).1.length = 8
  · rw [if_pos hfull] at h
    obtain ⟨rfl, -⟩ := Prod.mk.inj (Option.some.inj h)
    exact ⟨hfull, hheadBound⟩
  · rw [if_neg hfull] at h
    split at h
    · cases h
    · simp only [Option.bind_eq_bind, Option.bind_eq_some_iff] at h
      obtain ⟨t₁, -, t₂, -, h⟩ := h
      obtain ⟨rfl, -⟩ := Prod.mk.inj (Option.some.inj h)
      obtain ⟨htail, htailBound⟩ := readGroups_fits (8 - ((readGroups 8 0 t).1.length + 1)) 0 t₂
      constructor
      · simp only [List.length_append, List.length_replicate]
        omega
      · intro g hg
        rcases List.mem_append.mp hg with hg | hg
        · rcases List.mem_append.mp hg with hg | hg
          · exact hheadBound g hg
          · rw [List.eq_of_mem_replicate hg]
            exact Nat.two_pow_pos 16
        · exact htailBound g hg

example : parseIpAddr "10.0.0.5".toList = some (.v4 0x0A000005) := by decide

example : parseIpAddr "fe80::1".toList = some (.v6 0xFE80000000000000 1) := by decide

end Kvasilloni.IpLiterals
