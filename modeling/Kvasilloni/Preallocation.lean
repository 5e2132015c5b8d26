import Kvasilloni.Datagrams

/-!
The space that the datagram parser reserves before its loop. The count in the header is
clamped to what the datagram can hold; each round of the loop takes at least the base size
of a frame from the buffer, so the list of an accepted datagram has exactly the reserved
length and no list outgrows it.
-/
namespace Kvasilloni.Preallocation

open CheckedMemory Frames Grammar Datagrams

def udpPreallocCap (count : UInt16) (bufLen : ℕ) : ℕ :=
  min count.toNat (bufLen / frameBaseSize + 1)

/-- The count in the header, or `none` where `parse_udp` returns before it reserves. -/
def headerCount (buf : Bytes) : Checked (Option UInt16) :=
  if buf.length < dataPacketBaseSize then return none
  else do
    let version ← index buf 0
    let op ← index buf 1
    if version ≠ frameVersion ∨ op ≠ opData then return none
    else
      let hi ← index buf 3
      let lo ← index buf 4
      return some (fromBe16 hi lo)

/-- The loop of `parse_udp` at the head of a round: the capacity that was reserved, the
rounds left, the offset and the frames so far. -/
inductive Reached (buf : Bytes) : ℕ → ℕ → ℕ → List Frame → Prop
  | start {count : UInt16} (hcount : headerCount buf = .ok (some count)) :
    Reached buf (udpPreallocCap count buf.length) count.toNat dataPacketBaseSize []
  | round {cap n p p' : ℕ} {frames : List Frame} {f : Frame}
    (hreached : Reached buf cap (n + 1) p frames)
    (hround : parseUdpFrame buf p = .ok (some (f, p'))) :
    Reached buf cap n p' (frames ++ [f])

/-- The parser is its header check and its loop. -/
theorem parseUdp_eq (buf : Bytes) :
    parseUdp buf = headerCount buf >>= fun count =>
      match count with
      | none => .ok none
      | some count => parseUdpLoop buf count.toNat dataPacketBaseSize [] := by
  unfold parseUdp headerCount
  split
  · rfl
  · cases index buf 0 with
    | error e => rfl
    | ok version =>
      cases index buf 1 with
      | error e => rfl
      | ok op =>
        simp only [ok_bind]
        split
        · rfl
        · cases index buf 3 with
          | error e => rfl
          | ok hi => cases index buf 4 <;> rfl

theorem headerCount_length {buf : Bytes} {count : UInt16}
    (h : headerCount buf = .ok (some count)) : dataPacketBaseSize ≤ buf.length := by
  by_contra hshort
  rw [headerCount, if_pos (by omega)] at h
  cases h

/-- A round takes at least the base size of a frame, and nothing behind the buffer. -/
theorem parseUdpFrame_offset {buf : Bytes} {p p' : ℕ} {f : Frame} (hp : p ≤ buf.length)
    (h : parseUdpFrame buf p = .ok (some (f, p'))) :
    p + frameBaseSize ≤ p' ∧ p' ≤ buf.length := by
  have hround := parseUdpFrame_eq (buf.take p) (buf.drop p)
  rw [List.take_append_drop, List.length_take, min_eq_left hp, h] at hround
  cases hread : readFrame (buf.drop p) with
  | illegal | short =>
    rw [hread] at hround
    cases hround
  | frame g rest =>
    rw [hread] at hround
    obtain ⟨-, hsplit⟩ := readFrame_frame hread
    have hoffset : p' = buf.length - rest.length :=
      (Prod.mk.inj (Option.some.inj (Except.ok.inj hround))).2
    have hlength := congrArg List.length hsplit
    have himage := wireImage_length_ge g
    rw [List.length_drop, List.length_append] at hlength
    simp only [frameBaseSize]
    omega

/-- What holds at the head of every round. -/
theorem reached_bounds {buf : Bytes} {cap n p : ℕ} {frames : List Frame}
    (h : Reached buf cap n p frames) :
    ∃ count, headerCount buf = .ok (some count) ∧ cap = udpPreallocCap count buf.length ∧
      frames.length + n = count.toNat ∧
      dataPacketBaseSize + frameBaseSize * frames.length ≤ p ∧ p ≤ buf.length := by
  induction h with
  | @start count hcount =>
    exact ⟨count, hcount, rfl, Nat.zero_add _, le_rfl, headerCount_length hcount⟩
  | round _ hround ih =>
    obtain ⟨count, hcount, hcap, hrounds, hlow, hhigh⟩ := ih
    obtain ⟨hstep, hend⟩ := parseUdpFrame_offset hhigh hround
    refine ⟨count, hcount, hcap, ?_, ?_, hend⟩
    · rw [List.length_append, List.length_singleton]
      omega
    · rw [List.length_append, List.length_singleton]
      simp only [frameBaseSize, dataPacketBaseSize] at hlow hstep ⊢
      omega

theorem reached_le_cap {buf : Bytes} {cap n p : ℕ} {frames : List Frame}
    (h : Reached buf cap n p frames) : frames.length ≤ cap := by
  obtain ⟨count, -, rfl, hrounds, hlow, hhigh⟩ := reached_bounds h
  simp only [udpPreallocCap, frameBaseSize, dataPacketBaseSize] at hlow ⊢
  omega

/-- From a round that is reached the loop ends with a reached list, or at a reached round
that is refused. -/
theorem loop_reached {buf : Bytes} {cap n p : ℕ} {frames : List Frame}
    (h : Reached buf cap n p frames) :
    (∃ fs p', parseUdpLoop buf n p frames = .ok (some fs) ∧ Reached buf cap 0 p' fs) ∨
      parseUdpLoop buf n p frames = .ok none ∧
        ∃ m p' fs, Reached buf cap (m + 1) p' fs ∧ parseUdpFrame buf p' = .ok none := by
  induction n generalizing p frames with
  | zero => exact Or.inl ⟨frames, p, rfl, h⟩
  | succ n ih =>
    obtain ⟨count, -, -, -, -, hp⟩ := reached_bounds h
    have hround := parseUdpFrame_eq (buf.take p) (buf.drop p)
    rw [List.take_append_drop, List.length_take, min_eq_left hp] at hround
    cases hfound : found buf (readFrame (buf.drop p)) with
    | none =>
      rw [hfound] at hround
      refine Or.inr ⟨?_, n, p, frames, h, hround⟩
      rw [parseUdpLoop, hround]
      rfl
    | some r =>
      obtain ⟨f, p'⟩ := r
      rw [hfound] at hround
      have hloop : parseUdpLoop buf (n + 1) p frames = parseUdpLoop buf n p' (frames ++ [f]) := by
        rw [parseUdpLoop, hround]
        rfl
      rw [hloop]
      exact ih (h.round hround)

/-- For every buffer: the clamp bounds what is reserved; an accepted datagram has exactly
as many frames as its header counts, and exactly that was reserved; one that is refused
behind the header is refused at a round of the loop; and in no round has the list outgrown
the reserved capacity. -/
theorem prealloc_tight (buf : Bytes) :
    (∀ count, headerCount buf = .ok (some count) →
      udpPreallocCap count buf.length ≤ buf.length / 5 + 1) ∧
    (∀ fs, parseUdp buf = .ok (some fs) → ∃ count, headerCount buf = .ok (some count) ∧
      fs.length = count.toNat ∧ udpPreallocCap count buf.length = count.toNat) ∧
    (∀ count, parseUdp buf = .ok none → headerCount buf = .ok (some count) →
      ∃ m p fs, Reached buf (udpPreallocCap count buf.length) (m + 1) p fs ∧
        parseUdpFrame buf p = .ok none) ∧
    ∀ cap n p fs, Reached buf cap n p fs → fs.length ≤ cap := by
  refine ⟨fun count _ => min_le_right _ _, fun fs hparse => ?_, fun count hparse hcount => ?_,
    fun cap n p fs h => reached_le_cap h⟩
  · obtain ⟨o, hheader, hrest⟩ := bind_eq_ok.mp ((parseUdp_eq buf).symm.trans hparse)
    cases o with
    | none => cases hrest
    | some count =>
      rcases loop_reached (.start hheader) with ⟨gs, p', hloop, hend⟩ | ⟨hloop, -⟩
      · obtain rfl : gs = fs := Option.some.inj (Except.ok.inj (hloop.symm.trans hrest))
        obtain ⟨count', hheader', -, hrounds, hlow, hhigh⟩ := reached_bounds hend
        obtain rfl : count = count' := Option.some.inj (Except.ok.inj (hheader.symm.trans hheader'))
        refine ⟨count, hheader, hrounds, ?_⟩
        simp only [udpPreallocCap, frameBaseSize, dataPacketBaseSize] at hlow ⊢
        omega
      · cases hloop.symm.trans hrest
  · have hloop : parseUdpLoop buf count.toNat dataPacketBaseSize [] = .ok none := by
      rw [← hparse, parseUdp_eq, hcount]
      rfl
    rcases loop_reached (.start hcount) with ⟨gs, p', hgs, -⟩ | ⟨-, hrefused⟩
    · cases hgs.symm.trans hloop
    · exact hrefused

end Kvasilloni.Preallocation
