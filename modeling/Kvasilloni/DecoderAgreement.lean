import Kvasilloni.Datagrams
import Kvasilloni.Streams

/-!
The two decoders on the same bytes. Both read frames of one grammar, so a datagram
body is accepted exactly when the stream decoder completes the counted frames of it.
-/
namespace Kvasilloni.DecoderAgreement

open SelfDelimiting Frames Grammar Datagrams Streams

/-- The frames of a datagram body are the first ones the stream decoder completes. -/
theorem bodyOf_iff (body : Bytes) (fs : List Frame) :
    BodyOf body fs ↔ fs <+: (decodeTcp body).frames := by
  obtain ⟨rem, hs, hall, hend⟩ := decodeTcp_spec body
  have hstuck : frameCode.Stuck rem :=
    stuck_of_ending (hend.imp (fun h => h.1) (fun h => h.1))
  constructor
  · rintro ⟨hcan, hpre⟩
    rw [hs] at hpre
    exact frameCode.prefix_of_stuck hcan hall hstuck hpre
  · rintro ⟨gs, hgs⟩
    refine ⟨fun f hf => hall f (hgs ▸ List.mem_append_left gs hf), ?_⟩
    rw [hs, ← hgs, List.flatMap_append, List.append_assoc]
    exact List.prefix_append _ _

theorem isDatagram_iff (body : Bytes) (count : UInt16) (seq : UInt8) (fs : List Frame) :
    IsDatagram ([2, 0, seq] ++ toBe16 count ++ body) fs ↔
      fs.length = count.toNat ∧ fs <+: (decodeTcp body).frames := by
  obtain ⟨hi, lo, hbytes, hvalue⟩ := exists_toBe16 count
  rw [hbytes]
  change IsDatagram (2 :: 0 :: seq :: hi :: lo :: body) fs ↔ _
  rw [isDatagram_header, hvalue, bodyOf_iff]
  simp [frameVersion, opData]

/-- A datagram with a given body is accepted exactly when the stream decoder completes
the counted number of frames, with the same frames; it is refused exactly when the
stream decoder fails or waits before that. -/
theorem decoders_agree (body : Bytes) (count : UInt16) (seq : UInt8) :
    (∀ fs, parseUdp ([2, 0, seq] ++ toBe16 count ++ body) = .ok (some fs) ↔
      count.toNat ≤ (decodeTcp body).frames.length ∧
        fs = (decodeTcp body).frames.take count.toNat) ∧
    (parseUdp ([2, 0, seq] ++ toBe16 count ++ body) = .ok none ↔
      (decodeTcp body).frames.length < count.toNat ∧
        ((decodeTcp body).ending = .error ∨ (decodeTcp body).ending = .waiting)) := by
  have hending : (decodeTcp body).ending = .error ∨ (decodeTcp body).ending = .waiting := by
    obtain ⟨rem, -, -, hend⟩ := decodeTcp_spec body
    exact hend.imp (fun h => h.2.1) (fun h => h.2)
  have hinitial : ∀ fs, fs.length = count.toNat ∧ fs <+: (decodeTcp body).frames ↔
      count.toNat ≤ (decodeTcp body).frames.length ∧
        fs = (decodeTcp body).frames.take count.toNat := by
    intro fs
    constructor
    · rintro ⟨hlen, hpre⟩
      exact ⟨hlen ▸ hpre.length_le, by rw [← hlen]; exact List.prefix_iff_eq_take.mp hpre⟩
    · rintro ⟨hle, rfl⟩
      exact ⟨by rw [List.length_take]; omega, List.take_prefix _ _⟩
  rcases parseUdp_spec ([2, 0, seq] ++ toBe16 count ++ body) with
    ⟨gs, hgs, hparse⟩ | ⟨hnone, hparse⟩
  · rw [isDatagram_iff, hinitial] at hgs
    rw [hparse]
    refine ⟨fun fs => ⟨fun h => ?_, fun h => by rw [h.2, ← hgs.2]⟩, ?_⟩
    · obtain rfl := Option.some.inj (Except.ok.inj h)
      exact hgs
    · constructor
      · intro h
        simp at h
      · rintro ⟨hlt, -⟩
        omega
  · rw [hparse]
    have hlt : (decodeTcp body).frames.length < count.toNat := by
      by_contra hle
      exact hnone _ ((isDatagram_iff body count seq _).mpr ((hinitial _).mpr ⟨by omega, rfl⟩))
    refine ⟨fun fs => ⟨fun h => by simp at h, fun h => ?_⟩, fun _ => ⟨hlt, hending⟩,
      fun _ => rfl⟩
    omega

end Kvasilloni.DecoderAgreement
