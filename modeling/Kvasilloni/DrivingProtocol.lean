import Kvasilloni.Library.StepSystem
import Kvasilloni.Streams

/-!
Any driver of the streaming decoder that keeps to its protocol: an empty slice in the
initial state, and in every other state as many bytes as the last call requested. What the
driver holds between two calls is determined by the bytes of the current frame alone.
-/
namespace Kvasilloni.DrivingProtocol

open CheckedMemory Frames Grammar Streams

/-- What a driver holds between two calls: frame, state and request, and of the current
attempt the bytes that were fed and the number of calls. -/
structure Driver where
  frame : Frame
  state : DecodeState
  need : ℕ
  fed : Bytes
  calls : ℕ

/-- Any frame may stand in the initial state. -/
def Driver.start (f : Frame) : Driver := ⟨f, .init, 0, [], 0⟩

def Driver.Allowed (d : Driver) (chunk : Bytes) : Prop :=
  if d.state = .init then chunk = [] else chunk.length = d.need

instance (d : Driver) (chunk : Bytes) : Decidable (d.Allowed chunk) := by
  unfold Driver.Allowed
  infer_instance

/-- A completed frame ends the attempt, and an error ends the run. -/
def Driver.answered (d : Driver) (chunk : Bytes) : Decoded × Frame × DecodeState → Option Driver
  | (.need n, f, st) => some ⟨f, st, n, d.fed ++ chunk, d.calls + 1⟩
  | (.complete, f, st) => some ⟨f, st, 0, [], 0⟩
  | (.error, _, _) => none

/-- One call by the protocol. -/
def call (d : Driver) (chunk : Bytes) : Option Driver :=
  if d.Allowed chunk then
    match decodeStream chunk d.frame d.state with
    | .ok answer => d.answered chunk answer
    | .error _ => none
  else none

/-- Where a driver can stand between two calls. -/
inductive Between : Driver → Prop
  | init {f : Frame} : Between ⟨f, .init, 0, [], 0⟩
  | canId : Between ⟨Frame.default, .canId, 4, [], 1⟩
  | len {a b c d : UInt8} :
    Between ⟨{ Frame.default with canId := fromBe32 a b c d }, .len, 1, [a, b, c, d], 2⟩
  | flags {a b c d raw : UInt8} (hbit : raw &&& canfdFrame ≠ 0)
    (hle : ¬ maxFrameLen < (raw &&& ~~~canfdFrame).toNat) :
    Between ⟨{ Frame.default with
      canId := fromBe32 a b c d, fd := true, len := raw &&& ~~~canfdFrame }, .flags, 1,
      [a, b, c, d, raw], 3⟩
  | data {g : Frame} {fed : Bytes} {calls : ℕ} (hg : Head g) (hrtr : g.isRtr = false)
    (hpos : 0 < g.len.toNat) (hcalls : calls ≤ 4)
    (hfed : ∀ data, wireImage { g with data := data } =
      fed ++ wirePayload { g with data := data }) :
    Between ⟨g, .data, g.len.toNat, fed, calls⟩

/-- What the protocol promises of one call and its answer. -/
structure Conforms (d : Driver) (chunk : Bytes) (answer : Decoded) (f : Frame)
    (st : DecodeState) : Prop where
  need : ∀ n, answer = .need n → 1 ≤ n ∧ n ≤ 64
  five_calls : d.calls + 1 ≤ 5 ∧ (d.calls + 1 = 5 → ∀ n, answer ≠ .need n)
  error : answer = .error → d.state = .len
  complete : answer = .complete → st = .init
  fresh : answer = .complete → Canonical f ∧ wireImage f = d.fed ++ chunk

/-- A call that the protocol allows is answered as promised, without a fault, and the
driver stands between two calls again. -/
structure Served (d : Driver) (chunk : Bytes) (r : Decoded × Frame × DecodeState) : Prop where
  conforms : Conforms d chunk r.1 r.2.1 r.2.2
  next : ∀ d', d.answered chunk r = some d' → Between d'

/-! ### One call -/

theorem served_need {d : Driver} {chunk : Bytes} {f : Frame} {st : DecodeState} {n : ℕ}
    (hn : 1 ≤ n ∧ n ≤ 64) (hcalls : d.calls ≤ 3)
    (hnext : Between ⟨f, st, n, d.fed ++ chunk, d.calls + 1⟩) :
    Served d chunk (.need n, f, st) := by
  refine ⟨⟨?_, ⟨by omega, fun h => by omega⟩, ?_, ?_, ?_⟩, ?_⟩
  · rintro m hm
    rw [← Decoded.need.inj hm]
    exact hn
  · intro h
    cases h
  · intro h
    cases h
  · intro h
    cases h
  · intro d' hd'
    rw [← Option.some.inj hd']
    exact hnext

theorem served_complete {d : Driver} {chunk : Bytes} {f : Frame} (hcalls : d.calls ≤ 4)
    (hfresh : Canonical f ∧ wireImage f = d.fed ++ chunk) :
    Served d chunk (.complete, f, .init) := by
  refine ⟨⟨?_, ⟨by omega, fun _ n h => ?_⟩, ?_, fun _ => rfl, fun _ => hfresh⟩, ?_⟩
  · intro n h
    cases h
  · cases h
  · intro h
    cases h
  · intro d' hd'
    rw [← Option.some.inj hd']
    exact Between.init

theorem served_error {d : Driver} {chunk : Bytes} {f : Frame} (hcalls : d.calls ≤ 4)
    (hstate : d.state = .len) : Served d chunk (.error, f, .len) := by
  refine ⟨⟨?_, ⟨by omega, fun _ n h => ?_⟩, fun _ => hstate, ?_, ?_⟩, ?_⟩
  · intro n h
    cases h
  · cases h
  · intro h
    cases h
  · intro h
    cases h
  · intro d' hd'
    cases hd'

/-- A complete head either is the whole frame or has its payload to come. -/
theorem served_head {d : Driver} {chunk : Bytes} {g : Frame} (hg : Head g)
    (hcalls : d.calls ≤ 3)
    (hfed : ∀ data, wireImage { g with data := data } =
      (d.fed ++ chunk) ++ wirePayload { g with data := data }) :
    Served d chunk (headAnswer g) := by
  unfold headAnswer
  split
  · rename_i hdone
    have hpayload : wirePayload g = [] := by
      unfold wirePayload
      split
      · rfl
      · rename_i hrtr
        rw [hdone.resolve_left hrtr]
        rfl
    have himage := hfed g.data
    refine served_complete (by omega) ⟨hg.canonical, ?_⟩
    change wireImage g = (d.fed ++ chunk) ++ wirePayload g at himage
    rw [himage, hpayload, List.append_nil]
  · rename_i hmore
    obtain ⟨hrtr, hlen⟩ := not_or.mp hmore
    have hpos : 0 < g.len.toNat := by
      rw [Nat.pos_iff_ne_zero]
      intro h
      exact hlen (UInt8.toNat_inj.mp h)
    exact served_need ⟨hpos, hg.len_le_max⟩ hcalls
      (.data hg (Bool.not_eq_true _ ▸ hrtr) hpos (by omega) hfed)

theorem between_served {d : Driver} {chunk : Bytes} (hd : Between d) (h : d.Allowed chunk) :
    ∃ r, decodeStream chunk d.frame d.state = .ok r ∧ Served d chunk r := by
  cases hd with
  | init =>
    obtain rfl : chunk = [] := h
    exact ⟨_, rfl, served_need (by decide) (Nat.zero_le _) .canId⟩
  | canId =>
    have hlen : chunk.length = 4 := h
    obtain ⟨a, b, c, d, rfl⟩ := List.length_eq_four.mp hlen
    exact ⟨_, decodeStream_canId a b c d _, served_need (by decide) (by simp) .len⟩
  | @len a b c d =>
    have hlen : chunk.length = 1 := h
    obtain ⟨raw, rfl⟩ := List.length_eq_one_iff.mp hlen
    by_cases hbit : raw &&& canfdFrame ≠ 0
    · by_cases hle : maxFrameLen < (raw &&& ~~~canfdFrame).toNat
      · have hillegal : IllegalLen raw := by
          rw [IllegalLen, if_pos hbit]
          exact hle
        obtain ⟨f, hf⟩ := decodeStream_len_illegal
          { Frame.default with canId := fromBe32 a b c d } hillegal
        exact ⟨_, hf, served_error (by simp) rfl⟩
      · exact ⟨_, decodeStream_len_fd _ hbit hle,
          served_need (by decide) (by simp) (.flags hbit hle)⟩
    · by_cases hle : classicFrameMaxLen < raw.toNat
      · have hillegal : IllegalLen raw := by
          rw [IllegalLen, if_neg hbit]
          exact hle
        obtain ⟨f, hf⟩ := decodeStream_len_illegal
          { Frame.default with canId := fromBe32 a b c d } hillegal
        exact ⟨_, hf, served_error (by simp) rfl⟩
      · refine ⟨_, decodeStream_len_classic _ hbit hle,
          served_head (classic_head (fromBe32 a b c d) raw hle) (by simp) fun data => ?_⟩
        exact wireImage_classic hle rfl
  | @flags a b c d raw hbit hle =>
    have hlen : chunk.length = 1 := h
    obtain ⟨flags, rfl⟩ := List.length_eq_one_iff.mp hlen
    refine ⟨_, decodeStream_flags _ flags,
      served_head (fd_head (fromBe32 a b c d) _ flags hle) (by simp) fun data => ?_⟩
    exact wireImage_fd hbit rfl
  | @data g fed calls hg hrtr hpos hcalls hfed =>
    have hlen : chunk.length = g.len.toNat := h
    obtain ⟨hcanonical, hpayload⟩ := hg.fill chunk hrtr hlen
    refine ⟨_, decodeStream_data hg hlen, served_complete hcalls ⟨hcanonical, ?_⟩⟩
    rw [hfed, hpayload]

/-! ### Runs -/

theorem call_between {d d' : Driver} {chunk : Bytes} (hd : Between d)
    (h : call d chunk = some d') : Between d' := by
  unfold call at h
  split at h
  · rename_i hallowed
    obtain ⟨r, hr, hserved⟩ := between_served hd hallowed
    rw [hr] at h
    exact hserved.next d' h
  · cases h

theorem run_between {f : Frame} {chunks : List Bytes} {d : Driver}
    (h : StepSystem.run call (Driver.start f) chunks = some d) : Between d :=
  StepSystem.run_invariant (fun _ _ _ hd hcall => call_between hd hcall) Between.init h

theorem Between.stored {d : Driver} (hd : Between d) (h : d.state = .flags ∨ d.state = .data) :
    d.frame.len.toNat ≤ lenLimit d.frame.fd ∧
      d.frame.len.toNat ≤ d.frame.data.toList.length := by
  have hroom : ∀ {f : Frame}, f.len.toNat ≤ lenLimit f.fd →
      f.len.toNat ≤ lenLimit f.fd ∧ f.len.toNat ≤ f.data.toList.length := by
    intro f hf
    refine ⟨hf, ?_⟩
    rw [List.Vector.toList_length]
    exact hf.trans (lenLimit_le f.fd)
  cases hd with
  | init | canId | len => rcases h with h | h <;> cases h
  | flags hbit hle => exact hroom (Nat.le_of_not_gt hle)
  | data hg => exact hroom hg.len_le

/-- In every run by the protocol, from any frame: in the states with a stored length this
is within the limit of its class and of the payload array; the next call, whatever bytes it
is fed, has no fault and keeps every promise. The loop of the TCP channel is such a run and
never leaves for a request that it cannot serve. -/
theorem driving_protocol (f₀ : Frame) (chunks : List Bytes) (d : Driver)
    (hrun : StepSystem.run call (Driver.start f₀) chunks = some d) :
    (d.state = .flags ∨ d.state = .data →
      d.frame.len.toNat ≤ lenLimit d.frame.fd ∧
        d.frame.len.toNat ≤ d.frame.data.toList.length) ∧
    (∀ chunk, d.Allowed chunk → ∃ answer f st,
      decodeStream chunk d.frame d.state = .ok (answer, f, st) ∧
        Conforms d chunk answer f st) ∧
    ∀ s, (decodeTcp s).ending ≠ .broken := by
  have hd := run_between hrun
  refine ⟨hd.stored, fun chunk hallowed => ?_, fun s => ?_⟩
  · obtain ⟨r, hr, hserved⟩ := between_served hd hallowed
    exact ⟨r.1, r.2.1, r.2.2, hr, hserved.conforms⟩
  · obtain ⟨rem, -, -, ⟨-, hending, -⟩ | ⟨-, hending⟩⟩ := decodeTcp_spec s
    · rw [hending]
      simp
    · rw [hending]
      simp

/-- A classic frame with one payload byte, stopped in front of that byte. -/
theorem driving_protocol_classic :
    ∃ d, StepSystem.run call (Driver.start Frame.default) [[], [0, 0, 0, 1], [1]] = some d ∧
      d.state = .data ∧ d.frame.len.toNat ≤ lenLimit d.frame.fd :=
  ⟨_, rfl, rfl, ((driving_protocol Frame.default [[], [0, 0, 0, 1], [1]] _ rfl).1
    (Or.inr rfl)).1⟩

end Kvasilloni.DrivingProtocol
