import Kvasilloni.EndToEnd
import Kvasilloni.Library.StepSystem
import Kvasilloni.Library.LockOwner
import Mathlib.Data.List.Range

/-!
The sending side of a UDP channel: any number of threads in `Conn::write`, and the closes.
A write builds its datagram under the tx lock, counts the sequence number up whatever becomes
of the send, and takes a datagram that the socket has cut for a failure.
-/
namespace Kvasilloni.UdpTransmit

open CheckedMemory LockOwner Frames Grammar Datagrams Marshal EndToEnd

/-- Where a thread stands in `Conn::write`. -/
inductive WriterPc
  | idle
  | ready (f : Frame)
  | locking (f : Frame)
  | building (f : Frame)
  | sending (f : Frame) (seqNo : UInt8) (pkt : Bytes)

/-- The frame of a writer that holds the tx lock. -/
def WriterPc.held : WriterPc → Option Frame
  | .building f => some f
  | .sending f _ _ => some f
  | .idle | .ready _ | .locking _ => none

/-- A send that is over: what the socket has sent of the datagram, if anything, and whether
the write has succeeded. -/
structure Attempt where
  frame : Frame
  seqNo : UInt8
  datagram : Option Bytes
  ok : Bool
  deriving DecidableEq

structure UdpLink (W : Type) where
  isOpen : Bool
  negotiated : Bool
  txOwner : Option W
  poisoned : Bool
  seq : UInt8
  writers : W → WriterPc
  log : List Attempt

/-- The channel as `Conn::connect` leaves it. -/
def connected (W : Type) : UdpLink W where
  isOpen := true
  negotiated := true
  txOwner := none
  poisoned := false
  seq := 0
  writers := fun _ => .idle
  log := []

variable {W : Type}

def setWriter [DecidableEq W] (s : UdpLink W) (w : W) (pc : WriterPc) : UdpLink W :=
  { s with writers := Function.update s.writers w pc }

/-- The write returns and releases the tx lock. -/
def finishWrite [DecidableEq W] (s : UdpLink W) (w : W) (a : Attempt) : UdpLink W :=
  { s with
    txOwner := none
    writers := Function.update s.writers w .idle
    log := s.log ++ [a] }

/-- The next statement of a writer, or `none` where it waits for the lock or the socket. -/
def writerGo [DecidableEq W] (s : UdpLink W) (w : W) : WriterPc → Option (UdpLink W)
  | .idle => none
  | .ready f =>
    if s.negotiated then some (setWriter s w (.locking f)) else some (setWriter s w .idle)
  | .locking f =>
    if s.txOwner.isSome then none
    else if s.poisoned then some (setWriter s w .idle)
    else some { setWriter s w (.building f) with txOwner := some w }
  | .building f =>
    match buildUdp f s.seq with
    | .ok pkt => some { setWriter s w (.sending f s.seq pkt) with seq := s.seq + 1 }
    | .error _ => some { setWriter s w .idle with txOwner := none, poisoned := true }
  | .sending _ _ _ => none

/-- What `send_to` comes back with: a number of bytes sent, or an error. -/
inductive SendResult
  | sent (n : ℕ)
  | failed
  deriving DecidableEq

/-- The send is over; a datagram cut short is sent as it is, but the write fails. -/
def sendTo [DecidableEq W] (s : UdpLink W) (w : W) (r : SendResult) : WriterPc → Option (UdpLink W)
  | .sending f seqNo pkt =>
    match r with
    | .sent n =>
      if n ≤ pkt.length then
        some (finishWrite s w ⟨f, seqNo, some (pkt.take n), decide (n = pkt.length)⟩)
      else none
    | .failed => some (finishWrite s w ⟨f, seqNo, none, false⟩)
  | _ => none

inductive Label (W : Type)
  | canWrite (w : W) (id : Int32) (msg : Option Bytes) (dlc flag : UInt32)
  | write (w : W)
  | sendTo (w : W) (r : SendResult)
  | canClose
  | close

def step [DecidableEq W] (s : UdpLink W) : Label W → Option (UdpLink W)
  | .canWrite w id msg dlc flag =>
    match s.isOpen, s.writers w, writeFrame id msg dlc flag with
    | true, .idle, .ok f => some (setWriter s w (.ready f))
    | _, _, _ => none
  | .write w => writerGo s w (s.writers w)
  | .sendTo w r => sendTo s w r (s.writers w)
  | .canClose => if s.isOpen then some { s with isOpen := false } else none
  | .close => if s.isOpen then none else some { s with negotiated := false }

/-- What the socket has sent, in order. -/
def wire (s : UdpLink W) : List Bytes := s.log.filterMap Attempt.datagram

/-- The frames whose write has succeeded, in the order of the tx lock. -/
def succeeded (s : UdpLink W) : List Frame := (s.log.filter Attempt.ok).map Attempt.frame

/-! ### The invariant -/

/-- What a writer carries, behind `n` sends that are over: frames that were built, and the
datagram of the next number. -/
def Carries (n : ℕ) : WriterPc → Prop
  | .idle => True
  | .ready f => Canonical f
  | .locking f => Canonical f
  | .building f => Canonical f
  | .sending f seqNo pkt =>
    Canonical f ∧ seqNo = UInt8.ofNat n ∧ buildUdp f seqNo = .ok pkt

/-- The sequence number that is drawn and whose send is not over. -/
def drawn (s : UdpLink W) : ℕ :=
  match s.txOwner with
  | none => 0
  | some w =>
    match s.writers w with
    | .sending _ _ _ => 1
    | _ => 0

/-- A send that is over has sent a beginning of the datagram, and all of it exactly if the
write has succeeded. -/
structure Honest (a : Attempt) : Prop where
  built : Canonical a.frame
  datagram : ∃ image, buildUdp a.frame a.seqNo = .ok image ∧
    (a.ok = true ↔ a.datagram = some image) ∧ ∀ b, a.datagram = some b → b <+: image

structure Inv (s : UdpLink W) : Prop where
  exclusive : ∀ w, (s.writers w).held.isSome = true ↔ s.txOwner = some w
  carried : ∀ w, Carries s.log.length (s.writers w)
  seq : s.seq = UInt8.ofNat (s.log.length + drawn s)
  numbered : s.log.map Attempt.seqNo = (List.range s.log.length).map UInt8.ofNat
  honest : ∀ a ∈ s.log, Honest a
  sound : s.poisoned = false

theorem connected_inv : Inv (connected W) where
  exclusive _ := iff_of_false (by simp [connected, WriterPc.held]) (by simp [connected])
  carried _ := trivial
  seq := rfl
  numbered := rfl
  honest _ ha := absurd ha List.not_mem_nil
  sound := rfl

theorem buildUdp_eq {f : Frame} (hf : Canonical f) (seqNo : UInt8) :
    buildUdp f seqNo = .ok ([2, 0, seqNo] ++ toBe16 1 ++ wireImage f) :=
  encodeFrame_eq _ f hf.len_le_max

theorem carries_of_held {n m : ℕ} {pc : WriterPc} (hpc : pc.held = none) (h : Carries n pc) :
    Carries m pc := by
  cases pc with
  | building | sending => cases hpc
  | idle | ready | locking => exact h

theorem owner_of_held {s : UdpLink W} (h : Inv s) {w : W} {f : Frame}
    (hpc : (s.writers w).held = some f) : s.txOwner = some w :=
  (h.exclusive w).mp (by rw [hpc]; rfl)

variable [DecidableEq W]

/-- A writer that does not hold the lock moves on without taking it. -/
theorem setWriter_inv {s : UdpLink W} (h : Inv s) {w : W} {pc : WriterPc}
    (hfree : (s.writers w).held = none) (hpc : pc.held = none)
    (hcarries : Carries s.log.length pc) : Inv (setWriter s w pc) := by
  have howner : s.txOwner ≠ some w := by
    intro hw
    have hholds := (h.exclusive w).mpr hw
    rw [hfree] at hholds
    cases hholds
  have hdrawn : drawn (setWriter s w pc) = drawn s := by
    unfold drawn
    change (match s.txOwner with | none => _ | some v => _) = _
    cases htx : s.txOwner with
    | none => rfl
    | some v =>
      have hne : v ≠ w := fun hvw => howner (hvw ▸ htx)
      simp only [setWriter, Function.update_of_ne hne]
  refine ⟨Tracks.keep h.exclusive fun v => ?_, fun v => ?_, ?_, h.numbered, h.honest, h.sound⟩
  · by_cases hv : v = w
    · subst hv
      simp only [setWriter, Function.update_self, hpc, hfree]
    · simp only [setWriter, Function.update_of_ne hv]
  · by_cases hv : v = w
    · subst hv
      simpa only [setWriter, Function.update_self] using hcarries
    · simpa only [setWriter, Function.update_of_ne hv] using h.carried v
  · rw [hdrawn]
    exact h.seq

theorem locking_inv {s : UdpLink W} (h : Inv s) {w : W} {f : Frame}
    (hpc : s.writers w = .locking f) (hfree : s.txOwner = none) :
    Inv { setWriter s w (.building f) with txOwner := some w } := by
  have hcan : Canonical f := by
    have hcarried := h.carried w
    rwa [hpc] at hcarried
  have htracks : Tracks (fun v => (s.writers v).held.isSome = true) none := hfree ▸ h.exclusive
  refine ⟨htracks.acquire ?_ fun v hv => ?_, fun v => ?_, ?_, h.numbered, h.honest, h.sound⟩
  · simp [setWriter, WriterPc.held]
  · simp only [setWriter, Function.update_of_ne hv]
  · by_cases hv : v = w
    · subst hv
      simp only [setWriter, Function.update_self]
      exact hcan
    · simpa only [setWriter, Function.update_of_ne hv] using h.carried v
  · have hseq := h.seq
    simp only [drawn, hfree] at hseq
    simpa [drawn, setWriter] using hseq

/-- The number is drawn with the datagram built. -/
theorem building_inv {s : UdpLink W} (h : Inv s) {w : W} {f : Frame} {pkt : Bytes}
    (hpc : s.writers w = .building f) (hbuild : buildUdp f s.seq = .ok pkt) :
    Inv { setWriter s w (.sending f s.seq pkt) with seq := s.seq + 1 } := by
  have hw := owner_of_held h (f := f) (by rw [hpc]; rfl)
  have hcan : Canonical f := by
    have hcarried := h.carried w
    rwa [hpc] at hcarried
  have hseq : s.seq = UInt8.ofNat s.log.length := by
    simpa [drawn, hw, hpc] using h.seq
  refine ⟨Tracks.keep h.exclusive fun v => ?_, fun v => ?_, ?_, h.numbered, h.honest, h.sound⟩
  · by_cases hv : v = w
    · subst hv
      simp only [setWriter, Function.update_self, hpc, WriterPc.held]
    · simp only [setWriter, Function.update_of_ne hv]
  · by_cases hv : v = w
    · subst hv
      simp only [setWriter, Function.update_self]
      exact ⟨hcan, hseq, hbuild⟩
    · simpa only [setWriter, Function.update_of_ne hv] using h.carried v
  · simp only [drawn, setWriter, hw, Function.update_self, hseq]
    exact (UInt8.ofNat_add ..).symm

/-- The send is over, and the lock is free again. -/
theorem finish_inv {s : UdpLink W} (h : Inv s) {w : W} {f : Frame} {seqNo : UInt8}
    {pkt : Bytes} (hpc : s.writers w = .sending f seqNo pkt) {datagram : Option Bytes} {ok : Bool}
    (hok : ok = true ↔ datagram = some pkt) (hcut : ∀ b, datagram = some b → b <+: pkt) :
    Inv (finishWrite s w ⟨f, seqNo, datagram, ok⟩) := by
  have hw := owner_of_held h (f := f) (by rw [hpc]; rfl)
  have hcarried := h.carried w
  rw [hpc] at hcarried
  obtain ⟨hcan, hnumber, hbuild⟩ := hcarried
  have htracks : Tracks (fun v => (s.writers v).held.isSome = true) (some w) := hw ▸ h.exclusive
  refine ⟨htracks.release ?_ fun v hv => ?_, fun v => ?_, ?_, ?_, fun a ha => ?_, h.sound⟩
  · simp [finishWrite, WriterPc.held]
  · simp only [finishWrite, Function.update_of_ne hv]
  · by_cases hv : v = w
    · subst hv
      simp only [finishWrite, Function.update_self]
      exact trivial
    · have hidle : (s.writers v).held = none := by
        rw [← Option.not_isSome_iff_eq_none]
        exact fun hheld => hv (htracks.exclusive hheld (by simp [hpc, WriterPc.held]))
      simp only [finishWrite, Function.update_of_ne hv]
      exact carries_of_held hidle (h.carried v)
  · have hseq := h.seq
    simpa [drawn, hw, hpc, finishWrite] using hseq
  · simp only [finishWrite, List.map_append, List.map_singleton, List.length_append,
      List.length_singleton, List.range_succ, h.numbered, hnumber]
  · rcases List.mem_append.mp ha with ha | ha
    · exact h.honest a ha
    · rw [List.mem_singleton.mp ha]
      exact ⟨hcan, pkt, hbuild, hok, hcut⟩

theorem writerGo_inv {s t : UdpLink W} (h : Inv s) {w : W}
    (hstep : writerGo s w (s.writers w) = some t) : Inv t := by
  have hcarried := h.carried w
  cases hpc : s.writers w with
  | idle =>
    rw [hpc] at hstep
    cases hstep
  | ready f =>
    rw [hpc] at hstep hcarried
    simp only [writerGo] at hstep
    split at hstep
    · obtain rfl := Option.some.inj hstep
      exact setWriter_inv h (by rw [hpc]; rfl) rfl hcarried
    · obtain rfl := Option.some.inj hstep
      exact setWriter_inv h (by rw [hpc]; rfl) rfl trivial
  | locking f =>
    rw [hpc] at hstep
    simp only [writerGo, h.sound, Bool.false_eq_true, if_false] at hstep
    split at hstep
    · cases hstep
    · rename_i hnone
      obtain rfl := Option.some.inj hstep
      exact locking_inv h hpc (Option.not_isSome_iff_eq_none.mp hnone)
  | building f =>
    rw [hpc] at hstep hcarried
    simp only [writerGo, buildUdp_eq hcarried] at hstep
    obtain rfl := Option.some.inj hstep
    exact building_inv h hpc (buildUdp_eq hcarried s.seq)
  | sending f seqNo pkt =>
    rw [hpc] at hstep
    cases hstep

theorem sendTo_inv {s t : UdpLink W} (h : Inv s) {w : W} {r : SendResult}
    (hstep : sendTo s w r (s.writers w) = some t) : Inv t := by
  cases hpc : s.writers w with
  | sending f seqNo pkt =>
    rw [hpc] at hstep
    cases r with
    | sent n =>
      simp only [sendTo] at hstep
      split at hstep
      · rename_i hn
        obtain rfl := Option.some.inj hstep
        refine finish_inv h hpc ?_ ?_
        · rw [decide_eq_true_iff, Option.some.injEq, List.take_eq_self_iff]
          omega
        · rintro b hb
          obtain rfl := Option.some.inj hb
          exact List.take_prefix n pkt
      · cases hstep
    | failed =>
      obtain rfl := Option.some.inj hstep
      exact finish_inv h hpc (by simp) (by simp)
  | idle | ready | locking | building =>
    rw [hpc] at hstep
    cases hstep

theorem step_inv {s t : UdpLink W} (h : Inv s) {l : Label W} (hstep : step s l = some t) :
    Inv t := by
  cases l with
  | canWrite w id msg dlc flag =>
    simp only [step] at hstep
    split at hstep
    · rename_i f hopen hidle hbuilt
      obtain rfl := Option.some.inj hstep
      exact setWriter_inv h (by rw [hidle]; rfl) rfl (writeFrame_canonical hbuilt)
    · cases hstep
  | write w => exact writerGo_inv h hstep
  | sendTo w r => exact sendTo_inv h hstep
  | canClose =>
    simp only [step] at hstep
    split at hstep
    · obtain rfl := Option.some.inj hstep
      exact ⟨h.exclusive, h.carried, h.seq, h.numbered, h.honest, h.sound⟩
    · cases hstep
  | close =>
    simp only [step] at hstep
    split at hstep
    · cases hstep
    · obtain rfl := Option.some.inj hstep
      exact ⟨h.exclusive, h.carried, h.seq, h.numbered, h.honest, h.sound⟩

theorem run_inv {s : UdpLink W} {ls : List (Label W)}
    (hrun : StepSystem.run step (connected W) ls = some s) : Inv s :=
  StepSystem.run_invariant (fun _ _ _ h hstep => step_inv h hstep) connected_inv hrun

theorem parse_built {f : Frame} (hf : Canonical f) {seqNo : UInt8} {image : Bytes}
    (h : buildUdp f seqNo = .ok image) : parseUdp image = .ok (some [f]) := by
  obtain ⟨datagram, hdatagram, hparse⟩ := (transports_deliver hf seqNo).1
  obtain rfl := Except.ok.inj (hdatagram.symm.trans h)
  exact hparse

/-- In every interleaving the sends that are over carry the numbers 0, 1, 2 and so on, modulo
256, in the order of the tx lock, however many of them failed. What the socket has sent of
one is a beginning of the datagram of its frame, and the whole of it exactly if the write has
succeeded; and no write ever leaves the lock poisoned. -/
theorem udp_sequence (ls : List (Label W)) (s : UdpLink W)
    (hrun : StepSystem.run step (connected W) ls = some s) :
    s.log.map Attempt.seqNo = (List.range s.log.length).map UInt8.ofNat ∧
    (∀ a ∈ s.log, ∃ image, buildUdp a.frame a.seqNo = .ok image ∧
      parseUdp image = .ok (some [a.frame]) ∧ (a.ok = true ↔ a.datagram = some image) ∧
      ∀ b, a.datagram = some b → b <+: image) ∧
    s.poisoned = false := by
  have hinv := run_inv hrun
  refine ⟨hinv.numbered, fun a ha => ?_, hinv.sound⟩
  obtain ⟨hcan, image, hbuild, hok, hcut⟩ := hinv.honest a ha
  exact ⟨image, hbuild, parse_built hcan hbuild, hok, hcut⟩

/-- Two threads write at the same time; the socket cuts the first datagram. -/
def cutThenWhole : List (Label Bool) :=
  [.canWrite true 1 none 0 0, .canWrite false 2 none 0 0, .write true, .write false,
    .write true, .write true, .sendTo true (.sent 3), .write false, .write false,
    .sendTo false (.sent 10)]

theorem udp_sequence_cutThenWhole :
    ∃ s : UdpLink Bool, s.log.map Attempt.ok = [false, true] ∧
      s.log.map Attempt.seqNo = (List.range s.log.length).map UInt8.ofNat := by
  have hrun : ∃ s, StepSystem.run step (connected Bool) cutThenWhole = some s ∧
      s.log.map Attempt.ok = [false, true] := ⟨_, rfl, rfl⟩
  obtain ⟨s, hrun, hok⟩ := hrun
  exact ⟨s, hok, (udp_sequence cutThenWhole s hrun).1⟩

end Kvasilloni.UdpTransmit
