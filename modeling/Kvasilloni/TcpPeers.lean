import Kvasilloni.TransmitIntegrity
import Kvasilloni.Library.Progress

/-!
Two peers on one TCP connection, from the handshake on. Either side is a whole channel: its
writers and closers are those of the sending side, and its RX loop takes the bytes of the
other side in whatever pieces the socket hands over. When a piece arrives and how long it
is, is open, and so is when a socket fails.
-/
namespace Kvasilloni.TcpPeers

open CheckedMemory SelfDelimiting Frames Grammar Streams Transmit TransmitIntegrity

/-- Why the loop of `tcp_rx_loop` was left: `running` was clear, the decoder asked for
nothing or for more than the buffer holds, a read failed, or the decoder gave up. -/
inductive Leaving
  | stopped
  | broken
  | readFailed
  | desynced
  deriving DecidableEq

/-- The RX thread: at the head of the loop, in `read_exact` with the bytes it has got so
far, or behind the loop. -/
inductive LoopPc
  | head
  | reading (got : Bytes)
  | left (why : Leaving)

structure RxLoop where
  rx : RxStream
  pc : LoopPc
  pushed : List Frame

/-- One side of the connection: in `write_all` of the banner, in `read_exact` of the other
banner, behind a handshake that succeeded, or behind one that did not. -/
inductive Phase (W C : Type)
  | greeting (n : ℕ)
  | expecting (buf : Bytes)
  | connected (link : Link W C) (loop : RxLoop)
  | refused (sent : Bytes)

/-- A side, with the number of bytes it has read from the other one. -/
structure Endpoint (W C : Type) where
  phase : Phase W C
  read : ℕ

/-- What this side has put into the connection. -/
def Phase.sent {W C : Type} : Phase W C → Bytes
  | .greeting n => connectV1.take n
  | .expecting _ => connectV1
  | .connected link _ => link.sent
  | .refused sent => sent

/-- The frames of the writes that the socket has taken whole. -/
def Phase.offered {W C : Type} : Phase W C → List Frame
  | .connected link _ => succeeded link ++ completed link
  | .greeting _ | .expecting _ | .refused _ => []

inductive Act (W C : Type)
  | greet (k : ℕ)
  | recv (k : ℕ)
  | go
  | fail
  | api (l : Label W C)

variable {W C : Type}

/-- The loop is left; what follows it is the work of the link. -/
def leave (link : Link W C) (loop : RxLoop) (why : Leaving) : Option (Phase W C) :=
  (rxGo link).map fun link => .connected link { loop with pc := .left why }

/-- The next statement of the RX thread, or `none` where it waits for bytes. -/
def loopGo (link : Link W C) (loop : RxLoop) : Option (Phase W C) :=
  match loop.pc with
  | .head =>
    if link.running = false then leave link loop .stopped
    else if loop.rx.need = 0 ∨ loop.rx.need > 80 then leave link loop .broken
    else some (.connected link { loop with pc := .reading [] })
  | .reading got =>
    if got.length < loop.rx.need then none
    else match rxChunk loop.rx got with
      | .next rx => some (.connected link { loop with rx := rx, pc := .head })
      | .push f (some rx) => some (.connected link ⟨rx, .head, loop.pushed ++ [f]⟩)
      | .push f none => leave link { loop with pushed := loop.pushed ++ [f] } .broken
      | .stop => leave link loop .desynced
  | .left _ => (rxGo link).map fun link => .connected link loop

/-- The next statement of the thread that connects, or of the RX thread once it runs. -/
def go : Phase W C → Option (Phase W C)
  | .greeting n => if n = connectV1.length then some (.expecting []) else none
  | .expecting buf =>
    if buf.length = 12 then
      match connect W C buf with
      | some link => some (.connected link ⟨primed, .head, []⟩)
      | none => some (.refused connectV1)
    else none
  | .connected link loop => loopGo link loop
  | .refused _ => none

/-- The socket accepts some more bytes of the banner. -/
def greet (k : ℕ) : Phase W C → Option (Phase W C)
  | .greeting n =>
    if 0 < k ∧ n + k ≤ connectV1.length then some (.greeting (n + k)) else none
  | _ => none

/-- A read that is under way gets a piece, which is no longer than what it still wants. -/
def take (piece : Bytes) : Phase W C → Option (Phase W C)
  | .expecting buf =>
    if buf.length + piece.length ≤ 12 then some (.expecting (buf ++ piece)) else none
  | .connected link loop =>
    match loop.pc with
    | .reading got =>
      if got.length + piece.length ≤ loop.rx.need then
        some (.connected link { loop with pc := .reading (got ++ piece) })
      else none
    | _ => none
  | _ => none

/-- An operation on the socket fails, at the latest when its timeout is over. -/
def fail : Phase W C → Option (Phase W C)
  | .greeting n => some (.refused (connectV1.take n))
  | .expecting _ => some (.refused connectV1)
  | .connected link loop =>
    match loop.pc with
    | .reading got => if got.length < loop.rx.need then leave link loop .readFailed else none
    | _ => none
  | .refused _ => none

/-- A statement of the writers and closers; those of the RX thread are in `go`. -/
def api [DecidableEq W] [DecidableEq C] (l : Label W C) : Phase W C → Option (Phase W C)
  | .connected link loop =>
    match l with
    | .rx => none
    | l => (Transmit.step link l).map fun link => .connected link loop
  | _ => none

/-- One step of a side, given what the other one has sent so far. -/
def act [DecidableEq W] [DecidableEq C] (sent : Bytes) (e : Endpoint W C) :
    Act W C → Option (Endpoint W C)
  | .greet k => (greet k e.phase).map fun phase => { e with phase := phase }
  | .recv k =>
    if 0 < k ∧ e.read + k ≤ sent.length then
      (take ((sent.drop e.read).take k) e.phase).map fun phase => ⟨phase, e.read + k⟩
    else none
  | .go => (go e.phase).map fun phase => { e with phase := phase }
  | .fail => (fail e.phase).map fun phase => { e with phase := phase }
  | .api l => (api l e.phase).map fun phase => { e with phase := phase }

/-- The two sides of the connection. -/
abbrev Peers (W C : Type) := Bool → Endpoint W C

def start (W C : Type) : Peers W C := fun _ => ⟨.greeting 0, 0⟩

def step [DecidableEq W] [DecidableEq C] (s : Peers W C) (l : Bool × Act W C) :
    Option (Peers W C) :=
  (act (s (!l.1)).phase.sent (s l.1) l.2).map (Function.update s l.1)

/-! ### Reading the beginning of a stream of frames -/

/-- Whole frames, and behind them at most one that is cut short. -/
def Framed (body : Bytes) (fs : List Frame) : Prop :=
  (∀ f ∈ fs, Canonical f) ∧ ∃ tail, body = fs.flatMap wireImage ++ tail ∧
    (tail = [] ∨ ∃ g, Canonical g ∧ ProperPrefix tail (wireImage g))

theorem Framed.stuck {body : Bytes} {fs : List Frame} (h : Framed body fs) :
    ∃ tail, body = fs.flatMap wireImage ++ tail ∧ frameCode.Stuck tail := by
  obtain ⟨-, tail, hbody, htail⟩ := h
  refine ⟨tail, hbody, ?_⟩
  rcases htail with rfl | ⟨g, hg, hp⟩
  · exact frameCode.stuck_nil
  · exact frameCode.stuck_of_proper_prefix hg hp.1 hp.2

/-- The stream begins a sequence of whole frames. -/
theorem Framed.completion {body : Bytes} {fs : List Frame} (h : Framed body fs) :
    ∃ gs : List Frame, (∀ g ∈ gs, Canonical g) ∧ body <+: gs.flatMap wireImage := by
  obtain ⟨hfs, tail, rfl, htail⟩ := h
  rcases htail with rfl | ⟨g, hg, hp, -⟩
  · exact ⟨fs, hfs, by rw [List.append_nil]⟩
  · refine ⟨fs ++ [g], ?_, ?_⟩
    · intro f hf
      rcases List.mem_append.mp hf with hf | hf
      · exact hfs f hf
      · rw [List.mem_singleton.mp hf]
        exact hg
    · rw [List.flatMap_append, List.flatMap_singleton]
      exact (List.prefix_append_right_inj _).mpr hp

theorem Framed.decode {body : Bytes} {fs : List Frame} (h : Framed body fs) :
    (decodeTcp body).frames = fs := by
  obtain ⟨tail, rfl, hstuck⟩ := h.stuck
  rw [decodeTcp_images h.1, decodeTcp_stuck hstuck, List.append_nil]

theorem Framed.decode_prefix {body got : Bytes} {fs : List Frame} (h : Framed body fs)
    (hgot : got <+: body) : (decodeTcp got).frames <+: fs := by
  obtain ⟨tail, hbody, hstuck⟩ := h.stuck
  obtain ⟨rem, hsplit, hall, -⟩ := decodeTcp_spec got
  refine frameCode.prefix_of_stuck hall h.1 hstuck ?_
  rw [hsplit, hbody] at hgot
  exact (List.prefix_append _ _).trans hgot

theorem illegal_of_prefix {rem s : Bytes} (h : readFrame rem = .illegal) (hp : rem <+: s) :
    readFrame s = .illegal := by
  obtain ⟨a, b, c, d, raw, rest, rfl, hraw⟩ := (readFrame_illegal_iff rem).mp h
  obtain ⟨t, rfl⟩ := hp
  exact (readFrame_illegal_iff _).mpr ⟨a, b, c, d, raw, rest ++ t, rfl, hraw⟩

/-- No beginning of whole frames, wherever it is cut, makes the decoder give up. -/
theorem Framed.legal {body got : Bytes} {fs : List Frame} (h : Framed body fs)
    (hgot : got <+: body) : (decodeTcp got).ending ≠ .error := by
  obtain ⟨gs, hgs, hwhole⟩ := h.completion
  obtain ⟨rem, hsplit, hall, hend⟩ := decodeTcp_spec got
  rcases hend with ⟨hillegal, -, -⟩ | ⟨-, hwaiting⟩
  · exfalso
    have hp : (decodeTcp got).frames.flatMap wireImage ++ rem <+: gs.flatMap wireImage :=
      hsplit ▸ hgot.trans hwhole
    obtain ⟨gs', rfl⟩ := frameCode.prefix_of_stuck hall hgs frameCode.stuck_nil
      ((List.prefix_append _ rem).trans (hp.trans (List.prefix_append _ [])))
    rw [List.flatMap_append, List.prefix_append_right_inj] at hp
    have hread := illegal_of_prefix hillegal hp
    cases gs' with
    | nil =>
      rw [List.flatMap_nil] at hread
      cases hread
    | cons g gs' =>
      rw [List.flatMap_cons, readFrame_wireImage (hgs g (by simp))] at hread
      cases hread
  · rw [hwaiting]
    intro h
    cases h

/-! ### What the loop has made of the bytes it has read -/

/-- The run that pushes these frames first. -/
def afterFrames (fs : List Frame) (r : StreamRun) : StreamRun := { r with frames := fs ++ r.frames }

/-- Whatever follows the bytes read so far, decoding all of it comes to the frames pushed
and to what the loop makes of the rest from where it stands. -/
def Resumes (body : Bytes) (loop : RxLoop) (got : Bytes) : Prop :=
  ∀ t, decodeTcp (body ++ t) = afterFrames loop.pushed (tcpRxLoop loop.rx (got ++ t))

def LoopInv (loop : RxLoop) (body : Bytes) : Prop :=
  match loop.pc with
  | .head => Expecting loop.rx ∧ Resumes body loop []
  | .reading got =>
    Expecting loop.rx ∧ got.length ≤ loop.rx.need ∧ Resumes body loop got
  | .left why =>
    (decodeTcp body).frames = loop.pushed ∧ why ≠ .broken ∧
      (why = .desynced → (decodeTcp body).ending = .error)

/-- The read that is under way has not got all it wants, or there is none. -/
def AtRest (loop : RxLoop) : Prop :=
  match loop.pc with
  | .reading got => got.length < loop.rx.need
  | .head | .left _ => True

theorem primed_inv : LoopInv ⟨primed, .head, []⟩ [] :=
  ⟨primed_expecting, fun _ => rfl⟩

theorem Resumes.frames {body got : Bytes} {loop : RxLoop} (h : Resumes body loop got) :
    (decodeTcp body).frames = loop.pushed ++ (tcpRxLoop loop.rx got).frames := by
  have hnow := h []
  rw [List.append_nil, List.append_nil] at hnow
  exact congrArg StreamRun.frames hnow

theorem Resumes.waiting {body got : Bytes} {loop : RxLoop} (h : Resumes body loop got)
    (hrx : Expecting loop.rx) (hshort : got.length < loop.rx.need) :
    (decodeTcp body).frames = loop.pushed := by
  rw [h.frames, tcpRxLoop_waiting loop.rx got hrx.pos hrx.le hshort, List.append_nil]

/-- What has been pushed is decoded from the bytes read, and where the loop is at rest it is
all of it. -/
theorem LoopInv.frames {loop : RxLoop} {body : Bytes} (h : LoopInv loop body) :
    loop.pushed <+: (decodeTcp body).frames ∧
      (AtRest loop → (decodeTcp body).frames = loop.pushed) := by
  unfold LoopInv AtRest at *
  cases hpc : loop.pc with
  | head =>
    rw [hpc] at h
    have hall := h.2.waiting h.1 h.1.pos
    exact ⟨hall ▸ List.prefix_rfl, fun _ => hall⟩
  | reading got =>
    rw [hpc] at h
    obtain ⟨hrx, -, hresumes⟩ := h
    refine ⟨?_, fun hshort => hresumes.waiting hrx hshort⟩
    rw [hresumes.frames]
    exact List.prefix_append _ _
  | left why =>
    rw [hpc] at h
    exact ⟨h.1 ▸ List.prefix_rfl, fun _ => h.1⟩

/-- A whole chunk has been handed to the decoder. -/
theorem Resumes.chunk {body got : Bytes} {loop : RxLoop} (h : Resumes body loop got)
    (hrx : Expecting loop.rx) (hwhole : got.length = loop.rx.need) (t : Bytes) :
    decodeTcp (body ++ t) = afterFrames loop.pushed
      (match rxChunk loop.rx got with
        | .next rx => tcpRxLoop rx t
        | .push f (some rx) => (tcpRxLoop rx t).push f
        | .push f none => ⟨[f], .broken, t⟩
        | .stop => ⟨[], .error, t⟩) := by
  have hstep := tcpRxLoop_step loop.rx got t hwhole hrx.pos hrx.le
  exact (h t).trans (congrArg (afterFrames loop.pushed) hstep)

theorem leave_eq {link : Link W C} {loop : RxLoop} {why : Leaving} {phase : Phase W C}
    (h : leave link loop why = some phase) :
    ∃ link', rxGo link = some link' ∧ phase = .connected link' { loop with pc := .left why } := by
  obtain ⟨link', hlink, rfl⟩ := Option.map_eq_some_iff.mp h
  exact ⟨link', hlink, rfl⟩

/-- Where a step of the RX thread leaves the link and the loop. -/
theorem loopGo_inv {link : Link W C} {loop : RxLoop} {phase : Phase W C} {body : Bytes}
    (hloop : LoopInv loop body) (h : loopGo link loop = some phase) :
    ∃ link' loop', phase = .connected link' loop' ∧ LoopInv loop' body ∧
      (link' = link ∨ rxGo link = some link') := by
  unfold loopGo at h
  cases hpc : loop.pc with
  | head =>
    unfold LoopInv at hloop
    rw [hpc] at h hloop
    obtain ⟨hrx, hresumes⟩ := hloop
    dsimp only at h
    split at h
    · obtain ⟨link', hlink, rfl⟩ := leave_eq h
      exact ⟨link', _, rfl, ⟨hresumes.waiting hrx hrx.pos, by simp, by simp⟩, Or.inr hlink⟩
    · split at h
      · have hpos := hrx.pos
        have hle := hrx.le
        omega
      · obtain rfl := Option.some.inj h
        exact ⟨link, _, rfl, ⟨hrx, Nat.zero_le _, hresumes⟩, Or.inl rfl⟩
  | reading got =>
    unfold LoopInv at hloop
    rw [hpc] at h hloop
    obtain ⟨hrx, hle, hresumes⟩ := hloop
    dsimp only at h
    split at h
    · cases h
    · have hchunk := hresumes.chunk hrx (by omega)
      split at h
      · rename_i rx hnext
        obtain rfl := Option.some.inj h
        rw [hnext] at hchunk
        exact ⟨link, _, rfl, ⟨rxChunk_expecting hrx hnext, hchunk⟩, Or.inl rfl⟩
      · rename_i f rx hpush
        obtain rfl := Option.some.inj h
        obtain rfl := Option.some.inj (rxChunk_push hpush)
        rw [hpush] at hchunk
        refine ⟨link, _, rfl, ⟨primed_expecting, fun t => ?_⟩, Or.inl rfl⟩
        rw [hchunk t]
        simp only [afterFrames, StreamRun.push, List.append_assoc, List.singleton_append,
          List.nil_append]
      · rename_i f hpush
        cases rxChunk_push hpush
      · rename_i hstop
        obtain ⟨link', hlink, rfl⟩ := leave_eq h
        have hnow := hchunk []
        rw [hstop, List.append_nil] at hnow
        refine ⟨link', _, rfl, ⟨?_, by simp, fun _ => ?_⟩, Or.inr hlink⟩
        · rw [hnow]
          exact List.append_nil _
        · rw [hnow]
          rfl
  | left why =>
    rw [hpc] at h
    obtain ⟨link', hlink, rfl⟩ := Option.map_eq_some_iff.mp h
    exact ⟨link', loop, rfl, hloop, Or.inr hlink⟩

/-! ### Invariants of the connection -/

/-- What a side is, given the bytes it has read. -/
def PhaseInv (phase : Phase W C) (got : Bytes) : Prop :=
  match phase with
  | .greeting n => n ≤ connectV1.length ∧ got = []
  | .expecting buf => buf = got ∧ buf.length ≤ 12
  | .connected link loop =>
    TransmitIntegrity.Inv link ∧ ∃ body, got = connectV1 ++ body ∧ LoopInv loop body
  | .refused sent => sent <+: connectV1

/-- A side has read a beginning of what the other one has sent. -/
structure EndpointInv (e : Endpoint W C) (sent : Bytes) : Prop where
  read_le : e.read ≤ sent.length
  phase : PhaseInv e.phase (sent.take e.read)

def Inv (s : Peers W C) : Prop := ∀ b, EndpointInv (s b) (s (!b)).phase.sent

theorem start_inv : Inv (start W C) := by
  intro b
  exact ⟨Nat.zero_le _, Nat.zero_le _, rfl⟩

/-- What the other side sends later does not matter to the bytes read. -/
theorem EndpointInv.more {e : Endpoint W C} {sent sent' : Bytes} (h : EndpointInv e sent)
    (hsent : sent <+: sent') : EndpointInv e sent' := by
  obtain ⟨t, rfl⟩ := hsent
  refine ⟨?_, ?_⟩
  · rw [List.length_append]
    exact Nat.le_add_right_of_le h.read_le
  · rw [List.take_append_of_le_length h.read_le]
    exact h.phase

theorem rxGo_outside {link link' : Link W C} (h : rxGo link = some link') :
    Outside link link' := by
  classical exact step_outside (l := .rx) rfl h

theorem outside_sent {link link' : Link W C} (h : Outside link link') :
    link.sent <+: link'.sent := h.sent ▸ List.prefix_rfl

/-- What is in the connection stays there. -/
theorem step_sent [DecidableEq W] [DecidableEq C] {link link' : Link W C} {l : Label W C}
    (h : Transmit.step link l = some link') : link.sent <+: link'.sent := by
  cases l with
  | canWrite w id msg dlc flag =>
    simp only [Transmit.step] at h
    split at h
    · obtain rfl := Option.some.inj h
      exact List.prefix_rfl
    · cases h
  | write w => exact (writerGo_sent h).1 ▸ List.prefix_rfl
  | send w k =>
    simp only [Transmit.step, Transmit.send] at h
    split at h
    · split at h
      · obtain rfl := Option.some.inj h
        exact List.prefix_append _ _
      · cases h
    · cases h
  | sendFail w =>
    simp only [Transmit.step, sendFail] at h
    split at h
    · split at h
      · obtain rfl := Option.some.inj h
        exact List.prefix_rfl
      · cases h
    · cases h
  | canClose | drop | close | rx => exact outside_sent (step_outside rfl h)

/-- A step leaves a phase that fits the bytes read by then, and takes nothing back that has
been sent. -/
structure Moved (phase phase' : Phase W C) (got' : Bytes) : Prop where
  inv : PhaseInv phase' got'
  sent : phase.sent <+: phase'.sent

theorem greet_moved {phase phase' : Phase W C} {k : ℕ} {got : Bytes} (hinv : PhaseInv phase got)
    (h : greet k phase = some phase') : Moved phase phase' got := by
  cases phase with
  | greeting n =>
    simp only [greet] at h
    split at h
    · rename_i hk
      obtain rfl := Option.some.inj h
      exact ⟨⟨hk.2, hinv.2⟩, List.take_prefix_take_left (Nat.le_add_right n k)⟩
    · cases h
  | expecting | connected | refused => cases h

theorem take_moved {phase phase' : Phase W C} {piece got : Bytes} (hinv : PhaseInv phase got)
    (h : take piece phase = some phase') : Moved phase phase' (got ++ piece) := by
  cases phase with
  | expecting buf =>
    simp only [take] at h
    split at h
    · rename_i hroom
      obtain rfl := Option.some.inj h
      obtain ⟨rfl, -⟩ := hinv
      exact ⟨⟨rfl, by rwa [List.length_append]⟩, List.prefix_rfl⟩
    · cases h
  | connected link loop =>
    obtain ⟨hlink, body, rfl, hloop⟩ := hinv
    simp only [take] at h
    unfold LoopInv at hloop
    split at h
    · rename_i got hpc
      rw [hpc] at hloop
      obtain ⟨hrx, -, hresumes⟩ := hloop
      split at h
      · rename_i hroom
        obtain rfl := Option.some.inj h
        refine ⟨⟨hlink, body ++ piece, List.append_assoc .., hrx, ?_, fun t => ?_⟩,
          List.prefix_rfl⟩
        · rwa [List.length_append]
        · rw [List.append_assoc, List.append_assoc]
          exact hresumes (piece ++ t)
      · cases h
    · cases h
  | greeting | refused => cases h

theorem connect_sent {received : Bytes} {link : Link W C}
    (h : connect W C received = some link) : received = connectV1 ∧ link.sent = connectV1 := by
  obtain ⟨banner, hbanner, rfl⟩ := Option.map_eq_some_iff.mp h
  unfold handshake at hbanner
  split at hbanner
  · rename_i hreceived
    exact ⟨hreceived, (Option.some.inj hbanner).symm⟩
  · cases hbanner

theorem go_moved {phase phase' : Phase W C} {got : Bytes} (hinv : PhaseInv phase got)
    (h : go phase = some phase') : Moved phase phase' got := by
  cases phase with
  | greeting n =>
    simp only [go] at h
    split at h
    · rename_i hn
      obtain rfl := Option.some.inj h
      obtain ⟨-, rfl⟩ := hinv
      exact ⟨⟨rfl, Nat.zero_le _⟩, List.take_prefix _ _⟩
    · cases h
  | expecting buf =>
    obtain ⟨rfl, -⟩ := hinv
    simp only [go] at h
    split at h
    · split at h
      · rename_i link hconnect
        obtain rfl := Option.some.inj h
        obtain ⟨hbuf, hsent⟩ := connect_sent hconnect
        refine ⟨⟨connect_inv hconnect, [], ?_, primed_inv⟩, ?_⟩
        · rw [hbuf, List.append_nil]
        · exact ⟨[], by rw [List.append_nil]; exact hsent.symm⟩
      · obtain rfl := Option.some.inj h
        exact ⟨List.prefix_rfl, List.prefix_rfl⟩
    · cases h
  | connected link loop =>
    obtain ⟨hlink, body, rfl, hloop⟩ := hinv
    obtain ⟨link', loop', rfl, hloop', hlink'⟩ := loopGo_inv hloop h
    rcases hlink' with rfl | hrx
    · exact ⟨⟨hlink, body, rfl, hloop'⟩, List.prefix_rfl⟩
    · have hout := rxGo_outside hrx
      exact ⟨⟨hout.inv hlink, body, rfl, hloop'⟩, outside_sent hout⟩
  | refused => cases h

theorem fail_moved {phase phase' : Phase W C} {got : Bytes} (hinv : PhaseInv phase got)
    (h : fail phase = some phase') : Moved phase phase' got := by
  cases phase with
  | greeting n =>
    obtain rfl := Option.some.inj h
    exact ⟨List.take_prefix _ _, List.prefix_rfl⟩
  | expecting buf =>
    obtain rfl := Option.some.inj h
    exact ⟨List.prefix_rfl, List.prefix_rfl⟩
  | connected link loop =>
    obtain ⟨hlink, body, rfl, hloop⟩ := hinv
    simp only [fail] at h
    unfold LoopInv at hloop
    split at h
    · rename_i piece hpc
      rw [hpc] at hloop
      obtain ⟨hrx, -, hresumes⟩ := hloop
      split at h
      · rename_i hshort
        obtain ⟨link', hlink', rfl⟩ := leave_eq h
        have hout := rxGo_outside hlink'
        refine ⟨⟨hout.inv hlink, body, rfl, ?_⟩, outside_sent hout⟩
        exact ⟨hresumes.waiting hrx hshort, by simp, by simp⟩
      · cases h
    · cases h
  | refused => cases h

theorem api_moved [DecidableEq W] [DecidableEq C] {phase phase' : Phase W C} {l : Label W C}
    {got : Bytes} (hinv : PhaseInv phase got) (h : api l phase = some phase') :
    Moved phase phase' got := by
  cases phase with
  | connected link loop =>
    obtain ⟨hlink, hbody⟩ := hinv
    have hstep : ∃ link', Transmit.step link l = some link' ∧ phase' = .connected link' loop := by
      simp only [api] at h
      split at h
      · cases h
      · obtain ⟨link', hlink', rfl⟩ := Option.map_eq_some_iff.mp h
        exact ⟨link', hlink', rfl⟩
    obtain ⟨link', hlink', rfl⟩ := hstep
    exact ⟨⟨step_inv hlink hlink', hbody⟩, step_sent hlink'⟩
  | greeting | expecting | refused => cases h

theorem act_moved [DecidableEq W] [DecidableEq C] {sent : Bytes} {e e' : Endpoint W C}
    {a : Act W C} (hinv : EndpointInv e sent) (h : act sent e a = some e') :
    EndpointInv e' sent ∧ e.phase.sent <+: e'.phase.sent := by
  cases a with
  | recv k =>
    simp only [act] at h
    split at h
    · rename_i hk
      obtain ⟨phase', htake, rfl⟩ := Option.map_eq_some_iff.mp h
      have hmoved := take_moved hinv.phase htake
      rw [← List.take_add] at hmoved
      exact ⟨⟨hk.2, hmoved.inv⟩, hmoved.sent⟩
    · cases h
  | greet k =>
    obtain ⟨phase', hphase, rfl⟩ := Option.map_eq_some_iff.mp h
    have hmoved := greet_moved hinv.phase hphase
    exact ⟨⟨hinv.read_le, hmoved.inv⟩, hmoved.sent⟩
  | go =>
    obtain ⟨phase', hphase, rfl⟩ := Option.map_eq_some_iff.mp h
    have hmoved := go_moved hinv.phase hphase
    exact ⟨⟨hinv.read_le, hmoved.inv⟩, hmoved.sent⟩
  | fail =>
    obtain ⟨phase', hphase, rfl⟩ := Option.map_eq_some_iff.mp h
    have hmoved := fail_moved hinv.phase hphase
    exact ⟨⟨hinv.read_le, hmoved.inv⟩, hmoved.sent⟩
  | api l =>
    obtain ⟨phase', hphase, rfl⟩ := Option.map_eq_some_iff.mp h
    have hmoved := api_moved hinv.phase hphase
    exact ⟨⟨hinv.read_le, hmoved.inv⟩, hmoved.sent⟩

theorem prefix_eq {s : Bytes} (hs : s <+: connectV1) (hlong : connectV1.length ≤ s.length) :
    s = connectV1 :=
  hs.eq_of_length (le_antisymm hs.length_le hlong)

theorem framed_nil : Framed [] [] :=
  ⟨fun _ hf => absurd hf List.not_mem_nil, [], rfl, Or.inl rfl⟩

/-- Behind its banner a side sends the frames it has taken whole, and part of one more. -/
theorem PhaseInv.framed {phase : Phase W C} {got : Bytes} (h : PhaseInv phase got)
    (hlong : connectV1.length ≤ phase.sent.length) :
    ∃ body, phase.sent = connectV1 ++ body ∧ Framed body phase.offered := by
  cases phase with
  | greeting n =>
    refine ⟨[], ?_, framed_nil⟩
    rw [List.append_nil]
    exact prefix_eq (List.take_prefix n connectV1) hlong
  | expecting buf => exact ⟨[], (List.append_nil _).symm, framed_nil⟩
  | connected link loop =>
    obtain ⟨hlink, -⟩ := h
    obtain ⟨tail, hsent, htail, -⟩ := hlink.stream
    refine ⟨_, hsent.trans (List.append_assoc ..), hlink.whole_canonical, tail, rfl, ?_⟩
    rcases htail with hnil | ⟨f, hf, hp⟩
    · exact Or.inl hnil
    · exact Or.inr ⟨f, hlink.cut_canonical hf, hp⟩
  | refused sent =>
    refine ⟨[], ?_, framed_nil⟩
    rw [List.append_nil]
    exact prefix_eq h hlong

/-- What a connected side has read, behind the banner of the other one. -/
theorem Inv.body {s : Peers W C} (hinv : Inv s) {b : Bool} {link : Link W C} {loop : RxLoop}
    (hb : (s b).phase = .connected link loop) :
    ∃ body got, (s (!b)).phase.sent = connectV1 ++ body ∧
      Framed body (s (!b)).phase.offered ∧ got <+: body ∧ LoopInv loop got ∧
      ((s b).read = (s (!b)).phase.sent.length → got = body) := by
  obtain ⟨hread, hphase⟩ := hinv b
  rw [hb] at hphase
  obtain ⟨-, got, hgot, hloop⟩ := hphase
  have hlen := congrArg List.length hgot
  rw [List.length_take, List.length_append] at hlen
  obtain ⟨body, hsent, hframed⟩ := (hinv (!b)).phase.framed (by omega)
  refine ⟨body, got, hsent, hframed, ?_, hloop, fun hall => ?_⟩
  · have hp : (s (!b)).phase.sent.take (s b).read <+: (s (!b)).phase.sent :=
      List.take_prefix _ _
    rw [hgot, hsent, List.prefix_append_right_inj] at hp
    exact hp
  · rw [hall, List.take_length, hsent] at hgot
    exact (List.append_cancel_left hgot).symm

section Runs

variable [DecidableEq W] [DecidableEq C]

theorem step_peers {s t : Peers W C} {l : Bool × Act W C} (hinv : Inv s)
    (h : step s l = some t) : Inv t := by
  obtain ⟨b, a⟩ := l
  obtain ⟨e, hact, rfl⟩ := Option.map_eq_some_iff.mp h
  obtain ⟨hself, hsent⟩ := act_moved (hinv b) hact
  intro c
  by_cases hc : c = b
  · subst hc
    rw [Function.update_self, Function.update_of_ne (Bool.not_ne_self c)]
    exact hself
  · have hother : (!c) = b := by
      cases c <;> cases b <;> simp at hc ⊢
    rw [Function.update_of_ne hc, hother, Function.update_self]
    have hpeer := hinv c
    rw [hother] at hpeer
    exact hpeer.more hsent

theorem run_peers {ls : List (Bool × Act W C)} {s : Peers W C}
    (hrun : StepSystem.run step (start W C) ls = some s) : Inv s :=
  StepSystem.run_invariant (fun _ _ _ h hstep => step_peers h hstep) start_inv hrun

/-- In every interleaving of the two peers, the frames that a side has pushed are the first
ones that the other side's socket has taken whole, in their order; all of them once
everything sent has been read. The banner takes no byte of a frame with it. And the loop is
never left because of what it has read, not even when the other side fails in the middle of
a frame. -/
theorem peers_deliver (ls : List (Bool × Act W C)) (s : Peers W C)
    (hrun : StepSystem.run step (start W C) ls = some s) (b : Bool) (link : Link W C)
    (loop : RxLoop) (hb : (s b).phase = .connected link loop) :
    loop.pushed <+: (s (!b)).phase.offered ∧
    (AtRest loop → (s b).read = (s (!b)).phase.sent.length →
      loop.pushed = (s (!b)).phase.offered) ∧
    (∀ why, loop.pc = .left why → why = .stopped ∨ why = .readFailed) := by
  obtain ⟨body, got, -, hframed, hgot, hloop, hall⟩ := (run_peers hrun).body hb
  obtain ⟨hpushed, hrest⟩ := hloop.frames
  refine ⟨hpushed.trans (hframed.decode_prefix hgot), fun hidle hread => ?_, fun why hwhy => ?_⟩
  · rw [← hrest hidle, hall hread, hframed.decode]
  · have hlegal := hframed.legal hgot
    unfold LoopInv at hloop
    rw [hwhy] at hloop
    obtain ⟨-, hbroken, hdesynced⟩ := hloop
    cases why with
    | stopped => exact Or.inl rfl
    | readFailed => exact Or.inr rfl
    | broken => exact absurd rfl hbroken
    | desynced => exact absurd (hdesynced rfl) hlegal

/-- Both sides connect, one of them sends an empty frame, and the other one reads it in two
pieces. -/
def oneFrame : List (Bool × Act Unit Unit) :=
  [(true, .greet 12), (true, .go), (false, .greet 12), (false, .go), (true, .recv 12),
    (true, .go), (false, .recv 12), (false, .go), (true, .api (.canWrite () 1 none 0 0)),
    (true, .api (.write ())), (true, .api (.write ())), (true, .api (.write ())),
    (true, .api (.send () 5)), (true, .api (.write ())), (false, .go), (false, .recv 4),
    (false, .go), (false, .go), (false, .recv 1), (false, .go)]

theorem peers_deliver_oneFrame :
    ∃ (s : Peers Unit Unit) (loop : RxLoop) (f : Frame),
      loop.pushed = [f] ∧ loop.pushed <+: (s true).phase.offered := by
  have hrun : ∃ s link loop f, StepSystem.run step (start Unit Unit) oneFrame = some s ∧
      (s false).phase = .connected link loop ∧ loop.pushed = [f] := ⟨_, _, _, _, rfl, rfl, rfl⟩
  obtain ⟨s, link, loop, f, hrun, hphase, hpushed⟩ := hrun
  exact ⟨s, loop, f, hpushed, (peers_deliver oneFrame s hrun false link loop hphase).1⟩

/-! ### Everything sent can be received -/

/-- The RX thread of a side is in its loop, and nobody has told it to stop. -/
structure Receiving (s : Peers W C) (b : Bool) (link : Link W C) (loop : RxLoop) : Prop where
  phase : (s b).phase = .connected link loop
  running : link.running = true
  inside : ∀ why, loop.pc ≠ .left why

/-- What the RX thread has still to do before it can get more bytes. -/
def turns (loop : RxLoop) : ℕ :=
  match loop.pc with
  | .head => 1
  | .reading got => if got.length < loop.rx.need then 0 else 2
  | .left _ => 0

def unread (s : Peers W C) (b : Bool) : ℕ := (s (!b)).phase.sent.length - (s b).read

/-- What is left of the bytes sent and of the work on them. -/
def toRead (s : Peers W C) (b : Bool) : ℕ :=
  match (s b).phase with
  | .connected _ loop => 3 * unread s b + turns loop
  | .greeting _ | .expecting _ | .refused _ => 0

/-- A step of the side itself leaves the other one as it is. -/
theorem step_of_act {s : Peers W C} {b : Bool} {a : Act W C} {e : Endpoint W C}
    (h : act (s (!b)).phase.sent (s b) a = some e) :
    ∃ t, step s (b, a) = some t ∧ t b = e ∧ t (!b) = s (!b) := by
  refine ⟨Function.update s b e, ?_, Function.update_self .., ?_⟩
  · simp only [step, h, Option.map_some]
  · exact Function.update_of_ne (Bool.not_ne_self b) ..

theorem step_go {s : Peers W C} {b : Bool} {phase : Phase W C}
    (h : go (s b).phase = some phase) :
    ∃ t, step s (b, .go) = some t ∧ t b = ⟨phase, (s b).read⟩ ∧ t (!b) = s (!b) :=
  step_of_act (by simp only [act, h, Option.map_some])

/-- A loop that has bytes to read, or a chunk to decode, goes on. -/
theorem receive_step {s : Peers W C} (hinv : Inv s) {b : Bool} {link : Link W C} {loop : RxLoop}
    (hb : Receiving s b link loop) (hmore : 0 < unread s b ∨ ¬ AtRest loop) :
    ∃ a t loop', (a = .go ∨ a = .recv 1) ∧ step s (b, a) = some t ∧ t (!b) = s (!b) ∧
      Receiving t b link loop' ∧ toRead t b < toRead s b := by
  obtain ⟨body, got, -, hframed, hgot, hloop, -⟩ := hinv.body hb.phase
  have hlegal := hframed.legal hgot
  unfold LoopInv at hloop
  cases hpc : loop.pc with
  | head =>
    rw [hpc] at hloop
    have hpos := hloop.1.pos
    have hle := hloop.1.le
    have hgo : go (s b).phase = some (.connected link { loop with pc := .reading [] }) := by
      have hneed : ¬ (loop.rx.need = 0 ∨ loop.rx.need > 80) := by omega
      rw [hb.phase]
      simp only [go, loopGo, hpc, hb.running, Bool.true_eq_false, if_false, if_neg hneed]
    obtain ⟨t, hstep, ht, hpeer⟩ := step_go hgo
    refine ⟨.go, t, _, Or.inl rfl, hstep, hpeer, ⟨by rw [ht], hb.running, by simp⟩, ?_⟩
    simp only [toRead, unread, ht, hpeer, hb.phase, turns, hpc, List.length_nil, if_pos hpos]
    omega
  | reading piece =>
    rw [hpc] at hloop
    obtain ⟨hrx, hle, hresumes⟩ := hloop
    by_cases hshort : piece.length < loop.rx.need
    · have hsome : 0 < unread s b := by
        rcases hmore with hsome | hbusy
        · exact hsome
        · unfold AtRest at hbusy
          rw [hpc] at hbusy
          exact absurd hshort hbusy
      unfold unread at hsome
      have hrecv : ∃ piece', act (s (!b)).phase.sent (s b) (.recv 1) =
          some ⟨.connected link { loop with pc := .reading piece' }, (s b).read + 1⟩ := by
        have hone : (((s (!b)).phase.sent.drop (s b).read).take 1).length = 1 := by
          rw [List.length_take, List.length_drop]
          omega
        refine ⟨piece ++ ((s (!b)).phase.sent.drop (s b).read).take 1, ?_⟩
        simp only [act]
        rw [if_pos ⟨Nat.one_pos, by omega⟩, hb.phase]
        simp only [take, hpc, hone]
        rw [if_pos (by omega)]
        rfl
      obtain ⟨piece', hrecv⟩ := hrecv
      obtain ⟨t, hstep, ht, hpeer⟩ := step_of_act hrecv
      refine ⟨.recv 1, t, _, Or.inr rfl, hstep, hpeer, ⟨by rw [ht], hb.running, by simp⟩, ?_⟩
      simp only [toRead, unread, ht, hpeer, hb.phase, turns, hpc, if_pos hshort]
      split <;> omega
    · have hchunk := hresumes.chunk hrx (by omega)
      have hdecode : ∃ loop', go (s b).phase = some (.connected link loop') ∧
          loop'.pc = .head := by
        rw [hb.phase]
        simp only [go, loopGo, hpc, if_neg hshort]
        cases hresult : rxChunk loop.rx piece with
        | next rx => exact ⟨_, rfl, rfl⟩
        | push f next =>
          obtain rfl := rxChunk_push hresult
          exact ⟨_, rfl, rfl⟩
        | stop =>
          have hnow := hchunk []
          rw [hresult, List.append_nil] at hnow
          rw [hnow] at hlegal
          exact absurd rfl hlegal
      obtain ⟨loop', hgo, hhead⟩ := hdecode
      obtain ⟨t, hstep, ht, hpeer⟩ := step_go hgo
      refine ⟨.go, t, loop', Or.inl rfl, hstep, hpeer,
        ⟨by rw [ht], hb.running, by simp [hhead]⟩, ?_⟩
      simp only [toRead, unread, ht, hpeer, hb.phase, turns, hpc, hhead, if_neg hshort]
      omega
  | left why => exact absurd hpc (hb.inside why)

/-- From any state of the connection a side whose loop still runs can get everything that
has been sent, by steps of its own RX thread alone; it then has read every byte of it, those
of a cut frame included, and pushed every frame that the other side's socket has taken
whole. -/
theorem peers_drain (ls : List (Bool × Act W C)) (s : Peers W C)
    (hrun : StepSystem.run step (start W C) ls = some s) (b : Bool) (link : Link W C)
    (loop : RxLoop) (hb : Receiving s b link loop) :
    ∃ (ks : List (Bool × Act W C)) (t : Peers W C) (loop' : RxLoop),
      (∀ k ∈ ks, k.1 = b ∧ (k.2 = .go ∨ k.2 = .recv 1)) ∧
      StepSystem.run step s ks = some t ∧ t (!b) = s (!b) ∧
      Receiving t b link loop' ∧ (t b).read = (s (!b)).phase.sent.length ∧
      loop'.pushed = (s (!b)).phase.offered := by
  have hall : ∃ ks t, (∀ k ∈ ks, k.1 = b ∧ (k.2 = .go ∨ k.2 = .recv 1)) ∧
      StepSystem.run step s ks = some t ∧
      (Inv t ∧ t (!b) = s (!b) ∧ ∃ loop', Receiving t b link loop') ∧
      ∀ loop', Receiving t b link loop' → unread t b = 0 ∧ AtRest loop' := by
    refine StepSystem.exists_run_of_measure (fun t => toRead t b) ?_
      ⟨run_peers hrun, rfl, loop, hb⟩
    rintro t ⟨hinv, hpeer, loop', ht⟩ hmore
    have hbusy : 0 < unread t b ∨ ¬ AtRest loop' := by
      by_contra hnone
      obtain ⟨hread, hrest⟩ := not_or.mp hnone
      refine hmore fun loop'' ht' => ?_
      obtain ⟨-, rfl⟩ := Phase.connected.inj (ht.phase.symm.trans ht'.phase)
      exact ⟨Nat.eq_zero_of_not_pos hread, not_not.mp hrest⟩
    obtain ⟨a, u, loop'', ha, hstep, hpeer', hu, hlt⟩ := receive_step hinv ht hbusy
    exact ⟨(b, a), u, ⟨rfl, ha⟩, hstep,
      ⟨step_peers hinv hstep, hpeer'.trans hpeer, loop'', hu⟩, hlt⟩
  obtain ⟨ks, t, hks, hrest, ⟨hinv, hpeer, loop', ht⟩, hdone⟩ := hall
  obtain ⟨hnone, hidle⟩ := hdone loop' ht
  obtain ⟨body, got, -, hframed, -, hloop, hwhole⟩ := hinv.body ht.phase
  have hread : (t b).read = (t (!b)).phase.sent.length := by
    have hle := (hinv b).read_le
    unfold unread at hnone
    omega
  refine ⟨ks, t, loop', hks, hrest, hpeer, ht, hpeer ▸ hread, ?_⟩
  rw [← hpeer, ← hloop.frames.2 hidle, hwhole hread, hframed.decode]

/-- The frame has been sent, and nothing of it has been read. -/
theorem peers_drain_unread :
    ∃ (s t : Peers Unit Unit) (ks : List (Bool × Act Unit Unit)) (loop : RxLoop),
      StepSystem.run step s ks = some t ∧ (t false).read = (s true).phase.sent.length ∧
      loop.pushed = (s true).phase.offered := by
  have hrun : ∃ s link loop,
      StepSystem.run step (start Unit Unit) (oneFrame.take 14) = some s ∧
      (s false).phase = .connected link loop ∧ link.running = true ∧ loop.pc = .head :=
    ⟨_, _, _, rfl, rfl, rfl, rfl⟩
  obtain ⟨s, link, loop, hrun, hphase, hrunning, hpc⟩ := hrun
  obtain ⟨ks, t, loop', -, hks, -, -, hread, hpushed⟩ := peers_drain (oneFrame.take 14) s hrun false
    link loop ⟨hphase, hrunning, fun why => by simp [hpc]⟩
  exact ⟨s, t, ks, loop', hks, hread, hpushed⟩

end Runs

end Kvasilloni.TcpPeers
