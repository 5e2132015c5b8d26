import Kvasilloni.ReadOrder
import Kvasilloni.UdpTransmit
import Kvasilloni.Library.LossyNetwork

/-!
A UDP channel and the peer that writes to it, over a network that loses, duplicates and
reorders datagrams, and on which other hosts send what they like. The receiving channel lets
in the peer and none of these hosts.
-/
namespace Kvasilloni.UdpDelivery

open CheckedMemory SelfDelimiting LossyNetwork Frames Grammar Datagrams Marshal SharedRing
open ReadBounds ReadOrder EndToEnd
open Reception hiding step run Label
open UdpTransmit hiding step Label Inv setWriter_inv step_inv run_inv

/-- A datagram under way, with the host it comes from. -/
abbrev Packet := IpAddr × Bytes

structure System (W : Type) where
  sender : UdpLink W
  network : Network Packet
  channel : Channel

inductive Label (W : Type)
  | sender (l : UdpTransmit.Label W)
  | stray (source : IpAddr) (bytes : Bytes)
  | lose (i : ℕ)
  | duplicate (i : ℕ)
  | deliver (i : ℕ)
  | channel (l : Reception.Label)

def start (W : Type) : System W := ⟨connected W, idle, opened⟩

/-- The host passes the check of the receiving channel. -/
def lets (setup : Setup) (m : Packet) : Bool := peerAllowed m.1 setup.allow setup.peerCheck

/-- The bytes that `recv_from` puts into the buffer. -/
def truncated (bytes : Bytes) : Bytes := bytes.take 2048

variable {W : Type}

/-- What the socket of the sender has sent by this step. -/
def emitted (peer : IpAddr) (s s' : UdpLink W) : List Packet :=
  ((wire s').drop (wire s).length).map fun bytes => (peer, bytes)

def step [DecidableEq W] (peer : IpAddr) (setup : Setup) (s : System W) :
    Label W → Option (System W)
  | .sender l =>
    (UdpTransmit.step s.sender l).bind fun sender =>
      (LossyNetwork.step s.network (.send (emitted peer s.sender sender))).map fun network =>
        { s with sender := sender, network := network }
  | .stray source bytes =>
    if lets setup (source, bytes) then none
    else (LossyNetwork.step s.network (.send [(source, bytes)])).map fun network =>
      { s with network := network }
  | .lose i =>
    (LossyNetwork.step s.network (.lose i)).map fun network => { s with network := network }
  | .duplicate i =>
    (LossyNetwork.step s.network (.duplicate i)).map fun network =>
      { s with network := network }
  | .deliver i =>
    (s.network.flight[i]?).bind fun m =>
      (LossyNetwork.step s.network (.deliver i)).bind fun network =>
        (Reception.step setup s.channel (.datagram m.1 (truncated m.2))).map fun channel =>
          { s with network := network, channel := channel }
  | .channel l =>
    match l with
    | .datagram _ _ => none
    | l => (Reception.step setup s.channel l).map fun channel => { s with channel := channel }

/-! ### What a datagram of the sender is parsed as -/

/-- The frame of a send that has succeeded. -/
def delivers (a : Attempt) : List Frame := if a.ok then [a.frame] else []

theorem wireImage_length_le {f : Frame} (hf : Canonical f) : (wireImage f).length ≤ 70 := by
  have hlen := hf.len_le_max
  have hpayload : (wirePayload f).length ≤ 64 := by
    unfold wirePayload
    split
    · exact Nat.zero_le _
    · rw [List.length_take]
      omega
  have hhead : (wireImage f).length ≤ (wirePayload f).length + 6 := by
    unfold wireImage toBe32
    split
    · simp only [List.length_append, List.length_cons, List.length_nil]
      omega
    · simp only [List.length_append, List.length_cons, List.length_nil]
      omega
  omega

theorem buildUdp_ok {f : Frame} (hf : Canonical f) {seqNo : UInt8} {image : Bytes}
    (hbuild : buildUdp f seqNo = .ok image) : image = 2 :: 0 :: seqNo :: 0 :: 1 :: wireImage f := by
  rw [buildUdp_eq hf seqNo] at hbuild
  exact (Except.ok.inj hbuild).symm

theorem datagramFrames_whole {f : Frame} (hf : Canonical f) {seqNo : UInt8} {image : Bytes}
    (hbuild : buildUdp f seqNo = .ok image) : datagramFrames image = [f] := by
  unfold datagramFrames
  rw [parse_built hf hbuild]

/-- A datagram that is cut short carries no frame at all. -/
theorem datagramFrames_cut {f : Frame} (hf : Canonical f) {seqNo : UInt8} {image b : Bytes}
    (hbuild : buildUdp f seqNo = .ok image) (hb : b <+: image) (hne : b ≠ image) :
    datagramFrames b = [] := by
  obtain rfl := buildUdp_ok hf hbuild
  rcases parseUdp_spec b with ⟨fs, hfs, -⟩ | ⟨-, hparse⟩
  · exfalso
    have hlen := hfs.length_ge
    obtain ⟨t, ht⟩ := hb
    rcases b with _ | ⟨v, _ | ⟨o, _ | ⟨q, _ | ⟨hi, _ | ⟨lo, body⟩⟩⟩⟩⟩
    case cons.cons.cons.cons.cons =>
      simp only [List.cons_append, List.cons.injEq] at ht
      obtain ⟨rfl, rfl, rfl, rfl, rfl, ht⟩ := ht
      obtain ⟨-, -, hcount, hcan, hbody⟩ := (isDatagram_header _ _ _ _ _ _ fs).mp hfs
      have hone : fs.length = 1 := hcount
      obtain ⟨g, rfl⟩ := List.length_eq_one_iff.mp hone
      have hstuck := frameCode.stuck_of_proper_prefix hf ⟨t, ht⟩ fun h => hne (by rw [h]; rfl)
      rw [List.flatMap_singleton] at hbody
      exact hstuck g (hcan g (List.mem_cons_self ..)) hbody
    all_goals simp [dataPacketBaseSize] at hlen
  · unfold datagramFrames
    rw [hparse]

/-- A receiver makes the frame of a successful send out of it, and nothing of a failed one. -/
theorem datagram_delivers {a : Attempt} (ha : Honest a) :
    a.datagram.toList.flatMap (fun b => datagramFrames (truncated b)) = delivers a := by
  obtain ⟨hcan, image, hbuild, hok, hcut⟩ := ha
  have hshort : image.length ≤ 2048 := by
    rw [buildUdp_ok hcan hbuild]
    have hle := wireImage_length_le hcan
    simp only [List.length_cons]
    omega
  unfold delivers
  cases hsent : a.datagram with
  | none =>
    have hfailed : ¬ a.ok = true := fun h => by simpa [hsent] using hok.mp h
    rw [if_neg hfailed]
    rfl
  | some b =>
    have hb : b <+: image := hcut b hsent
    have hle := hb.length_le
    have hwhole : truncated b = b := List.take_of_length_le (by omega)
    simp only [Option.toList_some, List.flatMap_singleton, hwhole]
    by_cases heq : b = image
    · rw [if_pos (hok.mpr (by rw [hsent, heq])), heq, datagramFrames_whole hcan hbuild]
    · have hfailed : ¬ a.ok = true := by
        intro h
        rw [hok, hsent] at h
        exact heq (Option.some.inj h)
      rw [if_neg hfailed, datagramFrames_cut hcan hbuild hb heq]

theorem delivers_flatMap (log : List Attempt) :
    log.flatMap delivers = (log.filter Attempt.ok).map Attempt.frame := by
  induction log with
  | nil => rfl
  | cons a log ih =>
    rw [List.flatMap_cons, ih, List.filter_cons]
    cases hok : a.ok <;> simp [delivers, hok]

/-- Everything the socket has sent comes to the frames of the successful writes. -/
theorem wire_frames {s : UdpLink W} (h : UdpTransmit.Inv s) :
    (wire s).flatMap (fun b => datagramFrames (truncated b)) = succeeded s := by
  unfold wire succeeded
  rw [← delivers_flatMap, List.filterMap_eq_flatMap_toList, List.flatMap_assoc]
  exact List.flatMap_congr fun a ha => datagram_delivers (h.honest a ha)

/-! ### The system -/

structure Inv (setup : Setup) (s : System W) : Prop where
  sender : UdpTransmit.Inv s.sender
  sound : Sound setup s.channel
  ordered : Ordered setup s.channel
  genuine : Genuine s.network
  sent : ((s.network.sent.filter (lets setup)).map Prod.snd).Sublist (wire s.sender)
  received : s.channel.datagrams =
    (s.network.delivered.filter (lets setup)).map fun m => truncated m.2

theorem start_inv (setup : Setup) : Inv setup (start W) where
  sender := connected_inv
  sound := opened_sound setup
  ordered := opened_ordered setup
  genuine := idle_genuine
  sent := List.nil_sublist _
  received := rfl

/-- Only a datagram that the host check lets in is kept. -/
theorem datagram_kept {setup : Setup} {s s' : Channel} {source : IpAddr} {bytes : Bytes}
    (h : Reception.step setup s (.datagram source bytes) = some s') :
    s'.datagrams = s.datagrams ++
      if peerAllowed source setup.allow setup.peerCheck then [bytes] else [] := by
  cases hrx : s.rx with
  | receiving =>
    simp only [Reception.step, hrx, rxStep] at h
    split at h
    · obtain rfl := Option.some.inj h
      unfold receiveDatagram
      split
      · rfl
      · exact (List.append_nil _).symm
    · cases h
  | head | ingesting | filtered | queued | inCallback | stopped =>
    simp only [Reception.step, hrx, rxStep] at h
    cases h

theorem tearDown_datagrams (setup : Setup) (s : Channel) :
    (tearDown setup s).datagrams = s.datagrams := by
  unfold tearDown
  split <;> rfl

theorem perform_datagrams {setup : Setup} {s s' : Channel} {timedOut : Bool} {r : Request}
    (h : perform setup s timedOut r = some s') : s'.datagrams = s.datagrams := by
  have hdeliver : ∀ out popped, (deliver setup s out popped).datagrams = s.datagrams := by
    intro out popped
    unfold deliver
    split <;> rfl
  cases r with
  | read out =>
    obtain rfl := Option.some.inj h
    exact hdeliver out _
  | readWait out =>
    obtain ⟨popped, -, rfl⟩ := Option.map_eq_some_iff.mp h
    exact hdeliver out _
  | readSync =>
    obtain ⟨b, -, rfl⟩ := Option.map_eq_some_iff.mp h
    rfl
  | flush | accept | setNotify =>
    obtain rfl := Option.some.inj h
    rfl

theorem closeStep_datagrams {s s' : Channel} {caller : Caller} {stage : CloseStage}
    {next : Option CloseStage} (h : closeStep s caller stage = some (s', next)) :
    s'.datagrams = s.datagrams := by
  cases stage with
  | join =>
    simp only [closeStep] at h
    split at h
    · obtain ⟨rfl, -⟩ := Prod.mk.inj (Option.some.inj h)
      rfl
    · cases h
  | running | negotiated | markClosed | shutdown | takeHandle =>
    obtain ⟨rfl, -⟩ := Prod.mk.inj (Option.some.inj h)
    rfl

theorem loopHead_datagrams (setup : Setup) (s : Channel) :
    (loopHead setup s).datagrams = s.datagrams := by
  unfold loopHead
  split
  · exact tearDown_datagrams setup s
  · split
    · rfl
    · exact tearDown_datagrams setup s
    · split
      · exact tearDown_datagrams setup s
      · rfl

theorem receiveChunk_datagrams (setup : Setup) (s : Channel) (rx : Streams.RxStream)
    (bytes : Bytes) : (receiveChunk setup s rx bytes).datagrams = s.datagrams := by
  unfold receiveChunk
  dsimp only
  split
  · rfl
  · rfl
  · exact tearDown_datagrams setup _

theorem advance_datagrams (setup : Setup) (s : Channel) (batch : List Frame) :
    (advance setup s batch).datagrams = s.datagrams := by
  cases batch with
  | nil =>
    dsimp only [advance]
    split
    · exact tearDown_datagrams setup s
    · rfl
  | cons f batch =>
    dsimp only [advance]
    split <;> rfl

/-- What the RX thread does besides receiving a datagram keeps those received. -/
theorem rxStep_datagrams {setup : Setup} {s s' : Channel} {l : Reception.Label}
    (hl : ∀ source bytes, l ≠ .datagram source bytes) (h : rxStep setup s s.rx l = some s') :
    s'.datagrams = s.datagrams := by
  unfold rxStep at h
  split at h
  · obtain rfl := Option.some.inj h
    exact loopHead_datagrams setup s
  · exact absurd rfl (hl _ _)
  · split at h
    · split at h
      · obtain rfl := Option.some.inj h
        exact receiveChunk_datagrams setup s _ _
      · cases h
    · cases h
  · split at h
    · obtain rfl := Option.some.inj h
      rfl
    · cases h
  · obtain rfl := Option.some.inj h
    exact tearDown_datagrams setup s
  · obtain rfl := Option.some.inj h
    exact advance_datagrams setup s _
  · obtain rfl := Option.some.inj h
    unfold enqueueFrame
    split <;> rfl
  · obtain rfl := Option.some.inj h
    unfold notifyFrame
    split <;> rfl
  · split at h
    · cases h
    · obtain rfl := Option.some.inj h
      rfl
  · cases h

theorem proceed_datagrams {setup : Setup} {s s' : Channel} {i : ℕ} {timedOut : Bool}
    (h : proceed setup s i timedOut = some s') : s'.datagrams = s.datagrams := by
  unfold proceed at h
  split at h
  · cases h
  · obtain ⟨t, hperform, rfl⟩ := Option.map_eq_some_iff.mp h
    have hkept := perform_datagrams hperform
    exact hkept
  · obtain ⟨⟨t, next⟩, hclose, rfl⟩ := Option.map_eq_some_iff.mp h
    have hkept := closeStep_datagrams hclose
    cases next <;> exact hkept

theorem channel_datagrams {setup : Setup} {s s' : Channel} {l : Reception.Label}
    (hl : ∀ source bytes, l ≠ .datagram source bytes)
    (h : Reception.step setup s l = some s') : s'.datagrams = s.datagrams := by
  cases l with
  | request caller r =>
    simp only [Reception.step] at h
    split at h
    · obtain rfl := Option.some.inj h
      unfold request
      split <;> rfl
    · cases h
  | canClose caller =>
    simp only [Reception.step] at h
    split at h
    · obtain rfl := Option.some.inj h
      unfold canClose
      split <;> rfl
    · cases h
  | proceed i timedOut => exact proceed_datagrams h
  | loop | datagram | chunk | timeout | fail | advance | enqueue | notify | callbackReturn =>
    exact rxStep_datagrams hl h

section Runs

variable [DecidableEq W]

/-- A step of the sender adds to what its socket has sent. -/
theorem step_wire {s s' : UdpLink W} {l : UdpTransmit.Label W}
    (h : UdpTransmit.step s l = some s') : wire s <+: wire s' := by
  have hlog : s.log <+: s'.log := by
    cases l with
    | canWrite w id msg dlc flag =>
      simp only [UdpTransmit.step] at h
      split at h
      · obtain rfl := Option.some.inj h
        exact List.prefix_rfl
      · cases h
    | write w =>
      simp only [UdpTransmit.step] at h
      unfold writerGo at h
      split at h
      · cases h
      · split at h <;> obtain rfl := Option.some.inj h <;> exact List.prefix_rfl
      · split at h
        · cases h
        · split at h <;> obtain rfl := Option.some.inj h <;> exact List.prefix_rfl
      · split at h <;> obtain rfl := Option.some.inj h <;> exact List.prefix_rfl
      · cases h
    | sendTo w r =>
      simp only [UdpTransmit.step] at h
      unfold sendTo at h
      split at h
      · split at h
        · split at h
          · obtain rfl := Option.some.inj h
            exact List.prefix_append _ _
          · cases h
        · obtain rfl := Option.some.inj h
          exact List.prefix_append _ _
      · cases h
    | canClose =>
      simp only [UdpTransmit.step] at h
      split at h
      · obtain rfl := Option.some.inj h
        exact List.prefix_rfl
      · cases h
    | close =>
      simp only [UdpTransmit.step] at h
      split at h
      · cases h
      · obtain rfl := Option.some.inj h
        exact List.prefix_rfl
  obtain ⟨more, hmore⟩ := hlog
  exact ⟨more.filterMap Attempt.datagram, by rw [wire, wire, ← hmore, List.filterMap_append]⟩

theorem sender_inv {peer : IpAddr} {setup : Setup} {s s' : System W}
    {l : UdpTransmit.Label W} (hs : Inv setup s) (h : step peer setup s (.sender l) = some s') :
    Inv setup s' := by
  obtain ⟨sender, hstep, hrest⟩ := Option.bind_eq_some_iff.mp h
  obtain ⟨network, hnet, rfl⟩ := Option.map_eq_some_iff.mp hrest
  have hgenuine := step_genuine hs.genuine hnet
  obtain rfl := Option.some.inj hnet
  refine ⟨UdpTransmit.step_inv hs.sender hstep, hs.sound, hs.ordered, hgenuine, ?_, hs.received⟩
  obtain ⟨more, hmore⟩ := step_wire hstep
  have hnew : emitted peer s.sender sender = more.map fun bytes => (peer, bytes) := by
    rw [emitted, ← hmore, List.drop_left]
  have hadded : (((emitted peer s.sender sender).filter (lets setup)).map Prod.snd).Sublist
      more := by
    rw [hnew]
    refine (List.filter_sublist.map Prod.snd).trans ?_
    rw [List.map_map, show (Prod.snd ∘ fun bytes : Bytes => (peer, bytes)) = id from rfl,
      List.map_id]
  rw [← hmore]
  simp only [List.filter_append, List.map_append]
  exact hs.sent.append hadded

theorem stray_inv {peer : IpAddr} {setup : Setup} {s s' : System W} {source : IpAddr}
    {bytes : Bytes} (hs : Inv setup s) (h : step peer setup s (.stray source bytes) = some s') :
    Inv setup s' := by
  simp only [step] at h
  split at h
  · cases h
  · rename_i hrefused
    obtain ⟨network, hnet, rfl⟩ := Option.map_eq_some_iff.mp h
    have hgenuine := step_genuine hs.genuine hnet
    obtain rfl := Option.some.inj hnet
    refine ⟨hs.sender, hs.sound, hs.ordered, hgenuine, ?_, hs.received⟩
    simpa [List.filter_append, hrefused] using hs.sent

theorem deliver_inv {peer : IpAddr} {setup : Setup} {s s' : System W} {i : ℕ}
    (hs : Inv setup s) (h : step peer setup s (.deliver i) = some s') : Inv setup s' := by
  obtain ⟨m, hm, hrest⟩ := Option.bind_eq_some_iff.mp h
  obtain ⟨network, hnet, hrest⟩ := Option.bind_eq_some_iff.mp hrest
  obtain ⟨channel, hchannel, rfl⟩ := Option.map_eq_some_iff.mp hrest
  have hmove := step_move hchannel
  have hgenuine := step_genuine hs.genuine hnet
  simp only [LossyNetwork.step, hm, Option.map_some] at hnet
  obtain rfl := Option.some.inj hnet
  refine ⟨hs.sender, move_sound hs.sound hmove, move_ordered hs.ordered hs.sound hmove,
    hgenuine, hs.sent, ?_⟩
  have hkept : channel.datagrams = s.channel.datagrams ++
      if lets setup m then [truncated m.2] else [] := datagram_kept hchannel
  rw [hkept, hs.received]
  simp only [List.filter_append, List.map_append]
  congr 1
  by_cases hlets : lets setup m = true
  · rw [if_pos hlets, List.filter_cons_of_pos hlets]
    rfl
  · rw [if_neg hlets, List.filter_cons_of_neg hlets]
    rfl

theorem channel_inv {peer : IpAddr} {setup : Setup} {s s' : System W} {l : Reception.Label}
    (hs : Inv setup s) (h : step peer setup s (.channel l) = some s') : Inv setup s' := by
  have hstep : (∀ source bytes, l ≠ .datagram source bytes) ∧
      ∃ channel, Reception.step setup s.channel l = some channel ∧
        s' = { s with channel := channel } := by
    simp only [step] at h
    split at h
    · cases h
    · rename_i hl
      obtain ⟨channel, hchannel, rfl⟩ := Option.map_eq_some_iff.mp h
      exact ⟨hl, channel, hchannel, rfl⟩
  obtain ⟨hl, channel, hchannel, rfl⟩ := hstep
  have hmove := step_move hchannel
  exact ⟨hs.sender, move_sound hs.sound hmove, move_ordered hs.ordered hs.sound hmove,
    hs.genuine, hs.sent, (channel_datagrams hl hchannel).trans hs.received⟩

theorem step_inv {peer : IpAddr} {setup : Setup} {s s' : System W} {l : Label W}
    (hs : Inv setup s) (h : step peer setup s l = some s') : Inv setup s' := by
  cases l with
  | sender l => exact sender_inv hs h
  | stray source bytes => exact stray_inv hs h
  | lose i | duplicate i =>
    obtain ⟨network, hnet, rfl⟩ := Option.map_eq_some_iff.mp h
    have hgenuine := step_genuine hs.genuine hnet
    obtain ⟨m, -, rfl⟩ := Option.map_eq_some_iff.mp hnet
    exact ⟨hs.sender, hs.sound, hs.ordered, hgenuine, hs.sent, hs.received⟩
  | deliver i => exact deliver_inv hs h
  | channel l => exact channel_inv hs h

theorem run_inv {peer : IpAddr} {setup : Setup} {s : System W} {ls : List (Label W)}
    (hrun : StepSystem.run (step peer setup) (start W) ls = some s) : Inv setup s :=
  StepSystem.run_invariant (fun _ _ _ hs h => step_inv hs h) (start_inv setup) hrun

/-- Without duplication the network delivers no datagram more often than it was sent. -/
theorem run_once {peer : IpAddr} {setup : Setup} {s : System W} {ls : List (Label W)}
    (hls : ∀ l ∈ ls, ∀ i, l ≠ .duplicate i)
    (hrun : StepSystem.run (step peer setup) (start W) ls = some s) : Once s.network := by
  have hguard : StepSystem.Guarded (step peer setup) (fun _ l => ∀ i, l ≠ .duplicate i)
      (start W) ls := StepSystem.guarded_of_forall (fun l hl _ => hls l hl) _
  have hstep : ∀ (s : System W) (l : Label W) (s' : System W), Once s.network →
      (∀ i, l ≠ .duplicate i) → step peer setup s l = some s' → Once s'.network := by
    intro s l s' hs hl h
    cases l with
    | sender l =>
      obtain ⟨sender, -, hrest⟩ := Option.bind_eq_some_iff.mp h
      obtain ⟨network, hnet, rfl⟩ := Option.map_eq_some_iff.mp hrest
      exact step_once hs rfl hnet
    | stray source bytes =>
      simp only [step] at h
      split at h
      · cases h
      · obtain ⟨network, hnet, rfl⟩ := Option.map_eq_some_iff.mp h
        exact step_once hs rfl hnet
    | lose i =>
      obtain ⟨network, hnet, rfl⟩ := Option.map_eq_some_iff.mp h
      exact step_once hs rfl hnet
    | duplicate i => exact absurd rfl (hl i)
    | deliver i =>
      obtain ⟨m, hm, hrest⟩ := Option.bind_eq_some_iff.mp h
      obtain ⟨network, hnet, hrest⟩ := Option.bind_eq_some_iff.mp hrest
      obtain ⟨channel, -, rfl⟩ := Option.map_eq_some_iff.mp hrest
      exact step_once hs rfl hnet
    | channel l =>
      simp only [step] at h
      split at h
      · cases h
      · obtain ⟨channel, -, rfl⟩ := Option.map_eq_some_iff.mp h
        exact hs
  exact StepSystem.run_invariant_of_guarded hstep idle_once hguard hrun

end Runs

/-- The frames that the channel has received, in terms of what the network has delivered. -/
theorem Inv.frames {setup : Setup} {s : System W} (h : Inv setup s)
    (hudp : setup.transport = .udp) :
    ReadOrder.received setup s.channel = ((s.network.delivered.filter (lets setup)).map
      Prod.snd).flatMap fun b => datagramFrames (truncated b) := by
  simp only [ReadOrder.received, hudp, h.received, List.flatMap_map]

theorem Inv.genuine_frames {setup : Setup} {s : System W} (h : Inv setup s) {w : Frame}
    (hw : w ∈ ((s.network.delivered.filter (lets setup)).map Prod.snd).flatMap
      fun b => datagramFrames (truncated b)) : w ∈ succeeded s.sender := by
  rw [← wire_frames h.sender]
  obtain ⟨b, hb, hw⟩ := List.mem_flatMap.mp hw
  refine List.mem_flatMap.mpr ⟨b, h.sent.mem ?_, hw⟩
  obtain ⟨m, hm, rfl⟩ := List.mem_map.mp hb
  obtain ⟨hdelivered, hlets⟩ := List.mem_filter.mp hm
  exact List.mem_map_of_mem (List.mem_filter.mpr ⟨h.genuine m (Or.inr hdelivered), hlets⟩)

theorem Inv.once_frames {setup : Setup} {s : System W} (h : Inv setup s)
    (honce : Once s.network) :
    (((s.network.delivered.filter (lets setup)).map Prod.snd).flatMap
      fun b => datagramFrames (truncated b)).Subperm (succeeded s.sender) := by
  rw [← wire_frames h.sender]
  refine subperm_flatMap (List.Subperm.trans ?_ h.sent.subperm) _
  have hsent : s.network.delivered.Subperm s.network.sent :=
    (List.sublist_append_left _ _).subperm.trans honce
  rw [List.map_eq_flatMap, List.map_eq_flatMap]
  exact subperm_flatMap (hsent.filter _) _

/-- Whatever the network does with the datagrams and whatever other hosts send, a channel that
lets in the peer alone reads only frames of writes that have succeeded on the peer; and if the
network duplicates no datagram, it reads each of them at most once. -/
theorem udp_delivery [DecidableEq W] (peer : IpAddr) (setup : Setup)
    (hudp : setup.transport = .udp) (ls : List (Label W)) (s : System W)
    (hrun : StepSystem.run (step peer setup) (start W) ls = some s) :
    ∃ ws, List.Forall₂ (ReadOf setup) s.channel.reads ws ∧
      (∀ w ∈ ws, w ∈ succeeded s.sender) ∧
      ((∀ l ∈ ls, ∀ i, l ≠ .duplicate i) → ws.Subperm (succeeded s.sender)) := by
  have hinv := run_inv hrun
  obtain ⟨ws, hread, hreads⟩ := hinv.ordered.reads
  rw [hinv.frames hudp] at hreads
  refine ⟨ws, hread, fun w hw => hinv.genuine_frames (hreads.mem hw), fun hls => ?_⟩
  exact hreads.subperm.trans (hinv.once_frames (run_once hls hrun))

/-- The peer writes an empty frame, a host that is not let in sends the same datagram, both
arrive, and the channel reads what it has. -/
def strayFirst : List (Label Unit) :=
  [.sender (.canWrite () 1 none 0 0), .sender (.write ()), .sender (.write ()),
    .sender (.write ()), .sender (.sendTo () (.sent 10)),
    .stray (.v4 9) [2, 0, 0, 0, 1, 0, 0, 0, 1, 0], .channel .loop, .deliver 1, .channel .loop,
    .deliver 0, .channel .advance, .channel (.enqueue 5), .channel .notify,
    .channel (.request .app (.read ⟨some 0, none, some 0, some 0, some 0⟩)),
    .channel (.proceed 0 false)]

/-- A UDP channel that lets one host in. -/
def onePeer : Setup := ⟨.udp, false, [.v4 7], true⟩

theorem udp_delivery_strayFirst :
    ∃ (s : System Unit) (ws : List Frame), s.channel.reads.length = 1 ∧
      List.Forall₂ (ReadOf onePeer) s.channel.reads ws ∧ ws.Subperm (succeeded s.sender) := by
  have hrun : ∃ s, StepSystem.run (step (.v4 7) onePeer) (start Unit) strayFirst = some s ∧
      s.channel.reads.length = 1 := ⟨_, rfl, rfl⟩
  obtain ⟨s, hrun, hone⟩ := hrun
  obtain ⟨ws, hreads, -, hsub⟩ := udp_delivery (.v4 7) onePeer rfl strayFirst s hrun
  exact ⟨s, ws, hone, hreads, hsub (by simp [strayFirst])⟩

end Kvasilloni.UdpDelivery
