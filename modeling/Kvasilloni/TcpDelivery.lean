import Kvasilloni.ReadOrder
import Kvasilloni.TcpPeers

/-!
From `canWrite` on one side of a TCP connection to `canRead` on the other one. TCP hands the
receiving channel a beginning of what the sending side has put into the connection, in pieces
of any size; behind the banner, it decodes a beginning of the frames that were written.
-/
namespace Kvasilloni.TcpDelivery

open CheckedMemory Frames Grammar Streams Marshal SharedRing ReadBounds ReadOrder
open Reception hiding step run Label
open Transmit hiding step Label
open TransmitIntegrity
open TcpPeers (Framed)

variable {W C : Type}

/-- Behind the banner stand the frames that the socket has taken whole, and part of one. -/
theorem framed_sent {s : Link W C} (h : TransmitIntegrity.Inv s) :
    Framed (s.sent.drop connectV1.length) (succeeded s ++ completed s) := by
  obtain ⟨tail, hsent, htail, -⟩ := h.stream
  refine ⟨h.whole_canonical, tail, ?_, ?_⟩
  · rw [hsent, List.append_assoc, List.drop_left]
  · rcases htail with hnil | ⟨f, hf, hp⟩
    · exact Or.inl hnil
    · exact Or.inr ⟨f, h.cut_canonical hf, hp⟩

variable [DecidableEq W] [DecidableEq C]

/-- However the threads of both sides interleave, the reads of the receiving channel give a
subsequence of the frames whose writes the sending socket has taken whole, in the order in
which they took the tx lock: none that was cut short, none twice and none out of order. -/
theorem tcp_delivery (banner : Bytes) (link sender : Link W C) (ls : List (Transmit.Label W C))
    (hconnect : connect W C banner = some link)
    (hsender : StepSystem.run Transmit.step link ls = some sender) (setup : Setup)
    (htcp : setup.transport = .tcp) (ks : List Reception.Label) (channel : Channel)
    (hchannel : Reception.run setup ks = some channel)
    (hstream : channel.stream <+: sender.sent.drop connectV1.length) :
    ∃ ws, List.Forall₂ (ReadOf setup) channel.reads ws ∧
      ws.Sublist (succeeded sender ++ completed sender) := by
  obtain ⟨ws, hread, hreads⟩ := (run_ordered hchannel).reads
  have hframed := framed_sent (TransmitIntegrity.run_inv hconnect hsender)
  simp only [received, htcp] at hreads
  exact ⟨ws, hread, hreads.trans (hframed.decode_prefix hstream).sublist⟩

/-- A TCP channel for classic frames that checks no peers. -/
def classicTcp : Setup := ⟨.tcp, false, [], false⟩

/-- One side sends an empty frame and the first bytes of a second one. -/
def oneAndAHalf : List (Transmit.Label Unit Unit) :=
  [.canWrite () 1 none 0 0, .write (), .write (), .write (), .send () 5, .write (),
    .canWrite () 2 none 0 0, .write (), .write (), .write (), .send () 3]

/-- The other side reads the first one. -/
def readFirst : List Reception.Label :=
  [.loop, .chunk [0, 0, 0, 1], .loop, .chunk [0], .advance, .enqueue 5, .notify, .advance,
    .request .app (.read ⟨some 0, none, some 0, some 0, some 0⟩), .proceed 0 false]

theorem tcp_delivery_oneAndAHalf :
    ∃ (sender : Link Unit Unit) (channel : Channel) (ws : List Frame),
      channel.reads.length = 1 ∧ List.Forall₂ (ReadOf classicTcp) channel.reads ws ∧
      ws.Sublist (succeeded sender ++ completed sender) := by
  have hconnect : ∃ link, connect Unit Unit connectV1 = some link := ⟨_, rfl⟩
  obtain ⟨link, hlink⟩ := hconnect
  have hruns : ∃ sender channel, StepSystem.run Transmit.step link oneAndAHalf = some sender ∧
      Reception.run classicTcp readFirst = some channel ∧ channel.reads.length = 1 ∧
      channel.stream <+: sender.sent.drop connectV1.length := by
    obtain rfl := Option.some.inj hlink
    exact ⟨_, _, rfl, rfl, rfl, [0, 0, 0], rfl⟩
  obtain ⟨sender, channel, hsender, hchannel, hone, hstream⟩ := hruns
  obtain ⟨ws, hreads, hsub⟩ := tcp_delivery connectV1 link sender oneAndAHalf hlink hsender
    classicTcp rfl readFirst channel hchannel hstream
  exact ⟨sender, channel, ws, hone, hreads, hsub⟩

end Kvasilloni.TcpDelivery
