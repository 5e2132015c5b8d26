import Kvasilloni.UdpLoop

/-!
What received datagrams can do to a channel that checks its peers. A datagram from another
source, or one that the parser refuses, leaves everything as it was; and what an accepted
one does depends on the clock in its timestamps only. So two sequences of datagrams that
agree on the accepted ones have the same effect.
-/
namespace Kvasilloni.UdpInfluence

open CheckedMemory Frames Datagrams SharedRing Reception UdpLoop

/-- The channel checks its peers. -/
def checking (allow : List IpAddr) : Config := ⟨allow, true⟩

/-- The source is in the effective allow-list and the parser accepts the bytes. -/
def Relevant (allow : List IpAddr) (peer : IpAddr) (d : Datagram) : Prop :=
  d.source ∈ effectiveAllow (checking allow) peer ∧ parseUdp d.bytes ≠ .ok none

instance (allow : List IpAddr) (peer : IpAddr) (d : Datagram) :
    Decidable (Relevant allow peer d) := inferInstanceAs (Decidable (_ ∧ ¬ _))

/-- The body of the loop over a sequence of datagrams. -/
def receiveAll (allow : List IpAddr) (peer : IpAddr) (clock : ℕ → UInt64) (s : Receiver)
    (ds : List Datagram) : Receiver :=
  ds.foldl (fun s d => udpRxRound (checking allow) peer clock s (.datagram d)) s

/-! ### Refused datagrams -/

theorem sourceAllowed_iff (allow : List IpAddr) (peer source : IpAddr) :
    sourceAllowed (checking allow) peer source = true ↔
      source ∈ effectiveAllow (checking allow) peer := by
  simp [sourceAllowed, peerAllowed, checking]

theorem malformed_ignored (cfg : Config) (peer : IpAddr) (clock : ℕ → UInt64) (s : Receiver)
    {d : Datagram} (h : parseUdp d.bytes = .ok none) :
    udpRxRound cfg peer clock s (.datagram d) = s := by
  simp only [udpRxRound, guardedUdpIngest, datagramFrames_of_none h, List.foldl_nil, ite_self]

theorem irrelevant_ignored (allow : List IpAddr) (peer : IpAddr) (clock : ℕ → UInt64)
    (s : Receiver) {d : Datagram} (h : ¬ Relevant allow peer d) :
    udpRxRound (checking allow) peer clock s (.datagram d) = s := by
  by_cases hsource : d.source ∈ effectiveAllow (checking allow) peer
  · have hparse : parseUdp d.bytes = .ok none := by
      by_contra hparse
      exact h ⟨hsource, hparse⟩
    exact malformed_ignored _ peer clock s hparse
  · have hrefused : sourceAllowed (checking allow) peer d.source ≠ true :=
      fun hallowed => hsource ((sourceAllowed_iff allow peer d.source).mp hallowed)
    simp only [udpRxRound, hrefused, Bool.false_eq_true, ↓reduceIte, ite_self]

theorem receiveAll_relevant (allow : List IpAddr) (peer : IpAddr) (clock : ℕ → UInt64)
    (s : Receiver) (ds : List Datagram) :
    receiveAll allow peer clock s ds =
      receiveAll allow peer clock s (ds.filter fun d => Relevant allow peer d) := by
  induction ds generalizing s with
  | nil => rfl
  | cons d ds ih =>
    have hcons : receiveAll allow peer clock s (d :: ds) =
        receiveAll allow peer clock
          (udpRxRound (checking allow) peer clock s (.datagram d)) ds := rfl
    by_cases hrel : Relevant allow peer d
    · rw [List.filter_cons_of_pos (by simpa using hrel), hcons, ih]
      rfl
    · rw [List.filter_cons_of_neg (by simpa using hrel), hcons, irrelevant_ignored _ _ _ _ hrel,
        ih]

/-! ### Timestamps aside -/

def untimed (f : Frame) : Frame := { f with rxTimeMs := 0 }

def untimedCall (c : ℕ × NotifyData) : ℕ × NotifyData := (c.1, { c.2 with time := 0 })

/-- Queue, latch and callback invocations, timestamps aside. -/
def observed (s : Receiver) : List Frame × Bool × List (ℕ × NotifyData) :=
  (s.shared.q.map untimed, s.shared.overflow, s.calls.map untimedCall)

@[simp] theorem untimed_stamp (now : UInt64) (f : Frame) : untimed (stamp now f) = untimed f :=
  rfl

/-- The invocation that a queued frame causes, timestamp aside. -/
def untimedCallFor (n : Notify) (f : Frame) : Option (ℕ × NotifyData) :=
  if n.Armed then
    some (n.cb, {
      tag := n.tag
      eventType := eventRx
      id := (canidToKvaser f.canId f.fd).1
      time := 0 })
  else none

theorem call_untimed (n : Notify) (now : UInt64) (f : Frame) :
    ((n.call (stamp now f)).map fun d => (n.cb, d)).map untimedCall = untimedCallFor n f := by
  unfold Notify.call untimedCallFor
  split <;> rfl

/-- What `push` does to what is observed, whatever the clock. -/
theorem pushFrame_observed (clock : ℕ → UInt64) (s : Receiver) (f : Frame) :
    (pushFrame clock s f).shared.filters = s.shared.filters ∧
    (pushFrame clock s f).shared.notify = s.shared.notify ∧
    observed (pushFrame clock s f) =
      if s.shared.filters.accepts f then
        if s.shared.q.length ≥ ringCap then ((observed s).1, true, (observed s).2.2)
        else ((observed s).1 ++ [untimed f], (observed s).2.1,
          (observed s).2.2 ++ (untimedCallFor s.shared.notify f).toList)
      else observed s := by
  by_cases haccepts : s.shared.filters.accepts f = true
  · by_cases hfull : s.shared.q.length ≥ ringCap
    · simp [pushFrame, observed, Shared.push, Shared.enqueue, haccepts, hfull]
    · have hcall := call_untimed s.shared.notify (clock s.offered.length) f
      simp only [pushFrame, observed, Shared.push, Shared.enqueue, haccepts, hfull, ↓reduceIte,
        List.map_append, List.map_cons, List.map_nil, untimed_stamp, true_and, ← hcall]
      cases s.shared.notify.call (stamp (clock s.offered.length) f) <;> rfl
  · simp [pushFrame, observed, Shared.push, haccepts]

/-- Two receivers that differ in timestamps only. -/
structure Alike (s t : Receiver) : Prop where
  listening : s.listening = t.listening
  filters : s.shared.filters = t.shared.filters
  notify : s.shared.notify = t.shared.notify
  observed : observed s = observed t

theorem Alike.length_eq {s t : Receiver} (h : Alike s t) :
    s.shared.q.length = t.shared.q.length := by
  have hqueue := congrArg (fun o => o.1.length) h.observed
  simpa [UdpInfluence.observed] using hqueue

theorem pushFrame_alike {s t : Receiver} (h : Alike s t) (clock₁ clock₂ : ℕ → UInt64)
    (f : Frame) : Alike (pushFrame clock₁ s f) (pushFrame clock₂ t f) := by
  obtain ⟨hfilters₁, hnotify₁, hobserved₁⟩ := pushFrame_observed clock₁ s f
  obtain ⟨hfilters₂, hnotify₂, hobserved₂⟩ := pushFrame_observed clock₂ t f
  refine ⟨h.listening, ?_, ?_, ?_⟩
  · rw [hfilters₁, hfilters₂, h.filters]
  · rw [hnotify₁, hnotify₂, h.notify]
  · rw [hobserved₁, hobserved₂, h.filters, h.notify, h.observed, h.length_eq]

theorem foldl_pushFrame_alike (clock₁ clock₂ : ℕ → UInt64) (frames : List Frame)
    {s t : Receiver} (h : Alike s t) :
    Alike (frames.foldl (pushFrame clock₁) s) (frames.foldl (pushFrame clock₂) t) := by
  induction frames generalizing s t with
  | nil => exact h
  | cons f frames ih => exact ih (pushFrame_alike h clock₁ clock₂ f)

theorem round_alike (cfg : Config) (peer : IpAddr) (clock₁ clock₂ : ℕ → UInt64)
    (d : Datagram) {s t : Receiver} (h : Alike s t) :
    Alike (udpRxRound cfg peer clock₁ s (.datagram d))
      (udpRxRound cfg peer clock₂ t (.datagram d)) := by
  simp only [udpRxRound, h.listening]
  split
  · split
    · exact foldl_pushFrame_alike clock₁ clock₂ _ h
    · exact h
  · exact h

theorem receiveAll_alike (allow : List IpAddr) (peer : IpAddr) (clock₁ clock₂ : ℕ → UInt64)
    (ds : List Datagram) {s t : Receiver} (h : Alike s t) :
    Alike (receiveAll allow peer clock₁ s ds) (receiveAll allow peer clock₂ t ds) := by
  induction ds generalizing s t with
  | nil => exact h
  | cons d ds ih => exact ih (round_alike _ peer clock₁ clock₂ d h)

/-! ### Accepted datagrams -/

/-- What the frames of a batch leave in the queue, and whether one was dropped. -/
theorem foldl_pushFrame_queue (clock : ℕ → UInt64) (frames : List Frame) (s : Receiver) :
    (frames.foldl (pushFrame clock) s).shared.q.map untimed =
      s.shared.q.map untimed ++
        ((frames.filter s.shared.filters.accepts).take (ringCap - s.shared.q.length)).map
          untimed ∧
    (frames.foldl (pushFrame clock) s).shared.overflow =
      (s.shared.overflow || decide (ringCap - s.shared.q.length <
        (frames.filter s.shared.filters.accepts).length)) := by
  induction frames generalizing s with
  | nil => simp
  | cons f frames ih =>
    obtain ⟨hfilters, -, hobserved⟩ := pushFrame_observed clock s f
    obtain ⟨hqueue, hoverflow⟩ := ih (pushFrame clock s f)
    have hq : (pushFrame clock s f).shared.q.map untimed = (observed (pushFrame clock s f)).1 :=
      rfl
    have ho : (pushFrame clock s f).shared.overflow = (observed (pushFrame clock s f)).2.1 := rfl
    have hlen : (pushFrame clock s f).shared.q.length =
        (observed (pushFrame clock s f)).1.length := by
      simp [observed]
    rw [List.foldl_cons, hqueue, hoverflow, hfilters, hq, ho, hlen, hobserved]
    by_cases haccepts : s.shared.filters.accepts f = true
    · by_cases hfull : s.shared.q.length ≥ ringCap
      · have hroom : ringCap - s.shared.q.length = 0 := by omega
        simp [haccepts, hfull, observed, hroom]
      · have hroom : ringCap - s.shared.q.length = ringCap - (s.shared.q.length + 1) + 1 := by
          omega
        simp [haccepts, hfull, observed, hroom]
    · simp [haccepts, observed]

/-- With the peer check on, for any allow-list and any shared state to start from: datagrams
from other sources and datagrams that the parser refuses have no effect on queue, latch and
callbacks. A malformed datagram changes nothing at all; one that is accepted queues its
frames in order, those that the filter admits and the ring has room for. -/
theorem rejected_traffic_no_effect (allow : List IpAddr) (peer : IpAddr) (shared : Shared)
    (clock₁ clock₂ : ℕ → UInt64) (ds₁ ds₂ : List Datagram)
    (h : (ds₁.filter fun d => Relevant allow peer d) = ds₂.filter fun d => Relevant allow peer d) :
    observed (receiveAll allow peer clock₁ (.start shared) ds₁) =
      observed (receiveAll allow peer clock₂ (.start shared) ds₂) ∧
    (∀ clock s d, parseUdp d.bytes = .ok none →
      udpRxRound (checking allow) peer clock s (.datagram d) = s) ∧
    (∀ clock s d frames, s.listening = true →
      d.source ∈ effectiveAllow (checking allow) peer → parseUdp d.bytes = .ok (some frames) →
      (udpRxRound (checking allow) peer clock s (.datagram d)).shared.q.map untimed =
        s.shared.q.map untimed ++
          ((frames.filter s.shared.filters.accepts).take (ringCap - s.shared.q.length)).map
            untimed ∧
      (udpRxRound (checking allow) peer clock s (.datagram d)).shared.overflow =
        (s.shared.overflow || decide (ringCap - s.shared.q.length <
          (frames.filter s.shared.filters.accepts).length))) := by
  refine ⟨?_, fun clock s d hparse => malformed_ignored _ peer clock s hparse,
    fun clock s d frames hlistening hsource hparse => ?_⟩
  · rw [receiveAll_relevant allow peer clock₁, receiveAll_relevant allow peer clock₂, h]
    exact (receiveAll_alike allow peer clock₁ clock₂ _ ⟨rfl, rfl, rfl, rfl⟩).observed
  · have hallowed := (sourceAllowed_iff allow peer d.source).mpr hsource
    simp only [udpRxRound, hlistening, hallowed, ↓reduceIte, guardedUdpIngest,
      datagramFrames_of_some hparse]
    exact foldl_pushFrame_queue clock frames s

/-- A spoofed datagram and one whose second frame is cut short, against silence. -/
theorem rejected_traffic_no_effect_spoofed :
    observed (receiveAll [] (.v4 1) (fun _ => 5) (.start Shared.new)
        [oneFrame (.v4 2), ⟨.v4 1, [2, 0, 0, 0, 2, 0, 0, 0, 1, 0, 0, 0], by decide⟩,
          oneFrame (.v4 1)]) =
      observed (receiveAll [] (.v4 1) (fun _ => 9) (.start Shared.new) [oneFrame (.v4 1)]) :=
  (rejected_traffic_no_effect [] (.v4 1) Shared.new (fun _ => 5) (fun _ => 9) _ _ rfl).1

end Kvasilloni.UdpInfluence
