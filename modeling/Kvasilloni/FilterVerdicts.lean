import Kvasilloni.Library.LastValue
import Kvasilloni.Marshal
import Kvasilloni.RingFifo

/-!
The acceptance filter seen from the reader. The filter takes its class and its id from the
raw identifier; the reader gets both from the translation. What is handed out is judged by
the reported id and class and by the directives that the app had given when the frame
arrived.
-/
namespace Kvasilloni.FilterVerdicts

open CheckedMemory Frames SharedRing RingFifo Marshal LastValue

/-- The two classes of identifiers, as a message flag reports them. -/
inductive IdClass
  | std
  | ext
  deriving DecidableEq

def classOf (flag : UInt32) : IdClass := if flag &&& canMsgExt ≠ 0 then .ext else .std

def IdClass.codeFlag : IdClass → UInt32
  | .std => 3
  | .ext => 5

def IdClass.maskFlag : IdClass → UInt32
  | .std => 4
  | .ext => 6

/-- The `canAccept` directives in a run, with their flag and their envelope. -/
def directives : List Op → List (UInt32 × UInt32)
  | [] => []
  | .setAccept flag envelope :: ops => (flag, envelope) :: directives ops
  | _ :: ops => directives ops

/-- The envelope of the latest directive with this flag; zero if there is none. -/
def latest (flag : UInt32) (ops : List Op) : UInt32 := (lastValue flag (directives ops)).getD 0

/-- The id matches the code under the mask, both of its class. -/
def Passes (ops : List Op) (id : Int32) (flag : UInt32) : Prop :=
  id.toUInt32 &&& latest (classOf flag).maskFlag ops =
    latest (classOf flag).codeFlag ops &&& latest (classOf flag).maskFlag ops

instance (ops : List Op) (id : Int32) (flag : UInt32) : Decidable (Passes ops id flag) :=
  inferInstanceAs (Decidable (_ = _))

/-- The verdict on a frame by its id and its flag in Kvaser terms. -/
abbrev FramePasses (ops : List Op) (f : Frame) : Prop :=
  Passes ops (canidToKvaser f.canId f.fd).1 (canidToKvaser f.canId f.fd).2

/-- The id and the flag that are reported for a frame, whenever both are. -/
def Reported (f : Frame) (id : Int32) (flag : UInt32) : Prop :=
  ∃ out out' fdCapable, writeReadOutputs f out fdCapable = .ok out' ∧
    out'.id = some id ∧ out'.flag = some flag

/-- The arriving frames with their timestamps, each with the operations before it. -/
def offeredAfter (pre : List Op) : List Op → List (List Op × Frame)
  | [] => []
  | .push now f :: ops => (pre, stamp now f) :: offeredAfter (pre ++ [.push now f]) ops
  | op :: ops => offeredAfter (pre ++ [op]) ops

/-- The frame a reply hands to the reader. -/
def readFrame : Reply → List Frame
  | .frame (some f) => [f]
  | _ => []

def handedOut (s : Shared) : List Op → List Frame
  | [] => []
  | op :: ops =>
    match exec s op with
    | none => []
    | some (s', reply) => readFrame reply ++ handedOut s' ops

/-! ### The filter in terms of the directives -/

theorem set_eq (a : Accept) (flag envelope : UInt32) : a.set flag envelope = {
    codeStd := if flag = 3 then envelope else a.codeStd
    maskStd := if flag = 4 then envelope else a.maskStd
    codeExt := if flag = 5 then envelope else a.codeExt
    maskExt := if flag = 6 then envelope else a.maskExt } := by
  unfold Accept.set
  by_cases h3 : flag = 3
  · subst h3; rfl
  by_cases h4 : flag = 4
  · subst h4; rfl
  by_cases h5 : flag = 5
  · subst h5; rfl
  by_cases h6 : flag = 6
  · subst h6; rfl
  rw [if_neg h3, if_neg h4, if_neg h5, if_neg h6, if_neg h3, if_neg h4, if_neg h5, if_neg h6]

theorem getD_lastValue_cons (k flag envelope old : UInt32) (es : List (UInt32 × UInt32)) :
    (lastValue k ((flag, envelope) :: es)).getD old =
      (lastValue k es).getD (if flag = k then envelope else old) := by
  rw [lastValue]
  cases lastValue k es with
  | some v => rfl
  | none => split <;> rfl

theorem filtersInForce_eq (a : Accept) (ops : List Op) :
    filtersInForce a ops = {
      codeStd := (lastValue 3 (directives ops)).getD a.codeStd
      maskStd := (lastValue 4 (directives ops)).getD a.maskStd
      codeExt := (lastValue 5 (directives ops)).getD a.codeExt
      maskExt := (lastValue 6 (directives ops)).getD a.maskExt } := by
  induction ops generalizing a with
  | nil => rfl
  | cons op ops ih =>
    cases op with
    | setAccept flag envelope =>
      rw [filtersInForce, directives, ih, set_eq, getD_lastValue_cons, getD_lastValue_cons,
        getD_lastValue_cons, getD_lastValue_cons]
    | _ => exact ih a

theorem classOf_canid (canId : UInt32) (fd : Bool) :
    classOf (canidToKvaser canId fd).2 = if canId &&& canEffFlag ≠ 0 then .ext else .std := by
  unfold classOf canidToKvaser
  by_cases hext : canId &&& canEffFlag = 0 <;> by_cases hrtr : canId &&& canRtrFlag = 0 <;>
    cases fd <;>
    simp only [hext, hrtr, Bool.false_eq_true, ne_eq, not_true_eq_false, not_false_eq_true,
      ↓reduceIte] <;>
    rfl

theorem classOf_deliveredFlag (f : Frame) (fdCapable : Bool) :
    classOf (deliveredFlag f fdCapable) =
      if f.canId &&& canEffFlag ≠ 0 then .ext else .std := by
  unfold deliveredFlag
  split
  · unfold classOf canidToKvaser fdFlagsToKvaser
    by_cases hext : f.canId &&& canEffFlag = 0 <;> by_cases hrtr : f.canId &&& canRtrFlag = 0 <;>
      by_cases hbrs : f.fdFlags &&& canfdBrs = 0 <;>
      by_cases hesi : f.fdFlags &&& canfdEsi = 0 <;>
      simp only [hext, hrtr, hbrs, hesi, ne_eq, not_true_eq_false, not_false_eq_true,
        ↓reduceIte] <;>
      rfl
  · exact classOf_canid f.canId false

/-- The verdict of the filter is the verdict on the reported id and class. -/
theorem accepts_iff (ops : List Op) (f : Frame) {id : Int32} {flag : UInt32}
    (hid : id = (canidToKvaser f.canId false).1)
    (hclass : classOf flag = if f.canId &&& canEffFlag ≠ 0 then .ext else .std) :
    (filtersInForce Accept.default ops).accepts f = true ↔ Passes ops id flag := by
  subst hid
  unfold Passes
  rw [hclass, filtersInForce_eq, Accept.accepts, beq_iff_eq]
  unfold canidToKvaser
  by_cases hext : f.canId &&& canEffFlag = 0
  · simp only [hext, ne_eq, not_true_eq_false, ↓reduceIte]
    rfl
  · simp only [hext, ne_eq, not_false_eq_true, ↓reduceIte]
    rfl

theorem reported_eq {f : Frame} {id : Int32} {flag : UInt32} (h : Reported f id flag) :
    id = (canidToKvaser f.canId false).1 ∧
      classOf flag = if f.canId &&& canEffFlag ≠ 0 then .ext else .std := by
  obtain ⟨out, out', fdCapable, hwrite, hid, hflag⟩ := h
  have hhead : out'.id = (withHead out f fdCapable).id ∧
      out'.flag = (withHead out f fdCapable).flag := by
    rw [writeReadOutputs_withHead] at hwrite
    cases hmsg : out.msg with
    | none =>
      rw [hmsg] at hwrite
      obtain rfl := Except.ok.inj hwrite
      exact ⟨rfl, rfl⟩
    | some dst =>
      rw [hmsg] at hwrite
      dsimp only at hwrite
      split at hwrite
      · obtain ⟨src, -, hwrite⟩ := bind_eq_ok.mp hwrite
        obtain ⟨dst', -, hwrite⟩ := bind_eq_ok.mp hwrite
        obtain rfl := Except.ok.inj hwrite
        exact ⟨rfl, rfl⟩
      · obtain rfl := Except.ok.inj hwrite
        exact ⟨rfl, rfl⟩
  rw [hhead.1] at hid
  rw [hhead.2] at hflag
  obtain ⟨_, -, rfl⟩ := Option.map_eq_some_iff.mp hid
  obtain ⟨_, -, rfl⟩ := Option.map_eq_some_iff.mp hflag
  exact ⟨rfl, classOf_deliveredFlag f fdCapable⟩

/-! ### Runs -/

theorem filtersInForce_append (a : Accept) (pre ops : List Op) :
    filtersInForce a (pre ++ ops) = filtersInForce (filtersInForce a pre) ops := by
  induction pre generalizing a with
  | nil => rfl
  | cons op pre ih => cases op <;> exact ih _

theorem readFrame_sublist {s s' : Shared} {op : Op} {reply : Reply}
    (h : exec s op = some (s', reply)) :
    (readFrame reply).Sublist (removedFrames s op reply) := by
  cases op with
  | clear =>
    obtain ⟨-, rfl⟩ := Prod.mk.inj (Option.some.inj h)
    exact List.nil_sublist _
  | _ =>
    cases reply with
    | frame f => cases f <;> exact List.Sublist.refl _
    | _ => exact List.nil_sublist _

theorem handedOut_sublist (s : Shared) (ops : List Op) :
    (handedOut s ops).Sublist (removals s ops) := by
  induction ops generalizing s with
  | nil => exact List.Sublist.refl _
  | cons op ops ih =>
    rw [handedOut, removals]
    cases hexec : exec s op with
    | none => exact List.Sublist.refl _
    | some r => exact (readFrame_sublist hexec).append (ih r.1)

/-- The frames that enter the ring are arrivals that the filter let through, each by the
directives before it. -/
theorem arrivals_accepted {pre ops : List Op} {s t : Shared}
    (hs : s.filters = filtersInForce Accept.default pre) (h : runOps s ops = some t) :
    ∃ es : List (List Op × Frame), es.Sublist (offeredAfter pre ops) ∧
      arrivals s ops = es.map Prod.snd ∧
      ∀ e ∈ es, (filtersInForce Accept.default e.1).accepts e.2 = true := by
  induction ops generalizing pre s with
  | nil => exact ⟨[], List.Sublist.refl _, rfl, by simp⟩
  | cons op ops ih =>
    obtain ⟨s', reply, hexec, hrest⟩ := runOps_cons.mp h
    have hs' : s'.filters = filtersInForce Accept.default (pre ++ [op]) := by
      rw [filtersInForce_append, ← hs]
      exact (exec_filters hexec []).symm
    obtain ⟨es, hsub, harrived, haccept⟩ := ih hs' hrest
    have hcons : arrivals s (op :: ops) = enteredFrames s op ++ arrivals s' ops := by
      simp only [arrivals, hexec]
    cases op with
    | push now f =>
      by_cases henter : s.filters.accepts f ∧ s.q.length < ringCap
      · refine ⟨(pre, stamp now f) :: es, hsub.cons_cons _, ?_, ?_⟩
        · rw [hcons, enteredFrames, if_pos henter, harrived]
          rfl
        · refine List.forall_mem_cons.mpr ⟨?_, haccept⟩
          rw [← hs]
          exact henter.1
      · refine ⟨es, hsub.cons _, ?_, haccept⟩
        rw [hcons, enteredFrames, if_neg henter, harrived]
        rfl
    | _ => exact ⟨es, hsub, hcons.trans harrived, haccept⟩

/-- What is handed out passed the directives before its arrival, by its reported id. -/
theorem handedOut_passes {ops : List Op} {s : Shared} (h : runOps Shared.new ops = some s) :
    ∃ es : List (List Op × Frame), es.Sublist (offeredAfter [] ops) ∧
      handedOut Shared.new ops = es.map Prod.snd ∧
      ∀ e ∈ es, ∀ id flag, Reported e.2 id flag → Passes e.1 id flag := by
  have hstart : Shared.new.filters = filtersInForce Accept.default [] := rfl
  obtain ⟨es, hsub, harrived, haccept⟩ := arrivals_accepted hstart h
  have hconserved : removals Shared.new ops ++ s.q = arrivals Shared.new ops :=
    runOps_conserves h
  have hout : (handedOut Shared.new ops).Sublist (es.map Prod.snd) := by
    rw [← harrived, ← hconserved]
    exact (handedOut_sublist _ _).trans (List.sublist_append_left _ _)
  obtain ⟨es', hes', heq⟩ := List.sublist_map_iff.mp hout
  refine ⟨es', hes'.trans hsub, heq, fun e he id flag hreported => ?_⟩
  obtain ⟨hid, hclass⟩ := reported_eq hreported
  exact (accepts_iff e.1 e.2 hid hclass).mp (haccept e (hes'.mem he))

/-! ### One arrival and one directive -/

theorem arrival_queued {ops : List Op} {s : Shared} (h : runOps Shared.new ops = some s)
    (now : UInt64) (f : Frame) :
    (FramePasses ops f → s.q.length < ringCap → (s.push now f).1.q = s.q ++ [stamp now f]) ∧
      (¬ FramePasses ops f → (s.push now f).1 = s) := by
  have hid : (canidToKvaser f.canId f.fd).1 = (canidToKvaser f.canId false).1 := rfl
  have hfilters : s.filters = filtersInForce Accept.default ops := runOps_filters h
  have hiff := accepts_iff ops f hid (classOf_canid f.canId f.fd)
  rw [← hfilters] at hiff
  refine ⟨fun hpass hroom => ?_, fun hpass => ?_⟩
  · have henqueue : s.enqueue (stamp now f) = ({ s with q := s.q ++ [stamp now f] }, true) :=
      if_neg (by omega)
    rw [Shared.push, if_pos (hiff.mpr hpass)]
    simp only [henqueue]
  · rw [Shared.push, if_neg fun haccept => hpass (hiff.mp haccept)]

/-- The directives that concern a class. -/
def ofClass (c : IdClass) (ops : List Op) : List (UInt32 × UInt32) :=
  (directives ops).filter fun d => d.1 = c.codeFlag ∨ d.1 = c.maskFlag

/-- Only the directives of its class decide on a frame. -/
theorem passes_congr {ops ops' : List Op} {flag : UInt32}
    (h : ofClass (classOf flag) ops = ofClass (classOf flag) ops') (id : Int32) :
    Passes ops id flag ↔ Passes ops' id flag := by
  have hlatest : ∀ k, (k = (classOf flag).codeFlag ∨ k = (classOf flag).maskFlag) →
      latest k ops = latest k ops' := by
    intro k hk
    have hall : ∀ ops, lastValue k (ofClass (classOf flag) ops) = lastValue k (directives ops) :=
      fun ops => lastValue_filter (fun v => decide_eq_true hk) _
    rw [latest, latest, ← hall ops, ← hall ops', h]
  unfold Passes
  rw [hlatest _ (Or.inl rfl), hlatest _ (Or.inr rfl)]

theorem setAccept_comm (s : Shared) {flag flag' : UInt32} (hne : flag ≠ flag')
    (envelope envelope' : UInt32) :
    (s.setAccept flag envelope).setAccept flag' envelope' =
      (s.setAccept flag' envelope').setAccept flag envelope := by
  have hkeep : ∀ k old : UInt32,
      (if flag' = k then envelope' else if flag = k then envelope else old) =
        if flag = k then envelope else if flag' = k then envelope' else old := by
    intro k old
    by_cases hk : flag' = k
    · subst hk
      rw [if_pos rfl, if_neg hne, if_pos rfl]
    · rw [if_neg hk, if_neg hk]
  simp only [Shared.setAccept, set_eq, hkeep]

theorem setAccept_unknown (s : Shared) {flag : UInt32}
    (hflag : flag ≠ 3 ∧ flag ≠ 4 ∧ flag ≠ 5 ∧ flag ≠ 6) (envelope : UInt32) :
    s.setAccept flag envelope = s := by
  obtain ⟨h3, h4, h5, h6⟩ := hflag
  rw [Shared.setAccept, Accept.set, if_neg h3, if_neg h4, if_neg h5, if_neg h6]

/-- In every run from a fresh state: what is handed to the reader passed, by its reported
id and class, the latest directives of that class before it arrived; an arrival that passes
them is queued if there is room, any other leaves no trace; the directives of the other
class never matter; directives with different flags commute, and unknown ones do nothing. -/
theorem filter_matches_reader (ops : List Op) (s : Shared)
    (hrun : runOps Shared.new ops = some s) :
    (∃ es : List (List Op × Frame), es.Sublist (offeredAfter [] ops) ∧
      handedOut Shared.new ops = es.map Prod.snd ∧
      ∀ e ∈ es, ∀ id flag, Reported e.2 id flag → Passes e.1 id flag) ∧
    (∀ now f,
      (FramePasses ops f → s.q.length < ringCap → (s.push now f).1.q = s.q ++ [stamp now f]) ∧
      (¬ FramePasses ops f → (s.push now f).1 = s)) ∧
    (∀ ops' s' f, runOps Shared.new ops' = some s' →
      ofClass (classOf (canidToKvaser f.canId f.fd).2) ops =
        ofClass (classOf (canidToKvaser f.canId f.fd).2) ops' →
      s.filters.accepts f = s'.filters.accepts f) ∧
    (∀ flag flag' envelope envelope', flag ≠ flag' →
      (s.setAccept flag envelope).setAccept flag' envelope' =
        (s.setAccept flag' envelope').setAccept flag envelope) ∧
    ∀ flag envelope, flag ≠ 3 ∧ flag ≠ 4 ∧ flag ≠ 5 ∧ flag ≠ 6 →
      s.setAccept flag envelope = s := by
  refine ⟨handedOut_passes hrun, arrival_queued hrun, fun ops' s' f hrun' hsame => ?_,
    fun flag flag' envelope envelope' hne => setAccept_comm s hne envelope envelope',
    fun flag envelope hflag => setAccept_unknown s hflag envelope⟩
  have hid : (canidToKvaser f.canId f.fd).1 = (canidToKvaser f.canId false).1 := rfl
  have hclass := classOf_canid f.canId f.fd
  have hfilters : s.filters = filtersInForce Accept.default ops := runOps_filters hrun
  have hfilters' : s'.filters = filtersInForce Accept.default ops' := runOps_filters hrun'
  rw [hfilters, hfilters', Bool.eq_iff_iff, accepts_iff ops f hid hclass,
    accepts_iff ops' f hid hclass]
  exact passes_congr hsame _

/-- Under the filter of the run its second frame leaves no trace. -/
theorem filter_matches_reader_filtered :
    (Shared.push { Shared.new with filters := ⟨1, 0x7FF, 0, 0⟩ } 0 Frame.default).1 =
      { Shared.new with filters := ⟨1, 0x7FF, 0, 0⟩ } := by
  have h := filter_matches_reader filteredRun
    { Shared.new with filters := ⟨1, 0x7FF, 0, 0⟩ } rfl
  exact (h.2.1 0 Frame.default).2 (by decide)

end Kvasilloni.FilterVerdicts
