import Kvasilloni.BridgeFlood
import Mathlib.Data.String.Basic
import Mathlib.Data.List.Basic

/-!
The lock of a pair of interfaces. A bridge takes it before it starts, and the system gives
it back when the process ends. So no two bridges of a user join the same two interfaces,
unless one of them was forced, and a frame comes back to a bridge only by way of two others
at least.
-/
namespace Kvasilloni.BridgeLock

open CanBridge BridgeFlood StepSystem

/-- `sorted((iface_a, iface_b))`. -/
def sortedPair (a b : String) : String × String := if b < a then (b, a) else (a, b)

/-- `"-".join(sorted((iface_a, iface_b)))`. -/
def pairKey (b : Bridge) : String :=
  let pair := sortedPair b.ifaceA b.ifaceB
  pair.1 ++ "-" ++ pair.2

/-- The path of the lock, with the directory for temporary files and the user's number. -/
def lockPath (dir uid : String) (b : Bridge) : String :=
  dir ++ "/canbridge-" ++ uid ++ "-" ++ (pairKey b ++ ".lock")

/-- A bridge that runs, and whether it was started with `--force`. -/
structure Process where
  bridge : Bridge
  force : Bool

variable {ρ : Type}

/-- The bridges of one user, and which of them holds the lock on a file. -/
structure Host (ρ : Type) where
  running : ρ → Option Process
  flock : String → Option ρ

def idle (ρ : Type) : Host ρ := ⟨fun _ => none, fun _ => none⟩

/-- The bridges that run and were not forced. -/
abbrev Unforced (host : Host ρ) := {pid : ρ // ∃ p, host.running pid = some p ∧ p.force = false}

def bridgeOf (host : Host ρ) (k : Unforced host) : Bridge :=
  ((host.running k.1).get (by
    obtain ⟨p, hp, -⟩ := k.2
    simp [hp])).bridge

theorem bridgeOf_eq {host : Host ρ} (k : Unforced host) {p : Process}
    (hp : host.running k.1 = some p) : bridgeOf host k = p.bridge := by
  simp [bridgeOf, hp]

inductive Label (ρ : Type)
  | start (pid : ρ) (ifaceA ifaceB : String) (force opens : Bool)
  | exit (pid : ρ)

variable [DecidableEq ρ] (dir uid : String)

/-- `acquire_pair_lock`. -/
def acquirePairLock (host : Host ρ) (pid : ρ) (b : Bridge) : Option (Host ρ) :=
  match host.flock (lockPath dir uid b) with
  | some _ => none
  | none => some { host with flock := Function.update host.flock (lockPath dir uid b) (some pid) }

def runBridge (host : Host ρ) (pid : ρ) (p : Process) : Host ρ :=
  { host with running := Function.update host.running pid (some p) }

/-- `main` from the lock up to the start of the pumps. A bridge that is turned away or cannot
open its interfaces exits, and gives a lock back that it may have taken. -/
def startBridge (host : Host ρ) (pid : ρ) (b : Bridge) (force opens : Bool) : Host ρ :=
  match acquirePairLock dir uid host pid b with
  | some locked => if opens then runBridge locked pid ⟨b, force⟩ else host
  | none => if force && opens then runBridge host pid ⟨b, force⟩ else host

def main (host : Host ρ) (pid : ρ) (ifaceA ifaceB : String) (force opens : Bool) : Host ρ :=
  if h : ifaceA = ifaceB then host
  else startBridge dir uid host pid ⟨ifaceA, ifaceB, h⟩ force opens

def step (host : Host ρ) : Label ρ → Option (Host ρ)
  | .start pid ifaceA ifaceB force opens =>
    if (host.running pid).isSome then none
    else some (main dir uid host pid ifaceA ifaceB force opens)
  | .exit pid =>
    if (host.running pid).isSome then
      some ⟨Function.update host.running pid none, fun path =>
        if host.flock path = some pid then none else host.flock path⟩
    else none

/-! ### The key of a pair -/

/-- The same two interfaces, in either order. -/
def SamePair (b c : Bridge) : Prop :=
  b.ifaceA = c.ifaceA ∧ b.ifaceB = c.ifaceB ∨ b.ifaceA = c.ifaceB ∧ b.ifaceB = c.ifaceA

def DashFree (b : Bridge) : Prop := '-' ∉ b.ifaceA.toList ∧ '-' ∉ b.ifaceB.toList

theorem sortedPair_comm (a b : String) : sortedPair a b = sortedPair b a := by
  unfold sortedPair
  rcases lt_trichotomy a b with h | h | h
  · simp [h, not_lt_of_gt h]
  · simp [h]
  · simp [h, not_lt_of_gt h]

theorem sortedPair_eq (a b : String) : sortedPair a b = (a, b) ∨ sortedPair a b = (b, a) := by
  unfold sortedPair
  split
  · exact Or.inr rfl
  · exact Or.inl rfl

theorem pairKey_of_samePair {b c : Bridge} (h : SamePair b c) : pairKey b = pairKey c := by
  unfold pairKey
  rcases h with ⟨ha, hb⟩ | ⟨ha, hb⟩
  · rw [ha, hb]
  · rw [ha, hb, sortedPair_comm]

/-- A dash that is in neither first name ends them both. -/
theorem dash_split {x y z w : List Char} (hx : '-' ∉ x) (hz : '-' ∉ z)
    (h : x ++ '-' :: y = z ++ '-' :: w) : x = z ∧ y = w := by
  induction x generalizing z with
  | nil =>
    cases z with
    | nil => exact ⟨rfl, (List.cons.inj h).2⟩
    | cons c z =>
      have hc : '-' = c := (List.cons.inj h).1
      exact absurd (hc ▸ List.mem_cons_self ..) hz
  | cons c x ih =>
    cases z with
    | nil =>
      have hc : c = '-' := (List.cons.inj h).1
      exact absurd (hc ▸ List.mem_cons_self ..) hx
    | cons c' z =>
      obtain ⟨rfl, hrest⟩ := List.cons.inj h
      have hrec := ih (fun hmem => hx (List.mem_cons_of_mem _ hmem))
        (fun hmem => hz (List.mem_cons_of_mem _ hmem)) hrest
      exact ⟨congrArg (c :: ·) hrec.1, hrec.2⟩

theorem join_inj {a b c d : String} (ha : '-' ∉ a.toList) (hc : '-' ∉ c.toList)
    (h : a ++ "-" ++ b = c ++ "-" ++ d) : a = c ∧ b = d := by
  have hlist := congrArg String.toList h
  simp only [String.toList_append, List.append_assoc] at hlist
  obtain ⟨hfirst, hsecond⟩ := dash_split ha hc hlist
  exact ⟨String.toList_injective hfirst, String.toList_injective hsecond⟩

theorem samePair_of_pairKey {b c : Bridge} (hb : DashFree b) (hc : DashFree c)
    (h : pairKey b = pairKey c) : SamePair b c := by
  unfold pairKey at h
  rcases sortedPair_eq b.ifaceA b.ifaceB with hsb | hsb <;>
    rcases sortedPair_eq c.ifaceA c.ifaceB with hsc | hsc <;> simp only [hsb, hsc] at h
  · exact Or.inl (join_inj hb.1 hc.1 h)
  · exact Or.inr (join_inj hb.1 hc.2 h)
  · exact Or.inr (join_inj hb.2 hc.1 h).symm
  · exact Or.inl (join_inj hb.2 hc.2 h).symm

theorem lockPath_inj {b c : Bridge} (h : lockPath dir uid b = lockPath dir uid c) :
    pairKey b = pairKey c := by
  have hlist := congrArg String.toList h
  unfold lockPath at hlist
  simp only [String.toList_append] at hlist
  have hkey := List.append_cancel_left hlist
  exact String.toList_injective (List.append_cancel_right hkey)

/-! ### Runs of starts and exits -/

/-- A lock that is held belongs to the bridge of its pair, and a bridge that was not forced
holds its lock. -/
structure Inv (host : Host ρ) : Prop where
  held : ∀ path pid, host.flock path = some pid →
    ∃ p, host.running pid = some p ∧ path = lockPath dir uid p.bridge
  holds : ∀ pid p, host.running pid = some p → p.force = false →
    host.flock (lockPath dir uid p.bridge) = some pid

theorem startBridge_free {host : Host ρ} {b : Bridge}
    (hfree : host.flock (lockPath dir uid b) = none) (pid : ρ) (force opens : Bool) :
    startBridge dir uid host pid b force opens =
      if opens then
        runBridge ⟨host.running, Function.update host.flock (lockPath dir uid b) (some pid)⟩
          pid ⟨b, force⟩
      else host := by
  simp [startBridge, acquirePairLock, hfree]

theorem startBridge_taken {host : Host ρ} {b : Bridge} {holder : ρ}
    (htaken : host.flock (lockPath dir uid b) = some holder) (pid : ρ) (force opens : Bool) :
    startBridge dir uid host pid b force opens =
      if force && opens then runBridge host pid ⟨b, force⟩ else host := by
  simp [startBridge, acquirePairLock, htaken]

/-- A process that was not running gets the lock of its pair. -/
theorem locked_inv {host : Host ρ} (h : Inv dir uid host) {pid : ρ}
    (hidle : host.running pid = none) {b : Bridge}
    (hfree : host.flock (lockPath dir uid b) = none) (force : Bool) :
    Inv dir uid (runBridge
      ⟨host.running, Function.update host.flock (lockPath dir uid b) (some pid)⟩
      pid ⟨b, force⟩) := by
  constructor
  · intro path other hpath
    by_cases hb : path = lockPath dir uid b
    · subst hb
      obtain rfl : pid = other := by simpa [runBridge] using hpath
      exact ⟨⟨b, force⟩, by simp [runBridge], rfl⟩
    · have hold : host.flock path = some other := by simpa [runBridge, hb] using hpath
      obtain ⟨p, hp, hpair⟩ := h.held path other hold
      have hne : other ≠ pid := by
        rintro rfl
        simp [hidle] at hp
      exact ⟨p, by simpa [runBridge, hne] using hp, hpair⟩
  · intro other p hp hforce
    by_cases hother : other = pid
    · subst hother
      obtain rfl : ⟨b, force⟩ = p := by simpa [runBridge] using hp
      simp [runBridge]
    · have hold := h.holds other p (by simpa [runBridge, hother] using hp) hforce
      have hne : lockPath dir uid p.bridge ≠ lockPath dir uid b := by
        intro heq
        simp [heq, hfree] at hold
      simpa [runBridge, hne] using hold

/-- A process that was not running goes on without the lock. -/
theorem forced_inv {host : Host ρ} (h : Inv dir uid host) {pid : ρ}
    (hidle : host.running pid = none) (b : Bridge) :
    Inv dir uid (runBridge host pid ⟨b, true⟩) := by
  constructor
  · intro path other hpath
    obtain ⟨p, hp, hpair⟩ := h.held path other hpath
    have hne : other ≠ pid := by
      rintro rfl
      simp [hidle] at hp
    exact ⟨p, by simpa [runBridge, hne] using hp, hpair⟩
  · intro other p hp hforce
    have hne : other ≠ pid := by
      rintro rfl
      obtain rfl : ⟨b, true⟩ = p := by simpa [runBridge] using hp
      cases hforce
    exact h.holds other p (by simpa [runBridge, hne] using hp) hforce

theorem main_inv {host : Host ρ} (h : Inv dir uid host) {pid : ρ}
    (hidle : host.running pid = none) (ifaceA ifaceB : String) (force opens : Bool) :
    Inv dir uid (main dir uid host pid ifaceA ifaceB force opens) := by
  unfold main
  split
  · exact h
  next hdiffer =>
    cases hlock : host.flock (lockPath dir uid ⟨ifaceA, ifaceB, hdiffer⟩) with
    | none =>
      rw [startBridge_free dir uid hlock]
      split
      · exact locked_inv dir uid h hidle hlock force
      · exact h
    | some holder =>
      rw [startBridge_taken dir uid hlock]
      split
      next hboth =>
        obtain ⟨rfl, -⟩ := Bool.and_eq_true_iff.mp hboth
        exact forced_inv dir uid h hidle _
      · exact h

theorem step_inv {host host' : Host ρ} {l : Label ρ} (h : Inv dir uid host)
    (hstep : step dir uid host l = some host') : Inv dir uid host' := by
  cases l with
  | start pid ifaceA ifaceB force opens =>
    simp only [step] at hstep
    split at hstep
    · cases hstep
    next hidle =>
      obtain rfl := Option.some.inj hstep
      exact main_inv dir uid h (by simpa using hidle) ifaceA ifaceB force opens
  | exit pid =>
    simp only [step] at hstep
    split at hstep
    · obtain rfl := Option.some.inj hstep
      constructor
      · intro path other hpath
        by_cases hgone : host.flock path = some pid
        · simp [hgone] at hpath
        · have hold : host.flock path = some other := by simpa [hgone] using hpath
          have hne : other ≠ pid := by
            rintro rfl
            exact hgone hold
          simpa [hne] using h.held path other hold
      · intro other p hp hforce
        have hne : other ≠ pid := by
          rintro rfl
          simp at hp
        have hold := h.holds other p (by simpa [hne] using hp) hforce
        simp [hold, hne]
    · cases hstep

theorem run_inv {ls : List (Label ρ)} {host : Host ρ}
    (h : run (step dir uid) (idle ρ) ls = some host) : Inv dir uid host := by
  refine run_invariant (fun _ _ _ => step_inv dir uid) ⟨?_, ?_⟩ h
  · intro _ _ hnone
    cases hnone
  · intro _ _ hnone
    cases hnone

/-! ### Main results -/

/-- Two pumps that feed each other belong to two bridges over one pair. -/
theorem samePair_of_feeds {κ : Type} {bridges : κ → Bridge} {d e : PumpId κ}
    (h : Feeds bridges d e) (hback : Feeds bridges e d) :
    SamePair (bridges d.1) (bridges e.1) := by
  obtain ⟨k, flipped⟩ := d
  obtain ⟨j, other⟩ := e
  have hthere := h.1
  have hhere := hback.1
  cases flipped <;> cases other <;> simp [src, dst, back] at hthere hhere
  · exact Or.inr ⟨hhere, hthere.symm⟩
  · exact Or.inl ⟨hhere, hthere.symm⟩
  · exact Or.inl ⟨hthere.symm, hhere⟩
  · exact Or.inr ⟨hthere.symm, hhere⟩

/-- However bridges are started and end, no two of a user that were not forced join the same
two interfaces, in whichever order, and so no two of their pumps feed each other: a frame
comes round only by way of three bridges or more. -/
theorem pairs_bridged_once {ls : List (Label ρ)} {host : Host ρ}
    (h : run (step dir uid) (idle ρ) ls = some host) :
    (∀ i j : Unforced host, SamePair (bridgeOf host i) (bridgeOf host j) → i = j) ∧
      (∀ d e : PumpId (Unforced host),
        Feeds (bridgeOf host) d e → ¬ Feeds (bridgeOf host) e d) ∧
      ∀ d : PumpId (Unforced host), Relation.TransGen (Feeds (bridgeOf host)) d d →
        ∃ e f, Feeds (bridgeOf host) d e ∧ Feeds (bridgeOf host) e f ∧
          Relation.ReflTransGen (Feeds (bridgeOf host)) f d ∧
          d.1 ≠ e.1 ∧ e.1 ≠ f.1 ∧ d.1 ≠ f.1 := by
  have hinv := run_inv dir uid h
  have honce : ∀ i j : Unforced host, SamePair (bridgeOf host i) (bridgeOf host j) → i = j := by
    intro i j hpair
    obtain ⟨p, hp, hpforce⟩ := i.2
    obtain ⟨q, hq, hqforce⟩ := j.2
    rw [bridgeOf_eq i hp, bridgeOf_eq j hq] at hpair
    have hi := hinv.holds i.1 p hp hpforce
    have hj := hinv.holds j.1 q hq hqforce
    rw [lockPath, pairKey_of_samePair hpair, ← lockPath, hj] at hi
    exact Subtype.ext (Option.some.inj hi).symm
  have hone : ∀ d e : PumpId (Unforced host),
      Feeds (bridgeOf host) d e → ¬ Feeds (bridgeOf host) e d :=
    fun d e hfeeds hback => hfeeds.bridge_ne (honce d.1 e.1 (samePair_of_feeds hfeeds hback))
  refine ⟨honce, hone, fun d hcycle => ?_⟩
  obtain ⟨e, hfirst, hrest⟩ := Relation.TransGen.head'_iff.mp hcycle
  rcases Relation.ReflTransGen.cases_head hrest with rfl | ⟨f, hsecond, hlast⟩
  · exact absurd rfl hfirst.bridge_ne
  · refine ⟨e, f, hfirst, hsecond, hlast, hfirst.bridge_ne, hsecond.bridge_ne, fun hsame => ?_⟩
    rcases eq_or_back hsame with rfl | rfl
    · exact hone _ _ hfirst hsecond
    · exact hfirst.not_back hsecond

/-- The same pair twice, the second time the other way round. -/
def startedTwice : List (Label ℕ) :=
  [.start 1 "vcan0" "vcan1" false true, .start 2 "vcan1" "vcan0" false true]

theorem pairs_bridged_once_startedTwice :
    ∃ host : Host ℕ, (host.running 1).isSome = true ∧ host.running 2 = none ∧
      ∀ d e : PumpId (Unforced host), Feeds (bridgeOf host) d e →
        ¬ Feeds (bridgeOf host) e d := by
  have hrun : ∃ host, run (step "/tmp" "1000") (idle ℕ) startedTwice = some host ∧
      (host.running 1).isSome = true ∧ host.running 2 = none := ⟨_, rfl, by decide, by decide⟩
  obtain ⟨host, hrun, hone, htwo⟩ := hrun
  exact ⟨host, hone, htwo, (pairs_bridged_once "/tmp" "1000" hrun).2.1⟩

/-- With interface names that have no dash in them, a bridge is turned away exactly if one
over the same pair holds the lock, in whichever order that one was given its interfaces. -/
theorem turned_away_iff {ls : List (Label ρ)} {host : Host ρ}
    (h : run (step dir uid) (idle ρ) ls = some host)
    (hnames : ∀ i p, host.running i = some p → DashFree p.bridge) {pid : ρ}
    (hidle : host.running pid = none) (b : Bridge) (hb : DashFree b) :
    main dir uid host pid b.ifaceA b.ifaceB false true = host ↔
      ∃ i p, host.running i = some p ∧ host.flock (lockPath dir uid p.bridge) = some i ∧
        SamePair p.bridge b := by
  have hinv := run_inv dir uid h
  have hmain : main dir uid host pid b.ifaceA b.ifaceB false true =
      startBridge dir uid host pid b false true := by simp [main, b.differ]
  rw [hmain]
  constructor
  · intro hsame
    cases hlock : host.flock (lockPath dir uid b) with
    | none =>
      rw [startBridge_free dir uid hlock, if_pos rfl] at hsame
      have hruns := congrArg (fun host => host.running pid) hsame
      simp [runBridge, hidle] at hruns
    | some i =>
      obtain ⟨p, hp, hpath⟩ := hinv.held _ i hlock
      refine ⟨i, p, hp, hpath ▸ hlock, ?_⟩
      exact samePair_of_pairKey (hnames i p hp) hb (lockPath_inj dir uid hpath.symm)
  · rintro ⟨i, p, -, hlock, hpair⟩
    rw [lockPath, pairKey_of_samePair hpair, ← lockPath] at hlock
    rw [startBridge_taken dir uid hlock]
    rfl

theorem turned_away_iff_startedOnce :
    ∃ host : Host ℕ, (host.running 1).isSome = true ∧
      (main "/tmp" "1000" host 2 "vcan1" "vcan0" false true = host ↔
        ∃ i p, host.running i = some p ∧
          host.flock (lockPath "/tmp" "1000" p.bridge) = some i ∧
          SamePair p.bridge ⟨"vcan1", "vcan0", by decide⟩) := by
  have hrun : ∃ host : Host ℕ, run (step "/tmp" "1000") (idle ℕ)
        [.start 1 "vcan0" "vcan1" false true] = some host ∧
      host.running = Function.update (fun _ => none) 1
        (some ⟨⟨"vcan0", "vcan1", by decide⟩, false⟩) := ⟨_, rfl, rfl⟩
  obtain ⟨host, hrun, hrunning⟩ := hrun
  have hnames : ∀ i p, host.running i = some p → DashFree p.bridge := by
    intro i p hp
    rw [hrunning] at hp
    by_cases hi : i = 1
    · subst hi
      obtain rfl := Option.some.inj hp
      exact ⟨by decide, by decide⟩
    · simp [hi] at hp
  refine ⟨host, by simp [hrunning], ?_⟩
  exact turned_away_iff "/tmp" "1000" hrun hnames (by simp [hrunning])
    ⟨"vcan1", "vcan0", by decide⟩ ⟨by decide, by decide⟩

end Kvasilloni.BridgeLock
