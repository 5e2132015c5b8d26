import Kvasilloni.BridgeFlood
import Mathlib.Data.Fintype.BigOperators

/-!
Bridges over one pair of interfaces. With n of them every frame that comes in is taken up n
times, and every frame that is sent on is taken up by the n - 1 others: one bridge empties its
queues, two keep every frame going round, and more of them multiply it.
-/
namespace Kvasilloni.BridgePairs

open CanBridge BridgeFlood StepSystem Spawning

variable {κ μ : Type} {bridges : κ → Bridge}

/-! ### Bridges over one pair of interfaces -/

/-- Every bridge joins these two interfaces, in the one order or the other. -/
def OnePair (bridges : κ → Bridge) (a b : String) : Prop :=
  ∀ k, (bridges k).ifaceA = a ∧ (bridges k).ifaceB = b ∨
    (bridges k).ifaceA = b ∧ (bridges k).ifaceB = a

theorem onePair_src {a b : String} (h : OnePair bridges a b) (d : PumpId κ) :
    src bridges d = a ∨ src bridges d = b := by
  obtain ⟨k, flipped⟩ := d
  rcases h k with ⟨ha, hb⟩ | ⟨ha, hb⟩
  · cases flipped <;> simp [src, ha, hb]
  · cases flipped <;> simp [src, ha, hb]

/-- Each bridge reads each of the two interfaces with one of its pumps. -/
theorem onePair_readers {a b : String} (h : OnePair bridges a b) {iface : String}
    (hiface : iface = a ∨ iface = b) (k : κ) :
    (if src bridges (k, true) = iface then 1 else 0) +
      (if src bridges (k, false) = iface then 1 else 0) = 1 := by
  have hdiffer := (bridges k).differ
  rcases h k with ⟨ha, hb⟩ | ⟨ha, hb⟩ <;> rw [ha, hb] at hdiffer
  · rcases hiface with rfl | rfl
    · simp [src, ha, hb, hdiffer.symm]
    · simp [src, ha, hb, hdiffer]
  · rcases hiface with rfl | rfl
    · simp [src, ha, hb, hdiffer]
    · simp [src, ha, hb, hdiffer.symm]

variable [DecidableEq κ] [Fintype κ]

/-- A frame comes in from outside on an interface that is bridged. -/
def comesIn (bridges : κ → Bridge) (_ : System κ μ) : Label κ μ → Bool
  | .app iface _ _ => decide (∃ d, src bridges d = iface)
  | .signal _ => false
  | .pump _ _ _ => false

/-- The frames that the pumps of all bridges still have to send on. -/
def total (s : System κ μ) : ℕ := ∑ d, pending (s.pump d)

theorem total_transmit (s : System κ μ) (sender : Option (PumpId κ)) (iface : String) (m : μ) :
    total (transmit bridges s sender iface m []) =
      total s + ∑ d, if Hears bridges sender iface d then 1 else 0 := by
  unfold total
  rw [← Finset.sum_add_distrib]
  refine Finset.sum_congr rfl fun d _ => ?_
  by_cases hhears : Hears bridges sender iface d
  · simp only [transmit, hhears, if_true, Pump.arrive, List.not_mem_nil, decide_false,
      Bool.false_eq_true, if_false, pending, List.length_append, List.length_singleton]
    omega
  · simp [transmit, hhears]

theorem total_setPump (s : System κ μ) (d : PumpId κ) {p : Pump μ} {n : ℕ}
    (h : pending p + n = pending (s.pump d)) : total (setPump s d p) + n = total s := by
  have hone : (∑ e, if e = d then n else 0) = n := by simp
  have hall : ∀ e, pending ((setPump s d p).pump e) + (if e = d then n else 0) =
      pending (s.pump e) := by
    intro e
    by_cases he : e = d
    · subst he
      simpa using h
    · simp [he]
  have hsum := Finset.sum_congr rfl fun e (_ : e ∈ Finset.univ) => hall e
  rw [Finset.sum_add_distrib, hone] at hsum
  exact hsum

theorem sum_hears_none {a b : String} (h : OnePair bridges a b) (iface : String) :
    (∑ d, if Hears bridges none iface d then 1 else 0) =
      Fintype.card κ * (decide (∃ d, src bridges d = iface)).toNat := by
  have hhears : ∀ d, Hears bridges none iface d ↔ src bridges d = iface := by simp [Hears]
  simp only [hhears, Fintype.sum_prod_type, Fintype.sum_bool]
  by_cases hread : ∃ d, src bridges d = iface
  · have hiface : iface = a ∨ iface = b := by
      obtain ⟨d, rfl⟩ := hread
      exact onePair_src h d
    rw [Finset.sum_congr rfl fun k _ => onePair_readers h hiface k]
    simp [hread]
  · have hnone : ∀ d, src bridges d ≠ iface := fun d hd => hread ⟨d, hd⟩
    simp [hnone]

/-- What a pump sends is heard by one pump of every other bridge. -/
theorem sum_hears_some {a b : String} (h : OnePair bridges a b) (d : PumpId κ) :
    (∑ e, if Hears bridges (some d) (dst bridges d) e then 1 else 0) + 1 = Fintype.card κ := by
  have hown : (∑ e : PumpId κ, if e = back d then 1 else 0) = 1 := by simp
  have hall : ∀ e, (if Hears bridges (some d) (dst bridges d) e then 1 else 0) +
      (if e = back d then 1 else 0) = if src bridges e = dst bridges d then 1 else 0 := by
    intro e
    by_cases he : e = back d
    · subst he
      simp [Hears, dst]
    · have hne : d ≠ back e := fun hd => he (by simp [hd])
      simp [Hears, he, hne]
  have hread : ∃ e, src bridges e = dst bridges d := ⟨back d, rfl⟩
  have hcount := sum_hears_none h (dst bridges d)
  have hsum := Finset.sum_congr rfl fun e (_ : e ∈ Finset.univ) => hall e
  rw [Finset.sum_add_distrib, hown] at hsum
  rw [hsum]
  simpa [Hears, hread] using hcount

/-- The books of a run: what is pending and what has been sent on. -/
theorem step_total {a b : String} (h : OnePair bridges a b) {s s' : System κ μ} {l : Label κ μ}
    (hl : Undisturbed l) (hstep : step bridges s l = some s') :
    total s' + 2 * (isForward s l).toNat =
      total s + Fintype.card κ * ((comesIn bridges s l).toNat + (isForward s l).toNat) := by
  cases l with
  | app iface m lost =>
    obtain rfl := Option.some.inj hstep
    obtain rfl : lost = [] := hl
    rw [total_transmit, sum_hears_none h]
    simp [isForward, comesIn]
  | signal k => exact absurd hl id
  | pump d act lost =>
    obtain ⟨hkeeps, rfl⟩ := hl
    obtain ⟨⟨p, sent⟩, hpump, hs'⟩ := Option.map_eq_some_iff.mp hstep
    obtain ⟨hle, hsends, hge, -⟩ := step_spends hpump
    have hset := total_setPump s d (le_antisymm hle (hge hkeeps))
    cases sent with
    | none =>
      obtain rfl := hs'
      have hkind : isForward s (.pump d act [] : Label κ μ) = false := by
        cases act <;> first | rfl | simp at hsends
      simpa [hkind, comesIn] using hset
    | some m =>
      obtain rfl := hs'
      obtain rfl : act = .send := hsends.mp rfl
      have hmore :
          total (transmit bridges (setPump s d p) (some d) (dst bridges d) m []) = _ :=
        total_transmit (setPump s d p) (some d) (dst bridges d) m
      have hheard := sum_hears_some h d
      simp only [Option.toList_some, List.length_singleton] at hset
      simp only [isForward, comesIn, Bool.toNat_true, Bool.toNat_false, Nat.zero_add, Nat.mul_one]
      omega

theorem run_total {a b : String} (h : OnePair bridges a b) {s t : System κ μ}
    {ls : List (Label κ μ)} (hls : ∀ l ∈ ls, Undisturbed l)
    (hrun : run (step bridges) s ls = some t) :
    total t + 2 * countSteps (step bridges) isForward s ls =
      total s + Fintype.card κ * (countSteps (step bridges) (comesIn bridges) s ls +
        countSteps (step bridges) isForward s ls) := by
  induction ls generalizing s with
  | nil =>
    obtain rfl := Option.some.inj hrun
    simp [countSteps]
  | cons l ls ih =>
    obtain ⟨s', hl, hrest⟩ := run_cons.mp hrun
    have hone := step_total h (hls l (List.mem_cons_self ..)) hl
    have hmore := ih (fun k hk => hls k (List.mem_cons_of_mem l hk)) hrest
    simp only [countSteps, hl, Nat.mul_add] at hone hmore ⊢
    omega

/-- Where n bridges join the same two interfaces, in whichever order, and nothing is lost, the
frames that are still to be sent on are n for each frame that has come in and n - 2 for each
that has been sent on, in every interleaving: with one bridge no frame is sent on twice, with
two none ever goes away, and more of them multiply every frame. -/
theorem pair_amplification (bridges : κ → Bridge) {a b : String} (hpair : OnePair bridges a b)
    {ls : List (Label κ μ)} {t : System κ μ} (hquiet : ∀ l ∈ ls, Undisturbed l)
    (hrun : run (step bridges) (start bridges) ls = some t) :
    total t + 2 * countSteps (step bridges) isForward (start bridges) ls =
      Fintype.card κ * (countSteps (step bridges) (comesIn bridges) (start bridges) ls +
        countSteps (step bridges) isForward (start bridges) ls) := by
  have hidle : total (start bridges : System κ μ) = 0 := by simp [total, start, pending]
  have hrun := run_total hpair hquiet hrun
  omega

/-- One frame comes in at three bridges, and one of them sends it on: four copies to go. -/
def threeBridges : Fin 3 → Bridge := fun _ => ⟨"vcan0", "vcan1", vcan0_ne_vcan1⟩

theorem pair_amplification_threeBridges :
    ∃ t : System (Fin 3) ℕ, (t.wire "vcan1").map Prod.snd = [7] ∧ total t = 4 := by
  have hrun : ∃ t : System (Fin 3) ℕ, run (step threeBridges) (start threeBridges)
        (.app "vcan0" 7 [] :: pass (0, false)) = some t ∧
      (t.wire "vcan1").map Prod.snd = [7] := ⟨_, rfl, by decide⟩
  obtain ⟨t, hrun, hwire⟩ := hrun
  have hquiet : ∀ l ∈ (.app "vcan0" 7 [] :: pass (0, false) : List (Label (Fin 3) ℕ)),
      Undisturbed l := by simp [BridgeFlood.pass, Undisturbed, Act.keeps]
  have hpair : OnePair threeBridges "vcan0" "vcan1" := fun _ => Or.inl ⟨rfl, rfl⟩
  have hforwards : countSteps (step threeBridges) isForward (start threeBridges)
      (.app "vcan0" 7 [] :: pass (0, false) : List (Label (Fin 3) ℕ)) = 1 := rfl
  have hcomes : countSteps (step threeBridges) (comesIn threeBridges) (start threeBridges)
      (.app "vcan0" 7 [] :: pass (0, false) : List (Label (Fin 3) ℕ)) = 1 := by decide
  have hbooks := pair_amplification threeBridges hpair hquiet hrun
  rw [hforwards, hcomes, Fintype.card_fin] at hbooks
  exact ⟨t, hwire, by omega⟩

end Kvasilloni.BridgePairs
