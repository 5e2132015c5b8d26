import Mathlib.Data.Option.Basic

/-!
Systems that move from state to state by labelled steps. A run is a list of labels
whose steps are all possible one after the other; the order of the labels is the
interleaving of the parties. What every step keeps holds throughout a run, and so
does what every step that meets a guard keeps, in a run that meets it throughout.
-/
namespace StepSystem

variable {σ ι : Type*} (step : σ → ι → Option σ)

def run (s : σ) : List ι → Option σ
  | [] => some s
  | l :: ls =>
    match step s l with
    | none => none
    | some s' => run s' ls

/-- Every step of the run meets the guard. -/
def Guarded (guard : σ → ι → Prop) (s : σ) : List ι → Prop
  | [] => True
  | l :: ls => guard s l ∧ ∀ s', step s l = some s' → Guarded guard s' ls

variable {step}

@[simp] theorem run_nil (s : σ) : run step s [] = some s := rfl

theorem run_cons {s t : σ} {l : ι} {ls : List ι} :
    run step s (l :: ls) = some t ↔ ∃ s', step s l = some s' ∧ run step s' ls = some t := by
  simp only [run]
  cases h : step s l with
  | none => simp
  | some s' => simp

theorem run_append {s t : σ} {ls ks : List ι} :
    run step s (ls ++ ks) = some t ↔
      ∃ u, run step s ls = some u ∧ run step u ks = some t := by
  induction ls generalizing s with
  | nil => simp
  | cons l ls ih =>
    simp only [List.cons_append, run_cons, ih]
    constructor
    · rintro ⟨s', hstep, u, hls, hks⟩
      exact ⟨u, ⟨s', hstep, hls⟩, hks⟩
    · rintro ⟨u, ⟨s', hstep, hls⟩, hks⟩
      exact ⟨s', hstep, u, hls, hks⟩

theorem guarded_append {guard : σ → ι → Prop} {s : σ} {ls ks : List ι}
    (hls : Guarded step guard s ls) (hks : ∀ t, run step s ls = some t → Guarded step guard t ks) :
    Guarded step guard s (ls ++ ks) := by
  induction ls generalizing s with
  | nil => exact hks s rfl
  | cons l ls ih =>
    refine ⟨hls.1, fun s' hl => ih (hls.2 s' hl) fun t hrun => ?_⟩
    exact hks t (run_cons.mpr ⟨s', hl, hrun⟩)

/-- A run of labels that meet the guard in every state. -/
theorem guarded_of_forall {guard : σ → ι → Prop} {ls : List ι}
    (h : ∀ l ∈ ls, ∀ s, guard s l) (s : σ) : Guarded step guard s ls := by
  induction ls generalizing s with
  | nil => exact trivial
  | cons l ls ih =>
    refine ⟨h l (List.mem_cons_self ..) s, fun s' _ => ih (fun k hk => ?_) s'⟩
    exact h k (List.mem_cons_of_mem l hk)

theorem Guarded.mono {guard guard' : σ → ι → Prop} {s : σ} {ls : List ι}
    (h : Guarded step guard s ls) (hguard : ∀ s l, guard s l → guard' s l) :
    Guarded step guard' s ls := by
  induction ls generalizing s with
  | nil => exact trivial
  | cons l ls ih => exact ⟨hguard s l h.1, fun s' hl => ih (h.2 s' hl)⟩

/-- A guard on the labels alone holds of every label of the run. -/
theorem Guarded.forall_mem {usable : ι → Prop} {s t : σ} {ls : List ι}
    (h : Guarded step (fun _ => usable) s ls) (hrun : run step s ls = some t) :
    ∀ l ∈ ls, usable l := by
  induction ls generalizing s with
  | nil => exact fun l hl => absurd hl List.not_mem_nil
  | cons l ls ih =>
    obtain ⟨s', hl, hrest⟩ := run_cons.mp hrun
    exact List.forall_mem_cons.mpr ⟨h.1, ih (h.2 s' hl) hrest⟩

instance decidableGuarded {guard : σ → ι → Prop} [∀ s l, Decidable (guard s l)] :
    ∀ (s : σ) (ls : List ι), Decidable (Guarded step guard s ls)
  | _, [] => isTrue trivial
  | s, l :: ls =>
    match hl : step s l with
    | none => decidable_of_iff (guard s l)
        ⟨fun h => ⟨h, fun s' hs' => by rw [hl] at hs'; cases hs'⟩, fun h => h.1⟩
    | some s' =>
      have hrest : Decidable (Guarded step guard s' ls) := decidableGuarded s' ls
      decidable_of_iff (guard s l ∧ Guarded step guard s' ls)
        ⟨fun h => ⟨h.1, fun t ht => by rw [hl] at ht; cases ht; exact h.2⟩,
          fun h => ⟨h.1, h.2 s' hl⟩⟩

/-- What every step keeps holds in every state a run reaches. -/
theorem run_invariant {inv : σ → Prop}
    (hstep : ∀ s l s', inv s → step s l = some s' → inv s')
    {s t : σ} {ls : List ι} (hs : inv s) (h : run step s ls = some t) : inv t := by
  induction ls generalizing s with
  | nil =>
    obtain rfl := Option.some.inj h
    exact hs
  | cons l ls ih =>
    obtain ⟨s', hl, hrest⟩ := run_cons.mp h
    exact ih (hstep s l s' hs hl) hrest

/-- What every guarded step keeps holds in every state a guarded run reaches. -/
theorem run_invariant_of_guarded {inv : σ → Prop} {guard : σ → ι → Prop}
    (hstep : ∀ s l s', inv s → guard s l → step s l = some s' → inv s')
    {s t : σ} {ls : List ι} (hs : inv s) (hguard : Guarded step guard s ls)
    (h : run step s ls = some t) : inv t := by
  induction ls generalizing s with
  | nil =>
    obtain rfl := Option.some.inj h
    exact hs
  | cons l ls ih =>
    obtain ⟨s', hl, hrest⟩ := run_cons.mp h
    exact ih (hstep s l s' hs hguard.1 hl) (hguard.2 s' hl) hrest

end StepSystem
