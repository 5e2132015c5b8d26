import Kvasilloni.Library.StepSystem

/-!
One part of a system seen by itself. Every step of the system shows the part some labels,
mostly one or none. Where these are a run of the part for each step of the system, what a
whole run shows is a run of the part: its state depends on nothing else. What a run shows
can also be a record of it, with the state as its balance.
-/
namespace StepSystem

variable {σ ι τ κ μ : Type*}

/-- What the part is shown by a run of the system. -/
def shown (step : σ → ι → Option σ) (hears : σ → ι → List κ) (s : σ) : List ι → List κ
  | [] => []
  | l :: ls =>
    match step s l with
    | none => []
    | some s' => hears s l ++ shown step hears s' ls

variable {step : σ → ι → Option σ} {part : τ → κ → Option τ}

theorem run_shown (view : σ → τ) (hears : σ → ι → List κ)
    (hstep : ∀ s l s', step s l = some s' → run part (view s) (hears s l) = some (view s'))
    {s t : σ} {ls : List ι} (h : run step s ls = some t) :
    run part (view s) (shown step hears s ls) = some (view t) := by
  induction ls generalizing s with
  | nil =>
    obtain rfl := Option.some.inj h
    rfl
  | cons l ls ih =>
    obtain ⟨s', hl, hrest⟩ := run_cons.mp h
    simp only [shown, hl]
    exact run_append.mpr ⟨view s', hstep s l s' hl, ih hrest⟩

/-- What is shown of every step after some reading is that reading of what is shown. -/
theorem shown_map (hears : σ → ι → List κ) {g : List κ → List μ} (hnil : g [] = [])
    (happend : ∀ xs ys, g (xs ++ ys) = g xs ++ g ys) (s : σ) (ls : List ι) :
    shown step (fun s l => g (hears s l)) s ls = g (shown step hears s ls) := by
  induction ls generalizing s with
  | nil => exact hnil.symm
  | cons l ls ih =>
    simp only [shown]
    cases hl : step s l with
    | none => exact hnil.symm
    | some s' => simp only [ih, happend]

/-- What a run shows of its labels alone. -/
theorem shown_labels {hears : ι → List κ} {s t : σ} {ls : List ι} (h : run step s ls = some t) :
    shown step (fun _ => hears) s ls = ls.flatMap hears := by
  induction ls generalizing s with
  | nil => rfl
  | cons l ls ih =>
    obtain ⟨s', hl, hrest⟩ := run_cons.mp h
    simp only [shown, hl, List.flatMap_cons, ih hrest]

/-- What every step keeps of the state and of all that has been shown holds of a run. -/
theorem run_shown_invariant {hears : σ → ι → List κ} {inv : σ → List κ → Prop}
    (hstep : ∀ s xs l s', inv s xs → step s l = some s' → inv s' (xs ++ hears s l))
    {s t : σ} {xs : List κ} {ls : List ι} (hs : inv s xs) (h : run step s ls = some t) :
    inv t (xs ++ shown step hears s ls) := by
  induction ls generalizing s xs with
  | nil =>
    obtain rfl := Option.some.inj h
    simpa only [shown, List.append_nil] using hs
  | cons l ls ih =>
    obtain ⟨s', hl, hrest⟩ := run_cons.mp h
    simp only [shown, hl, ← List.append_assoc]
    exact ih (hstep s xs l s' hs hl) hrest

/-- Where what a step takes out of a store, in front of what it leaves there, is what was
there and what the step puts in, so it is with a run. -/
theorem run_shown_balance (store : σ → List κ) {out into : σ → ι → List κ}
    (hstep : ∀ s l s', step s l = some s' → out s l ++ store s' = store s ++ into s l)
    {s t : σ} {ls : List ι} (h : run step s ls = some t) :
    shown step out s ls ++ store t = store s ++ shown step into s ls := by
  induction ls generalizing s with
  | nil =>
    obtain rfl := Option.some.inj h
    simp only [shown, List.nil_append, List.append_nil]
  | cons l ls ih =>
    obtain ⟨s', hl, hrest⟩ := run_cons.mp h
    simp only [shown, hl]
    rw [List.append_assoc, ih hrest, ← List.append_assoc, hstep s l s' hl, List.append_assoc]

end StepSystem
