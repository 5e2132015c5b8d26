import Mathlib.Data.List.AList

/-!
A map that is built from a list of settings, one after the other. Each key has the value
of its last setting.
-/
namespace LastValue

variable {κ ν : Type} [DecidableEq κ]

abbrev Map (κ ν : Type) := AList fun _ : κ => ν

def insertAll (m : Map κ ν) (settings : List (κ × ν)) : Map κ ν :=
  settings.foldl (fun m e => m.insert e.1 e.2) m

/-- The value of the last setting of a key. -/
def lastValue (k : κ) : List (κ × ν) → Option ν
  | [] => none
  | e :: es => (lastValue k es).or (if e.1 = k then some e.2 else none)

theorem lookup_insertAll (m : Map κ ν) (es : List (κ × ν)) (k : κ) :
    (insertAll m es).lookup k = (lastValue k es).or (m.lookup k) := by
  induction es generalizing m with
  | nil => rfl
  | cons e es ih =>
    have hinsert : (m.insert e.1 e.2).lookup k =
        (if e.1 = k then some e.2 else none).or (m.lookup k) := by
      by_cases hk : e.1 = k
      · subst hk
        rw [AList.lookup_insert, if_pos rfl]
        rfl
      · rw [AList.lookup_insert_ne (Ne.symm hk), if_neg hk]
        rfl
    change (insertAll (m.insert e.1 e.2) es).lookup k = _
    rw [ih, hinsert, lastValue, Option.or_assoc]

theorem lookup_insertAll_empty (es : List (κ × ν)) (k : κ) :
    (insertAll (∅ : Map κ ν) es).lookup k = lastValue k es := by
  rw [lookup_insertAll, AList.lookup_empty, Option.or_none]

/-- A loop that inserts the setting of each line that has one. -/
theorem lookup_foldl_insert {ι : Type} {f : ι → Option (κ × ν)} {step : Map κ ν → ι → Map κ ν}
    (hstep : ∀ m l, step m l = (f l).elim m fun e => m.insert e.1 e.2) (ls : List ι) (k : κ) :
    (ls.foldl step ∅).lookup k = lastValue k (ls.filterMap f) := by
  rw [← lookup_insertAll_empty, insertAll, List.foldl_filterMap]
  congr 2
  funext m l
  rw [hstep]
  cases f l <;> rfl

theorem lastValue_append (k : κ) (as bs : List (κ × ν)) :
    lastValue k (as ++ bs) = (lastValue k bs).or (lastValue k as) := by
  induction as with
  | nil => exact (Option.or_none).symm
  | cons e as ih => rw [List.cons_append, lastValue, ih, lastValue, Option.or_assoc]

theorem lastValue_eq_none {k : κ} {es : List (κ × ν)} :
    lastValue k es = none ↔ ∀ e ∈ es, e.1 ≠ k := by
  induction es with
  | nil => simp [lastValue]
  | cons e es ih => simp [lastValue, Option.or_eq_none_iff, ih, and_comm]

/-- The last setting of a key, and what comes behind it. -/
theorem lastValue_eq_some {k : κ} {v : ν} {es : List (κ × ν)} :
    lastValue k es = some v ↔
      ∃ pre post, es = pre ++ (k, v) :: post ∧ ∀ e ∈ post, e.1 ≠ k := by
  constructor
  · intro h
    induction es with
    | nil => cases h
    | cons e es ih =>
      cases hes : lastValue k es with
      | some w =>
        rw [lastValue, hes] at h
        obtain ⟨pre, post, heq, hpost⟩ := ih (hes.trans h)
        exact ⟨e :: pre, post, by rw [heq]; rfl, hpost⟩
      | none =>
        rw [lastValue, hes, Option.none_or, Option.ite_none_right_eq_some] at h
        obtain ⟨rfl, hv⟩ := h
        obtain rfl := Option.some.inj hv
        exact ⟨[], es, rfl, lastValue_eq_none.mp hes⟩
  · rintro ⟨pre, post, rfl, hpost⟩
    rw [lastValue_append, lastValue, lastValue_eq_none.mpr hpost, if_pos rfl]
    rfl

theorem mem_of_lastValue {k : κ} {v : ν} {es : List (κ × ν)} (h : lastValue k es = some v) :
    (k, v) ∈ es := by
  obtain ⟨pre, post, rfl, -⟩ := lastValue_eq_some.mp h
  simp

theorem exists_lastValue {k : κ} {v : ν} {es : List (κ × ν)} (h : (k, v) ∈ es) :
    ∃ w, lastValue k es = some w := by
  rw [← Option.ne_none_iff_exists']
  exact fun hnone => lastValue_eq_none.mp hnone _ h rfl

theorem lastValue_of_nodup {k : κ} {v : ν} {es : List (κ × ν)} (hes : (es.map Prod.fst).Nodup)
    (h : (k, v) ∈ es) : lastValue k es = some v := by
  obtain ⟨w, hw⟩ := exists_lastValue h
  have heq := List.inj_on_of_nodup_map hes (mem_of_lastValue hw) h rfl
  rw [hw, (Prod.mk.inj heq).2]

/-- Settings of other keys do not matter. -/
theorem lastValue_filter {p : κ × ν → Bool} {k : κ} (hp : ∀ v, p (k, v) = true)
    (es : List (κ × ν)) : lastValue k (es.filter p) = lastValue k es := by
  induction es with
  | nil => rfl
  | cons e es ih =>
    by_cases hkeep : p e = true
    · rw [List.filter_cons_of_pos hkeep, lastValue, lastValue, ih]
    · have hk : e.1 ≠ k := by
        rintro rfl
        exact hkeep (hp e.2)
      rw [List.filter_cons_of_neg hkeep, lastValue, if_neg hk, Option.or_none, ih]

/-- The settings of some keys, written out from their values. -/
theorem lastValue_map_self (f : κ → ν) (k : κ) (ks : List κ) :
    lastValue k (ks.map fun k => (k, f k)) = if k ∈ ks then some (f k) else none := by
  induction ks with
  | nil => rfl
  | cons c ks ih =>
    rw [List.map_cons, lastValue, ih]
    by_cases hmem : k ∈ ks
    · rw [if_pos hmem, if_pos (List.mem_cons_of_mem c hmem), Option.some_or]
    · rw [if_neg hmem, Option.none_or]
      by_cases hc : c = k
      · subst hc
        rw [if_pos rfl, if_pos (List.mem_cons_self ..)]
      · rw [if_neg hc, if_neg (by simp [hmem, Ne.symm hc])]

theorem lastValue_map (f : ν → ν) (k : κ) (es : List (κ × ν)) :
    lastValue k (es.map fun e => (e.1, f e.2)) = (lastValue k es).map f := by
  induction es with
  | nil => rfl
  | cons e es ih =>
    rw [List.map_cons, lastValue, lastValue, ih, Option.map_or]
    by_cases hk : e.1 = k
    · rw [if_pos hk, if_pos hk]
      rfl
    · rw [if_neg hk, if_neg hk]
      rfl

end LastValue
