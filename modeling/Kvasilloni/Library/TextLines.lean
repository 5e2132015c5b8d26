import Mathlib.Data.List.DropRight

/-!
Cutting a text into lines. What ends a line is given by a predicate on characters; a
carriage return with the line feed behind it is one boundary, whether or not the
carriage return alone is one.
-/
namespace TextLines

variable {brk : Char → Bool}

/-- The lines of a text, without their boundaries. -/
def splitLines (brk : Char → Bool) : List Char → List (List Char)
  | [] => []
  | '\r' :: '\n' :: t => [] :: splitLines brk t
  | c :: t =>
    if brk c then [] :: splitLines brk t
    else match splitLines brk t with
      | [] => [[c]]
      | l :: ls => (c :: l) :: ls

/-- A line without the carriage return in front of its line feed. -/
def dropCr (l : List Char) : List Char := if l.getLast? = some '\r' then l.dropLast else l

/-- A line has no line feed and no boundary in it. -/
def Inline (brk : Char → Bool) (l : List Char) : Prop := ∀ c ∈ l, c ≠ '\n' ∧ brk c = false

theorem inline_of_not_mem {l : List Char} (h : '\n' ∉ l) : Inline (fun c => c == '\n') l := by
  intro c hc
  have hne : c ≠ '\n' := by
    rintro rfl
    exact h hc
  exact ⟨hne, beq_eq_false_iff_ne.mpr hne⟩

theorem splitLines_crlf (t : List Char) :
    splitLines brk ('\r' :: '\n' :: t) = [] :: splitLines brk t := by
  rw [splitLines]

theorem splitLines_brk {c : Char} {t : List Char} (hcrlf : ¬ (c = '\r' ∧ t.head? = some '\n'))
    (hc : brk c = true) : splitLines brk (c :: t) = [] :: splitLines brk t := by
  rw [splitLines, if_pos hc]
  rintro t' rfl rfl
  exact hcrlf ⟨rfl, rfl⟩

theorem splitLines_char {c : Char} {t : List Char} (hcrlf : ¬ (c = '\r' ∧ t.head? = some '\n'))
    (hc : brk c = false) :
    splitLines brk (c :: t) = match splitLines brk t with
      | [] => [[c]]
      | l :: ls => (c :: l) :: ls := by
  rw [splitLines, if_neg (by simp [hc])]
  rintro t' rfl rfl
  exact hcrlf ⟨rfl, rfl⟩

theorem dropCr_cons {c : Char} {l : List Char} (hl : l ≠ []) :
    dropCr (c :: l) = c :: dropCr l := by
  unfold dropCr
  rw [List.getLast?_cons_of_ne_nil hl, List.dropLast_cons_of_ne_nil hl]
  split <;> rfl

theorem dropCr_eq_self {l : List Char} (h : '\r' ∉ l) : dropCr l = l := by
  unfold dropCr
  rw [if_neg]
  intro hlast
  exact h (List.mem_of_getLast? hlast)

/-- A line at the end of the text. -/
theorem splitLines_last {l : List Char} (hl : Inline brk l) :
    splitLines brk l = if l = [] then [] else [l] := by
  induction l with
  | nil => rfl
  | cons c l ih =>
    obtain ⟨hc, hl'⟩ := List.forall_mem_cons.mp hl
    have hcrlf : ¬ (c = '\r' ∧ l.head? = some '\n') := by
      rintro ⟨-, hhead⟩
      exact (hl' _ (List.mem_of_mem_head? hhead)).1 rfl
    rw [splitLines_char hcrlf hc.2, ih hl']
    cases l <;> rfl

/-- A line and the line feed behind it. -/
theorem splitLines_line {l : List Char} (hl : Inline brk l) (hlf : brk '\n' = true)
    (t : List Char) : splitLines brk (l ++ '\n' :: t) = dropCr l :: splitLines brk t := by
  induction l with
  | nil => exact splitLines_brk (by simp) hlf
  | cons c l ih =>
    obtain ⟨hc, hl'⟩ := List.forall_mem_cons.mp hl
    cases l with
    | nil =>
      by_cases hcr : c = '\r'
      · subst hcr
        exact splitLines_crlf t
      · have hself : dropCr [c] = [c] := dropCr_eq_self (by simpa using Ne.symm hcr)
        rw [List.singleton_append, splitLines_char (by simp [hcr]) hc.2,
          splitLines_brk (by simp) hlf, hself]
    | cons d l =>
      have hcrlf : ¬ (c = '\r' ∧ (d :: l ++ '\n' :: t).head? = some '\n') := by
        rintro ⟨-, hhead⟩
        exact (hl' d (List.mem_cons_self ..)).1 (Option.some.inj hhead)
      have hdrop : dropCr (c :: d :: l) = c :: dropCr (d :: l) :=
        dropCr_cons (List.cons_ne_nil d l)
      rw [List.cons_append, splitLines_char hcrlf hc.2, ih hl', hdrop]

/-- A line with both characters behind it. -/
theorem splitLines_line_crlf {l : List Char} (hl : Inline brk l) (t : List Char) :
    splitLines brk (l ++ '\r' :: '\n' :: t) = l :: splitLines brk t := by
  induction l with
  | nil => exact splitLines_crlf t
  | cons c l ih =>
    obtain ⟨hc, hl'⟩ := List.forall_mem_cons.mp hl
    have hcrlf : ¬ (c = '\r' ∧ (l ++ '\r' :: '\n' :: t).head? = some '\n') := by
      rintro ⟨-, hhead⟩
      cases l with
      | nil => exact absurd (Option.some.inj hhead) (by decide)
      | cons d l => exact (hl' d (List.mem_cons_self ..)).1 (Option.some.inj hhead)
    rw [List.cons_append, splitLines_char hcrlf hc.2, ih hl']

inductive LineEnd
  | lf
  | crlf
  deriving DecidableEq

def LineEnd.text : LineEnd → List Char
  | .lf => ['\n']
  | .crlf => ['\r', '\n']

/-- Lines, each with its line end behind it; behind the last line there is none. -/
def join : List (List Char × LineEnd) → List Char
  | [] => []
  | [(l, _)] => l
  | (l, e) :: m :: ls => l ++ (e.text ++ join (m :: ls))

/-- What is read from the lines of a joined text, where an empty line and a carriage return
at the end of a line make no difference. -/
theorem filterMap_splitLines_join {β : Type*} {f : List Char → Option β} (hnil : f [] = none)
    (hcr : ∀ l, f (dropCr l) = f l) (hlf : brk '\n' = true) {ls : List (List Char × LineEnd)}
    (hls : ∀ l ∈ ls, Inline brk l.1) :
    (splitLines brk (join ls)).filterMap f = (ls.map Prod.fst).filterMap f := by
  induction ls with
  | nil => rfl
  | cons l ls ih =>
    obtain ⟨hl, hls'⟩ := List.forall_mem_cons.mp hls
    obtain ⟨l, e⟩ := l
    cases ls with
    | nil =>
      rw [join, splitLines_last hl]
      split
      · rename_i h
        change [].filterMap f = [l].filterMap f
        rw [show l = [] from h, List.filterMap_cons_none hnil]
      · rfl
    | cons m ls =>
      rw [join, List.map_cons, List.filterMap_cons, ← ih hls']
      cases e with
      | lf =>
        change (splitLines brk (l ++ '\n' :: join (m :: ls))).filterMap f = _
        rw [splitLines_line hl hlf, List.filterMap_cons, hcr]
      | crlf =>
        change (splitLines brk (l ++ '\r' :: '\n' :: join (m :: ls))).filterMap f = _
        rw [splitLines_line_crlf hl, List.filterMap_cons]

/-! ### Texts that end with a line feed -/

theorem splitLines_ne_nil {t : List Char} (ht : t ≠ []) : splitLines brk t ≠ [] := by
  cases t with
  | nil => exact absurd rfl ht
  | cons c t =>
    by_cases hcrlf : c = '\r' ∧ t.head? = some '\n'
    · obtain ⟨rfl, hhead⟩ := hcrlf
      obtain ⟨t', rfl⟩ : ∃ t', t = '\n' :: t' := List.head?_eq_some_iff.mp hhead
      rw [splitLines_crlf]
      exact List.cons_ne_nil _ _
    · cases hc : brk c with
      | true =>
        rw [splitLines_brk hcrlf hc]
        exact List.cons_ne_nil _ _
      | false =>
        rw [splitLines_char hcrlf hc]
        split <;> exact List.cons_ne_nil _ _

/-- A boundary cuts a text in two. -/
theorem splitLines_append {c : Char} {y : List Char} (hc : brk c = true)
    (hy : ¬ (c = '\r' ∧ y.head? = some '\n')) (x : List Char) :
    splitLines brk (x ++ c :: y) = splitLines brk (x ++ [c]) ++ splitLines brk y := by
  have hnext : ∀ {d : Char} {t : List Char} (y : List Char),
      (∀ t', d = '\r' → t = '\n' :: t' → False) → ¬ (d = '\r' ∧ t = [] ∧ c = '\n') →
        ¬ (d = '\r' ∧ (t ++ c :: y).head? = some '\n') := by
    rintro d t y hcrlf hlast ⟨hd, hhead⟩
    cases t with
    | nil => exact hlast ⟨hd, rfl, Option.some.inj hhead⟩
    | cons e t => exact hcrlf t hd (by rw [Option.some.inj hhead])
  have hend : ∀ y, splitLines brk ('\r' :: '\n' :: y) =
      splitLines brk ['\r', '\n'] ++ splitLines brk y := by
    intro y
    rw [splitLines_crlf, splitLines_crlf]
    rfl
  induction x using splitLines.induct brk with
  | case1 => rw [List.nil_append, List.nil_append, splitLines_brk hy hc,
      splitLines_brk (by simp) hc, splitLines, List.singleton_append]
  | case2 t ih =>
    change splitLines brk ('\r' :: '\n' :: (t ++ c :: y)) =
      splitLines brk ('\r' :: '\n' :: (t ++ [c])) ++ splitLines brk y
    rw [splitLines_crlf, splitLines_crlf, ih]
    rfl
  | case3 d t hcrlf hd ih =>
    by_cases hlast : d = '\r' ∧ t = [] ∧ c = '\n'
    · obtain ⟨rfl, rfl, rfl⟩ := hlast
      exact hend y
    · rw [List.cons_append, List.cons_append, splitLines_brk (hnext y hcrlf hlast) hd,
        splitLines_brk (hnext [] hcrlf hlast) hd, ih]
      rfl
  | case4 d t hcrlf hd hrest ih | case5 d t hcrlf hd l ls hrest ih =>
    by_cases hlast : d = '\r' ∧ t = [] ∧ c = '\n'
    · obtain ⟨rfl, rfl, rfl⟩ := hlast
      exact hend y
    · have hd' := Bool.not_eq_true _ ▸ hd
      have hne : splitLines brk (t ++ [c]) ≠ [] := splitLines_ne_nil (by simp)
      obtain ⟨m, ms, hm⟩ := List.exists_cons_of_ne_nil hne
      rw [List.cons_append, List.cons_append, splitLines_char (hnext y hcrlf hlast) hd',
        splitLines_char (hnext [] hcrlf hlast) hd', ih, hm]
      rfl

theorem splitLines_append_lf (hlf : brk '\n' = true) (x y : List Char) :
    splitLines brk (x ++ '\n' :: y) = splitLines brk (x ++ ['\n']) ++ splitLines brk y :=
  splitLines_append hlf (by simp) x

/-- The first line of a text that does not begin with a boundary. -/
theorem head?_splitLines (hcr : brk '\r' = true) {c : Char} (hc : brk c = false)
    (t : List Char) : (splitLines brk (c :: t)).head? =
      some (c :: t.takeWhile fun d => !brk d) := by
  have hne : ∀ {d : Char}, brk d = false → d ≠ '\r' := by
    rintro d hd rfl
    rw [hcr] at hd
    cases hd
  induction t generalizing c with
  | nil =>
    rw [splitLines_char (by simp) hc]
    rfl
  | cons d t ih =>
    rw [splitLines_char (by simp [hne hc]) hc]
    cases hd : brk d with
    | true =>
      rw [List.takeWhile_cons_of_neg (by simp [hd])]
      by_cases hcrlf : d = '\r' ∧ t.head? = some '\n'
      · obtain ⟨rfl, hhead⟩ := hcrlf
        obtain ⟨t', rfl⟩ := List.head?_eq_some_iff.mp hhead
        rw [splitLines_crlf]
        rfl
      · rw [splitLines_brk hcrlf hd]
        rfl
    | false =>
      rw [List.takeWhile_cons_of_pos (by simp [hd])]
      obtain ⟨ls, hls⟩ := List.head?_eq_some_iff.mp (ih hd)
      rw [hls]
      rfl

/-- The line that holds a position of a text reaches from one boundary to the next. -/
theorem mem_splitLines (hlf : brk '\n' = true) (hcr : brk '\r' = true) {c : Char}
    (hc : brk c = false) (x y : List Char) :
    x.rtakeWhile (fun d => !brk d) ++ c :: y.takeWhile (fun d => !brk d) ∈
      splitLines brk (x ++ c :: y) := by
  have hfirst : ∀ z : List Char, (∀ d ∈ z, brk d = false) →
      z ++ c :: y.takeWhile (fun d => !brk d) ∈ splitLines brk (z ++ c :: y) := by
    intro z hz
    refine List.mem_of_mem_head? ?_
    cases z with
    | nil => rw [List.nil_append, head?_splitLines hcr hc, List.nil_append, Option.mem_def]
    | cons e z =>
      obtain ⟨he, hz'⟩ := List.forall_mem_cons.mp hz
      rw [List.cons_append, head?_splitLines hcr he, Option.mem_def,
        List.takeWhile_append_of_pos fun d hd => by simp [hz' d hd],
        List.takeWhile_cons_of_pos (by simp [hc])]
      rfl
  have hz : ∀ d ∈ x.rtakeWhile (fun d => !brk d), brk d = false := by
    intro d hd
    simpa using List.mem_rtakeWhile_imp hd
  rcases List.eq_nil_or_concat (x.rdropWhile fun d => !brk d) with hnil | ⟨x', e, hx⟩
  · have hself : x.rtakeWhile (fun d => !brk d) = x := by
      conv_rhs => rw [← List.rdropWhile_append_rtakeWhile (p := fun d => !brk d) (l := x), hnil]
      rfl
    rw [hself] at hz ⊢
    exact hfirst x hz
  · have he : brk e = true := by
      have hlast := List.rdropWhile_last_not (fun d => !brk d) x (by simp [hx])
      simpa [hx] using hlast
    have hline : x ++ c :: y = x' ++ e :: (x.rtakeWhile (fun d => !brk d) ++ c :: y) := by
      conv_lhs => rw [← List.rdropWhile_append_rtakeWhile (p := fun d => !brk d) (l := x), hx]
      simp
    have hnext : ¬ (e = '\r' ∧
        (x.rtakeWhile (fun d => !brk d) ++ c :: y).head? = some '\n') := by
      rintro ⟨-, hhead⟩
      have hbrk : ∀ d ∈ (x.rtakeWhile (fun d => !brk d) ++ c :: y).head?, brk d = false := by
        cases hw : x.rtakeWhile fun d => !brk d with
        | nil =>
          rintro d hd
          rwa [← Option.some.inj hd]
        | cons f w =>
          rintro d hd
          rw [← Option.some.inj hd]
          exact hz f (hw ▸ List.mem_cons_self ..)
      rw [hbrk _ hhead] at hlf
      cases hlf
    rw [hline, splitLines_append he hnext]
    exact List.mem_append_right _ (hfirst _ hz)

section Reading

variable {β : Type*} {f : List Char → Option β}

/-- Line feeds at the end make no difference to what is read from the lines. -/
theorem filterMap_splitLines_rdropWhile (hlf : brk '\n' = true) (hnil : f [] = none)
    (x : List Char) : (splitLines brk (x.rdropWhile (fun c => c == '\n') ++ ['\n'])).filterMap f =
      (splitLines brk (x ++ ['\n'])).filterMap f := by
  have hfeeds : ∀ n, (splitLines brk (List.replicate n '\n')).filterMap f = [] := by
    intro n
    induction n with
    | zero => rfl
    | succ n ih =>
      rw [List.replicate_succ, splitLines_brk (by simp) hlf, List.filterMap_cons_none hnil, ih]
  have hall : ∀ c ∈ x.rtakeWhile (fun c => c == '\n'), c = '\n' :=
    fun c hc => eq_of_beq (List.mem_rtakeWhile_imp (p := fun c => c == '\n') hc)
  obtain ⟨n, hn⟩ : ∃ n, x.rtakeWhile (fun c => c == '\n') = List.replicate n '\n' :=
    ⟨_, List.eq_replicate_of_mem hall⟩
  have hx : x ++ ['\n'] = x.rdropWhile (fun c => c == '\n') ++ '\n' :: List.replicate n '\n' := by
    conv_lhs => rw [← List.rdropWhile_append_rtakeWhile (p := fun c => c == '\n') (l := x), hn]
    rw [List.append_assoc, ← List.replicate_succ', List.replicate_succ]
  rw [hx, splitLines_append_lf hlf _ (List.replicate n '\n'), List.filterMap_append, hfeeds,
    List.append_nil]

/-- The lines behind a `join`, where the carriage return is a boundary itself. -/
theorem filterMap_splitLines_intercalate (hlf : brk '\n' = true) (hcr : brk '\r' = true)
    (hnil : f [] = none) {ls : List (List Char)} (hls : ∀ l ∈ ls, Inline brk l) :
    (splitLines brk (['\n'].intercalate ls ++ ['\n'])).filterMap f = ls.filterMap f := by
  have hline : ∀ {l : List Char}, Inline brk l → ∀ t,
      splitLines brk (l ++ '\n' :: t) = l :: splitLines brk t := by
    intro l hl t
    rw [splitLines_line hl hlf, dropCr_eq_self]
    intro hmem
    rw [(hl _ hmem).2] at hcr
    cases hcr
  induction ls with
  | nil =>
    rw [List.intercalate_nil, List.nil_append, splitLines_brk (by simp) hlf,
      List.filterMap_cons_none hnil]
    rfl
  | cons l ls ih =>
    obtain ⟨hl, hls'⟩ := List.forall_mem_cons.mp hls
    cases ls with
    | nil =>
      rw [List.intercalate_singleton, hline hl]
      rfl
    | cons m ls =>
      rw [List.intercalate_cons_cons, List.append_assoc, List.append_assoc, List.singleton_append,
        hline hl, List.filterMap_cons, List.filterMap_cons, ih hls']

/-- A boundary at the end opens an empty line at most. -/
theorem splitLines_append_brk {c : Char} (hcr : brk '\r' = true) (hc : brk c = true)
    (x : List Char) : splitLines brk (x ++ [c]) = splitLines brk x ∨
      splitLines brk (x ++ [c]) = splitLines brk x ++ [[]] := by
  induction x using splitLines.induct brk with
  | case1 => exact Or.inr (splitLines_brk (by simp) hc)
  | case2 t ih =>
    change splitLines brk ('\r' :: '\n' :: (t ++ [c])) = _ ∨
      splitLines brk ('\r' :: '\n' :: (t ++ [c])) = _
    rw [splitLines_crlf, splitLines_crlf]
    exact ih.imp (congrArg _) (congrArg _)
  | case3 d t hcrlf hd ih =>
    have hself : ¬ (d = '\r' ∧ t.head? = some '\n') := by
      rintro ⟨hd, hhead⟩
      obtain ⟨t', rfl⟩ := List.head?_eq_some_iff.mp hhead
      exact hcrlf t' hd rfl
    by_cases hlast : d = '\r' ∧ (t ++ [c]).head? = some '\n'
    · obtain ⟨rfl, hhead⟩ := hlast
      cases t with
      | nil =>
        obtain rfl := Option.some.inj hhead
        left
        rw [splitLines_brk (by simp) hd]
        exact splitLines_crlf []
      | cons e t => exact absurd ⟨rfl, hhead⟩ hself
    · rw [List.cons_append, splitLines_brk hlast hd, splitLines_brk hself hd]
      exact ih.imp (congrArg _) (congrArg _)
  | case4 d t hcrlf hd hrest ih | case5 d t hcrlf hd l ls hrest ih =>
    have hne : d ≠ '\r' := by
      rintro rfl
      exact hd hcr
    have hd' := Bool.not_eq_true _ ▸ hd
    rw [List.cons_append, splitLines_char (by simp [hne]) hd', splitLines_char (by simp [hne]) hd']
    rw [hrest] at ih ⊢
    rcases ih with ih | ih <;> rw [ih] <;> simp

/-- The lines that more boundaries cut are the lines cut further. -/
theorem filterMap_splitLines_flatMap (hlf : brk '\n' = true) (hcr : brk '\r' = true)
    (hnil : f [] = none) (t : List Char) : (splitLines brk t).filterMap f =
      ((splitLines (fun c => c == '\n') t).flatMap (splitLines brk)).filterMap f := by
  have hend : ∀ {c : Char}, brk c = true → ∀ x,
      (splitLines brk (x ++ [c])).filterMap f = (splitLines brk x).filterMap f := by
    intro c hc x
    rcases splitLines_append_brk hcr hc x with h | h
    · rw [h]
    · rw [h, List.filterMap_append, List.filterMap_cons_none hnil]
      exact List.append_nil _
  have hline : ∀ x, (splitLines brk (dropCr x)).filterMap f = (splitLines brk x).filterMap f := by
    intro x
    unfold dropCr
    split
    · rename_i hlast
      conv_rhs => rw [← List.dropLast_append_getLast? '\r' hlast]
      rw [hend hcr]
    · rfl
  induction hn : t.length using Nat.strong_induction_on generalizing t with
  | _ n ih =>
    by_cases hmem : '\n' ∈ t
    · obtain ⟨x, y, rfl, hx⟩ := List.eq_append_cons_of_mem hmem
      have hy : y.length < n := by
        rw [← hn, List.length_append, List.length_cons]
        omega
      rw [splitLines_append_lf hlf, splitLines_line (inline_of_not_mem hx) (beq_self_eq_true _),
        List.flatMap_cons, List.filterMap_append, List.filterMap_append, hend hlf, hline,
        ih _ hy y rfl]
    · rw [splitLines_last (inline_of_not_mem hmem)]
      split
      · rename_i hempty
        rw [hempty]
        rfl
      · rw [List.flatMap_singleton]

end Reading

/-- No boundary is left in a line. -/
theorem inline_of_mem (hlf : brk '\n' = true) {t l : List Char} (hl : l ∈ splitLines brk t) :
    Inline brk l := by
  have hchar : ∀ {c}, brk c = false → c ≠ '\n' ∧ brk c = false := by
    intro c hc
    refine ⟨?_, hc⟩
    rintro rfl
    rw [hlf] at hc
    cases hc
  have hnil : Inline brk [] := fun c hc => absurd hc List.not_mem_nil
  induction t using splitLines.induct brk generalizing l with
  | case1 => cases hl
  | case2 t ih =>
    rw [splitLines_crlf] at hl
    rcases List.mem_cons.mp hl with rfl | hl
    · exact hnil
    · exact ih hl
  | case3 c t hcrlf hc ih =>
    rw [splitLines, if_pos hc] at hl
    · rcases List.mem_cons.mp hl with rfl | hl
      · exact hnil
      · exact ih hl
    · exact hcrlf
  | case4 c t hcrlf hc hrest ih =>
    rw [splitLines, if_neg hc, hrest] at hl
    · obtain rfl := List.mem_singleton.mp hl
      intro d hd
      obtain rfl := List.mem_singleton.mp hd
      exact hchar (Bool.not_eq_true _ ▸ hc)
    · exact hcrlf
  | case5 c t hcrlf hc l' ls hrest ih =>
    rw [splitLines, if_neg hc, hrest] at hl
    · rw [hrest] at ih
      rcases List.mem_cons.mp hl with rfl | hl
      · intro d hd
        rcases List.mem_cons.mp hd with rfl | hd
        · exact hchar (Bool.not_eq_true _ ▸ hc)
        · exact ih (List.mem_cons_self ..) d hd
      · exact ih (List.mem_cons_of_mem _ hl)
    · exact hcrlf

end TextLines
