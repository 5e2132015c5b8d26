import Kvasilloni.LockOrder

/-!
The threads of a reachable state. Each is at a place from which its statements lead it
home, and owns no lock but those of its place. A step moves one thread from place to
place and leaves the others where they are.
-/
namespace Kvasilloni.ThreadPlaces

open Frames SharedRing Programs LockOrder

variable {T C : Type}

/-- A join comes from a statement and from no list; it is at the head or nowhere. -/
def afterJoin : List (Stmt C) → List (Stmt C)
  | .join _ :: is => is
  | is => is

variable [DecidableEq C]

/-- The thread is at the place, and its statements lead it home from there. -/
structure Follows (s : Shim T C) (th : Thread T C) (p : Place C) : Prop where
  fits : Fits p.zone th
  leads : Leads p (afterJoin (s.prog th)) (home th)
  joining : ∀ c is, s.prog th = .join c :: is → p.held = none
  flag : s.inNotifyCb th = true ↔ p.zone.Inside
  owns : ∀ l, s.owner l = some th → p.Owns l

theorem not_join_of_leads {p p' : Place C} {c : C} {is : List (Stmt C)}
    (h : Leads p (.join c :: is) p') : False := by
  obtain ⟨p₁, htrack, -⟩ := leads_cons.mp h
  cases htrack

theorem afterJoin_of_leads {p p' : Place C} {is : List (Stmt C)} (h : Leads p is p') :
    afterJoin is = is := by
  cases is with
  | nil => rfl
  | cons i is =>
    cases i with
    | join c => exact (not_join_of_leads h).elim
    | _ => rfl

/-- A thread that goes on with a list which leads it home. -/
theorem follows_of_leads {s : Shim T C} {th : Thread T C} {p : Place C}
    {is : List (Stmt C)} (hprog : s.prog th = is) (hfits : Fits p.zone th)
    (hleads : Leads p is (home th)) (hflag : s.inNotifyCb th = true ↔ p.zone.Inside)
    (howns : ∀ l, s.owner l = some th → p.Owns l) : Follows s th p := by
  subst hprog
  refine ⟨hfits, ?_, fun c is heq => ?_, hflag, howns⟩
  · rw [afterJoin_of_leads hleads]
    exact hleads
  · rw [heq] at hleads
    exact (not_join_of_leads hleads).elim

theorem acquire_cases {p p' : Place C} {l : Lock C} (h : p.acquire l = some p') :
    p.held = none ∧
      ((p' = ⟨p.zone, some l⟩ ∧ ∀ d, l = .cbActive d → p.zone = .app) ∨
        ∃ c, l = .cbActive c ∧ p.zone = .loop c ∧ p' = ⟨.active c, none⟩) := by
  obtain ⟨z, held⟩ := p
  cases held with
  | some l' => cases h
  | none =>
    refine ⟨rfl, ?_⟩
    cases l with
    | cbActive d =>
      cases z with
      | app =>
        obtain rfl := Option.some.inj h
        exact Or.inl ⟨rfl, fun _ _ => rfl⟩
      | loop c =>
        simp only [Place.acquire, Option.ite_none_right_eq_some, Option.some.injEq] at h
        obtain ⟨rfl, rfl⟩ := h
        exact Or.inr ⟨d, rfl, rfl, rfl⟩
      | active c | inside c => cases h
    | _ =>
      obtain rfl := Option.some.inj h
      exact Or.inl ⟨rfl, fun d hd => by cases hd⟩

theorem release_cases {p p' : Place C} {l : Lock C} (h : p.release l = some p') :
    (p.held = some l ∧ p' = ⟨p.zone, none⟩) ∨
      (p.held = none ∧ ∃ c, l = .cbActive c ∧ p.zone = .active c ∧ p' = ⟨.loop c, none⟩) := by
  obtain ⟨z, held⟩ := p
  cases held with
  | some l' =>
    simp only [Place.release, Option.ite_none_right_eq_some, Option.some.injEq] at h
    obtain ⟨rfl, rfl⟩ := h
    exact Or.inl ⟨rfl, rfl⟩
  | none =>
    simp only [Place.release] at h
    split at h
    · simp only [Option.ite_none_right_eq_some, Option.some.injEq] at h
      obtain ⟨rfl, rfl⟩ := h
      exact Or.inr ⟨rfl, _, rfl, rfl, rfl⟩
    · cases h

/-! ### One step -/

/-- One thread takes its turn, and the others keep their place. -/
structure Turn (s s' : Shim T C) (th : Thread T C) : Prop where
  prog : ∀ t, t ≠ th → s'.prog t = s.prog t
  flag : ∀ t, t ≠ th → s'.inNotifyCb t = s.inNotifyCb t
  owner : ∀ t, t ≠ th → ∀ l, s'.owner l = some t → s.owner l = some t
  exited : ∀ c, s'.exited c = false → s.exited c = false

theorem Turn.follows {s s' : Shim T C} {th t : Thread T C} {p : Place C}
    (h : Turn s s' th) (ht : t ≠ th) (hfollows : Follows s t p) : Follows s' t p := by
  refine ⟨hfollows.fits, ?_, ?_, ?_, fun l hl => hfollows.owns l (h.owner t ht l hl)⟩
  · rw [h.prog t ht]
    exact hfollows.leads
  · rw [h.prog t ht]
    exact hfollows.joining
  · rw [h.flag t ht]
    exact hfollows.flag

variable [DecidableEq T]

theorem turn_setProg (s : Shim T C) (th : Thread T C) (is : List (Stmt C)) (m : Memory C) :
    Turn s { s.setProg th is with memory := m } th :=
  ⟨fun _ ht => Function.update_of_ne ht _ _, fun _ _ => rfl, fun _ _ _ h => h, fun _ h => h⟩

/-- A lock changes hands between the thread and nobody. -/
theorem turn_owner (s : Shim T C) (th : Thread T C) (is : List (Stmt C)) (l : Lock C)
    {o : Option (Thread T C)} (ho : ∀ t, o = some t → t = th) :
    Turn s { s.setProg th is with owner := Function.update s.owner l o } th := by
  refine ⟨fun _ ht => Function.update_of_ne ht _ _, fun _ _ => rfl, fun t ht l' hl' => ?_,
    fun _ hc => hc⟩
  by_cases hll : l' = l
  · have hnew : Function.update s.owner l o l' = some t := hl'
    rw [hll, Function.update_self] at hnew
    exact absurd (ho t hnew) ht
  · exact (Function.update_of_ne hll _ _).symm.trans hl'

theorem turn_exit (s : Shim T C) (th : Thread T C) (is : List (Stmt C)) (c : C) :
    Turn s { s.setProg th is with exited := Function.update s.exited c true } th := by
  refine ⟨fun _ ht => Function.update_of_ne ht _ _, fun _ _ => rfl, fun _ _ _ hl => hl,
    fun d hd => ?_⟩
  by_cases hdc : d = c
  · have hself : Function.update s.exited c true d = false := hd
    rw [hdc, Function.update_self] at hself
    cases hself
  · exact (Function.update_of_ne hdc _ _).symm.trans hd

theorem setProg_prog (s : Shim T C) (th : Thread T C) (is : List (Stmt C)) :
    (s.setProg th is).prog th = is := Function.update_self ..

/-- A thread that is given another list to go on with from where it is. -/
theorem follows_setProg {s : Shim T C} {th : Thread T C} {p : Place C} (h : Follows s th p)
    {is : List (Stmt C)} (hleads : Leads p is (home th)) (m : Memory C) :
    Follows { s.setProg th is with memory := m } th p :=
  follows_of_leads (setProg_prog s th is) h.fits hleads h.flag h.owns

theorem lock_follows {s : Shim T C} {th : Thread T C} {p : Place C} {l : Lock C}
    {is : List (Stmt C)} (h : Follows s th p) (hprog : s.prog th = .lock l :: is) :
    ∃ p', Follows { s.setProg th is with owner := Function.update s.owner l (some th) } th p' := by
  have hleads := h.leads
  rw [hprog] at hleads
  obtain ⟨p', hacquire, hrest⟩ := leads_cons.mp hleads
  have hspec := acquire_cases hacquire
  have howns : p'.Owns l ∧ ∀ l', p.Owns l' → p'.Owns l' := by
    obtain ⟨hheld, ⟨rfl, -⟩ | ⟨c, rfl, hzone, rfl⟩⟩ := hspec
    · refine ⟨Or.inl rfl, fun l' hl' => ?_⟩
      rcases hl' with hl' | hl'
      · rw [hheld] at hl'
        cases hl'
      · exact Or.inr hl'
    · refine ⟨Or.inr ⟨c, rfl, Or.inl rfl⟩, fun l' hl' => ?_⟩
      rcases hl' with hl' | ⟨d, -, hd | hd⟩
      · rw [hheld] at hl'
        cases hl'
      · rw [hzone] at hd
        cases hd
      · rw [hzone] at hd
        cases hd
  refine ⟨p', follows_of_leads (setProg_prog s th is) ?_ hrest ?_ fun l' hl' => ?_⟩
  · obtain ⟨-, ⟨rfl, -⟩ | ⟨c, -, hzone, rfl⟩⟩ := hspec
    · exact h.fits
    · have hfits := h.fits
      rw [hzone] at hfits
      cases th <;> exact hfits
  · obtain ⟨-, ⟨rfl, -⟩ | ⟨c, -, hzone, rfl⟩⟩ := hspec
    · exact h.flag
    · have hflag := h.flag
      rw [hzone] at hflag
      exact hflag
  · by_cases hll : l' = l
    · rw [hll]
      exact howns.1
    · exact howns.2 l' (h.owns l' ((Function.update_of_ne hll _ _).symm.trans hl'))

theorem unlock_follows {s : Shim T C} {th : Thread T C} {p : Place C} {l : Lock C}
    {is : List (Stmt C)} (h : Follows s th p) (hprog : s.prog th = .unlock l :: is) :
    ∃ p', Follows { s.setProg th is with owner := Function.update s.owner l none } th p' := by
  have hleads := h.leads
  rw [hprog] at hleads
  obtain ⟨p', hrelease, hrest⟩ := leads_cons.mp hleads
  have hspec := release_cases hrelease
  refine ⟨p', follows_of_leads (setProg_prog s th is) ?_ hrest ?_ fun l' hl' => ?_⟩
  · obtain ⟨-, rfl⟩ | ⟨-, c, -, hzone, rfl⟩ := hspec
    · exact h.fits
    · have hfits := h.fits
      rw [hzone] at hfits
      cases th <;> exact hfits
  · obtain ⟨-, rfl⟩ | ⟨-, c, -, hzone, rfl⟩ := hspec
    · exact h.flag
    · have hflag := h.flag
      rw [hzone] at hflag
      exact hflag
  · have hne : l' ≠ l := by
      rintro rfl
      have hnone : Function.update s.owner l' none l' = some th := hl'
      rw [Function.update_self] at hnone
      cases hnone
    have hold := h.owns l' ((Function.update_of_ne hne _ _).symm.trans hl')
    obtain ⟨hheld, rfl⟩ | ⟨hheld, c, rfl, hzone, rfl⟩ := hspec
    · rcases hold with hold | hold
      · exact absurd (Option.some.inj (hold.symm.trans hheld)) hne
      · exact Or.inr hold
    · rcases hold with hold | ⟨d, rfl, hd | hd⟩
      · rw [hheld] at hold
        cases hold
      · rw [hzone] at hd
        cases hd
        exact absurd rfl hne
      · rw [hzone] at hd
        cases hd

theorem act_follows {s : Shim T C} {th : Thread T C} {p : Place C} {a : Act C}
    {is : List (Stmt C)} {outcome : Bool} (h : Follows s th p) (hprog : s.prog th = .act a :: is)
    (hinsert : ∀ hnd c, a = .insert hnd c → s.memory.conns hnd = none) :
    ∃ p', Follows { s.setProg th
      ((perform s.memory th (s.inNotifyCb th) outcome a).2 ++ is) with
      memory := (perform s.memory th (s.inNotifyCb th) outcome a).1 } th p' := by
  have hleads := h.leads
  rw [hprog] at hleads
  obtain ⟨p', htrack, hrest⟩ := leads_cons.mp hleads
  by_cases hjoin : ∃ c, a = .tryJoin c
  · obtain ⟨c, rfl⟩ := hjoin
    have htry : trackAct p (.tryJoin c) = some p' := htrack
    simp only [trackAct, Option.ite_none_right_eq_some, Option.some.injEq] at htry
    obtain ⟨⟨-, hheld⟩, rfl⟩ := htry
    simp only [perform]
    split
    · exact ⟨p, follows_setProg h hrest _⟩
    · refine ⟨p, h.fits, ?_, fun _ _ _ => hheld, h.flag, h.owns⟩
      show Leads p (afterJoin ((s.setProg th ([.join c] ++ is)).prog th)) (home th)
      rw [setProg_prog]
      exact hrest
  · have hmore := perform_leads s.memory th outcome h.flag htrack
      (fun c hc => hjoin ⟨c, hc⟩) hinsert
    exact ⟨p, follows_setProg h (leads_append.mpr ⟨p', hmore, hrest⟩) _⟩

theorem turn_flag (s : Shim T C) (th : Thread T C) (is : List (Stmt C)) (b : Bool) :
    Turn s { s.setProg th is with inNotifyCb := Function.update s.inNotifyCb th b } th :=
  ⟨fun _ ht => Function.update_of_ne ht _ _, fun _ ht => Function.update_of_ne ht _ _,
    fun _ _ _ h => h, fun _ h => h⟩

theorem enterScope_follows {s : Shim T C} {th : Thread T C} {p : Place C}
    {is : List (Stmt C)} (h : Follows s th p) (hprog : s.prog th = .enterScope :: is) :
    ∃ p', Follows { s.setProg th is with
      inNotifyCb := Function.update s.inNotifyCb th true } th p' := by
  have hleads := h.leads
  have hfits := h.fits
  have howns := h.owns
  rw [hprog] at hleads
  obtain ⟨p', htrack, hrest⟩ := leads_cons.mp hleads
  simp only [track] at htrack
  split at htrack
  · obtain rfl := Option.some.inj htrack
    refine ⟨_, follows_of_leads (setProg_prog s th is) ?_ hrest ?_ fun l hl => ?_⟩
    · cases th <;> exact hfits
    · exact ⟨fun _ => trivial, fun _ => Function.update_self ..⟩
    · obtain hheld | ⟨c, rfl, hc | hc⟩ := howns l hl
      · cases hheld
      · cases hc
        exact Or.inr ⟨_, rfl, Or.inr rfl⟩
      · cases hc
  · cases htrack

theorem leaveScope_follows {s : Shim T C} {th : Thread T C} {p : Place C}
    {is : List (Stmt C)} (h : Follows s th p) (hprog : s.prog th = .leaveScope :: is) :
    ∃ p', Follows { s.setProg th is with
      inNotifyCb := Function.update s.inNotifyCb th false } th p' := by
  have hleads := h.leads
  have hfits := h.fits
  have howns := h.owns
  rw [hprog] at hleads
  obtain ⟨p', htrack, hrest⟩ := leads_cons.mp hleads
  simp only [track] at htrack
  split at htrack
  · obtain rfl := Option.some.inj htrack
    refine ⟨_, follows_of_leads (setProg_prog s th is) ?_ hrest ?_ fun l hl => ?_⟩
    · cases th <;> exact hfits
    · have hoff : Function.update s.inNotifyCb th false th = false := Function.update_self ..
      exact ⟨fun hon => absurd (hoff.symm.trans hon) (by decide), fun hinside => hinside.elim⟩
    · obtain hheld | ⟨c, rfl, hc | hc⟩ := howns l hl
      · cases hheld
      · cases hc
      · cases hc
        exact Or.inr ⟨_, rfl, Or.inl rfl⟩
  · cases htrack

theorem exit_follows {s : Shim T C} {th : Thread T C} {p : Place C} {c : C}
    {is : List (Stmt C)} (h : Follows s th p) (hprog : s.prog th = .exit c :: is) :
    ∃ p', Follows { s.setProg th is with exited := Function.update s.exited c true } th p' := by
  have hleads := h.leads
  rw [hprog] at hleads
  obtain ⟨p', htrack, hrest⟩ := leads_cons.mp hleads
  simp only [track] at htrack
  split at htrack
  · obtain rfl := Option.some.inj htrack
    exact ⟨_, follows_of_leads (setProg_prog s th is) h.fits hrest h.flag h.owns⟩
  · cases htrack

/-- The next statement of a thread takes it to a place. -/
theorem go_follows {s s' : Shim T C} {th : Thread T C} {p : Place C} {outcome : Bool}
    (h : Follows s th p)
    (hinsert : ∀ hnd c is, s.prog th = .act (.insert hnd c) :: is → s.memory.conns hnd = none)
    (hgo : go s th outcome (s.prog th) = some s') : Turn s s' th ∧ ∃ p', Follows s' th p' := by
  have hleads := h.leads
  cases hprog : s.prog th with
  | nil =>
    rw [hprog] at hgo
    cases hgo
  | cons i is =>
    rw [hprog] at hgo hleads
    cases i with
    | lock l =>
      simp only [go] at hgo
      split at hgo
      · obtain rfl := Option.some.inj hgo
        exact ⟨turn_owner s th is l fun _ ht => (Option.some.inj ht).symm, lock_follows h hprog⟩
      · cases hgo
    | unlock l =>
      obtain rfl := Option.some.inj hgo
      exact ⟨turn_owner s th is l fun _ ht => (by cases ht), unlock_follows h hprog⟩
    | park c w duration =>
      obtain rfl := Option.some.inj hgo
      obtain ⟨p', htrack, hrest⟩ := leads_cons.mp hleads
      simp only [track, Option.ite_none_right_eq_some, Option.some.injEq] at htrack
      obtain ⟨⟨hz, hheld, hzero⟩, rfl⟩ := htrack
      refine ⟨turn_setProg s th _ s.memory, p, follows_setProg h ?_ s.memory⟩
      obtain ⟨z, held⟩ := p
      obtain rfl : held = none := hheld
      refine leads_cons.mpr ⟨⟨z, some (.q c)⟩, rfl, leads_cons.mpr ⟨⟨z, none⟩, ?_, hrest⟩⟩
      exact if_pos ⟨hz, rfl, hzero⟩
    | join c =>
      simp only [go] at hgo
      split at hgo
      · obtain rfl := Option.some.inj hgo
        exact ⟨turn_setProg s th _ s.memory, p, follows_setProg h hleads s.memory⟩
      · cases hgo
    | enterScope =>
      obtain rfl := Option.some.inj hgo
      exact ⟨turn_flag s th is true, enterScope_follows h hprog⟩
    | leaveScope =>
      obtain rfl := Option.some.inj hgo
      exact ⟨turn_flag s th is false, leaveScope_follows h hprog⟩
    | exit c =>
      obtain rfl := Option.some.inj hgo
      exact ⟨turn_exit s th is c, exit_follows h hprog⟩
    | callback => cases hgo
    | act a =>
      obtain rfl := Option.some.inj hgo
      exact ⟨turn_setProg s th _ _, act_follows h hprog
        fun hnd c ha => hinsert hnd c is (by rw [hprog, ha])⟩

theorem callback_leads {p p' : Place C} {is : List (Stmt C)} (h : Leads p (.callback :: is) p') :
    p.zone.Calls ∧ p.held = none ∧ Leads p is p' := by
  obtain ⟨p₁, htrack, hrest⟩ := leads_cons.mp h
  simp only [track] at htrack
  split at htrack
  · obtain rfl := Option.some.inj htrack
    exact ⟨trivial, rfl, hrest⟩
  · cases htrack

/-- A thread comes to a join only by the statement that has found it is not its own. -/
theorem go_join {s s' : Shim T C} {th : Thread T C} {p : Place C} {outcome : Bool}
    (h : Follows s th p)
    (hinsert : ∀ hnd c is, s.prog th = .act (.insert hnd c) :: is → s.memory.conns hnd = none)
    (hgo : go s th outcome (s.prog th) = some s') {c : C} {js : List (Stmt C)}
    (hjoin : s'.prog th = .join c :: js) :
    s.prog th = .act (.tryJoin c) :: js ∧ th ≠ .rx c := by
  have hleads := h.leads
  cases hprog : s.prog th with
  | nil =>
    rw [hprog] at hgo
    cases hgo
  | cons i is =>
    rw [hprog] at hgo hleads
    have hrest : ∀ p₁, Leads p₁ is (home th) → s'.prog th ≠ is := by
      intro p₁ hp₁ heq
      rw [← heq, hjoin] at hp₁
      exact not_join_of_leads hp₁
    cases i with
    | lock l =>
      simp only [go] at hgo
      split at hgo
      · obtain rfl := Option.some.inj hgo
        obtain ⟨p₁, -, hp₁⟩ := leads_cons.mp hleads
        exact absurd (setProg_prog s th is) (hrest p₁ hp₁)
      · cases hgo
    | join d =>
      simp only [go] at hgo
      split at hgo
      · obtain rfl := Option.some.inj hgo
        exact absurd (setProg_prog s th is) (hrest p hleads)
      · cases hgo
    | unlock l | enterScope | leaveScope | exit d =>
      obtain rfl := Option.some.inj hgo
      obtain ⟨p₁, -, hp₁⟩ := leads_cons.mp hleads
      exact absurd (setProg_prog s th is) (hrest p₁ hp₁)
    | park d w duration =>
      obtain rfl := Option.some.inj hgo
      rw [setProg_prog] at hjoin
      cases hjoin
    | callback => cases hgo
    | act a =>
      obtain rfl := Option.some.inj hgo
      obtain ⟨p₁, htrack, hp₁⟩ := leads_cons.mp hleads
      have hnew : (perform s.memory th (s.inNotifyCb th) outcome a).2 ++ is = .join c :: js :=
        (setProg_prog s th _).symm.trans hjoin
      by_cases htry : ∃ d, a = .tryJoin d
      · obtain ⟨d, rfl⟩ := htry
        simp only [perform] at hnew
        split at hnew
        · rw [List.nil_append] at hnew
          rw [hnew] at hp₁
          exact (not_join_of_leads hp₁).elim
        · rename_i hother
          cases hnew
          exact ⟨rfl, hother⟩
      · have hmore := perform_leads s.memory th outcome h.flag htrack
          (fun d hd => htry ⟨d, hd⟩) (fun hnd d ha => hinsert hnd d is (by rw [hprog, ha]))
        have hall := leads_append.mpr ⟨p₁, hmore, hp₁⟩
        rw [hnew] at hall
        exact (not_join_of_leads hall).elim

/-! ### The steps of the shim -/

omit [DecidableEq T] in
/-- A thread that has nothing to do is at home. -/
theorem Follows.home {s : Shim T C} {th : Thread T C} {p : Place C} (h : Follows s th p)
    (hidle : s.prog th = []) : Follows s th (home th) := by
  have hleads := h.leads
  rw [hidle] at hleads
  rwa [leads_nil.mp hleads] at h

/-- Every thread is at a place. -/
def Placed (s : Shim T C) : Prop := ∃ place : Thread T C → Place C, ∀ th, Follows s th (place th)

/-- A handle that is about to be inserted is not in the table. -/
def Vacant (s : Shim T C) : Label T C → Prop
  | .go th _ =>
    match s.prog th with
    | .act (.insert hnd _) :: _ => s.memory.conns hnd = none
    | _ => True
  | _ => True

omit [DecidableEq C] [DecidableEq T] in
theorem Vacant.insert {s : Shim T C} {th : Thread T C} {outcome : Bool}
    (h : Vacant s (.go th outcome)) (hnd : Int32) (c : C) (is : List (Stmt C))
    (hprog : s.prog th = .act (.insert hnd c) :: is) : s.memory.conns hnd = none := by
  simpa only [Vacant, hprog] using h

omit [DecidableEq T] in
theorem init_placed : Placed (Shim.init T C) := by
  refine ⟨home, fun th => ?_⟩
  refine ⟨?_, rfl, fun c is h => (by cases h), ?_, fun l h => (by cases h)⟩
  · cases th with
    | app t => exact trivial
    | rx c => exact rfl
  · cases th <;> exact ⟨fun h => (by cases h), fun h => h.elim⟩

/-- One thread takes its turn, and comes to a join only by a statement of its own. -/
structure Advance (s s' : Shim T C) (l : Label T C) (th : Thread T C) : Prop extends
    Turn s s' th where
  join : ∀ c is, s'.prog th = .join c :: is →
    (∃ outcome, l = .go th outcome) ∧ s.prog th = .act (.tryJoin c) :: is ∧ th ≠ .rx c

/-- A thread that is given another list takes its turn. -/
theorem advance_setProg {s : Shim T C} {l : Label T C} {th : Thread T C} {p : Place C}
    {is : List (Stmt C)} (hleads : Leads p is (home th)) (m : Memory C) :
    Advance s { s.setProg th is with memory := m } l th := by
  refine ⟨turn_setProg s th is m, fun c js hjoin => ?_⟩
  have hlist : is = .join c :: js := (setProg_prog s th is).symm.trans hjoin
  rw [hlist] at hleads
  exact (not_join_of_leads hleads).elim

theorem begin_follows {s s' : Shim T C} {l : Label T C} {th : Thread T C} {p : Place C}
    {r : Request C} {rest : List (Stmt C)} (h : Follows s th p) (hcalls : p.zone.Calls)
    (hheld : p.held = none) (hrest : Leads p rest (home th))
    (hbegin : begin s th r rest = some s') : Advance s s' l th ∧ ∃ p', Follows s' th p' := by
  obtain ⟨m, -, rfl⟩ := Option.map_eq_some_iff.mp hbegin
  obtain ⟨z, held⟩ := p
  obtain rfl : held = none := hheld
  have hleads := leads_append.mpr ⟨_, program_leads hcalls r, hrest⟩
  exact ⟨advance_setProg hleads m, _, follows_setProg h hleads m⟩

/-- A step gives one thread its turn. -/
theorem step_advance {s s' : Shim T C} {l : Label T C} (hplaced : Placed s) (hvacant : Vacant s l)
    (h : step s l = some s') : ∃ th, Advance s s' l th ∧ ∃ p', Follows s' th p' := by
  obtain ⟨place, hplace⟩ := hplaced
  cases l with
  | call t r =>
    simp only [step] at h
    split at h
    · rename_i hidle
      have hfollows := (hplace (.app t)).home hidle
      exact ⟨_, begin_follows hfollows trivial rfl (leads_nil.mpr rfl) h⟩
    · cases h
  | go th outcome =>
    obtain ⟨hturn, hfollows⟩ := go_follows (hplace th) hvacant.insert h
    refine ⟨th, ⟨hturn, fun c is hjoin => ?_⟩, hfollows⟩
    exact ⟨⟨outcome, rfl⟩, go_join (hplace th) hvacant.insert h hjoin⟩
  | frame c f now =>
    simp only [step] at h
    split at h
    · rename_i hidle
      obtain rfl := Option.some.inj h
      have hfollows := (hplace (.rx c)).home hidle.2.2
      have hpush : Leads (home (.rx c : Thread T C)) (push c f now)
          (home (.rx c : Thread T C)) := by
        simp [home, push]
      exact ⟨_, advance_setProg hpush s.memory, _, follows_setProg hfollows hpush s.memory⟩
    · cases h
  | leave c =>
    simp only [step] at h
    split at h
    · rename_i hidle
      obtain rfl := Option.some.inj h
      have hfollows := (hplace (.rx c)).home hidle.2.2
      have hend : Leads (home (.rx c : Thread T C))
          (loopEnd c (s.memory.chans c).transport ++ [.exit c]) (home (.rx c : Thread T C)) := by
        cases (s.memory.chans c).transport <;> simp [home, loopEnd]
      exact ⟨_, advance_setProg hend s.memory, _, follows_setProg hfollows hend s.memory⟩
    · cases h
  | reenter c r =>
    simp only [step] at h
    split at h
    · rename_i is hprog
      have hfollows := hplace (.rx c)
      have hleads := hfollows.leads
      rw [hprog] at hleads
      obtain ⟨hcalls, hheld, -⟩ := callback_leads hleads
      exact ⟨_, begin_follows hfollows hcalls hheld hleads h⟩
    · cases h
  | callbackReturns c =>
    simp only [step] at h
    split at h
    · rename_i is hprog
      obtain rfl := Option.some.inj h
      have hfollows := hplace (.rx c)
      have hleads := hfollows.leads
      rw [hprog] at hleads
      obtain ⟨-, -, hrest⟩ := callback_leads hleads
      exact ⟨_, advance_setProg hrest s.memory, _, follows_setProg hfollows hrest s.memory⟩
    · cases h

theorem step_placed {s s' : Shim T C} {l : Label T C} (hplaced : Placed s) (hvacant : Vacant s l)
    (h : step s l = some s') : Placed s' := by
  obtain ⟨th, hadvance, p', hfollows⟩ := step_advance hplaced hvacant h
  obtain ⟨place, hplace⟩ := hplaced
  refine ⟨Function.update place th p', fun t => ?_⟩
  by_cases ht : t = th
  · rw [ht, Function.update_self]
    exact hfollows
  · rw [Function.update_of_ne ht]
    exact hadvance.follows ht (hplace t)

end Kvasilloni.ThreadPlaces
