import Mathlib.Data.List.Basic

/-!
# Runs of a labelled step function

A system is a partial step function: `step s l` is the state that label `l` leads to from `s`, or
`none` when `l` is not enabled there. The label carries whatever the environment chooses (the
thread that moves, the arguments of a call, the outcome of a system call), so a run is determined
by its first state and its list of labels, and "every run" is a quantifier over lists.
-/

namespace Saturn

section Run

variable {S L : Type*} (step : S → L → Option S)

/-- The state at the end of the run from `s` along the labels, if every label is enabled. -/
def run : S → List L → Option S
  | s, [] => some s
  | s, l :: ls => (step s l).bind fun t => run t ls

/-- Every step that the run from `s` takes starts in a state that meets `C` with its label. -/
def StepsMeet (C : S → L → Prop) : S → List L → Prop
  | _, [] => True
  | s, l :: ls => C s l ∧ ∀ t, step s l = some t → StepsMeet C t ls

/-- Every state that the run from `s` passes through meets `P`. -/
def StatesMeet (P : S → Prop) : S → List L → Prop
  | s, [] => P s
  | s, l :: ls => P s ∧ ∀ t, step s l = some t → StatesMeet P t ls

variable {step} {C D : S → L → Prop} {P I : S → Prop}

@[simp] theorem run_nil (s : S) : run step s [] = some s := rfl

theorem run_cons (s : S) (l : L) (ls : List L) :
    run step s (l :: ls) = (step s l).bind fun t => run step t ls := rfl

theorem statesMeet_head {s : S} {ls : List L} (h : StatesMeet step P s ls) : P s := by
  cases ls with
  | nil => exact h
  | cons l ls => exact h.1

theorem statesMeet_run : ∀ (ls : List L) (s t : S), StatesMeet step P s ls →
    run step s ls = some t → P t := by
  intro ls
  induction ls with
  | nil =>
      intro s t h ht
      cases ht
      exact h
  | cons l ls ih =>
      intro s t h ht
      obtain ⟨u, hu, ht⟩ := Option.bind_eq_some_iff.mp ht
      exact ih u t (h.2 u hu) ht

/-- A property of the states as a condition on the steps from them. -/
theorem stepsMeet_of_states : ∀ (ls : List L) (s : S), StatesMeet step P s ls →
    StepsMeet step (fun s _ => P s) s ls := by
  intro ls
  induction ls with
  | nil => intro _ _; trivial
  | cons l ls ih => intro s h; exact ⟨h.1, fun t ht => ih t (h.2 t ht)⟩

theorem statesMeet_append (s : S) (ls ms : List L) (h : StatesMeet step P s (ls ++ ms)) :
    StatesMeet step P s ls ∧ ∀ t, run step s ls = some t → StatesMeet step P t ms := by
  induction ls generalizing s with
  | nil =>
      rw [List.nil_append] at h
      have hhead : P s := statesMeet_head h
      refine ⟨hhead, fun t ht => ?_⟩
      cases ht
      exact h
  | cons l ls ih =>
      refine ⟨⟨h.1, fun t ht => (ih t (h.2 t ht)).1⟩, fun t ht => ?_⟩
      obtain ⟨u, hu, ht⟩ := Option.bind_eq_some_iff.mp ht
      exact (ih u (h.2 u hu)).2 t ht

theorem run_append (s : S) (ls ms : List L) :
    run step s (ls ++ ms) = (run step s ls).bind fun t => run step t ms := by
  induction ls generalizing s with
  | nil => rfl
  | cons l ls ih =>
      rw [List.cons_append, run_cons, run_cons, Option.bind_assoc]
      exact congrArg _ (funext fun t => ih t)

/-- The induction rule for safety: an invariant that every step within `C` preserves holds in the
state a run within `C` ends in. -/
theorem run_invariant (hstep : ∀ s l t, I s → C s l → step s l = some t → I t) :
    ∀ (ls : List L) (s t : S), I s → StepsMeet step C s ls → run step s ls = some t → I t := by
  intro ls
  induction ls with
  | nil =>
      intro s t hs _ ht
      cases ht
      exact hs
  | cons l ls ih =>
      intro s t hs hC ht
      obtain ⟨u, hu, ht⟩ := Option.bind_eq_some_iff.mp ht
      exact ih u t (hstep s l u hs hC.1 hu) (hC.2 u hu) ht

/-- The same rule for all the states a run passes through. -/
theorem statesMeet_of_invariant (hP : ∀ s, I s → P s)
    (hstep : ∀ s l t, I s → C s l → step s l = some t → I t) :
    ∀ (ls : List L) (s : S), I s → StepsMeet step C s ls → StatesMeet step P s ls := by
  intro ls
  induction ls with
  | nil => intro s hs _; exact hP s hs
  | cons l ls ih =>
      intro s hs hC
      exact ⟨hP s hs, fun t ht => ih t (hstep s l t hs hC.1 ht) (hC.2 t ht)⟩

/-- The rule for a property of the steps a run takes. -/
theorem stepsMeet_of_invariant (hD : ∀ s l, I s → C s l → D s l)
    (hstep : ∀ s l t, I s → C s l → step s l = some t → I t) :
    ∀ (ls : List L) (s : S), I s → StepsMeet step C s ls → StepsMeet step D s ls := by
  intro ls
  induction ls with
  | nil => intro s _ _; trivial
  | cons l ls ih =>
      intro s hs hC
      exact ⟨hD s l hs hC.1, fun t ht => ih t (hstep s l t hs hC.1 ht) (hC.2 t ht)⟩

theorem stepsMeet_true : ∀ (ls : List L) (s : S), StepsMeet step (fun _ _ => True) s ls := by
  intro ls
  induction ls with
  | nil => intro _; trivial
  | cons l ls ih => intro s; exact ⟨trivial, fun t _ => ih t⟩

/-- A condition on the labels alone. -/
theorem stepsMeet_of_forall_mem : ∀ {ls : List L} (s : S), (∀ l ∈ ls, ∀ t, C t l) →
    StepsMeet step C s ls := by
  intro ls
  induction ls with
  | nil => intro _ _; trivial
  | cons l ls ih =>
      intro s h
      exact ⟨h l List.mem_cons_self s, fun t _ => ih t fun l' hl' => h l' (List.mem_cons_of_mem _ hl')⟩

theorem stepsMeet_and : ∀ (ls : List L) (s : S), StepsMeet step C s ls → StepsMeet step D s ls →
    StepsMeet step (fun s l => C s l ∧ D s l) s ls := by
  intro ls
  induction ls with
  | nil => intro _ _ _; trivial
  | cons l ls ih => intro s hC hD; exact ⟨⟨hC.1, hD.1⟩, fun t ht => ih t (hC.2 t ht) (hD.2 t ht)⟩

/-- The rule for a relation between the first state of a run and its last one. -/
theorem run_preorder {R : S → S → Prop} (hrefl : ∀ s, R s s)
    (htrans : ∀ s t u, R s t → R t u → R s u)
    (hstep : ∀ s l t, C s l → step s l = some t → R s t) :
    ∀ (ls : List L) (s t : S), StepsMeet step C s ls → run step s ls = some t → R s t := by
  intro ls
  induction ls with
  | nil =>
      intro s t _ ht
      cases ht
      exact hrefl s
  | cons l ls ih =>
      intro s t hC ht
      obtain ⟨u, hu, ht⟩ := Option.bind_eq_some_iff.mp ht
      exact htrans s u t (hstep s l u hC.1 hu) (ih u t (hC.2 u hu) ht)

theorem stepsMeet_append (s : S) (ls ms : List L) :
    StepsMeet step C s (ls ++ ms) ↔
      StepsMeet step C s ls ∧ ∀ t, run step s ls = some t → StepsMeet step C t ms := by
  induction ls generalizing s with
  | nil => simp [StepsMeet]
  | cons l ls ih =>
      rw [List.cons_append, StepsMeet, StepsMeet, and_assoc]
      refine and_congr_right fun _ => ?_
      constructor
      · intro h
        refine ⟨fun t ht => ((ih t).mp (h t ht)).1, fun t ht => ?_⟩
        obtain ⟨u, hu, ht⟩ := Option.bind_eq_some_iff.mp ht
        exact ((ih u).mp (h u hu)).2 t ht
      · rintro ⟨h, hrest⟩ t ht
        refine (ih t).mpr ⟨h t ht, fun u hu => hrest u ?_⟩
        rw [run_cons, ht, Option.bind_some, hu]

/-- Two conditions that say the same as long as the first one is met, whose invariant that is. -/
theorem stepsMeet_congr_of_invariant (hinv : ∀ s l t, I s → C s l → step s l = some t → I t)
    (hCD : ∀ s l, I s → (C s l ↔ D s l)) :
    ∀ (ls : List L) (s : S), I s → (StepsMeet step C s ls ↔ StepsMeet step D s ls) := by
  intro ls
  induction ls with
  | nil => intro s _; exact Iff.rfl
  | cons l ls ih =>
      intro s hs
      rw [StepsMeet, StepsMeet, ← hCD s l hs]
      exact and_congr_right fun hC => forall_congr' fun t => forall_congr' fun ht =>
        ih t (hinv s l t hs hC ht)

/-- Exactness: where a step outside `C` is one to a state outside `P`, the runs that stay in `P` are
the runs within `C`. Both may be about runs within `D` only. -/
theorem statesMeet_iff_stepsMeet (hinv : ∀ s l t, I s → D s l → step s l = some t → I t)
    (hstep : ∀ s l t, I s → D s l → P s → C s l → step s l = some t → P t)
    (hbad : ∀ s l, I s → D s l → P s → ¬ C s l → ∃ t, step s l = some t ∧ ¬ P t) :
    ∀ (ls : List L) (s : S), I s → P s → StepsMeet step D s ls →
      (StatesMeet step P s ls ↔ StepsMeet step C s ls) := by
  intro ls
  induction ls with
  | nil => intro s _ hP _; exact ⟨fun _ => trivial, fun _ => hP⟩
  | cons l ls ih =>
      intro s hs hP hD
      constructor
      · rintro ⟨-, hrest⟩
        have hC : C s l := by
          by_contra hno
          obtain ⟨t, ht, hnot⟩ := hbad s l hs hD.1 hP hno
          exact hnot (statesMeet_head (hrest t ht))
        refine ⟨hC, fun t ht => ?_⟩
        exact (ih t (hinv s l t hs hD.1 ht) (hstep s l t hs hD.1 hP hC ht) (hD.2 t ht)).mp
          (hrest t ht)
      · rintro ⟨hC, hrest⟩
        refine ⟨hP, fun t ht => ?_⟩
        exact (ih t (hinv s l t hs hD.1 ht) (hstep s l t hs hD.1 hP hC ht) (hD.2 t ht)).mpr
          (hrest t ht)

/-- The condition is needed as well: where every step that breaks it leads outside `P`, a run that
comes to its end and stays in `P` is a run within `C`. -/
theorem stepsMeet_of_statesMeet (hstep : ∀ s l t, I s → C s l → step s l = some t → I t)
    (hbad : ∀ s l t, I s → ¬ C s l → step s l = some t → ¬ P t) :
    ∀ (ls : List L) (s : S), I s → (run step s ls).isSome → StatesMeet step P s ls →
      StepsMeet step C s ls := by
  intro ls
  induction ls with
  | nil => intro s _ _ _; trivial
  | cons l ls ih =>
      intro s hs hrun hP
      obtain ⟨u, hu⟩ := Option.isSome_iff_exists.mp hrun
      obtain ⟨t, ht, hu⟩ := Option.bind_eq_some_iff.mp hu
      have hC : C s l := by
        by_contra hno
        exact hbad s l t hs hno ht (statesMeet_head (hP.2 t ht))
      refine ⟨hC, fun t' ht' => ?_⟩
      cases ht.symm.trans ht'
      exact ih t (hstep s l t hs hC ht) (by rw [hu]; rfl) (hP.2 t ht)

/-- A machine that keeps a history beside the state runs along with it. -/
theorem exists_run_along {R : Type*} {step' : R → L → Option R} (state : R → S)
    (hstep : ∀ r l t, step (state r) l = some t → ∃ r', step' r l = some r' ∧ state r' = t) :
    ∀ (ls : List L) (r : R) (t : S), run step (state r) ls = some t →
      ∃ r', run step' r ls = some r' ∧ state r' = t := by
  intro ls
  induction ls with
  | nil =>
      intro r t h
      cases h
      exact ⟨r, rfl, rfl⟩
  | cons l ls ih =>
      intro r t h
      obtain ⟨u, hu, h⟩ := Option.bind_eq_some_iff.mp h
      obtain ⟨r₁, hr₁, rfl⟩ := hstep r l u hu
      obtain ⟨r', hr', hstate⟩ := ih r₁ t h
      exact ⟨r', by rw [run_cons, hr₁, Option.bind_some, hr'], hstate⟩

theorem forall_eq_some_iff {t : S} {s : S} {l : L} {Q : S → Prop} (h : step s l = some t) :
    (∀ u, step s l = some u → Q u) ↔ Q t := by
  rw [h]
  exact ⟨fun hQ => hQ t rfl, fun hQ u hu => Option.some.inj hu ▸ hQ⟩

theorem forall_eq_none {s : S} {l : L} {Q : S → Prop} (h : step s l = none) :
    ∀ u, step s l = some u → Q u := by
  intro u hu
  rw [h] at hu
  cases hu

/-- The conditions on a run are checked by running it. -/
instance decidableStepsMeet [∀ s l, Decidable (C s l)] :
    ∀ (ls : List L) (s : S), Decidable (StepsMeet step C s ls)
  | [], _ => isTrue trivial
  | l :: ls, s =>
      match h : step s l with
      | none => decidable_of_iff (C s l) ⟨fun hC => ⟨hC, forall_eq_none h⟩, And.left⟩
      | some t =>
          have := decidableStepsMeet ls t
          decidable_of_iff (C s l ∧ StepsMeet step C t ls)
            (and_congr_right fun _ => (forall_eq_some_iff (Q := (StepsMeet step C · ls)) h).symm)

instance decidableStatesMeet [∀ s, Decidable (P s)] :
    ∀ (ls : List L) (s : S), Decidable (StatesMeet step P s ls)
  | [], s => inferInstanceAs (Decidable (P s))
  | l :: ls, s =>
      match h : step s l with
      | none => decidable_of_iff (P s) ⟨fun hP => ⟨hP, forall_eq_none h⟩, And.left⟩
      | some t =>
          have := decidableStatesMeet ls t
          decidable_of_iff (P s ∧ StatesMeet step P t ls)
            (and_congr_right fun _ => (forall_eq_some_iff (Q := (StatesMeet step P · ls)) h).symm)

end Run

end Saturn
