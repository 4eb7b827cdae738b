import Saturn.Misc.ListUpdate
import Saturn.Misc.Run
import Saturn.Scheduler.Defs

/-!
# Who has a fiber in hand

A worker has a fiber in hand from the test that lets it go on to `swapIn` to its last access to the
fiber's `m_state`; its `cb_fiber` and its `idle_fiber` it has in hand throughout. A step in which nobody
goes on to `swapIn` with a fiber that another worker has in hand leaves each fiber to one worker, which
switches into it only when its context is saved. That it does not execute in state `HOLD` needs more:
`YieldToHold` assigns `HOLD` before it switches away.
-/

namespace Saturn

namespace Scheduler

/-- The fiber that the statements from here on read and write. -/
def Pc.inHand : Pc → Option Nat
  | .assertIn f _ | .setExec f _ | .switchIn f _ | .running f _ | .switchOut f _ | .readyTest f _ |
    .endTest f _ | .setHold f _ | .resetAssert f _ | .resetContext f _ | .resetInit f _ => some f
  | .scan | .test _ | .idleTest | .requeue .. | .exited => none

/-- The worker has fiber `f` in hand. It is done with its `cb_fiber` when it puts it back into the
queue. -/
def Worker.Holds (wk : Worker) (f : Nat) : Prop :=
  wk.pc.inHand = some f ∨ (wk.cbFiber = some f ∧ wk.pc ≠ .requeue f .cb) ∨ wk.idleFiber = f

/-- No worker but `w` has fiber `f` in hand. -/
def Free (s : State) (w f : Nat) : Prop :=
  ∀ w' < s.workers.length, w' ≠ w → ∀ wk ∈ s.workers[w']?, ¬ wk.Holds f

/-- The fiber that worker `w` goes on to `swapIn` with, having taken it from the queue. -/
def State.entering (s : State) (w : Nat) : Option Nat :=
  match s.workers[w]? with
  | some ⟨.test (.fiber f), _, _⟩ => if (s.fibers f).state.Ended then none else some f
  | _ => none

/-- A worker goes on to `swapIn` only with a fiber that no other worker has in hand. -/
def EntersFree (s : State) : Label → Prop
  | .move w _ _ => ∀ f ∈ s.entering w, Free s w f
  | _ => True

/-- A fiber is executed by one worker at most. -/
def SingleExecutor (s : State) : Prop := ∀ w w' f, Executes s w f → Executes s w' f → w = w'

/-- The fiber that worker `w` switches into next. -/
def State.switching (s : State) (w : Nat) : Option Nat :=
  match s.workers[w]? with
  | some ⟨.switchIn f _, _, _⟩ => some f
  | _ => none

/-- A switch into a fiber finds its context saved. -/
def SwitchesSaved (s : State) : Label → Prop
  | .move w _ _ => ∀ f ∈ s.switching w, (s.fibers f).saved = true
  | _ => True

instance (s : State) : (l : Label) → Decidable (SwitchesSaved s l)
  | .move .. => inferInstanceAs (Decidable (∀ _ ∈ _, _))
  | .create _ | .schedule _ => isTrue trivial

/-- An executing fiber is not in state `HOLD`. -/
def NeverHold (s : State) : Prop := ∀ w f, Executes s w f → (s.fibers f).state ≠ .hold

/-- No fiber calls `YieldToHold`. -/
def NoYieldToHold (s : State) : Label → Prop
  | .move w act _ => s.halted = false → ∀ wk ∈ s.workers[w]?, ∀ f role, wk.pc = .running f role →
      act ≠ .yieldToHold
  | _ => True

/-- The invariant. -/
structure Owned (s : State) : Prop where
  unique : ∀ (w w' : Nat) (wk wk' : Worker) (f : Nat), s.workers[w]? = some wk →
    s.workers[w']? = some wk' → wk.Holds f → wk'.Holds f → w = w'
  saved : ∀ f, (s.fibers f).saved = true ∨ ∃ w, Executes s w f
  holds_lt : ∀ (w : Nat) (wk : Worker) (f : Nat), s.workers[w]? = some wk → wk.Holds f → f < s.count
  test_lt : ∀ (w : Nat) (wk : Worker) (f : Nat), s.workers[w]? = some wk →
    wk.pc = .test (.fiber f) ∨ (∃ role, wk.pc = .requeue f role) → f < s.count
  queue_lt : ∀ ft ∈ s.queue, ∀ f, ft.task = .fiber f → f < s.count
  switching : ∀ (w : Nat) (wk : Worker) (f : Nat) (role : Role), s.workers[w]? = some wk →
    wk.pc = .switchIn f role → (s.fibers f).state = .exec

theorem holds_of_executing {wk : Worker} {f : Nat} (h : wk.executing = some f) : wk.Holds f := by
  left
  unfold Worker.executing at h
  split at h <;> simp_all [Pc.inHand]

/-- The scan takes one entry off the queue, for this thread or any, and not of an executing fiber. -/
theorem takeFirst_eq {fibers : Nat → Fiber} {w : Nat} : ∀ {queue rest : List FiberAndThread}
    {task : Task}, takeFirst fibers w queue = some (task, rest) →
    ∃ before ft behind, queue = before ++ ft :: behind ∧ rest = before ++ behind ∧ ft.task = task ∧
      (ft.thread = none ∨ ft.thread = some w) ∧ ∀ f, task = .fiber f → (fibers f).state ≠ .exec := by
  intro queue
  induction queue with
  | nil => intro rest task h; cases h
  | cons ft queue ih =>
      intro rest task h
      have hskip : ∀ {rest task}, (takeFirst fibers w queue).map (fun r => (r.1, ft :: r.2)) =
          some (task, rest) → ∃ before ft' behind, ft :: queue = before ++ ft' :: behind ∧
            rest = before ++ behind ∧ ft'.task = task ∧ (ft'.thread = none ∨ ft'.thread = some w) ∧
            ∀ f, task = .fiber f → (fibers f).state ≠ .exec := by
        intro rest task h
        obtain ⟨⟨task', rest'⟩, htake, heq⟩ := Option.map_eq_some_iff.mp h
        cases heq
        obtain ⟨before, ft', behind, rfl, rfl, hfound⟩ := ih htake
        exact ⟨ft :: before, ft', behind, rfl, rfl, hfound⟩
      rw [takeFirst] at h
      split at h
      · exact hskip h
      rename_i hthread
      have hthread' : ft.thread = none ∨ ft.thread = some w := by
        simpa [or_iff_not_imp_left] using hthread
      split at h
      · rename_i f htask
        split at h
        · exact hskip h
        · rename_i hexec
          cases h
          refine ⟨[], ft, queue, rfl, rfl, rfl, hthread', fun g hg => ?_⟩
          cases htask.symm.trans hg
          exact hexec
      · rename_i htask
        cases h
        exact ⟨[], ft, queue, rfl, rfl, rfl, hthread', fun g hg => by cases htask.symm.trans hg⟩

/-- What a step of worker `w` that leads it from `wk` to `wk'` may change. -/
structure Handover (s t : State) (w : Nat) (wk wk' : Worker) : Prop where
  workers : t.workers = s.workers.set w wk'
  count : s.count ≤ t.count
  /-- What it has in hand behind it, it had before, or it is new, or it was free. -/
  holds : ∀ f, wk'.Holds f → wk.Holds f ∨ s.count ≤ f ∧ f < t.count ∨
    wk.pc = .test (.fiber f) ∧ ¬ (s.fibers f).state.Ended
  /-- It writes to what it has in hand and to new fibers. -/
  fibers : ∀ f, f < s.count → ¬ wk.Holds f → t.fibers f = s.fibers f
  /-- The context of a fiber is missing while it executes. -/
  saved : ∀ f, (t.fibers f).saved = true ∨ wk'.executing = some f ∨
    (s.fibers f).saved = false ∧ wk.executing ≠ some f
  test_lt : ∀ f, wk'.pc = .test (.fiber f) ∨ (∃ role, wk'.pc = .requeue f role) →
    wk.Holds f ∨ ∃ ft ∈ s.queue, ft.task = .fiber f
  queue_lt : ∀ ft ∈ t.queue, ft ∈ s.queue ∨ ∃ f role, ft.task = .fiber f ∧ wk.pc = .requeue f role
  switching : ∀ f role, wk'.pc = .switchIn f role → (t.fibers f).state = .exec
  executing : ∀ f, wk'.executing = some f → wk.executing = some f ∨ ∃ role, wk.pc = .switchIn f role

/-- A step that leaves the fibers alone. -/
theorem handover_of_goto {s t : State} {w : Nat} {wk wk' : Worker}
    (hworkers : t.workers = s.workers.set w wk') (hcount : t.count = s.count)
    (hfibers : t.fibers = s.fibers) (hexecuting : wk.executing = wk'.executing)
    (hholds : ∀ f, wk'.Holds f → wk.Holds f ∨ wk.pc = .test (.fiber f) ∧ ¬ (s.fibers f).state.Ended)
    (htest : ∀ f, wk'.pc = .test (.fiber f) ∨ (∃ role, wk'.pc = .requeue f role) →
      wk.Holds f ∨ ∃ ft ∈ s.queue, ft.task = .fiber f)
    (hqueue : ∀ ft ∈ t.queue, ft ∈ s.queue ∨ ∃ f role, ft.task = .fiber f ∧ wk.pc = .requeue f role)
    (hswitching : ∀ f role, wk'.pc ≠ .switchIn f role) : Handover s t w wk wk' where
  workers := hworkers
  count := Nat.le_of_eq hcount.symm
  holds f hf := (hholds f hf).imp_right Or.inr
  fibers f _ _ := by rw [hfibers]
  saved f := by
    rw [hfibers]
    cases hsaved : (s.fibers f).saved with
    | true => exact Or.inl rfl
    | false =>
        by_cases hf : wk'.executing = some f
        · exact Or.inr (Or.inl hf)
        · exact Or.inr (Or.inr ⟨rfl, by rwa [hexecuting]⟩)
  test_lt := htest
  queue_lt := hqueue
  switching f role hpc := (hswitching f role hpc).elim
  executing f hf := Or.inl (hexecuting.trans hf)

/-- A step that writes to a fiber in hand. -/
theorem handover_of_write {s t : State} {w f : Nat} {wk wk' : Worker} {fb : Fiber}
    (hworkers : t.workers = s.workers.set w wk') (hcount : t.count = s.count)
    (hqueue : t.queue = s.queue) (hfibers : t.fibers = Function.update s.fibers f fb)
    (hhand : wk.Holds f) (hexecuting : wk.executing = none ∨ wk.executing = some f)
    (hsaved : fb.saved = true ∨ wk'.executing = some f ∨
      (s.fibers f).saved = false ∧ wk.executing ≠ some f)
    (hholds : ∀ g, wk'.Holds g → wk.Holds g)
    (htest : ∀ g, ¬ (wk'.pc = .test (.fiber g) ∨ ∃ role, wk'.pc = .requeue g role))
    (hswitching : ∀ g role, wk'.pc = .switchIn g role → g = f ∧ fb.state = .exec)
    (hexecuting' : ∀ g, wk'.executing = some g →
      wk.executing = some g ∨ ∃ role, wk.pc = .switchIn g role) :
    Handover s t w wk wk' where
  workers := hworkers
  count := Nat.le_of_eq hcount.symm
  holds g hg := Or.inl (hholds g hg)
  fibers g _ hg := by
    have hne : g ≠ f := by
      rintro rfl
      exact hg hhand
    rw [hfibers, Function.update_of_ne hne]
  saved g := by
    rw [hfibers]
    by_cases hgf : g = f
    · subst hgf
      rw [Function.update_self]
      exact hsaved
    · rw [Function.update_of_ne hgf]
      cases hg : (s.fibers g).saved with
      | true => exact Or.inl rfl
      | false =>
          refine Or.inr (Or.inr ⟨rfl, ?_⟩)
          rcases hexecuting with hnone | hsome
          · simp [hnone]
          · simp [hsome, Ne.symm hgf]
  test_lt g hg := (htest g hg).elim
  queue_lt ft hft := Or.inl (hqueue ▸ hft)
  switching g role hpc := by
    obtain ⟨rfl, hexec⟩ := hswitching g role hpc
    rw [hfibers, Function.update_self, hexec]
  executing := hexecuting'

theorem handover_of_move {s t : State} {w : Nat} {wk : Worker} {act : Action}
    {garbage : FiberState} (h : s.move w wk act garbage = some t) :
    t = { s with halted := true } ∨ ∃ wk', Handover s t w wk wk' := by
  obtain ⟨pc, cbFiber, idleFiber⟩ := wk
  unfold State.move at h
  cases pc with
  | scan =>
      dsimp only at h
      split at h
      · rename_i task rest htake
        cases h
        obtain ⟨before, ft, behind, hqueue, hrest, htask, -, -⟩ := takeFirst_eq htake
        have hmem : ∀ ft' ∈ ft :: rest, ft' ∈ s.queue := by
          rw [hqueue, hrest]
          exact fun ft' hft' => List.perm_middle.mem_iff.mpr hft'
        refine Or.inr ⟨_, handover_of_goto rfl rfl rfl rfl ?_ ?_ ?_ ?_⟩
        · simp [Worker.Holds, Pc.inHand]
        · intro f hf
          simp only [Pc.test.injEq, reduceCtorEq, exists_false, or_false] at hf
          exact Or.inr ⟨ft, hmem ft List.mem_cons_self, htask.trans hf⟩
        · exact fun ft' hft' => Or.inl (hmem ft' (List.mem_cons_of_mem _ hft'))
        · simp
      · cases h
        refine Or.inr ⟨_, handover_of_goto rfl rfl rfl rfl ?_ ?_ ?_ ?_⟩ <;>
          simp [Worker.Holds, Pc.inHand, State.setWorker]
  | test task =>
      cases task with
      | fiber f =>
          cases h
          refine Or.inr ⟨_, handover_of_goto rfl rfl rfl ?_ ?_ ?_ ?_ ?_⟩ <;> split <;>
            simp [Worker.Holds, Pc.inHand, State.setWorker, Worker.executing]
          all_goals grind
      | cb id =>
          dsimp only at h
          split at h
          · cases h
            refine Or.inr ⟨_, handover_of_goto rfl rfl rfl ?_ ?_ ?_ ?_ ?_⟩ <;>
              simp_all [Worker.Holds, Pc.inHand, State.setWorker, Worker.executing]
          · cases h
            -- the new fiber is number `s.count`
            refine Or.inr ⟨_, rfl, Nat.le_succ _, ?_, ?_, ?_, ?_, ?_, ?_, ?_⟩
            · intro g hg
              simp only [Worker.Holds, Pc.inHand, State.setWorker, State.create] at hg ⊢
              grind
            · intro g hg _
              exact Function.update_of_ne (Nat.ne_of_lt hg) ..
            · intro g
              simp only [State.setWorker, State.create, Worker.executing, Function.update_apply]
              grind
            all_goals simp [State.setWorker, State.create, Worker.executing]
  | idleTest =>
      cases h
      refine Or.inr ⟨_, handover_of_goto rfl rfl rfl ?_ ?_ ?_ ?_ ?_⟩ <;> split <;>
        simp [Worker.Holds, Pc.inHand, State.setWorker, Worker.executing]
      all_goals grind
  | assertIn f role =>
      dsimp only at h
      split at h
      · cases h
        exact Or.inl rfl
      · cases h
        refine Or.inr ⟨_, handover_of_goto rfl rfl rfl ?_ ?_ ?_ ?_ ?_⟩ <;>
          simp [Worker.Holds, Pc.inHand, State.setWorker, Worker.executing]
  | setExec f role =>
      cases h
      refine Or.inr ⟨_, handover_of_write rfl rfl rfl rfl (Or.inl rfl) (Or.inl rfl)
        ?_ ?_ ?_ ?_ ?_⟩
      · cases hsaved : (s.fibers f).saved <;> simp [Worker.executing]
      all_goals simp [Worker.Holds, Pc.inHand, Worker.executing]
  | switchIn f role =>
      cases h
      refine Or.inr ⟨_, handover_of_write rfl rfl rfl rfl (Or.inl rfl) (Or.inl rfl)
        (Or.inr (Or.inl rfl)) ?_ ?_ ?_ ?_⟩ <;> simp [Worker.Holds, Pc.inHand, Worker.executing]
  | running f role =>
      dsimp only at h
      split at h
      · cases h
        refine Or.inr ⟨_, handover_of_write rfl rfl rfl rfl (Or.inl rfl) (Or.inr rfl)
          (Or.inr (Or.inl rfl)) ?_ ?_ ?_ ?_⟩ <;> simp [Worker.Holds, Pc.inHand, Worker.executing]
      · cases h
        refine Or.inr ⟨_, handover_of_goto rfl rfl rfl rfl ?_ ?_ ?_ ?_⟩ <;>
          simp [Worker.Holds, Pc.inHand, State.setWorker]
  | switchOut f role =>
      cases h
      refine Or.inr ⟨_, handover_of_write rfl rfl rfl rfl (Or.inl rfl) (Or.inr rfl)
        (Or.inl rfl) ?_ ?_ ?_ ?_⟩ <;> split <;> simp [Worker.Holds, Pc.inHand, Worker.executing]
  | readyTest f role =>
      cases h
      refine Or.inr ⟨_, handover_of_goto rfl rfl rfl ?_ ?_ ?_ ?_ ?_⟩ <;> split <;>
        simp [Worker.Holds, Pc.inHand, State.setWorker, Worker.executing]
      all_goals grind
  | requeue f role =>
      cases h
      refine Or.inr ⟨_, handover_of_goto rfl rfl rfl rfl ?_ ?_ ?_ ?_⟩ <;>
        simp [Worker.Holds, Pc.inHand, State.setWorker]
      all_goals grind
  | endTest f role =>
      dsimp only at h
      split at h
      · cases h
        refine Or.inr ⟨_, handover_of_goto rfl rfl rfl ?_ ?_ ?_ ?_ ?_⟩ <;> split <;>
          simp [Worker.Holds, Pc.inHand, State.setWorker, Worker.executing]
        all_goals grind
      · cases h
        refine Or.inr ⟨_, handover_of_goto rfl rfl rfl rfl ?_ ?_ ?_ ?_⟩ <;>
          simp [Worker.Holds, Pc.inHand, State.setWorker]
  | setHold f role =>
      cases h
      refine Or.inr ⟨_, handover_of_write rfl rfl rfl rfl (Or.inl rfl) (Or.inl rfl)
        ?_ ?_ ?_ ?_ ?_⟩
      · cases hsaved : (s.fibers f).saved <;> simp [Worker.executing]
      all_goals simp [Worker.Holds, Pc.inHand, Worker.executing]
      all_goals grind
  | resetAssert f again =>
      dsimp only at h
      split at h
      · cases h
        refine Or.inr ⟨_, handover_of_goto rfl rfl rfl rfl ?_ ?_ ?_ ?_⟩ <;>
          simp [Worker.Holds, Pc.inHand, State.setWorker]
      · cases h
        exact Or.inl rfl
  | resetContext f again =>
      cases h
      refine Or.inr ⟨_, handover_of_write rfl rfl rfl rfl (Or.inl rfl) (Or.inl rfl)
        (Or.inl rfl) ?_ ?_ ?_ ?_⟩ <;> simp [Worker.Holds, Pc.inHand, Worker.executing]
  | resetInit f again =>
      cases h
      refine Or.inr ⟨_, handover_of_write rfl rfl rfl rfl (Or.inl rfl) (Or.inl rfl)
        ?_ ?_ ?_ ?_ ?_⟩
      · cases hsaved : (s.fibers f).saved <;> simp [Worker.executing]
      all_goals split <;> simp [Worker.Holds, Pc.inHand, Worker.executing]
      all_goals grind
  | exited => cases h

section Step

variable {s t : State} {l : Label}

theorem Owned.of_eq (h : Owned s) (hworkers : t.workers = s.workers) (hfibers : t.fibers = s.fibers)
    (hcount : t.count = s.count) (hqueue : ∀ ft ∈ t.queue, ∀ f, ft.task = .fiber f → f < s.count) :
    Owned t where
  unique := by rw [hworkers]; exact h.unique
  saved f := by
    rw [hfibers]
    refine (h.saved f).imp_right fun ⟨w, hw⟩ => ⟨w, ?_⟩
    rw [Executes, hworkers]
    exact hw
  holds_lt := by rw [hworkers, hcount]; exact h.holds_lt
  test_lt := by rw [hworkers, hcount]; exact h.test_lt
  queue_lt := by rw [hcount]; exact hqueue
  switching := by rw [hworkers, hfibers]; exact h.switching

/-- A new fiber is in nobody's hands. -/
theorem Owned.create (h : Owned s) (garbage : FiberState) : Owned (s.create garbage) where
  unique := h.unique
  saved f := by
    simp only [State.create]
    by_cases hf : f = s.count
    · subst hf
      rw [Function.update_self]
      exact Or.inl rfl
    · rw [Function.update_of_ne hf]
      exact h.saved f
  holds_lt w wk f hwk hf := Nat.lt_succ_of_lt (h.holds_lt w wk f hwk hf)
  test_lt w wk f hwk hf := Nat.lt_succ_of_lt (h.test_lt w wk f hwk hf)
  queue_lt ft hft f hf := Nat.lt_succ_of_lt (h.queue_lt ft hft f hf)
  switching w wk f role hwk hpc := by
    have hlt := h.holds_lt w wk f hwk (Or.inl (by rw [hpc]; rfl))
    simp only [State.create]
    rw [Function.update_of_ne (Nat.ne_of_lt hlt)]
    exact h.switching w wk f role hwk hpc

/-- What other workers have in hand stays as it is. -/
theorem Owned.fibers_eq (h : Owned s) {w w' f : Nat} {wk wk' wk₁ : Worker}
    (hwk : s.workers[w]? = some wk) (hhand : Handover s t w wk wk') (hne : w' ≠ w)
    (hwk₁ : s.workers[w']? = some wk₁) (hf : wk₁.Holds f) : t.fibers f = s.fibers f :=
  hhand.fibers f (h.holds_lt w' wk₁ f hwk₁ hf) fun hmine =>
    hne (h.unique w' w wk₁ wk f hwk₁ hwk hf hmine)

theorem Owned.handover (h : Owned s) {w : Nat} {wk wk' : Worker} (hwk : s.workers[w]? = some wk)
    (hhand : Handover s t w wk wk')
    (hfree : ∀ f, wk.pc = .test (.fiber f) → ¬ (s.fibers f).state.Ended → Free s w f) : Owned t := by
  have hworkers : ∀ w', t.workers[w']? = if w' = w then some wk' else s.workers[w']? := by
    intro w'
    rw [hhand.workers, getElem?_set_of_some hwk]
  -- what `w` has in hand behind the step, no other worker has
  have hown : ∀ (w' : Nat) (wk₁ : Worker) (f : Nat), w' ≠ w → s.workers[w']? = some wk₁ →
      wk'.Holds f → ¬ wk₁.Holds f := by
    intro w' wk₁ f hne hwk₁ hf hf₁
    rcases hhand.holds f hf with hmine | ⟨hnew, -⟩ | ⟨hpc, halive⟩
    · exact hne (h.unique w' w wk₁ wk f hwk₁ hwk hf₁ hmine)
    · exact Nat.not_lt.mpr hnew (h.holds_lt w' wk₁ f hwk₁ hf₁)
    · obtain ⟨hlt, -⟩ := List.getElem?_eq_some_iff.mp hwk₁
      exact hfree f hpc halive w' hlt hne wk₁ hwk₁ hf₁
  refine ⟨?_, ?_, ?_, ?_, ?_, ?_⟩
  · intro w₁ w₂ wk₁ wk₂ f hwk₁ hwk₂ hf₁ hf₂
    rw [hworkers] at hwk₁ hwk₂
    split at hwk₁ <;> split at hwk₂ <;> rename_i h₁ h₂
    · rw [h₁, h₂]
    · cases hwk₁
      exact (hown w₂ wk₂ f h₂ hwk₂ hf₁ hf₂).elim
    · cases hwk₂
      exact (hown w₁ wk₁ f h₁ hwk₁ hf₂ hf₁).elim
    · exact h.unique w₁ w₂ wk₁ wk₂ f hwk₁ hwk₂ hf₁ hf₂
  · intro f
    rcases hhand.saved f with hsaved | hexec | ⟨hunsaved, hother⟩
    · exact Or.inl hsaved
    · exact Or.inr ⟨w, wk', by rw [hworkers, if_pos rfl]; rfl, hexec⟩
    · rcases h.saved f with hsaved | ⟨w', wk₁, hwk₁, hexec⟩
      · rw [hunsaved] at hsaved
        cases hsaved
      · have hne : w' ≠ w := by
          rintro rfl
          cases hwk.symm.trans hwk₁
          exact hother hexec
        exact Or.inr ⟨w', wk₁, by rw [hworkers, if_neg hne]; exact hwk₁, hexec⟩
  · intro w' wk₁ f hwk₁ hf
    rw [hworkers] at hwk₁
    split at hwk₁
    · cases hwk₁
      rcases hhand.holds f hf with hmine | ⟨-, hlt⟩ | ⟨hpc, -⟩
      · exact Nat.lt_of_lt_of_le (h.holds_lt w wk f hwk hmine) hhand.count
      · exact hlt
      · exact Nat.lt_of_lt_of_le (h.test_lt w wk f hwk (Or.inl hpc)) hhand.count
    · exact Nat.lt_of_lt_of_le (h.holds_lt w' wk₁ f hwk₁ hf) hhand.count
  · intro w' wk₁ f hwk₁ hf
    rw [hworkers] at hwk₁
    refine Nat.lt_of_lt_of_le ?_ hhand.count
    split at hwk₁
    · cases hwk₁
      rcases hhand.test_lt f hf with hmine | ⟨ft, hft, htask⟩
      · exact h.holds_lt w wk f hwk hmine
      · exact h.queue_lt ft hft f htask
    · exact h.test_lt w' wk₁ f hwk₁ hf
  · intro ft hft f htask
    refine Nat.lt_of_lt_of_le ?_ hhand.count
    rcases hhand.queue_lt ft hft with hold | ⟨g, role, hg, hpc⟩
    · exact h.queue_lt ft hold f htask
    · cases htask.symm.trans hg
      exact h.test_lt w wk f hwk (Or.inr ⟨role, hpc⟩)
  · intro w' wk₁ f role hwk₁ hpc
    rw [hworkers] at hwk₁
    split at hwk₁
    · cases hwk₁
      exact hhand.switching f role hpc
    · rename_i hne
      rw [h.fibers_eq hwk hhand hne hwk₁ (Or.inl (by rw [hpc]; rfl))]
      exact h.switching w' wk₁ f role hwk₁ hpc

/-- What a step of the system is. -/
theorem step_cases (hstep : step s l = some t) : s.halted = false ∧
    ((∃ garbage, l = .create garbage ∧ t = s.create garbage) ∨
    (∃ ft, l = .schedule ft ∧ t = { s with queue := s.queue ++ [ft] } ∧
      ∀ f, ft.task = .fiber f → f < s.count) ∨
    ∃ w act garbage wk, l = .move w act garbage ∧ s.workers[w]? = some wk ∧
      s.move w wk act garbage = some t) := by
  unfold step at hstep
  split at hstep
  · cases hstep
  rename_i hhalted
  refine ⟨by simpa using hhalted, ?_⟩
  cases l with
  | create garbage =>
      cases hstep
      exact Or.inl ⟨garbage, rfl, rfl⟩
  | schedule ft =>
      right
      left
      dsimp only at hstep
      split at hstep
      · rename_i f htask
        split at hstep
        · rename_i hlt
          cases hstep
          refine ⟨ft, rfl, rfl, fun g hg => ?_⟩
          cases htask.symm.trans hg
          exact hlt
        · cases hstep
      · rename_i htask
        cases hstep
        refine ⟨ft, rfl, rfl, fun g hg => ?_⟩
        cases htask.symm.trans hg
  | move w act garbage =>
      right
      right
      dsimp only at hstep
      split at hstep
      · rename_i wk hwk
        exact ⟨w, act, garbage, wk, rfl, hwk, hstep⟩
      · cases hstep

theorem entering_eq {w f : Nat} {wk : Worker} (hwk : s.workers[w]? = some wk)
    (hpc : wk.pc = .test (.fiber f)) (halive : ¬ (s.fibers f).state.Ended) :
    s.entering w = some f := by
  obtain ⟨pc, cbFiber, idleFiber⟩ := wk
  cases hpc
  simp only [State.entering, hwk, if_neg halive]

theorem owned_step (h : Owned s) (hl : EntersFree s l) (hstep : step s l = some t) : Owned t := by
  obtain ⟨-, ⟨garbage, -, rfl⟩ | ⟨ft, -, rfl, hlt⟩ | ⟨w, act, garbage, wk, rfl, hwk, hmove⟩⟩ :=
    step_cases hstep
  · exact h.create garbage
  · refine h.of_eq rfl rfl rfl fun ft' hft' f hf => ?_
    rcases List.mem_append.mp hft' with hold | hnew
    · exact h.queue_lt ft' hold f hf
    · cases List.mem_singleton.mp hnew
      exact hlt f hf
  · rcases handover_of_move hmove with rfl | ⟨wk', hhand⟩
    · exact h.of_eq rfl rfl rfl h.queue_lt
    · exact h.handover hwk hhand fun f hpc halive => hl f (entering_eq hwk hpc halive)

theorem Owned.singleExecutor (h : Owned s) : SingleExecutor s := by
  rintro w w' f ⟨wk, hwk, hexec⟩ ⟨wk', hwk', hexec'⟩
  exact h.unique w w' wk wk' f hwk hwk' (holds_of_executing hexec) (holds_of_executing hexec')

/-- The worker that switches into a fiber has it in hand, so nobody executes it. -/
theorem Owned.switchesSaved (h : Owned s) (l : Label) : SwitchesSaved s l := by
  cases l with
  | move w act garbage =>
      intro f hf
      rw [State.switching] at hf
      split at hf
      · rename_i g role cbFiber idleFiber hwk
        cases hf
        rcases h.saved f with hsaved | ⟨w', wk', hwk', hexec⟩
        · exact hsaved
        · have hsame := h.unique w w' _ wk' f hwk hwk' (Or.inl rfl) (holds_of_executing hexec)
          subst hsame
          cases hwk.symm.trans hwk'
          cases hexec
      · cases hf
  | create garbage => trivial
  | schedule ft => trivial

/-- A worker executes a fiber behind a step in which it switched into it, or ran on in it. -/
theorem executing_of_move {w f : Nat} {wk wk' : Worker} {act : Action} {garbage : FiberState}
    (hmove : s.move w wk act garbage = some t) (hwk : s.workers[w]? = some wk)
    (hhand : Handover s t w wk wk') (hexec : wk'.executing = some f) :
    (∃ role, wk.pc = .switchIn f role ∧ (t.fibers f).state = (s.fibers f).state) ∨
    ∃ role, wk.pc = .running f role ∧
      (t.fibers f).state = act.assigns.getD (s.fibers f).state := by
  have hwk' : t.workers[w]? = some wk' := by
    rw [hhand.workers, getElem?_set_of_some hwk, if_pos rfl]
  have hbefore := hhand.executing f hexec
  obtain ⟨pc, cbFiber, idleFiber⟩ := wk
  unfold State.move at hmove
  rcases hbefore with hbefore | ⟨role, hpc⟩
  · unfold Worker.executing at hbefore
    split at hbefore
    · rename_i role hpc
      cases hpc
      cases hbefore
      dsimp only at hmove
      split at hmove <;> rename_i hassigns <;> cases hmove
      · exact Or.inr ⟨role, rfl, by simp [State.setWorker, State.setState, hassigns]⟩
      · exact Or.inr ⟨role, rfl, by simp [State.setWorker, hassigns]⟩
    · -- behind `switchOut` it is back on its own stack
      rename_i role hpc
      cases hpc
      cases hmove
      simp only [State.setWorker, State.setSaved, getElem?_set_of_some hwk, if_pos] at hwk'
      cases hwk'
      cases role <;> cases hexec
    · cases hbefore
  · cases hpc
    cases hmove
    exact Or.inl ⟨role, rfl, by simp [State.setWorker, State.setSaved]⟩

/-- While no fiber calls `YieldToHold`, no fiber executes in state `HOLD`. -/
theorem neverHold_step (h : Owned s) (hnever : NeverHold s) (hl : NoYieldToHold s l)
    (hstep : step s l = some t) : NeverHold t := by
  obtain ⟨hhalted, ⟨garbage, -, rfl⟩ | ⟨ft, -, rfl, -⟩ | ⟨w, act, garbage, wk, rfl, hwk, hmove⟩⟩ :=
    step_cases hstep
  · rintro w f ⟨wk, hwk, hexec⟩
    have hlt := h.holds_lt w wk f hwk (holds_of_executing hexec)
    simp only [State.create, Function.update_of_ne (Nat.ne_of_lt hlt)]
    exact hnever w f ⟨wk, hwk, hexec⟩
  · exact hnever
  · rcases handover_of_move hmove with rfl | ⟨wk', hhand⟩
    · exact hnever
    rintro w' f ⟨wk₁, hwk₁, hexec⟩
    have hwk₁' : t.workers[w']? = some wk₁ := hwk₁
    rw [hhand.workers, getElem?_set_of_some hwk] at hwk₁'
    split at hwk₁' <;> rename_i hw
    · cases hwk₁'
      rcases executing_of_move hmove hwk hhand hexec with ⟨role, hpc, hstate⟩ | ⟨role, hpc, hstate⟩
      · rw [hstate, h.switching w wk f role hwk hpc]
        decide
      · have hact := hl hhalted wk hwk f role hpc
        have hbefore := hnever w f ⟨wk, hwk, by rw [Worker.executing, hpc]⟩
        rw [hstate]
        cases act with
        | yieldToHold => exact (hact rfl).elim
        | swapOut => exact hbefore
        | yieldToReady | finish | throwException => simp [Action.assigns]
    · rw [h.fibers_eq hwk hhand hw hwk₁' (holds_of_executing hexec)]
      exact hnever w' f ⟨wk₁, hwk₁', hexec⟩

/-- `YieldToHold` has assigned `HOLD` while the fiber still executes. -/
theorem not_neverHold_step (hl : ¬ NoYieldToHold s l) :
    ∃ t, step s l = some t ∧ ¬ NeverHold t := by
  cases l with
  | create garbage => exact (hl trivial).elim
  | schedule ft => exact (hl trivial).elim
  | move w act garbage =>
      simp only [NoYieldToHold, Classical.not_forall, Classical.not_not] at hl
      obtain ⟨hhalted, wk, hwk, f, role, hpc, rfl⟩ := hl
      replace hwk : s.workers[w]? = some wk := hwk
      obtain ⟨pc, cbFiber, idleFiber⟩ := wk
      cases hpc
      refine ⟨(s.setState f .hold).setWorker w ⟨.switchOut f role, cbFiber, idleFiber⟩, ?_, ?_⟩
      · simp [step, hhalted, hwk, State.move, Action.assigns]
      · intro hnever
        refine hnever w f ⟨⟨.switchOut f role, cbFiber, idleFiber⟩, ?_, rfl⟩ ?_
        · change (s.workers.set w _)[w]? = _
          rw [getElem?_set_of_some hwk, if_pos rfl]
        · simp [State.setWorker, State.setState]

end Step

theorem owned_init (workers : Nat) (garbage : Nat → FiberState) : Owned (init workers garbage) := by
  have hworker : ∀ (w : Nat) (wk : Worker), (init workers garbage).workers[w]? = some wk →
      w < workers ∧ wk = ⟨.scan, none, w⟩ := by
    intro w wk hwk
    rw [init, List.getElem?_map, Option.map_eq_some_iff] at hwk
    obtain ⟨w', hw', rfl⟩ := hwk
    obtain ⟨hlt, rfl⟩ := List.getElem?_eq_some_iff.mp hw'
    simpa using hlt
  have hholds : ∀ (w : Nat) (wk : Worker) (f : Nat), (init workers garbage).workers[w]? = some wk →
      wk.Holds f → f = w := by
    intro w wk f hwk hf
    obtain ⟨-, rfl⟩ := hworker w wk hwk
    simpa [Worker.Holds, Pc.inHand, eq_comm] using hf
  refine ⟨?_, fun f => Or.inl rfl, ?_, ?_, ?_, ?_⟩
  · intro w w' wk wk' f hwk hwk' hf hf'
    rw [← hholds w wk f hwk hf, hholds w' wk' f hwk' hf']
  · intro w wk f hwk hf
    rw [hholds w wk f hwk hf]
    exact (hworker w wk hwk).1
  · intro w wk f hwk hf
    obtain ⟨-, rfl⟩ := hworker w wk hwk
    rcases hf with hf | ⟨role, hf⟩ <;> cases hf
  · intro ft hft
    cases hft
  · intro w wk f role hwk hpc
    obtain ⟨-, rfl⟩ := hworker w wk hwk
    cases hpc

theorem neverHold_init (workers : Nat) (garbage : Nat → FiberState) :
    NeverHold (init workers garbage) := by
  rintro w f ⟨wk, hwk, hexec⟩
  replace hwk : (init workers garbage).workers[w]? = some wk := hwk
  rw [init, List.getElem?_map, Option.map_eq_some_iff] at hwk
  obtain ⟨w', -, rfl⟩ := hwk
  cases hexec

end Scheduler

end Saturn
