import Saturn.Scheduler.Ownership

/-!
# One worker for each fiber

The scan of `run` skips a fiber in state `EXEC`, so a fiber that executes may be scheduled: nobody takes
it before the worker that ran it has assigned `HOLD`. What the test does not cover is a second entry of
a fiber that another worker can take, and a state that a fiber assigns itself while it still executes.
Where callers of `schedule` and fibers that assign their state leave these out, no worker goes on to
`swapIn` with a fiber that another one has in hand.
-/

namespace Saturn

namespace Scheduler

/-- The fiber that a worker runs, and as what, up to the end of that turn of its loop. -/
def Pc.runsAs : Pc → Option (Nat × Role)
  | .assertIn f role | .setExec f role | .switchIn f role | .running f role | .switchOut f role |
    .readyTest f role | .requeue f role | .endTest f role | .setHold f role => some (f, role)
  | .scan | .test _ | .idleTest | .resetAssert .. | .resetContext .. | .resetInit .. | .exited => none

namespace Worker

/-- The worker keeps `f` behind this turn: as its `idle_fiber`, or as a `cb_fiber` that it does not
run now. -/
def Keeps (wk : Worker) (f : Nat) : Prop :=
  wk.idleFiber = f ∨ wk.cbFiber = some f ∧ wk.pc.runsAs ≠ some (f, .cb)

/-- The worker puts `f`, which is in state `st`, back into the queue. -/
def PutsBack (wk : Worker) (st : FiberState) (f : Nat) : Prop :=
  match wk.pc with
  | .switchOut g role | .readyTest g role => g = f ∧ role ≠ .idle ∧ st = .ready
  | .requeue g _ => g = f
  | _ => False

/-- The worker has taken `f`, or has it in hand, and the state of `f` does not tell the others so. -/
def Claims (wk : Worker) (st : FiberState) (f : Nat) : Prop :=
  wk.pc = .test (.fiber f) ∨ wk.Keeps f ∨ wk.pc.inHand = some f ∧ st ≠ .exec

/-- The worker has taken `f`, has it in hand, or puts it back. -/
def Has (wk : Worker) (f : Nat) : Prop :=
  wk.pc = .test (.fiber f) ∨ wk.Holds f ∨ ∃ role, wk.pc = .requeue f role

instance (wk : Worker) (f : Nat) : Decidable (wk.Keeps f) := inferInstanceAs (Decidable (_ ∨ _))

instance (wk : Worker) (st : FiberState) (f : Nat) : Decidable (wk.PutsBack st f) := by
  unfold PutsBack
  split <;> infer_instance

instance (wk : Worker) (st : FiberState) (f : Nat) : Decidable (wk.Claims st f) :=
  inferInstanceAs (Decidable (_ ∨ _))

end Worker

/-- The threads that the entries for `f` in a queue are for. -/
def entriesFor (f : Nat) (queue : List FiberAndThread) : List (Option Nat) :=
  queue.filterMap fun ft => if ft.task = .fiber f then some ft.thread else none

/-- No worker runs `f` again, whatever `st` it has come to: it has ended, and no worker has it for
callbacks or for idling. -/
def Done (s : State) (st : FiberState) (f : Nat) : Prop :=
  st.Ended ∧ ∀ wk ∈ s.workers, wk.idleFiber ≠ f ∧ wk.cbFiber ≠ some f

/-- An entry for `f` is the only one, and no worker has `f` unless the entry is for its thread: `run`
skips it while `f` executes. -/
def EntersAlone (s : State) (f : Nat) (thread : Option Nat) : Prop :=
  (∀ th ∈ entriesFor f s.queue, thread ≠ none ∧ th = thread) ∧
    ∀ w < s.workers.length, ∀ wk ∈ s.workers[w]?, ¬ wk.PutsBack (s.fibers f).state f ∧
      (wk.Claims (s.fibers f).state f → thread = some w)

/-- No other worker can take `f` when it assigns `st` while worker `w` still runs it. -/
def AssignsAlone (s : State) (w : Nat) (wk : Worker) (f : Nat) (role : Role) (st : FiberState) :
    Prop :=
  (∀ th ∈ entriesFor f s.queue, th = some w) ∧
    (st = .ready → role ≠ .idle → entriesFor f s.queue = [] ∧ ¬ wk.Keeps f)

/-- The fiber that an entry of the queue is for. -/
def Task.fiber? : Task → Option Nat
  | .fiber f => some f
  | .cb _ => none

/-- The fiber whose own code the worker is in, and what it runs that as. -/
def Pc.inCode : Pc → Option (Nat × Role)
  | .running f role => some (f, role)
  | _ => none

/-- A step that brings no second worker to a fiber: a call of `schedule`, or an assignment that a
fiber makes to its own state. -/
def LeavesAlone (s : State) : Label → Prop
  | .create _ => True
  | .schedule ft => s.workers.length ≤ 1 ∨ ∀ f ∈ ft.task.fiber?,
      Done s (s.fibers f).state f ∨ EntersAlone s f ft.thread
  | .move w act _ => s.workers.length ≤ 1 ∨ ∀ wk ∈ s.workers[w]?, ∀ p ∈ wk.pc.inCode,
      ∀ st ∈ act.assigns, Done s st p.1 ∨ AssignsAlone s w wk p.1 p.2 st

instance (s : State) (st : FiberState) (f : Nat) : Decidable (Done s st f) :=
  inferInstanceAs (Decidable (_ ∧ _))

instance (s : State) (f : Nat) (thread : Option Nat) : Decidable (EntersAlone s f thread) :=
  inferInstanceAs (Decidable ((∀ th ∈ entriesFor f s.queue, _) ∧ ∀ w < s.workers.length, _))

instance (s : State) (w : Nat) (wk : Worker) (f : Nat) (role : Role) (st : FiberState) :
    Decidable (AssignsAlone s w wk f role st) :=
  inferInstanceAs (Decidable ((∀ th ∈ entriesFor f s.queue, _) ∧ (_ → _ → _)))

instance (s : State) : (l : Label) → Decidable (LeavesAlone s l)
  | .create _ => isTrue trivial
  | .schedule _ | .move .. => inferInstanceAs (Decidable (_ ∨ ∀ _ ∈ _, _))

/-- One worker at most may come to run `f`, but for a fiber that waits in the queue and that nobody
has. -/
structure Sole (s : State) (f : Nat) : Prop where
  entries : (entriesFor f s.queue).Pairwise fun th th' => th ≠ none ∧ th = th'
  claims : ∀ th ∈ entriesFor f s.queue, ∀ (w : Nat) (wk : Worker), s.workers[w]? = some wk →
    wk.Claims (s.fibers f).state f → th = some w
  back : ∀ (w : Nat) (wk : Worker), s.workers[w]? = some wk → wk.PutsBack (s.fibers f).state f →
    entriesFor f s.queue = [] ∧ ¬ wk.Keeps f
  unique : ∀ (w w' : Nat) (wk wk' : Worker), s.workers[w]? = some wk → s.workers[w']? = some wk' →
    wk.Has f → wk'.Has f → w = w'

/-- The worker runs `f` as what it is to it. -/
def Role.Fits (wk : Worker) (f : Nat) : Role → Prop
  | .taken => True
  | .cb => wk.cbFiber = some f
  | .idle => wk.idleFiber = f

/-- What the statement that a worker is at says of the fiber that it runs. -/
def Worker.Proper (fibers : Nat → Fiber) (wk : Worker) : Prop :=
  match wk.pc with
  | .assertIn f role | .setExec f role =>
      role.Fits wk f ∧ (role = .taken → ¬ (fibers f).state.Ended)
  | .switchIn f role | .running f role => role.Fits wk f ∧ (fibers f).state = .exec
  | .switchOut f role | .endTest f role => role.Fits wk f
  | .readyTest f role | .requeue f role => role.Fits wk f ∧ role ≠ .idle
  | .setHold f role => role.Fits wk f ∧ ¬ (fibers f).state.Ended
  | .resetAssert f _ => wk.cbFiber = some f
  | .resetContext f _ | .resetInit f _ => wk.cbFiber = some f ∧ (fibers f).state ≠ .exec
  | .scan | .test _ | .idleTest | .exited => True

/-- The worker was `wk` before, with the same `idle_fiber` and `cb_fiber` unless that is new. -/
def Worker.Descends (wk' : Worker) (count : Nat) (wk : Worker) : Prop :=
  wk'.idleFiber = wk.idleFiber ∧ ∀ f < count, wk'.cbFiber = some f → wk.cbFiber = some f

theorem Worker.descends_goto {wk wk' : Worker} {count : Nat} (hidle : wk'.idleFiber = wk.idleFiber)
    (hcb : wk'.cbFiber = wk.cbFiber ∨ wk'.cbFiber = none) : wk'.Descends count wk := by
  refine ⟨hidle, fun f _ hf => ?_⟩
  rcases hcb with hcb | hcb
  · rwa [← hcb]
  · rw [hcb] at hf
    cases hf

/-- What a move of worker `w` from `wk` to `wk'` is for fiber `f`. -/
inductive Turn (s t : State) (w : Nat) (wk wk' : Worker) (act : Action) (f : Nat) : Prop where
  /-- It comes to have nothing of `f` that it did not have. -/
  | stays (queue : entriesFor f t.queue = entriesFor f s.queue) (has : wk'.Has f → wk.Has f)
      (claims : wk'.Claims (t.fibers f).state f → wk.Claims (s.fibers f).state f)
      (back : wk'.PutsBack (t.fibers f).state f →
        wk.PutsBack (s.fibers f).state f ∧ (wk'.Keeps f → wk.Keeps f))
  /-- It takes an entry of `f`, which is not in state `EXEC`. -/
  | takes (before behind : List (Option Nat)) (th : Option Nat)
      (queue : entriesFor f s.queue = before ++ th :: behind)
      (rest : entriesFor f t.queue = before ++ behind) (thread : th = none ∨ th = some w)
      (state : (s.fibers f).state ≠ .exec) (fibers : t.fibers = s.fibers)
      (pc : wk'.pc = .test (.fiber f))
  /-- It puts `f` back into the queue. -/
  | putsBack (role : Role) (pc : wk.pc = .requeue f role)
      (queue : entriesFor f t.queue = entriesFor f s.queue ++ [none]) (fibers : t.fibers = s.fibers)
      (pc' : wk'.pc = .scan) (keeps : wk'.Holds f → wk.Keeps f)
  /-- The fiber assigns a state to itself. -/
  | assigns (role : Role) (st : FiberState) (pc : wk.pc = .running f role)
      (assigned : act.assigns = some st) (queue : entriesFor f t.queue = entriesFor f s.queue)
      (state : (t.fibers f).state = st) (pc' : wk'.pc = .switchOut f role)
      (cb : wk'.cbFiber = wk.cbFiber) (idle : wk'.idleFiber = wk.idleFiber)
  /-- The fiber is new. -/
  | new (le : s.count ≤ f) (queue : entriesFor f t.queue = entriesFor f s.queue)
      (back : ¬ wk'.PutsBack (t.fibers f).state f)

theorem entriesFor_append (f : Nat) (queue queue' : List FiberAndThread) :
    entriesFor f (queue ++ queue') = entriesFor f queue ++ entriesFor f queue' :=
  List.filterMap_append

theorem entriesFor_of_ne {f : Nat} {ft : FiberAndThread} (h : ft.task ≠ .fiber f) :
    entriesFor f [ft] = [] := by
  simp [entriesFor, h]

theorem entriesFor_self {f : Nat} {ft : FiberAndThread} (h : ft.task = .fiber f) :
    entriesFor f [ft] = [ft.thread] := by
  simp [entriesFor, h]

section Claims

variable {wk : Worker} {st : FiberState} {f : Nat}

theorem Worker.Holds.has (h : wk.Holds f) : wk.Has f := Or.inr (Or.inl h)

theorem Worker.PutsBack.has (h : wk.PutsBack st f) : wk.Has f := by
  obtain ⟨pc, cbFiber, idleFiber⟩ := wk
  cases pc <;> simp_all [Worker.PutsBack, Worker.Has, Worker.Holds, Pc.inHand]

theorem Worker.Keeps.has (h : wk.Keeps f) : wk.Has f := by
  rcases h with hidle | ⟨hcb, hrole⟩
  · exact Holds.has (Or.inr (Or.inr hidle))
  · refine Holds.has (Or.inr (Or.inl ⟨hcb, fun hpc => hrole ?_⟩))
    rw [hpc]
    rfl

theorem Worker.Claims.has (h : wk.Claims st f) : wk.Has f := by
  rcases h with htest | hkeeps | ⟨hhand, -⟩
  · exact Or.inl htest
  · exact hkeeps.has
  · exact Holds.has (Or.inl hhand)

theorem Pc.inHand_of_runsAs {pc : Pc} {g : Nat} {role : Role} (hruns : pc.runsAs = some (f, role))
    (hhand : pc.inHand = some g) : g = f := by
  cases pc <;> cases hruns <;> cases hhand
  all_goals rfl

theorem Pc.runsAs_ne {pc : Pc} {p : Nat × Role} (h : pc.runsAs = none) : pc.runsAs ≠ some p :=
  h ▸ (Option.some_ne_none p).symm

/-- What does not execute is claimed, or put back, by the worker that has it. -/
theorem Worker.Has.claims (h : wk.Has f) (hstate : st ≠ .exec) :
    wk.Claims st f ∨ wk.PutsBack st f := by
  rcases h with htest | (hhand | ⟨hcb, hpc⟩ | hidle) | ⟨role, hpc⟩
  · exact Or.inl (Or.inl htest)
  · exact Or.inl (Or.inr (Or.inr ⟨hhand, hstate⟩))
  · obtain ⟨pc, cbFiber, idleFiber⟩ := wk
    by_cases hrole : pc.runsAs = some (f, .cb)
    · left
      right
      right
      cases pc <;> simp_all [Pc.runsAs, Pc.inHand]
    · exact Or.inl (Or.inr (Or.inl (Or.inr ⟨hcb, hrole⟩)))
  · exact Or.inl (Or.inr (Or.inl (Or.inl hidle)))
  · right
    rw [PutsBack, hpc]

/-- Besides the fiber that a worker runs it has those that it keeps. -/
theorem Worker.Has.keeps {g : Nat} {role : Role} (h : wk.Has g)
    (hruns : wk.pc.runsAs = some (f, role)) (hne : g ≠ f) : wk.Keeps g := by
  have hcb : wk.pc.runsAs ≠ some (g, .cb) := by
    rw [hruns]
    exact fun heq => hne (Prod.mk.inj (Option.some.inj heq)).1.symm
  rcases h with htest | (hhand | ⟨hcbFiber, -⟩ | hidle) | ⟨role', hpc⟩
  · rw [htest] at hruns
    cases hruns
  · exact absurd (Pc.inHand_of_runsAs hruns hhand) hne
  · exact Or.inr ⟨hcbFiber, hcb⟩
  · exact Or.inl hidle
  · rw [hpc] at hruns
    cases hruns
    exact absurd rfl hne

/-- A worker has the fiber that it runs. -/
theorem Worker.has_of_runsAs {role : Role} (hruns : wk.pc.runsAs = some (f, role)) : wk.Has f := by
  obtain ⟨pc, cbFiber, idleFiber⟩ := wk
  cases pc <;> cases hruns
  case requeue => exact Or.inr (Or.inr ⟨role, rfl⟩)
  all_goals exact Or.inr (Or.inl (Or.inl rfl))

/-- A worker puts back the fiber that it runs. -/
theorem Worker.PutsBack.eq_of_runsAs {g : Nat} {role : Role} (h : wk.PutsBack st g)
    (hruns : wk.pc.runsAs = some (f, role)) : g = f := by
  obtain ⟨pc, cbFiber, idleFiber⟩ := wk
  cases pc <;> cases hruns
  case switchOut | readyTest => exact h.1.symm
  case requeue => exact h.symm
  all_goals exact h.elim

/-- The statement that a worker is at says nothing of fibers that it does not hold. -/
theorem Worker.Proper.congr {fibers fibers' : Nat → Fiber} (h : wk.Proper fibers)
    (heq : ∀ f, wk.Holds f → fibers' f = fibers f) : wk.Proper fibers' := by
  obtain ⟨pc, cbFiber, idleFiber⟩ := wk
  cases pc with
  | assertIn g role | setExec g role | switchIn g role | running g role | setHold g role
  | resetContext g role | resetInit g role =>
      have hg := heq g (Or.inl rfl)
      simp only [Worker.Proper] at h ⊢
      rw [hg]
      exact h
  | scan | test | idleTest | switchOut | readyTest | requeue | endTest | resetAssert | exited => exact h

end Claims

section Move

variable {s t : State} {w : Nat} {wk : Worker} {act : Action} {garbage : FiberState}

/-- Another fiber than the one that the worker goes on with. -/
theorem turn_of_ne {wk' : Worker} {f g : Nat} {role : Role} (hne : g ≠ f)
    (hruns : wk.pc.runsAs = some (f, role)) (hruns' : wk'.pc.runsAs = some (f, role))
    (hcb : wk'.cbFiber = wk.cbFiber) (hidle : wk'.idleFiber = wk.idleFiber)
    (hqueue : t.queue = s.queue) : Turn s t w wk wk' act g := by
  have hhas : wk'.Has g → wk.Keeps g := by
    intro hhas
    have hkeeps := hhas.keeps hruns' hne
    rwa [Worker.Keeps, hidle, hcb, hruns', ← hruns] at hkeeps
  exact .stays (by rw [hqueue]) (fun h => (hhas h).has) (fun h => Or.inr (Or.inl (hhas h.has)))
    fun h => absurd (h.eq_of_runsAs hruns') hne

/-- The worker goes on with the fiber that it runs. -/
theorem turn_of_goesOn {wk' : Worker} {f g : Nat} {role : Role}
    (hruns : wk.pc.runsAs = some (f, role)) (hruns' : wk'.pc.runsAs = some (f, role))
    (hcb : wk'.cbFiber = wk.cbFiber) (hidle : wk'.idleFiber = wk.idleFiber)
    (hqueue : t.queue = s.queue)
    (hhand : wk'.pc.inHand = some f → (t.fibers f).state ≠ .exec →
      wk.pc.inHand = some f ∧ (s.fibers f).state ≠ .exec)
    (hback : wk'.PutsBack (t.fibers f).state f → wk.PutsBack (s.fibers f).state f) :
    Turn s t w wk wk' act g := by
  by_cases hg : g = f
  · subst hg
    have hkeeps : wk'.Keeps g ↔ wk.Keeps g := by
      rw [Worker.Keeps, Worker.Keeps, hidle, hcb, hruns, hruns']
    refine .stays (by rw [hqueue]) (fun _ => Worker.has_of_runsAs hruns) (fun hclaims => ?_)
      fun hback' => ⟨hback hback', hkeeps.mp⟩
    rcases hclaims with htest | hkeep | ⟨hin, hstate⟩
    · rw [htest] at hruns'
      cases hruns'
    · exact Or.inr (Or.inl (hkeeps.mp hkeep))
    · exact Or.inr (Or.inr (hhand hin hstate))
  · exact turn_of_ne hg hruns hruns' hcb hidle hqueue

/-- The worker is in no fiber's turn behind its step, and keeps what it kept. -/
theorem turn_of_letsGo {wk' : Worker} {g : Nat}
    (hpc : wk'.pc = .scan ∨ wk'.pc = .idleTest ∨ wk'.pc = .exited)
    (hcb : wk'.cbFiber = some g → wk.cbFiber = some g ∧ wk.pc.runsAs ≠ some (g, .cb))
    (hidle : wk'.idleFiber = wk.idleFiber)
    (hqueue : entriesFor g t.queue = entriesFor g s.queue) : Turn s t w wk wk' act g := by
  have hhas : wk'.Has g → wk.Keeps g := by
    rintro (htest | (hhand | ⟨hcbFiber, -⟩ | hidle') | ⟨role, hrequeue⟩)
    · rcases hpc with hpc | hpc | hpc <;> cases hpc.symm.trans htest
    · rcases hpc with hpc | hpc | hpc <;> (rw [hpc] at hhand; cases hhand)
    · exact Or.inr (hcb hcbFiber)
    · exact Or.inl (hidle ▸ hidle')
    · rcases hpc with hpc | hpc | hpc <;> cases hpc.symm.trans hrequeue
  refine .stays hqueue (fun h => (hhas h).has) (fun h => Or.inr (Or.inl (hhas h.has))) fun h => ?_
  rcases hpc with hpc | hpc | hpc <;> (rw [Worker.PutsBack, hpc] at h; exact h.elim)

/-- A fiber that the worker keeps, or that is not its own, when it takes up another one. -/
theorem turn_of_other {wk' : Worker} {f g : Nat} (hne : g ≠ f) (hhand : wk'.pc.inHand = some f)
    (hback : ∀ st, ¬ wk'.PutsBack st g)
    (hcb : wk'.cbFiber = some g → wk.cbFiber = some g ∧ wk.pc.runsAs ≠ some (g, .cb))
    (hidle : wk'.idleFiber = wk.idleFiber)
    (hqueue : t.queue = s.queue) : Turn s t w wk wk' act g := by
  have hhas : wk'.Has g → wk.Keeps g := by
    rintro (htest | (hhand' | ⟨hcbFiber, -⟩ | hidle') | ⟨role, hrequeue⟩)
    · rw [htest] at hhand
      cases hhand
    · exact absurd (Option.some.inj (hhand'.symm.trans hhand)) hne
    · exact Or.inr (hcb hcbFiber)
    · exact Or.inl (hidle ▸ hidle')
    · rw [hrequeue] at hhand
      cases hhand
  exact .stays (by rw [hqueue]) (fun h => (hhas h).has) (fun h => Or.inr (Or.inl (hhas h.has)))
    fun h => absurd h (hback _)

/-- The worker takes up a fiber that it has claimed. -/
theorem turn_of_takesUp {wk' : Worker} {f g : Nat} (hhand : wk'.pc.inHand = some f)
    (hback : ∀ st g, ¬ wk'.PutsBack st g) (hclaims : wk.Claims (s.fibers f).state f)
    (hruns : wk.pc.runsAs = none ∨ wk.pc.runsAs = some (f, .cb))
    (hcb : wk'.cbFiber = wk.cbFiber) (hidle : wk'.idleFiber = wk.idleFiber)
    (hqueue : t.queue = s.queue) : Turn s t w wk wk' act g := by
  by_cases hg : g = f
  · subst hg
    exact .stays (by rw [hqueue]) (fun _ => hclaims.has) (fun _ => hclaims)
      fun h => absurd h (hback _ _)
  · refine turn_of_other hg hhand (hback · g) (fun hcbFiber => ⟨hcb ▸ hcbFiber, fun heq => ?_⟩) hidle
      hqueue
    rcases hruns with hruns | hruns
    · cases hruns.symm.trans heq
    · cases hruns.symm.trans heq
      exact hg rfl

/-- A worker that runs nothing claims its `cb_fiber`. -/
theorem claims_of_cbFiber {f : Nat} {st : FiberState} (hcb : wk.cbFiber = some f)
    (hruns : wk.pc.runsAs = none) : wk.Claims st f :=
  Or.inr (Or.inl (Or.inr ⟨hcb, Pc.runsAs_ne hruns⟩))

/-- A worker that is done with its `cb_fiber` drops it. -/
theorem cbFiber_of_drop {cbFiber : Option Nat} {f g : Nat} {role : Role}
    (h : (if role = .cb then none else cbFiber) = some g) :
    cbFiber = some g ∧ some (f, role) ≠ some (g, .cb) := by
  split at h <;> rename_i hrole
  · cases h
  · exact ⟨h, fun heq => hrole (Prod.mk.inj (Option.some.inj heq)).2⟩

theorem ne_exec_of_ended {st : FiberState} (h : st.Ended) : st ≠ .exec := by
  rintro rfl
  exact absurd h (by decide)

/-- A move is one of the turns for each fiber. -/
theorem turn_of_move (hproper : wk.Proper s.fibers) (h : s.move w wk act garbage = some t) :
    t = { s with halted := true } ∨ ∃ wk', t.workers = s.workers.set w wk' ∧
      wk'.Proper t.fibers ∧ wk'.Descends s.count wk ∧ ∀ f, Turn s t w wk wk' act f := by
  obtain ⟨pc, cbFiber, idleFiber⟩ := wk
  unfold State.move at h
  cases pc with
  | scan =>
      dsimp only at h
      split at h
      · rename_i task rest htake
        cases h
        obtain ⟨before, ft, behind, hqueue, hrest, rfl, hthread, hstate⟩ := takeFirst_eq htake
        refine Or.inr ⟨_, rfl, trivial, Worker.descends_goto rfl (Or.inl rfl), fun f => ?_⟩
        have hsplit : entriesFor f s.queue =
            entriesFor f before ++ (entriesFor f [ft] ++ entriesFor f behind) := by
          rw [hqueue, ← List.singleton_append, entriesFor_append, entriesFor_append]
        have hrest' : entriesFor f rest = entriesFor f before ++ entriesFor f behind := by
          rw [hrest, entriesFor_append]
        by_cases hf : ft.task = .fiber f
        · rw [entriesFor_self hf] at hsplit
          exact .takes _ _ ft.thread hsplit hrest' hthread (hstate f hf) rfl (by simp [hf])
        · rw [entriesFor_of_ne hf] at hsplit
          refine .stays (hrest'.trans hsplit.symm) ?_ ?_ ?_
          all_goals simp [Worker.Has, Worker.Holds, Worker.Claims, Worker.Keeps, Worker.PutsBack,
            Pc.inHand, Pc.runsAs, hf, State.setWorker]
      · cases h
        exact Or.inr ⟨_, rfl, trivial, Worker.descends_goto rfl (Or.inl rfl), fun f =>
          turn_of_letsGo (Or.inr (Or.inl rfl)) (fun hcb => ⟨hcb, Pc.runsAs_ne rfl⟩) rfl rfl⟩
  | test task =>
      cases task with
      | fiber f =>
          dsimp only at h
          split at h
          · cases h
            exact Or.inr ⟨_, rfl, trivial, Worker.descends_goto rfl (Or.inl rfl), fun g =>
              turn_of_letsGo (Or.inl rfl) (fun hcb => ⟨hcb, Pc.runsAs_ne rfl⟩) rfl rfl⟩
          · rename_i halive
            cases h
            exact Or.inr ⟨_, rfl, ⟨trivial, fun _ => halive⟩, Worker.descends_goto rfl (Or.inl rfl),
              fun g => turn_of_takesUp rfl (fun _ _ h => h) (Or.inl rfl) (Or.inl rfl) rfl rfl rfl⟩
      | cb id =>
          dsimp only at h
          split at h
          · rename_i f
            cases h
            exact Or.inr ⟨_, rfl, rfl, Worker.descends_goto rfl (Or.inl rfl), fun g =>
              turn_of_takesUp rfl (fun _ _ h => h) (claims_of_cbFiber rfl rfl) (Or.inl rfl) rfl rfl
                rfl⟩
          · cases h
            refine Or.inr ⟨_, rfl, ⟨rfl, fun heq => by cases heq⟩, ⟨rfl, fun g hg heq => ?_⟩, fun g => ?_⟩
            · cases heq
              exact absurd hg (Nat.lt_irrefl _)
            by_cases hg : g = s.count
            · subst hg
              exact .new (Nat.le_refl _) rfl fun h => h
            · refine turn_of_other hg rfl (fun _ h => h) (fun hcb => ?_) rfl rfl
              exact absurd (Option.some.inj hcb).symm hg
  | idleTest =>
      dsimp only at h
      split at h <;> cases h
      · exact Or.inr ⟨_, rfl, trivial, Worker.descends_goto rfl (Or.inl rfl), fun g =>
          turn_of_letsGo (Or.inr (Or.inr rfl)) (fun hcb => ⟨hcb, Pc.runsAs_ne rfl⟩) rfl rfl⟩
      · exact Or.inr ⟨_, rfl, ⟨rfl, fun heq => by cases heq⟩,
          Worker.descends_goto rfl (Or.inl rfl), fun g => turn_of_takesUp rfl (fun _ _ h => h)
            (Or.inr (Or.inl (Or.inl rfl))) (Or.inl rfl) rfl rfl rfl⟩
  | assertIn f role =>
      dsimp only at h
      split at h <;> cases h
      · exact Or.inl rfl
      · exact Or.inr ⟨_, rfl, hproper, Worker.descends_goto rfl (Or.inl rfl), fun g =>
          turn_of_goesOn rfl rfl rfl rfl rfl (fun _ hstate => ⟨rfl, hstate⟩) False.elim⟩
  | setExec f role =>
      cases h
      have hstate : ((s.setState f .exec).fibers f).state = .exec := by simp [State.setState]
      exact Or.inr ⟨_, rfl, ⟨hproper.1, hstate⟩, Worker.descends_goto rfl (Or.inl rfl), fun g =>
        turn_of_goesOn rfl rfl rfl rfl rfl (fun _ hne => absurd hstate hne) False.elim⟩
  | switchIn f role =>
      cases h
      have hstate : ((s.setSaved f false).fibers f).state = .exec := by
        simpa [State.setSaved] using hproper.2
      exact Or.inr ⟨_, rfl, ⟨hproper.1, hstate⟩, Worker.descends_goto rfl (Or.inl rfl), fun g =>
        turn_of_goesOn rfl rfl rfl rfl rfl (fun _ hne => absurd hstate hne) False.elim⟩
  | running f role =>
      dsimp only at h
      split at h
      · rename_i st hassigns
        cases h
        have hstate : ((s.setState f st).fibers f).state = st := by simp [State.setState]
        refine Or.inr ⟨_, rfl, hproper.1, Worker.descends_goto rfl (Or.inl rfl), fun g => ?_⟩
        by_cases hg : g = f
        · subst hg
          exact .assigns role st rfl hassigns rfl hstate rfl rfl rfl
        · exact turn_of_ne hg rfl rfl rfl rfl rfl
      · cases h
        refine Or.inr ⟨_, rfl, hproper.1, Worker.descends_goto rfl (Or.inl rfl), fun g =>
          turn_of_goesOn rfl rfl rfl rfl rfl (fun _ hstate => ⟨rfl, hstate⟩) fun hback => ?_⟩
        cases hback.2.2.symm.trans hproper.2
  | switchOut f role =>
      have hstate : ((s.setSaved f true).fibers f).state = (s.fibers f).state := by
        simp [State.setSaved]
      dsimp only at h
      split at h <;> rename_i hrole <;> cases h
      · exact Or.inr ⟨_, rfl, hproper, Worker.descends_goto rfl (Or.inl rfl), fun g =>
          turn_of_goesOn rfl rfl rfl rfl rfl (fun _ hne => ⟨rfl, hstate ▸ hne⟩) False.elim⟩
      · exact Or.inr ⟨_, rfl, ⟨hproper, hrole⟩, Worker.descends_goto rfl (Or.inl rfl), fun g =>
          turn_of_goesOn rfl rfl rfl rfl rfl (fun _ hne => ⟨rfl, hstate ▸ hne⟩) fun hback =>
            ⟨rfl, hrole, hstate.symm.trans hback.2.2⟩⟩
  | readyTest f role =>
      dsimp only at h
      split at h <;> rename_i hready <;> cases h
      · exact Or.inr ⟨_, rfl, hproper, Worker.descends_goto rfl (Or.inl rfl), fun g =>
          turn_of_goesOn rfl rfl rfl rfl rfl (fun hhand => by cases hhand)
            fun _ => ⟨rfl, hproper.2, hready⟩⟩
      · exact Or.inr ⟨_, rfl, hproper.1, Worker.descends_goto rfl (Or.inl rfl), fun g =>
          turn_of_goesOn rfl rfl rfl rfl rfl (fun _ hstate => ⟨rfl, hstate⟩) False.elim⟩
  | requeue f role =>
      cases h
      refine Or.inr ⟨_, rfl, trivial, Worker.descends_goto rfl (by cases role <;> simp), fun g => ?_⟩
      have hentries : entriesFor g (s.queue ++ [⟨.fiber f, none⟩]) =
          entriesFor g s.queue ++ entriesFor g [⟨.fiber f, none⟩] := entriesFor_append ..
      by_cases hg : g = f
      · subst hg
        rw [entriesFor_self rfl] at hentries
        refine .putsBack role rfl hentries rfl rfl fun hholds => ?_
        rcases hholds with hhand | ⟨hcb, -⟩ | hidle
        · cases hhand
        · exact Or.inr (cbFiber_of_drop hcb)
        · exact Or.inl hidle
      · rw [entriesFor_of_ne (by simp [Ne.symm hg]), List.append_nil] at hentries
        exact turn_of_letsGo (Or.inl rfl) cbFiber_of_drop rfl hentries
  | endTest f role =>
      dsimp only at h
      split at h <;> rename_i hend
      · split at h <;> rename_i hrole <;> cases h
        · subst hrole
          exact Or.inr ⟨_, rfl, hproper, Worker.descends_goto rfl (Or.inl rfl), fun g =>
            turn_of_takesUp rfl (fun _ _ h => h) (Or.inr (Or.inr ⟨rfl, ne_exec_of_ended hend⟩))
              (Or.inr rfl) rfl rfl rfl⟩
        · exact Or.inr ⟨_, rfl, trivial, Worker.descends_goto rfl (Or.inl rfl), fun g =>
            turn_of_letsGo (Or.inl rfl) (fun hcb => ⟨hcb, fun heq => hrole
              (Prod.mk.inj (Option.some.inj heq)).2⟩) rfl rfl⟩
      · cases h
        exact Or.inr ⟨_, rfl, ⟨hproper, hend⟩, Worker.descends_goto rfl (Or.inl rfl), fun g =>
          turn_of_goesOn rfl rfl rfl rfl rfl (fun _ hstate => ⟨rfl, hstate⟩) False.elim⟩
  | setHold f role =>
      cases h
      exact Or.inr ⟨_, rfl, trivial, Worker.descends_goto rfl (by cases role <;> simp), fun g =>
        turn_of_letsGo (Or.inl rfl) cbFiber_of_drop rfl rfl⟩
  | resetAssert f again =>
      dsimp only at h
      split at h
      · rename_i hstate
        cases h
        have hexec : (s.fibers f).state ≠ .exec := by
          rcases hstate with hend | hinit
          · exact ne_exec_of_ended hend
          · rw [hinit]
            decide
        exact Or.inr ⟨_, rfl, ⟨hproper, hexec⟩, Worker.descends_goto rfl (Or.inl rfl), fun g =>
          turn_of_takesUp rfl (fun _ _ h => h) (claims_of_cbFiber hproper rfl) (Or.inl rfl) rfl rfl
            rfl⟩
      · cases h
        exact Or.inl rfl
  | resetContext f again =>
      cases h
      have hstate : ((s.setSaved f true).fibers f).state = (s.fibers f).state := by
        simp [State.setSaved]
      exact Or.inr ⟨_, rfl, ⟨hproper.1, hstate ▸ hproper.2⟩, Worker.descends_goto rfl (Or.inl rfl),
        fun g => turn_of_takesUp rfl (fun _ _ h => h) (claims_of_cbFiber hproper.1 rfl) (Or.inl rfl)
          rfl rfl rfl⟩
  | resetInit f again =>
      dsimp only at h
      split at h <;> cases h
      · exact Or.inr ⟨_, rfl, ⟨hproper.1, fun heq => by cases heq⟩,
          Worker.descends_goto rfl (Or.inl rfl), fun g => turn_of_takesUp rfl (fun _ _ h => h)
            (claims_of_cbFiber hproper.1 rfl) (Or.inl rfl) rfl rfl rfl⟩
      · exact Or.inr ⟨_, rfl, trivial, Worker.descends_goto rfl (Or.inl rfl), fun g =>
          turn_of_letsGo (Or.inl rfl) (fun hcb => ⟨hcb, Pc.runsAs_ne rfl⟩) rfl rfl⟩
  | exited => cases h

/-- A fiber that has ended stays so, but for a `cb_fiber` or an `idle_fiber`. -/
theorem ended_of_move {f : Nat} (hproper : wk.Proper s.fibers) (h : s.move w wk act garbage = some t)
    (hlt : f < s.count) (hended : (s.fibers f).state.Ended) (hidle : wk.idleFiber ≠ f)
    (hcb : wk.cbFiber ≠ some f) : (t.fibers f).state.Ended := by
  obtain ⟨pc, cbFiber, idleFiber⟩ := wk
  have hexec : (s.fibers f).state ≠ .exec := by
    rintro heq
    rw [heq] at hended
    exact absurd hended (by decide)
  unfold State.move at h
  cases pc with
  | setExec g role =>
      cases h
      have hne : f ≠ g := by
        rintro rfl
        cases role with
        | taken => exact hproper.2 rfl hended
        | cb => exact hcb hproper.1
        | idle => exact hidle hproper.1
      simpa [State.setWorker, State.setState, Function.update_of_ne hne] using hended
  | running g role =>
      have hne : f ≠ g := by
        rintro rfl
        exact hexec hproper.2
      dsimp only at h
      split at h <;> cases h
      · simpa [State.setWorker, State.setState, Function.update_of_ne hne] using hended
      · exact hended
  | setHold g role =>
      cases h
      have hne : f ≠ g := by
        rintro rfl
        exact hproper.2 hended
      simpa [State.setWorker, State.setState, Function.update_of_ne hne] using hended
  | resetInit g again =>
      cases h
      have hne : f ≠ g := by
        rintro rfl
        exact hcb hproper.1
      simpa [State.setWorker, State.setState, Function.update_of_ne hne] using hended
  | switchIn g role | switchOut g role | resetContext g again =>
      cases h
      by_cases hfg : f = g
      · subst hfg
        simpa [State.setWorker, State.setSaved] using hended
      · simpa [State.setWorker, State.setSaved, Function.update_of_ne hfg] using hended
  | test task =>
      cases task with
      | fiber g =>
          cases h
          exact hended
      | cb id =>
          dsimp only at h
          split at h <;> cases h
          · exact hended
          · simpa [State.setWorker, State.create, Function.update_of_ne (Nat.ne_of_lt hlt)] using hended
  | scan | assertIn g role | endTest g role | resetAssert g role =>
      dsimp only at h
      split at h <;> cases h <;> exact hended
  | idleTest | readyTest g role | requeue g role =>
      cases h
      exact hended
  | exited => cases h

end Move

section Step

variable {s t : State} {l : Label} {f : Nat}

/-- A fiber that is in no entry, and that no worker has. -/
theorem sole_of_unused (hqueue : entriesFor f s.queue = [])
    (hhas : ∀ (w : Nat) (wk : Worker), s.workers[w]? = some wk → ¬ wk.Has f) : Sole s f where
  entries := by rw [hqueue]; exact List.Pairwise.nil
  claims := by rw [hqueue]; exact fun th hth => absurd hth List.not_mem_nil
  back w wk hwk hback := absurd hback.has (hhas w wk hwk)
  unique w w' wk wk' hwk hwk' hhas' := absurd hhas' (hhas w wk hwk)

theorem Owned.has_lt (h : Owned s) {w : Nat} {wk : Worker} (hwk : s.workers[w]? = some wk)
    (hhas : wk.Has f) : f < s.count := by
  rcases hhas with htest | hholds | hrequeue
  · exact h.test_lt w wk f hwk (Or.inl htest)
  · exact h.holds_lt w wk f hwk hholds
  · exact h.test_lt w wk f hwk (Or.inr hrequeue)

theorem Owned.entriesFor_eq_nil (h : Owned s) (hf : s.count ≤ f) : entriesFor f s.queue = [] := by
  refine List.filterMap_eq_nil_iff.mpr fun ft hft => ?_
  rw [if_neg]
  exact fun htask => Nat.not_lt.mpr hf (h.queue_lt ft hft f htask)

theorem Owned.sole_of_le (h : Owned s) (hf : s.count ≤ f) : Sole s f :=
  sole_of_unused (h.entriesFor_eq_nil hf) fun _ _ hwk hhas => Nat.not_lt.mpr hf (h.has_lt hwk hhas)

theorem Sole.of_eq (h : Sole s f) (hworkers : t.workers = s.workers)
    (hqueue : entriesFor f t.queue = entriesFor f s.queue)
    (hstate : (t.fibers f).state = (s.fibers f).state) : Sole t f where
  entries := by rw [hqueue]; exact h.entries
  claims := by rw [hqueue, hworkers, hstate]; exact h.claims
  back := by rw [hqueue, hworkers, hstate]; exact h.back
  unique := by rw [hworkers]; exact h.unique

/-- `schedule` by the condition. -/
theorem Sole.schedule (h : Sole s f) {thread : Option Nat} (halone : EntersAlone s f thread)
    (hworkers : t.workers = s.workers) (hqueue : entriesFor f t.queue = entriesFor f s.queue ++ [thread])
    (hstate : (t.fibers f).state = (s.fibers f).state) : Sole t f := by
  obtain ⟨hentries, hclaims⟩ := halone
  have hclaims' : ∀ (w : Nat) (wk : Worker), s.workers[w]? = some wk →
      ¬ wk.PutsBack (s.fibers f).state f ∧ (wk.Claims (s.fibers f).state f → thread = some w) := by
    intro w wk hwk
    obtain ⟨hlt, -⟩ := List.getElem?_eq_some_iff.mp hwk
    exact hclaims w hlt wk hwk
  refine ⟨?_, ?_, ?_, by rw [hworkers]; exact h.unique⟩
  · rw [hqueue, List.pairwise_append]
    refine ⟨h.entries, List.pairwise_singleton .., fun th hth th' hth' => ?_⟩
    rw [List.mem_singleton] at hth'
    obtain ⟨hne, heq⟩ := hentries th hth
    exact ⟨heq ▸ hne, heq.trans hth'.symm⟩
  · rw [hqueue, hworkers, hstate]
    intro th hth w wk hwk hclaim
    rcases List.mem_append.mp hth with hth | hth
    · exact h.claims th hth w wk hwk hclaim
    · rw [List.mem_singleton.mp hth]
      exact (hclaims' w wk hwk).2 hclaim
  · rw [hworkers, hstate]
    intro w wk hwk hback
    exact absurd hback (hclaims' w wk hwk).1

section Turn

variable {w : Nat} {wk wk' : Worker} {act : Action}

/-- A worker does not write to what another one has. -/
theorem Sole.fibers_eq (h : Sole s f) (howned : Owned s) (hwk : s.workers[w]? = some wk)
    (hhand : Handover s t w wk wk') {w₁ : Nat} {wk₁ : Worker} (hne : w₁ ≠ w)
    (hwk₁ : s.workers[w₁]? = some wk₁) (hhas : wk₁.Has f) : t.fibers f = s.fibers f :=
  hhand.fibers f (howned.has_lt hwk₁ hhas) fun hholds =>
    hne (h.unique w₁ w wk₁ wk hwk₁ hwk hhas hholds.has)

/-- What holds of worker `w` behind its step, and held of the others. -/
theorem forall_workers (hwk : s.workers[w]? = some wk) (hworkers : t.workers = s.workers.set w wk')
    {P : Nat → Worker → Prop} (hw : P w wk')
    (hothers : ∀ (w₁ : Nat) (wk₁ : Worker), w₁ ≠ w → s.workers[w₁]? = some wk₁ → P w₁ wk₁) :
    ∀ (w₁ : Nat) (wk₁ : Worker), t.workers[w₁]? = some wk₁ → P w₁ wk₁ := by
  intro w₁ wk₁ hwk₁
  rw [hworkers, getElem?_set_of_some hwk] at hwk₁
  split at hwk₁ <;> rename_i hw₁
  · cases hwk₁
    exact hw₁ ▸ hw
  · exact hothers w₁ wk₁ hw₁ hwk₁

/-- Nobody else has what `w` has behind its step. -/
theorem Sole.unique_set (h : Sole s f) (hwk : s.workers[w]? = some wk)
    (hworkers : t.workers = s.workers.set w wk')
    (halone : wk'.Has f → ∀ (w₁ : Nat) (wk₁ : Worker), w₁ ≠ w → s.workers[w₁]? = some wk₁ →
      ¬ wk₁.Has f) :
    ∀ (w₁ w₂ : Nat) (wk₁ wk₂ : Worker), t.workers[w₁]? = some wk₁ → t.workers[w₂]? = some wk₂ →
      wk₁.Has f → wk₂.Has f → w₁ = w₂ := by
  intro w₁ w₂ wk₁ wk₂ hwk₁ hwk₂ hhas₁ hhas₂
  rw [hworkers, getElem?_set_of_some hwk] at hwk₁ hwk₂
  split at hwk₁ <;> split at hwk₂ <;> rename_i h₁ h₂
  · rw [h₁, h₂]
  · cases hwk₁
    exact absurd hhas₂ (halone hhas₁ w₂ wk₂ h₂ hwk₂)
  · cases hwk₂
    exact absurd hhas₁ (halone hhas₂ w₁ wk₁ h₁ hwk₁)
  · exact h.unique w₁ w₂ wk₁ wk₂ hwk₁ hwk₂ hhas₁ hhas₂

/-- A turn of worker `w`, within the condition on what a running fiber assigns, leaves `f` to one
worker. -/
theorem Sole.turn (h : Sole s f) (howned : Owned s) (hwk : s.workers[w]? = some wk)
    (hhand : Handover s t w wk wk') (hturn : Turn s t w wk wk' act f)
    (hl : ∀ role st, wk.pc = .running f role → act.assigns = some st →
      AssignsAlone s w wk f role st) : Sole t f := by
  have hothers : wk.Has f → ∀ (w₁ : Nat) (wk₁ : Worker), w₁ ≠ w → s.workers[w₁]? = some wk₁ →
      ¬ wk₁.Has f := fun hhas w₁ wk₁ hne hwk₁ hhas₁ => hne (h.unique w₁ w wk₁ wk hwk₁ hwk hhas₁ hhas)
  have hfibers : ∀ {w₁ : Nat} {wk₁ : Worker}, w₁ ≠ w → s.workers[w₁]? = some wk₁ → wk₁.Has f →
      t.fibers f = s.fibers f := fun hne hwk₁ => h.fibers_eq howned hwk hhand hne hwk₁
  cases hturn with
  | stays queue has claims back =>
      refine ⟨by rw [queue]; exact h.entries, ?_, ?_,
        h.unique_set hwk hhand.workers fun hhas => hothers (has hhas)⟩
      · rw [queue]
        intro th hth
        refine forall_workers hwk hhand.workers (fun hclaim => h.claims th hth w wk hwk (claims hclaim))
          fun w₁ wk₁ hne hwk₁ hclaim => ?_
        rw [hfibers hne hwk₁ hclaim.has] at hclaim
        exact h.claims th hth w₁ wk₁ hwk₁ hclaim
      · rw [queue]
        refine forall_workers hwk hhand.workers (fun hback => ?_) fun w₁ wk₁ hne hwk₁ hback => ?_
        · obtain ⟨hback', hkeeps⟩ := back hback
          obtain ⟨hnil, hnot⟩ := h.back w wk hwk hback'
          exact ⟨hnil, fun hk => hnot (hkeeps hk)⟩
        · rw [hfibers hne hwk₁ hback.has] at hback
          exact h.back w₁ wk₁ hwk₁ hback
  | takes before behind th queue rest thread state fibers pc =>
      have hth : th ∈ entriesFor f s.queue := by
        rw [queue]
        exact List.mem_append_right _ List.mem_cons_self
      have hentries := h.entries
      rw [queue] at hentries
      -- the entries behind the one that is taken are for the same thread, which is that of `w`
      have hleft : ∀ th' ∈ before ++ behind, th' = some w := by
        intro th' hth'
        have hsame : th ≠ none ∧ th' = th := by
          rcases List.mem_append.mp hth' with hmem | hmem
          · obtain ⟨hne, heq⟩ := (List.pairwise_append.mp hentries).2.2 th' hmem th List.mem_cons_self
            exact ⟨heq ▸ hne, heq⟩
          · obtain ⟨hne, heq⟩ := List.rel_of_pairwise_cons (List.pairwise_append.mp hentries).2.1 hmem
            exact ⟨hne, heq.symm⟩
        rw [hsame.2]
        exact thread.resolve_left hsame.1
      have hnobody : ∀ (w₁ : Nat) (wk₁ : Worker), w₁ ≠ w → s.workers[w₁]? = some wk₁ →
          ¬ wk₁.Has f := by
        intro w₁ wk₁ hne hwk₁ hhas
        rcases hhas.claims state with hclaim | hback
        · have hmine := h.claims th hth w₁ wk₁ hwk₁ hclaim
          rcases thread with hnone | hsome
          · exact absurd (hnone.symm.trans hmine) (by simp)
          · exact hne (Option.some.inj (hmine.symm.trans hsome))
        · rw [(h.back w₁ wk₁ hwk₁ hback).1] at hth
          cases hth
      refine ⟨?_, ?_, ?_, h.unique_set hwk hhand.workers fun _ => hnobody⟩
      · rw [rest]
        exact hentries.sublist (List.Sublist.append_left (List.sublist_cons_self ..) before)
      · rw [rest]
        intro th' hth'
        exact forall_workers hwk hhand.workers (fun _ => hleft th' hth') fun w₁ wk₁ hne hwk₁ hclaim =>
          absurd hclaim.has (hnobody w₁ wk₁ hne hwk₁)
      · refine forall_workers hwk hhand.workers (fun hback => ?_) fun w₁ wk₁ hne hwk₁ hback =>
          absurd hback.has (hnobody w₁ wk₁ hne hwk₁)
        rw [Worker.PutsBack, pc] at hback
        exact hback.elim
  | putsBack role pc queue fibers pc' keeps =>
      have hback : wk.PutsBack (s.fibers f).state f := by rw [Worker.PutsBack, pc]
      obtain ⟨hnil, hnot⟩ := h.back w wk hwk hback
      have hnobody := hothers hback.has
      have hhas : ¬ wk'.Has f := by
        rintro (htest | hholds | ⟨role', hpc⟩)
        · cases pc'.symm.trans htest
        · exact hnot (keeps hholds)
        · cases pc'.symm.trans hpc
      refine ⟨?_, ?_, ?_, h.unique_set hwk hhand.workers fun _ => hnobody⟩
      · rw [queue, hnil]
        exact List.pairwise_singleton ..
      · intro th _
        exact forall_workers hwk hhand.workers (fun hclaim => absurd hclaim.has hhas)
          fun w₁ wk₁ hne hwk₁ hclaim => absurd hclaim.has (hnobody w₁ wk₁ hne hwk₁)
      · exact forall_workers hwk hhand.workers (fun hback => absurd hback.has hhas)
          fun w₁ wk₁ hne hwk₁ hback => absurd hback.has (hnobody w₁ wk₁ hne hwk₁)
  | assigns role st pc assigned queue state pc' cb idle =>
      obtain ⟨hentries, hready⟩ := hl role st pc assigned
      have hnobody := hothers (Worker.Holds.has (Or.inl (by rw [pc]; rfl)))
      refine ⟨by rw [queue]; exact h.entries, ?_, ?_, h.unique_set hwk hhand.workers fun _ => hnobody⟩
      · rw [queue]
        intro th hth
        exact forall_workers hwk hhand.workers (fun _ => hentries th hth)
          fun w₁ wk₁ hne hwk₁ hclaim => absurd hclaim.has (hnobody w₁ wk₁ hne hwk₁)
      · rw [queue]
        refine forall_workers hwk hhand.workers (fun hback => ?_)
          fun w₁ wk₁ hne hwk₁ hback => absurd hback.has (hnobody w₁ wk₁ hne hwk₁)
        rw [Worker.PutsBack, pc', state] at hback
        obtain ⟨hnil, hnot⟩ := hready hback.2.2 hback.2.1
        refine ⟨hnil, fun hkeeps => hnot ?_⟩
        rw [Worker.Keeps, pc', cb, idle] at hkeeps
        rwa [Worker.Keeps, pc]
  | new le queue back =>
      have hnobody : ∀ (w₁ : Nat) (wk₁ : Worker), w₁ ≠ w → s.workers[w₁]? = some wk₁ →
          ¬ wk₁.Has f := fun w₁ wk₁ _ hwk₁ hhas => Nat.not_lt.mpr le (howned.has_lt hwk₁ hhas)
      rw [howned.entriesFor_eq_nil le] at queue
      refine ⟨by rw [queue]; exact List.Pairwise.nil, ?_, ?_,
        h.unique_set hwk hhand.workers fun _ => hnobody⟩
      · rw [queue]
        exact fun th hth => absurd hth List.not_mem_nil
      · exact forall_workers hwk hhand.workers (fun hback => absurd hback back)
          fun w₁ wk₁ hne hwk₁ hback => absurd hback.has (hnobody w₁ wk₁ hne hwk₁)

end Turn

/-- The invariant: each fiber is one worker's, or waits for one, or is done with; a single worker has
no other to share with. -/
structure Alone (s : State) : Prop where
  owned : Owned s
  proper : ∀ (w : Nat) (wk : Worker), s.workers[w]? = some wk → wk.Proper s.fibers
  sole : s.workers.length ≤ 1 ∨ ∀ f, Done s (s.fibers f).state f ∨ Sole s f

theorem Alone.entersFree (h : Alone s) (l : Label) : EntersFree s l := by
  cases l with
  | create garbage => trivial
  | schedule ft => trivial
  | move w act garbage =>
      intro f hf w' hlt hne wk' hwk' hholds
      rw [State.entering] at hf
      split at hf
      · rename_i g cbFiber idleFiber hwk
        simp only [Option.ite_none_left_eq_some, Option.mem_def, Option.some.injEq] at hf
        obtain ⟨halive, rfl⟩ := hf
        obtain ⟨hw, -⟩ := List.getElem?_eq_some_iff.mp hwk
        rcases h.sole with hone | hsole
        · omega
        · rcases hsole g with hdone | hsole
          · exact halive hdone.1
          · exact hne (hsole.unique w' w wk' _ hwk' hwk hholds.has (Or.inl rfl))
      · cases hf

theorem Alone.create (h : Alone s) (garbage : FiberState) : Alone (s.create garbage) := by
  have hfibers : ∀ f < s.count, (s.create garbage).fibers f = s.fibers f := fun f hlt =>
    Function.update_of_ne (Nat.ne_of_lt hlt) ..
  refine ⟨h.owned.create garbage, fun w wk hwk => (h.proper w wk hwk).congr fun f hholds =>
    hfibers f (h.owned.holds_lt w wk f hwk hholds), h.sole.imp_right fun hsole f => ?_⟩
  by_cases hlt : f < s.count
  · rw [hfibers f hlt]
    refine (hsole f).imp_right fun hf => hf.of_eq rfl rfl ?_
    rw [hfibers f hlt]
  · have hle := Nat.not_lt.mp hlt
    exact Or.inr (sole_of_unused (h.owned.entriesFor_eq_nil hle) fun _ _ hwk hhas =>
      hlt (h.owned.has_lt hwk hhas))

theorem Alone.schedule (h : Alone s) {ft : FiberAndThread} (hl : LeavesAlone s (.schedule ft))
    (hlt : ∀ f, ft.task = .fiber f → f < s.count) :
    Alone { s with queue := s.queue ++ [ft] } := by
  refine ⟨h.owned.of_eq rfl rfl rfl fun ft' hft' f hf => ?_, h.proper, ?_⟩
  · rcases List.mem_append.mp hft' with hold | hnew
    · exact h.owned.queue_lt ft' hold f hf
    · cases List.mem_singleton.mp hnew
      exact hlt f hf
  · rcases h.sole with hone | hsole
    · exact Or.inl hone
    rcases hl with hone | hl
    · exact Or.inl hone
    refine Or.inr fun f => ?_
    rcases hsole f with hdone | hf
    · exact Or.inl hdone
    by_cases htask : ft.task = .fiber f
    · rcases hl f (by rw [htask]; rfl) with hdone | halone
      · exact Or.inl hdone
      · refine Or.inr (hf.schedule halone rfl ?_ rfl)
        rw [entriesFor_append, entriesFor_self htask]
    · refine Or.inr (hf.of_eq rfl ?_ rfl)
      rw [entriesFor_append, entriesFor_of_ne htask, List.append_nil]

theorem Alone.move (h : Alone s) {w : Nat} {wk : Worker} {act : Action} {garbage : FiberState}
    (hl : LeavesAlone s (.move w act garbage)) (hwk : s.workers[w]? = some wk)
    (hmove : s.move w wk act garbage = some t) (howned : Owned t) : Alone t := by
  rcases turn_of_move (h.proper w wk hwk) hmove with rfl | ⟨wk', hworkers, hproper, hown, hturn⟩
  · exact ⟨howned, h.proper, h.sole.imp_right fun hsole f => (hsole f).imp_right fun hf =>
      hf.of_eq rfl rfl rfl⟩
  rcases handover_of_move hmove with rfl | ⟨wk'', hhand⟩
  · exact ⟨howned, h.proper, h.sole.imp_right fun hsole f => (hsole f).imp_right fun hf =>
      hf.of_eq rfl rfl rfl⟩
  have hsame : wk'' = wk' := by
    have heq := congrArg (·[w]?) (hworkers.symm.trans hhand.workers)
    simp only [getElem?_set_of_some hwk, if_pos, Option.some.injEq] at heq
    exact heq.symm
  subst hsame
  refine ⟨howned, ?_, ?_⟩
  · exact forall_workers hwk hworkers hproper fun w₁ wk₁ hne hwk₁ =>
      (h.proper w₁ wk₁ hwk₁).congr fun f hholds => h.owned.fibers_eq hwk hhand hne hwk₁ hholds
  · rw [hworkers, List.length_set]
    rcases h.sole with hone | hsole
    · exact Or.inl hone
    rcases hl with hone | hl
    · exact Or.inl hone
    -- a fiber that nobody keeps is kept by nobody behind the step
    have hkeep : ∀ f < s.count, (∀ wk₁ ∈ s.workers, wk₁.idleFiber ≠ f ∧ wk₁.cbFiber ≠ some f) →
        ∀ wk₁ ∈ t.workers, wk₁.idleFiber ≠ f ∧ wk₁.cbFiber ≠ some f := by
      intro f hlt hnone wk₁ hwk₁
      rw [hworkers] at hwk₁
      rcases List.mem_or_eq_of_mem_set hwk₁ with hold | rfl
      · exact hnone wk₁ hold
      · obtain ⟨hidle, hcb⟩ := hnone wk (List.mem_of_getElem? hwk)
        exact ⟨hown.1 ▸ hidle, fun heq => hcb (hown.2 f hlt heq)⟩
    refine Or.inr fun f => ?_
    by_cases hlt : f < s.count
    · rcases hsole f with ⟨hended, hnone⟩ | hf
      · obtain ⟨hidle, hcb⟩ := hnone wk (List.mem_of_getElem? hwk)
        exact Or.inl ⟨ended_of_move (h.proper w wk hwk) hmove hlt hended hidle hcb, hkeep f hlt hnone⟩
      by_cases hdone : ∃ role st, wk.pc = .running f role ∧ act.assigns = some st ∧ Done s st f
      · obtain ⟨role, st, hpc, hassigns, hended, hnone⟩ := hdone
        left
        refine ⟨?_, hkeep f hlt hnone⟩
        have hstate : (t.fibers f).state = st := by
          obtain ⟨pc, cbFiber, idleFiber⟩ := wk
          cases hpc
          simp only [State.move, hassigns, Option.some.injEq] at hmove
          rw [← hmove]
          simp [State.setWorker, State.setState]
        rwa [hstate]
      · refine Or.inr (hf.turn h.owned hwk hhand (hturn f) fun role st hpc hassigns => ?_)
        refine (hl wk hwk (f, role) (by rw [hpc]; rfl) st hassigns).resolve_left fun hd => ?_
        exact hdone ⟨role, st, hpc, hassigns, hd⟩
    · exact Or.inr ((h.owned.sole_of_le (Nat.not_lt.mp hlt)).turn h.owned hwk hhand (hturn f)
        fun role st hpc _ => absurd
          (h.owned.holds_lt w wk f hwk (Or.inl (by rw [hpc]; rfl))) hlt)

theorem alone_step (h : Alone s) (hl : LeavesAlone s l) (hstep : step s l = some t) : Alone t := by
  have howned := owned_step h.owned (h.entersFree l) hstep
  obtain ⟨-, ⟨garbage, -, rfl⟩ | ⟨ft, rfl, rfl, hlt⟩ | ⟨w, act, garbage, wk, rfl, hwk, hmove⟩⟩ :=
    step_cases hstep
  · exact h.create garbage
  · exact h.schedule hl hlt
  · exact h.move hl hwk hmove howned

end Step

theorem alone_init (workers : Nat) (garbage : Nat → FiberState) : Alone (init workers garbage) := by
  have hworker : ∀ (w : Nat) (wk : Worker), (init workers garbage).workers[w]? = some wk →
      wk = ⟨.scan, none, w⟩ := by
    intro w wk hwk
    rw [init, List.getElem?_map, Option.map_eq_some_iff] at hwk
    obtain ⟨w', hw', rfl⟩ := hwk
    obtain ⟨hlt, rfl⟩ := List.getElem?_eq_some_iff.mp hw'
    simp
  have hhas : ∀ (w : Nat) (wk : Worker) (f : Nat), (init workers garbage).workers[w]? = some wk →
      wk.Has f → f = w := by
    intro w wk f hwk hf
    rw [hworker w wk hwk] at hf
    simpa [Worker.Has, Worker.Holds, Pc.inHand, eq_comm] using hf
  refine ⟨owned_init workers garbage, fun w wk hwk => ?_, Or.inr fun f => Or.inr ?_⟩
  · rw [hworker w wk hwk]
    trivial
  · refine ⟨List.Pairwise.nil, fun th hth => absurd hth List.not_mem_nil, fun w wk hwk hback => ?_, ?_⟩
    · rw [hworker w wk hwk] at hback
      exact hback.elim
    · intro w w' wk wk' hwk hwk' hf hf'
      rw [← hhas w wk f hwk hf, hhas w' wk' f hwk' hf']

/-- Where `schedule` is called only with fibers that no worker can then take besides another, and no
fiber assigns itself a state while another worker can take it, every fiber is executed by one worker at
a time and switched into only when its context is saved. It then never executes in state `HOLD` exactly
when no fiber calls `YieldToHold`. -/
theorem single_executor_of_run (workers : Nat) (garbage : Nat → FiberState) (ls : List Label)
    (h : StepsMeet step LeavesAlone (init workers garbage) ls) :
    StatesMeet step SingleExecutor (init workers garbage) ls ∧
      StepsMeet step SwitchesSaved (init workers garbage) ls ∧
      (StatesMeet step NeverHold (init workers garbage) ls ↔
        StepsMeet step NoYieldToHold (init workers garbage) ls) := by
  have hinit := alone_init workers garbage
  refine ⟨?_, ?_, ?_⟩
  · exact statesMeet_of_invariant (fun _ hs => hs.owned.singleExecutor) (fun _ _ _ => alone_step) ls _
      hinit h
  · exact stepsMeet_of_invariant (fun _ l hs _ => hs.owned.switchesSaved l) (fun _ _ _ => alone_step)
      ls _ hinit h
  · exact statesMeet_iff_stepsMeet (fun _ _ _ => alone_step)
      (fun _ _ _ hs _ hP hC => neverHold_step hs.owned hP hC)
      (fun _ _ _ _ _ => not_neverHold_step) ls _ hinit (neverHold_init workers garbage) h

/-- Fiber 2 runs on worker 0 and is scheduled while it executes. Worker 1 skips it, until worker 0 has
assigned `HOLD` behind the switch; then it yields to READY on worker 1, and ends on worker 0. -/
def handedOn : List Label :=
  [.create .init, .schedule ⟨.fiber 2, none⟩] ++ List.replicate 5 (.move 0 .swapOut .init) ++
    [.schedule ⟨.fiber 2, none⟩, .move 1 .swapOut .init] ++
    List.replicate 5 (.move 0 .swapOut .init) ++ List.replicate 17 (.move 1 .yieldToReady .init) ++
    List.replicate 9 (.move 0 .finish .init)

theorem handedOn_single_executor :
    (∃ s, run step (init 2 fun _ => .init) handedOn = some s ∧ (s.fibers 2).state = .term) ∧
      StatesMeet step SingleExecutor (init 2 fun _ => .init) handedOn :=
  ⟨by decide, (single_executor_of_run 2 (fun _ => .init) handedOn (by decide)).1⟩

/-- Fiber 2 runs on worker 0 and calls `YieldToHold`. Behind the assignment of `HOLD` another thread
schedules it, and worker 1 runs it before worker 0 has switched away. -/
def doubleRun : List Label :=
  [.create .init, .schedule ⟨.fiber 2, none⟩] ++ List.replicate 6 (.move 0 .yieldToHold .init) ++
    [.schedule ⟨.fiber 2, none⟩] ++ List.replicate 5 (.move 1 .yieldToHold .init)

/-- It executes on both workers, the second one switched into it without a saved context, and it
executes in state `HOLD` in between. -/
theorem doubleRun_fails : ¬ StatesMeet step SingleExecutor (init 2 fun _ => .init) doubleRun ∧
    ¬ StepsMeet step SwitchesSaved (init 2 fun _ => .init) doubleRun ∧
    ¬ StatesMeet step NeverHold (init 2 fun _ => .init) doubleRun := by
  refine ⟨fun h => ?_, by decide, fun h => ?_⟩
  · have hlast := statesMeet_run doubleRun _
      ((run step (init 2 fun _ => .init) doubleRun).get (by decide)) h
      (Option.some_get _).symm
    exact absurd (hlast 0 1 2 (by decide) (by decide)) (by decide)
  · have hmid := statesMeet_run (doubleRun.take 8) _
      ((run step (init 2 fun _ => .init) (doubleRun.take 8)).get (by decide))
      (statesMeet_append _ _ (doubleRun.drop 8) h).1 (Option.some_get _).symm
    exact hmid 0 2 (by decide) (by decide)

end Scheduler

end Saturn
