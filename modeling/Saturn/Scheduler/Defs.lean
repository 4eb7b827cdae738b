import Mathlib.Algebra.Group.Int.Defs
import Mathlib.Algebra.Group.Nat.Defs
import Mathlib.Data.List.Basic
import Mathlib.Logic.Function.Basic

/-!
# `Scheduler::run` and the fibers it runs

The worker loop of `saturn/scheduler.cc` with what it calls in `saturn/fiber.cc`: the queue
`m_fibers`, each fiber's `m_state` and whether its `m_ctx` holds a saved context, and for each worker
its place in the loop, its `cb_fiber` and its `idle_fiber`.

The scan of the queue and the push of `schedule` are one step each, under the lock. Every other
statement that reads or writes what another thread may see is a step of its own, so that a fiber's
states can change between any two statements of the worker that has it in hand. The counters, the
wake-ups and the life time of the fibers are not part of this model.

A `Fiber*` is a number below `count`; `Fiber::Fiber` does not initialise `m_state`, so the state of
a new fiber is in the label of the step that creates it.
-/

namespace Saturn

namespace Scheduler

/-- `Fiber::State`. -/
inductive FiberState where
  | init
  | hold
  | exec
  | term
  | ready
  | except
  deriving DecidableEq, Repr

/-- `TERM` or `EXCEPT`. -/
def FiberState.Ended (st : FiberState) : Prop := st = .term ∨ st = .except

instance (st : FiberState) : Decidable st.Ended := inferInstanceAs (Decidable (_ ∨ _))

/-- `m_state`, and whether `m_ctx` is a context to switch into: `swapcontext` takes it up when it
switches into the fiber and saves it when it switches out. -/
structure Fiber where
  state : FiberState
  saved : Bool
  deriving DecidableEq, Repr

/-- What an entry of the queue is for. -/
inductive Task where
  | fiber (f : Nat)
  | cb (id : Nat)
  deriving DecidableEq, Repr

/-- `Scheduler::FiberAndThread`, where `none` is the thread number -1. -/
structure FiberAndThread where
  task : Task
  thread : Option Nat
  deriving DecidableEq, Repr

/-- What a worker runs a fiber as: what it took from the queue, its `cb_fiber`, or its
`idle_fiber`. -/
inductive Role where
  | taken
  | cb
  | idle
  deriving DecidableEq, Repr

/-- The statement that a worker is at. -/
inductive Pc where
  /-- The scan of `m_fibers`. -/
  | scan
  /-- `if (ft.fiber && (state != TERM && state != EXCEPT))` -/
  | test (task : Task)
  /-- `if (idle_fiber->getState() == TERM)` -/
  | idleTest
  /-- `swapIn`: `SATURN_ASSERT(m_state != EXEC)` -/
  | assertIn (f : Nat) (role : Role)
  /-- `swapIn`: `m_state = EXEC` -/
  | setExec (f : Nat) (role : Role)
  /-- `swapIn`: `swapcontext` to the fiber -/
  | switchIn (f : Nat) (role : Role)
  /-- The fiber's own code. -/
  | running (f : Nat) (role : Role)
  /-- `swapOut`: `swapcontext` to the worker -/
  | switchOut (f : Nat) (role : Role)
  /-- `if (state == READY)` -/
  | readyTest (f : Nat) (role : Role)
  /-- `schedule(ft.fiber)` or `schedule(cb_fiber)` -/
  | requeue (f : Nat) (role : Role)
  /-- The test for `TERM` and `EXCEPT`. -/
  | endTest (f : Nat) (role : Role)
  /-- `m_state = HOLD` -/
  | setHold (f : Nat) (role : Role)
  /-- `Fiber::reset` of the `cb_fiber`: its assertion; `again` when a callback is to run on it. -/
  | resetAssert (f : Nat) (again : Bool)
  /-- `Fiber::reset`: `makecontext` -/
  | resetContext (f : Nat) (again : Bool)
  /-- `Fiber::reset`: `m_state = INIT` -/
  | resetInit (f : Nat) (again : Bool)
  /-- The loop has ended. -/
  | exited
  deriving DecidableEq, Repr

/-- A thread in `run`. -/
structure Worker where
  pc : Pc
  cbFiber : Option Nat
  idleFiber : Nat
  deriving DecidableEq, Repr

/-- The workers, the fibers that there are, and the queue. -/
structure State where
  workers : List Worker
  fibers : Nat → Fiber
  count : Nat
  queue : List FiberAndThread
  /-- A `SATURN_ASSERT` has failed. -/
  halted : Bool

/-- What a running fiber does next that concerns the scheduler: `YieldToReady`, `YieldToHold`, a call
of `swapOut` alone (as in `IOManager::idle`), or the end of its callback in `MainFunc`. -/
inductive Action where
  | yieldToReady
  | yieldToHold
  | swapOut
  | finish
  | throwException
  deriving DecidableEq, Repr

/-- The state that the action assigns to `m_state` before it switches away. -/
def Action.assigns : Action → Option FiberState
  | .yieldToReady => some .ready
  | .yieldToHold => some .hold
  | .swapOut => none
  | .finish => some .term
  | .throwException => some .except

/-- A step: any thread creates a fiber or calls `schedule`, or worker `w` goes on. Where the worker is
in a fiber's code `act` is what that does; where it creates its `cb_fiber`, `garbage` is the state
that it has. -/
inductive Label where
  | create (garbage : FiberState)
  | schedule (ft : FiberAndThread)
  | move (w : Nat) (act : Action) (garbage : FiberState)
  deriving DecidableEq, Repr

/-- The scan of `m_fibers` by thread `w`: skip what is for another thread and what is executing, and
take the first of the others off the list. -/
def takeFirst (fibers : Nat → Fiber) (w : Nat) :
    List FiberAndThread → Option (Task × List FiberAndThread)
  | [] => none
  | ft :: rest =>
      if ft.thread ≠ none ∧ ft.thread ≠ some w then
        (takeFirst fibers w rest).map fun r => (r.1, ft :: r.2)
      else
        match ft.task with
        | .fiber f =>
            if (fibers f).state = .exec then
              (takeFirst fibers w rest).map fun r => (r.1, ft :: r.2)
            else some (ft.task, rest)
        | .cb _ => some (ft.task, rest)

namespace State

/-- Worker `w` goes on. -/
def setWorker (s : State) (w : Nat) (wk : Worker) : State :=
  { s with workers := s.workers.set w wk }

/-- `m_state = st` -/
def setState (s : State) (f : Nat) (st : FiberState) : State :=
  { s with fibers := Function.update s.fibers f { s.fibers f with state := st } }

/-- A switch saves the context, or takes it up. -/
def setSaved (s : State) (f : Nat) (saved : Bool) : State :=
  { s with fibers := Function.update s.fibers f { s.fibers f with saved := saved } }

/-- `new Fiber(cb)`. -/
def create (s : State) (garbage : FiberState) : State :=
  { s with
    fibers := Function.update s.fibers s.count ⟨garbage, true⟩
    count := s.count + 1 }

/-- The next statement of worker `w`. -/
def move (s : State) (w : Nat) (wk : Worker) (act : Action) (garbage : FiberState) :
    Option State :=
  let goto (s : State) (pc : Pc) : State := s.setWorker w { wk with pc := pc }
  match wk.pc with
  | .scan =>
      match takeFirst s.fibers w s.queue with
      | some (task, rest) => some (goto { s with queue := rest } (.test task))
      | none => some (goto s .idleTest)
  | .test (.fiber f) =>
      -- an ended fiber is dropped, and the loop goes on
      some (goto s (if (s.fibers f).state.Ended then .scan else .assertIn f .taken))
  | .test (.cb _) =>
      match wk.cbFiber with
      | some f => some (goto s (.resetAssert f true))
      | none =>
          some ((s.create garbage).setWorker w
            { wk with pc := .assertIn s.count .cb, cbFiber := some s.count })
  | .idleTest =>
      some (goto s (if (s.fibers wk.idleFiber).state = .term then .exited
        else .assertIn wk.idleFiber .idle))
  | .assertIn f role =>
      if (s.fibers f).state = .exec then some { s with halted := true }
      else some (goto s (.setExec f role))
  | .setExec f role => some (goto (s.setState f .exec) (.switchIn f role))
  | .switchIn f role => some (goto (s.setSaved f false) (.running f role))
  | .running f role =>
      match act.assigns with
      | some st => some (goto (s.setState f st) (.switchOut f role))
      | none => some (goto s (.switchOut f role))
  | .switchOut f role =>
      some (goto (s.setSaved f true) (if role = .idle then .endTest f role else .readyTest f role))
  | .readyTest f role =>
      some (goto s (if (s.fibers f).state = .ready then .requeue f role else .endTest f role))
  | .requeue f role =>
      some (State.setWorker { s with queue := s.queue ++ [⟨.fiber f, none⟩] } w
        { wk with pc := .scan, cbFiber := if role = .cb then none else wk.cbFiber })
  | .endTest f role =>
      if (s.fibers f).state.Ended then
        some (goto s (if role = .cb then .resetAssert f false else .scan))
      else some (goto s (.setHold f role))
  | .setHold f role =>
      some ((s.setState f .hold).setWorker w
        { wk with pc := .scan, cbFiber := if role = .cb then none else wk.cbFiber })
  | .resetAssert f again =>
      if (s.fibers f).state.Ended ∨ (s.fibers f).state = .init then
        some (goto s (.resetContext f again))
      else some { s with halted := true }
  | .resetContext f again => some (goto (s.setSaved f true) (.resetInit f again))
  | .resetInit f again =>
      some (goto (s.setState f .init) (if again then .assertIn f .cb else .scan))
  | .exited => none

end State

/-- `workers` workers at the start of their loops; worker `w`'s `idle_fiber` is fiber `w`. -/
def init (workers : Nat) (garbage : Nat → FiberState) : State where
  workers := (List.range workers).map fun w => ⟨.scan, none, w⟩
  fibers := fun f => ⟨garbage f, true⟩
  count := workers
  queue := []
  halted := false

/-- The step function. -/
def step (s : State) (l : Label) : Option State :=
  if s.halted then none
  else
    match l with
    | .create garbage => some (s.create garbage)
    | .schedule ft =>
        match ft.task with
        | .fiber f => if f < s.count then some { s with queue := s.queue ++ [ft] } else none
        | .cb _ => some { s with queue := s.queue ++ [ft] }
    | .move w act garbage =>
        match s.workers[w]? with
        | some wk => s.move w wk act garbage
        | none => none

/-- The fiber whose stack the worker executes on, between the two `swapcontext` calls. -/
def Worker.executing (wk : Worker) : Option Nat :=
  match wk.pc with
  | .running f _ | .switchOut f _ => some f
  | _ => none

/-- Worker `w` executes on the stack of fiber `f`. -/
def Executes (s : State) (w f : Nat) : Prop := ∃ wk ∈ s.workers[w]?, wk.executing = some f

instance (s : State) (w f : Nat) : Decidable (Executes s w f) :=
  inferInstanceAs (Decidable (∃ wk ∈ s.workers[w]?, _))

end Scheduler

end Saturn
