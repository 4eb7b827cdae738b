import Saturn.Scheduler.Defs
import Saturn.Timer.Defs

/-!
# The workers, their wake-ups and the timers

`Scheduler::run` once more, with all that decides whether a worker sleeps: the two counters, `tickle`
and the pipe it writes to, `stopping`, `IOManager::idle` with its `epoll_wait`, and the timers and
pending events that put tasks into `m_fibers`. `Saturn.Scheduler.Defs` has the fibers' contexts
instead.

A section under a lock is one step, and so is every read or write of a counter or of the pipe; what a
worker tests of a fiber's state is one step with what it then assigns to it. A call with more than one
section leaves the thread's further sections in a list, so that all the threads take turns between
any two of them.
-/

namespace Saturn

namespace Workers

open Scheduler (FiberState Task FiberAndThread Action)

/-- The class whose virtual `tickle`, `stopping` and `idle` are called. -/
inductive Kind where
  | scheduler
  | ioManager
  deriving DecidableEq, Repr

/-- What a thread still has to do in calls it has made. -/
inductive Call where
  /-- `tickle`: `if(!hasIdleThreads())` -/
  | tickle
  /-- `tickle`: `write(m_tickleFds[1], "T", 1)` -/
  | write
  /-- The section of `addTimer(t)`, of a new timer or at the end of `reset`. -/
  | insert (t : Nat)
  /-- The second section of a call of `listExpiredCb`. -/
  | putBack (expired : List Nat) (cur : UInt64)
  /-- `--m_pendingEventCount` -/
  | decPending
  /-- `cancelEvent`: the section of `schedule` in `triggerEvent`. -/
  | schedule (task : Task)
  /-- `stop`: `m_stopping = true` -/
  | setStopping
  deriving DecidableEq, Repr

/-- A call that a task or a thread outside makes. The timer or fiber that one creates is at the
address or number it has in the call. `cancelAll` of a descriptor with two events is two of these. -/
inductive Op where
  | newFiber
  | schedule (task : Option Task) (thread : Option Nat)
  | addTimer (t : Nat) (ms : UInt64) (cb : Option Nat) (recurring : Bool)
  | cancel (t : Nat)
  | refresh (t : Nat)
  | reset (t : Nat) (ms : UInt64) (fromNow : Bool)
  | getNextTimer
  | listExpiredCb (cur : Nat)
  | addEvent (task : Task)
  | delEvent (i : Nat)
  | cancelEvent (i : Nat)
  | cancelAll (i : Nat)
  | stop
  deriving DecidableEq, Repr

/-- The calls that a `Scheduler` has too. -/
def Op.ofScheduler : Op → Bool
  | .newFiber | .schedule _ _ | .stop => true
  | _ => false

/-- What the threads share. `events` are the registered events, each as what it schedules, and `pipe`
counts the bytes in the tickle pipe. -/
structure Shared where
  fibers : Nat → FiberState
  count : Nat
  queue : List FiberAndThread
  activeThreadCount : Nat
  idleThreadCount : Nat
  threadCount : Nat
  rootFiber : Bool
  autoStop : Bool
  stopping : Bool
  timers : TimerManager
  now : UInt64
  events : List Task
  pendingEventCount : Nat
  pipe : Nat

/-- `it->fiber && it->fiber->getState() == Fiber::State::EXEC` -/
def executing (fibers : Nat → FiberState) : Task → Bool
  | .fiber f => decide (fibers f = .exec)
  | .cb _ => false

/-- The task is for another thread than `w`. -/
def forOther (w : Nat) (ft : FiberAndThread) : Bool :=
  decide (ft.thread ≠ none ∧ ft.thread ≠ some w)

/-- The scan of `m_fibers` by thread `w`: what it takes with what it leaves, and `tickle_me`. -/
def scan (fibers : Nat → FiberState) (w : Nat) :
    List FiberAndThread → Option (Task × List FiberAndThread) × Bool
  | [] => (none, false)
  | ft :: rest =>
      let skip (tickleMe : Bool) :=
        let (taken, tickle) := scan fibers w rest
        (taken.map fun r => (r.1, ft :: r.2), tickleMe || tickle)
      if forOther w ft then skip true
      else if executing fibers ft.task then skip false
      else (some (ft.task, rest), !rest.isEmpty)

/-- The timeout that `epoll_wait` gets for what `getNextTimer` returned: `(int)next_timeout` is what
its low 32 bits are as a signed number. -/
def epollTimeout (nextTimeout : UInt64) : Int32 :=
  if nextTimeout ≠ ~~~0 then
    if 3000 < nextTimeout.toUInt32.toInt32 then 3000 else nextTimeout.toUInt32.toInt32
  else 3000

namespace Shared

/-- Fiber `f` changes its state. -/
def setFiber (g : Shared) (f : Nat) (st : FiberState) : Shared :=
  { g with fibers := Function.update g.fibers f st }

/-- `scheduleNoLock`, with its `need_tickle`. -/
def scheduleNoLock (g : Shared) (task : Option Task) (thread : Option Nat) : Shared × Bool :=
  ({ g with queue := g.queue ++ (task.map (FiberAndThread.mk · thread)).toList }, g.queue.isEmpty)

/-- The section of `schedule` over a range of callbacks. -/
def scheduleAll (g : Shared) : List (Option Nat) → Shared × Bool
  | [] => (g, false)
  | cb :: cbs =>
      let (g, need) := g.scheduleNoLock (cb.map .cb) none
      let (g, needs) := g.scheduleAll cbs
      (g, need || needs)

/-- Whether `Scheduler::stopping` returns true. -/
def stops (g : Shared) : Bool :=
  g.autoStop && g.stopping && g.queue.isEmpty && g.activeThreadCount == 0

/-- The fiber of the task has been created. -/
def created (g : Shared) : Option Task → Bool
  | some (.fiber f) => decide (f < g.count)
  | _ => true

/-- `if(need_tickle) tickle()`. -/
def tickleIf (need : Bool) : List Call := if need then [.tickle] else []

/-- `triggerEvent` and `--m_pendingEventCount` for the `i`th of the registered events. -/
def trigger (g : Shared) (i : Nat) : Option (Shared × List Call) :=
  match g.events[i]? with
  | none => none
  | some task =>
      let (g, need) := { g with events := g.events.eraseIdx i }.scheduleNoLock (some task) none
      some (g, tickleIf need ++ [.decPending])

/-- The first section of a call, with what is left to do in it. -/
def begin (g : Shared) : Op → Option (Shared × List Call)
  | .newFiber => some ({ g with count := g.count + 1 }, [])
  | .schedule task thread =>
      if g.created task then
        let (g, need) := g.scheduleNoLock task thread
        some (g, tickleIf need)
      else none
  | .addTimer t ms cb recurring =>
      if (g.timers.heap t).isSome then none
      else some ({ g with timers := g.timers.newTimer t ms cb recurring g.now }, [.insert t])
  | .cancel t => some ({ g with timers := (g.timers.cancel t).1 }, [])
  | .refresh t => some ({ g with timers := (g.timers.refresh t g.now).1 }, [])
  | .reset t ms fromNow =>
      let (m, found) := g.timers.reset t ms fromNow g.now
      some ({ g with timers := m }, if found then [.insert t] else [])
  | .getNextTimer => some ({ g with timers := (g.timers.getNextTimer g.now).1 }, [])
  | .listExpiredCb cur =>
      if (g.timers.heap cur).isSome then none
      else if g.timers.timers.isEmpty then some (g, [])
      else
        let (m, expired) := g.timers.takeExpired g.now cur
        some ({ g with timers := m }, [.putBack expired g.now])
  | .addEvent task =>
      if g.created (some task) then
        some ({ g with
          events := g.events ++ [task]
          pendingEventCount := g.pendingEventCount + 1 }, [])
      else none
  | .delEvent i =>
      match g.events[i]? with
      | none => none
      | some _ => some ({ g with events := g.events.eraseIdx i }, [.decPending])
  | .cancelEvent i =>
      match g.events[i]? with
      | none => none
      | some task =>
          some ({ g with events := g.events.eraseIdx i }, [.decPending, .schedule task])
  | .cancelAll i => g.trigger i
  | .stop =>
      some ({ g with autoStop := true }, .setStopping ::
        List.replicate (g.threadCount + if g.rootFiber then 1 else 0) .tickle)

/-- The next section of a call, with what it adds to what is left to do. -/
def goOn (kind : Kind) (g : Shared) : Call → Shared × List Call
  | .tickle =>
      match kind with
      | .scheduler => (g, [])
      | .ioManager => (g, if g.idleThreadCount = 0 then [] else [.write])
  | .write => ({ g with pipe := g.pipe + 1 }, [])
  | .insert t =>
      let (m, isFront) := g.timers.addTimer t
      ({ g with timers := m }, tickleIf isFront)
  | .putBack expired cur => ({ g with timers := (g.timers.putBack cur expired).1 }, [])
  | .decPending => ({ g with pendingEventCount := g.pendingEventCount - 1 }, [])
  | .schedule task =>
      let (g, need) := g.scheduleNoLock (some task) none
      (g, tickleIf need)
  | .setStopping => ({ g with stopping := true }, [])

end Shared

/-- The statement that a worker is at. A fiber that it runs as its `cb_fiber` comes with `true`. -/
inductive Pc where
  /-- The scan of `m_fibers`. -/
  | scan
  /-- `if(ft.fiber && (state != TERM && state != EXCEPT))` -/
  | start (task : Task)
  /-- An ended fiber was taken: `--m_activeThreadCount; continue;` -/
  | drop
  /-- `swapIn`: its assertion, and `m_state = EXEC` -/
  | swapIn (f : Nat) (cb : Bool)
  /-- The fiber's own code. -/
  | running (f : Nat) (cb : Bool)
  /-- `--m_activeThreadCount` after `swapIn` -/
  | ran (f : Nat) (cb : Bool)
  /-- The tests of the state that the fiber came back in. -/
  | settle (f : Nat) (cb : Bool)
  /-- `if(idle_fiber->getState() == TERM)` -/
  | idleTest
  /-- `++m_idleThreadCount` -/
  | countIdle
  /-- `stopping`: `getNextTimer` -/
  | nextTimer
  /-- `stopping`: `m_pendingEventCount == 0` -/
  | pendingEvents (asked : UInt64)
  /-- `stopping`: `Scheduler::stopping` -/
  | check (asked : UInt64)
  /-- Blocked in `epoll_wait` until the given time, or without an end. -/
  | waiting (timeout : Option Nat)
  /-- In an `epoll_wait` with a timeout of 0. -/
  | polling
  /-- `listExpiredCb`: its first section. -/
  | woken (tickled : Bool)
  /-- `listExpiredCb`: its second section. -/
  | expired (expired : List Nat) (cur : UInt64) (tickled : Bool)
  /-- `schedule(cbs.begin(), cbs.end())` -/
  | callbacks (cbs : List (Option Nat)) (tickled : Bool)
  /-- The loop over the events, with whether the one of the pipe is still among them. -/
  | events (tickled : Bool)
  /-- `swapOut`, and `--m_idleThreadCount` -/
  | switchOut
  /-- The loop has ended. -/
  | exited
  deriving DecidableEq, Repr

/-- A worker; `idleTerm` is whether its `idle_fiber` has ended. -/
structure Worker where
  pc : Pc
  calls : List Call
  cbFiber : Option Nat
  idleTerm : Bool
  deriving DecidableEq, Repr

/-- The threads that are no workers are in `others`, each with what it has to do. -/
structure State where
  shared : Shared
  workers : List Worker
  others : List (List Call)

/-- What a worker does: `go` is its next statement where there is one way to go on. A fiber's own code
makes a call or gives up the worker, `epoll_wait` returns with or without the event of the pipe,
`listExpiredCb` makes a timer at the address `cur`, and the events come in any order. -/
inductive Choice where
  | go
  | call (op : Op)
  | leave (act : Action)
  | wake (tickled : Bool)
  | list (cur : Nat)
  | drain
  | trigger (i : Nat)
  deriving DecidableEq, Repr

/-- A step: a worker's, the first or the next section of a call by a thread outside, the clock going
on, or a fiber changing its state on a thread outside. -/
inductive Label where
  | worker (w : Nat) (c : Choice)
  | outside (op : Op)
  | goOn (i : Nat)
  | tick (now : UInt64)
  | foreign (f : Nat) (st : FiberState)
  deriving DecidableEq, Repr

/-- Into `epoll_wait`, with the timeout counted from `asked`. -/
def Pc.sleep (asked nextTimeout : UInt64) : Pc :=
  let timeout := epollTimeout nextTimeout
  if timeout < 0 then .waiting none
  else if timeout = 0 then .polling
  else .waiting (some (asked.toNat + timeout.toInt.toNat))

namespace Worker

/-- The worker goes on. -/
def goto (wk : Worker) (pc : Pc) : Worker := { wk with pc := pc }

/-- Onward to `pc` over a call of `schedule` that may tickle. -/
def overCall (wk : Worker) (need : Bool) (pc : Pc) : Worker :=
  { wk with pc := pc, calls := Shared.tickleIf need }

/-- The loop of `run`, from the scan to where a worker that took nothing counts itself idle. -/
def run (g : Shared) (w : Nat) (wk : Worker) : Pc → Option (Shared × Worker)
  | .scan =>
      match scan g.fibers w g.queue with
      | (some (task, rest), tickleMe) =>
          some ({ g with queue := rest, activeThreadCount := g.activeThreadCount + 1 },
            wk.overCall tickleMe (.start task))
      | (none, tickleMe) => some (g, wk.overCall tickleMe .idleTest)
  | .start (.fiber f) => some (g, wk.goto (if (g.fibers f).Ended then .drop else .swapIn f false))
  | .start (.cb _) =>
      match wk.cbFiber with
      | some f =>
          if (g.fibers f).Ended ∨ g.fibers f = .init then
            some (g.setFiber f .init, wk.goto (.swapIn f true))
          else none
      | none =>
          some ({ g with count := g.count + 1 },
            { wk with pc := .swapIn g.count true, cbFiber := some g.count })
  | .drop => some ({ g with activeThreadCount := g.activeThreadCount - 1 }, wk.goto .scan)
  | .swapIn f cb =>
      if g.fibers f = .exec then none else some (g.setFiber f .exec, wk.goto (.running f cb))
  | .ran f cb =>
      some ({ g with activeThreadCount := g.activeThreadCount - 1 }, wk.goto (.settle f cb))
  | .settle f cb =>
      if g.fibers f = .ready then
        let (g, need) := g.scheduleNoLock (some (.fiber f)) none
        some (g, { wk.overCall need .scan with cbFiber := if cb then none else wk.cbFiber })
      else if (g.fibers f).Ended then
        -- `cb_fiber->reset(nullptr)`
        some (if cb then g.setFiber f .init else g, wk.goto .scan)
      else
        some (g.setFiber f .hold,
          { wk with pc := .scan, cbFiber := if cb then none else wk.cbFiber })
  | .idleTest => some (g, wk.goto (if wk.idleTerm then .exited else .countIdle))
  | _ => none

/-- The loop of `idle`, with the counting around it. -/
def idle (kind : Kind) (g : Shared) (wk : Worker) : Pc → Option (Shared × Worker)
  | .countIdle =>
      some ({ g with idleThreadCount := g.idleThreadCount + 1 },
        wk.goto (match kind with | .scheduler => .check g.now | .ioManager => .nextTimer))
  | .nextTimer =>
      let (m, nextTimeout) := g.timers.getNextTimer g.now
      some ({ g with timers := m },
        wk.goto (if nextTimeout = ~~~0 then .pendingEvents g.now else .sleep g.now nextTimeout))
  | .pendingEvents asked =>
      some (g, wk.goto (if g.pendingEventCount = 0 then .check asked else .sleep asked (~~~0)))
  | .check asked =>
      if g.stops then some (g, { wk with pc := .switchOut, idleTerm := true })
      else
        some (g, wk.goto (match kind with | .scheduler => .switchOut | .ioManager => .sleep asked (~~~0)))
  | .expired expired cur tickled =>
      let (m, cbs) := g.timers.putBack cur expired
      some ({ g with timers := m }, wk.goto (.callbacks cbs tickled))
  | .callbacks cbs tickled =>
      let (g, need) := g.scheduleAll cbs
      some (g, wk.overCall need (.events tickled))
  | .events false => some (g, wk.goto .switchOut)
  | .switchOut => some ({ g with idleThreadCount := g.idleThreadCount - 1 }, wk.goto .scan)
  | _ => none

/-- A worker at `pc` that has nothing to do in a call. -/
def act (kind : Kind) (g : Shared) (wk : Worker) : Pc → Choice → Option (Shared × Worker)
  | .running _ _, .call op =>
      if kind = .ioManager ∨ op.ofScheduler then
        (g.begin op).map fun r => (r.1, { wk with calls := r.2 })
      else none
  | .running f cb, .leave act =>
      some (match act.assigns with | some st => g.setFiber f st | none => g, wk.goto (.ran f cb))
  | .waiting _, .wake tickled | .polling, .wake tickled =>
      if tickled ∧ g.pipe = 0 then none else some (g, wk.goto (.woken tickled))
  | .woken tickled, .list cur =>
      if (g.timers.heap cur).isSome then none
      else if g.timers.timers.isEmpty then some (g, wk.goto (.events tickled))
      else
        let (m, expired) := g.timers.takeExpired g.now cur
        some ({ g with timers := m },
          wk.goto (if expired.isEmpty then .events tickled else .expired expired g.now tickled))
  | .events true, .drain => some ({ g with pipe := 0 }, wk.goto (.events false))
  | .events _, .trigger i => (g.trigger i).map fun r => (r.1, { wk with calls := r.2 })
  | _, _ => none

/-- The next step of worker `w`. -/
def next (kind : Kind) (g : Shared) (w : Nat) (wk : Worker) (c : Choice) :
    Option (Shared × Worker) :=
  match wk.calls, c with
  | call :: calls, .go =>
      let (g, more) := g.goOn kind call
      some (g, { wk with calls := more ++ calls })
  | [], .go => (wk.run g w wk.pc).orElse fun _ => wk.idle kind g wk.pc
  | [], c => wk.act kind g wk.pc c
  | _ :: _, _ => none

end Worker

/-- The fiber that a worker has switched into and not yet put aside. -/
def Pc.holds : Pc → Option Nat
  | .running f _ | .ran f _ | .settle f _ => some f
  | _ => none

/-- The step function. -/
def step (kind : Kind) (s : State) : Label → Option State
  | .worker w c =>
      match s.workers[w]? with
      | some wk =>
          (wk.next kind s.shared w c).map fun r =>
            { s with shared := r.1, workers := s.workers.set w r.2 }
      | none => none
  | .outside op =>
      if kind = .ioManager ∨ op.ofScheduler then
        (s.shared.begin op).map fun r => { s with shared := r.1, others := s.others ++ [r.2] }
      else none
  | .goOn i =>
      match s.others[i]? with
      | some (call :: calls) =>
          let (g, more) := s.shared.goOn kind call
          some { s with shared := g, others := s.others.set i (more ++ calls) }
      | _ => none
  | .tick now =>
      if s.shared.now ≤ now then some { s with shared := { s.shared with now := now } } else none
  | .foreign f st =>
      if ∃ wk ∈ s.workers, wk.pc.holds = some f then none
      else some { s with shared := s.shared.setFiber f st }

/-- `threadCount` threads, and the caller's if `useCaller`, at the start of their loops, when the
clock says `now`. The fibers below `count` exist, and a new fiber has the state that is left where it
is put. -/
def init (threadCount : Nat) (useCaller : Bool) (fibers : Nat → FiberState) (count : Nat)
    (now : UInt64) : State where
  shared := {
    fibers := fibers
    count := count
    queue := []
    activeThreadCount := 0
    idleThreadCount := 0
    threadCount := threadCount
    rootFiber := useCaller
    autoStop := false
    stopping := false
    timers := .init
    now := now
    events := []
    pendingEventCount := 0
    pipe := 0 }
  workers := List.replicate (threadCount + if useCaller then 1 else 0) ⟨.scan, [], none, false⟩
  others := []

end Workers

end Saturn
