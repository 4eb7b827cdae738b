import Mathlib.Algebra.Group.Int.Defs
import Mathlib.Algebra.Group.Nat.Defs
import Mathlib.Data.List.Basic
import Mathlib.Logic.Function.Basic

/-!
# `IOManager`

The event bookkeeping of `saturn/iomanager.cc`: the table `m_fdContexts`, the `FdContext` of each
descriptor with what waits for its two directions, the counter `m_pendingEventCount`, and the
interest set that the kernel keeps for the epoll descriptor.

A call runs in small steps that the steps of other threads may come between: the look-up of the
context under `m_mutex`, the lock of the context together with the `epoll_ctl` call under it, and
then each statement of the locked section by itself. The section is a `Prog`, a tree of the
statements that are left to run. What the environment decides (which thread moves, whether
`epoll_ctl` succeeds, what `epoll_wait` reports) is in the label of the step.

An `FdContext*` is an index into `contexts`, which has every context ever created. Descriptors are
non-negative.
-/

namespace Saturn

namespace IOManager

/-- `IOManager::Event` without `NONE`: a direction to wait for. -/
inductive Event where
  | read
  | write
  deriving DecidableEq, Repr

/-- A set of directions, the type of `FdContext::events`. -/
structure Events where
  read : Bool
  write : Bool
  deriving DecidableEq, Repr

namespace Events

/-- `NONE`. -/
def none : Events := ⟨false, false⟩

/-- `events & event`. -/
def has (ev : Events) : Event → Bool
  | .read => ev.read
  | .write => ev.write

/-- `events | event`. -/
def insert (ev : Events) : Event → Events
  | .read => { ev with read := true }
  | .write => { ev with write := true }

/-- `events & ~event`. -/
def erase (ev : Events) : Event → Events
  | .read => { ev with read := false }
  | .write => { ev with write := false }

/-- `events & real`. -/
def inter (ev real : Events) : Events := ⟨ev.read && real.read, ev.write && real.write⟩

/-- `events & ~real`. -/
def diff (ev real : Events) : Events := ⟨ev.read && !real.read, ev.write && !real.write⟩

/-- How many directions are set. -/
def bits (ev : Events) : Int := (if ev.read then 1 else 0) + (if ev.write then 1 else 0)

end Events

/-- The bits of `epoll_event::events` that the code registers; `READ` is `EPOLLIN` and `WRITE` is
`EPOLLOUT`. -/
structure EpollMask where
  epollin : Bool
  epollout : Bool
  epollet : Bool
  deriving DecidableEq, Repr

/-- `EPOLLET | events`. -/
def EpollMask.edge (ev : Events) : EpollMask := ⟨ev.read, ev.write, true⟩

/-- `EPOLLIN | events`, the mask of `delEvent` and `cancelEvent`. -/
def EpollMask.inWith (ev : Events) : EpollMask := ⟨true, ev.write, false⟩

/-- An element of the kernel's interest set, with `data.ptr`. -/
structure Registration where
  mask : EpollMask
  ptr : Nat
  deriving DecidableEq, Repr

/-- The operation of a call of `epoll_ctl`. -/
inductive EpollOp where
  | add
  | mod
  | del
  deriving DecidableEq, Repr

/-- The interest set of the epoll descriptor. -/
abbrev Epoll := Nat → Option Registration

/-- `epoll_ctl`: it fails when the environment says so (`ok` is false), and with `EEXIST` or
`ENOENT` when the operation does not fit the descriptor. -/
def epollCtl (epoll : Epoll) (op : EpollOp) (fd : Nat) (reg : Registration) (ok : Bool) :
    Option Epoll :=
  match ok, op, epoll fd with
  | true, .add, Option.none => some (Function.update epoll fd (some reg))
  | true, .mod, some _ => some (Function.update epoll fd (some reg))
  | true, .del, some _ => some (Function.update epoll fd Option.none)
  | _, _, _ => Option.none

/-- What waits for an event: the callback or the fiber number `id`, stored by successful call number
`call` of `addEvent`. -/
structure Waiter where
  id : Nat
  call : Nat
  deriving DecidableEq, Repr

/-- `FdContext::EventContext`. -/
structure EventContext where
  scheduler : Option Nat
  fiber : Option Waiter
  cb : Option Waiter
  deriving DecidableEq, Repr

namespace EventContext

/-- The state `resetContext` leaves. -/
def empty : EventContext := ⟨Option.none, Option.none, Option.none⟩

/-- The waiter of a direction. -/
def waiters (ctx : EventContext) : List Waiter := ctx.cb.toList ++ ctx.fiber.toList

end EventContext

/-- `IOManager::FdContext`; `owner` is the thread that holds its `m_mutex`. -/
structure FdContext where
  read : EventContext
  write : EventContext
  fd : Nat
  events : Events
  owner : Option Nat
  deriving DecidableEq, Repr

namespace FdContext

/-- `new FdContext`, with its descriptor. -/
def new (fd : Nat) : FdContext := ⟨.empty, .empty, fd, .none, Option.none⟩

/-- `getContext(event)` -/
def getContext (fc : FdContext) : Event → EventContext
  | .read => fc.read
  | .write => fc.write

/-- The context of one direction changes. -/
def setContext (fc : FdContext) : Event → EventContext → FdContext
  | .read, ctx => { fc with read := ctx }
  | .write, ctx => { fc with write := ctx }

/-- The waiter of a direction. -/
def waiters (fc : FdContext) : List Waiter := fc.read.waiters ++ fc.write.waiters

end FdContext

/-- What `addEvent` is to wake: the callback it was given, or the fiber that calls it. -/
inductive Task where
  | cb (id : Nat)
  | fiber (id : Nat)
  deriving DecidableEq, Repr

/-- Why a run ends: a failing `SATURN_ASSERT` (the one of `triggerEvent` by itself), or undefined
behaviour. -/
inductive Halt where
  | assertion
  | triggerAssertion
  | nullDeref
  | outOfRange
  | overflow
  deriving DecidableEq, Repr

/-- The statements of the locked sections. -/
inductive Act where
  /-- `++m_pendingEventCount` -/
  | incPending
  /-- `--m_pendingEventCount` -/
  | decPending
  /-- `fc->events = fc->events | event` -/
  | orEvents (e : Event)
  /-- `fc->events = new_event` -/
  | setEvents (ev : Events)
  /-- `SATURN_ASSERT(!event_ctx.scheduler && !event_ctx.fiber && !event_ctx.cb)` -/
  | assertEmpty (e : Event)
  /-- The assignments to `event_ctx.scheduler`, and to `event_ctx.cb` or `event_ctx.fiber`. -/
  | fill (e : Event) (task : Task) (scheduler : Nat)
  /-- `SATURN_ASSERT(event_ctx.fiber->getState() == Fiber::State::EXEC)` -/
  | assertExec
  /-- `resetContext` -/
  | resetContext (e : Event)
  /-- `SATURN_ASSERT(events & event)` in `triggerEvent` -/
  | assertEvent (e : Event)
  /-- `events = events & ~event` in `triggerEvent` -/
  | clearEvent (e : Event)
  /-- `ctx.scheduler->schedule(&ctx.cb)` or `ctx.scheduler->schedule(&ctx.fiber)` -/
  | schedule (e : Event)
  /-- `ctx.scheduler = nullptr` in `triggerEvent` -/
  | clearScheduler (e : Event)
  /-- `SATURN_ASSERT(fc->events == 0)` in `cancelAll` -/
  | assertNone
  deriving DecidableEq, Repr

/-- What is left to run of a locked section. -/
inductive Prog where
  | ret (result : Bool)
  | act (a : Act) (next : Prog)
  /-- `if (fc->events & event)` -/
  | ifEvent (e : Event) (yes no : Prog)
  deriving DecidableEq, Repr

/-- `FdContext::triggerEvent(event)`. -/
def triggerEvent (e : Event) (next : Prog) : Prog :=
  .act (.assertEvent e) (.act (.clearEvent e) (.act (.schedule e) (.act (.clearScheduler e) next)))

/-- A locked section: what it tests, its call of `epoll_ctl`, and what it does when that succeeds.
The sections return `true` for success; `addEvent` returns 0 for it and -1 for failure. -/
inductive Section where
  | halt (h : Halt)
  | leave (result : Bool)
  | ctl (op : EpollOp) (mask : EpollMask) (prog : Prog)
  deriving DecidableEq, Repr

/-- The locked section of `addEvent`. -/
def addEventSection (e : Event) (task : Task) (scheduler : Nat) (fc : FdContext) : Section :=
  if fc.events.has e then .halt .assertion
  else
    let op := if fc.events = .none then .add else .mod
    .ctl op (.edge (fc.events.insert e))
      (.act .incPending <| .act (.orEvents e) <| .act (.assertEmpty e) <|
        .act (.fill e task scheduler) <|
        match task with
        | .cb _ => .ret true
        | .fiber _ => .act .assertExec (.ret true))

/-- The locked section of `delEvent`. -/
def delEventSection (e : Event) (fc : FdContext) : Section :=
  if fc.events.has e then
    let newEvent := fc.events.erase e
    let op := if newEvent = .none then .del else .mod
    .ctl op (.inWith newEvent)
      (.act .decPending <| .act (.setEvents newEvent) <| .act (.resetContext e) <| .ret true)
  else .leave false

/-- The locked section of `cancelEvent`. -/
def cancelEventSection (e : Event) (fc : FdContext) : Section :=
  if fc.events.has e then
    let newEvent := fc.events.erase e
    let op := if newEvent = .none then .del else .mod
    .ctl op (.inWith newEvent) (.act .decPending <| triggerEvent e <| .ret true)
  else .leave false

/-- The locked section of `cancelAll`. -/
def cancelAllSection (fc : FdContext) : Section :=
  if fc.events = .none then .leave false
  else
    let last := .act .assertNone (.ret true)
    let second := .ifEvent .write (triggerEvent .write <| .act .decPending last) last
    .ctl .del ⟨false, false, false⟩
      (.ifEvent .read (triggerEvent .read <| .act .decPending second) second)

/-- An element of the array that `epoll_wait` fills. -/
structure EpollEvent where
  ptr : Nat
  epollin : Bool
  epollout : Bool
  epollerr : Bool
  epollhup : Bool
  deriving DecidableEq, Repr

/-- `real_events` of `idle`: the reported directions, where an error or a hang-up stands for those
waited for. -/
def EpollEvent.realEvents (event : EpollEvent) (events : Events) : Events :=
  if event.epollerr || event.epollhup then
    ⟨event.epollin || events.read, event.epollout || events.write⟩
  else ⟨event.epollin, event.epollout⟩

/-- The locked section of `idle` for one reported event; where it is left early, `idle` goes on with
the next one. -/
def dispatchSection (event : EpollEvent) (fc : FdContext) : Section :=
  let real := event.realEvents fc.events
  if fc.events.inter real = .none then .leave false
  else
    let left := fc.events.diff real
    let op := if left = .none then .del else .mod
    let second :=
      if real.write then triggerEvent .write <| .act .decPending <| .ret true else .ret true
    .ctl op (.edge left)
      (if real.read then triggerEvent .read <| .act .decPending second else second)

/-- The four operations, with their arguments. `addEvent` knows its task and the scheduler of the
thread it is called on. -/
inductive Call where
  | addEvent (fd : Nat) (e : Event) (task : Task) (scheduler : Nat)
  | delEvent (fd : Nat) (e : Event)
  | cancelEvent (fd : Nat) (e : Event)
  | cancelAll (fd : Nat)
  deriving DecidableEq, Repr

namespace Call

/-- The descriptor that a call is about. -/
def fd : Call → Nat
  | .addEvent fd _ _ _ | .delEvent fd _ | .cancelEvent fd _ | .cancelAll fd => fd

/-- The section of a call under the mutex of the context. -/
def lockedSection : Call → FdContext → Section
  | .addEvent _ e task scheduler => addEventSection e task scheduler
  | .delEvent _ e => delEventSection e
  | .cancelEvent _ e => cancelEventSection e
  | .cancelAll _ => cancelAllSection

end Call

/-- Where a thread is. -/
inductive Pc where
  /-- In none of the operations; the result of the last one. -/
  | out (result : Option Bool)
  /-- About to look up the context under the shared lock. -/
  | lookup (call : Call)
  /-- In `addEvent`, between the shared lock and the exclusive one. -/
  | grow (call : Call)
  /-- About to lock the context. -/
  | enter (call : Call) (fc : Nat)
  /-- In `idle`, about to lock the context of the next reported event. -/
  | dispatch (events : List EpollEvent)
  /-- Holds the context's lock, with `prog` left to run. `back` is the rest of the report when this
  is the section of `idle`. -/
  | inside (fc : Nat) (prog : Prog) (back : Option (List EpollEvent))
  deriving DecidableEq, Repr

/-- Where a thread goes from a locked section. -/
def Pc.leave (back : Option (List EpollEvent)) (result : Bool) : Pc :=
  match back with
  | some rest => .dispatch rest
  | Option.none => .out (some result)

/-- A task in the queue of a scheduler. -/
structure Scheduled where
  scheduler : Nat
  waiter : Waiter
  deriving DecidableEq, Repr

/-- `added`, `dropped` and `scheduled` are the history: what `addEvent` stored, `delEvent` dropped
and `triggerEvent` handed to a scheduler. -/
structure State where
  contexts : List FdContext
  table : List Nat
  epoll : Epoll
  pending : Int
  added : List Waiter
  dropped : List Waiter
  scheduled : List Scheduled
  threads : List Pc
  halted : Option Halt

/-- What the next step is: a thread enters an operation, `epoll_wait` returns to a thread in `idle`,
or a thread goes on, where `ok` is the outcome of its call of `epoll_ctl` or of its test of the
fiber's state. -/
inductive Label where
  | call (tid : Nat) (call : Call)
  | wait (tid : Nat) (ready : List (Nat × EpollEvent))
  | move (tid : Nat) (ok : Bool)
  deriving DecidableEq, Repr

namespace Act

/-- What a statement does to the context; `call` is the number of the next successful `addEvent`. -/
def onContext (call : Nat) (fc : FdContext) : Act → Except Halt FdContext
  | .incPending | .decPending | .assertExec => .ok fc
  | .orEvents e => .ok { fc with events := fc.events.insert e }
  | .setEvents ev => .ok { fc with events := ev }
  | .assertEmpty e => if fc.getContext e = .empty then .ok fc else .error .assertion
  | .fill e (.cb id) scheduler =>
      .ok (fc.setContext e { fc.getContext e with scheduler := some scheduler, cb := some ⟨id, call⟩ })
  | .fill e (.fiber id) scheduler =>
      .ok (fc.setContext e
        { fc.getContext e with scheduler := some scheduler, fiber := some ⟨id, call⟩ })
  | .resetContext e => .ok (fc.setContext e .empty)
  | .assertEvent e => if fc.events.has e then .ok fc else .error .triggerAssertion
  | .clearEvent e => .ok { fc with events := fc.events.erase e }
  | .schedule e =>
      let ctx := fc.getContext e
      if ctx.scheduler.isSome then
        -- `scheduleNoLock` swaps the task out through the pointer
        .ok (fc.setContext e
          (if ctx.cb.isSome then { ctx with cb := Option.none } else { ctx with fiber := Option.none }))
      else .error .nullDeref
  | .clearScheduler e =>
      .ok (fc.setContext e { fc.getContext e with scheduler := Option.none })
  | .assertNone => if fc.events = .none then .ok fc else .error .assertion

/-- What a statement adds to `m_pendingEventCount`. -/
def pending : Act → Int
  | .incPending => 1
  | .decPending => -1
  | _ => 0

/-- What `addEvent` stores to the context. -/
def added (call : Nat) : Act → List Waiter
  | .fill _ (.cb id) _ | .fill _ (.fiber id) _ => [⟨id, call⟩]
  | _ => []

/-- What `resetContext` drops. -/
def dropped (fc : FdContext) : Act → List Waiter
  | .resetContext e => (fc.getContext e).waiters
  | _ => []

/-- What `schedule` pushes to the queue; an empty task is not pushed. -/
def scheduled (fc : FdContext) : Act → List Scheduled
  | .schedule e =>
      let ctx := fc.getContext e
      match ctx.scheduler, ctx.cb, ctx.fiber with
      | some scheduler, some waiter, _ => [⟨scheduler, waiter⟩]
      | some scheduler, Option.none, some waiter => [⟨scheduler, waiter⟩]
      | _, _, _ => []
  | _ => []

end Act

/-- `epoll_wait`: each ready descriptor is registered, comes once, and is reported with bits of its
mask, with `EPOLLERR` and `EPOLLHUP` whether asked for or not. -/
def epollWait (epoll : Epoll) (ready : List (Nat × EpollEvent)) : Option (List EpollEvent) :=
  if ready.length ≤ 256 ∧ (ready.map Prod.fst).Nodup ∧ ∀ r ∈ ready, ∃ reg ∈ epoll r.1,
      reg.ptr = r.2.ptr ∧ (r.2.epollin → reg.mask.epollin) ∧ (r.2.epollout → reg.mask.epollout)
  then some (ready.map Prod.snd)
  else Option.none

namespace State

/-- Thread `tid` goes on. -/
def setPc (s : State) (tid : Nat) (pc : Pc) : State := { s with threads := s.threads.set tid pc }

/-- Context `fc` changes. -/
def setFc (s : State) (fc : Nat) (c : FdContext) : State :=
  { s with contexts := s.contexts.set fc c }

/-- The process stops. -/
def halt (s : State) (h : Halt) : State := { s with halted := some h }

/-- `contextResize(size)`: the slots behind `size` are gone, the new ones get new contexts. -/
def contextResize (s : State) (size : Nat) : State :=
  let kept := s.table.take size
  let fresh := List.range (size - kept.length)
  { s with
    table := kept ++ fresh.map (s.contexts.length + ·)
    contexts := s.contexts ++ fresh.map fun i => FdContext.new (kept.length + i) }

/-- The start of a locked section, up to its call of `epoll_ctl`. -/
def lock (s : State) (tid fc : Nat) (c : FdContext) (fd : Nat) (sec : Section)
    (back : Option (List EpollEvent)) (ok : Bool) : State :=
  match sec with
  | .halt h => s.halt h
  | .leave result => s.setPc tid (.leave back result)
  | .ctl op mask prog =>
      match epollCtl s.epoll op fd ⟨mask, fc⟩ ok with
      | Option.none => s.setPc tid (.leave back false)
      | some epoll =>
          ({ s with epoll := epoll }.setFc fc { c with owner := some tid }).setPc tid
            (.inside fc prog back)

/-- A statement of a locked section, or the end of it. -/
def exec (s : State) (tid fc : Nat) (c : FdContext) (prog : Prog)
    (back : Option (List EpollEvent)) (ok : Bool) : State :=
  match prog with
  | .ret result => (s.setFc fc { c with owner := Option.none }).setPc tid (.leave back result)
  | .ifEvent e yes no => s.setPc tid (.inside fc (if c.events.has e then yes else no) back)
  | .act a next =>
      if a = .assertExec ∧ ok = false then s.halt .assertion
      else
        match a.onContext s.added.length c with
        | .error h => s.halt h
        | .ok c' =>
            ({ s with
                pending := s.pending + a.pending
                added := s.added ++ a.added s.added.length
                dropped := s.dropped ++ a.dropped c
                scheduled := s.scheduled ++ a.scheduled c }.setFc fc c').setPc tid
              (.inside fc next back)

/-- The next step of thread `tid`; `none` when it waits for a lock or has nothing to do. -/
def move (s : State) (tid : Nat) (ok : Bool) : Pc → Option State
  | .out _ => Option.none
  | .lookup call =>
      match s.table[call.fd]? with
      | some fc => some (s.setPc tid (.enter call fc))
      | Option.none =>
          match call with
          | .addEvent .. => some (s.setPc tid (.grow call))
          | _ => some (s.setPc tid (.out (some false)))
  | .grow call =>
      -- `fd * 2` is an `int`
      if 2 ^ 31 ≤ call.fd * 2 then some (s.halt .overflow)
      else
        let s' := s.contextResize (call.fd * 2)
        match s'.table[call.fd]? with
        | some fc => some (s'.setPc tid (.enter call fc))
        | Option.none => some (s'.halt .outOfRange)
  | .enter call fc =>
      match s.contexts[fc]? with
      | some c =>
          if c.owner = Option.none then
            some (s.lock tid fc c call.fd (call.lockedSection c) Option.none ok)
          else Option.none
      | Option.none => Option.none
  | .dispatch [] => some (s.setPc tid (.out Option.none))
  | .dispatch (event :: rest) =>
      match s.contexts[event.ptr]? with
      | some c =>
          if c.owner = Option.none then
            some (s.lock tid event.ptr c c.fd (dispatchSection event c) (some rest) ok)
          else Option.none
      | Option.none => Option.none
  | .inside fc prog back =>
      match s.contexts[fc]? with
      | some c => some (s.exec tid fc c prog back ok)
      | Option.none => Option.none

end State

/-- The constructor: `contextResize(32)`, and `threads` threads that may use it. -/
def init (threads : Nat) : State :=
  State.contextResize
    { contexts := []
      table := []
      epoll := fun _ => Option.none
      pending := 0
      added := []
      dropped := []
      scheduled := []
      threads := List.replicate threads (.out Option.none)
      halted := Option.none } 32

/-- The step function: a run that has halted has no more steps. -/
def step (s : State) (l : Label) : Option State :=
  if s.halted = Option.none then
    match l with
    | .call tid call =>
        match s.threads[tid]? with
        | some (.out _) => some (s.setPc tid (.lookup call))
        | _ => Option.none
    | .wait tid ready =>
        match s.threads[tid]?, epollWait s.epoll ready with
        | some (.out _), some events => some (s.setPc tid (.dispatch events))
        | _, _ => Option.none
    | .move tid ok =>
        match s.threads[tid]? with
        | some pc => s.move tid ok pc
        | Option.none => Option.none
  else Option.none

end IOManager

end Saturn
