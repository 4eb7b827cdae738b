import Saturn.Hook.Descriptors
import Saturn.IOManager.Defs
import Saturn.Misc.Run

/-!
# Hooked I/O calls

`io()` of `saturn/hook.cc`, with the hooked `close` and the calls that hand out descriptors. A call
of `io` runs in small steps: the look-up of the context, each system call on the number `fd`, the
timer, `addEvent`, and the way out of `YieldToHold`. `close` runs in three: `get` and `cancelAll`,
`del`, and the system call. Any number of calls and of `close`s are under way at once.

Every socket that the kernel hands out is a connection of its own, numbered in order.
-/

namespace Saturn

namespace Hook

open IOManager (Event)

/-- What the system call `fun(fd, ...)` returns. -/
inductive Outcome where
  | eintr
  | eagain
  | ret (rt : Int)
  deriving DecidableEq, Repr

/-- The place of a call in `io`. -/
inductive IoPc where
  /-- `FdManager::GetInstance()->get(fd)` and the tests of the context -/
  | enter
  /-- `return fun(fd, ...)` -/
  | direct
  /-- `while ((rt = fun(fd, ...)) == -1 && errno == EINTR)` -/
  | retry
  /-- `addConditionTimer`, behind `EAGAIN` -/
  | again
  /-- `addEvent(fd, event)` -/
  | add
  /-- `YieldToHold`, with the event registered -/
  | waiting
  /-- `YieldToHold`, scheduled again -/
  | woken
  | done (rt : Int)
  deriving DecidableEq, Repr

/-- The fiber is suspended in the call. -/
def IoPc.suspended : IoPc → Bool
  | .waiting | .woken => true
  | _ => false

/-- The fiber is under way in the call. -/
def IoPc.running : IoPc → Bool
  | .enter | .direct | .retry | .again | .add => true
  | _ => false

/-- A call of `io`; `timeout` is its local `to`. `timers` counts the callbacks of its timers that may still run, `cancelled` is
`tinfo->cancelled`. The rest is not in the code: the connection that had the number when the call
started; whether `close(fd)` has run while the call was suspended; whether a system call was made
after that; and whether one was made on another connection than the call's own. -/
structure IoCall where
  hook : Bool
  fd : Int
  event : Event
  timeoutSo : Int
  pc : IoPc
  timeout : UInt64
  timers : Nat
  cancelled : Bool
  conn : Option Nat
  closed : Bool
  late : Bool
  crossed : Bool
  deriving DecidableEq

/-- The place of a call of `close`. -/
inductive ClosePc where
  | del
  | sys
  | done
  deriving DecidableEq, Repr

/-- The process, and the calls of `io` on it. -/
structure IoState where
  process : Process
  /-- The connection that last got the number. -/
  conns : Int → Nat
  opens : Nat
  calls : List IoCall
  closers : List (Int × ClosePc)

/-- A step: a fiber calls `io`; call `i` goes on (`outcome` is what its system call returns, `ok`
whether `addEvent` succeeds or, when it leaves `YieldToHold`, whether the callback of its timer has
already been taken out to run); `epoll_wait` reports a descriptor; a timer's callback runs; `close`
is called, or goes on; a hooked `socket` or `accept` returns; `setsockopt` stores a timeout. -/
inductive IoLabel where
  | io (hook : Bool) (fd : Int) (event : Event) (timeoutSo : Int)
  | move (i : Nat) (outcome : Outcome) (ok : Bool)
  | ready (fd : Int) (event : Event)
  | timer (i : Nat) (ok : Bool)
  | close (fd : Int) (iom ok : Bool)
  | closeNext (j : Nat)
  | opened (fd : Int) (flags : Flags)
  | setsockopt (fd optname : Int) (timeout : UInt64)
  deriving DecidableEq

namespace IoState

/-- The connection that `fd` names, if it is open. -/
def connection (s : IoState) (fd : Int) : Option Nat :=
  (s.process.kernel fd).map fun _ => s.conns fd

/-- Call `i` goes on. -/
def setCall (s : IoState) (i : Nat) (c : IoCall) : IoState := { s with calls := s.calls.set i c }

/-- The waiters of `fd` for the events given are triggered. -/
def wake (s : IoState) (fd : Int) (events : Event → Bool) : IoState :=
  { s with
    calls := s.calls.map fun c =>
      if c.pc = .waiting ∧ c.fd = fd ∧ events c.event then { c with pc := .woken } else c }

/-- `close(fd)` runs: the calls suspended on `fd` are those that it concerns. -/
def markClosed (s : IoState) (fd : Int) : IoState :=
  { s with
    calls := s.calls.map fun c =>
      if c.pc.suspended = true ∧ c.fd = fd then { c with closed := true } else c }

end IoState

/-- Call `c` makes a system call on its number, which names the connection `now`. -/
def IoCall.sys (c : IoCall) (now : Option Nat) : IoCall :=
  { c with
    late := c.late || c.closed
    crossed := c.crossed || (c.conn.isSome && now.isSome && c.conn != now) }

/-- The next step of call `c`. -/
def IoState.move (s : IoState) (i : Nat) (c : IoCall) (outcome : Outcome) (ok : Bool) :
    Option IoState :=
  let goto (c : IoCall) (pc : IoPc) : IoState := s.setCall i { c with pc := pc }
  -- a system call on a number that is not open fails with `EBADF`
  let answers : Bool := (s.process.kernel c.fd).isSome || outcome == .ret (-1)
  match c.pc with
  | .enter =>
      if !c.hook then some (goto c .direct)
      else
        match s.process.get c.fd with
        | none => some (goto c .direct)
        | some ctx =>
            if ctx.isClosed then some (goto c (.done (-1)))
            else if !ctx.isSocket || ctx.userNonblock then some (goto c .direct)
            else some (goto { c with timeout := ctx.getTimeout c.timeoutSo } .retry)
  | .direct =>
      if answers then
        some (goto (c.sys (s.connection c.fd))
          (match outcome with | .ret rt => .done rt | _ => .done (-1)))
      else none
  | .retry =>
      if answers then
        some (goto (c.sys (s.connection c.fd))
          (match outcome with | .eintr => .retry | .eagain => .again | .ret rt => .done rt))
      else none
  | .again => some (goto { c with timers := if c.timeout = -1 then c.timers else c.timers + 1 } .add)
  | .add =>
      if ok then
        -- `addEvent` asserts that nobody waits for the event yet, and `epoll_ctl` refuses a number
        -- that is not open
        if s.calls.any (fun d => d.pc == .waiting && d.fd == c.fd && d.event == c.event) ∨
            s.process.kernel c.fd = none then none
        else some (goto c .waiting)
      else some (goto { c with timers := if c.timeout = -1 then c.timers else c.timers - 1 } (.done (-1)))
  | .waiting => none
  | .woken =>
      let c := { c with timers := if c.timeout = -1 ∨ ok then c.timers else c.timers - 1 }
      some (goto c (if c.cancelled then .done (-1) else .retry))
  | .done _ => none

/-- The step function. -/
def ioStep (s : IoState) : IoLabel → Option IoState
  | .io hook fd event timeoutSo =>
      some { s with
        calls := s.calls ++ [{
          hook := hook, fd := fd, event := event, timeoutSo := timeoutSo, pc := .enter, timeout := -1,
          timers := 0, cancelled := false, conn := s.connection fd, closed := false, late := false,
          crossed := false }] }
  | .move i outcome ok =>
      match s.calls[i]? with
      | some c => s.move i c outcome ok
      | none => none
  | .ready fd event => some (s.wake fd (· == event))
  | .timer i ok =>
      match s.calls[i]? with
      | some c =>
          if c.timers = 0 then none
          else
            let s' := s.setCall i { c with timers := c.timers - 1 }
            match c.pc with
            -- the call has ended, and `tinfo` with it
            | .done _ => some s'
            | _ =>
                if c.cancelled then some s'
                else
                  let s' := s.setCall i { c with timers := c.timers - 1, cancelled := true }
                  some (if ok then s'.wake c.fd (· == c.event) else s')
      | none => none
  | .close fd iom ok =>
      let s' := s.markClosed fd
      match s.process.get fd with
      | none => some { s' with closers := s'.closers ++ [(fd, .sys)] }
      | some _ =>
          let s' := if iom && ok then s'.wake fd (fun _ => true) else s'
          some { s' with closers := s'.closers ++ [(fd, .del)] }
  | .closeNext j =>
      match s.closers[j]? with
      | some (fd, .del) =>
          some { s with
            process := { s.process with manager := s.process.manager.del fd }
            closers := s.closers.set j (fd, .sys) }
      | some (fd, .sys) =>
          let s' := s.markClosed fd
          some { s' with
            process := s.process.setFile fd none
            closers := s.closers.set j (fd, .done) }
      | _ => none
  | .opened fd flags =>
      if fd < 0 ∨ (s.process.kernel fd).isSome then none
      else
        some { s with
          process := (s.process.opened fd flags).getOrCreate fd
          conns := Function.update s.conns fd s.opens
          opens := s.opens + 1 }
  | .setsockopt fd optname timeout =>
      some { s with process := s.process.setContext fd (·.setTimeout optname timeout) }

/-- No socket, and no call. -/
def initIo : IoState where
  process := initProcess fun _ => none
  conns := fun _ => 0
  opens := 0
  calls := []
  closers := []

end Hook

end Saturn
