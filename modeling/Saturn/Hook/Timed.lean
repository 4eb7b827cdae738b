import Saturn.Hook.FdManager
import Saturn.IOManager.Defs
import Saturn.Misc.ListUpdate
import Saturn.Misc.Run
import Saturn.Timer.OneTimer

/-!
# Calls that wait with a timer

`io()` and `connect_with_timeout` of `saturn/hook.cc`, over the timers of the `IOManager` and the event
bits of its contexts. A call arms a timer with a weak pointer to its `timer_info`, registers for its
event, and yields; the callback of the timer marks the `timer_info` and cancels the event. Any number of
calls are under way, next to timers that are none of theirs.

The callback of a timer goes by the number of the timer. A bit of `FdContext::events` is set where the
context has a fiber, which goes by the number of its call.
-/

namespace Saturn

namespace Hook

open IOManager (Event)

namespace Timed

/-- The call was interrupted by a signal. -/
def EINTR : Int := 4

/-- The descriptor is not open. -/
def EBADF : Int := 9

/-- The call would have to wait. -/
def EAGAIN : Int := 11

/-- The time is over. -/
def ETIMEDOUT : Int := 110

/-- The connection is being set up. -/
def EINPROGRESS : Int := 115

/-- The function called: `io(fd, fun, hook_fun_name, event, timeout_so, ...)` or
`connect_with_timeout(fd, addr, addrlen, timeout_ms)`. -/
inductive Kind where
  | io (event : Event) (timeoutSo : Int)
  | connect (timeoutMs : UInt64)
  deriving DecidableEq, Repr

/-- The direction in which the call waits. -/
def Kind.event : Kind → Event
  | .io event _ => event
  | .connect _ => .write

/-- How a call ends: with what its system call returned, with `EBADF`, because `addEvent` failed,
with `errno` taken from `tinfo->cancelled`, with what `getsockopt` read, or because that failed. -/
inductive Result where
  | ret (rt errno : Int)
  | badFd
  | refused
  | timedOut
  | soError (error : Int)
  | sockoptFailed (errno : Int)
  deriving DecidableEq, Repr

/-- Where a call is. -/
inductive Pc where
  /-- The tests of the context. -/
  | enter
  /-- `return fun(fd, ...)` -/
  | direct
  /-- `fun(fd, ...)`, with the loop for `EINTR` in `io` -/
  | sys
  /-- About to make the timer, if there is a timeout. -/
  | arm
  /-- About to put timer `t` into `m_timers`. -/
  | insert (t : Nat)
  /-- `addEvent` -/
  | add (timer : Option Nat)
  /-- Behind `addEvent`, which has failed. -/
  | refused (timer : Option Nat)
  /-- `YieldToHold`, with the event registered. -/
  | waiting (timer : Option Nat)
  /-- `YieldToHold`, scheduled again. -/
  | woken (timer : Option Nat)
  /-- `if(tinfo->cancelled)` -/
  | check
  /-- `getsockopt(fd, SOL_SOCKET, SO_ERROR, ...)` -/
  | sockopt
  | done (r : Result)
  deriving DecidableEq, Repr

namespace Pc

/-- The timer that the call holds. -/
def timer : Pc → Option Nat
  | .insert t => some t
  | .add timer | .refused timer | .waiting timer | .woken timer => timer
  | _ => none

/-- The timer that the call has put into `m_timers`. -/
def armed : Pc → Option Nat
  | .add timer | .refused timer | .waiting timer | .woken timer => timer
  | _ => none

/-- The fiber of the call is suspended. -/
def waits : Pc → Bool
  | .waiting _ => true
  | _ => false

end Pc

/-- A call. `timeout` is `to` or `timeout_ms`, `cancelled` whether `tinfo->cancelled` is set. Not in
the code: `blocked` is when the system call first left the call to wait, `last` what it last
returned, and `addFailed` whether `addEvent` has failed; of the connection attempt, `finished` is its
error, if it has finished, and `reported` whether `epoll_wait` has then reported the descriptor. -/
structure Call where
  hook : Bool
  fd : Int
  kind : Kind
  pc : Pc
  ctx : Option FdContext
  timeout : UInt64
  cancelled : Bool
  blocked : Option UInt64
  last : Option (Int × Int)
  addFailed : Bool
  finished : Option Int
  reported : Bool
  deriving DecidableEq, Repr

/-- `taken` has what `listExpiredCb` has taken out, between its sections; `queue` the callbacks that
are scheduled, and `running` those that have found their `tinfo`, with whether they have set
`cancelled`. `owner` is the call whose `tinfo` the callback of a timer points to. -/
structure State where
  now : UInt64
  manager : TimerManager
  owner : Nat → Option Nat
  calls : List Call
  waiter : Int → Event → Option Nat
  taken : List (List Nat × UInt64)
  queue : List Nat
  running : List (Nat × Bool)

/-- What the rest of the program does with a timer of its own. -/
inductive UserOp where
  | add (t : Nat) (ms : UInt64) (recurring : Bool)
  | cancel (t : Nat)
  | refresh (t : Nat)
  | reset (t : Nat) (ms : UInt64) (fromNow : Bool)
  deriving DecidableEq, Repr

/-- A step. A function is called; a call goes on, where the label has what its environment decides; a
connection attempt finishes; `epoll_wait` reports a descriptor, or the event is triggered by something
else (an older report, `cancelAll`, a `cancelEvent` of the program); `listExpiredCb` runs its first and
its second section; a callback starts, sets `cancelled`, and calls `cancelEvent`; the clock goes on; the
program uses a timer of its own. -/
inductive Label where
  | call (hook : Bool) (fd : Int) (kind : Kind)
  | enter (i : Nat) (ctx : Option FdContext)
  | sys (i : Nat) (rt errno : Int)
  | arm (i : Nat) (t : Nat)
  | insert (i : Nat)
  | add (i : Nat) (ok : Bool)
  | cancel (i : Nat)
  | check (i : Nat)
  | sockopt (i : Nat) (ok : Bool) (errno : Int)
  | finish (i : Nat) (error : Int)
  | ready (fd : Int) (event : Event)
  | other (fd : Int) (event : Event)
  | expire (cur : Nat)
  | putBack (k : Nat)
  | callback (k : Nat)
  | mark (k : Nat)
  | cancelEvent (k : Nat) (ok : Bool)
  | tick (now : UInt64)
  | user (op : UserOp)
  deriving DecidableEq, Repr

/-- The timer of the program that the operation is about. -/
def UserOp.timer : UserOp → Nat
  | .add t _ _ | .cancel t | .refresh t | .reset t _ _ => t

/-- The sections of the operation. -/
def UserOp.apply (m : TimerManager) (now : UInt64) : UserOp → TimerManager
  | .add t ms recurring => ((m.newTimer t ms (some t) recurring now).addTimer t).1
  | .cancel t => (m.cancel t).1
  | .refresh t => (m.refresh t now).1
  | .reset t ms fromNow => (m.resetAndAdd t ms fromNow now).1

/-- Where `enter` leads: the timeout, and the next place. -/
def Call.entered (c : Call) (ctx : Option FdContext) : Call :=
  match c.kind with
  | .io _ timeoutSo =>
      if !c.hook then { c with pc := .direct }
      else
        match ctx with
        | none => { c with pc := .direct }
        | some ctx =>
            if ctx.isClosed then { c with ctx := some ctx, pc := .done .badFd }
            else if !ctx.isSocket || ctx.userNonblock then { c with ctx := some ctx, pc := .direct }
            else { c with ctx := some ctx, timeout := ctx.getTimeout timeoutSo, pc := .sys }
  | .connect timeoutMs =>
      if !c.hook then { c with pc := .direct }
      else
        match ctx with
        | none => { c with pc := .done .badFd }
        | some ctx =>
            if ctx.isClosed then { c with ctx := some ctx, pc := .done .badFd }
            else if !ctx.isSocket || ctx.userNonblock then { c with ctx := some ctx, pc := .direct }
            else { c with ctx := some ctx, timeout := timeoutMs, pc := .sys }

/-- Where the system call leads. -/
def Call.returned (c : Call) (rt errno : Int) : Pc :=
  match c.kind with
  | .io .. =>
      if rt = -1 ∧ errno = EINTR then .sys
      else if rt = -1 ∧ errno = EAGAIN then .arm
      else .done (.ret rt errno)
  | .connect _ => if rt = -1 ∧ errno = EINPROGRESS then .arm else .done (.ret rt errno)

/-- Where a failed `addEvent` leads. -/
def Call.unregistered (c : Call) : Pc :=
  match c.kind with
  | .io .. => .done .refused
  | .connect _ => .sockopt

/-- Where `if(tinfo->cancelled)` leads. -/
def Call.checked (c : Call) : Pc :=
  if c.cancelled then .done .timedOut
  else
    match c.kind with
    | .io .. => .sys
    | .connect _ => .sockopt

namespace State

/-- Call `i` goes on. -/
def setCall (s : State) (i : Nat) (c : Call) : State := { s with calls := s.calls.set i c }

/-- `triggerEvent(event)` in the context of `fd`, if the bit is set. -/
def trigger (s : State) (fd : Int) (event : Event) (report : Bool) : State :=
  match s.waiter fd event with
  | none => s
  | some i =>
      { s with
        waiter := Function.update s.waiter fd (Function.update (s.waiter fd) event none)
        calls := s.calls.modify i fun c =>
          match c.pc with
          | .waiting timer => { c with pc := .woken timer, reported := c.reported || report }
          | _ => c }

/-- `timer->cancel()`, if there is a timer. -/
def cancelTimer (s : State) : Option Nat → State
  | none => s
  | some t => { s with manager := (s.manager.cancel t).1 }

/-- What `listExpiredCb` has taken out. -/
def held (s : State) : List Nat := s.taken.flatMap Prod.fst

/-- The next step of call `i`, which is `c`. -/
def move (s : State) (i : Nat) (c : Call) : Label → Option State
  | .enter _ ctx => if c.pc = .enter then some (s.setCall i (c.entered ctx)) else none
  | .sys _ rt errno =>
      match c.pc with
      | .direct =>
          some (s.setCall i { c with last := some (rt, errno), pc := .done (.ret rt errno) })
      | .sys =>
          let pc := c.returned rt errno
          some (s.setCall i { c with
            last := some (rt, errno)
            blocked := if pc = .arm then c.blocked.or (some s.now) else c.blocked
            pc := pc })
      | _ => none
  | .arm _ t =>
      if c.pc = .arm then
        if c.timeout = -1 then some (s.setCall i { c with pc := .add none })
        else if (s.manager.heap t).isSome then none
        else
          some ({ s with
            manager := s.manager.newTimer t c.timeout (some t) false s.now
            owner := Function.update s.owner t (some i) }.setCall i { c with pc := .insert t })
      else none
  | .insert _ =>
      match c.pc with
      | .insert t =>
          some ({ s with manager := (s.manager.addTimer t).1 }.setCall i
            { c with pc := .add (some t) })
      | _ => none
  | .add _ ok =>
      match c.pc with
      | .add timer =>
          if (s.waiter c.fd c.kind.event).isSome then none
          else if ok then
            some ({ s with
              waiter := Function.update s.waiter c.fd
                (Function.update (s.waiter c.fd) c.kind.event (some i)) }.setCall i
                  { c with pc := .waiting timer })
          else some (s.setCall i { c with addFailed := true, pc := .refused timer })
      | _ => none
  | .cancel _ =>
      match c.pc with
      | .refused timer => some ((s.cancelTimer timer).setCall i { c with pc := c.unregistered })
      | .woken timer => some ((s.cancelTimer timer).setCall i { c with pc := .check })
      | _ => none
  | .check _ =>
      if c.pc = .check then some (s.setCall i { c with pc := c.checked }) else none
  | .sockopt _ ok errno =>
      if c.pc = .sockopt then
        -- `SO_ERROR` reads 0 while the attempt is still in progress
        let r := if ok then .soError (c.finished.getD 0) else .sockoptFailed errno
        some (s.setCall i { c with pc := .done r })
      else none
  | .finish _ error =>
      if c.blocked.isSome = true ∧ c.finished = none then
        some (s.setCall i { c with finished := some error })
      else none
  | _ => none

end State

/-- The call that goes on. -/
def Label.caller : Label → Option Nat
  | .enter i _ | .sys i _ _ | .arm i _ | .insert i | .add i _ | .cancel i | .check i | .sockopt i _ _
  | .finish i _ => some i
  | _ => none

/-- `epoll_wait` reports a descriptor on which a connection is attempted when the attempt has
finished. -/
def State.reportable (s : State) (fd : Int) (event : Event) : Bool :=
  match (s.waiter fd event).bind (s.calls[·]?) with
  | none => true
  | some c =>
      match c.kind with
      | .io .. => true
      | .connect _ => c.finished.isSome

/-- The step function. -/
def step (s : State) (l : Label) : Option State :=
  match l with
  | .call hook fd kind =>
      some { s with
        calls := s.calls ++ [{
          hook := hook, fd := fd, kind := kind, pc := .enter, ctx := none, timeout := -1,
          cancelled := false, blocked := none, last := none, addFailed := false, finished := none,
          reported := false }] }
  | .ready fd event => if s.reportable fd event then some (s.trigger fd event true) else none
  | .other fd event => some (s.trigger fd event false)
  | .expire cur =>
      if (s.manager.heap cur).isSome then none
      else if s.manager.timers.isEmpty then some s
      else
        let (manager, expired) := s.manager.takeExpired s.now cur
        some { s with manager := manager, taken := s.taken ++ [(expired, s.now)] }
  | .putBack k =>
      match s.taken[k]? with
      | none => none
      | some (expired, cur) =>
          let (manager, cbs) := s.manager.putBack cur expired
          some { s with
            manager := manager, taken := s.taken.eraseIdx k, queue := s.queue ++ cbs.filterMap id }
  | .callback k =>
      match s.queue[k]? with
      | none => none
      | some t =>
          let s := { s with queue := s.queue.eraseIdx k }
          match s.owner t with
          | none => some s
          | some i =>
              match s.calls[i]? with
              | none => some s
              | some c =>
                  match c.pc with
                  -- the call has returned, and `tinfo` is gone
                  | .done _ => some s
                  | _ =>
                      if c.cancelled then some s
                      else some { s with running := s.running ++ [(i, false)] }
  | .mark k =>
      match s.running[k]? with
      | some (i, false) =>
          some { s with
            running := s.running.set k (i, true)
            calls := s.calls.modify i fun c => { c with cancelled := true } }
      | _ => none
  | .cancelEvent k ok =>
      match s.running[k]? with
      | some (i, true) =>
          let s := { s with running := s.running.eraseIdx k }
          match s.calls[i]? with
          | none => some s
          | some c => some (if ok then s.trigger c.fd c.kind.event false else s)
      | _ => none
  | .tick now => if s.now ≤ now then some { s with now := now } else none
  | .user op =>
      let fits : Bool := match op with
        | .add t _ _ => (s.manager.heap t).isNone
        | _ => (s.manager.heap op.timer).isSome
      if fits = true ∧ s.owner op.timer = none then
        some { s with manager := op.apply s.manager s.now }
      else none
  | l =>
      match l.caller with
      | none => none
      | some i =>
          match s.calls[i]? with
          | none => none
          | some c => s.move i c l

/-- No call, and no timer. -/
def init (now : UInt64) : State where
  now := now
  manager := .init
  owner := fun _ => none
  calls := []
  waiter := fun _ _ => none
  taken := []
  queue := []
  running := []

/-! ### What a step does to the calls -/

variable {s t : State} {i : Nat} {c c' : Call} {l : Label}

theorem entered_eq (c : Call) (ctx : Option FdContext) : ∃ ctx' timeout pc,
    c.entered ctx = { c with ctx := ctx', timeout := timeout, pc := pc } ∧
    (pc = .direct ∨ pc = .sys ∨
      pc = .done .badFd ∧ ((∃ x ∈ ctx', x.isClosed = true) ∨ ∃ ms, c.kind = .connect ms)) := by
  have hdirect : ∃ ctx' timeout pc, { c with pc := .direct } =
      { c with ctx := ctx', timeout := timeout, pc := pc } ∧
      (pc = .direct ∨ pc = .sys ∨
        pc = .done .badFd ∧ ((∃ x ∈ ctx', x.isClosed = true) ∨ ∃ ms, c.kind = .connect ms)) :=
    ⟨c.ctx, c.timeout, .direct, rfl, Or.inl rfl⟩
  rw [Call.entered]
  split
  · split
    · exact hdirect
    · split
      · exact hdirect
      · rename_i x
        split
        · exact ⟨_, _, _, rfl, Or.inr (Or.inr ⟨rfl, Or.inl ⟨x, rfl, ‹_›⟩⟩)⟩
        · split
          · exact ⟨_, _, _, rfl, Or.inl rfl⟩
          · exact ⟨_, _, _, rfl, Or.inr (Or.inl rfl)⟩
  · rename_i ms hkind
    split
    · exact hdirect
    · split
      · exact ⟨_, _, _, rfl, Or.inr (Or.inr ⟨rfl, Or.inr ⟨ms, hkind⟩⟩)⟩
      · split
        · exact ⟨_, _, _, rfl, Or.inr (Or.inr ⟨rfl, Or.inr ⟨ms, hkind⟩⟩)⟩
        · split
          · exact ⟨_, _, _, rfl, Or.inl rfl⟩
          · exact ⟨_, _, _, rfl, Or.inr (Or.inl rfl)⟩

theorem returned_cases (c : Call) (rt errno : Int) :
    c.returned rt errno = .sys ∨ c.returned rt errno = .arm ∨
      c.returned rt errno = .done (.ret rt errno) := by
  rw [Call.returned]
  split
  · split
    · exact Or.inl rfl
    · split
      · exact Or.inr (Or.inl rfl)
      · exact Or.inr (Or.inr rfl)
  · split
    · exact Or.inr (Or.inl rfl)
    · exact Or.inr (Or.inr rfl)

theorem unregistered_cases (c : Call) : c.unregistered = .done .refused ∨
    (c.unregistered = .sockopt ∧ ∃ ms, c.kind = .connect ms) := by
  rw [Call.unregistered]
  split
  · exact Or.inl rfl
  · exact Or.inr ⟨rfl, _, ‹_›⟩

theorem checked_cases (c : Call) : (c.checked = .done .timedOut ∧ c.cancelled = true) ∨
    c.checked = .sys ∨ (c.checked = .sockopt ∧ ∃ ms, c.kind = .connect ms) := by
  rw [Call.checked]
  split
  · exact Or.inl ⟨rfl, ‹_›⟩
  · split
    · exact Or.inr (Or.inl rfl)
    · exact Or.inr (Or.inr ⟨rfl, _, ‹_›⟩)

/-- What becomes of a call that takes a step at the time `now`. -/
inductive Call.Moves (now : UInt64) (c : Call) : Label → Call → Prop
  | enter (i : Nat) (ctx : Option FdContext) : c.pc = .enter →
      Moves now c (.enter i ctx) (c.entered ctx)
  | direct (i : Nat) (rt errno : Int) : c.pc = .direct →
      Moves now c (.sys i rt errno) { c with last := some (rt, errno), pc := .done (.ret rt errno) }
  | sys (i : Nat) (rt errno : Int) : c.pc = .sys →
      Moves now c (.sys i rt errno) { c with
        last := some (rt, errno)
        blocked := if c.returned rt errno = .arm then c.blocked.or (some now) else c.blocked
        pc := c.returned rt errno }
  | arm (i t : Nat) (pc : Pc) : c.pc = .arm → (pc = .add none ∨ pc = .insert t) →
      Moves now c (.arm i t) { c with pc := pc }
  | insert (i t : Nat) : c.pc = .insert t → Moves now c (.insert i) { c with pc := .add (some t) }
  | add (i : Nat) (timer : Option Nat) : c.pc = .add timer →
      Moves now c (.add i true) { c with pc := .waiting timer }
  | addFails (i : Nat) (timer : Option Nat) : c.pc = .add timer →
      Moves now c (.add i false) { c with addFailed := true, pc := .refused timer }
  | refused (i : Nat) (timer : Option Nat) : c.pc = .refused timer →
      Moves now c (.cancel i) { c with pc := c.unregistered }
  | woken (i : Nat) (timer : Option Nat) : c.pc = .woken timer →
      Moves now c (.cancel i) { c with pc := .check }
  | check (i : Nat) : c.pc = .check → Moves now c (.check i) { c with pc := c.checked }
  | sockopt (i : Nat) (ok : Bool) (errno : Int) : c.pc = .sockopt →
      Moves now c (.sockopt i ok errno) { c with
        pc := .done (if ok then .soError (c.finished.getD 0) else .sockoptFailed errno) }
  | finish (i : Nat) (error : Int) : c.blocked.isSome = true → c.finished = none →
      Moves now c (.finish i error) { c with finished := some error }

theorem moves_of_move (hmove : s.move i c l = some t) :
    ∃ c', c.Moves s.now l c' ∧ t.calls = s.calls.set i c' ∧ t.running = s.running := by
  have hcancel (timer : Option Nat) : (s.cancelTimer timer).calls = s.calls ∧
      (s.cancelTimer timer).running = s.running := by
    cases timer <;> exact ⟨rfl, rfl⟩
  cases l with
  | enter j ctx =>
      simp only [State.move, Option.ite_none_right_eq_some, Option.some.injEq] at hmove
      obtain ⟨hpc, rfl⟩ := hmove
      exact ⟨_, .enter j ctx hpc, rfl, rfl⟩
  | sys j rt errno =>
      simp only [State.move] at hmove
      split at hmove
      · cases hmove
        exact ⟨_, .direct j rt errno ‹_›, rfl, rfl⟩
      · cases hmove
        exact ⟨_, .sys j rt errno ‹_›, rfl, rfl⟩
      · cases hmove
  | arm j u =>
      simp only [State.move] at hmove
      split at hmove
      · rename_i hpc
        split at hmove
        · cases hmove
          exact ⟨_, .arm j u _ hpc (Or.inl rfl), rfl, rfl⟩
        · split at hmove <;> cases hmove
          exact ⟨_, .arm j u _ hpc (Or.inr rfl), rfl, rfl⟩
      · cases hmove
  | insert j =>
      simp only [State.move] at hmove
      split at hmove <;> cases hmove
      exact ⟨_, .insert j _ ‹_›, rfl, rfl⟩
  | add j ok =>
      simp only [State.move] at hmove
      split at hmove
      · rename_i timer hpc
        split at hmove
        · cases hmove
        · cases ok with
          | true =>
              cases hmove
              exact ⟨_, .add j timer hpc, rfl, rfl⟩
          | false =>
              cases hmove
              exact ⟨_, .addFails j timer hpc, rfl, rfl⟩
      · cases hmove
  | cancel j =>
      simp only [State.move] at hmove
      split at hmove
      · rename_i timer hpc
        cases hmove
        refine ⟨_, .refused j timer hpc, ?_, (hcancel timer).2⟩
        rw [State.setCall, (hcancel timer).1]
      · rename_i timer hpc
        cases hmove
        refine ⟨_, .woken j timer hpc, ?_, (hcancel timer).2⟩
        rw [State.setCall, (hcancel timer).1]
      · cases hmove
  | check j =>
      simp only [State.move, Option.ite_none_right_eq_some, Option.some.injEq] at hmove
      obtain ⟨hpc, rfl⟩ := hmove
      exact ⟨_, .check j hpc, rfl, rfl⟩
  | sockopt j ok errno =>
      simp only [State.move, Option.ite_none_right_eq_some, Option.some.injEq] at hmove
      obtain ⟨hpc, rfl⟩ := hmove
      exact ⟨_, .sockopt j ok errno hpc, rfl, rfl⟩
  | finish j error =>
      simp only [State.move, Option.ite_none_right_eq_some, Option.some.injEq] at hmove
      obtain ⟨⟨hblocked, hfinished⟩, rfl⟩ := hmove
      exact ⟨_, .finish j error hblocked hfinished, rfl, rfl⟩
  | _ => cases hmove

/-- `triggerEvent` wakes the call that waits. -/
theorem trigger_calls (s : State) (fd : Int) (event : Event) (report : Bool) :
    (s.trigger fd event report).calls = s.calls ∨
    ∃ i c timer, s.waiter fd event = some i ∧ s.calls[i]? = some c ∧ c.pc = .waiting timer ∧
      (s.trigger fd event report).calls =
        s.calls.set i { c with pc := .woken timer, reported := c.reported || report } := by
  rw [State.trigger]
  cases hwait : s.waiter fd event with
  | none => exact Or.inl rfl
  | some i =>
      dsimp only
      cases hc : s.calls[i]? with
      | none => exact Or.inl (List.modify_eq_self (List.getElem?_eq_none_iff.mp hc))
      | some c =>
          rw [modify_of_getElem? hc]
          cases hpc : c.pc with
          | waiting timer => exact Or.inr ⟨i, c, timer, rfl, hc, hpc, rfl⟩
          | enter | direct | sys | arm | insert | add | refused | woken | check | sockopt | done =>
              exact Or.inl (set_of_getElem? hc)

/-- What a step does to the calls and to the callbacks that run. -/
inductive Effect (s t : State) : Label → Prop
  | idle (l : Label) : t.calls = s.calls →
      (∀ p ∈ t.running, p ∈ s.running ∨ p.2 = false ∧ p.1 < s.calls.length) → Effect s t l
  | call (hook : Bool) (fd : Int) (kind : Kind) (c : Call) : c.pc = .enter → c.reported = false →
      t.calls = s.calls ++ [c] → t.running = s.running → Effect s t (.call hook fd kind)
  | move (l : Label) (i : Nat) (c c' : Call) : l.caller = some i → s.calls[i]? = some c →
      c.Moves s.now l c' → t.calls = s.calls.set i c' → t.running = s.running → Effect s t l
  | ready (fd : Int) (event : Event) : s.reportable fd event = true →
      t.calls = (s.trigger fd event true).calls → t.running = s.running →
      Effect s t (.ready fd event)
  | other (fd : Int) (event : Event) : t.calls = (s.trigger fd event false).calls →
      t.running = s.running → Effect s t (.other fd event)
  | mark (k i : Nat) : s.running[k]? = some (i, false) →
      t.calls = s.calls.modify i (fun c => { c with cancelled := true }) →
      t.running = s.running.set k (i, true) → Effect s t (.mark k)
  | cancelEvent (k i : Nat) (c : Call) : s.running[k]? = some (i, true) → s.calls[i]? = some c →
      t.calls = (s.trigger c.fd c.kind.event false).calls → t.running = s.running.eraseIdx k →
      Effect s t (.cancelEvent k true)

theorem effect_of_step (hstep : step s l = some t) : Effect s t l := by
  have hmove (i : Nat) (hcaller : l.caller = some i) (hrest : (match s.calls[i]? with
      | none => none
      | some c => s.move i c l) = some t) : Effect s t l := by
    cases hc : s.calls[i]? with
    | none =>
        rw [hc] at hrest
        cases hrest
    | some c =>
        rw [hc] at hrest
        obtain ⟨c', hmoves, hcalls, hrunning⟩ := moves_of_move hrest
        exact .move l i c c' hcaller hc hmoves hcalls hrunning
  have hrunning (fd : Int) (event : Event) (report : Bool) (running : List (Nat × Bool)) :
      ({ s with running := running }.trigger fd event report).calls =
        (s.trigger fd event report).calls ∧
      ({ s with running := running }.trigger fd event report).running = running := by
    simp only [State.trigger]
    split <;> exact ⟨rfl, rfl⟩
  cases l with
  | call hook fd kind =>
      cases hstep
      exact .call hook fd kind _ rfl rfl rfl rfl
  | ready fd event =>
      simp only [step, Option.ite_none_right_eq_some, Option.some.injEq] at hstep
      obtain ⟨hreport, rfl⟩ := hstep
      exact .ready fd event hreport rfl (hrunning fd event true s.running).2
  | other fd event =>
      cases hstep
      exact .other fd event rfl (hrunning fd event false s.running).2
  | expire cur =>
      simp only [step] at hstep
      split at hstep
      · cases hstep
      · split at hstep <;> cases hstep <;> exact .idle _ rfl fun _ => Or.inl
  | putBack k =>
      simp only [step] at hstep
      split at hstep <;> cases hstep
      exact .idle _ rfl fun _ => Or.inl
  | callback k =>
      simp only [step] at hstep
      split at hstep
      · cases hstep
      · split at hstep
        · cases hstep
          exact .idle _ rfl fun _ => Or.inl
        · rename_i i _
          split at hstep
          · cases hstep
            exact .idle _ rfl fun _ => Or.inl
          · rename_i c hc
            split at hstep
            · cases hstep
              exact .idle _ rfl fun _ => Or.inl
            · split at hstep <;> cases hstep
              · exact .idle _ rfl fun _ => Or.inl
              · refine .idle _ rfl fun p hp => ?_
                rcases List.mem_append.mp hp with hp | hp
                · exact Or.inl hp
                · rw [List.mem_singleton.mp hp]
                  exact Or.inr ⟨rfl, (List.getElem?_eq_some_iff.mp hc).1⟩
  | mark k =>
      simp only [step] at hstep
      split at hstep
      · cases hstep
        exact .mark k _ ‹_› rfl rfl
      · cases hstep
  | cancelEvent k ok =>
      have hdrop {u : State} (hcalls : u.calls = s.calls) (hrun : u.running = s.running.eraseIdx k) :
          Effect s u (.cancelEvent k ok) :=
        .idle _ hcalls fun p hp => Or.inl (List.mem_of_mem_eraseIdx (hrun ▸ hp))
      simp only [step] at hstep
      split at hstep
      · rename_i i hk
        split at hstep
        · cases hstep
          exact hdrop rfl rfl
        · rename_i c hc
          cases hstep
          cases ok with
          | false => exact hdrop rfl rfl
          | true =>
              obtain ⟨hcalls, hrun⟩ := hrunning c.fd c.kind.event false (s.running.eraseIdx k)
              exact .cancelEvent k i c hk hc hcalls hrun
      · cases hstep
  | tick now =>
      simp only [step, Option.ite_none_right_eq_some, Option.some.injEq] at hstep
      obtain ⟨-, rfl⟩ := hstep
      exact .idle _ rfl fun _ => Or.inl
  | user op =>
      simp only [step, Option.ite_none_right_eq_some, Option.some.injEq] at hstep
      obtain ⟨-, rfl⟩ := hstep
      exact .idle _ rfl fun _ => Or.inl
  | enter i ctx => exact hmove i rfl hstep
  | sys i rt errno => exact hmove i rfl hstep
  | arm i u => exact hmove i rfl hstep
  | insert i => exact hmove i rfl hstep
  | add i ok => exact hmove i rfl hstep
  | cancel i => exact hmove i rfl hstep
  | check i => exact hmove i rfl hstep
  | sockopt i ok errno => exact hmove i rfl hstep
  | finish i error => exact hmove i rfl hstep

/-- The calls of `s` are there in `t`, with their `cancelled`. -/
def SameTinfos (s t : State) : Prop :=
  ∀ (i : Nat) c, s.calls[i]? = some c → ∃ c', t.calls[i]? = some c' ∧ c'.cancelled = c.cancelled

theorem sameTinfos_of_eq (h : t.calls = s.calls) : SameTinfos s t :=
  fun _ c hc => ⟨c, h ▸ hc, rfl⟩

theorem sameTinfos_of_set (hc : s.calls[i]? = some c)
    (hcancelled : c'.cancelled = c.cancelled) (ht : t.calls = s.calls.set i c') :
    SameTinfos s t := by
  intro j d hd
  have hget : t.calls[j]? = if j = i then some c' else s.calls[j]? := by
    rw [ht]
    exact getElem?_set_of_some hc c' j
  by_cases hji : j = i
  · subst hji
    cases hc.symm.trans hd
    exact ⟨c', by rw [hget, if_pos rfl], hcancelled⟩
  · exact ⟨d, by rw [hget, if_neg hji, hd], rfl⟩

theorem sameTinfos_of_trigger {fd : Int} {event : Event} {report : Bool}
    (ht : t.calls = (s.trigger fd event report).calls) : SameTinfos s t := by
  rcases trigger_calls s fd event report with h | ⟨i, c, timer, -, hc, -, h⟩
  · exact sameTinfos_of_eq (ht.trans h)
  · refine sameTinfos_of_set hc ?_ (ht.trans h)
    rfl

theorem Call.Moves.cancelled {now : UInt64} (h : c.Moves now l c') :
    c'.cancelled = c.cancelled := by
  cases h with
  | enter i ctx hpc =>
      obtain ⟨ctx', timeout, pc, heq, -⟩ := entered_eq c ctx
      rw [heq]
  | direct | sys | arm | insert | add | addFails | refused | woken | check | sockopt | finish => rfl

theorem sameTinfos_of_step (hstep : step s l = some t) :
    SameTinfos s t ∨ ∃ k, l = .mark k := by
  cases effect_of_step hstep with
  | idle _ hcalls => exact Or.inl (sameTinfos_of_eq hcalls)
  | call hook fd kind d _ _ hcalls =>
      refine Or.inl fun j e he => ⟨e, ?_, rfl⟩
      rw [hcalls]
      exact (List.getElem?_append_left (List.getElem?_eq_some_iff.mp he).1).trans he
  | move _ i c c' _ hc hmoves hcalls => exact Or.inl (sameTinfos_of_set hc hmoves.cancelled hcalls)
  | ready fd event _ hcalls => exact Or.inl (sameTinfos_of_trigger hcalls)
  | other fd event hcalls => exact Or.inl (sameTinfos_of_trigger hcalls)
  | mark k => exact Or.inr ⟨k, rfl⟩
  | cancelEvent k i c _ _ hcalls => exact Or.inl (sameTinfos_of_trigger hcalls)

theorem cancelled_of_step (hstep : step s l = some t) (hc : s.calls[i]? = some c) :
    ∃ c', t.calls[i]? = some c' ∧ (c.cancelled = true → c'.cancelled = true) := by
  rcases sameTinfos_of_step hstep with hsame | ⟨k, rfl⟩
  · obtain ⟨c', hc', heq⟩ := hsame i c hc
    exact ⟨c', hc', fun h => heq.trans h⟩
  · simp only [step] at hstep
    split at hstep
    · rename_i j _
      cases hstep
      by_cases hij : j = i
      · subst hij
        exact ⟨{ c with cancelled := true }, by simp [hc], fun _ => rfl⟩
      · exact ⟨c, by simp [hij, hc], id⟩
    · cases hstep

end Timed

end Hook

end Saturn
