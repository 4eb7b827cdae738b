import Saturn.Hook.Contexts
import Saturn.Hook.Io
import Saturn.Misc.ListUpdate

/-!
# Calls that outlive their descriptor

`close` wakes the fibers that are suspended in `io` on the descriptor, but leaves no mark in their
`tinfo`: a woken call whose timer has not run goes back to `retry` and makes its system call on a
number that is closed, or names another connection by then.
-/

namespace Saturn

namespace Hook

open IOManager (Event)

/-- The call never touched another connection than its own. If `close` ran while it was suspended, it
has been woken, has made no system call since, and returns an error when it returns. -/
def IoCall.Respects (c : IoCall) : Prop :=
  c.crossed = false ∧
    (c.closed = true → c.late = false ∧ c.pc ≠ .waiting ∧ ∀ rt, c.pc = .done rt → rt = -1)

/-- Every call respects what `close` has done. -/
def NeverOutlives (s : IoState) : Prop := ∀ c ∈ s.calls, c.Respects

/-- What a run must keep to. A call on whose descriptor `close` has run while it was suspended has
timed out when it leaves `YieldToHold`. `close` finds a context and an `IOManager` and `epoll_ctl`
succeeds, if a call waits on the descriptor, and no call has come to wait on it when the system call
is made. And no number is handed out while a call that was started on an earlier connection of that
number is under way. -/
def ClosesSettled (s : IoState) : IoLabel → Prop
  | .move i _ _ => ∀ c ∈ s.calls[i]?, c.pc = .woken → c.closed = true → c.cancelled = true
  | .close fd iom ok =>
      (∃ c ∈ s.calls, c.pc = .waiting ∧ c.fd = fd) →
        s.process.get fd ≠ none ∧ iom = true ∧ ok = true
  | .closeNext j => ∀ closer ∈ s.closers[j]?, closer.2 = .sys →
      ∀ c ∈ s.calls, c.pc = .waiting → c.fd ≠ closer.1
  | .opened fd _ => ∀ c ∈ s.calls, c.fd = fd → c.conn ≠ none → c.pc.running = false
  | _ => True

instance (s : IoState) : (l : IoLabel) → Decidable (ClosesSettled s l)
  | .move .. => inferInstanceAs (Decidable (∀ c ∈ _, _))
  | .close .. => inferInstanceAs (Decidable (_ → _))
  | .closeNext .. => inferInstanceAs (Decidable (∀ closer ∈ _, _))
  | .opened .. => inferInstanceAs (Decidable (∀ c ∈ _, _))
  | .io .. | .ready .. | .timer .. | .setsockopt .. => isTrue trivial

/-- What holds of a call, where `conn` is the connection that its number names. -/
structure CallOk (conn : Option Nat) (c : IoCall) : Prop where
  not_crossed : c.crossed = false
  not_late : c.late = false
  closed_ok : c.closed = true → c.pc = .woken ∨ c.pc = .done (-1)
  running_ok : c.pc.running = true → c.conn ≠ none → conn = none ∨ conn = c.conn
  suspended_ok : c.pc.suspended = true → c.closed = false → c.conn ≠ none → conn = c.conn

/-- What carries `NeverOutlives`. -/
def IoInv (s : IoState) : Prop := ∀ c ∈ s.calls, CallOk (s.connection c.fd) c

theorem CallOk.respects {conn : Option Nat} {c : IoCall} (h : CallOk conn c) : c.Respects := by
  refine ⟨h.not_crossed, fun hclosed => ?_⟩
  have hpc := h.closed_ok hclosed
  refine ⟨h.not_late, ?_, fun rt hrt => ?_⟩
  · rcases hpc with hpc | hpc <;> simp [hpc]
  · rcases hpc with hpc | hpc
    · rw [hpc] at hrt
      cases hrt
    · rw [hpc] at hrt
      injection hrt with hrt
      exact hrt.symm

theorem IoInv.neverOutlives {s : IoState} (h : IoInv s) : NeverOutlives s :=
  fun c hc => (h c hc).respects

variable {s : IoState} {conn : Option Nat} {c : IoCall}

/-- A call that is under way has not been closed. -/
theorem CallOk.not_closed (h : CallOk conn c) (hpc : c.pc.running = true) : c.closed = false := by
  by_contra hclosed
  rcases h.closed_ok (by simpa using hclosed) with hw | hd
  · rw [hw] at hpc
    cases hpc
  · rw [hd] at hpc
    cases hpc

/-- A call under way goes on, or returns. -/
theorem CallOk.goto (h : CallOk conn c) (hpc : c.pc.running = true) {pc : IoPc}
    (hpc' : pc.suspended = false) (timeout : UInt64) (timers : Nat) :
    CallOk conn { c with pc := pc, timeout := timeout, timers := timers } where
  not_crossed := h.not_crossed
  not_late := h.not_late
  closed_ok := fun hclosed => by
    rw [h.not_closed hpc] at hclosed
    cases hclosed
  running_ok := fun _ hconn => h.running_ok hpc hconn
  suspended_ok := fun hsus => by
    rw [hpc'] at hsus
    cases hsus

/-- A system call of a call under way is on its own connection, or fails. -/
theorem CallOk.sys (h : CallOk conn c) (hpc : c.pc.running = true) : CallOk conn (c.sys conn) := by
  have hopen := h.not_closed hpc
  refine ⟨?_, ?_, ?_, fun _ hconn => h.running_ok hpc hconn, ?_⟩
  · rw [IoCall.sys]
    cases hconn : c.conn with
    | none => simp [h.not_crossed]
    | some k =>
        rcases h.running_ok hpc (by simp [hconn]) with hnow | hnow
        · simp [h.not_crossed, hnow]
        · simp [h.not_crossed, hnow, hconn]
  · simp [IoCall.sys, h.not_late, hopen]
  · intro hclosed
    have hclosed : c.closed = true := hclosed
    rw [hopen] at hclosed
    cases hclosed
  · intro hsus
    have hsus : c.pc.suspended = true := hsus
    cases hc : c.pc <;> rw [hc] at hpc hsus <;> cases hpc <;> cases hsus

theorem IoInv.setCall (h : IoInv s) {i : Nat} {c' : IoCall} (hfd : c'.fd = c.fd)
    (hok : CallOk (s.connection c.fd) c') : IoInv (s.setCall i c') := by
  intro d hd
  rcases List.mem_or_eq_of_mem_set hd with hd | rfl
  · exact h d hd
  · rw [hfd]
    exact hok

/-- Waking changes calls that wait into woken ones, and nothing else. -/
theorem mem_wake {fd : Int} {events : Event → Bool} {d : IoCall} (hd : d ∈ (s.wake fd events).calls) :
    (d ∈ s.calls ∧ ¬ (d.pc = .waiting ∧ d.fd = fd ∧ events d.event = true)) ∨
      ∃ c ∈ s.calls, c.pc = .waiting ∧ d = { c with pc := .woken } := by
  obtain ⟨c, hc, rfl⟩ := List.mem_map.mp hd
  split
  · rename_i hcond
    exact Or.inr ⟨c, hc, hcond.1, rfl⟩
  · rename_i hcond
    exact Or.inl ⟨hc, hcond⟩

theorem CallOk.wake (h : CallOk conn c) (hpc : c.pc = .waiting) :
    CallOk conn { c with pc := .woken } where
  not_crossed := h.not_crossed
  not_late := h.not_late
  closed_ok := fun _ => Or.inl rfl
  running_ok := fun hrun => by cases hrun
  suspended_ok := fun _ hclosed hconn => h.suspended_ok (by rw [hpc]; rfl) hclosed hconn

theorem IoInv.wake (h : IoInv s) (fd : Int) (events : Event → Bool) : IoInv (s.wake fd events) := by
  intro d hd
  rcases mem_wake hd with ⟨hd, -⟩ | ⟨c, hc, hpc, rfl⟩
  · exact h d hd
  · exact (h c hc).wake hpc

/-- Marking changes calls that are suspended on the descriptor. -/
theorem mem_markClosed {fd : Int} {d : IoCall} (hd : d ∈ (s.markClosed fd).calls) :
    (d ∈ s.calls ∧ ¬ (d.pc.suspended = true ∧ d.fd = fd)) ∨
      ∃ c ∈ s.calls, c.pc.suspended = true ∧ c.fd = fd ∧ d = { c with closed := true } := by
  obtain ⟨c, hc, rfl⟩ := List.mem_map.mp hd
  split
  · rename_i hcond
    exact Or.inr ⟨c, hc, hcond.1, hcond.2, rfl⟩
  · rename_i hcond
    exact Or.inl ⟨hc, hcond⟩

/-- A call that leaves `YieldToHold` goes back to `retry` on its own connection, or returns. -/
theorem CallOk.resume (h : CallOk conn c) (hpc : c.pc = .woken)
    (hclosed : c.closed = true → c.cancelled = true) (timers : Nat) :
    CallOk conn { c with timers := timers, pc := if c.cancelled then .done (-1) else .retry } where
  not_crossed := h.not_crossed
  not_late := h.not_late
  closed_ok := fun hcl => by
    rw [hclosed hcl]
    exact Or.inr rfl
  running_ok := fun hrun hconn => by
    have hopen : c.closed = false := by
      by_contra hcl
      rw [hclosed (by simpa using hcl)] at hrun
      cases hrun
    exact Or.inr (h.suspended_ok (by rw [hpc]; rfl) hopen hconn)
  suspended_ok := fun hsus => by
    cases hcan : c.cancelled <;> rw [hcan] at hsus <;> cases hsus

/-- A call that is registered for its event waits on its own connection. -/
theorem CallOk.register (h : CallOk conn c) (hpc : c.pc = .add) (hopen : conn ≠ none) :
    CallOk conn { c with pc := .waiting } where
  not_crossed := h.not_crossed
  not_late := h.not_late
  closed_ok := fun hcl => by
    rw [h.not_closed (by rw [hpc]; rfl)] at hcl
    cases hcl
  running_ok := fun hrun => by cases hrun
  suspended_ok := fun _ _ hconn =>
    (h.running_ok (by rw [hpc]; rfl) hconn).resolve_left hopen

theorem CallOk.withTimers (h : CallOk conn c) (timers : Nat) (cancelled : Bool) :
    CallOk conn { c with timers := timers, cancelled := cancelled } :=
  ⟨h.not_crossed, h.not_late, h.closed_ok, h.running_ok, h.suspended_ok⟩

theorem CallOk.markClosed (h : CallOk conn c) (hpc : c.pc = .woken) {conn' : Option Nat} :
    CallOk conn' { c with closed := true } where
  not_crossed := h.not_crossed
  not_late := h.not_late
  closed_ok := fun _ => Or.inl hpc
  running_ok := fun hrun => by
    have hrun : c.pc.running = true := hrun
    rw [hpc] at hrun
    cases hrun
  suspended_ok := fun _ hclosed => by cases hclosed

theorem suspended_woken (hsus : c.pc.suspended = true) (hwait : c.pc ≠ .waiting) :
    c.pc = .woken := by
  cases hpc : c.pc <;> rw [hpc] at hsus hwait <;> first | rfl | exact absurd rfl hwait | cases hsus

/-- `close` concerns only woken calls, where nobody waits on its descriptor. -/
theorem IoInv.markClosed (h : IoInv s) {fd : Int}
    (hnone : ∀ c ∈ s.calls, c.pc = .waiting → c.fd ≠ fd) : IoInv (s.markClosed fd) := by
  intro d hd
  rcases mem_markClosed hd with ⟨hd, -⟩ | ⟨c, hc, hsus, hfd, rfl⟩
  · exact h d hd
  · exact (h c hc).markClosed (suspended_woken hsus fun hw => hnone c hc hw hfd)

/-- It makes no difference whether the waiters are marked before they are woken or after. -/
theorem markClosed_wake (fd : Int) :
    (s.markClosed fd).wake fd (fun _ => true) = (s.wake fd fun _ => true).markClosed fd := by
  simp only [IoState.wake, IoState.markClosed, List.map_map]
  congr 1
  refine List.map_congr_left fun c _ => ?_
  by_cases hfd : c.fd = fd
  · cases hpc : c.pc <;> simp [hpc, hfd, IoPc.suspended]
  · simp [hfd]

theorem not_waiting_of_wake (fd : Int) : ∀ c ∈ (s.wake fd fun _ => true).calls,
    c.pc = .waiting → c.fd ≠ fd := by
  intro d hd hpc hfd
  rcases mem_wake hd with ⟨-, hnot⟩ | ⟨c, -, -, rfl⟩
  · exact hnot ⟨hpc, hfd, rfl⟩
  · cases hpc

/-- `close` is called: its waiters are woken, if there are any. -/
theorem inv_close (h : IoInv s) {fd : Int} {iom ok : Bool}
    (hsettled : ClosesSettled s (.close fd iom ok)) {t : IoState}
    (hstep : ioStep s (.close fd iom ok) = some t) : IoInv t := by
  by_cases hwait : ∃ c ∈ s.calls, c.pc = .waiting ∧ c.fd = fd
  · obtain ⟨hget, rfl, rfl⟩ := hsettled hwait
    obtain ⟨ctx, hctx⟩ := Option.ne_none_iff_exists'.mp hget
    simp only [ioStep, hctx, Bool.and_self, if_true, Option.some.injEq] at hstep
    subst hstep
    rw [markClosed_wake]
    exact (h.wake fd fun _ => true).markClosed (not_waiting_of_wake fd)
  · have hmark := h.markClosed fun c hc hpc hfd => hwait ⟨c, hc, hpc, hfd⟩
    simp only [ioStep] at hstep
    split at hstep
    · obtain rfl := Option.some.inj hstep
      exact hmark
    · obtain rfl := Option.some.inj hstep
      split
      · exact hmark.wake fd fun _ => true
      · exact hmark

theorem connection_setFile_none (s : IoState) (fd fd' : Int) (conns : Int → Nat) (opens : Nat)
    (calls : List IoCall) (closers : List (Int × ClosePc)) :
    IoState.connection ⟨s.process.setFile fd none, conns, opens, calls, closers⟩ fd' =
      if fd' = fd then none else (s.process.kernel fd').map fun _ => conns fd' := by
  rw [IoState.connection, Process.kernel_setFile]
  split <;> rfl

/-- `close` goes on. Behind the system call the number names no connection; the calls suspended on it
are marked. -/
theorem inv_closeNext (h : IoInv s) {j : Nat} (hsettled : ClosesSettled s (.closeNext j))
    {t : IoState} (hstep : ioStep s (.closeNext j) = some t) : IoInv t := by
  simp only [ioStep] at hstep
  split at hstep
  · obtain rfl := Option.some.inj hstep
    exact h
  · rename_i fd hj
    have hmark := h.markClosed (hsettled (fd, .sys) hj rfl)
    obtain rfl := Option.some.inj hstep
    intro d hd
    have hok := hmark d hd
    rw [connection_setFile_none]
    by_cases hfd : d.fd = fd
    · rw [if_pos hfd]
      refine ⟨hok.not_crossed, hok.not_late, hok.closed_ok, fun _ _ => Or.inl rfl,
        fun hsus hopen => ?_⟩
      rcases mem_markClosed hd with ⟨-, hnot⟩ | ⟨c, -, -, -, rfl⟩
      · exact absurd ⟨hsus, hfd⟩ hnot
      · cases hopen
    · rw [if_neg hfd]
      exact hok
  · cases hstep

theorem kernel_getOrCreate (p : Process) (fd fd' : Int) (flags : Flags) (hfd : 0 ≤ fd)
    (hopen : p.kernel fd = some ⟨true, flags⟩) (hne : fd' ≠ fd) :
    (p.getOrCreate fd).kernel fd' = p.kernel fd' := by
  cases hget : p.get fd with
  | some ctx => rw [Process.getOrCreate_of_some hget]
  | none =>
      rw [Process.getOrCreate_of_none hfd hget hopen]
      exact Function.update_of_ne hne _ _

/-- A number is handed out: no call that could still use it was started on another connection. -/
theorem inv_opened (h : IoInv s) {fd : Int} {flags : Flags}
    (hsettled : ClosesSettled s (.opened fd flags)) {t : IoState}
    (hstep : ioStep s (.opened fd flags) = some t) : IoInv t := by
  simp only [ioStep] at hstep
  split at hstep
  · cases hstep
  · rename_i hnew
    have hfd : 0 ≤ fd := by omega
    have hclosed : s.process.kernel fd = none := by
      rw [← Option.not_isSome_iff_eq_none]
      exact fun hopen => hnew (Or.inr hopen)
    obtain rfl := Option.some.inj hstep
    intro c hc
    have hok := h c hc
    by_cases heq : c.fd = fd
    · have hnone : s.connection c.fd = none := by
        rw [IoState.connection, heq, hclosed]
        rfl
      refine ⟨hok.not_crossed, hok.not_late, hok.closed_ok, fun hrun hconn => ?_,
        fun hsus hopen hconn => ?_⟩
      · rw [hsettled c hc heq hconn] at hrun
        cases hrun
      · have hown := hok.suspended_ok hsus hopen hconn
        rw [hnone] at hown
        exact absurd hown.symm hconn
    · have hsame : IoState.connection { s with
          process := (s.process.opened fd flags).getOrCreate fd
          conns := Function.update s.conns fd s.opens
          opens := s.opens + 1 } c.fd = s.connection c.fd := by
        simp only [IoState.connection]
        rw [kernel_getOrCreate _ fd c.fd flags hfd (kernel_opened_self fd flags) heq,
          Process.opened, Process.kernel_ask, Process.kernel_setFile, if_neg heq,
          Function.update_of_ne heq]
      rw [hsame]
      exact hok

/-- A call goes on. -/
theorem inv_move (h : IoInv s) {i : Nat} {outcome : Outcome} {ok : Bool}
    (hc : s.calls[i]? = some c) (hsettled : ClosesSettled s (.move i outcome ok)) {t : IoState}
    (hmove : s.move i c outcome ok = some t) : IoInv t := by
  have hok := h c (List.mem_of_getElem? hc)
  have hwoken := hsettled c hc
  unfold IoState.move at hmove
  cases hpc : c.pc with
  | enter =>
      have hrun : c.pc.running = true := by rw [hpc]; rfl
      have hto : ∀ (pc : IoPc) (timeout : UInt64), pc.suspended = false →
          IoInv (s.setCall i { c with pc := pc, timeout := timeout }) := fun pc timeout hsus =>
        h.setCall rfl (hok.goto hrun hsus timeout c.timers)
      simp only [hpc] at hmove
      split at hmove
      · obtain rfl := Option.some.inj hmove
        exact hto .direct _ rfl
      · split at hmove
        · obtain rfl := Option.some.inj hmove
          exact hto .direct _ rfl
        · split at hmove
          · obtain rfl := Option.some.inj hmove
            exact hto (.done (-1)) _ rfl
          · split at hmove
            · obtain rfl := Option.some.inj hmove
              exact hto .direct _ rfl
            · obtain rfl := Option.some.inj hmove
              exact hto .retry _ rfl
  | direct =>
      have hrun : c.pc.running = true := by rw [hpc]; rfl
      simp only [hpc] at hmove
      split at hmove
      · obtain rfl := Option.some.inj hmove
        refine h.setCall rfl ((hok.sys hrun).goto hrun ?_ c.timeout c.timers)
        cases outcome <;> rfl
      · cases hmove
  | retry =>
      have hrun : c.pc.running = true := by rw [hpc]; rfl
      simp only [hpc] at hmove
      split at hmove
      · obtain rfl := Option.some.inj hmove
        refine h.setCall rfl ((hok.sys hrun).goto hrun ?_ c.timeout c.timers)
        cases outcome <;> rfl
      · cases hmove
  | again =>
      have hrun : c.pc.running = true := by rw [hpc]; rfl
      simp only [hpc, Option.some.injEq] at hmove
      subst hmove
      exact h.setCall rfl (hok.goto hrun rfl c.timeout _)
  | add =>
      have hrun : c.pc.running = true := by rw [hpc]; rfl
      simp only [hpc] at hmove
      split at hmove
      · split at hmove
        · cases hmove
        · rename_i hopen
          have hopen : s.connection c.fd ≠ none := by
            rw [IoState.connection, ne_eq, Option.map_eq_none_iff]
            exact fun hnone => hopen (Or.inr hnone)
          obtain rfl := Option.some.inj hmove
          exact h.setCall rfl (hok.register hpc hopen)
      · obtain rfl := Option.some.inj hmove
        exact h.setCall rfl (hok.goto hrun rfl c.timeout _)
  | waiting =>
      simp only [hpc] at hmove
      cases hmove
  | woken =>
      simp only [hpc, Option.some.injEq] at hmove
      subst hmove
      exact h.setCall rfl (hok.resume hpc (hwoken hpc) _)
  | done rt =>
      simp only [hpc] at hmove
      cases hmove

/-- The callback of a timer runs. -/
theorem inv_timer (h : IoInv s) {i : Nat} {ok : Bool} {t : IoState}
    (hstep : ioStep s (.timer i ok) = some t) : IoInv t := by
  simp only [ioStep] at hstep
  split at hstep
  · rename_i c hc
    have hok := h c (List.mem_of_getElem? hc)
    have hset : ∀ cancelled, IoInv (s.setCall i { c with
        timers := c.timers - 1, cancelled := cancelled }) := fun cancelled =>
      h.setCall rfl (hok.withTimers _ cancelled)
    split at hstep
    · cases hstep
    · split at hstep
      · obtain rfl := Option.some.inj hstep
        exact hset c.cancelled
      · split at hstep
        · obtain rfl := Option.some.inj hstep
          exact hset c.cancelled
        · obtain rfl := Option.some.inj hstep
          split
          · exact (hset true).wake _ _
          · exact hset true
  · cases hstep

theorem inv_ioStep (h : IoInv s) {l : IoLabel} (hsettled : ClosesSettled s l) {t : IoState}
    (hstep : ioStep s l = some t) : IoInv t := by
  cases l with
  | io hook fd event timeoutSo =>
      obtain rfl := Option.some.inj hstep
      intro c hc
      rcases List.mem_append.mp hc with hc | hc
      · exact h c hc
      · obtain rfl := List.mem_singleton.mp hc
        exact ⟨rfl, rfl, fun hcl => (by cases hcl), fun _ _ => Or.inr rfl,
          fun hsus => (by cases hsus)⟩
  | move i outcome ok =>
      simp only [ioStep] at hstep
      split at hstep
      · rename_i c hc
        exact inv_move h hc hsettled hstep
      · cases hstep
  | ready fd event =>
      obtain rfl := Option.some.inj hstep
      exact h.wake fd _
  | timer i ok => exact inv_timer h hstep
  | close fd iom ok => exact inv_close h hsettled hstep
  | closeNext j => exact inv_closeNext h hsettled hstep
  | opened fd flags => exact inv_opened h hsettled hstep
  | setsockopt fd optname timeout =>
      obtain rfl := Option.some.inj hstep
      intro c hc
      rw [IoState.connection, Process.kernel_setContext]
      exact h c hc

theorem inv_initIo : IoInv initIo := fun c hc => by cases hc

/-- In every run that keeps to `ClosesSettled`, a call that is suspended when `close` runs on its
descriptor is woken, makes no further system call and returns an error, and no call touches another
connection than its own. -/
theorem neverOutlives_of_run (ls : List IoLabel) (h : StepsMeet ioStep ClosesSettled initIo ls) :
    StatesMeet ioStep NeverOutlives initIo ls :=
  statesMeet_of_invariant (I := IoInv) (P := NeverOutlives) (fun _ hinv => hinv.neverOutlives)
    (fun _ _ _ hinv hsettled hstep => inv_ioStep hinv hsettled hstep) ls _ inv_initIo h

/-- A call with a receive timeout is suspended, its timeout passes, and its descriptor is closed and
handed out again before the fiber goes on. -/
theorem neverOutlives_of_timeout :
    StatesMeet ioStep NeverOutlives initIo
      [.opened 5 2#32, .setsockopt 5 SO_RCVTIMEO 100, .io true 5 .read SO_RCVTIMEO,
        .move 0 .eagain true, .move 0 .eagain true, .move 0 .eagain true, .move 0 .eagain true,
        .timer 0 true, .close 5 true true, .closeNext 0, .closeNext 0, .opened 5 2#32,
        .move 0 .eagain true] :=
  neverOutlives_of_run _ (by decide)

/-- A fiber is suspended in `recv` on 5, another closes 5, and a third connection gets the number.
The `recv` goes on, and reads from the new connection. -/
def recvAcrossClose : List IoLabel :=
  [.opened 5 2#32, .io true 5 .read SO_RCVTIMEO, .move 0 .eagain true, .move 0 .eagain true,
    .move 0 .eagain true, .move 0 .eagain true, .close 5 true true, .closeNext 0, .closeNext 0,
    .opened 5 2#32, .move 0 .eagain true, .move 0 (.ret 3) true]

theorem recvAcrossClose_outlives : ¬ StatesMeet ioStep NeverOutlives initIo recvAcrossClose := by
  intro h
  have hlast := statesMeet_run _ _ ((run ioStep initIo recvAcrossClose).get (by decide)) h
    (Option.some_get _).symm
  have hown := (hlast _ (List.mem_of_getElem? (i := 0) (Option.some_get (by decide)).symm)).1
  revert hown
  decide

end Hook

end Saturn
