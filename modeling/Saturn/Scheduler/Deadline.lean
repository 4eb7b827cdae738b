import Saturn.Scheduler.HeldTimers
import Saturn.Scheduler.Wakeup

/-!
# A deadline behind the sleeping workers

A worker blocks in `epoll_wait` at most until the deadline that was the first when it asked
`getNextTimer`. A timer that comes to the front later writes a byte, which wakes one worker and which
that worker takes out of the pipe; `m_tickled` says that a byte is on its way and keeps further
timers from writing one. What remains between the byte and the next `getNextTimer` is a worker on its
way through the scan.
-/

namespace Saturn

namespace Workers

open Scheduler (FiberState Task FiberAndThread Action)
open Shared (tickleIf)

/-- Blocked in `epoll_wait`, or past `getNextTimer` and, as things stand, about to be. -/
def Pc.sleeps : Pc → Bool
  | .pendingEvents _ | .check _ | .waiting _ => true
  | _ => false

/-- The end of a blocked worker's timeout. -/
def Pc.wakeTime : Pc → Option Nat
  | .waiting timeout => timeout
  | _ => none

/-- Awake outside a task, and the scan of `m_fibers` is next. -/
def Pc.returns : Pc → Bool
  | .scan | .drop | .ran .. | .settle .. | .polling | .woken _ | .expired .. | .callbacks ..
  | .events _ | .switchOut => true
  | _ => false

/-- Behind a scan that has taken nothing, and `getNextTimer` is next. -/
def Pc.nears : Pc → Bool
  | .idleTest | .countIdle | .nextTimer => true
  | _ => false

/-- What the worker puts into the queue on its way to the scan. -/
def Pc.pushes : Pc → List FiberAndThread
  | .callbacks cbs _ => cbTasks cbs
  | _ => []

/-- The scan of `m_fibers` by thread `w` takes a task, and no `tickle` follows. -/
def takesQuietly (fibers : Nat → FiberState) (w : Nat) (queue : List FiberAndThread) : Bool :=
  match scan fibers w queue with
  | (some _, false) => true
  | _ => false

namespace Worker

/-- The worker comes to the scan next, and goes on from there. -/
def returns (wk : Worker) : Bool := wk.pc.returns && !wk.idleTerm

/-- The worker comes to `getNextTimer` next. -/
def nears (wk : Worker) : Bool := wk.pc.nears && !wk.idleTerm

/-- As things stand the worker calls `getNextTimer`, or a `tickle`, before it blocks or runs a task. -/
def Asks (g : Shared) (w : Nat) (wk : Worker) : Prop :=
  wk.nears = true ∨ wk.returns = true ∧
    (g.queue = [] ∨ takesQuietly g.fibers w (g.queue ++ wk.pc.pushes) = false)

instance (g : Shared) (w : Nat) (wk : Worker) : Decidable (wk.Asks g w) :=
  inferInstanceAs (Decidable (_ ∨ _ ∧ _))

end Worker

namespace State

/-- Some worker is awake outside a task and asks for the next deadline before it blocks or runs one. Of
two that are on their way to the scan one does, whichever of them gets the last task. -/
def SomeoneAsks (s : State) : Prop :=
  (∃ w, ∃ wk : Worker, s.workers[w]? = some wk ∧ wk.Asks s.shared w) ∨
    2 ≤ s.workers.countP Worker.returns

/-- Some thread has a `tickle` ahead of it. -/
def SomeoneTickles (s : State) : Prop :=
  (∃ wk ∈ s.workers, Tickles wk.calls) ∨ ∃ calls ∈ s.others, Tickles calls

instance (s : State) : Decidable s.SomeoneTickles := inferInstanceAs (Decidable (_ ∨ _))

end State

/-- While a worker is blocked, no deadline is before the time at which some blocked worker's timeout ends,
or there is a byte in the pipe or about to be written, or some worker is awake and asks for the next
deadline before it blocks or runs a task. -/
def NoSleptDeadline (s : State) : Prop :=
  (∃ wk ∈ s.workers, ∃ timeout, wk.pc = .waiting timeout) →
    (s.shared.timers.timers = [] ∨ ∃ wk ∈ s.workers, ∃ t ∈ wk.pc.wakeTime,
      ∀ u ∈ s.shared.timers.timers, t ≤ (s.shared.timers.next u).toNat) ∨
    0 < s.shared.pipe ∨ s.TickleDue ∨ s.SomeoneAsks

section Condition

/-- The statement that a worker executes in the step. -/
def State.statement (s : State) : Label → Option Pc
  | .worker w _ => (s.workers[w]?).bind fun wk => if wk.calls = [] then some wk.pc else none
  | _ => none

/-- The worker that a step is of. -/
def Label.mover : Label → Option Nat
  | .worker w _ => some w
  | _ => none

/-- When a worker asks for the next deadline it is less than 2^31 ms ahead. -/
def ShortDelays (s : State) (l : Label) : Prop :=
  s.statement l = some .nextTimer → ∀ t ∈ s.shared.timers.timers.head?,
    s.shared.now < s.shared.timers.next t →
      (s.shared.timers.next t - s.shared.now).toNat < 2 ^ 31

instance (s : State) (l : Label) : Decidable (ShortDelays s l) :=
  inferInstanceAs (Decidable (_ → _))

/-- Some worker sleeps, and `m_tickled` is set or there is a deadline before any blocked worker's
timeout ends. -/
def Exposed (m : TimerManager) (workers : List Worker) : Prop :=
  (∃ wk ∈ workers, wk.pc.sleeps = true) ∧
    (m.tickled = true ∨ ∃ u ∈ m.timers, ∀ wk ∈ workers, ∀ t ∈ wk.pc.wakeTime, (m.next u).toNat < t)

instance (m : TimerManager) (workers : List Worker) : Decidable (Exposed m workers) :=
  inferInstanceAs (Decidable (_ ∧ _))

/-- No fiber in the queue executes. -/
def Shared.Unhindered (g : Shared) : Prop := ∀ ft ∈ g.queue, executing g.fibers ft.task = false

instance (g : Shared) : Decidable g.Unhindered := inferInstanceAs (Decidable (∀ ft ∈ _, _))

namespace State

/-- Nobody sleeps past the deadline `d` who did not already sleep past another. -/
def Expects (s : State) (d : UInt64) : Prop :=
  (∀ wk ∈ s.workers, wk.pc.sleeps = false) ∨
    (∃ x ∈ s.shared.timers.timers, s.shared.timers.next x ≤ d) ∨
    ∃ wk ∈ s.workers, ∃ t ∈ wk.pc.wakeTime, t ≤ d.toNat

instance (s : State) (d : UInt64) : Decidable (s.Expects d) :=
  inferInstanceAs (Decidable (_ ∨ _ ∨ _))

/-- Worker `w` is the only one that is awake outside a task, it takes what is in the queue, and nobody is
about to tickle. -/
def Swallows (s : State) (w : Nat) : Prop :=
  takesQuietly s.shared.fibers w s.shared.queue = true ∧ ¬ s.SomeoneTickles ∧
    ∀ wk ∈ s.workers.eraseIdx w, wk.returns = false ∧ wk.nears = false

instance (s : State) (w : Nat) : Decidable (s.Swallows w) :=
  inferInstanceAs (Decidable (_ ∧ _ ∧ _))

/-- If worker `w` swallows what it has been woken for, there is a further byte in the pipe, or the others
need no waking for the timers in `m`. -/
def Spares (s : State) (w : Nat) (pipe : Nat) (m : TimerManager) : Prop :=
  s.Swallows w → 0 < pipe ∨ ¬ Exposed m (s.workers.eraseIdx w)

instance (s : State) (w pipe : Nat) (m : TimerManager) : Decidable (s.Spares w pipe m) :=
  inferInstanceAs (Decidable (_ → _))

/-- The timer that the step refreshes. -/
def refreshes (s : State) : Label → Option Nat
  | .worker _ (.call (.refresh t)) | .outside (.refresh t) =>
      if t ∈ s.shared.timers.timers then some t else none
  | _ => none

/-- What the second section of a call of `listExpiredCb` puts back, and from which time. -/
def putsBack (s : State) (l : Label) : Option (List Nat × UInt64) :=
  match s.callOf l with
  | some (.putBack expired cur) => some (expired, cur)
  | _ => none

/-- The same for a worker in `idle`. -/
def idlePutsBack (s : State) (l : Label) : Option (List Nat × UInt64) :=
  match s.statement l with
  | some (.expired expired cur _) => some (expired, cur)
  | _ => none

/-- The fiber that the step sets to `EXEC`. -/
def startsExec (s : State) : Label → Option Nat
  | .foreign f .exec => some f
  | l =>
      match s.statement l with
      | some (.swapIn f _) => some f
      | _ => none

/-- The worker that `epoll_wait` lets go on. -/
def wakes (s : State) (l : Label) : Option Nat :=
  match s.statement l with
  | some (.waiting _) => l.mover
  | _ => none

/-- The worker for which `getNextTimer` returns 0. -/
def polls (s : State) (l : Label) : Option Nat :=
  if s.statement l = some .nextTimer ∧
      ∃ t ∈ s.shared.timers.timers.head?, s.shared.timers.next t ≤ s.shared.now
  then l.mover else none

end State

/-- The worker that empties the pipe. -/
def Label.drains : Label → Option Nat
  | .worker w .drain => some w
  | _ => none

/-- Every deadline that comes before the sleeping workers' timeouts wakes one of them, and who is woken
asks for the deadlines. A timer that is put into the set by another way than `addTimer` comes behind
others, or its callback makes a worker scan. While a deadline is exposed no fiber in the queue
executes. -/
structure DeadlineHeard (s : State) (l : Label) : Prop where
  refresh : ∀ t ∈ s.refreshes l, ∀ timer ∈ s.shared.timers.heap t,
    s.Expects (s.shared.now + timer.ms)
  putBack : ∀ p ∈ s.putsBack l, ∀ ex ∈ p.1, ∀ timer ∈ s.shared.timers.heap ex,
    timer.recurring = true → s.Expects (p.2 + timer.ms)
  idlePutBack : ∀ p ∈ s.idlePutsBack l, ∀ ex ∈ p.1, ∀ timer ∈ s.shared.timers.heap ex,
    timer.recurring = true → s.Expects (p.2 + timer.ms) ∨ timer.cb.isSome = true ∧ s.shared.Unhindered
  wake : ∀ w ∈ s.wakes l, s.Spares w s.shared.pipe s.shared.timers
  drain : ∀ w ∈ l.drains, s.Spares w 0 s.shared.timers
  poll : ∀ w ∈ s.polls l, s.Spares w s.shared.pipe { s.shared.timers with tickled := false }
  unhindered : Exposed s.shared.timers s.workers → s.shared.Unhindered
  schedules : Exposed s.shared.timers s.workers →
    ∀ task ∈ s.schedules l, executing s.shared.fibers task = false
  startsExec : Exposed s.shared.timers s.workers →
    ∀ f ∈ s.startsExec l, ∀ ft ∈ s.shared.queue, ft.task ≠ .fiber f

instance (s : State) (l : Label) : Decidable (DeadlineHeard s l) :=
  decidable_of_iff
    ((∀ t ∈ s.refreshes l, ∀ timer ∈ s.shared.timers.heap t, s.Expects (s.shared.now + timer.ms)) ∧
      (∀ p ∈ s.putsBack l, ∀ ex ∈ p.1, ∀ timer ∈ s.shared.timers.heap ex,
        timer.recurring = true → s.Expects (p.2 + timer.ms)) ∧
      (∀ p ∈ s.idlePutsBack l, ∀ ex ∈ p.1, ∀ timer ∈ s.shared.timers.heap ex,
        timer.recurring = true →
          s.Expects (p.2 + timer.ms) ∨ timer.cb.isSome = true ∧ s.shared.Unhindered) ∧
      (∀ w ∈ s.wakes l, s.Spares w s.shared.pipe s.shared.timers) ∧
      (∀ w ∈ l.drains, s.Spares w 0 s.shared.timers) ∧
      (∀ w ∈ s.polls l, s.Spares w s.shared.pipe { s.shared.timers with tickled := false }) ∧
      (Exposed s.shared.timers s.workers → s.shared.Unhindered) ∧
      (Exposed s.shared.timers s.workers →
        ∀ task ∈ s.schedules l, executing s.shared.fibers task = false) ∧
      (Exposed s.shared.timers s.workers →
        ∀ f ∈ s.startsExec l, ∀ ft ∈ s.shared.queue, ft.task ≠ .fiber f))
    ⟨fun ⟨h₁, h₂, h₃, h₄, h₅, h₆, h₇, h₈, h₉⟩ => ⟨h₁, h₂, h₃, h₄, h₅, h₆, h₇, h₈, h₉⟩,
      fun ⟨h₁, h₂, h₃, h₄, h₅, h₆, h₇, h₈, h₉⟩ => ⟨h₁, h₂, h₃, h₄, h₅, h₆, h₇, h₈, h₉⟩⟩

end Condition

section Invariant

namespace State

/-- Some worker is awake, or going to be woken. -/
def Alert (s : State) : Prop := 0 < s.shared.pipe ∨ s.SomeoneTickles ∨ s.SomeoneAsks

end State

/-- Between `++m_idleThreadCount` and the end of a round of `idle`. -/
def Pc.inRound : Pc → Bool
  | .countIdle | .nextTimer | .pendingEvents _ | .check _ | .waiting _ | .polling | .woken _
  | .expired .. | .callbacks .. | .events _ => true
  | _ => false

/-- Where a deadline is exposed, some worker is awake or going to be woken. -/
structure Vigilant (s : State) : Prop where
  counted : Counted s
  timers : TimersOk s
  round : ∀ wk ∈ s.workers, wk.pc.inRound = true → wk.idleTerm = false
  alert : Exposed s.shared.timers s.workers → s.Alert

theorem noSleptDeadline_of_vigilant {s : State} (h : Vigilant s) : NoSleptDeadline s := by
  rintro ⟨wk, hwk, timeout, hpc⟩
  have hsleeps : ∃ wk ∈ s.workers, wk.pc.sleeps = true := ⟨wk, hwk, by rw [hpc]; rfl⟩
  have hcount : 0 < s.shared.idleThreadCount := by
    rw [h.counted.idle, List.countP_pos_iff]
    exact ⟨wk, hwk, by rw [hpc]; rfl⟩
  cases hit : s.shared.timers.timers.head? with
  | none => exact Or.inl (Or.inl (List.head?_eq_none_iff.mp hit))
  | some it =>
      by_cases hcover : ∃ wk ∈ s.workers, ∃ t ∈ wk.pc.wakeTime,
          t ≤ (s.shared.timers.next it).toNat
      · obtain ⟨z, hz, t, ht, hle⟩ := hcover
        refine Or.inl (Or.inr ⟨z, hz, t, ht, fun u hu => hle.trans ?_⟩)
        exact UInt64.le_iff_toNat_le.mp (TimerManager.next_head_le h.timers.sorted hit u hu)
      · have hexposed : Exposed s.shared.timers s.workers := by
          refine ⟨hsleeps, Or.inr ⟨it, List.mem_of_mem_head? hit, fun z hz t ht => ?_⟩⟩
          by_contra hle
          exact hcover ⟨z, hz, t, ht, not_lt.mp hle⟩
        refine Or.inr ((h.alert hexposed).imp id (Or.imp (fun htickles => ?_) id))
        rcases htickles with ⟨x, hx, ht | hw⟩ | ⟨x, hx, ht | hw⟩
        · exact Or.inr ⟨Or.inl ⟨x, hx, ht⟩, hcount⟩
        · exact Or.inl (Or.inl ⟨x, hx, hw⟩)
        · exact Or.inr ⟨Or.inr ⟨x, hx, ht⟩, hcount⟩
        · exact Or.inl (Or.inr ⟨x, hx, hw⟩)

end Invariant

section Scan

variable {fibers : Nat → FiberState} {w : Nat}

/-- Where no fiber executes, only the last task is taken without a `tickle`. -/
theorem takesQuietly_iff {queue : List FiberAndThread}
    (h : ∀ ft ∈ queue, executing fibers ft.task = false) :
    takesQuietly fibers w queue = true ↔ ∃ ft, queue = [ft] ∧ forOther w ft = false := by
  constructor
  · intro hquiet
    unfold takesQuietly at hquiet
    split at hquiet
    · rename_i r hscan
      obtain ⟨task, left⟩ := r
      obtain ⟨pre, ft, post, hqueue, -, -, hmay, hpre, htickle⟩ := scan_some hscan
      obtain ⟨hany, hempty⟩ := Bool.or_eq_false_iff.mp htickle.symm
      obtain rfl : pre = [] := by
        refine List.eq_nil_iff_forall_not_mem.mpr fun x hx => hpre x hx ⟨?_, h x ?_⟩
        · simpa using List.any_eq_false.mp hany x hx
        · rw [hqueue]
          exact List.mem_append_left _ hx
      obtain rfl : post = [] := by simpa using hempty
      exact ⟨ft, hqueue, hmay.1⟩
    · cases hquiet
  · rintro ⟨ft, rfl, hother⟩
    have hmay : MayTake fibers w ft := ⟨hother, h ft (List.mem_singleton_self ft)⟩
    rw [takesQuietly, scan_cons, if_pos hmay]
    rfl

theorem executing_cbTasks {cbs : List (Option Nat)} {ft : FiberAndThread} (h : ft ∈ cbTasks cbs) :
    executing fibers ft.task = false := by
  obtain ⟨cb, -, hcb⟩ := List.mem_filterMap.mp h
  obtain ⟨id, -, rfl⟩ := Option.map_eq_some_iff.mp hcb
  rfl

theorem executing_pushes {pc : Pc} {ft : FiberAndThread} (h : ft ∈ pc.pushes) :
    executing fibers ft.task = false := by
  cases pc with
  | callbacks cbs tickled => exact executing_cbTasks h
  | _ => cases h

/-- A worker asks unless what there is for it in the queue is one task. -/
theorem asks_iff {g : Shared} {wk : Worker} (h : g.Unhindered) :
    wk.Asks g w ↔ wk.nears = true ∨ wk.returns = true ∧
      ∀ ft, g.queue = [ft] → wk.pc.pushes = [] → forOther w ft = true := by
  have hall : ∀ ft ∈ g.queue ++ wk.pc.pushes, executing g.fibers ft.task = false := by
    intro ft hft
    exact (List.mem_append.mp hft).elim (h ft) executing_pushes
  refine or_congr_right (and_congr_right fun _ => ?_)
  rw [← Bool.not_eq_true, takesQuietly_iff hall]
  constructor
  · rintro (hempty | hnone) ft hqueue hpushes
    · rw [hempty] at hqueue
      cases hqueue
    · by_contra hother
      exact hnone ⟨ft, by rw [hqueue, hpushes]; rfl, by simpa using hother⟩
  · intro hall
    by_cases hempty : g.queue = []
    · exact Or.inl hempty
    · refine Or.inr ?_
      rintro ⟨ft, hqueue, hother⟩
      rcases List.append_eq_singleton_iff.mp hqueue with ⟨hnil, -⟩ | ⟨hone, hpushes⟩
      · exact hempty hnil
      · rw [hall ft hone hpushes] at hother
        cases hother

end Scan

section Timers

/-- The set of `m'` exposes no sleeping worker that that of the state does not. -/
structure State.NoSooner (s : State) (m' : TimerManager) : Prop where
  tickled : m'.tickled = true → s.shared.timers.tickled = true
  expects : ∀ u ∈ m'.timers, s.shared.timers.tickled = true ∨ s.Expects (m'.next u)

variable {s : State} {m' : TimerManager}

theorem expects_of_le {u : Nat} {d : UInt64} (hu : u ∈ s.shared.timers.timers)
    (hle : s.shared.timers.next u ≤ d) : s.Expects d := Or.inr (Or.inl ⟨u, hu, hle⟩)

theorem noSooner_of_same (h : s.shared.timers.SameDeadlines m')
    (htickled : m'.tickled = true → s.shared.timers.tickled = true) : s.NoSooner m' := by
  refine ⟨htickled, fun u hu => Or.inr ?_⟩
  obtain ⟨hmem, hnext⟩ := h u hu
  exact expects_of_le hmem (hnext.symm ▸ UInt64.le_refl _)

theorem noSooner_refl (s : State) : s.NoSooner s.shared.timers :=
  noSooner_of_same (fun _ hu => ⟨hu, rfl⟩) id

theorem exposed_of_noSooner {workers : List Worker} (h : Exposed m' workers) (hm : s.NoSooner m')
    (hsleeps : (∃ wk ∈ workers, wk.pc.sleeps = true) → ∃ wk ∈ s.workers, wk.pc.sleeps = true)
    (htime : ∀ wk ∈ s.workers, ∀ t ∈ wk.pc.wakeTime,
      ∃ wk' ∈ workers, ∃ t' ∈ wk'.pc.wakeTime, t' ≤ t) :
    Exposed s.shared.timers s.workers := by
  obtain ⟨hsome, hopen⟩ := h
  refine ⟨hsleeps hsome, ?_⟩
  rcases hopen with htickled | ⟨u, hu, hmissed⟩
  · exact Or.inl (hm.tickled htickled)
  · rcases hm.expects u hu with htickled | hnone | ⟨x, hx, hle⟩ | ⟨wk, hwk, t, ht, hle⟩
    · exact Or.inl htickled
    · obtain ⟨wk, hwk, hsleep⟩ := hsleeps hsome
      rw [hnone wk hwk] at hsleep
      cases hsleep
    · refine Or.inr ⟨x, hx, fun wk hwk t ht => ?_⟩
      obtain ⟨wk', hwk', t', ht', hle'⟩ := htime wk hwk t ht
      have hlt := hmissed wk' hwk' t' ht'
      have hnext := UInt64.le_iff_toNat_le.mp hle
      omega
    · obtain ⟨wk', hwk', t', ht', hle'⟩ := htime wk hwk t ht
      have hlt := hmissed wk' hwk' t' ht'
      omega

theorem noSooner_begin {l : Label} {op : Op} {g : Shared} {calls : List Call} (h : TimersOk s)
    (hl : ∀ t, op = .refresh t → s.refreshes l = if t ∈ s.shared.timers.timers then some t else none)
    (hC : DeadlineHeard s l) (hbegin : s.shared.begin op = some (g, calls)) :
    s.NoSooner g.timers := by
  cases op with
  | newFiber | stop =>
      cases hbegin
      exact noSooner_refl s
  | schedule | addEvent | delEvent | cancelEvent =>
      simp only [Shared.begin] at hbegin
      split at hbegin <;> cases hbegin
      exact noSooner_refl s
  | cancelAll i =>
      rw [(trigger_timers hbegin).1]
      exact noSooner_refl s
  | addTimer t ms cb recurring =>
      simp only [Shared.begin] at hbegin
      split at hbegin
      · cases hbegin
      · rename_i hfresh
        cases hbegin
        refine noSooner_of_same (TimerManager.sameDeadlines_newTimer (fun hmem => ?_) _ _ _ _) id
        exact h.alive_mem hmem (by simpa using hfresh)
  | cancel t =>
      cases hbegin
      refine noSooner_of_same (TimerManager.sameDeadlines_cancel h.sorted t) fun htickled => ?_
      rwa [TimerManager.tickled_cancel] at htickled
  | refresh t =>
      cases hbegin
      refine ⟨fun htickled => ?_, fun u hu => Or.inr ?_⟩
      · rwa [TimerManager.tickled_refresh] at htickled
      · rcases TimerManager.deadlines_refresh h.sorted t s.shared.now u hu with
          ⟨hmem, hnext⟩ | ⟨timer, htimer, ht, hnext⟩
        · exact expects_of_le hmem (hnext.symm ▸ UInt64.le_refl _)
        · rw [hnext]
          exact hC.refresh t ((hl t rfl).trans (if_pos ht)) timer htimer
  | reset t ms fromNow =>
      cases hbegin
      refine noSooner_of_same (TimerManager.sameDeadlines_reset h.sorted t ms fromNow _) ?_
      exact fun h => (TimerManager.tickled_reset s.shared.timers t ms fromNow _).symm.trans h
  | getNextTimer =>
      cases hbegin
      rw [TimerManager.getNextTimer_fst]
      exact noSooner_of_same (fun _ hu => ⟨hu, rfl⟩) fun htickled => by cases htickled
  | listExpiredCb cur =>
      simp only [Shared.begin] at hbegin
      split at hbegin
      · cases hbegin
      · split at hbegin <;> cases hbegin
        · exact noSooner_refl s
        · exact noSooner_of_same (TimerManager.sameDeadlines_takeExpired _ _ _) id

/-- What is put back comes behind others, as far as the condition has it. -/
theorem noSooner_putBack {expired : List Nat} {cur : UInt64}
    (h : ∀ ex ∈ expired, ∀ timer ∈ s.shared.timers.heap ex, timer.recurring = true →
      s.Expects (cur + timer.ms)) : s.NoSooner (s.shared.timers.putBack cur expired).1 := by
  refine ⟨fun htickled => ?_, fun u hu => Or.inr ?_⟩
  · rwa [TimerManager.tickled_putBack] at htickled
  · rcases TimerManager.deadlines_putBack cur expired _ u hu with
      ⟨hmem, hnext⟩ | ⟨ex, hex, timer, htimer, hrec, hnext⟩
    · exact expects_of_le hmem (hnext.symm ▸ UInt64.le_refl _)
    · rw [hnext]
      exact h ex hex timer htimer hrec

/-- Where `addTimer` wakes nobody, somebody is on the way already or the timer is not the first. -/
theorem noSooner_insert {t : Nat} (h : (s.shared.timers.addTimer t).2 = false) :
    s.NoSooner (s.shared.timers.addTimer t).1 := by
  obtain ⟨htickled, hfront⟩ := TimerManager.addTimer_not_front h
  refine ⟨fun h => htickled ▸ h, fun u hu => ?_⟩
  rw [TimerManager.next_congr (TimerManager.heap_addTimer _ t)]
  rcases TimerManager.mem_addTimer hu with rfl | hmem
  · exact hfront.imp id fun ⟨x, hx, hle⟩ => expects_of_le hx hle
  · exact Or.inr (expects_of_le hmem (UInt64.le_refl _))

end Timers

section Steps

variable {s t : State} {l : Label} {w : Nat} {wk wk' : Worker} {c : Choice} {g : Shared}

/-- The worker comes on in a round, and its place tells no less of the deadlines. -/
structure Worker.Follows (wk wk' : Worker) : Prop where
  sleeps : wk'.pc.sleeps = true → wk.pc.sleeps = true
  wakeTime : ∀ t ∈ wk.pc.wakeTime, ∃ t' ∈ wk'.pc.wakeTime, t' ≤ t
  nears : wk.nears = true → wk'.nears = true
  returns : wk.returns = true → wk'.returns = true
  pushes : wk'.pc.pushes = [] → wk.pc.pushes = []

theorem follows_of_pc (hpc : wk'.pc = wk.pc) (hterm : wk'.idleTerm = wk.idleTerm) :
    wk.Follows wk' := by
  refine ⟨fun h => hpc ▸ h, fun t ht => ⟨t, hpc ▸ ht, Nat.le_refl t⟩, fun h => ?_, fun h => ?_,
    fun h => hpc ▸ h⟩
  · rwa [Worker.nears, hpc, hterm]
  · rwa [Worker.returns, hpc, hterm]

/-- What a worker asks it asks still when the queue is as it was, or longer. -/
theorem asks_of_longer {g g' : Shared} {more : List FiberAndThread} (h : wk.Asks g w)
    (hun : g.Unhindered) (hun' : g'.Unhindered) (hqueue : g'.queue = g.queue ++ more)
    (hmore : g.queue = [] → more = []) : wk.Asks g' w := by
  rw [asks_iff hun] at h
  rw [asks_iff hun']
  refine h.imp id (And.imp id fun hall ft hft => ?_)
  rw [hqueue] at hft
  rcases List.append_eq_singleton_iff.mp hft with ⟨hnil, hone⟩ | ⟨hone, -⟩
  · rw [hmore hnil] at hone
    cases hone
  · exact hall ft hone

theorem asks_of_follows {g : Shared} (hf : wk.Follows wk') (hun : g.Unhindered)
    (h : wk.Asks g w) : wk'.Asks g w := by
  rw [asks_iff hun] at h ⊢
  exact h.imp hf.nears (And.imp hf.returns fun hall ft hft hpushes =>
    hall ft hft (hf.pushes hpushes))

theorem not_tickles_nil : ¬ Tickles [] := by
  rintro (h | h) <;> cases h

theorem alert_of_tickles (hwk : s.workers[w]? = some wk) (h : Tickles wk'.calls) :
    State.Alert { s with shared := g, workers := s.workers.set w wk' } :=
  Or.inr (Or.inl (Or.inl ((exists_mem_set_iff hwk wk').mpr (Or.inl h))))

theorem alert_of_asks (hwk : s.workers[w]? = some wk) (h : wk'.Asks g w) :
    State.Alert { s with shared := g, workers := s.workers.set w wk' } :=
  Or.inr (Or.inr (Or.inl ((exists_getElem?_set_iff hwk wk').mpr (Or.inl h))))

theorem count_returns (hwk : s.workers[w]? = some wk) (h : 2 ≤ s.workers.countP Worker.returns)
    (hret : wk.returns = true → wk'.returns = true) :
    2 ≤ (s.workers.set w wk').countP Worker.returns := by
  have hcount := countP_set_add Worker.returns wk' hwk
  cases hr : wk.returns with
  | true =>
      rw [hr, hret hr] at hcount
      omega
  | false =>
      rw [hr] at hcount
      simp only [Bool.toNat_false] at hcount
      omega

/-- What has been put into the queue is behind something, or there is a `tickle` to come. -/
theorem longer_of_pushed {g g' : Shared} {task : Option Task} {calls : List Call}
    (h : g.Pushed g' task calls) :
    (∃ more, g'.queue = g.queue ++ more ∧ (g.queue = [] → more = [])) ∨ .tickle ∈ calls := by
  rcases h with hqueue | ⟨t, thread, -, hqueue, htickle⟩
  · exact Or.inl ⟨[], by rw [hqueue, List.append_nil], fun _ => rfl⟩
  · by_cases hempty : g.queue = []
    · exact Or.inr (htickle hempty)
    · exact Or.inl ⟨[⟨t, thread⟩], hqueue, fun h => absurd h hempty⟩

theorem exposed_of_set {m' : TimerManager} (hwk : s.workers[w]? = some wk)
    (hsleeps : wk'.pc.sleeps = true → wk.pc.sleeps = true)
    (htime : ∀ t ∈ wk.pc.wakeTime, ∃ t' ∈ wk'.pc.wakeTime, t' ≤ t) (hm : s.NoSooner m')
    (h : Exposed m' (s.workers.set w wk')) : Exposed s.shared.timers s.workers := by
  refine exposed_of_noSooner h hm (fun hsome => ?_) fun x hx t ht => ?_
  · rw [exists_mem_iff hwk]
    exact ((exists_mem_set_iff hwk wk').mp hsome).imp_left hsleeps
  · have hcover : ∃ z ∈ s.workers, ∃ t' ∈ z.pc.wakeTime, t' ≤ t := ⟨x, hx, t, ht, Nat.le_refl t⟩
    refine (exists_mem_set_iff hwk wk').mpr (((exists_mem_iff hwk).mp hcover).imp_left ?_)
    rintro ⟨t', ht', hle⟩
    obtain ⟨t'', ht'', hle'⟩ := htime t' ht'
    exact ⟨t'', ht'', hle'.trans hle⟩

/-- Whoever was awake or going to be woken is so still, as far as it was not the worker that moved. -/
theorem alert_of_alert (hwk : s.workers[w]? = some wk) (h : s.Alert)
    (hpipe : s.shared.pipe ≤ g.pipe) (hcalls : Tickles wk.calls → Tickles wk'.calls)
    (hself : wk.Asks s.shared w → wk'.Asks g w)
    (hothers : ∀ j (z : Worker), z.Asks s.shared j → z.Asks g j)
    (hret : 2 ≤ s.workers.countP Worker.returns →
      State.Alert { s with shared := g, workers := s.workers.set w wk' }) :
    State.Alert { s with shared := g, workers := s.workers.set w wk' } := by
  rcases h with hbyte | (htickles | hold) | hasks | hcount
  · exact Or.inl (lt_of_lt_of_le hbyte hpipe)
  · refine Or.inr (Or.inl (Or.inl ((exists_mem_set_iff hwk wk').mpr ?_)))
    exact ((exists_mem_iff hwk).mp htickles).imp_left hcalls
  · exact Or.inr (Or.inl (Or.inr hold))
  · refine Or.inr (Or.inr (Or.inl ((exists_getElem?_set_iff hwk wk').mpr ?_)))
    refine ((exists_getElem?_iff hwk).mp hasks).imp hself ?_
    rintro ⟨j, z, hj, hz, hasks⟩
    exact ⟨j, z, hj, hz, hothers j z hasks⟩
  · exact hret hcount

/-- A worker goes on to a place that tells no less of the deadlines. -/
theorem alert_of_follows {task : Option Task} (h : Vigilant s) (hC : DeadlineHeard s l)
    (hwk : s.workers[w]? = some wk) (hf : wk.Follows wk') (hpipe : s.shared.pipe ≤ g.pipe)
    (hcalls : Tickles wk.calls → Tickles wk'.calls) (hpushed : s.shared.Pushed g task wk'.calls)
    (hm : s.NoSooner g.timers)
    (hun : Exposed s.shared.timers s.workers → s.shared.Unhindered → g.Unhindered) :
    Exposed g.timers (s.workers.set w wk') →
      State.Alert { s with shared := g, workers := s.workers.set w wk' } := by
  intro hexposed
  have hbefore := exposed_of_set hwk hf.sleeps hf.wakeTime hm hexposed
  have hfree := hC.unhindered hbefore
  have hfree' := hun hbefore hfree
  rcases longer_of_pushed hpushed with ⟨more, hqueue, hmore⟩ | htickle
  · have hkept : ∀ j (z : Worker), z.Asks s.shared j → z.Asks g j :=
      fun j z hasks => asks_of_longer hasks hfree hfree' hqueue hmore
    exact alert_of_alert hwk (h.alert hbefore) hpipe hcalls
      (fun hself => hkept w wk' (asks_of_follows hf hfree hself)) hkept
      fun hcount => Or.inr (Or.inr (Or.inr (count_returns hwk hcount hf.returns)))
  · exact alert_of_tickles hwk (Or.inl htickle)

/-- The same for a thread that is no worker. -/
theorem alert_of_others {task : Option Task} {calls : List Call} {others : List (List Call)}
    (h : Vigilant s) (hC : DeadlineHeard s l) (hpipe : s.shared.pipe ≤ g.pipe)
    (hothers : (∃ calls ∈ s.others, Tickles calls) → ∃ calls ∈ others, Tickles calls)
    (hnew : .tickle ∈ calls → ∃ calls ∈ others, Tickles calls)
    (hpushed : s.shared.Pushed g task calls) (hm : s.NoSooner g.timers)
    (hun : Exposed s.shared.timers s.workers → s.shared.Unhindered → g.Unhindered) :
    Exposed g.timers s.workers → State.Alert { s with shared := g, others := others } := by
  intro hexposed
  have hbefore := exposed_of_noSooner hexposed hm id fun x hx t ht => ⟨x, hx, t, ht, Nat.le_refl t⟩
  have hfree := hC.unhindered hbefore
  have hfree' := hun hbefore hfree
  rcases longer_of_pushed hpushed with ⟨more, hqueue, hmore⟩ | htickle
  · rcases h.alert hbefore with hbyte | (htickles | hold) | ⟨j, z, hz, hasks⟩ | hcount
    · exact Or.inl (lt_of_lt_of_le hbyte hpipe)
    · exact Or.inr (Or.inl (Or.inl htickles))
    · exact Or.inr (Or.inl (Or.inr (hothers hold)))
    · exact Or.inr (Or.inr (Or.inl ⟨j, z, hz, asks_of_longer hasks hfree hfree' hqueue hmore⟩))
    · exact Or.inr (Or.inr (Or.inr hcount))
  · exact Or.inr (Or.inl (Or.inr (hnew htickle)))

/-- The queue keeps free of executing fibers with a task that does not execute. -/
theorem unhindered_of_pushed {task : Option Task} {calls : List Call}
    (hpushed : s.shared.Pushed g task calls) (hfibers : g.fibers = s.shared.fibers)
    (htask : ∀ t, task = some t → executing s.shared.fibers t = false)
    (h : s.shared.Unhindered) : g.Unhindered := by
  intro ft hft
  rw [hfibers]
  exact (mem_of_pushed hpushed hft).elim (h ft) (htask ft.task)

theorem unhindered_setFiber {f : Nat} {st : FiberState} (h : s.shared.Unhindered)
    (hst : st ≠ .exec ∨ ∀ ft ∈ s.shared.queue, ft.task ≠ .fiber f) :
    (s.shared.setFiber f st).Unhindered := by
  intro ft hft
  have hbefore := h ft hft
  cases htask : ft.task with
  | cb id => rfl
  | fiber f' =>
      rw [htask] at hbefore
      simp only [executing, decide_eq_false_iff_not, fibers_setFiber] at hbefore ⊢
      split
      · rename_i heq
        subst heq
        exact hst.resolve_right fun hno => hno ft hft htask
      · exact hbefore

/-- Worker `w` has just come out of its wait, or has emptied the pipe, and does not leave the others
asleep. -/
theorem alert_of_spares {pipe : Nat} {m : TimerManager} (hwk : s.workers[w]? = some wk)
    (hspares : s.Spares w pipe m) (hcalls : wk.calls = []) (hret : wk'.returns = true)
    (hpushes : wk'.pc.pushes = []) (hsleeps : wk'.pc.sleeps = false)
    (hqueue : g.queue = s.shared.queue) (hfibers : g.fibers = s.shared.fibers)
    (hpipe : pipe ≤ g.pipe) (hexposed : Exposed m (s.workers.set w wk')) :
    State.Alert { s with shared := g, workers := s.workers.set w wk' } := by
  have hothers : Exposed m (s.workers.eraseIdx w) := by
    obtain ⟨hsome, hopen⟩ := hexposed
    refine ⟨?_, hopen.imp id fun ⟨u, hu, hmissed⟩ => ⟨u, hu, fun x hx => hmissed x ?_⟩⟩
    · rcases (exists_mem_set_iff hwk wk').mp hsome with hself | helse
      · rw [hsleeps] at hself
        cases hself
      · exact elsewhere_iff.mp helse
    · obtain ⟨j, hj, hx⟩ := List.mem_eraseIdx_iff_getElem?.mp hx
      refine List.mem_of_getElem? (i := j) ?_
      rw [getElem?_set_of_some hwk, if_neg hj]
      exact hx
  by_cases hswallows : s.Swallows w
  · rcases hspares hswallows with hbyte | hno
    · exact Or.inl (lt_of_lt_of_le hbyte hpipe)
    · exact absurd hothers hno
  · by_cases hquiet : takesQuietly s.shared.fibers w s.shared.queue = true
    · by_cases htickles : s.SomeoneTickles
      · refine Or.inr (Or.inl (htickles.imp (fun hworkers => ?_) id))
        refine (exists_mem_set_iff hwk wk').mpr (((exists_mem_iff hwk).mp hworkers).imp_left ?_)
        rw [hcalls]
        rintro (hno | hno) <;> cases hno
      · obtain ⟨z, hz, hawake⟩ : ∃ z ∈ s.workers.eraseIdx w,
            ¬ (z.returns = false ∧ z.nears = false) := by
          by_contra hno
          refine hswallows ⟨hquiet, htickles, fun z hz => ?_⟩
          by_contra hawake
          exact hno ⟨z, hz, hawake⟩
        obtain ⟨j, hj, hz⟩ := List.mem_eraseIdx_iff_getElem?.mp hz
        cases hnears : z.nears with
        | true =>
            refine Or.inr (Or.inr (Or.inl ((exists_getElem?_set_iff hwk wk').mpr ?_)))
            exact Or.inr ⟨j, z, hj, hz, Or.inl hnears⟩
        | false =>
            have hreturns : z.returns = true := by
              by_contra hno
              exact hawake ⟨by simpa using hno, hnears⟩
            refine Or.inr (Or.inr (Or.inr ?_))
            have hpos : 0 < (s.workers.eraseIdx w).countP Worker.returns :=
              List.countP_pos_iff.mpr
                ⟨z, List.mem_eraseIdx_iff_getElem?.mpr ⟨j, hj, hz⟩, hreturns⟩
            have hcount := countP_set_eraseIdx Worker.returns hwk wk'
            rw [hret] at hcount
            simp only [Bool.toNat_true] at hcount
            show 2 ≤ (s.workers.set w wk').countP Worker.returns
            omega
    · refine alert_of_asks hwk (Or.inr ⟨hret, Or.inr ?_⟩)
      rw [hpushes, List.append_nil, hqueue, hfibers]
      simpa using hquiet

theorem idles_of_sleeps {pc : Pc} (h : pc.sleeps = true) : pc.idles = true := by
  cases pc <;> first | rfl | cases h

theorem idle_of_exposed {m : TimerManager} (h : Counted s) (hexposed : Exposed m s.workers) :
    0 < s.shared.idleThreadCount := by
  obtain ⟨⟨wk, hwk, hsleeps⟩, -⟩ := hexposed
  rw [h.idle, List.countP_pos_iff]
  exact ⟨wk, hwk, idles_of_sleeps hsleeps⟩

/-- A section of a call leaves a `tickle` to come, or a byte, or exposes no further deadline. -/
theorem goOn_cases {call : Call} (hC : DeadlineHeard s l) (hcall : s.callOf l = some call)
    (hschedules : s.schedules l = call.schedules) :
    call = .write ∨ Tickles (s.shared.goOn .ioManager call).2 ∨
      (call = .tickle ∧ s.shared.idleThreadCount = 0) ∨
      call ≠ .tickle ∧ call ≠ .write ∧ s.NoSooner (s.shared.goOn .ioManager call).1.timers ∧
        (Exposed s.shared.timers s.workers → s.shared.Unhindered →
          (s.shared.goOn .ioManager call).1.Unhindered) := by
  cases call with
  | write => exact Or.inl rfl
  | tickle =>
      by_cases hidle : s.shared.idleThreadCount = 0
      · exact Or.inr (Or.inr (Or.inl ⟨rfl, hidle⟩))
      · refine Or.inr (Or.inl (Or.inr ?_))
        simp only [Shared.goOn, if_neg hidle]
        exact List.mem_singleton_self _
  | insert t =>
      cases hfront : (s.shared.timers.addTimer t).2 with
      | true => exact Or.inr (Or.inl (Or.inl (mem_tickleIf.mpr ⟨hfront, rfl⟩)))
      | false =>
          exact Or.inr (Or.inr (Or.inr ⟨by simp, by simp, noSooner_insert hfront, fun _ h => h⟩))
  | putBack expired cur =>
      have hputs : s.putsBack l = some (expired, cur) := by
        rw [State.putsBack, hcall]
      exact Or.inr (Or.inr (Or.inr ⟨by simp, by simp, noSooner_putBack (hC.putBack _ hputs),
        fun _ h => h⟩))
  | schedule task =>
      refine Or.inr (Or.inr (Or.inr ⟨by simp, by simp, noSooner_refl s, fun hexposed h => ?_⟩))
      refine unhindered_of_pushed (scheduleNoLock_pushed s.shared (some task) none) rfl ?_ h
      exact fun t ht => hC.schedules hexposed t (hschedules.trans ht)
  | decPending | setStopping =>
      exact Or.inr (Or.inr (Or.inr ⟨by simp, by simp, noSooner_refl s, fun _ h => h⟩))

theorem alert_call {pc : Pc} {call : Call} {calls : List Call} {cbf : Option Nat} {term : Bool}
    (h : Vigilant s) (hC : DeadlineHeard s (.worker w .go))
    (hwk : s.workers[w]? = some ⟨pc, call :: calls, cbf, term⟩) :
    Exposed (s.shared.goOn .ioManager call).1.timers
        (s.workers.set w ⟨pc, (s.shared.goOn .ioManager call).2 ++ calls, cbf, term⟩) →
      State.Alert { s with
        shared := (s.shared.goOn .ioManager call).1
        workers := s.workers.set w ⟨pc, (s.shared.goOn .ioManager call).2 ++ calls, cbf, term⟩ } := by
  intro hexposed
  have hcall : s.callOf (.worker w .go) = some call := callOf_worker hwk
  have hf : Worker.Follows ⟨pc, call :: calls, cbf, term⟩
      ⟨pc, (s.shared.goOn .ioManager call).2 ++ calls, cbf, term⟩ := follows_of_pc rfl rfl
  have hschedules : s.schedules (.worker w .go) = call.schedules := by
    show (s.callOf (.worker w .go)).bind Call.schedules = _
    rw [hcall]
    rfl
  rcases goOn_cases hC hcall hschedules with rfl | htickles | ⟨rfl, hidle⟩ | ⟨hne, hwrite, hm, hun⟩
  · exact Or.inl (Nat.succ_pos _)
  · refine alert_of_tickles hwk (htickles.imp ?_ ?_) <;> exact List.mem_append_left _
  · have hbefore := exposed_of_set hwk hf.sleeps hf.wakeTime (noSooner_refl s) hexposed
    have hpos := idle_of_exposed h.counted hbefore
    omega
  · obtain ⟨hkeeps, hpushed⟩ := goOn_spec .ioManager s.shared hwrite
    have hpushed' : s.shared.Pushed (s.shared.goOn .ioManager call).1 call.schedules
        ((s.shared.goOn .ioManager call).2 ++ calls) :=
      hpushed.imp id fun ⟨t, thread, ht, hq, htickle⟩ =>
        ⟨t, thread, ht, hq, fun hempty => List.mem_append_left _ (htickle hempty)⟩
    exact alert_of_follows h hC hwk hf hkeeps.pipe.ge (tickles_goOn s.shared hne hwrite) hpushed' hm
      hun hexposed

theorem alert_goOn {i : Nat} {call : Call} {calls : List Call} (h : Vigilant s)
    (hC : DeadlineHeard s (.goOn i)) (hi : s.others[i]? = some (call :: calls)) :
    Exposed (s.shared.goOn .ioManager call).1.timers s.workers →
      State.Alert { s with
        shared := (s.shared.goOn .ioManager call).1
        others := s.others.set i ((s.shared.goOn .ioManager call).2 ++ calls) } := by
  intro hexposed
  have hcall : s.callOf (.goOn i) = some call := callOf_goOn hi
  have hschedules : s.schedules (.goOn i) = call.schedules := by
    show (s.callOf (.goOn i)).bind Call.schedules = _
    rw [hcall]
    rfl
  have hset : ∀ new, Tickles new → ∃ x ∈ s.others.set i new, Tickles x :=
    fun new hnew => (exists_mem_set_iff hi new).mpr (Or.inl hnew)
  rcases goOn_cases hC hcall hschedules with rfl | htickles | ⟨rfl, hidle⟩ | ⟨hne, hwrite, hm, hun⟩
  · exact Or.inl (Nat.succ_pos _)
  · refine Or.inr (Or.inl (Or.inr (hset _ (htickles.imp ?_ ?_)))) <;>
      exact List.mem_append_left _
  · have hpos := idle_of_exposed h.counted hexposed
    omega
  · obtain ⟨hkeeps, hpushed⟩ := goOn_spec .ioManager s.shared hwrite
    refine alert_of_others h hC hkeeps.pipe.ge (fun hold => ?_) (fun htickle => ?_) hpushed hm hun
      hexposed
    · refine (exists_mem_set_iff hi _).mpr (((exists_mem_iff hi).mp hold).imp_left ?_)
      exact tickles_goOn s.shared hne hwrite
    · exact hset _ (Or.inl (List.mem_append_left _ htickle))

/-- A worker that comes from one place of the loops to another. -/
theorem follows_of_places (hsleeps : wk'.pc.sleeps = true → wk.pc.sleeps = true)
    (htime : wk.pc.wakeTime = none) (hpushes : wk.pc.pushes = [])
    (hnears : wk.pc.nears = true → wk'.pc.nears = true)
    (hreturns : wk.pc.returns = true → wk'.pc.returns = true) (hterm : wk'.idleTerm = wk.idleTerm) :
    wk.Follows wk' := by
  refine ⟨hsleeps, fun t ht => ?_, fun h => ?_, fun h => ?_, fun _ => hpushes⟩
  · rw [htime] at ht
    cases ht
  · obtain ⟨hpc, hno⟩ := Bool.and_eq_true_iff.mp h
    rw [Worker.nears, hnears hpc, hterm, hno]
    rfl
  · obtain ⟨hpc, hno⟩ := Bool.and_eq_true_iff.mp h
    rw [Worker.returns, hreturns hpc, hterm, hno]
    rfl

/-- A worker goes on with nothing to do in calls, and the queue stays as it is. -/
theorem alert_of_plain (h : Vigilant s) (hC : DeadlineHeard s l) (hwk : s.workers[w]? = some wk)
    (hcalls : wk.calls = []) (hf : wk.Follows wk') (hqueue : g.queue = s.shared.queue)
    (hpipe : g.pipe = s.shared.pipe) (hm : s.NoSooner g.timers)
    (hun : Exposed s.shared.timers s.workers → s.shared.Unhindered → g.Unhindered) :
    Exposed g.timers (s.workers.set w wk') →
      State.Alert { s with shared := g, workers := s.workers.set w wk' } := by
  have hpushed : s.shared.Pushed g none wk'.calls := Or.inl hqueue
  exact alert_of_follows h hC hwk hf hpipe.ge (fun ht => absurd (hcalls ▸ ht) not_tickles_nil)
    hpushed hm hun

theorem toInt_of_lt {x : UInt64} (h : x.toNat < 2 ^ 31) : x.toUInt32.toInt32.toInt = x.toNat := by
  have hlow : x.toUInt32.toNat = x.toNat := by
    rw [UInt64.toNat_toUInt32]
    omega
  rw [UInt32.toInt32, Int32.toInt, Int32.toBitVec, BitVec.toInt_eq_toNat_of_lt]
  · exact congrArg _ hlow
  · show 2 * x.toUInt32.toNat < 2 ^ 32
    omega

theorem epollTimeout_of_lt {x : UInt64} (h : x.toNat < 2 ^ 31) :
    (epollTimeout x).toInt = min 3000 x.toNat := by
  have hx := toInt_of_lt h
  have hmax : (3000 : Int32).toInt = 3000 := by decide
  have hne : x ≠ ~~~0 := by
    rintro rfl
    revert h
    decide
  unfold epollTimeout
  rw [if_pos hne]
  split
  · rename_i hlt
    rw [Int32.lt_iff_toInt_lt] at hlt
    omega
  · rename_i hlt
    rw [Int32.lt_iff_toInt_lt] at hlt
    omega

/-- A worker that is told of a deadline ahead blocks at most until then. -/
theorem sleep_of_lt {asked x : UInt64} (hpos : 0 < x.toNat) (h : x.toNat < 2 ^ 31) :
    Pc.sleep asked x = .waiting (some (asked.toNat + min 3000 x.toNat)) := by
  have htimeout := epollTimeout_of_lt h
  have hzero : (0 : Int32).toInt = 0 := by decide
  unfold Pc.sleep
  dsimp only
  rw [if_neg, if_neg, htimeout]
  · congr 2
  · intro heq
    rw [heq] at htimeout
    omega
  · rw [Int32.lt_iff_toInt_lt]
    omega

theorem statement_of_go {pc : Pc} {cbf : Option Nat} {term : Bool}
    (hwk : s.workers[w]? = some ⟨pc, [], cbf, term⟩) : s.statement (.worker w c) = some pc := by
  rw [State.statement, hwk]
  rfl

/-- Behind `getNextTimer` a worker blocks at most until the first deadline, or it looks for expired
timers. -/
theorem alert_asked {pc : Pc} {cbf : Option Nat} {term : Bool} (h : Vigilant s)
    (hC : DeadlineHeard s (.worker w .go)) (hshort : ShortDelays s (.worker w .go))
    (hwk : s.workers[w]? = some ⟨.nextTimer, [], cbf, term⟩)
    (hpc : pc = if (s.shared.timers.getNextTimer s.shared.now).2 = ~~~0
      then .pendingEvents s.shared.now
      else .sleep s.shared.now (s.shared.timers.getNextTimer s.shared.now).2) :
    Exposed (s.shared.timers.getNextTimer s.shared.now).1
        (s.workers.set w ⟨pc, [], cbf, term⟩) →
      State.Alert { s with
        shared := { s.shared with timers := (s.shared.timers.getNextTimer s.shared.now).1 }
        workers := s.workers.set w ⟨pc, [], cbf, term⟩ } := by
  intro hexposed
  have hstatement := statement_of_go (c := .go) hwk
  have hterm : term = false := h.round _ (List.mem_of_getElem? hwk) rfl
  rw [TimerManager.getNextTimer_fst] at hexposed
  cases hit : s.shared.timers.timers with
  | nil =>
      obtain ⟨-, htickled | ⟨u, hu, -⟩⟩ := hexposed
      · cases htickled
      · rw [show ({ s.shared.timers with tickled := false } : TimerManager).timers = [] from hit] at hu
        cases hu
  | cons it rest =>
      have hhead : s.shared.timers.timers.head? = some it := by rw [hit]; rfl
      have hnext : (s.shared.timers.getNextTimer s.shared.now).2 =
          if s.shared.now < s.shared.timers.next it
          then s.shared.timers.next it - s.shared.now else 0 := by
        unfold TimerManager.getNextTimer
        rw [hit]
        rfl
      by_cases hlt : s.shared.now < s.shared.timers.next it
      · have hdelay := hshort hstatement it hhead hlt
        have hsub := UInt64.toNat_sub_of_le _ _ (UInt64.le_of_lt hlt)
        have hlt' := UInt64.lt_iff_toNat_lt.mp hlt
        rw [if_pos hlt] at hnext
        have hne : s.shared.timers.next it - s.shared.now ≠ ~~~0 := by
          intro heq
          rw [heq] at hdelay
          revert hdelay
          decide
        rw [hnext, if_neg hne, sleep_of_lt (by omega) hdelay] at hpc
        obtain ⟨-, htickled | ⟨u, hu, hmissed⟩⟩ := hexposed
        · cases htickled
        · have hmem : (⟨pc, [], cbf, term⟩ : Worker) ∈ s.workers.set w ⟨pc, [], cbf, term⟩ :=
            List.mem_of_getElem? (i := w) (by rw [getElem?_set_of_some hwk, if_pos rfl])
          have hlater := hmissed _ hmem _ (by rw [hpc]; rfl)
          have hfirst := UInt64.le_iff_toNat_le.mp
            (TimerManager.next_head_le h.timers.sorted hhead u hu)
          have hsame : ({ s.shared.timers with tickled := false } : TimerManager).next u =
              s.shared.timers.next u := rfl
          rw [hsame] at hlater
          omega
      · rw [if_neg hlt] at hnext
        have hzero : pc = .polling := by
          rw [hpc, hnext]
          rfl
        have hpolls : s.polls (.worker w .go) = some w := by
          refine if_pos ⟨hstatement, it, hhead, ?_⟩
          exact UInt64.not_lt.mp hlt
        subst hzero hterm
        exact alert_of_spares hwk (hC.poll w hpolls) rfl rfl rfl rfl rfl rfl le_rfl hexposed

/-- The last task is gone, and whoever else is on the way to the scan finds none. -/
theorem alert_take {task : Task} {rest : List FiberAndThread} {tickleMe : Bool}
    {cbf : Option Nat} {term : Bool} (h : Vigilant s) (hC : DeadlineHeard s l)
    (hwk : s.workers[w]? = some ⟨.scan, [], cbf, term⟩)
    (hscan : scan s.shared.fibers w s.shared.queue = (some (task, rest), tickleMe)) :
    Exposed s.shared.timers (s.workers.set w ⟨.start task, tickleIf tickleMe, cbf, term⟩) →
      State.Alert { s with
        shared := { s.shared with
          queue := rest
          activeThreadCount := s.shared.activeThreadCount + 1 }
        workers := s.workers.set w ⟨.start task, tickleIf tickleMe, cbf, term⟩ } := by
  intro hexposed
  cases tickleMe with
  | true => exact alert_of_tickles hwk (Or.inl (mem_tickleIf.mpr ⟨rfl, rfl⟩))
  | false =>
      have hbefore := exposed_of_set hwk (fun hno => by cases hno) (fun t ht => by cases ht)
        (noSooner_refl s) hexposed
      have hfree := hC.unhindered hbefore
      have hquiet : takesQuietly s.shared.fibers w s.shared.queue = true := by
        rw [takesQuietly, hscan]
      obtain ⟨ft, hone, hother⟩ := (takesQuietly_iff hfree).mp hquiet
      obtain rfl : rest = [] := by
        obtain ⟨pre, x, post, hqueue, hrest, -⟩ := scan_some hscan
        rcases List.append_eq_singleton_iff.mp (hqueue.symm.trans hone) with
          ⟨rfl, hpost⟩ | ⟨-, hpost⟩
        · obtain rfl : post = [] := (List.cons.inj hpost).2
          exact hrest
        · cases hpost
      refine alert_of_alert hwk (h.alert hbefore) le_rfl (absurd · not_tickles_nil)
        (fun hself => ?_) (fun j z hz => hz.imp id fun hr => ⟨hr.1, Or.inl rfl⟩) fun hcount => ?_
      · rcases (asks_iff hfree).mp hself with hno | ⟨-, hall⟩
        · cases hno
        · rw [hall ft hone rfl] at hother
          cases hother
      · have hset := countP_set_add Worker.returns ⟨.start task, [], cbf, term⟩ hwk
        have hle : (Worker.returns ⟨.scan, [], cbf, term⟩).toNat ≤ 1 := Bool.toNat_le _
        have hpos : 0 < (s.workers.set w ⟨.start task, [], cbf, term⟩).countP Worker.returns := by
          omega
        obtain ⟨z, hz, hreturns⟩ := List.countP_pos_iff.mp hpos
        obtain ⟨j, hj⟩ := List.mem_iff_getElem?.mp hz
        exact Or.inr (Or.inr (Or.inl ⟨j, z, hj, Or.inr ⟨hreturns, Or.inl rfl⟩⟩))

/-- A worker whose scan has taken nothing asks for the next deadline, unless its idle fiber is over. -/
theorem alert_nothing {tickleMe : Bool} {cbf : Option Nat} {term : Bool} (h : Vigilant s)
    (hC : DeadlineHeard s l) (hwk : s.workers[w]? = some ⟨.scan, [], cbf, term⟩) :
    Exposed s.shared.timers (s.workers.set w ⟨.idleTest, tickleIf tickleMe, cbf, term⟩) →
      State.Alert { s with
        workers := s.workers.set w ⟨.idleTest, tickleIf tickleMe, cbf, term⟩ } := by
  intro hexposed
  cases term with
  | false => exact alert_of_asks (g := s.shared) hwk (Or.inl rfl)
  | true =>
      have hf : Worker.Follows ⟨.scan, [], cbf, true⟩ ⟨.idleTest, tickleIf tickleMe, cbf, true⟩ :=
        ⟨id, nofun, nofun, nofun, id⟩
      have hpushed : s.shared.Pushed s.shared none (tickleIf tickleMe) := Or.inl rfl
      exact alert_of_follows h hC hwk hf le_rfl (absurd · not_tickles_nil) hpushed (noSooner_refl s)
        (fun _ h => h) hexposed

/-- A recurring timer is put back behind others, or its callback keeps the worker awake. -/
theorem alert_putBack {expired : List Nat} {cur : UInt64} {tickled : Bool} {cbf : Option Nat}
    {term : Bool} (h : Vigilant s) (hC : DeadlineHeard s (.worker w .go))
    (hwk : s.workers[w]? = some ⟨.expired expired cur tickled, [], cbf, term⟩) :
    Exposed (s.shared.timers.putBack cur expired).1 (s.workers.set w
        ⟨.callbacks (s.shared.timers.putBack cur expired).2 tickled, [], cbf, term⟩) →
      State.Alert { s with
        shared := { s.shared with timers := (s.shared.timers.putBack cur expired).1 }
        workers := s.workers.set w
          ⟨.callbacks (s.shared.timers.putBack cur expired).2 tickled, [], cbf, term⟩ } := by
  have hterm : term = false := h.round _ (List.mem_of_getElem? hwk) rfl
  have hputs : s.idlePutsBack (.worker w .go) = some (expired, cur) := by
    rw [State.idlePutsBack, statement_of_go hwk]
  by_cases hbehind : ∀ ex ∈ expired, ∀ timer ∈ s.shared.timers.heap ex, timer.recurring = true →
      s.Expects (cur + timer.ms)
  · exact alert_of_plain (g := { s.shared with timers := (s.shared.timers.putBack cur expired).1 })
      h hC hwk rfl (follows_of_places id rfl rfl nofun (fun _ => rfl) rfl) rfl rfl
      (noSooner_putBack hbehind) fun _ h => h
  · intro _
    simp only [not_forall] at hbehind
    obtain ⟨ex, hex, timer, htimer, hrec, hsooner⟩ := hbehind
    obtain ⟨hcb, hfree⟩ := (hC.idlePutBack _ hputs ex hex timer htimer hrec).resolve_left hsooner
    obtain ⟨id, hid⟩ := Option.isSome_iff_exists.mp hcb
    have hmem := TimerManager.cb_mem_putBack cur expired s.shared.timers ex hex timer htimer
    rw [hid] at hmem
    have hpush : (⟨.cb id, none⟩ : FiberAndThread) ∈
        cbTasks (s.shared.timers.putBack cur expired).2 :=
      List.mem_filterMap.mpr ⟨some id, hmem, rfl⟩
    subst hterm
    refine alert_of_asks hwk ((asks_iff hfree).mpr (Or.inr ⟨rfl, fun ft _ hnone => ?_⟩))
    rw [show cbTasks (s.shared.timers.putBack cur expired).2 = [] from hnone] at hpush
    cases hpush

theorem alert_scheduleAll {cbs : List (Option Nat)} {tickled : Bool} {cbf : Option Nat}
    {term : Bool} (h : Vigilant s) (hC : DeadlineHeard s l)
    (hwk : s.workers[w]? = some ⟨.callbacks cbs tickled, [], cbf, term⟩) :
    Exposed (s.shared.scheduleAll cbs).1.timers (s.workers.set w
        ⟨.events tickled, tickleIf (s.shared.scheduleAll cbs).2, cbf, term⟩) →
      State.Alert { s with
        shared := (s.shared.scheduleAll cbs).1
        workers := s.workers.set w
          ⟨.events tickled, tickleIf (s.shared.scheduleAll cbs).2, cbf, term⟩ } := by
  intro hexposed
  obtain ⟨hkeeps, hqueue, htickle⟩ := scheduleAll_spec cbs s.shared
  by_cases hwoken : s.shared.queue = [] ∧ cbs ≠ []
  · have hneed := htickle hwoken.1 hwoken.2
    exact alert_of_tickles hwk (Or.inl (mem_tickleIf.mpr ⟨hneed, rfl⟩))
  · have hmore : s.shared.queue = [] → cbTasks cbs = [] := by
      intro hempty
      have hnone : cbs = [] := by
        by_contra hsome
        exact hwoken ⟨hempty, hsome⟩
      rw [hnone]
      rfl
    rw [scheduleAll_timers] at hexposed
    have hbefore := exposed_of_set hwk (fun hno => by cases hno) (fun t ht => by cases ht)
      (noSooner_refl s) hexposed
    have hfree := hC.unhindered hbefore
    have hfree' : (s.shared.scheduleAll cbs).1.Unhindered := by
      intro ft hft
      rw [hqueue] at hft
      rw [hkeeps.fibers]
      exact (List.mem_append.mp hft).elim (hfree ft) executing_cbTasks
    refine alert_of_alert hwk (h.alert hbefore) hkeeps.pipe.ge (absurd · not_tickles_nil)
      (fun hself => ?_) (fun j z hz => asks_of_longer hz hfree hfree' hqueue hmore)
      fun hcount => Or.inr (Or.inr (Or.inr (count_returns hwk hcount id)))
    rw [asks_iff hfree] at hself
    rw [asks_iff hfree']
    refine hself.imp id (And.imp id fun hall ft hft _ => ?_)
    rw [hqueue] at hft
    rcases List.append_eq_singleton_iff.mp hft with ⟨hnil, hone⟩ | ⟨hone, hpushes⟩
    · rw [hmore hnil] at hone
      cases hone
    · exact hall ft hone hpushes

theorem alert_worker (h : Vigilant s) (hshort : ShortDelays s (.worker w c))
    (hC : DeadlineHeard s (.worker w c)) (hwk : s.workers[w]? = some wk)
    (hmoves : Moves .ioManager s.shared w wk c g wk') :
    Exposed g.timers (s.workers.set w wk') →
      State.Alert { s with shared := g, workers := s.workers.set w wk' } := by
  have hkept := noSooner_refl s
  have hno {P : Prop} (hfalse : false = true) : P := absurd hfalse Bool.false_ne_true
  cases hmoves with
  | call => exact alert_call h hC hwk
  | take task rest tickleMe cbf term hscan => exact alert_take h hC hwk hscan
  | nothing => exact alert_nothing h hC hwk
  | startFiber | startNew =>
      exact alert_of_plain h hC hwk rfl (follows_of_places id rfl rfl id hno rfl) rfl rfl hkept
        fun _ h => h
  | startEnded =>
      exact alert_of_plain h hC hwk rfl (follows_of_places id rfl rfl id hno rfl) rfl rfl hkept
        fun _ h => h
  | startReset =>
      exact alert_of_plain h hC hwk rfl (follows_of_places id rfl rfl id hno rfl) rfl rfl hkept
        fun _ h => unhindered_setFiber h (Or.inl (by decide))
  | drop | ran | handled | switchOut | polled | listNone =>
      exact alert_of_plain h hC hwk rfl (follows_of_places id rfl rfl id id rfl) rfl rfl hkept
        fun _ h => h
  | swapIn f cb =>
      have hstarts : s.startsExec (.worker w .go) = some f := by
        simp only [State.startsExec, statement_of_go hwk]
      exact alert_of_plain h hC hwk rfl (follows_of_places id rfl rfl id hno rfl) rfl rfl hkept
        fun hexposed h => unhindered_setFiber h (Or.inr (hC.startsExec hexposed f hstarts))
  | settleReady f cb cbf term hready =>
      refine alert_of_follows h hC hwk (follows_of_places id rfl rfl id id rfl) le_rfl
        (absurd · not_tickles_nil) (scheduleNoLock_pushed s.shared (some (.fiber f)) none) hkept
        fun _ h => ?_
      refine unhindered_of_pushed (scheduleNoLock_pushed s.shared _ none) rfl (fun t ht => ?_) h
      cases ht
      simp [executing, hready]
  | settleEnded f cb =>
      cases cb with
      | true =>
          exact alert_of_plain h hC hwk rfl (follows_of_places id rfl rfl id id rfl) rfl rfl hkept
            fun _ h => unhindered_setFiber h (Or.inl (by decide))
      | false =>
          exact alert_of_plain h hC hwk rfl (follows_of_places id rfl rfl id id rfl) rfl rfl hkept
            fun _ h => h
  | settleHold =>
      exact alert_of_plain h hC hwk rfl (follows_of_places id rfl rfl id id rfl) rfl rfl hkept
        fun _ h => unhindered_setFiber h (Or.inl (by decide))
  | exit =>
      exact alert_of_plain h hC hwk rfl ⟨id, fun _ ht => absurd ht (Option.not_mem_none _), hno, hno, id⟩ rfl rfl hkept fun _ h => h
  | idleTest | countManager =>
      exact alert_of_plain h hC hwk rfl (follows_of_places id rfl rfl id id rfl) rfl rfl hkept
        fun _ h => h
  | countScheduler cbf term hkind => cases hkind
  | yields asked cbf term hstops hkind => cases hkind
  | noTimer cbf term hnone => exact alert_asked h hC hshort hwk (if_pos hnone).symm
  | nextTimer cbf term hsome => exact alert_asked h hC hshort hwk (if_neg hsome).symm
  | noPending | pending | waits =>
      exact alert_of_plain h hC hwk rfl (follows_of_places id rfl rfl id id rfl) rfl rfl hkept
        fun _ h => h
  | stops =>
      exact alert_of_plain h hC hwk rfl ⟨hno, fun _ ht => absurd ht (Option.not_mem_none _), hno, hno, id⟩ rfl rfl hkept fun _ h => h
  | putBack => exact alert_putBack h hC hwk
  | scheduleAll => exact alert_scheduleAll h hC hwk
  | op f cb op g calls cbf term hkind hbegin =>
      obtain ⟨hkeeps, hpushed⟩ := begin_spec hbegin
      refine alert_of_follows h hC hwk (follows_of_places id rfl rfl id id rfl) hkeeps.pipe.ge
        (absurd · not_tickles_nil) hpushed (noSooner_begin h.timers (fun t ht => by rw [ht]; rfl) hC hbegin)
        fun hexposed h => ?_
      exact unhindered_of_pushed hpushed hkeeps.fibers
        (fun t ht => hC.schedules hexposed t ht) h
  | leave f cb act =>
      refine alert_of_plain h hC hwk rfl (follows_of_places id rfl rfl id hno rfl) ?_ ?_ ?_ ?_
      · cases act <;> rfl
      · cases act <;> rfl
      · cases act <;> exact hkept
      · cases act <;> intro _ h <;>
          first | exact h | exact unhindered_setFiber h (Or.inl (by decide))
  | wake timeout tickled cbf term =>
      have hterm : term = false := h.round _ (List.mem_of_getElem? hwk) rfl
      have hwakes : s.wakes (.worker w (.wake tickled)) = some w := by
        rw [State.wakes, statement_of_go hwk]
        rfl
      subst hterm
      exact alert_of_spares hwk (hC.wake w hwakes) rfl rfl rfl rfl rfl rfl le_rfl
  | list tickled cur cbf term hfresh =>
      have hm : s.NoSooner (s.shared.timers.takeExpired s.shared.now cur).1 :=
        noSooner_of_same (TimerManager.sameDeadlines_takeExpired _ _ _) id
      rcases pc_of_list (s.shared.timers.takeExpired s.shared.now cur).2 s.shared.now tickled with
        hpc | hpc <;> rw [hpc] <;>
        exact alert_of_plain (g := { s.shared with timers := _ }) h hC hwk rfl
          (follows_of_places id rfl rfl id id rfl) rfl rfl hm fun _ h => h
  | drain cbf term =>
      have hterm : term = false := h.round _ (List.mem_of_getElem? hwk) rfl
      subst hterm
      exact alert_of_spares hwk (hC.drain w rfl) rfl rfl rfl rfl rfl rfl le_rfl
  | trigger tickled i g calls cbf term htrigger =>
      obtain ⟨hkeeps, hpushed⟩ := trigger_spec htrigger
      have htimers := (trigger_timers htrigger).1
      refine alert_of_follows h hC hwk (follows_of_places id rfl rfl id id rfl) hkeeps.pipe.ge
        (absurd · not_tickles_nil) hpushed (htimers ▸ hkept) fun hexposed h => ?_
      exact unhindered_of_pushed hpushed hkeeps.fibers
        (fun t ht => hC.schedules hexposed t ht) h

/-- In a round the idle fiber is not over. -/
theorem round_moves (hmoves : Moves .ioManager s.shared w wk c g wk')
    (h : wk.pc.inRound = true → wk.idleTerm = false) :
    wk'.pc.inRound = true → wk'.idleTerm = false := by
  cases hmoves with
  | call => exact h
  | idleTest => exact fun _ => rfl
  | countScheduler cbf term hkind => cases hkind
  | countManager | noTimer | nextTimer | noPending | pending | waits | putBack | scheduleAll | wake
  | polled | listNone | list | drain | trigger => exact fun _ => h rfl
  | _ => exact nofun

/-- One step within the condition. -/
theorem vigilant_step (h : Vigilant s) (hC : ShortDelays s l ∧ DeadlineHeard s l)
    (hstep : step .ioManager s l = some t) : Vigilant t := by
  have hcounted := counted_step h.counted hstep
  have htimers := timersOk_step h.timers hstep
  obtain ⟨hshort, hC⟩ := hC
  cases l with
  | worker w c =>
      obtain ⟨wk, g, wk', hwk, hmoves, rfl⟩ := step_worker hstep
      have hround := round_moves hmoves (h.round wk (List.mem_of_getElem? hwk))
      exact ⟨hcounted, htimers, forall_mem_set hround h.round, alert_worker h hshort hC hwk hmoves⟩
  | outside op =>
      obtain ⟨g, calls, -, hbegin, rfl⟩ := step_outside hstep
      obtain ⟨hkeeps, hpushed⟩ := begin_spec hbegin
      refine ⟨hcounted, htimers, h.round, ?_⟩
      refine alert_of_others (s := s) (l := .outside op) h hC hkeeps.pipe.ge
        (fun ⟨x, hx, hold⟩ => ⟨x, List.mem_append_left _ hx, hold⟩)
        (fun htickle => ⟨calls, List.mem_append_right _ (List.mem_singleton_self _), Or.inl htickle⟩)
        hpushed (noSooner_begin h.timers (fun t ht => by rw [ht]; rfl) hC hbegin)
        fun hexposed h => ?_
      exact unhindered_of_pushed hpushed hkeeps.fibers
        (fun t ht => hC.schedules hexposed t ht) h
  | goOn i =>
      obtain ⟨call, calls, hi, rfl⟩ := step_goOn hstep
      exact ⟨hcounted, htimers, h.round, alert_goOn h hC hi⟩
  | tick now =>
      obtain ⟨-, rfl⟩ := step_tick hstep
      exact ⟨hcounted, htimers, h.round, h.alert⟩
  | foreign f st =>
      obtain ⟨-, rfl⟩ := step_foreign hstep
      refine ⟨hcounted, htimers, h.round, fun hexposed => ?_⟩
      have hfree := hC.unhindered hexposed
      have hfree' : (s.shared.setFiber f st).Unhindered := by
        refine unhindered_setFiber hfree ?_
        by_cases hst : st = .exec
        · subst hst
          exact Or.inr (hC.startsExec hexposed f rfl)
        · exact Or.inl hst
      refine (h.alert hexposed).imp id (Or.imp id (Or.imp ?_ id))
      rintro ⟨j, z, hz, hasks⟩
      exact ⟨j, z, hz, asks_of_longer hasks hfree hfree' (List.append_nil _).symm fun _ => rfl⟩

end Steps

theorem vigilant_init (threadCount : Nat) (useCaller : Bool) (fibers : Nat → FiberState)
    (count : Nat) (now : UInt64) : Vigilant (init threadCount useCaller fibers count now) := by
  refine ⟨counted_init threadCount useCaller fibers count now,
    timersOk_init threadCount useCaller fibers count now, fun wk hwk => ?_, ?_⟩
  · rw [(List.mem_replicate.mp hwk).2]
    exact nofun
  · rintro ⟨⟨wk, hwk, hsleeps⟩, -⟩
    rw [(List.mem_replicate.mp hwk).2] at hsleeps
    cases hsleeps

/-- While no byte is swallowed by a worker that goes on to a task, and no timer gets past `addTimer` to
the front, no deadline is slept through. -/
theorem noSleptDeadline_of_heard (threadCount : Nat) (useCaller : Bool) (fibers : Nat → FiberState)
    (count : Nat) (now : UInt64) (ls : List Label)
    (hC : StepsMeet (step .ioManager) (fun s l => ShortDelays s l ∧ DeadlineHeard s l)
      (init threadCount useCaller fibers count now) ls) :
    StatesMeet (step .ioManager) NoSleptDeadline
      (init threadCount useCaller fibers count now) ls :=
  statesMeet_of_invariant (fun _ h => noSleptDeadline_of_vigilant h)
    (fun _ _ _ h hC hstep => vigilant_step h hC hstep) ls _
    (vigilant_init threadCount useCaller fibers count now) hC

/-- Two workers go idle and block. A timer is added; its byte wakes the second worker, which empties the
pipe and blocks again until the deadline. -/
def timerRun : List Label :=
  (List.range 2).flatMap (fun w => List.replicate 6 (.worker w .go)) ++
    [.outside (.addTimer 0 100 (some 5) false), .goOn 0, .goOn 0, .goOn 0, .worker 1 (.wake true),
      .worker 1 (.list 99), .worker 1 .drain] ++ List.replicate 6 (.worker 1 .go)

theorem noSleptDeadline_timerRun :
    ((run (step .ioManager) (init 2 false (fun _ => .init) 0 1) timerRun).map fun s =>
      s.workers.map Worker.pc) = some [.waiting (some 3001), .waiting (some 101)] ∧
    StatesMeet (step .ioManager) NoSleptDeadline (init 2 false (fun _ => .init) 0 1) timerRun :=
  ⟨by decide,
    noSleptDeadline_of_heard 2 false (fun _ => .init) 0 1 timerRun (by decide)⟩

/-- The second worker waits for the deadline; a callback is scheduled and wakes this very worker, which
goes on to run it while the first sleeps on. -/
def swallowedRun : List Label :=
  timerRun ++ [.outside (.schedule (some (.cb 7)) none), .goOn 1, .goOn 1, .worker 1 (.wake true),
    .worker 1 (.list 99), .worker 1 .drain] ++ List.replicate 5 (.worker 1 .go)

theorem deadline_slept :
    ¬ ∀ threadCount useCaller fibers count now ls,
      StepsMeet (step .ioManager) ShortDelays (init threadCount useCaller fibers count now) ls →
        StatesMeet (step .ioManager) NoSleptDeadline
          (init threadCount useCaller fibers count now) ls := by
  intro h
  have hend := statesMeet_run swallowedRun _
    ((run (step .ioManager) (init 2 false (fun _ => .init) 0 1) swallowedRun).get
      (by decide)) (h 2 false (fun _ => .init) 0 1 swallowedRun (by decide))
    (Option.some_get _).symm
  rcases hend ⟨⟨.waiting (some 3001), [], none, false⟩, by decide, some 3001, rfl⟩ with
    (hnone | hcover) | hpipe | hdue | ⟨j, z, hz, hasks⟩ | hcount
  · revert hnone
    decide
  · revert hcover
    decide
  · revert hpipe
    decide
  · revert hdue
    decide
  · have hall : ∀ j < 2, ∀ z ∈ ((run (step .ioManager) (init 2 false (fun _ => .init) 0 1)
        swallowedRun).get (by decide)).workers[j]?, ¬ z.Asks ((run (step .ioManager)
          (init 2 false (fun _ => .init) 0 1) swallowedRun).get (by decide)).shared j := by
      decide
    have hlen : j < 2 := (List.getElem?_eq_some_iff.mp hz).1
    exact hall j hlen z hz hasks
  · revert hcount
    decide

end Workers

end Saturn
