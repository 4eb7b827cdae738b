import Saturn.Misc.Ledger
import Saturn.Misc.Run
import Saturn.Scheduler.WorkerSteps

/-!
# What becomes of a task

The way of a task through the scheduler: `schedule` puts it at the end of `m_fibers`, one worker takes
it out in its scan and counts itself active, and counts itself off when it is done with it. The record
of a run has what was put, what was taken by whom, and how many were done with.
-/

namespace Saturn

namespace Workers

open Scheduler (FiberState Task FiberAndThread)

/-- What the call puts into the queue, with the thread it is for. -/
def Op.items (g : Shared) : Op → List FiberAndThread
  | .schedule task thread => (task.map (FiberAndThread.mk · thread)).toList
  | .cancelAll i => (g.events[i]?.map (FiberAndThread.mk · none)).toList
  | _ => []

/-- The entries that a call puts into the queue. -/
def Call.items : Call → List FiberAndThread
  | .schedule task => [⟨task, none⟩]
  | _ => []

namespace Worker

/-- What the worker's next step puts into the queue. -/
def adds (g : Shared) (wk : Worker) : Choice → List FiberAndThread
  | .go =>
      match wk.calls with
      | call :: _ => call.items
      | [] =>
          match wk.pc with
          | .settle f _ => if g.fibers f = .ready then [⟨.fiber f, none⟩] else []
          | .callbacks cbs _ => cbTasks cbs
          | _ => []
  | .call op => op.items g
  | .trigger i => (g.events[i]?.map (FiberAndThread.mk · none)).toList
  | _ => []

/-- What the worker's next step takes out of it: the first task that the worker may take. -/
def takes (g : Shared) (w : Nat) (wk : Worker) : Choice → Option FiberAndThread
  | .go =>
      if wk.calls = [] ∧ wk.pc = .scan then
        g.queue.find? fun ft => decide (MayTake g.fibers w ft)
      else none
  | _ => none

/-- The worker's next step is the `--m_activeThreadCount` behind a task. -/
def ends (wk : Worker) : Choice → Bool
  | .go =>
      match wk.calls, wk.pc with
      | [], .drop | [], .ran _ _ => true
      | _, _ => false
  | _ => false

end Worker

namespace State

/-- The entries that a step puts into the queue. -/
def adds (s : State) : Label → List FiberAndThread
  | .worker w c => (s.workers[w]?.map fun wk => wk.adds s.shared c).getD []
  | .outside op => op.items s.shared
  | .goOn i => ((s.callOf (.goOn i)).map Call.items).getD []
  | _ => []

/-- The entry that a step takes, and the worker that does. -/
def takes (s : State) : Label → Option (Nat × FiberAndThread)
  | .worker w c => (s.workers[w]?.bind fun wk => wk.takes s.shared w c).map (w, ·)
  | _ => none

/-- The step ends a task. -/
def ends (s : State) : Label → Bool
  | .worker w c => s.workers[w]?.any fun wk => wk.ends c
  | _ => false

end State

/-- A state with what has become of the tasks up to it; `ended` counts those done with. -/
structure Recorded where
  state : State
  ledger : Ledger FiberAndThread Nat
  ended : Nat

/-- The step function, with the history. -/
def Recorded.step (kind : Kind) (r : Recorded) (l : Label) : Option Recorded :=
  (Workers.step kind r.state l).map fun t =>
    ⟨t, r.ledger.record (r.state.takes l) (r.state.adds l), r.ended + (r.state.ends l).toNat⟩

/-- A callback for the thread, or for any. -/
def callbackFor (thread : Option Nat) (ft : FiberAndThread) : Bool :=
  match ft.task with
  | .cb _ => ft.thread == thread
  | .fiber _ => false

/-- A worker takes no task that is for another thread. -/
def MayRun (w : Nat) (ft : FiberAndThread) : Prop := ft.thread = none ∨ ft.thread = some w

/-- The tasks are accounted for, callbacks are taken in the order of their scheduling, and the counters
say how many workers have a task and how many are idle. -/
structure Accounted (r : Recorded) : Prop where
  balances : r.ledger.Balances MayRun r.state.shared.queue
  inOrder : ∀ thread, r.ledger.InOrder (callbackFor thread) r.state.shared.queue
  counted : Counted r.state
  ended : r.ended + r.state.shared.activeThreadCount = r.ledger.taken.length

section Sections

variable {kind : Kind} {g g' : Shared} {w : Nat} {wk wk' : Worker} {c : Choice}

theorem mayRun_of_mayTake {fibers : Nat → FiberState} {ft : FiberAndThread}
    (h : MayTake fibers w ft) : MayRun w ft := by
  obtain ⟨hother, -⟩ := h
  by_contra hno
  obtain ⟨hnone, hsome⟩ := not_or.mp hno
  simp [forOther, hnone, hsome] at hother

/-- Of two callbacks for one thread a worker may take both or none. -/
theorem mayTake_of_callbackFor {fibers : Nat → FiberState} {thread : Option Nat}
    {x y : FiberAndThread} (hx : callbackFor thread x = true) (hy : callbackFor thread y = true)
    (h : MayTake fibers w x) : MayTake fibers w y := by
  obtain ⟨xtask, xthread⟩ := x
  obtain ⟨ytask, ythread⟩ := y
  cases xtask with
  | fiber f => cases hx
  | cb i =>
      cases ytask with
      | fiber f => cases hy
      | cb j =>
          have hthread : xthread = ythread := (beq_iff_eq.mp hx).trans (beq_iff_eq.mp hy).symm
          subst hthread
          exact ⟨h.1, rfl⟩

theorem trigger_queue {i : Nat} {calls : List Call} (h : g.trigger i = some (g', calls)) :
    g'.queue = g.queue ++ (g.events[i]?.map (FiberAndThread.mk · none)).toList := by
  unfold Shared.trigger at h
  split at h
  · cases h
  · rename_i task htask
    cases h
    rw [htask]

theorem begin_queue {op : Op} {calls : List Call} (h : g.begin op = some (g', calls)) :
    g'.queue = g.queue ++ op.items g := by
  cases op with
  | schedule task thread =>
      simp only [Shared.begin] at h
      split at h
      · cases h
        rfl
      · cases h
  | cancelAll i => exact trigger_queue h
  | newFiber | cancel | refresh | reset | getNextTimer | stop =>
      simp only [Shared.begin, Option.some.injEq] at h
      cases h
      exact (List.append_nil _).symm
  | addTimer | addEvent | delEvent | cancelEvent =>
      simp only [Shared.begin] at h
      split at h <;> cases h
      exact (List.append_nil _).symm
  | listExpiredCb cur =>
      simp only [Shared.begin] at h
      split at h
      · cases h
      · split at h <;> cases h <;> exact (List.append_nil _).symm

theorem goOn_queue (kind : Kind) (g : Shared) (call : Call) :
    (g.goOn kind call).1.queue = g.queue ++ call.items := by
  cases call with
  | schedule task => rfl
  | tickle => cases kind <;> exact (List.append_nil _).symm
  | write | insert | putBack | decPending | setStopping => exact (List.append_nil _).symm

theorem takes_of_scan {task : Task} {rest : List FiberAndThread} {tickleMe : Bool}
    (hscan : scan g.fibers w g.queue = (some (task, rest), tickleMe)) (cbf : Option Nat) (term : Bool) :
    ∃ pre ft post, Worker.takes g w ⟨.scan, [], cbf, term⟩ .go = some ft ∧
      g.queue = pre ++ ft :: post ∧ rest = pre ++ post ∧ MayTake g.fibers w ft ∧
        ∀ x ∈ pre, ¬ MayTake g.fibers w x := by
  obtain ⟨pre, ft, post, hqueue, hrest, -, hmay, hpre, -⟩ := scan_some hscan
  refine ⟨pre, ft, post, ?_, hqueue, hrest, hmay, hpre⟩
  rw [Worker.takes, if_pos ⟨rfl, rfl⟩, hqueue, List.find?_eq_some_iff_append]
  exact ⟨by simpa using hmay, pre, post, rfl, by simpa using hpre⟩

theorem takes_of_scan_none {tickleMe : Bool} (hscan : scan g.fibers w g.queue = (none, tickleMe))
    (cbf : Option Nat) (term : Bool) : Worker.takes g w ⟨.scan, [], cbf, term⟩ .go = none := by
  rw [Worker.takes, if_pos ⟨rfl, rfl⟩, List.find?_eq_none]
  intro ft hft
  simpa using (scan_none hscan).1 ft hft

theorem takes_of_calls (pc : Pc) (call : Call) (calls : List Call) (cbf : Option Nat) (term : Bool) :
    Worker.takes g w ⟨pc, call :: calls, cbf, term⟩ .go = none := by
  rw [Worker.takes, if_neg fun hnil => by cases hnil.1]

theorem adds_of_settle (f : Nat) (cb : Bool) (cbf : Option Nat) (term : Bool) :
    Worker.adds g ⟨.settle f cb, [], cbf, term⟩ .go =
      if g.fibers f = .ready then [⟨.fiber f, none⟩] else [] := rfl

/-- A step of a worker takes the first task that it may take, or puts its tasks at the end. -/
theorem queue_of_moves (h : Moves kind g w wk c g' wk') :
    (wk.takes g w c = none ∧ g'.queue = g.queue ++ wk.adds g c) ∨
      ∃ pre ft post, wk.takes g w c = some ft ∧ wk.adds g c = [] ∧ g.queue = pre ++ ft :: post ∧
        g'.queue = pre ++ post ∧ MayTake g.fibers w ft ∧ ∀ x ∈ pre, ¬ MayTake g.fibers w x := by
  cases h with
  | take task rest tickleMe cbf term hscan =>
      obtain ⟨pre, ft, post, htakes, hqueue, hrest, hmay, hpre⟩ := takes_of_scan hscan cbf term
      exact Or.inr ⟨pre, ft, post, htakes, rfl, hqueue, hrest, hmay, hpre⟩
  | nothing tickleMe cbf term hscan =>
      exact Or.inl ⟨takes_of_scan_none hscan cbf term, (List.append_nil _).symm⟩
  | call pc call calls cbf term =>
      exact Or.inl ⟨takes_of_calls pc call calls cbf term, goOn_queue kind g call⟩
  | settleReady f cb cbf term hready =>
      refine Or.inl ⟨rfl, ?_⟩
      rw [adds_of_settle, if_pos hready]
      rfl
  | settleEnded f cb cbf term hend =>
      refine Or.inl ⟨rfl, ?_⟩
      have hready : g.fibers f ≠ .ready := by
        intro hready
        rw [hready] at hend
        rcases hend with hterm | hexcept
        · cases hterm
        · cases hexcept
      rw [adds_of_settle, if_neg hready]
      cases cb <;> exact (List.append_nil _).symm
  | settleHold f cb cbf term hready hend =>
      refine Or.inl ⟨rfl, ?_⟩
      rw [adds_of_settle, if_neg hready]
      exact (List.append_nil _).symm
  | scheduleAll cbs => exact Or.inl ⟨rfl, (scheduleAll_spec cbs g).2.1⟩
  | op f cb op g' calls cbf term hkind hbegin => exact Or.inl ⟨rfl, begin_queue hbegin⟩
  | trigger tickled i g' calls cbf term htrigger => exact Or.inl ⟨rfl, trigger_queue htrigger⟩
  | leave f cb act => cases act <;> exact Or.inl ⟨rfl, (List.append_nil _).symm⟩
  | _ => exact Or.inl ⟨rfl, (List.append_nil _).symm⟩

/-- A worker counts itself active when it takes a task, and off when it is done with it. -/
theorem active_of_moves (h : Moves kind g w wk c g' wk') :
    (wk.takes g w c).toList.length + wk.pc.active.toNat =
      (wk.ends c).toNat + wk'.pc.active.toNat := by
  cases h with
  | take task rest tickleMe cbf term hscan =>
      obtain ⟨pre, ft, post, htakes, -⟩ := takes_of_scan hscan cbf term
      rw [htakes]
      rfl
  | nothing tickleMe cbf term hscan => rw [takes_of_scan_none hscan cbf term]; rfl
  | call pc call calls cbf term => rw [takes_of_calls pc call calls cbf term]; rfl
  | list tickled cur =>
      rcases pc_of_list (g.timers.takeExpired g.now cur).2 g.now tickled with h | h <;>
        rw [h] <;> rfl
  | nextTimer => rw [active_sleep]; rfl
  | pending asked => rw [active_sleep]; rfl
  | waits asked => rw [active_sleep]; rfl
  | _ => rfl

end Sections

section Step

variable {kind : Kind} {r r' : Recorded} {s t : State} {l : Label}

/-- What a step of any thread does to the queue, and to the number of the workers with a task. -/
theorem queue_of_step (h : Counted s) (hstep : step kind s l = some t) :
    ((s.takes l = none ∧ t.shared.queue = s.shared.queue ++ s.adds l) ∨
      ∃ w pre ft post, s.takes l = some (w, ft) ∧ s.adds l = [] ∧
        s.shared.queue = pre ++ ft :: post ∧ t.shared.queue = pre ++ post ∧
        MayTake s.shared.fibers w ft ∧ ∀ x ∈ pre, ¬ MayTake s.shared.fibers w x) ∧
      (s.takes l).toList.length + s.shared.activeThreadCount =
        (s.ends l).toNat + t.shared.activeThreadCount := by
  cases l with
  | worker w c =>
      obtain ⟨wk, g, wk', hwk, hmoves, rfl⟩ := step_worker hstep
      have htakes : s.takes (.worker w c) = (wk.takes s.shared w c).map (w, ·) := by
        rw [State.takes, hwk, Option.bind_some]
      have hadds : s.adds (.worker w c) = wk.adds s.shared c := by
        rw [State.adds, hwk, Option.map_some, Option.getD_some]
      have hends : s.ends (.worker w c) = wk.ends c := by rw [State.ends, hwk, Option.any_some]
      have hactive := moves_active hmoves fun ha => by
        rw [h.active, List.countP_pos_iff]
        exact ⟨wk, List.mem_of_getElem? hwk, ha⟩
      have hcount := active_of_moves hmoves
      rw [htakes, hadds, hends, Option.toList_map, List.length_map]
      refine ⟨?_, by change _ = _ + g.activeThreadCount; omega⟩
      rcases queue_of_moves hmoves with
        ⟨hnone, hqueue⟩ | ⟨pre, ft, post, hsome, hnil, hqueue, hrest, hmay, hpre⟩
      · exact Or.inl ⟨by rw [hnone]; rfl, hqueue⟩
      · exact Or.inr ⟨w, pre, ft, post, by rw [hsome]; rfl, hnil, hqueue, hrest, hmay, hpre⟩
  | outside op =>
      obtain ⟨g, calls, -, hbegin, rfl⟩ := step_outside hstep
      exact ⟨Or.inl ⟨rfl, begin_queue hbegin⟩, by
        change 0 + _ = 0 + g.activeThreadCount
        rw [(begin_spec hbegin).1.active]⟩
  | goOn i =>
      obtain ⟨call, calls, hi, rfl⟩ := step_goOn hstep
      have hcall : s.callOf (.goOn i) = some call := callOf_goOn hi
      refine ⟨Or.inl ⟨rfl, ?_⟩, ?_⟩
      · rw [State.adds, hcall]
        exact goOn_queue kind s.shared call
      · change 0 + _ = 0 + (s.shared.goOn kind call).1.activeThreadCount
        rw [(goOn_counters kind s.shared call).2]
  | tick now =>
      obtain ⟨-, rfl⟩ := step_tick hstep
      exact ⟨Or.inl ⟨rfl, (List.append_nil _).symm⟩, rfl⟩
  | foreign f st =>
      obtain ⟨-, rfl⟩ := step_foreign hstep
      exact ⟨Or.inl ⟨rfl, (List.append_nil _).symm⟩, rfl⟩

theorem accounted_step (h : Accounted r) (hstep : r.step kind l = some r') : Accounted r' := by
  obtain ⟨t, ht, rfl⟩ := Option.map_eq_some_iff.mp hstep
  obtain ⟨hqueue, hactive⟩ := queue_of_step h.counted ht
  have hended := h.ended
  refine ⟨?_, fun thread => ?_, counted_step h.counted ht, ?_⟩
  · rcases hqueue with ⟨hnone, hqueue⟩ | ⟨w, pre, ft, post, hsome, hnil, hqueue, hrest, hmay, -⟩
    · rw [hnone, hqueue]
      exact h.balances.put _
    · have hbalances := h.balances
      rw [hqueue] at hbalances
      rw [hsome, hnil, hrest]
      exact hbalances.take (mayRun_of_mayTake hmay)
  · rcases hqueue with ⟨hnone, hqueue⟩ | ⟨w, pre, ft, post, hsome, hnil, hqueue, hrest, hmay, hpre⟩
    · rw [hnone, hqueue]
      exact (h.inOrder thread).put _
    · have hinOrder := h.inOrder thread
      rw [hqueue] at hinOrder
      rw [hsome, hnil, hrest]
      refine hinOrder.take fun hft y hy => ?_
      by_contra hno
      exact hpre y hy (mayTake_of_callbackFor hft (Bool.not_eq_false _ ▸ hno) hmay)
  · change r.ended + (r.state.ends l).toNat + t.shared.activeThreadCount = _
    simp only [Ledger.record, List.length_append]
    omega

end Step

theorem exists_step {r : Recorded} {l : Label} {t : State} (h : step kind r.state l = some t) :
    ∃ r', r.step kind l = some r' ∧ r'.state = t := by
  rw [Recorded.step, h]
  exact ⟨_, rfl, rfl⟩

/-- In every run, each task that was scheduled is still in the queue or has been taken once, by a
worker it may run on; callbacks are taken in the order of their scheduling; and the tasks taken are
those done with and those that the active workers have. -/
theorem accounted_after (kind : Kind) (threadCount : Nat) (useCaller : Bool)
    (fibers : Nat → FiberState) (count : Nat) (now : UInt64) (ls : List Label) {s : State}
    (hrun : run (step kind) (init threadCount useCaller fibers count now) ls = some s) :
    ∃ r, run (Recorded.step kind) ⟨init threadCount useCaller fibers count now, .empty, 0⟩ ls = some r ∧
      r.state = s ∧ Accounted r := by
  obtain ⟨r, hr, hstate⟩ :=
    exists_run_along Recorded.state (fun _ _ _ => exists_step) ls
      ⟨init threadCount useCaller fibers count now, .empty, 0⟩ s hrun
  have hinit : Accounted ⟨init threadCount useCaller fibers count now, .empty, 0⟩ :=
    ⟨Ledger.balances_empty, fun _ => Ledger.inOrder_empty, counted_init .., rfl⟩
  exact ⟨r, hr, hstate, run_invariant (C := fun _ _ => True)
    (fun _ _ _ h _ hstep => accounted_step h hstep) ls _ r hinit (stepsMeet_true ls _) hr⟩

/-- Two workers; a callback for the second and one for any are scheduled, the first takes the later
one, and the second the other. -/
def dispatchRun : List Label :=
  [.outside (.schedule (some (.cb 7)) (some 1)), .outside (.schedule (some (.cb 8)) none),
    .worker 0 .go, .worker 1 .go]

theorem accounted_dispatchRun :
    ((run (step .ioManager) (init 2 false (fun _ => .init) 0 1) dispatchRun).map fun s =>
      s.workers.map Worker.pc) = some [.start (.cb 8), .start (.cb 7)] ∧
    ∃ r s, run (Recorded.step .ioManager) ⟨init 2 false (fun _ => .init) 0 1, .empty, 0⟩ dispatchRun =
      some r ∧ r.state = s ∧ Accounted r :=
  ⟨by decide,
    (accounted_after .ioManager 2 false (fun _ => .init) 0 1 dispatchRun
      (Option.some_get (by decide)).symm).imp fun _ h => ⟨_, h⟩⟩

end Workers

end Saturn
