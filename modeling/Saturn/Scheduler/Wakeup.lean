import Saturn.Misc.Run
import Saturn.Scheduler.WorkerSteps

/-!
# A task that a sleeping worker could take

A worker that has found nothing in `m_fibers` does not look there again before it blocks in
`epoll_wait`. In between it is not yet in `m_idleThreadCount`, and a `tickle` that reads 0 there
writes nothing.
-/

namespace Saturn

namespace Workers

open Scheduler (FiberState Task FiberAndThread Action)
open Shared (tickleIf)

/-- Awake, and at the scan of `m_fibers` again before it blocks. -/
def Pc.scans : Pc → Bool
  | .idleTest | .countIdle | .nextTimer | .pendingEvents _ | .check _ | .waiting _ | .exited => false
  | _ => true

/-- The thread has a `tickle` ahead of it. -/
def Tickles (calls : List Call) : Prop := .tickle ∈ calls ∨ .write ∈ calls

instance (calls : List Call) : Decidable (Tickles calls) := inferInstanceAs (Decidable (_ ∨ _))

namespace State

/-- The call is ahead of some thread. -/
def Due (s : State) (call : Call) : Prop :=
  (∃ wk ∈ s.workers, call ∈ wk.calls) ∨ ∃ calls ∈ s.others, call ∈ calls

instance (s : State) (call : Call) : Decidable (s.Due call) := inferInstanceAs (Decidable (_ ∨ _))

/-- A `tickle` that has been decided is still to be executed, and will write its byte. -/
def TickleDue (s : State) : Prop :=
  s.Due .write ∨ (s.Due .tickle ∧ 0 < s.shared.idleThreadCount)

instance (s : State) : Decidable s.TickleDue := inferInstanceAs (Decidable (_ ∨ _))

end State

/-- While a worker is blocked and could take a task, there is a byte in the pipe or about to be written,
or another worker is awake and will scan the queue before it blocks. -/
def NoSleepingTask (s : State) : Prop :=
  ∀ w t, (s.workers[w]?).map Worker.pc = some (.waiting t) →
    (∃ ft ∈ s.shared.queue, MayTake s.shared.fibers w ft) →
    0 < s.shared.pipe ∨ s.TickleDue ∨
      Elsewhere s.workers w fun wk => wk.pc.scans = true

section Condition

/-- The scan has taken nothing, and the worker is going to be idle but is not counted yet. -/
def Worker.Uncounted (wk : Worker) : Prop :=
  wk.pc = .idleTest ∧ wk.idleTerm = false ∨ wk.pc = .countIdle

instance (wk : Worker) : Decidable wk.Uncounted := inferInstanceAs (Decidable (_ ∨ _))

/-- A `tickle` that finds no idle worker is not needed: the queue is empty, every worker that is done
with its scan has been counted, or some worker is on its way to one. -/
def TickleHeard (s : State) (l : Label) : Prop :=
  s.callOf l = some .tickle → s.shared.idleThreadCount = 0 →
    s.shared.queue = [] ∨ (∀ wk ∈ s.workers, ¬ wk.Uncounted) ∨ ∃ wk ∈ s.workers, wk.pc.scans = true

instance (s : State) (l : Label) : Decidable (TickleHeard s l) :=
  inferInstanceAs (Decidable (_ → _ → _))

/-- The fiber or callback that the step puts into the queue. -/
def State.schedules (s : State) : Label → Option Task
  | .worker _ (.call op) | .outside op => op.schedules s.shared
  | .worker _ (.trigger i) => s.shared.events[i]?
  | l => (s.callOf l).bind Call.schedules

/-- No fiber in the queue executes on a thread that is not a worker. -/
def OwnFibers (s : State) (l : Label) : Prop :=
  (∀ f ∈ (s.schedules l).bind fun task =>
      match task with | .fiber f => some f | .cb _ => none,
    s.shared.fibers f = .exec → ∃ wk ∈ s.workers, wk.pc.holds = some f) ∧
  match l with
  | .foreign f .exec => ∀ ft ∈ s.shared.queue, ft.task ≠ .fiber f
  | _ => True

instance (s : State) (l : Label) : Decidable (OwnFibers s l) := by
  unfold OwnFibers
  cases l with
  | foreign f st => cases st <;> infer_instance
  | _ => infer_instance

end Condition

/-- Past its scan: the worker blocks before it scans the queue again, unless it ends. -/
def Worker.PastScan (wk : Worker) : Prop :=
  wk.Uncounted ∨ (wk.pc.idles = true ∧ wk.pc.scans = false)

namespace State

/-- Some worker will scan the queue. -/
def Roused (s : State) : Prop :=
  0 < s.shared.pipe ∨ ((∃ wk ∈ s.workers, Tickles wk.calls) ∨ ∃ calls ∈ s.others, Tickles calls) ∨
    ∃ wk ∈ s.workers, wk.pc.scans = true

end State

/-- Where there is a task and a worker past its scan, some worker will scan the queue; and a fiber in
the queue that executes does so on a worker. -/
structure Wakeful (s : State) : Prop where
  counted : Counted s
  held : ∀ ft ∈ s.shared.queue, ∀ f, ft.task = .fiber f → s.shared.fibers f = .exec →
    ∃ wk ∈ s.workers, wk.pc.holds = some f
  roused : s.shared.queue ≠ [] → (∃ wk ∈ s.workers, wk.PastScan) → s.Roused

theorem noSleepingTask_of_wakeful {s : State} (h : Wakeful s) : NoSleepingTask s := by
  rintro w t hw ⟨ft, hft, -⟩
  obtain ⟨wk, hwk, hpc⟩ := Option.map_eq_some_iff.mp hw
  have hmem : wk ∈ s.workers := List.mem_of_getElem? hwk
  have hcount : 0 < s.shared.idleThreadCount := by
    rw [h.counted.idle, List.countP_pos_iff]
    exact ⟨wk, hmem, by rw [hpc]; rfl⟩
  have hpast : wk.PastScan := Or.inr (by rw [hpc]; exact ⟨rfl, rfl⟩)
  rcases h.roused (List.ne_nil_of_mem hft) ⟨wk, hmem, hpast⟩ with hpipe | htickle | hscans
  · exact Or.inl hpipe
  · refine Or.inr (Or.inl ?_)
    rcases htickle with ⟨x, hx, ht | hw⟩ | ⟨x, hx, ht | hw⟩
    · exact Or.inr ⟨Or.inl ⟨x, hx, ht⟩, hcount⟩
    · exact Or.inl (Or.inl ⟨x, hx, hw⟩)
    · exact Or.inr ⟨Or.inr ⟨x, hx, ht⟩, hcount⟩
    · exact Or.inl (Or.inr ⟨x, hx, hw⟩)
  · rcases (exists_mem_iff hwk).mp hscans with hself | helse
    · rw [hpc] at hself
      cases hself
    · exact Or.inr (Or.inr helse)

section Sections

variable {kind : Kind} {s : State} {w : Nat} {wk wk' : Worker} {g : Shared}

theorem roused_of_pipe {s : State} (h : 0 < s.shared.pipe) : s.Roused := Or.inl h

theorem roused_of_tickles (hwk : s.workers[w]? = some wk) (h : Tickles wk'.calls) :
    State.Roused { s with shared := g, workers := s.workers.set w wk' } :=
  Or.inr (Or.inl (Or.inl ((exists_mem_set_iff hwk wk').mpr (Or.inl h))))

theorem roused_of_scans (hwk : s.workers[w]? = some wk) (h : wk'.pc.scans = true) :
    State.Roused { s with shared := g, workers := s.workers.set w wk' } :=
  Or.inr (Or.inr ((exists_mem_set_iff hwk wk').mpr (Or.inl h)))

/-- What rouses the workers does so still, as far as it was not the worker that moved. -/
theorem roused_of_roused (hwk : s.workers[w]? = some wk) (h : s.Roused)
    (hpipe : s.shared.pipe ≤ g.pipe) (htickles : Tickles wk.calls → Tickles wk'.calls)
    (hscans : wk.pc.scans = true → wk'.pc.scans = true) :
    State.Roused { s with shared := g, workers := s.workers.set w wk' } := by
  rcases h with h | (h | h) | h
  · exact roused_of_pipe (lt_of_lt_of_le h hpipe)
  · refine Or.inr (Or.inl (Or.inl ((exists_mem_set_iff hwk wk').mpr ?_)))
    exact ((exists_mem_iff hwk).mp h).imp_left htickles
  · exact Or.inr (Or.inl (Or.inr h))
  · refine Or.inr (Or.inr ((exists_mem_set_iff hwk wk').mpr ?_))
    exact ((exists_mem_iff hwk).mp h).imp_left hscans

/-- What is left of the calls of a thread behind a section that is not of `tickle`. -/
theorem tickles_goOn (g : Shared) {call : Call} {calls : List Call} (hne : call ≠ .tickle)
    (hwrite : call ≠ .write) (h : Tickles (call :: calls)) :
    Tickles ((g.goOn kind call).2 ++ calls) := by
  have hrest : Tickles calls := by
    rcases h with h | h
    · exact Or.inl ((List.mem_cons.mp h).resolve_left (Ne.symm hne))
    · exact Or.inr ((List.mem_cons.mp h).resolve_left (Ne.symm hwrite))
  exact hrest.imp (List.mem_append_right _) (List.mem_append_right _)

/-- A `tickle` goes on to its write, unless nobody is counted idle; and then the condition has it that
somebody scans, or nobody is past a scan. -/
theorem roused_or_of_tickle {l : Label} (h : Wakeful s) (hC : TickleHeard s l)
    (hcall : s.callOf l = some .tickle) (hqueue : s.shared.queue ≠ [])
    (hpast : ∃ wk ∈ s.workers, wk.PastScan) :
    (s.shared.goOn .ioManager .tickle).2 = [.write] ∨ ∃ wk ∈ s.workers, wk.pc.scans = true := by
  by_cases hidle : s.shared.idleThreadCount = 0
  · rcases hC hcall hidle with hempty | hnone | hscans
    · exact absurd hempty hqueue
    · obtain ⟨x, hx, hun | ⟨hidles, -⟩⟩ := hpast
      · exact absurd hun (hnone x hx)
      · have hpos : 0 < s.shared.idleThreadCount := by
          rw [h.counted.idle, List.countP_pos_iff]
          exact ⟨x, hx, hidles⟩
        omega
    · exact Or.inr hscans
  · exact Or.inl (if_neg hidle)

end Sections

section Held

variable {kind : Kind} {g g' : Shared} {w : Nat} {wk wk' : Worker} {c : Choice}

/-- A fiber that executes behind a step is in the hands of the worker that moved, or executed before
in the hands of another thread. -/
theorem holds_moves (h : Moves kind g w wk c g' wk') {f : Nat} (hexec : g'.fibers f = .exec) :
    wk'.pc.holds = some f ∨ (g.fibers f = .exec ∧ wk.pc.holds ≠ some f) := by
  by_cases hholds : wk'.pc.holds = some f
  · exact Or.inl hholds
  · refine Or.inr ?_
    cases h with
    | call pc call calls cbf term =>
        refine ⟨?_, hholds⟩
        by_cases hwrite : call = .write
        · subst hwrite
          exact hexec
        · rwa [(goOn_spec kind g hwrite).1.fibers] at hexec
    | op f cb op g' calls cbf term hkind hbegin =>
        exact ⟨(begin_spec hbegin).1.fibers ▸ hexec, hholds⟩
    | trigger tickled i g' calls cbf term htrigger =>
        exact ⟨(trigger_spec htrigger).1.fibers ▸ hexec, hholds⟩
    | scheduleAll cbs => exact ⟨(scheduleAll_spec cbs g).1.fibers ▸ hexec, hholds⟩
    | startReset id f' term =>
        rw [fibers_setFiber] at hexec
        split at hexec
        · cases hexec
        · exact ⟨hexec, fun hno => by cases hno⟩
    | swapIn f' cb =>
        rw [fibers_setFiber] at hexec
        split at hexec
        · rename_i heq
          exact absurd (congrArg some heq.symm) hholds
        · exact ⟨hexec, fun hno => by cases hno⟩
    | settleReady f' cb cbf term hready =>
        refine ⟨hexec, fun hno => ?_⟩
        cases hno
        exact absurd (hready.symm.trans hexec) (by decide)
    | settleEnded f' cb cbf term hend =>
        cases cb with
        | true =>
            simp only [if_true, fibers_setFiber] at hexec
            split at hexec
            · cases hexec
            · rename_i hne
              exact ⟨hexec, fun hno => hne (Option.some.inj hno).symm⟩
        | false =>
            refine ⟨hexec, fun hno => ?_⟩
            cases hno
            have hexec' : g.fibers f = .exec := hexec
            rw [hexec'] at hend
            exact absurd hend (by decide)
    | settleHold f' cb =>
        rw [fibers_setFiber] at hexec
        split at hexec
        · cases hexec
        · rename_i hne
          exact ⟨hexec, fun hno => hne (Option.some.inj hno).symm⟩
    | leave f' cb act =>
        refine ⟨?_, hholds⟩
        cases hact : act.assigns with
        | none => rwa [hact] at hexec
        | some st =>
            simp only [hact, fibers_setFiber] at hexec
            split at hexec
            · rename_i heq
              exact absurd (congrArg some heq.symm) hholds
            · exact hexec
    | ran | drain => exact ⟨hexec, hholds⟩
    | _ => exact ⟨hexec, fun hno => by cases hno⟩

theorem mem_of_pushed {task : Option Task} {calls : List Call} (h : g.Pushed g' task calls)
    {ft : FiberAndThread} (hft : ft ∈ g'.queue) : ft ∈ g.queue ∨ task = some ft.task := by
  rcases h with hqueue | ⟨t, thread, htask, hqueue, -⟩
  · exact Or.inl (hqueue ▸ hft)
  · rw [hqueue] at hft
    rcases List.mem_append.mp hft with hft | hft
    · exact Or.inl hft
    · rw [List.mem_singleton.mp hft]
      exact Or.inr htask

/-- What is in the queue behind a step was there before, or the step has put it there. -/
theorem queue_moves {s : State} (hwk : s.workers[w]? = some wk)
    (h : Moves kind s.shared w wk c g' wk') {ft : FiberAndThread} (hft : ft ∈ g'.queue) :
    ft ∈ s.shared.queue ∨ s.schedules (.worker w c) = some ft.task ∨ (∃ id, ft.task = .cb id) ∨
      ∃ f, ft.task = .fiber f ∧ g'.fibers f = .ready := by
  cases h with
  | call pc call calls cbf term =>
      by_cases hwrite : call = .write
      · subst hwrite
        exact Or.inl hft
      · have hcall : s.callOf (.worker w .go) = some call := callOf_worker hwk
        refine (mem_of_pushed (goOn_spec kind s.shared hwrite).2 hft).imp id fun hnew => Or.inl ?_
        show (s.callOf (.worker w .go)).bind Call.schedules = _
        rw [hcall]
        exact hnew
  | take task rest tickleMe cbf term hscan =>
      obtain ⟨pre, x, post, hq, hrest, -⟩ := scan_some hscan
      have hmem : ft ∈ pre ++ post := hrest ▸ hft
      rw [hq]
      refine Or.inl ?_
      rcases List.mem_append.mp hmem with hpre | hpost
      · exact List.mem_append_left _ hpre
      · exact List.mem_append_right _ (List.mem_cons_of_mem _ hpost)
  | op f cb op g' calls cbf term hkind hbegin =>
      exact (mem_of_pushed (begin_spec hbegin).2 hft).imp id Or.inl
  | trigger tickled i g' calls cbf term htrigger =>
      exact (mem_of_pushed (trigger_spec htrigger).2 hft).imp id Or.inl
  | scheduleAll cbs =>
      rw [(scheduleAll_spec cbs s.shared).2.1] at hft
      rcases List.mem_append.mp hft with hft | hft
      · exact Or.inl hft
      · obtain ⟨cb, -, hcb⟩ := List.mem_filterMap.mp hft
        obtain ⟨id, -, rfl⟩ := Option.map_eq_some_iff.mp hcb
        exact Or.inr (Or.inr (Or.inl ⟨id, rfl⟩))
  | settleReady f cb cbf term hready =>
      rcases List.mem_append.mp hft with hft | hft
      · exact Or.inl hft
      · rw [List.mem_singleton.mp hft]
        exact Or.inr (Or.inr (Or.inr ⟨f, rfl, hready⟩))
  | settleEnded f cb => cases cb <;> exact Or.inl hft
  | leave f cb act => cases act <;> exact Or.inl hft
  | _ => exact Or.inl hft

end Held

section Steps

variable {s t : State} {w : Nat} {wk wk' : Worker} {c : Choice} {g : Shared}

theorem fiber_mem_schedules {l : Label} {f : Nat} (hC : OwnFibers s l)
    (hl : s.schedules l = some (.fiber f)) (hexec : s.shared.fibers f = .exec) :
    ∃ wk ∈ s.workers, wk.pc.holds = some f :=
  hC.1 f (by rw [hl]; rfl) hexec

theorem held_worker (h : Wakeful s) (hwk : s.workers[w]? = some wk)
    (hmoves : Moves .ioManager s.shared w wk c g wk') (hC : OwnFibers s (.worker w c)) :
    ∀ ft ∈ g.queue, ∀ f, ft.task = .fiber f → g.fibers f = .exec →
      ∃ x ∈ s.workers.set w wk', x.pc.holds = some f := by
  intro ft hft f htask hexec
  rw [exists_mem_set_iff hwk]
  rcases holds_moves hmoves hexec with hholds | ⟨hbefore, hnot⟩
  · exact Or.inl hholds
  · have hheld : ∃ x ∈ s.workers, x.pc.holds = some f := by
      rcases queue_moves hwk hmoves hft with hold | hnew | ⟨id, hcb⟩ | ⟨f', hf', hready⟩
      · exact h.held ft hold f htask hbefore
      · exact fiber_mem_schedules hC (hnew.trans (congrArg some htask)) hbefore
      · rw [htask] at hcb
        cases hcb
      · rw [htask] at hf'
        cases hf'
        rw [hexec] at hready
        cases hready
    exact Or.inr (((exists_mem_iff hwk).mp hheld).resolve_left hnot)

/-- A scan that takes nothing leaves the worker with a `tickle` ahead of it, or there are only fibers in
the queue that other workers execute. -/
theorem roused_of_nothing {tickleMe : Bool} {cbf : Option Nat} {term : Bool} (h : Wakeful s)
    (hwk : s.workers[w]? = some ⟨.scan, [], cbf, term⟩) (hqueue : s.shared.queue ≠ [])
    (hscan : scan s.shared.fibers w s.shared.queue = (none, tickleMe)) :
    State.Roused { s with
      workers := s.workers.set w ⟨.idleTest, tickleIf tickleMe, cbf, term⟩ } := by
  obtain ⟨hnone, htickle⟩ := scan_none hscan
  cases tickleMe with
  | true =>
      exact roused_of_tickles (g := s.shared) hwk (Or.inl (mem_tickleIf.mpr ⟨rfl, rfl⟩))
  | false =>
      obtain ⟨ft, hft⟩ := List.exists_mem_of_ne_nil _ hqueue
      have hother : forOther w ft = false := by
        have hany := List.any_eq_false.mp htickle.symm ft hft
        simpa using hany
      have hexec : executing s.shared.fibers ft.task = true := by
        by_contra hno
        exact hnone ft hft ⟨hother, by simpa using hno⟩
      cases htask : ft.task with
      | cb id =>
          rw [htask] at hexec
          cases hexec
      | fiber f =>
          rw [htask] at hexec
          have hheld := h.held ft hft f htask (by simpa [executing] using hexec)
          rcases (exists_mem_iff hwk).mp hheld with hself | helse
          · cases hself
          · refine Or.inr (Or.inr ((exists_mem_set_iff hwk _).mpr (Or.inr (helse.imp ?_))))
            intro z hz
            cases hpc : z.pc <;> rw [hpc] at hz <;> first | rfl | cases hz

/-- A worker that goes on past its scan, with the queue as it was. -/
theorem roused_of_stays (h : Wakeful s) (hwk : s.workers[w]? = some wk)
    (hqueue : g.queue = s.shared.queue) (hpipe : g.pipe = s.shared.pipe) (hcalls : wk.calls = [])
    (hscans : wk.pc.scans = false) (hpast : wk'.PastScan → wk.PastScan) :
    g.queue ≠ [] → (∃ x ∈ s.workers.set w wk', x.PastScan) →
      State.Roused { s with shared := g, workers := s.workers.set w wk' } := by
  intro hne hsome
  have hbefore : ∃ x ∈ s.workers, x.PastScan := by
    rw [exists_mem_iff hwk]
    exact ((exists_mem_set_iff hwk wk').mp hsome).imp_left hpast
  refine roused_of_roused hwk (h.roused (hqueue ▸ hne) hbefore) hpipe.ge (fun ht => ?_) fun hno => ?_
  · rw [hcalls] at ht
    rcases ht with ht | ht <;> cases ht
  · rw [hscans] at hno
    cases hno

theorem roused_of_sleeps {pc : Pc} {cbf : Option Nat} {term : Bool} {asked nextTimeout : UInt64}
    (h : Wakeful s) (hwk : s.workers[w]? = some ⟨pc, [], cbf, term⟩)
    (hqueue : g.queue = s.shared.queue) (hpipe : g.pipe = s.shared.pipe)
    (hscans : pc.scans = false) (hidles : pc.idles = true) :
    g.queue ≠ [] →
      (∃ x ∈ s.workers.set w ⟨.sleep asked nextTimeout, [], cbf, term⟩, x.PastScan) →
      State.Roused { s with
        shared := g
        workers := s.workers.set w ⟨.sleep asked nextTimeout, [], cbf, term⟩ } := by
  rcases sleep_cases asked nextTimeout with hpoll | ⟨timeout, hwait⟩
  · intro _ _
    exact roused_of_scans hwk (by rw [hpoll]; rfl)
  · exact roused_of_stays h hwk hqueue hpipe rfl hscans fun _ => Or.inr ⟨hidles, hscans⟩

theorem roused_call {pc : Pc} {call : Call} {calls : List Call} {cbf : Option Nat} {term : Bool}
    (h : Wakeful s) (hwk : s.workers[w]? = some ⟨pc, call :: calls, cbf, term⟩)
    (hC : TickleHeard s (.worker w .go)) (hne : (s.shared.goOn .ioManager call).1.queue ≠ [])
    (hsome : ∃ x ∈ s.workers.set w ⟨pc, (s.shared.goOn .ioManager call).2 ++ calls, cbf, term⟩,
      x.PastScan) :
    State.Roused { s with
      shared := (s.shared.goOn .ioManager call).1
      workers := s.workers.set w ⟨pc, (s.shared.goOn .ioManager call).2 ++ calls, cbf, term⟩ } := by
  have hset := (exists_mem_set_iff hwk _).mp hsome
  have hpast : ∃ x ∈ s.workers, x.PastScan := (exists_mem_iff hwk).mpr hset
  by_cases hwrite : call = .write
  · subst hwrite
    exact roused_of_pipe (Nat.succ_pos _)
  · obtain ⟨hkeeps, hpushed⟩ := goOn_spec .ioManager s.shared hwrite
    rcases hpushed.was_or_tickles hne with hqueue | hmore
    · by_cases htickle : call = .tickle
      · subst htickle
        have hcall : s.callOf (.worker w .go) = some .tickle := callOf_worker hwk
        rcases roused_or_of_tickle h hC hcall hqueue hpast with hmore | hscans
        · refine roused_of_tickles hwk (Or.inr ?_)
          rw [hmore]
          exact List.mem_cons_self
        · exact Or.inr (Or.inr ((exists_mem_set_iff hwk _).mpr ((exists_mem_iff hwk).mp hscans)))
      · exact roused_of_roused hwk (h.roused hqueue hpast) hkeeps.pipe.ge
          (tickles_goOn s.shared htickle hwrite) id
    · exact roused_of_tickles hwk (Or.inl (List.mem_append_left _ hmore))

theorem roused_worker (h : Wakeful s) (hwk : s.workers[w]? = some wk)
    (hmoves : Moves .ioManager s.shared w wk c g wk') (hC : TickleHeard s (.worker w c)) :
    g.queue ≠ [] → (∃ x ∈ s.workers.set w wk', x.PastScan) →
      State.Roused { s with shared := g, workers := s.workers.set w wk' } := by
  cases hmoves with
  | call pc call calls cbf term => exact fun hne hsome => roused_call h hwk hC hne hsome
  | nothing tickleMe cbf term hscan => exact fun hne _ => roused_of_nothing h hwk hne hscan
  | exit cbf =>
      refine roused_of_stays h hwk rfl rfl rfl rfl fun hpast => ?_
      rcases hpast with (⟨hpc, -⟩ | hpc) | ⟨hpc, -⟩ <;> cases hpc
  | idleTest cbf => exact roused_of_stays h hwk rfl rfl rfl rfl fun _ => Or.inl (Or.inl ⟨rfl, rfl⟩)
  | countScheduler cbf term hkind => cases hkind
  | countManager cbf term =>
      exact roused_of_stays h hwk rfl rfl rfl rfl fun _ => Or.inl (Or.inr rfl)
  | noTimer | noPending =>
      exact roused_of_stays h hwk rfl rfl rfl rfl fun _ => Or.inr ⟨rfl, rfl⟩
  | nextTimer | pending | waits => exact roused_of_sleeps h hwk rfl rfl rfl rfl
  | list tickled cur cbf term =>
      intro _ _
      refine roused_of_scans hwk ?_
      rcases pc_of_list (s.shared.timers.takeExpired s.shared.now cur).2 s.shared.now tickled with
        h | h <;> simp only [h] <;> rfl
  | _ => exact fun _ _ => roused_of_scans hwk rfl

theorem roused_outside {op : Op} {calls : List Call} (h : Wakeful s)
    (hbegin : s.shared.begin op = some (g, calls)) (hne : g.queue ≠ [])
    (hpast : ∃ x ∈ s.workers, x.PastScan) :
    State.Roused { s with shared := g, others := s.others ++ [calls] } := by
  obtain ⟨hkeeps, hpushed⟩ := begin_spec hbegin
  have hold : s.shared.queue ≠ [] →
      State.Roused { s with shared := g, others := s.others ++ [calls] } := by
    intro hqueue
    rcases h.roused hqueue hpast with hpipe | (hworker | ⟨x, hx, htickles⟩) | hscans
    · exact roused_of_pipe (hkeeps.pipe.symm ▸ hpipe)
    · exact Or.inr (Or.inl (Or.inl hworker))
    · exact Or.inr (Or.inl (Or.inr ⟨x, List.mem_append_left _ hx, htickles⟩))
    · exact Or.inr (Or.inr hscans)
  rcases hpushed.was_or_tickles hne with hqueue | htickle
  · exact hold hqueue
  · refine Or.inr (Or.inl (Or.inr ⟨calls, ?_, Or.inl htickle⟩))
    exact List.mem_append_right _ (List.mem_singleton_self _)

theorem roused_goOn {i : Nat} {call : Call} {calls : List Call} (h : Wakeful s)
    (hi : s.others[i]? = some (call :: calls)) (hC : TickleHeard s (.goOn i))
    (hne : (s.shared.goOn .ioManager call).1.queue ≠ []) (hpast : ∃ x ∈ s.workers, x.PastScan) :
    State.Roused { s with
      shared := (s.shared.goOn .ioManager call).1
      others := s.others.set i ((s.shared.goOn .ioManager call).2 ++ calls) } := by
  by_cases hwrite : call = .write
  · subst hwrite
    exact roused_of_pipe (Nat.succ_pos _)
  · obtain ⟨hkeeps, hpushed⟩ := goOn_spec .ioManager s.shared hwrite
    have htickles : Tickles ((s.shared.goOn .ioManager call).2 ++ calls) →
        State.Roused { s with
          shared := (s.shared.goOn .ioManager call).1
          others := s.others.set i ((s.shared.goOn .ioManager call).2 ++ calls) } :=
      fun hnew => Or.inr (Or.inl (Or.inr ((exists_mem_set_iff hi _).mpr (Or.inl hnew))))
    rcases hpushed.was_or_tickles hne with hqueue | hmore
    · by_cases htickle : call = .tickle
      · subst htickle
        have hcall : s.callOf (.goOn i) = some .tickle := callOf_goOn hi
        rcases roused_or_of_tickle h hC hcall hqueue hpast with hmore | hscans
        · refine htickles (Or.inr ?_)
          rw [hmore]
          exact List.mem_cons_self
        · exact Or.inr (Or.inr hscans)
      · rcases h.roused hqueue hpast with hpipe | (hworker | hother) | hscans
        · exact roused_of_pipe (hkeeps.pipe.symm ▸ hpipe)
        · exact Or.inr (Or.inl (Or.inl hworker))
        · refine Or.inr (Or.inl (Or.inr ((exists_mem_set_iff hi _).mpr ?_)))
          exact ((exists_mem_iff hi).mp hother).imp_left (tickles_goOn s.shared htickle hwrite)
        · exact Or.inr (Or.inr hscans)
    · exact htickles (Or.inl (List.mem_append_left _ hmore))

/-- A section of a thread outside puts no fiber into the queue that executes there. -/
theorem held_pushed {l : Label} {task : Option Task} {calls : List Call} (h : Wakeful s)
    (hkeeps : s.shared.Keeps g) (hpushed : s.shared.Pushed g task calls)
    (htask : ∀ t, task = some t → s.schedules l = some t) (hC : OwnFibers s l) :
    ∀ ft ∈ g.queue, ∀ f, ft.task = .fiber f → g.fibers f = .exec →
      ∃ x ∈ s.workers, x.pc.holds = some f := by
  intro ft hft f hfiber hexec
  rw [hkeeps.fibers] at hexec
  rcases mem_of_pushed hpushed hft with hold | hnew
  · exact h.held ft hold f hfiber hexec
  · exact fiber_mem_schedules hC ((htask _ hnew).trans (congrArg some hfiber)) hexec

/-- One step within the condition. -/
theorem wakeful_step {l : Label} (h : Wakeful s) (hC : TickleHeard s l ∧ OwnFibers s l)
    (hstep : step .ioManager s l = some t) : Wakeful t := by
  have hcounted := counted_step h.counted hstep
  cases l with
  | worker w c =>
      obtain ⟨wk, g, wk', hwk, hmoves, rfl⟩ := step_worker hstep
      exact ⟨hcounted, held_worker h hwk hmoves hC.2, roused_worker h hwk hmoves hC.1⟩
  | outside op =>
      obtain ⟨g, calls, -, hbegin, rfl⟩ := step_outside hstep
      obtain ⟨hkeeps, hpushed⟩ := begin_spec hbegin
      have hheld := held_pushed (l := .outside op) h hkeeps hpushed (fun t ht => ht) hC.2
      exact ⟨hcounted, hheld, roused_outside h hbegin⟩
  | goOn i =>
      obtain ⟨call, calls, hi, rfl⟩ := step_goOn hstep
      refine ⟨hcounted, ?_, roused_goOn h hi hC.1⟩
      by_cases hwrite : call = .write
      · subst hwrite
        exact h.held
      · obtain ⟨hkeeps, hpushed⟩ := goOn_spec .ioManager s.shared hwrite
        have hcall : s.callOf (.goOn i) = some call := callOf_goOn hi
        have hheld := held_pushed (l := .goOn i) h hkeeps hpushed (fun t ht => ?_) hC.2
        · exact hheld
        · show (s.callOf (.goOn i)).bind Call.schedules = some t
          rw [hcall]
          exact ht
  | tick now =>
      obtain ⟨-, rfl⟩ := step_tick hstep
      exact ⟨hcounted, h.held, h.roused⟩
  | foreign f st =>
      obtain ⟨-, rfl⟩ := step_foreign hstep
      refine ⟨hcounted, fun ft hft f' htask hexec => ?_, h.roused⟩
      have hset : (if f' = f then st else s.shared.fibers f') = .exec :=
        (fibers_setFiber s.shared f st f').symm.trans hexec
      split at hset
      · rename_i heq
        subst heq hset
        exact absurd htask (hC.2.2 ft hft)
      · exact h.held ft hft f' htask hset

end Steps

theorem wakeful_init (threadCount : Nat) (useCaller : Bool) (fibers : Nat → FiberState)
    (count : Nat) (now : UInt64) : Wakeful (init threadCount useCaller fibers count now) :=
  ⟨counted_init threadCount useCaller fibers count now, fun _ hft => absurd hft List.not_mem_nil,
    fun h => absurd rfl h⟩

/-- While no `tickle` is lost on a worker that has not yet counted itself, no task is left in the queue
with a blocked worker that may take it and nobody to wake it. -/
theorem noSleepingTask_of_heard (threadCount : Nat) (useCaller : Bool) (fibers : Nat → FiberState)
    (count : Nat) (now : UInt64) (ls : List Label)
    (hC : StepsMeet (step .ioManager) (fun s l => TickleHeard s l ∧ OwnFibers s l)
      (init threadCount useCaller fibers count now) ls) :
    StatesMeet (step .ioManager) NoSleepingTask (init threadCount useCaller fibers count now) ls :=
  statesMeet_of_invariant (fun _ h => noSleepingTask_of_wakeful h)
    (fun _ _ _ h hC hstep => wakeful_step h hC hstep) ls _
    (wakeful_init threadCount useCaller fibers count now) hC

/-- Two workers go idle and block; a callback is scheduled, a byte wakes the second of them, and it
takes the callback. -/
def wokenRun : List Label :=
  (List.range 2).flatMap (fun w => List.replicate 6 (.worker w .go)) ++
    [.outside (.schedule (some (.cb 7)) none), .goOn 0, .goOn 0, .worker 1 (.wake true),
      .worker 1 (.list 0), .worker 1 .drain, .worker 1 .go, .worker 1 .go, .worker 1 .go]

theorem noSleepingTask_wokenRun :
    ((run (step .ioManager) (init 2 false (fun _ => .init) 0 1) wokenRun).map fun s =>
      s.workers.map Worker.pc) = some [.waiting (some 3001), .start (.cb 7)] ∧
    StatesMeet (step .ioManager) NoSleepingTask (init 2 false (fun _ => .init) 0 1) wokenRun :=
  ⟨by decide,
    noSleepingTask_of_heard 2 false (fun _ => .init) 0 1 wokenRun (by decide)⟩

/-- The worker has scanned the empty queue; the callback comes, its `tickle` finds nobody idle, and the
worker blocks. -/
def unheardRun : List Label :=
  [.worker 0 .go, .outside (.schedule (some (.cb 7)) none), .goOn 0] ++
    List.replicate 5 (.worker 0 .go)

theorem task_left_sleeping :
    ¬ ∀ threadCount useCaller fibers count now ls,
      StatesMeet (step .ioManager) NoSleepingTask
        (init threadCount useCaller fibers count now) ls := by
  intro h
  have hend := statesMeet_run unheardRun _
    ((run (step .ioManager) (init 1 false (fun _ => .init) 0 1) unheardRun).get
      (by decide)) (h 1 false (fun _ => .init) 0 1 unheardRun) (Option.some_get _).symm
  have hwait := hend 0 (some 3001) (by decide)
    ⟨⟨.cb 7, none⟩, by decide, by decide⟩
  rcases hwait with hpipe | hdue | ⟨j, z, hj, hz, -⟩
  · revert hpipe
    decide
  · revert hdue
    decide
  · have hlen : j < 1 := (List.getElem?_eq_some_iff.mp hz).1
    omega

end Workers

end Saturn
