import Saturn.Misc.ListUpdate
import Saturn.Scheduler.Workers

/-!
# What a step of a worker can be

The steps of `Workers.step` as a relation with one constructor for each way a worker goes on, and
what every proof about the workers uses: the scan of the queue, and an update of one worker.
-/

namespace Saturn

namespace Workers

open Scheduler (FiberState Task FiberAndThread Action)
open Shared (tickleIf)

/-- Worker `w` goes on with the choice `c`. -/
inductive Moves (kind : Kind) (g : Shared) (w : Nat) : Worker → Choice → Shared → Worker → Prop where
  | call (pc : Pc) (call : Call) (calls : List Call) (cbf : Option Nat) (term : Bool) :
      Moves kind g w ⟨pc, call :: calls, cbf, term⟩ .go (g.goOn kind call).1
        ⟨pc, (g.goOn kind call).2 ++ calls, cbf, term⟩
  | take (task : Task) (rest : List FiberAndThread) (tickleMe : Bool) (cbf : Option Nat)
      (term : Bool) (hscan : scan g.fibers w g.queue = (some (task, rest), tickleMe)) :
      Moves kind g w ⟨.scan, [], cbf, term⟩ .go
        { g with queue := rest, activeThreadCount := g.activeThreadCount + 1 }
        ⟨.start task, tickleIf tickleMe, cbf, term⟩
  | nothing (tickleMe : Bool) (cbf : Option Nat) (term : Bool)
      (hscan : scan g.fibers w g.queue = (none, tickleMe)) :
      Moves kind g w ⟨.scan, [], cbf, term⟩ .go g ⟨.idleTest, tickleIf tickleMe, cbf, term⟩
  | startFiber (f : Nat) (cbf : Option Nat) (term : Bool) (hlive : ¬ (g.fibers f).Ended) :
      Moves kind g w ⟨.start (.fiber f), [], cbf, term⟩ .go g ⟨.swapIn f false, [], cbf, term⟩
  | startEnded (f : Nat) (cbf : Option Nat) (term : Bool) (hend : (g.fibers f).Ended) :
      Moves kind g w ⟨.start (.fiber f), [], cbf, term⟩ .go g ⟨.drop, [], cbf, term⟩
  | startReset (id f : Nat) (term : Bool) (hend : (g.fibers f).Ended ∨ g.fibers f = .init) :
      Moves kind g w ⟨.start (.cb id), [], some f, term⟩ .go (g.setFiber f .init)
        ⟨.swapIn f true, [], some f, term⟩
  | startNew (id : Nat) (term : Bool) :
      Moves kind g w ⟨.start (.cb id), [], none, term⟩ .go { g with count := g.count + 1 }
        ⟨.swapIn g.count true, [], some g.count, term⟩
  | drop (cbf : Option Nat) (term : Bool) :
      Moves kind g w ⟨.drop, [], cbf, term⟩ .go
        { g with activeThreadCount := g.activeThreadCount - 1 } ⟨.scan, [], cbf, term⟩
  | swapIn (f : Nat) (cb : Bool) (cbf : Option Nat) (term : Bool) (hexec : g.fibers f ≠ .exec) :
      Moves kind g w ⟨.swapIn f cb, [], cbf, term⟩ .go (g.setFiber f .exec)
        ⟨.running f cb, [], cbf, term⟩
  | ran (f : Nat) (cb : Bool) (cbf : Option Nat) (term : Bool) :
      Moves kind g w ⟨.ran f cb, [], cbf, term⟩ .go
        { g with activeThreadCount := g.activeThreadCount - 1 } ⟨.settle f cb, [], cbf, term⟩
  | settleReady (f : Nat) (cb : Bool) (cbf : Option Nat) (term : Bool)
      (hready : g.fibers f = .ready) :
      Moves kind g w ⟨.settle f cb, [], cbf, term⟩ .go
        (g.scheduleNoLock (some (.fiber f)) none).1
        ⟨.scan, tickleIf g.queue.isEmpty, if cb then none else cbf, term⟩
  | settleEnded (f : Nat) (cb : Bool) (cbf : Option Nat) (term : Bool)
      (hend : (g.fibers f).Ended) :
      Moves kind g w ⟨.settle f cb, [], cbf, term⟩ .go (if cb then g.setFiber f .init else g)
        ⟨.scan, [], cbf, term⟩
  | settleHold (f : Nat) (cb : Bool) (cbf : Option Nat) (term : Bool)
      (hready : g.fibers f ≠ .ready) (hend : ¬ (g.fibers f).Ended) :
      Moves kind g w ⟨.settle f cb, [], cbf, term⟩ .go (g.setFiber f .hold)
        ⟨.scan, [], if cb then none else cbf, term⟩
  | exit (cbf : Option Nat) :
      Moves kind g w ⟨.idleTest, [], cbf, true⟩ .go g ⟨.exited, [], cbf, true⟩
  | idleTest (cbf : Option Nat) :
      Moves kind g w ⟨.idleTest, [], cbf, false⟩ .go g ⟨.countIdle, [], cbf, false⟩
  | countScheduler (cbf : Option Nat) (term : Bool) (hkind : kind = .scheduler) :
      Moves kind g w ⟨.countIdle, [], cbf, term⟩ .go
        { g with idleThreadCount := g.idleThreadCount + 1 } ⟨.check g.now, [], cbf, term⟩
  | countManager (cbf : Option Nat) (term : Bool) (hkind : kind = .ioManager) :
      Moves kind g w ⟨.countIdle, [], cbf, term⟩ .go
        { g with idleThreadCount := g.idleThreadCount + 1 } ⟨.nextTimer, [], cbf, term⟩
  | noTimer (cbf : Option Nat) (term : Bool)
      (hnone : (g.timers.getNextTimer g.now).2 = ~~~0) :
      Moves kind g w ⟨.nextTimer, [], cbf, term⟩ .go
        { g with timers := (g.timers.getNextTimer g.now).1 } ⟨.pendingEvents g.now, [], cbf, term⟩
  | nextTimer (cbf : Option Nat) (term : Bool)
      (hsome : (g.timers.getNextTimer g.now).2 ≠ ~~~0) :
      Moves kind g w ⟨.nextTimer, [], cbf, term⟩ .go
        { g with timers := (g.timers.getNextTimer g.now).1 }
        ⟨.sleep g.now (g.timers.getNextTimer g.now).2, [], cbf, term⟩
  | noPending (asked : UInt64) (cbf : Option Nat) (term : Bool)
      (hnone : g.pendingEventCount = 0) :
      Moves kind g w ⟨.pendingEvents asked, [], cbf, term⟩ .go g ⟨.check asked, [], cbf, term⟩
  | pending (asked : UInt64) (cbf : Option Nat) (term : Bool) (hsome : g.pendingEventCount ≠ 0) :
      Moves kind g w ⟨.pendingEvents asked, [], cbf, term⟩ .go g
        ⟨.sleep asked (~~~0), [], cbf, term⟩
  | stops (asked : UInt64) (cbf : Option Nat) (term : Bool) (hstops : g.stops = true) :
      Moves kind g w ⟨.check asked, [], cbf, term⟩ .go g ⟨.switchOut, [], cbf, true⟩
  | yields (asked : UInt64) (cbf : Option Nat) (term : Bool) (hstops : g.stops = false)
      (hkind : kind = .scheduler) :
      Moves kind g w ⟨.check asked, [], cbf, term⟩ .go g ⟨.switchOut, [], cbf, term⟩
  | waits (asked : UInt64) (cbf : Option Nat) (term : Bool) (hstops : g.stops = false)
      (hkind : kind = .ioManager) :
      Moves kind g w ⟨.check asked, [], cbf, term⟩ .go g ⟨.sleep asked (~~~0), [], cbf, term⟩
  | putBack (expired : List Nat) (cur : UInt64) (tickled : Bool) (cbf : Option Nat)
      (term : Bool) :
      Moves kind g w ⟨.expired expired cur tickled, [], cbf, term⟩ .go
        { g with timers := (g.timers.putBack cur expired).1 }
        ⟨.callbacks (g.timers.putBack cur expired).2 tickled, [], cbf, term⟩
  | scheduleAll (cbs : List (Option Nat)) (tickled : Bool) (cbf : Option Nat) (term : Bool) :
      Moves kind g w ⟨.callbacks cbs tickled, [], cbf, term⟩ .go (g.scheduleAll cbs).1
        ⟨.events tickled, tickleIf (g.scheduleAll cbs).2, cbf, term⟩
  | handled (cbf : Option Nat) (term : Bool) :
      Moves kind g w ⟨.events false, [], cbf, term⟩ .go g ⟨.switchOut, [], cbf, term⟩
  | switchOut (cbf : Option Nat) (term : Bool) :
      Moves kind g w ⟨.switchOut, [], cbf, term⟩ .go
        { g with idleThreadCount := g.idleThreadCount - 1 } ⟨.scan, [], cbf, term⟩
  | op (f : Nat) (cb : Bool) (op : Op) (g' : Shared) (calls : List Call) (cbf : Option Nat)
      (term : Bool) (hkind : kind = .ioManager ∨ op.ofScheduler = true)
      (hbegin : g.begin op = some (g', calls)) :
      Moves kind g w ⟨.running f cb, [], cbf, term⟩ (.call op) g' ⟨.running f cb, calls, cbf, term⟩
  | leave (f : Nat) (cb : Bool) (act : Action) (cbf : Option Nat) (term : Bool) :
      Moves kind g w ⟨.running f cb, [], cbf, term⟩ (.leave act)
        (match act.assigns with | some st => g.setFiber f st | none => g)
        ⟨.ran f cb, [], cbf, term⟩
  | wake (timeout : Option Nat) (tickled : Bool) (cbf : Option Nat) (term : Bool)
      (hpipe : tickled = true → g.pipe ≠ 0) :
      Moves kind g w ⟨.waiting timeout, [], cbf, term⟩ (.wake tickled) g
        ⟨.woken tickled, [], cbf, term⟩
  | polled (tickled : Bool) (cbf : Option Nat) (term : Bool)
      (hpipe : tickled = true → g.pipe ≠ 0) :
      Moves kind g w ⟨.polling, [], cbf, term⟩ (.wake tickled) g ⟨.woken tickled, [], cbf, term⟩
  | listNone (tickled : Bool) (cur : Nat) (cbf : Option Nat) (term : Bool)
      (hempty : g.timers.timers = []) :
      Moves kind g w ⟨.woken tickled, [], cbf, term⟩ (.list cur) g ⟨.events tickled, [], cbf, term⟩
  | list (tickled : Bool) (cur : Nat) (cbf : Option Nat) (term : Bool)
      (hfresh : g.timers.heap cur = none) :
      Moves kind g w ⟨.woken tickled, [], cbf, term⟩ (.list cur)
        { g with timers := (g.timers.takeExpired g.now cur).1 }
        ⟨if (g.timers.takeExpired g.now cur).2.isEmpty then .events tickled
          else .expired (g.timers.takeExpired g.now cur).2 g.now tickled, [], cbf, term⟩
  | drain (cbf : Option Nat) (term : Bool) :
      Moves kind g w ⟨.events true, [], cbf, term⟩ .drain { g with pipe := 0 }
        ⟨.events false, [], cbf, term⟩
  | trigger (tickled : Bool) (i : Nat) (g' : Shared) (calls : List Call) (cbf : Option Nat)
      (term : Bool) (htrigger : g.trigger i = some (g', calls)) :
      Moves kind g w ⟨.events tickled, [], cbf, term⟩ (.trigger i) g'
        ⟨.events tickled, calls, cbf, term⟩

theorem moves_of_run {kind : Kind} {g g' : Shared} {w : Nat} {pc : Pc} {cbf : Option Nat}
    {term : Bool} {wk' : Worker}
    (h : Worker.run g w ⟨pc, [], cbf, term⟩ pc = some (g', wk')) :
    Moves kind g w ⟨pc, [], cbf, term⟩ .go g' wk' := by
  unfold Worker.run at h
  split at h
  · split at h
    · rename_i hscan
      cases h
      exact .take _ _ _ _ _ hscan
    · rename_i hscan
      cases h
      exact .nothing _ _ _ hscan
  · cases h
    rename_i f
    by_cases hend : (g.fibers f).Ended
    · rw [if_pos hend]
      exact .startEnded _ _ _ hend
    · rw [if_neg hend]
      exact .startFiber _ _ _ hend
  · split at h
    · rename_i hcb
      obtain rfl : cbf = some _ := hcb
      split at h
      · rename_i hend
        cases h
        exact .startReset _ _ _ hend
      · cases h
    · rename_i hcb
      obtain rfl : cbf = none := hcb
      cases h
      exact .startNew _ _
  · cases h
    exact .drop _ _
  · split at h
    · cases h
    · rename_i hexec
      cases h
      exact .swapIn _ _ _ _ hexec
  · cases h
    exact .ran _ _ _ _
  · split at h
    · rename_i hready
      cases h
      exact .settleReady _ _ _ _ hready
    · rename_i hready
      split at h
      · rename_i hend
        cases h
        exact .settleEnded _ _ _ _ hend
      · rename_i hend
        cases h
        exact .settleHold _ _ _ _ hready hend
  · cases h
    cases term with
    | true => exact .exit _
    | false => exact .idleTest _
  · cases h

theorem moves_of_idle {kind : Kind} {g g' : Shared} {w : Nat} {pc : Pc} {cbf : Option Nat}
    {term : Bool} {wk' : Worker}
    (h : Worker.idle kind g ⟨pc, [], cbf, term⟩ pc = some (g', wk')) :
    Moves kind g w ⟨pc, [], cbf, term⟩ .go g' wk' := by
  cases pc with
  | countIdle =>
      obtain ⟨rfl, rfl⟩ := Prod.mk.inj (Option.some.inj h)
      cases kind with
      | scheduler => exact .countScheduler _ _ rfl
      | ioManager => exact .countManager _ _ rfl
  | nextTimer =>
      have hnext : some ({ g with timers := (g.timers.getNextTimer g.now).1 },
          Worker.goto ⟨.nextTimer, [], cbf, term⟩
            (if (g.timers.getNextTimer g.now).2 = ~~~0 then .pendingEvents g.now
              else .sleep g.now (g.timers.getNextTimer g.now).2)) = some (g', wk') := h
      obtain ⟨rfl, rfl⟩ := Prod.mk.inj (Option.some.inj hnext)
      by_cases hnone : (g.timers.getNextTimer g.now).2 = ~~~0
      · rw [if_pos hnone]
        exact .noTimer _ _ hnone
      · rw [if_neg hnone]
        exact .nextTimer _ _ hnone
  | pendingEvents asked =>
      obtain ⟨rfl, rfl⟩ := Prod.mk.inj (Option.some.inj h)
      by_cases hnone : g.pendingEventCount = 0
      · rw [if_pos hnone]
        exact .noPending _ _ _ hnone
      · rw [if_neg hnone]
        exact .pending _ _ _ hnone
  | check asked =>
      by_cases hstops : g.stops = true
      · have hstop : Worker.idle kind g ⟨.check asked, [], cbf, term⟩ (.check asked) =
            some (g, ⟨.switchOut, [], cbf, true⟩) := if_pos hstops
        obtain ⟨rfl, rfl⟩ := Prod.mk.inj (Option.some.inj (hstop.symm.trans h))
        exact .stops _ _ _ hstops
      · have hgoes : g.stops = false := Bool.not_eq_true _ ▸ hstops
        cases kind with
        | scheduler =>
            have hyield : Worker.idle .scheduler g ⟨.check asked, [], cbf, term⟩ (.check asked) =
                some (g, ⟨.switchOut, [], cbf, term⟩) := if_neg hstops
            obtain ⟨rfl, rfl⟩ := Prod.mk.inj (Option.some.inj (hyield.symm.trans h))
            exact .yields _ _ _ hgoes rfl
        | ioManager =>
            have hwait : Worker.idle .ioManager g ⟨.check asked, [], cbf, term⟩ (.check asked) =
                some (g, ⟨.sleep asked (~~~0), [], cbf, term⟩) := if_neg hstops
            obtain ⟨rfl, rfl⟩ := Prod.mk.inj (Option.some.inj (hwait.symm.trans h))
            exact .waits _ _ _ hgoes rfl
  | expired expired cur tickled =>
      obtain ⟨rfl, rfl⟩ := Prod.mk.inj (Option.some.inj h)
      exact .putBack _ _ _ _ _
  | callbacks cbs tickled =>
      obtain ⟨rfl, rfl⟩ := Prod.mk.inj (Option.some.inj h)
      exact .scheduleAll _ _ _ _
  | events tickled =>
      cases tickled with
      | false =>
          obtain ⟨rfl, rfl⟩ := Prod.mk.inj (Option.some.inj h)
          exact .handled _ _
      | true => cases h
  | switchOut =>
      obtain ⟨rfl, rfl⟩ := Prod.mk.inj (Option.some.inj h)
      exact .switchOut _ _
  | _ => cases h

theorem moves_of_act {kind : Kind} {g g' : Shared} {w : Nat} {pc : Pc} {cbf : Option Nat}
    {term : Bool} {c : Choice} {wk' : Worker}
    (h : Worker.act kind g ⟨pc, [], cbf, term⟩ pc c = some (g', wk')) :
    Moves kind g w ⟨pc, [], cbf, term⟩ c g' wk' := by
  unfold Worker.act at h
  split at h
  · split at h
    · rename_i hkind
      obtain ⟨⟨g₁, calls⟩, hbegin, h⟩ := Option.map_eq_some_iff.mp h
      cases h
      exact .op _ _ _ _ _ _ _ hkind hbegin
    · cases h
  · cases h
    exact .leave _ _ _ _ _
  · split at h
    · cases h
    · rename_i hpipe
      cases h
      exact .wake _ _ _ _ fun ht h0 => hpipe ⟨ht, h0⟩
  · split at h
    · cases h
    · rename_i hpipe
      cases h
      exact .polled _ _ _ fun ht h0 => hpipe ⟨ht, h0⟩
  · split at h
    · cases h
    · rename_i hfresh
      split at h
      · rename_i hempty
        cases h
        exact .listNone _ _ _ _ (by simpa using hempty)
      · cases h
        exact .list _ _ _ _ (by simpa using hfresh)
  · cases h
    exact .drain _ _
  · obtain ⟨⟨g₁, calls⟩, htrigger, h⟩ := Option.map_eq_some_iff.mp h
    cases h
    exact .trigger _ _ _ _ _ _ htrigger
  · cases h

/-- Every step of a worker is one of these. -/
theorem moves_of_next {kind : Kind} {g g' : Shared} {w : Nat} {wk wk' : Worker} {c : Choice}
    (h : wk.next kind g w c = some (g', wk')) : Moves kind g w wk c g' wk' := by
  obtain ⟨pc, calls, cbf, term⟩ := wk
  unfold Worker.next at h
  split at h
  · rename_i hcalls
    obtain rfl : calls = _ := hcalls
    cases h
    exact .call _ _ _ _ _
  · rename_i hcalls
    obtain rfl : calls = [] := hcalls
    cases hrun : Worker.run g w ⟨pc, [], cbf, term⟩ pc with
    | some r =>
        simp only [hrun, Option.orElse_some] at h
        cases h
        exact moves_of_run hrun
    | none =>
        simp only [hrun, Option.orElse_none] at h
        exact moves_of_idle h
  · rename_i hcalls _
    obtain rfl : calls = [] := hcalls
    exact moves_of_act h
  · cases h

section Scan

variable {fibers : Nat → FiberState} {w : Nat}

/-- Worker `w` may take the task. -/
def MayTake (fibers : Nat → FiberState) (w : Nat) (ft : FiberAndThread) : Prop :=
  forOther w ft = false ∧ executing fibers ft.task = false

instance (ft : FiberAndThread) : Decidable (MayTake fibers w ft) :=
  inferInstanceAs (Decidable (_ ∧ _))

theorem scan_cons (ft : FiberAndThread) (rest : List FiberAndThread) :
    scan fibers w (ft :: rest) =
      if MayTake fibers w ft then (some (ft.task, rest), !rest.isEmpty)
      else ((scan fibers w rest).1.map fun r => (r.1, ft :: r.2),
        forOther w ft || (scan fibers w rest).2) := by
  rw [scan]
  by_cases hother : forOther w ft = true
  · simp [MayTake, hother]
  · by_cases hexec : executing fibers ft.task = true <;> simp [MayTake, hother, hexec]

/-- A scan that takes nothing has passed over every task, and tells of those for other threads. -/
theorem scan_none {tickleMe : Bool} : ∀ {q : List FiberAndThread},
    scan fibers w q = (none, tickleMe) →
      (∀ ft ∈ q, ¬ MayTake fibers w ft) ∧ tickleMe = q.any (forOther w) := by
  intro q
  induction q generalizing tickleMe with
  | nil =>
      intro h
      cases h
      exact ⟨fun ft hft => absurd hft List.not_mem_nil, rfl⟩
  | cons ft rest ih =>
      intro h
      rw [scan_cons] at h
      split at h
      · cases h
      · rename_i htake
        obtain ⟨htaken, rfl⟩ := Prod.mk.inj h
        obtain ⟨hrest, htickle⟩ := ih (Prod.ext (Option.map_eq_none_iff.mp htaken) rfl)
        refine ⟨fun x hx => ?_, congrArg (forOther w ft || ·) htickle⟩
        rcases List.mem_cons.mp hx with rfl | hx
        · exact htake
        · exact hrest x hx

/-- A scan takes the first task it may, and tells of those for other threads before it and of all
behind it. -/
theorem scan_some {task : Task} {left : List FiberAndThread} {tickleMe : Bool} :
    ∀ {q : List FiberAndThread}, scan fibers w q = (some (task, left), tickleMe) →
      ∃ pre ft post, q = pre ++ ft :: post ∧ left = pre ++ post ∧ ft.task = task ∧
        MayTake fibers w ft ∧ (∀ x ∈ pre, ¬ MayTake fibers w x) ∧
        tickleMe = (pre.any (forOther w) || !post.isEmpty) := by
  intro q
  induction q generalizing left tickleMe with
  | nil => intro h; cases h
  | cons ft rest ih =>
      intro h
      rw [scan_cons] at h
      split at h
      · rename_i htake
        cases h
        exact ⟨[], ft, rest, rfl, rfl, rfl, htake, fun x hx => absurd hx List.not_mem_nil, rfl⟩
      · rename_i htake
        obtain ⟨htaken, rfl⟩ := Prod.mk.inj h
        obtain ⟨⟨task', left'⟩, hscan, heq⟩ := Option.map_eq_some_iff.mp htaken
        cases heq
        obtain ⟨pre, x, post, rfl, rfl, hx, hmay, hpre, htickle⟩ := ih (Prod.ext hscan rfl)
        refine ⟨ft :: pre, x, post, rfl, rfl, hx, hmay, fun y hy => ?_, ?_⟩
        · rcases List.mem_cons.mp hy with rfl | hy
          · exact htake
          · exact hpre y hy
        · rw [List.any_cons, Bool.or_assoc]
          exact congrArg (forOther w ft || ·) htickle

end Scan

section Sections

variable {kind : Kind} {g g' : Shared}

/-- The fibers, the counters and the pipe are as they were. -/
structure Shared.Keeps (g g' : Shared) : Prop where
  fibers : g'.fibers = g.fibers
  idle : g'.idleThreadCount = g.idleThreadCount
  active : g'.activeThreadCount = g.activeThreadCount
  pipe : g'.pipe = g.pipe

/-- The queue is as it was, or the task has been put at its end, by one who tickles if the queue was
empty. -/
def Shared.Pushed (g g' : Shared) (task : Option Task) (calls : List Call) : Prop :=
  g'.queue = g.queue ∨ ∃ t thread, task = some t ∧ g'.queue = g.queue ++ [⟨t, thread⟩] ∧
    (g.queue = [] → .tickle ∈ calls)

/-- What is in the queue was there before, at least in part, or there is a `tickle` to come. -/
theorem Shared.Pushed.was_or_tickles {task : Option Task} {calls : List Call}
    (h : g.Pushed g' task calls) (hne : g'.queue ≠ []) : g.queue ≠ [] ∨ .tickle ∈ calls := by
  rcases h with hqueue | ⟨t, thread, -, -, htickle⟩
  · exact Or.inl (hqueue ▸ hne)
  · by_cases hempty : g.queue = []
    · exact Or.inr (htickle hempty)
    · exact Or.inl hempty

@[simp] theorem fibers_setFiber (g : Shared) (f : Nat) (st : FiberState) (f' : Nat) :
    (g.setFiber f st).fibers f' = if f' = f then st else g.fibers f' :=
  Function.update_apply ..

theorem mem_tickleIf {need : Bool} {call : Call} : call ∈ tickleIf need ↔ need = true ∧ call = .tickle := by
  cases need <;> simp [tickleIf]

theorem scheduleNoLock_keeps (g : Shared) (task : Option Task) (thread : Option Nat) :
    g.Keeps (g.scheduleNoLock task thread).1 := ⟨rfl, rfl, rfl, rfl⟩

theorem scheduleNoLock_pushed (g : Shared) (task : Option Task) (thread : Option Nat) :
    g.Pushed (g.scheduleNoLock task thread).1 task (tickleIf g.queue.isEmpty) := by
  cases task with
  | none => exact Or.inl (by simp [Shared.scheduleNoLock])
  | some t =>
      refine Or.inr ⟨t, thread, rfl, rfl, fun hempty => ?_⟩
      rw [mem_tickleIf, hempty]
      exact ⟨rfl, rfl⟩

/-- The fiber or callback that the call puts into the queue. -/
def Op.schedules (g : Shared) : Op → Option Task
  | .schedule task _ => task
  | .cancelAll i => g.events[i]?
  | _ => none

/-- The fiber or callback that the section puts into the queue. -/
def Call.schedules : Call → Option Task
  | .schedule task => some task
  | _ => none

theorem trigger_spec {i : Nat} {calls : List Call} (h : g.trigger i = some (g', calls)) :
    g.Keeps g' ∧ g.Pushed g' g.events[i]? calls := by
  unfold Shared.trigger at h
  split at h
  · cases h
  · rename_i task htask
    cases h
    refine ⟨⟨rfl, rfl, rfl, rfl⟩, Or.inr ⟨task, none, htask, rfl, fun hempty => ?_⟩⟩
    refine List.mem_append_left _ (mem_tickleIf.mpr ⟨?_, rfl⟩)
    exact List.isEmpty_iff.mpr hempty

theorem begin_spec {op : Op} {calls : List Call} (h : g.begin op = some (g', calls)) :
    g.Keeps g' ∧ g.Pushed g' (op.schedules g) calls := by
  cases op with
  | schedule task thread =>
      simp only [Shared.begin] at h
      split at h
      · cases h
        exact ⟨scheduleNoLock_keeps g task thread, scheduleNoLock_pushed g task thread⟩
      · cases h
  | cancelAll i => exact trigger_spec h
  | newFiber | cancel | refresh | reset | getNextTimer | stop =>
      simp only [Shared.begin, Option.some.injEq] at h
      cases h
      exact ⟨⟨rfl, rfl, rfl, rfl⟩, Or.inl rfl⟩
  | addTimer | addEvent | delEvent | cancelEvent =>
      simp only [Shared.begin] at h
      split at h <;> cases h
      exact ⟨⟨rfl, rfl, rfl, rfl⟩, Or.inl rfl⟩
  | listExpiredCb cur =>
      simp only [Shared.begin] at h
      split at h
      · cases h
      · split at h <;> cases h <;> exact ⟨⟨rfl, rfl, rfl, rfl⟩, Or.inl rfl⟩

/-- Of the sections of a call only `write` changes the pipe, and only that of `schedule` the queue. -/
theorem goOn_spec (kind : Kind) (g : Shared) {call : Call} (h : call ≠ .write) :
    g.Keeps (g.goOn kind call).1 ∧
      g.Pushed (g.goOn kind call).1 call.schedules (g.goOn kind call).2 := by
  cases call with
  | tickle => cases kind <;> exact ⟨⟨rfl, rfl, rfl, rfl⟩, Or.inl rfl⟩
  | write => exact absurd rfl h
  | schedule task =>
      exact ⟨scheduleNoLock_keeps g (some task) none, scheduleNoLock_pushed g (some task) none⟩
  | insert | putBack | decPending | setStopping => exact ⟨⟨rfl, rfl, rfl, rfl⟩, Or.inl rfl⟩

/-- The callbacks that are scheduled together. -/
def cbTasks (cbs : List (Option Nat)) : List FiberAndThread :=
  cbs.filterMap fun cb => cb.map fun id => ⟨.cb id, none⟩

theorem scheduleAll_spec (cbs : List (Option Nat)) : ∀ g : Shared,
    g.Keeps (g.scheduleAll cbs).1 ∧ (g.scheduleAll cbs).1.queue = g.queue ++ cbTasks cbs ∧
      (g.queue = [] → cbs ≠ [] → (g.scheduleAll cbs).2 = true) := by
  induction cbs with
  | nil =>
      intro g
      exact ⟨⟨rfl, rfl, rfl, rfl⟩, (List.append_nil _).symm, fun _ h => absurd rfl h⟩
  | cons cb cbs ih =>
      intro g
      obtain ⟨hkeeps, hqueue, -⟩ := ih (g.scheduleNoLock (cb.map .cb) none).1
      refine ⟨⟨hkeeps.fibers, hkeeps.idle, hkeeps.active, hkeeps.pipe⟩, ?_, fun hempty _ => ?_⟩
      · refine hqueue.trans ?_
        cases cb <;> simp [Shared.scheduleNoLock, cbTasks]
      · show (g.queue.isEmpty || _) = true
        rw [hempty]
        rfl

end Sections

section Counters

/-- Between `++m_idleThreadCount` and `--m_idleThreadCount`. -/
def Pc.idles : Pc → Bool
  | .nextTimer | .pendingEvents _ | .check _ | .waiting _ | .polling | .woken _ | .expired ..
  | .callbacks .. | .events _ | .switchOut => true
  | _ => false

/-- Between `m_activeThreadCount++` and `--m_activeThreadCount`. -/
def Pc.active : Pc → Bool
  | .start _ | .drop | .swapIn .. | .running .. | .ran .. => true
  | _ => false

/-- The counters say how many workers are idle and how many have a task. -/
structure Counted (s : State) : Prop where
  idle : s.shared.idleThreadCount = s.workers.countP (·.pc.idles)
  active : s.shared.activeThreadCount = s.workers.countP (·.pc.active)

theorem sleep_cases (asked nextTimeout : UInt64) :
    Pc.sleep asked nextTimeout = .polling ∨ ∃ t, Pc.sleep asked nextTimeout = .waiting t := by
  unfold Pc.sleep
  dsimp only
  split
  · exact Or.inr ⟨_, rfl⟩
  · split
    · exact Or.inl rfl
    · exact Or.inr ⟨_, rfl⟩

@[simp] theorem idles_sleep (asked nextTimeout : UInt64) :
    (Pc.sleep asked nextTimeout).idles = true := by
  rcases sleep_cases asked nextTimeout with h | ⟨t, h⟩ <;> rw [h] <;> rfl

@[simp] theorem active_sleep (asked nextTimeout : UInt64) :
    (Pc.sleep asked nextTimeout).active = false := by
  rcases sleep_cases asked nextTimeout with h | ⟨t, h⟩ <;> rw [h] <;> rfl

theorem goOn_counters (kind : Kind) (g : Shared) (call : Call) :
    (g.goOn kind call).1.idleThreadCount = g.idleThreadCount ∧
      (g.goOn kind call).1.activeThreadCount = g.activeThreadCount := by
  by_cases hwrite : call = .write
  · subst hwrite
    exact ⟨rfl, rfl⟩
  · obtain ⟨hkeeps, -⟩ := goOn_spec kind g hwrite
    exact ⟨hkeeps.idle, hkeeps.active⟩

variable {kind : Kind} {g g' : Shared} {w : Nat} {wk wk' : Worker} {c : Choice}

/-- Where `listExpiredCb` leaves its first section. -/
theorem pc_of_list (expired : List Nat) (now : UInt64) (tickled : Bool) :
    (if expired.isEmpty then Pc.events tickled else .expired expired now tickled) = .events tickled ∨
    (if expired.isEmpty then Pc.events tickled else .expired expired now tickled) =
      .expired expired now tickled := by
  cases expired.isEmpty
  · exact Or.inr rfl
  · exact Or.inl rfl

theorem moves_idle (h : Moves kind g w wk c g' wk')
    (hpos : wk.pc.idles = true → 0 < g.idleThreadCount) :
    g'.idleThreadCount + wk.pc.idles.toNat = g.idleThreadCount + wk'.pc.idles.toNat := by
  cases h with
  | call pc call calls cbf term => rw [(goOn_counters kind g call).1]
  | settleEnded f cb => cases cb <;> rfl
  | leave f cb act => cases act <;> rfl
  | op f cb op g' calls cbf term hkind hbegin => rw [(begin_spec hbegin).1.idle]
  | trigger tickled i g' calls cbf term htrigger => rw [(trigger_spec htrigger).1.idle]
  | scheduleAll cbs => rw [(scheduleAll_spec cbs g).1.idle]; rfl
  | list tickled cur =>
      rcases pc_of_list (g.timers.takeExpired g.now cur).2 g.now tickled with h | h <;>
        rw [h] <;> rfl
  | nextTimer => rw [idles_sleep]; rfl
  | pending asked => exact congrArg (_ + Bool.toNat ·) (idles_sleep asked (~~~0)).symm
  | waits asked => exact congrArg (_ + Bool.toNat ·) (idles_sleep asked (~~~0)).symm
  | switchOut =>
      have hcount : 0 < g.idleThreadCount := hpos rfl
      exact Nat.sub_add_cancel hcount
  | _ => rfl

theorem moves_active (h : Moves kind g w wk c g' wk')
    (hpos : wk.pc.active = true → 0 < g.activeThreadCount) :
    g'.activeThreadCount + wk.pc.active.toNat = g.activeThreadCount + wk'.pc.active.toNat := by
  cases h with
  | call pc call calls cbf term => rw [(goOn_counters kind g call).2]
  | settleEnded f cb => cases cb <;> rfl
  | leave f cb act => cases act <;> rfl
  | op f cb op g' calls cbf term hkind hbegin => rw [(begin_spec hbegin).1.active]
  | trigger tickled i g' calls cbf term htrigger => rw [(trigger_spec htrigger).1.active]
  | scheduleAll cbs => rw [(scheduleAll_spec cbs g).1.active]; rfl
  | list tickled cur =>
      rcases pc_of_list (g.timers.takeExpired g.now cur).2 g.now tickled with h | h <;>
        rw [h] <;> rfl
  | nextTimer => rw [active_sleep]; rfl
  | pending asked => exact congrArg (_ + Bool.toNat ·) (active_sleep asked (~~~0)).symm
  | waits asked => exact congrArg (_ + Bool.toNat ·) (active_sleep asked (~~~0)).symm
  | drop | ran =>
      have hcount := hpos rfl
      simp only [Pc.active, Bool.toNat_true, Bool.toNat_false]
      omega
  | _ => rfl

end Counters

section Step

variable {kind : Kind} {s t : State}

/-- The section of a call that the step executes. -/
def State.callOf (s : State) : Label → Option Call
  | .worker w .go => s.workers[w]?.bind (·.calls.head?)
  | .goOn i => s.others[i]?.bind List.head?
  | _ => none

theorem callOf_worker {w : Nat} {wk : Worker} (h : s.workers[w]? = some wk) :
    s.callOf (.worker w .go) = wk.calls.head? := by
  rw [State.callOf, h]
  rfl

theorem callOf_goOn {i : Nat} {calls : List Call} (h : s.others[i]? = some calls) :
    s.callOf (.goOn i) = calls.head? := by
  rw [State.callOf, h]
  rfl

/-- A step of a worker, taken apart. -/
theorem step_worker {w : Nat} {c : Choice} (h : step kind s (.worker w c) = some t) :
    ∃ wk g wk', s.workers[w]? = some wk ∧ Moves kind s.shared w wk c g wk' ∧
      t = { s with shared := g, workers := s.workers.set w wk' } := by
  simp only [step] at h
  split at h
  · rename_i wk hwk
    obtain ⟨⟨g, wk'⟩, hnext, rfl⟩ := Option.map_eq_some_iff.mp h
    exact ⟨wk, g, wk', hwk, moves_of_next hnext, rfl⟩
  · cases h

theorem step_outside {op : Op} (h : step kind s (.outside op) = some t) :
    ∃ g calls, (kind = .ioManager ∨ op.ofScheduler = true) ∧ s.shared.begin op = some (g, calls) ∧
      t = { s with shared := g, others := s.others ++ [calls] } := by
  simp only [step] at h
  split at h
  · rename_i hkind
    obtain ⟨⟨g, calls⟩, hbegin, rfl⟩ := Option.map_eq_some_iff.mp h
    exact ⟨g, calls, hkind, hbegin, rfl⟩
  · cases h

theorem step_goOn {i : Nat} (h : step kind s (.goOn i) = some t) :
    ∃ call calls, s.others[i]? = some (call :: calls) ∧
      t = { s with
        shared := (s.shared.goOn kind call).1
        others := s.others.set i ((s.shared.goOn kind call).2 ++ calls) } := by
  simp only [step] at h
  split at h
  · rename_i call calls hcalls
    cases h
    exact ⟨call, calls, hcalls, rfl⟩
  · cases h

theorem step_tick {now : UInt64} (h : step kind s (.tick now) = some t) :
    s.shared.now ≤ now ∧ t = { s with shared := { s.shared with now := now } } := by
  simp only [step] at h
  split at h
  · rename_i hnow
    cases h
    exact ⟨hnow, rfl⟩
  · cases h

theorem step_foreign {f : Nat} {st : FiberState} (h : step kind s (.foreign f st) = some t) :
    (¬ ∃ wk ∈ s.workers, wk.pc.holds = some f) ∧ t = { s with shared := s.shared.setFiber f st } := by
  simp only [step] at h
  split at h
  · cases h
  · rename_i hholds
    cases h
    exact ⟨hholds, rfl⟩

/-- The counters of a state with one worker changed. -/
theorem Counted.worker {w : Nat} {wk wk' : Worker} {c : Choice} {g : Shared} (h : Counted s)
    (hwk : s.workers[w]? = some wk) (hmoves : Moves kind s.shared w wk c g wk') :
    Counted { s with shared := g, workers := s.workers.set w wk' } := by
  have hidle := moves_idle hmoves fun hi => by
    rw [h.idle, List.countP_pos_iff]
    exact ⟨wk, List.mem_of_getElem? hwk, hi⟩
  have hactive := moves_active hmoves fun ha => by
    rw [h.active, List.countP_pos_iff]
    exact ⟨wk, List.mem_of_getElem? hwk, ha⟩
  have hidles := countP_set_add (fun x : Worker => x.pc.idles) wk' hwk
  have hactives := countP_set_add (fun x : Worker => x.pc.active) wk' hwk
  have heqIdle := h.idle
  have heqActive := h.active
  constructor
  · show g.idleThreadCount = (s.workers.set w wk').countP fun x => x.pc.idles
    omega
  · show g.activeThreadCount = (s.workers.set w wk').countP fun x => x.pc.active
    omega

theorem Counted.of_shared {g : Shared} {others : List (List Call)} (h : Counted s)
    (hidle : g.idleThreadCount = s.shared.idleThreadCount)
    (hactive : g.activeThreadCount = s.shared.activeThreadCount) :
    Counted { s with shared := g, others := others } :=
  ⟨hidle.trans h.idle, hactive.trans h.active⟩

theorem counted_step {l : Label} (h : Counted s) (hstep : step kind s l = some t) : Counted t := by
  cases l with
  | worker w c =>
      obtain ⟨wk, g, wk', hwk, hmoves, rfl⟩ := step_worker hstep
      exact h.worker hwk hmoves
  | outside op =>
      obtain ⟨g, calls, -, hbegin, rfl⟩ := step_outside hstep
      obtain ⟨hkeeps, -⟩ := begin_spec hbegin
      exact h.of_shared hkeeps.idle hkeeps.active
  | goOn i =>
      obtain ⟨call, calls, -, rfl⟩ := step_goOn hstep
      obtain ⟨hidle, hactive⟩ := goOn_counters kind s.shared call
      exact h.of_shared hidle hactive
  | tick now =>
      obtain ⟨-, rfl⟩ := step_tick hstep
      exact h.of_shared rfl rfl
  | foreign f st =>
      obtain ⟨-, rfl⟩ := step_foreign hstep
      exact h.of_shared rfl rfl

theorem counted_init (threadCount : Nat) (useCaller : Bool) (fibers : Nat → FiberState)
    (count : Nat) (now : UInt64) : Counted (init threadCount useCaller fibers count now) := by
  have hnone : ∀ p : Pc → Bool, p .scan = false →
      (init threadCount useCaller fibers count now).workers.countP (fun x => p x.pc) = 0 := by
    intro p hp
    rw [List.countP_eq_zero]
    intro wk hwk
    rw [(List.mem_replicate.mp hwk).2, hp]
    exact Bool.false_ne_true
  exact ⟨(hnone Pc.idles rfl).symm, (hnone Pc.active rfl).symm⟩

end Step

end Workers

end Saturn
