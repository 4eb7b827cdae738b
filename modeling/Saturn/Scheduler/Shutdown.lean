import Saturn.Misc.Run
import Saturn.Scheduler.WorkerSteps
import Saturn.Timer.Deadlines

/-!
# What `stopping` leaves behind

`IOManager::stopping` reads the timers, then the number of pending events, then the queue and the
number of active workers. Work moves from one of these places to another in more than one step, and
on its way it is in none of them.
-/

namespace Saturn

namespace TimerManager

variable {m : TimerManager}

/-- `m_recurring` of some of the timers. -/
def recurs (m : TimerManager) (expired : List Nat) : Bool :=
  expired.any fun t => (m.heap t).any Timer.recurring

/-- Only `insert` puts a timer into the empty set. -/
theorem find_of_empty (h : m.timers = []) (t : Nat) : m.find t = none := by
  rw [find, h]
  rfl

theorem timers_cancel_empty (h : m.timers = []) (t : Nat) : (m.cancel t).1.timers = [] := by
  rw [cancel]
  split
  · exact h
  · rename_i timer _
    split
    · have hset : (m.setTimer t { timer with cb := none }).timers = [] := h
      dsimp only
      rw [find_of_empty hset]
      exact hset
    · exact h

theorem timers_refresh_empty (h : m.timers = []) (t : Nat) (now : UInt64) :
    (m.refresh t now).1.timers = [] := by
  rw [refresh]
  split
  · exact h
  · split
    · exact h
    · rw [find_of_empty h]
      exact h

theorem timers_reset_empty (h : m.timers = []) (t : Nat) (ms : UInt64) (fromNow : Bool)
    (now : UInt64) : (m.reset t ms fromNow now).1.timers = [] := by
  rw [reset]
  split
  · exact h
  · split
    · exact h
    · rw [find_of_empty h]
      exact h

theorem timers_getNextTimer (m : TimerManager) (now : UInt64) :
    (m.getNextTimer now).1.timers = m.timers := by
  unfold getNextTimer
  dsimp only
  split <;> rfl

theorem takeExpired_empty (h : m.timers = []) (now : UInt64) (cur : Nat) :
    (m.takeExpired now cur).1.timers = [] ∧ (m.takeExpired now cur).2 = [] := by
  simp [takeExpired, h, StdSet.above, StdSet.below]

/-- What does not recur is not put back. -/
theorem putBack_of_not_recurs (cur : UInt64) (expired : List Nat) (h : m.recurs expired = false) :
    (m.putBack cur expired).1 = m := by
  induction expired with
  | nil => rfl
  | cons ex expired ih =>
      rw [recurs, List.any_cons, Bool.or_eq_false_iff] at h
      rw [putBack]
      cases htimer : m.heap ex with
      | none => exact ih h.2
      | some timer =>
          have hrec : timer.recurring = false := by simpa [htimer] using h.1
          simp only [hrec, Bool.false_eq_true, if_false]
          exact ih h.2

end TimerManager

namespace Workers

open Scheduler (FiberState Task FiberAndThread Action)
open Shared (tickleIf)

section Property

/-- Between the two sections of `listExpiredCb`, or with its callbacks not yet scheduled. -/
def Pc.lists : Pc → Bool
  | .expired .. | .callbacks .. => true
  | _ => false

/-- The fiber that has come back and whose state is still to be looked at. -/
def Pc.settles : Pc → Option Nat
  | .settle f _ => some f
  | _ => none

/-- The worker holds no work: it has no task, no fiber to put back in and no callback to schedule. -/
structure Worker.Rests (fibers : Nat → FiberState) (wk : Worker) : Prop where
  active : wk.pc.active = false
  lists : wk.pc.lists = false
  settles : ∀ f ∈ wk.pc.settles, fibers f ≠ .ready

/-- There is no work anywhere. -/
structure NoWork (s : State) : Prop where
  queue : s.shared.queue = []
  timers : s.shared.timers.timers = []
  events : s.shared.events = []
  workers : ∀ wk ∈ s.workers, wk.Rests s.shared.fibers

/-- Once `stopping` has returned true to some worker, there is no work anywhere. -/
def LosesNoWork (s : State) : Prop := (∃ wk ∈ s.workers, wk.idleTerm = true) → NoWork s

end Property

section Condition

/-- After `stop` has set both flags the workers are on their own: no thread outside makes a call or puts
a timer into the set or a task into the queue. -/
def Closed (s : State) (l : Label) : Prop :=
  s.shared.autoStop = true → s.shared.stopping = true →
    match l with
    | .outside _ => False
    | .goOn i =>
        match s.callOf (.goOn i) with
        | some (.insert _) | some (.putBack ..) | some (.schedule _) => False
        | _ => True
    | _ => True

instance (s : State) : (l : Label) → Decidable (Closed s l)
  | .outside _ => inferInstanceAs (Decidable (_ → _ → False))
  | .goOn i =>
      have : Decidable (match s.callOf (.goOn i) with
          | some (.insert _) | some (.putBack ..) | some (.schedule _) => False
          | _ => True) :=
        match s.callOf (.goOn i) with
        | some (.insert _) | some (.putBack ..) | some (.schedule _) => isFalse id
        | none | some .tickle | some .write | some .decPending | some .setStopping => isTrue trivial
      inferInstanceAs (Decidable (_ → _ → _))
  | .worker .. | .tick _ | .foreign .. => inferInstanceAs (Decidable (_ → _ → True))

/-- The step is a worker's call of `Scheduler::stopping`. -/
def State.Checks (s : State) : Label → Bool
  | .worker w .go =>
      match s.workers[w]? with
      | some ⟨.check _, [], _, _⟩ => true
      | _ => false
  | _ => false

/-- The step is a worker's call of `getNextTimer` in `stopping`. -/
def State.AsksTimer (s : State) : Label → Bool
  | .worker w .go =>
      match s.workers[w]? with
      | some ⟨.nextTimer, [], _, _⟩ => true
      | _ => false
  | _ => false

/-- The step puts a timer into the set. -/
def State.Inserts (s : State) (l : Label) : Bool :=
  match s.callOf l with
  | some (.insert _) => true
  | some (.putBack expired _) => s.shared.timers.recurs expired
  | some _ => false
  | none =>
      match l with
      | .worker w .go =>
          match (s.workers[w]?).map Worker.pc with
          | some (.expired expired _ _) => s.shared.timers.recurs expired
          | _ => false
      | _ => false

/-- The operation adds an event. -/
def Op.addsEvent : Op → Bool
  | .addEvent _ => true
  | _ => false

/-- The step registers an event. -/
def Label.addsEvent : Label → Bool
  | .worker _ (.call op) | .outside op => op.addsEvent
  | _ => false

/-- Between `getNextTimer` and `Scheduler::stopping`. -/
def Pc.asks : Pc → Bool
  | .pendingEvents _ | .check _ => true
  | _ => false

/-- Between the test of `m_pendingEventCount` and `Scheduler::stopping`. -/
def Pc.checks : Pc → Bool
  | .check _ => true
  | _ => false

/-- No work is on its way past a worker that is in `stopping`. When it looks at the queue no other
worker has taken a fiber off the active count and not yet put it back, and none has callbacks in
hand; and between what it read before and that no timer is put in and no event is registered. A
deadline is never `~0ull` ahead. -/
structure WorkSeen (s : State) (l : Label) : Prop where
  ready : s.Checks l = true → ∀ wk ∈ s.workers, ∀ f ∈ wk.pc.settles, s.shared.fibers f ≠ .ready
  lists : s.Checks l = true → ∀ wk ∈ s.workers, wk.pc.lists = false
  timers : s.Inserts l = true → ∀ wk ∈ s.workers, wk.pc.asks = false
  events : l.addsEvent = true → ∀ wk ∈ s.workers, wk.pc.checks = false
  deadline : s.AsksTimer l = true → ∀ t ∈ s.shared.timers.timers.head?,
    s.shared.now < s.shared.timers.next t → s.shared.timers.next t - s.shared.now ≠ ~~~0

instance (s : State) (l : Label) : Decidable (WorkSeen s l) :=
  decidable_of_iff
    ((s.Checks l = true → ∀ wk ∈ s.workers, ∀ f ∈ wk.pc.settles, s.shared.fibers f ≠ .ready) ∧
      (s.Checks l = true → ∀ wk ∈ s.workers, wk.pc.lists = false) ∧
      (s.Inserts l = true → ∀ wk ∈ s.workers, wk.pc.asks = false) ∧
      (l.addsEvent = true → ∀ wk ∈ s.workers, wk.pc.checks = false) ∧
      (s.AsksTimer l = true → ∀ t ∈ s.shared.timers.timers.head?,
        s.shared.now < s.shared.timers.next t → s.shared.timers.next t - s.shared.now ≠ ~~~0))
    ⟨fun ⟨h₁, h₂, h₃, h₄, h₅⟩ => ⟨h₁, h₂, h₃, h₄, h₅⟩,
      fun ⟨h₁, h₂, h₃, h₄, h₅⟩ => ⟨h₁, h₂, h₃, h₄, h₅⟩⟩

end Condition

section Sections

variable {kind : Kind} {g g' : Shared}

/-- What is left to do in a call behind one of its sections. -/
theorem goOn_more (kind : Kind) (g : Shared) (call : Call) :
    ∀ c ∈ (g.goOn kind call).2, c = .tickle ∨ c = .write := by
  intro c hc
  cases call with
  | tickle =>
      cases kind with
      | scheduler => cases hc
      | ioManager =>
          simp only [Shared.goOn] at hc
          split at hc
          · cases hc
          · exact Or.inr (List.mem_singleton.mp hc)
  | insert | schedule => exact Or.inl (mem_tickleIf.mp hc).2
  | _ => cases hc

theorem count_decPending_tickleIf (need : Bool) : (tickleIf need).count .decPending = 0 := by
  cases need <;> rfl

theorem count_decPending_more (kind : Kind) (g : Shared) (call : Call) :
    (g.goOn kind call).2.count .decPending = 0 := by
  rw [List.count_eq_zero]
  intro hc
  rcases goOn_more kind g call _ hc with h | h <;> cases h

theorem goOn_timers {call : Call} (h : g.timers.timers = []) (hinsert : ∀ t, call ≠ .insert t)
    (hback : ∀ expired cur, call = .putBack expired cur → g.timers.recurs expired = false) :
    (g.goOn kind call).1.timers.timers = [] := by
  cases call with
  | tickle => cases kind <;> exact h
  | insert t => exact absurd rfl (hinsert t)
  | putBack expired cur =>
      simp only [Shared.goOn]
      rw [TimerManager.putBack_of_not_recurs cur expired (hback expired cur rfl)]
      exact h
  | write | decPending | schedule | setStopping => exact h

/-- No call puts a timer into the empty set in its first section. -/
theorem begin_timers {op : Op} {calls : List Call} (h : g.timers.timers = [])
    (hbegin : g.begin op = some (g', calls)) : g'.timers.timers = [] := by
  cases op with
  | newFiber | stop =>
      cases hbegin
      exact h
  | cancel t =>
      cases hbegin
      exact TimerManager.timers_cancel_empty h t
  | refresh t =>
      cases hbegin
      exact TimerManager.timers_refresh_empty h t _
  | reset t ms fromNow =>
      cases hbegin
      exact TimerManager.timers_reset_empty h t ms fromNow _
  | getNextTimer =>
      cases hbegin
      exact (TimerManager.timers_getNextTimer g.timers g.now).trans h
  | cancelAll i =>
      simp only [Shared.begin, Shared.trigger] at hbegin
      split at hbegin
      · cases hbegin
      · cases hbegin
        exact h
  | schedule | addTimer | addEvent | delEvent | cancelEvent =>
      simp only [Shared.begin] at hbegin
      split at hbegin <;> cases hbegin
      exact h
  | listExpiredCb cur =>
      simp only [Shared.begin, h] at hbegin
      split at hbegin
      · cases hbegin
      · cases hbegin
        exact h

/-- The pending events are the registered ones and those whose count is about to go down. -/
theorem trigger_balance {i : Nat} {calls : List Call} (h : g.trigger i = some (g', calls)) :
    g'.pendingEventCount + g.events.length =
      g.pendingEventCount + g'.events.length + calls.count .decPending := by
  unfold Shared.trigger at h
  split at h
  · cases h
  · rename_i task htask
    obtain ⟨hi, -⟩ := List.getElem?_eq_some_iff.mp htask
    cases h
    simp only [List.count_append, count_decPending_tickleIf,
      List.length_eraseIdx_of_lt hi, List.count_cons_self, List.count_nil]
    omega

theorem begin_balance {op : Op} {calls : List Call} (h : g.begin op = some (g', calls)) :
    g'.pendingEventCount + g.events.length =
      g.pendingEventCount + g'.events.length + calls.count .decPending := by
  cases op with
  | cancelAll i => exact trigger_balance h
  | schedule task thread =>
      simp only [Shared.begin] at h
      split at h
      · cases h
        rw [count_decPending_tickleIf]
        rfl
      · cases h
  | addEvent task =>
      simp only [Shared.begin] at h
      split at h
      · cases h
        simp only [List.length_append, List.length_singleton, List.count_nil]
        omega
      · cases h
  | delEvent i =>
      simp only [Shared.begin] at h
      split at h
      · cases h
      · rename_i task htask
        obtain ⟨hi, -⟩ := List.getElem?_eq_some_iff.mp htask
        cases h
        simp only [List.length_eraseIdx_of_lt hi, List.count_cons_self, List.count_nil]
        omega
  | cancelEvent i =>
      simp only [Shared.begin] at h
      split at h
      · cases h
      · rename_i task htask
        obtain ⟨hi, -⟩ := List.getElem?_eq_some_iff.mp htask
        have hcount : [Call.decPending, .schedule task].count .decPending = 1 := by
          rw [List.count_cons_self, List.count_singleton]
          rfl
        cases h
        simp only [List.length_eraseIdx_of_lt hi, hcount]
        omega
  | stop =>
      cases h
      rw [List.count_cons_of_ne (by decide), List.count_replicate]
      rfl
  | newFiber | cancel | refresh | getNextTimer =>
      cases h
      rfl
  | reset t ms fromNow =>
      simp only [Shared.begin, Option.some.injEq, Prod.mk.injEq] at h
      obtain ⟨rfl, rfl⟩ := h
      split <;> rfl
  | addTimer =>
      simp only [Shared.begin] at h
      split at h <;> cases h
      rfl
  | listExpiredCb cur =>
      simp only [Shared.begin] at h
      split at h
      · cases h
      · split at h <;> cases h <;> rfl

theorem goOn_balance (kind : Kind) (g : Shared) (call : Call)
    (hpos : call = .decPending → 0 < g.pendingEventCount) :
    (g.goOn kind call).1.pendingEventCount + [call].count .decPending = g.pendingEventCount ∧
      (g.goOn kind call).1.events = g.events := by
  cases call with
  | decPending =>
      have hcount := hpos rfl
      refine ⟨?_, rfl⟩
      show g.pendingEventCount - 1 + 1 = _
      omega
  | tickle => cases kind <;> exact ⟨rfl, rfl⟩
  | _ => exact ⟨rfl, rfl⟩

theorem scheduleAll_others (cbs : List (Option Nat)) : ∀ g : Shared,
    (g.scheduleAll cbs).1.timers = g.timers ∧ (g.scheduleAll cbs).1.events = g.events ∧
      (g.scheduleAll cbs).1.pendingEventCount = g.pendingEventCount ∧
      (g.scheduleAll cbs).1.autoStop = g.autoStop ∧ (g.scheduleAll cbs).1.stopping = g.stopping := by
  induction cbs with
  | nil => intro g; exact ⟨rfl, rfl, rfl, rfl, rfl⟩
  | cons cb cbs ih => intro g; exact ih (g.scheduleNoLock (cb.map .cb) none).1

end Sections

section Moves

variable {kind : Kind} {g g' : Shared} {w : Nat} {wk wk' : Worker} {c : Choice}

theorem balance_moves (h : Moves kind g w wk c g' wk')
    (hpos : .decPending ∈ wk.calls → 0 < g.pendingEventCount) :
    g'.pendingEventCount + g.events.length + wk.calls.count .decPending =
      g.pendingEventCount + g'.events.length + wk'.calls.count .decPending := by
  cases h with
  | call pc call calls cbf term =>
      obtain ⟨hcount, hevents⟩ := goOn_balance kind g call fun hdec =>
        hpos (hdec ▸ List.mem_cons_self)
      have hcons : (call :: calls).count .decPending =
          [call].count .decPending + calls.count .decPending :=
        count_cons_eq_add call _ calls
      simp only [List.count_append, count_decPending_more, hcons, hevents]
      omega
  | op f cb op g' calls cbf term hkind hbegin => exact begin_balance hbegin
  | trigger tickled i g' calls cbf term htrigger => exact trigger_balance htrigger
  | scheduleAll cbs tickled cbf term =>
      obtain ⟨-, hevents, hpending, -⟩ := scheduleAll_others cbs g
      simp only [hevents, hpending, count_decPending_tickleIf, List.count_nil]
  | take | nothing => simp only [count_decPending_tickleIf, List.count_nil]
  | settleReady =>
      simp only [count_decPending_tickleIf, List.count_nil]
      rfl
  | settleEnded f cb => cases cb <;> rfl
  | leave f cb act => cases act <;> rfl
  | _ => rfl

/-- Outside a task a worker has only wake-ups and the end of `triggerEvent` ahead of it. -/
def Call.Plain (call : Call) : Prop := call = .tickle ∨ call = .write ∨ call = .decPending

/-- What a worker that is not in a task has to do in calls. -/
def Worker.PlainCalls (wk : Worker) : Prop :=
  (∃ f cb, wk.pc = .running f cb) ∨ ∀ call ∈ wk.calls, call.Plain

theorem plain_tickleIf (need : Bool) : ∀ call ∈ tickleIf need, call.Plain :=
  fun _ hcall => Or.inl (mem_tickleIf.mp hcall).2

theorem plainCalls_moves (h : Moves kind g w wk c g' wk') (hplain : wk.PlainCalls) :
    wk'.PlainCalls := by
  cases h with
  | call pc call calls cbf term =>
      refine hplain.imp id fun hcalls x hx => ?_
      rcases List.mem_append.mp hx with hx | hx
      · exact (goOn_more kind g call x hx).imp id Or.inl
      · exact hcalls x (List.mem_cons_of_mem _ hx)
  | swapIn f cb | op f cb => exact Or.inl ⟨f, cb, rfl⟩
  | take | nothing | settleReady | scheduleAll => exact Or.inr (plain_tickleIf _)
  | trigger tickled i g' calls cbf term htrigger =>
      refine Or.inr ?_
      unfold Shared.trigger at htrigger
      split at htrigger
      · cases htrigger
      · cases htrigger
        intro x hx
        rcases List.mem_append.mp hx with hx | hx
        · exact plain_tickleIf _ x hx
        · exact Or.inr (Or.inr (List.mem_singleton.mp hx))
  | _ => exact Or.inr fun x hx => absurd hx List.not_mem_nil

/-- The set stays empty over a step that puts no timer in. -/
theorem timers_moves (h : Moves kind g w wk c g' wk') (hempty : g.timers.timers = [])
    (hinsert : ∀ t, c = .go → wk.calls.head? ≠ some (.insert t))
    (hback : ∀ expired cur, c = .go → wk.calls.head? = some (.putBack expired cur) →
      g.timers.recurs expired = false)
    (hexpired : ∀ expired cur tickled, c = .go → wk.calls = [] →
      wk.pc = .expired expired cur tickled → g.timers.recurs expired = false) :
    g'.timers.timers = [] := by
  cases h with
  | call pc call calls cbf term =>
      exact goOn_timers hempty (fun t heq => hinsert t rfl (congrArg some heq))
        fun expired cur heq => hback expired cur rfl (congrArg some heq)
  | op f cb op g' calls cbf term hkind hbegin => exact begin_timers hempty hbegin
  | trigger tickled i g' calls cbf term htrigger =>
      unfold Shared.trigger at htrigger
      split at htrigger <;> cases htrigger
      exact hempty
  | scheduleAll cbs => exact (congrArg TimerManager.timers (scheduleAll_others cbs g).1).trans hempty
  | noTimer | nextTimer => exact (TimerManager.timers_getNextTimer g.timers g.now).trans hempty
  | putBack expired cur tickled cbf term =>
      show (g.timers.putBack cur expired).1.timers = []
      rw [TimerManager.putBack_of_not_recurs cur expired (hexpired expired cur tickled rfl rfl rfl)]
      exact hempty
  | list tickled cur => exact (TimerManager.takeExpired_empty hempty g.now cur).1
  | settleEnded f cb => cases cb <;> exact hempty
  | leave f cb act => cases act <;> exact hempty
  | _ => exact hempty

theorem begin_pending {op : Op} {calls : List Call} (hop : op.addsEvent = false)
    (h : g.begin op = some (g', calls)) : g'.pendingEventCount = g.pendingEventCount := by
  cases op with
  | addEvent => cases hop
  | cancelAll i =>
      simp only [Shared.begin, Shared.trigger] at h
      split at h <;> cases h
      rfl
  | newFiber | cancel | refresh | reset | getNextTimer | stop =>
      simp only [Shared.begin, Option.some.injEq] at h
      cases h
      rfl
  | schedule | addTimer | delEvent | cancelEvent =>
      simp only [Shared.begin] at h
      split at h <;> cases h
      rfl
  | listExpiredCb =>
      simp only [Shared.begin] at h
      split at h
      · cases h
      · split at h <;> cases h <;> rfl

theorem goOn_pending_le (kind : Kind) (g : Shared) (call : Call) :
    (g.goOn kind call).1.pendingEventCount ≤ g.pendingEventCount := by
  cases call with
  | tickle => cases kind <;> exact Nat.le_refl _
  | decPending => exact Nat.sub_le _ _
  | _ => exact Nat.le_refl _

theorem pending_moves_le (h : Moves kind g w wk c g' wk')
    (hadds : (Label.worker w c).addsEvent = false) :
    g'.pendingEventCount ≤ g.pendingEventCount := by
  cases h with
  | call pc call => exact goOn_pending_le kind g call
  | op f cb op g' calls cbf term hkind hbegin => exact (begin_pending hadds hbegin).le
  | trigger tickled i g' calls cbf term htrigger =>
      unfold Shared.trigger at htrigger
      split at htrigger <;> cases htrigger
      exact Nat.le_refl _
  | scheduleAll cbs => exact (scheduleAll_others cbs g).2.2.1.le
  | settleEnded f cb => cases cb <;> exact Nat.le_refl _
  | leave f cb act => cases act <;> exact Nat.le_refl _
  | _ => exact Nat.le_refl _

/-- `m_autoStop` and `m_stopping`, once set, stay set. -/
structure Shared.StaysStopped (g g' : Shared) : Prop where
  autoStop : g.autoStop = true → g'.autoStop = true
  stopping : g.stopping = true → g'.stopping = true

theorem begin_staysStopped {op : Op} {calls : List Call} (h : g.begin op = some (g', calls)) :
    g.StaysStopped g' := by
  cases op with
  | cancelAll i =>
      simp only [Shared.begin, Shared.trigger] at h
      split at h <;> cases h
      exact ⟨id, id⟩
  | stop =>
      cases h
      exact ⟨fun _ => rfl, id⟩
  | newFiber | cancel | refresh | reset | getNextTimer =>
      simp only [Shared.begin, Option.some.injEq] at h
      cases h
      exact ⟨id, id⟩
  | schedule | addTimer | addEvent | delEvent | cancelEvent =>
      simp only [Shared.begin] at h
      split at h <;> cases h
      exact ⟨id, id⟩
  | listExpiredCb =>
      simp only [Shared.begin] at h
      split at h
      · cases h
      · split at h <;> cases h <;> exact ⟨id, id⟩

theorem goOn_staysStopped (kind : Kind) (g : Shared) (call : Call) :
    g.StaysStopped (g.goOn kind call).1 := by
  cases call with
  | tickle => cases kind <;> exact ⟨id, id⟩
  | setStopping => exact ⟨id, fun _ => rfl⟩
  | _ => exact ⟨id, id⟩

theorem staysStopped_moves (h : Moves kind g w wk c g' wk') : g.StaysStopped g' := by
  cases h with
  | call pc call => exact goOn_staysStopped kind g call
  | op f cb op g' calls cbf term hkind hbegin => exact begin_staysStopped hbegin
  | trigger tickled i g' calls cbf term htrigger =>
      unfold Shared.trigger at htrigger
      split at htrigger <;> cases htrigger
      exact ⟨id, id⟩
  | scheduleAll cbs =>
      obtain ⟨-, -, -, hauto, hstop⟩ := scheduleAll_others cbs g
      exact ⟨fun h => hauto.trans h, fun h => hstop.trans h⟩
  | settleEnded f cb => cases cb <;> exact ⟨id, id⟩
  | leave f cb act => cases act <;> exact ⟨id, id⟩
  | _ => exact ⟨id, id⟩

/-- The statements of `IOManager::stopping` and `IOManager::idle`. -/
def Pc.managed : Pc → Bool
  | .nextTimer | .pendingEvents _ | .waiting _ | .polling | .woken _ | .expired ..
  | .callbacks .. | .events _ => true
  | _ => false

theorem managed_moves (h : Moves .scheduler g w wk c g' wk') (hpc : wk.pc.managed = false) :
    wk'.pc.managed = false := by
  cases h with
  | call => exact hpc
  | countManager cbf term hkind => cases hkind
  | waits asked cbf term hstops hkind => cases hkind
  | noTimer | nextTimer | noPending | pending | putBack | scheduleAll | handled | wake | polled
  | listNone | list | drain | trigger => cases hpc
  | _ => rfl

/-- A worker comes into `stopping` at `getNextTimer`. -/
theorem asks_moves (h : Moves kind g w wk c g' wk') (hasks : wk'.pc.asks = true) :
    wk.pc.asks = true ∨ kind = .scheduler ∨
      (∃ cbf term, wk = ⟨.nextTimer, [], cbf, term⟩) ∧ c = .go ∧
        (g.timers.getNextTimer g.now).2 = ~~~0 := by
  cases h with
  | call => exact Or.inl hasks
  | countScheduler cbf term hkind => exact Or.inr (Or.inl hkind)
  | noTimer cbf term hnone => exact Or.inr (Or.inr ⟨⟨cbf, term, rfl⟩, rfl, hnone⟩)
  | noPending | pending | stops | yields | waits => exact Or.inl rfl
  | nextTimer =>
      rcases sleep_cases g.now (g.timers.getNextTimer g.now).2 with h | ⟨t, h⟩ <;>
        rw [h] at hasks <;> cases hasks
  | list tickled cur =>
      rcases pc_of_list (g.timers.takeExpired g.now cur).2 g.now tickled with h | h <;>
        simp only [h] at hasks <;> cases hasks
  | _ => cases hasks

/-- It comes to `Scheduler::stopping` where no event is pending. -/
theorem checks_moves (h : Moves kind g w wk c g' wk') (hchecks : wk'.pc.checks = true) :
    wk.pc.checks = true ∨ kind = .scheduler ∨ g.pendingEventCount = 0 := by
  cases h with
  | call => exact Or.inl hchecks
  | countScheduler cbf term hkind => exact Or.inr (Or.inl hkind)
  | noPending asked cbf term hnone => exact Or.inr (Or.inr hnone)
  | stops | yields | waits => exact Or.inl rfl
  | nextTimer =>
      rcases sleep_cases g.now (g.timers.getNextTimer g.now).2 with h | ⟨t, h⟩ <;>
        rw [h] at hchecks <;> cases hchecks
  | pending asked =>
      rcases sleep_cases asked (~~~0) with h | ⟨t, h⟩ <;> rw [h] at hchecks <;> cases hchecks
  | list tickled cur =>
      rcases pc_of_list (g.timers.takeExpired g.now cur).2 g.now tickled with h | h <;>
        simp only [h] at hchecks <;> cases hchecks
  | _ => cases hchecks

/-- An idle fiber ends where `stopping` has returned true. -/
theorem idleTerm_moves (h : Moves kind g w wk c g' wk') (hterm : wk'.idleTerm = true) :
    wk.idleTerm = true ∨
      (∃ asked cbf term, wk = ⟨.check asked, [], cbf, term⟩) ∧ c = .go ∧ g.stops = true ∧ g' = g ∧
        wk'.pc = .switchOut := by
  cases h with
  | stops asked cbf term hstops =>
      exact Or.inr ⟨⟨asked, cbf, term, rfl⟩, rfl, hstops, rfl, rfl⟩
  | _ => exact Or.inl hterm

/-- Where there is no work, a worker without any goes on to find none. -/
theorem rests_moves (h : Moves kind g w wk c g' wk') (hqueue : g.queue = [])
    (htimers : g.timers.timers = []) (hevents : g.events = []) (hrests : wk.Rests g.fibers)
    (hplain : wk.PlainCalls) :
    g'.queue = [] ∧ g'.timers.timers = [] ∧ g'.events = [] ∧ wk'.Rests g'.fibers ∧
      ∀ f, g'.fibers f = .ready → g.fibers f = .ready := by
  obtain ⟨hactive, hlists, hsettles⟩ := hrests
  cases h with
  | call pc call calls cbf term =>
      have hcall : call.Plain := by
        rcases hplain with ⟨f, cb, rfl⟩ | hcalls
        · cases hactive
        · exact hcalls call List.mem_cons_self
      rcases hcall with rfl | rfl | rfl
      · cases kind <;> exact ⟨hqueue, htimers, hevents, ⟨hactive, hlists, hsettles⟩, fun _ => id⟩
      all_goals exact ⟨hqueue, htimers, hevents, ⟨hactive, hlists, hsettles⟩, fun _ => id⟩
  | take task rest tickleMe cbf term hscan =>
      rw [hqueue] at hscan
      cases hscan
  | startFiber | startEnded | startReset | startNew | drop | swapIn | ran | op | leave =>
      cases hactive
  | putBack | scheduleAll => cases hlists
  | settleReady f cb cbf term hready => exact absurd hready (hsettles f rfl)
  | settleEnded f cb cbf term hend =>
      cases cb with
      | false =>
          exact ⟨hqueue, htimers, hevents, ⟨rfl, rfl, fun f hf => by cases hf⟩, fun _ => id⟩
      | true =>
          refine ⟨hqueue, htimers, hevents, ⟨rfl, rfl, fun f hf => by cases hf⟩, fun f' hf' => ?_⟩
          simp only [if_true, fibers_setFiber] at hf'
          split at hf'
          · cases hf'
          · exact hf'
  | settleHold f cb =>
      refine ⟨hqueue, htimers, hevents, ⟨rfl, rfl, fun f hf => by cases hf⟩, fun f' hf' => ?_⟩
      rw [fibers_setFiber] at hf'
      split at hf'
      · cases hf'
      · exact hf'
  | noTimer =>
      exact ⟨hqueue, (TimerManager.timers_getNextTimer _ _).trans htimers, hevents,
        ⟨rfl, rfl, fun f hf => by cases hf⟩, fun _ => id⟩
  | nextTimer =>
      refine ⟨hqueue, (TimerManager.timers_getNextTimer _ _).trans htimers, hevents, ?_,
        fun _ => id⟩
      rcases sleep_cases g.now (g.timers.getNextTimer g.now).2 with h | ⟨t, h⟩ <;> rw [h] <;>
        exact ⟨rfl, rfl, fun f hf => by cases hf⟩
  | pending asked | waits asked =>
      refine ⟨hqueue, htimers, hevents, ?_, fun _ => id⟩
      rcases sleep_cases asked (~~~0) with h | ⟨t, h⟩ <;> rw [h] <;>
        exact ⟨rfl, rfl, fun f hf => by cases hf⟩
  | list tickled cur =>
      obtain ⟨hnone, hexpired⟩ := TimerManager.takeExpired_empty htimers g.now cur
      refine ⟨hqueue, hnone, hevents, ?_, fun _ => id⟩
      rw [hexpired]
      exact ⟨rfl, rfl, fun f hf => by cases hf⟩
  | trigger tickled i g' calls cbf term htrigger =>
      rw [Shared.trigger, hevents] at htrigger
      cases htrigger
  | _ => exact ⟨hqueue, htimers, hevents, ⟨rfl, rfl, fun f hf => by cases hf⟩, fun _ => id⟩

end Moves

section Base

/-- The calls in which a thread can be where there is no `IOManager`. -/
def Call.Base (call : Call) : Prop := call = .tickle ∨ call = .setStopping

/-- With a plain `Scheduler` there are no timers and no events. -/
structure BaseOnly (s : State) : Prop where
  timers : s.shared.timers.timers = []
  pending : s.shared.pendingEventCount = 0
  managed : ∀ wk ∈ s.workers, wk.pc.managed = false
  calls : ∀ wk ∈ s.workers, ∀ call ∈ wk.calls, call.Base
  others : ∀ calls ∈ s.others, ∀ call ∈ calls, call.Base

variable {g g' : Shared} {w : Nat} {wk wk' : Worker} {c : Choice}

theorem begin_base {op : Op} {calls : List Call} (hop : op.ofScheduler = true)
    (h : g.begin op = some (g', calls)) : ∀ call ∈ calls, call.Base := by
  cases op with
  | newFiber =>
      cases h
      exact fun _ hx => absurd hx List.not_mem_nil
  | schedule task thread =>
      simp only [Shared.begin] at h
      split at h <;> cases h
      exact fun _ hx => Or.inl (mem_tickleIf.mp hx).2
  | stop =>
      cases h
      intro x hx
      rcases List.mem_cons.mp hx with rfl | hx
      · exact Or.inr rfl
      · exact Or.inl (List.mem_replicate.mp hx).2
  | _ => cases hop

theorem goOn_base {call : Call} (h : call.Base) : (g.goOn .scheduler call).2 = [] := by
  rcases h with rfl | rfl <;> rfl

theorem addsEvent_of_ofScheduler {op : Op} (h : op.ofScheduler = true) : op.addsEvent = false := by
  cases op <;> first | rfl | cases h

theorem calls_base_moves (h : Moves .scheduler g w wk c g' wk') (hpc : wk.pc.managed = false)
    (hcalls : ∀ call ∈ wk.calls, call.Base) : ∀ call ∈ wk'.calls, call.Base := by
  cases h with
  | call pc call calls cbf term =>
      rw [goOn_base (hcalls call List.mem_cons_self)]
      exact fun x hx => hcalls x (List.mem_cons_of_mem _ hx)
  | take | nothing | settleReady => exact fun _ hx => Or.inl (mem_tickleIf.mp hx).2
  | op f cb op g' calls cbf term hkind hbegin =>
      exact begin_base (hkind.resolve_left fun h => by cases h) hbegin
  | scheduleAll | trigger => cases hpc
  | _ => exact fun _ hx => absurd hx List.not_mem_nil

theorem addsEvent_of_base (h : Moves .scheduler g w wk c g' wk') :
    (Label.worker w c).addsEvent = false := by
  cases h with
  | op f cb op g' calls cbf term hkind =>
      exact addsEvent_of_ofScheduler (hkind.resolve_left fun h => by cases h)
  | _ => rfl

theorem baseOnly_step {s t : State} {l : Label} (h : BaseOnly s)
    (hstep : step .scheduler s l = some t) : BaseOnly t := by
  cases l with
  | worker w c =>
      obtain ⟨wk, g, wk', hwk, hmoves, rfl⟩ := step_worker hstep
      have hmem : wk ∈ s.workers := List.mem_of_getElem? hwk
      have hcalls := h.calls wk hmem
      refine ⟨?_, ?_, forall_mem_set (managed_moves hmoves (h.managed wk hmem)) h.managed,
        forall_mem_set (calls_base_moves hmoves (h.managed wk hmem) hcalls) h.calls, h.others⟩
      · refine timers_moves hmoves h.timers (fun t _ hhead => ?_) (fun expired cur _ hhead => ?_)
          fun expired cur tickled _ _ hpc => ?_
        · rcases hcalls _ (List.mem_of_mem_head? hhead) with h | h <;> cases h
        · rcases hcalls _ (List.mem_of_mem_head? hhead) with h | h <;> cases h
        · have hmanaged := h.managed wk hmem
          rw [hpc] at hmanaged
          cases hmanaged
      · have hle := pending_moves_le hmoves (addsEvent_of_base hmoves)
        rw [h.pending] at hle
        exact Nat.le_zero.mp hle
  | outside op =>
      obtain ⟨g, calls, hkind, hbegin, rfl⟩ := step_outside hstep
      have hop := hkind.resolve_left fun h => by cases h
      refine ⟨begin_timers h.timers hbegin,
        (begin_pending (addsEvent_of_ofScheduler hop) hbegin).trans h.pending, h.managed, h.calls,
        fun x hx => ?_⟩
      rcases List.mem_append.mp hx with hx | hx
      · exact h.others x hx
      · rw [List.mem_singleton.mp hx]
        exact begin_base hop hbegin
  | goOn i =>
      obtain ⟨call, calls, hi, rfl⟩ := step_goOn hstep
      have hcalls := h.others _ (List.mem_of_getElem? hi)
      have hcall := hcalls call List.mem_cons_self
      refine ⟨goOn_timers h.timers (fun t heq => ?_) (fun expired cur heq => ?_),
        Nat.le_zero.mp ((goOn_pending_le .scheduler s.shared call).trans h.pending.le), h.managed,
        h.calls, forall_mem_set ?_ h.others⟩
      · rcases hcall with h | h <;> rw [h] at heq <;> cases heq
      · rcases hcall with h | h <;> rw [h] at heq <;> cases heq
      · rw [goOn_base hcall]
        exact fun x hx => hcalls x (List.mem_cons_of_mem _ hx)
  | tick now =>
      obtain ⟨-, rfl⟩ := step_tick hstep
      exact ⟨h.timers, h.pending, h.managed, h.calls, h.others⟩
  | foreign f st =>
      obtain ⟨-, rfl⟩ := step_foreign hstep
      exact ⟨h.timers, h.pending, h.managed, h.calls, h.others⟩

end Base

section Steps

variable {kind : Kind} {s t : State} {w : Nat} {wk wk' : Worker} {c : Choice} {g : Shared}

/-- How many threads are about to count a pending event down. -/
def State.decs (s : State) : Nat :=
  (s.workers.map fun wk => wk.calls.count .decPending).sum +
    (s.others.map fun calls => calls.count .decPending).sum

/-- What holds of every state: the counters are exact, what `stopping` has read still holds for the
worker that read it, and there is no work once it has returned true. -/
structure Shut (kind : Kind) (s : State) : Prop where
  counted : Counted s
  balanced : s.shared.pendingEventCount = s.shared.events.length + s.decs
  plain : ∀ wk ∈ s.workers, wk.PlainCalls
  base : kind = .scheduler → BaseOnly s
  asked : (∃ wk ∈ s.workers, wk.pc.asks = true) → s.shared.timers.timers = []
  checked : (∃ wk ∈ s.workers, wk.pc.checks = true) → s.shared.pendingEventCount = 0
  stopped : (∃ wk ∈ s.workers, wk.idleTerm = true) →
    s.shared.autoStop = true ∧ s.shared.stopping = true ∧ NoWork s

theorem count_le_decs (hwk : s.workers[w]? = some wk) : wk.calls.count .decPending ≤ s.decs := by
  have hsum := sum_map_set_add (fun x : Worker => x.calls.count .decPending)
    ⟨.scan, [], none, false⟩ hwk
  simp only [List.count_nil] at hsum
  unfold State.decs
  omega

theorem balanced_worker (h : Shut kind s) (hwk : s.workers[w]? = some wk)
    (hmoves : Moves kind s.shared w wk c g wk') :
    g.pendingEventCount =
      g.events.length + State.decs { s with shared := g, workers := s.workers.set w wk' } := by
  have hbalance := balance_moves hmoves fun hdec => by
    have hcount := List.count_pos_iff.mpr hdec
    have hle := count_le_decs hwk
    have hbalanced := h.balanced
    omega
  have hsum := sum_map_set_add (fun x : Worker => x.calls.count .decPending) wk' hwk
  have hbalanced := h.balanced
  unfold State.decs at hbalanced ⊢
  dsimp only at hbalanced hsum ⊢
  omega

/-- A step of a worker that puts no timer in leaves the set empty. -/
theorem timers_worker (hwk : s.workers[w]? = some wk) (hmoves : Moves kind s.shared w wk c g wk')
    (hinserts : s.Inserts (.worker w c) = false) (hempty : s.shared.timers.timers = []) :
    g.timers.timers = [] := by
  refine timers_moves hmoves hempty (fun t hc hhead => ?_) (fun expired cur hc hhead => ?_)
    fun expired cur tickled hc hcalls hpc => ?_
  · subst hc
    rw [State.Inserts, callOf_worker hwk, hhead] at hinserts
    cases hinserts
  · subst hc
    rw [State.Inserts, callOf_worker hwk, hhead] at hinserts
    exact hinserts
  · subst hc
    simp only [State.Inserts, callOf_worker hwk, hcalls, List.head?_nil, hwk, Option.map_some,
      hpc] at hinserts
    exact hinserts

theorem not_inserts {l : Label} (hC : WorkSeen s l) (hasks : ∃ wk ∈ s.workers, wk.pc.asks = true) :
    s.Inserts l = false := by
  obtain ⟨x, hx, hxasks⟩ := hasks
  by_contra hno
  have hfalse := hC.timers (by simpa using hno) x hx
  rw [hxasks] at hfalse
  cases hfalse

theorem not_addsEvent {l : Label} (hC : WorkSeen s l)
    (hchecks : ∃ wk ∈ s.workers, wk.pc.checks = true) : l.addsEvent = false := by
  obtain ⟨x, hx, hxchecks⟩ := hchecks
  by_contra hno
  have hfalse := hC.events (by simpa using hno) x hx
  rw [hxchecks] at hfalse
  cases hfalse

theorem asked_worker (h : Shut kind s) (hwk : s.workers[w]? = some wk)
    (hmoves : Moves kind s.shared w wk c g wk') (hC : WorkSeen s (.worker w c))
    (hbase : kind = .scheduler → g.timers.timers = [])
    (hasks : ∃ x ∈ s.workers.set w wk', x.pc.asks = true) : g.timers.timers = [] := by
  have hbefore : (∃ x ∈ s.workers, x.pc.asks = true) → g.timers.timers = [] := fun hsome =>
    timers_worker hwk hmoves (not_inserts hC hsome) (h.asked hsome)
  rcases (exists_mem_set_iff hwk wk').mp hasks with hself | helse
  · rcases asks_moves hmoves hself with hself | hkind | ⟨⟨cbf, term, rfl⟩, rfl, hnone⟩
    · exact hbefore ⟨wk, List.mem_of_getElem? hwk, hself⟩
    · exact hbase hkind
    · have hasked : s.AsksTimer (.worker w .go) = true := by simp only [State.AsksTimer, hwk]
      have hempty := TimerManager.getNextTimer_eq_max hnone (hC.deadline hasked)
      refine timers_moves hmoves hempty (fun t _ hhead => by cases hhead)
        (fun expired cur _ hhead => by cases hhead) fun expired cur tickled _ _ hpc => by cases hpc
  · exact hbefore ((exists_mem_iff hwk).mpr (Or.inr helse))

theorem checked_worker (h : Shut kind s) (hwk : s.workers[w]? = some wk)
    (hmoves : Moves kind s.shared w wk c g wk') (hC : WorkSeen s (.worker w c))
    (hbase : kind = .scheduler → g.pendingEventCount = 0)
    (hchecks : ∃ x ∈ s.workers.set w wk', x.pc.checks = true) : g.pendingEventCount = 0 := by
  have hbefore : (∃ x ∈ s.workers, x.pc.checks = true) → g.pendingEventCount = 0 := fun hsome =>
    Nat.le_zero.mp ((pending_moves_le hmoves (not_addsEvent hC hsome)).trans (h.checked hsome).le)
  rcases (exists_mem_set_iff hwk wk').mp hchecks with hself | helse
  · rcases checks_moves hmoves hself with hself' | hkind | hnone
    · exact hbefore ⟨wk, List.mem_of_getElem? hwk, hself'⟩
    · exact hbase hkind
    · cases hadds : (Label.worker w c).addsEvent with
      | false => exact Nat.le_zero.mp ((pending_moves_le hmoves hadds).trans hnone.le)
      | true =>
          -- the worker that registers an event is in a task
          cases hmoves with
          | op => cases hself
          | _ => cases hadds
  · exact hbefore ((exists_mem_iff hwk).mpr (Or.inr helse))

/-- Where `stopping` returns true there is no work. -/
theorem noWork_of_stops (h : Shut kind s) {asked : UInt64} {cbf : Option Nat} {term : Bool}
    (hwk : s.workers[w]? = some ⟨.check asked, [], cbf, term⟩)
    (hC : WorkSeen s (.worker w .go)) (hstops : s.shared.stops = true) :
    s.shared.autoStop = true ∧ s.shared.stopping = true ∧ NoWork s := by
  have hmem := List.mem_of_getElem? hwk
  have hchecks : s.Checks (.worker w .go) = true := by simp only [State.Checks, hwk]
  simp only [Shared.stops, Bool.and_eq_true, List.isEmpty_iff, beq_iff_eq] at hstops
  obtain ⟨⟨⟨hauto, hstop⟩, hqueue⟩, hactive⟩ := hstops
  have hpending := h.checked ⟨_, hmem, rfl⟩
  have hbalanced := h.balanced
  refine ⟨hauto, hstop, hqueue, h.asked ⟨_, hmem, rfl⟩, ?_, fun x hx => ⟨?_, ?_, ?_⟩⟩
  · rw [← List.length_eq_zero_iff]
    omega
  · have hcount := h.counted.active
    rw [hactive] at hcount
    simpa using List.countP_eq_zero.mp hcount.symm x hx
  · exact hC.lists hchecks x hx
  · exact hC.ready hchecks x hx

theorem noWork_worker (h : Shut kind s) (hwork : NoWork s) (hwk : s.workers[w]? = some wk)
    (hmoves : Moves kind s.shared w wk c g wk') :
    NoWork { s with shared := g, workers := s.workers.set w wk' } := by
  have hmem := List.mem_of_getElem? hwk
  obtain ⟨hqueue, htimers, hevents, hrests, hready⟩ := rests_moves hmoves hwork.queue hwork.timers
    hwork.events (hwork.workers wk hmem) (h.plain wk hmem)
  refine ⟨hqueue, htimers, hevents, forall_mem_set hrests fun x hx => ?_⟩
  obtain ⟨hactive, hlists, hsettles⟩ := hwork.workers x hx
  exact ⟨hactive, hlists, fun f hf hno => hsettles f hf (hready f hno)⟩

theorem stopped_worker (h : Shut kind s) (hwk : s.workers[w]? = some wk)
    (hmoves : Moves kind s.shared w wk c g wk') (hC : WorkSeen s (.worker w c))
    (hterm : ∃ x ∈ s.workers.set w wk', x.idleTerm = true) :
    g.autoStop = true ∧ g.stopping = true ∧
      NoWork { s with shared := g, workers := s.workers.set w wk' } := by
  have hstays := staysStopped_moves hmoves
  have hnow : s.shared.autoStop = true ∧ s.shared.stopping = true ∧ NoWork s := by
    rcases (exists_mem_set_iff hwk wk').mp hterm with hself | helse
    · rcases idleTerm_moves hmoves hself with hself | ⟨⟨asked, cbf, term, rfl⟩, rfl, hstops, -⟩
      · exact h.stopped ⟨wk, List.mem_of_getElem? hwk, hself⟩
      · exact noWork_of_stops h hwk hC hstops
    · exact h.stopped ((exists_mem_iff hwk).mpr (Or.inr helse))
  obtain ⟨hauto, hstop, hwork⟩ := hnow
  exact ⟨hstays.autoStop hauto, hstays.stopping hstop, noWork_worker h hwork hwk hmoves⟩

theorem shut_outside {op : Op} {calls : List Call} (h : Shut kind s)
    (hbegin : s.shared.begin op = some (g, calls)) (hC : Closed s (.outside op))
    (hseen : WorkSeen s (.outside op))
    (hcounted : Counted { s with shared := g, others := s.others ++ [calls] })
    (hbase : kind = .scheduler → BaseOnly { s with shared := g, others := s.others ++ [calls] }) :
    Shut kind { s with shared := g, others := s.others ++ [calls] } := by
  refine ⟨hcounted, ?_, h.plain, hbase, fun hasks => begin_timers (h.asked hasks) hbegin,
    fun hchecks => ?_, fun hterm => ?_⟩
  · have hbalance := begin_balance hbegin
    have hbalanced := h.balanced
    unfold State.decs at hbalanced ⊢
    simp only [List.map_append, List.map_cons, List.map_nil, List.sum_append, List.sum_cons,
      List.sum_nil]
    omega
  · exact (begin_pending (not_addsEvent hseen hchecks) hbegin).trans (h.checked hchecks)
  · obtain ⟨hauto, hstop, -⟩ := h.stopped hterm
    exact (hC hauto hstop).elim

theorem balanced_goOn {i : Nat} {call : Call} {calls : List Call} (h : Shut kind s)
    (hi : s.others[i]? = some (call :: calls)) :
    (s.shared.goOn kind call).1.pendingEventCount =
      (s.shared.goOn kind call).1.events.length + State.decs { s with
        shared := (s.shared.goOn kind call).1
        others := s.others.set i ((s.shared.goOn kind call).2 ++ calls) } := by
  have hsum := sum_map_set_add (fun calls : List Call => calls.count .decPending)
    ((s.shared.goOn kind call).2 ++ calls) hi
  have hbalanced := h.balanced
  have hcons : (call :: calls).count .decPending =
      [call].count .decPending + calls.count .decPending :=
    count_cons_eq_add call _ calls
  obtain ⟨hcount, hevents⟩ := goOn_balance kind s.shared call fun hdec => by
    subst hdec
    have hone : (Call.decPending :: calls).count .decPending = calls.count .decPending + 1 :=
      List.count_cons_self
    have hle := sum_map_set_add (fun calls : List Call => calls.count .decPending) [] hi
    simp only [List.count_nil] at hle
    unfold State.decs at hbalanced
    omega
  simp only [List.count_append, count_decPending_more, hcons] at hsum
  unfold State.decs at hbalanced ⊢
  dsimp only
  rw [hevents]
  omega

theorem shut_goOn {i : Nat} {call : Call} {calls : List Call} (h : Shut kind s)
    (hi : s.others[i]? = some (call :: calls)) (hC : Closed s (.goOn i))
    (hseen : WorkSeen s (.goOn i)) {t : State}
    (ht : t = { s with
      shared := (s.shared.goOn kind call).1
      others := s.others.set i ((s.shared.goOn kind call).2 ++ calls) })
    (hcounted : Counted t) (hbase : kind = .scheduler → BaseOnly t) : Shut kind t := by
  subst ht
  have hcall : s.callOf (.goOn i) = some call := callOf_goOn hi
  refine ⟨hcounted, balanced_goOn h hi, h.plain, hbase, fun hasks => ?_, fun hchecks => ?_,
    fun hterm => ?_⟩
  · have hinserts := not_inserts hseen hasks
    simp only [State.Inserts, hcall] at hinserts
    refine goOn_timers (h.asked hasks) (fun t heq => ?_) fun expired cur heq => ?_
    · subst heq
      cases hinserts
    · subst heq
      exact hinserts
  · exact Nat.le_zero.mp ((goOn_pending_le kind s.shared call).trans (h.checked hchecks).le)
  · obtain ⟨hauto, hstop, hwork⟩ := h.stopped hterm
    have hstays := goOn_staysStopped kind s.shared call
    have hclosed := hC hauto hstop
    simp only [hcall] at hclosed
    refine ⟨hstays.autoStop hauto, hstays.stopping hstop, ?_⟩
    cases call with
    | insert | putBack | schedule => exact hclosed.elim
    | tickle =>
        cases kind <;> exact ⟨hwork.queue, hwork.timers, hwork.events, hwork.workers⟩
    | write | decPending | setStopping =>
        exact ⟨hwork.queue, hwork.timers, hwork.events, hwork.workers⟩

/-- One step within the condition. -/
theorem shut_step {l : Label} (h : Shut kind s) (hC : Closed s l ∧ WorkSeen s l)
    (hstep : step kind s l = some t) : Shut kind t := by
  have hcounted := counted_step h.counted hstep
  have hbase : kind = .scheduler → BaseOnly t := by
    rintro rfl
    exact baseOnly_step (h.base rfl) hstep
  obtain ⟨hclosed, hseen⟩ := hC
  cases l with
  | worker w c =>
      obtain ⟨wk, g, wk', hwk, hmoves, rfl⟩ := step_worker hstep
      have hmem := List.mem_of_getElem? hwk
      exact ⟨hcounted, balanced_worker h hwk hmoves,
        forall_mem_set (plainCalls_moves hmoves (h.plain wk hmem)) h.plain, hbase,
        asked_worker h hwk hmoves hseen fun hkind => (hbase hkind).timers,
        checked_worker h hwk hmoves hseen fun hkind => (hbase hkind).pending,
        stopped_worker h hwk hmoves hseen⟩
  | outside op =>
      obtain ⟨g, calls, -, hbegin, rfl⟩ := step_outside hstep
      exact shut_outside h hbegin hclosed hseen hcounted hbase
  | goOn i =>
      obtain ⟨call, calls, hi, rfl⟩ := step_goOn hstep
      exact shut_goOn h hi hclosed hseen rfl hcounted hbase
  | tick now =>
      obtain ⟨-, rfl⟩ := step_tick hstep
      refine ⟨hcounted, h.balanced, h.plain, hbase, h.asked, h.checked, fun hterm => ?_⟩
      obtain ⟨hauto, hstop, hwork⟩ := h.stopped hterm
      exact ⟨hauto, hstop, hwork.queue, hwork.timers, hwork.events, hwork.workers⟩
  | foreign f st =>
      obtain ⟨hholds, rfl⟩ := step_foreign hstep
      refine ⟨hcounted, h.balanced, h.plain, hbase, h.asked, h.checked, fun hterm => ?_⟩
      obtain ⟨hauto, hstop, hwork⟩ := h.stopped hterm
      refine ⟨hauto, hstop, hwork.queue, hwork.timers, hwork.events, fun x hx => ?_⟩
      obtain ⟨hactive, hlists, hsettles⟩ := hwork.workers x hx
      refine ⟨hactive, hlists, fun f' hf' => ?_⟩
      have hne : f' ≠ f := by
        rintro rfl
        refine hholds ⟨x, hx, ?_⟩
        cases hpc : x.pc <;> rw [hpc] at hf' <;> cases hf'
        rfl
      show (s.shared.setFiber f st).fibers f' ≠ .ready
      rw [fibers_setFiber, if_neg hne]
      exact hsettles f' hf'

end Steps

theorem init_workers {threadCount : Nat} {useCaller : Bool} {fibers : Nat → FiberState}
    {count : Nat} {now : UInt64} {wk : Worker}
    (h : wk ∈ (init threadCount useCaller fibers count now).workers) :
    wk = ⟨.scan, [], none, false⟩ := (List.mem_replicate.mp h).2

theorem shut_init (kind : Kind) (threadCount : Nat) (useCaller : Bool)
    (fibers : Nat → FiberState) (count : Nat) (now : UInt64) :
    Shut kind (init threadCount useCaller fibers count now) := by
  have hempty : ∀ wk ∈ (init threadCount useCaller fibers count now).workers,
      ∀ call ∈ wk.calls, call.Base := by
    intro wk hwk call hcall
    rw [init_workers hwk] at hcall
    cases hcall
  refine ⟨counted_init threadCount useCaller fibers count now, ?_, fun wk hwk => ?_, fun _ => ?_,
    ?_, ?_, ?_⟩
  · show 0 = 0 + State.decs _
    simp [State.decs, init]
  · rw [init_workers hwk]
    exact Or.inr fun _ hx => absurd hx List.not_mem_nil
  · refine ⟨rfl, rfl, fun wk hwk => ?_, hempty, fun _ hx => absurd hx List.not_mem_nil⟩
    rw [init_workers hwk]
    rfl
  all_goals
    rintro ⟨wk, hwk, h⟩
    rw [init_workers hwk] at h
    cases h

/-- Where no work is on its way past a worker in `stopping`, there is no work once it has returned true,
then and at any time later. -/
theorem losesNoWork_of_seen (kind : Kind) (threadCount : Nat) (useCaller : Bool)
    (fibers : Nat → FiberState) (count : Nat) (now : UInt64) (ls : List Label)
    (hC : StepsMeet (step kind) (fun s l => Closed s l ∧ WorkSeen s l)
      (init threadCount useCaller fibers count now) ls) :
    StatesMeet (step kind) LosesNoWork (init threadCount useCaller fibers count now) ls :=
  statesMeet_of_invariant (fun _ h hterm => (h.stopped hterm).2.2)
    (fun _ _ _ h hC hstep => shut_step h hC hstep) ls _
    (shut_init kind threadCount useCaller fibers count now) hC

/-- A callback is scheduled and one of two workers runs it; after `stop` both leave their loops. -/
def stoppedRun : List Label :=
  [.outside (.schedule (some (.cb 7)) none), .worker 0 .go, .worker 0 .go, .worker 0 .go,
    .worker 0 (.leave .finish), .goOn 0, .outside .stop, .goOn 1, .worker 0 .go, .worker 0 .go] ++
    (List.range 2).flatMap fun w => List.replicate 9 (.worker w .go)

theorem losesNoWork_stoppedRun :
    ((run (step .ioManager) (init 2 false (fun _ => .init) 0 1) stoppedRun).map fun s =>
      s.workers.map Worker.pc) = some [.exited, .exited] ∧
    StatesMeet (step .ioManager) LosesNoWork (init 2 false (fun _ => .init) 0 1) stoppedRun :=
  ⟨by decide,
    losesNoWork_of_seen .ioManager 2 false (fun _ => .init) 0 1 stoppedRun (by decide)⟩

/-- After `stop` a fiber comes back by `YieldToReady`, and before its worker puts it in the queue again
the other worker looks there. -/
def readyRun : List Label :=
  [.outside (.schedule (some (.fiber 0)) none), .worker 0 .go, .worker 0 .go, .worker 0 .go,
    .goOn 0, .outside .stop, .goOn 1, .worker 0 (.leave .yieldToReady), .worker 0 .go] ++
    List.replicate 6 (.worker 1 .go) ++ [.worker 0 .go]

theorem ready_fiber_lost :
    ¬ ∀ kind threadCount useCaller fibers count now ls,
      StepsMeet (step kind) Closed (init threadCount useCaller fibers count now) ls →
        StatesMeet (step kind) LosesNoWork (init threadCount useCaller fibers count now) ls := by
  intro h
  have hend := statesMeet_run readyRun _
    ((run (step .ioManager) (init 2 false (fun _ => .init) 1 1) readyRun).get (by decide))
    (h .ioManager 2 false (fun _ => .init) 1 1 readyRun (by decide))
    (Option.some_get _).symm
  have hqueue := (hend (by decide)).queue
  revert hqueue
  decide

end Workers

end Saturn
