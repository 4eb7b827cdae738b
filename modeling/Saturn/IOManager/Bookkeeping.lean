import Mathlib.Data.List.Nodup
import Saturn.IOManager.Operations

/-!
# The event bookkeeping

Between the locked sections, `m_pendingEventCount` counts the bits set in all contexts, each bit
says whether something waits for its direction, and everything that was added is in exactly one
place: still waiting, dropped by `delEvent`, or handed to its scheduler.
-/

namespace Saturn

namespace IOManager

section Counter

/-- What a statement does to the bits of its context. -/
def Act.onEvents (ev : Events) : Act → Events
  | .orEvents e => ev.insert e
  | .setEvents ev' => ev'
  | .clearEvent e => ev.erase e
  | _ => ev

/-- The assertion of `triggerEvent` stops the run here. -/
def Act.Stops (ev : Events) : Act → Prop
  | .assertEvent e => ev.has e = false
  | _ => False

instance (ev : Events) : (a : Act) → Decidable (a.Stops ev)
  | .assertEvent e => inferInstanceAs (Decidable (ev.has e = false))
  | .incPending | .decPending | .orEvents _ | .setEvents _ | .assertEmpty _ | .fill .. |
    .assertExec | .resetContext _ | .clearEvent _ | .schedule _ | .clearScheduler _ |
    .assertNone => isFalse id

/-- How far `m_pendingEventCount` is ahead of the bits while `prog` is left to run. -/
def Prog.debt : Prog → Events → Int
  | .ret _, _ => 0
  | .act a next, ev =>
      if a.Stops ev then 0
      else next.debt (a.onEvents ev) + ((a.onEvents ev).bits - ev.bits) - a.pending
  | .ifEvent e yes no, ev => if ev.has e then yes.debt ev else no.debt ev

theorem setContext_events (c : FdContext) (e : Event) (ctx : EventContext) :
    (c.setContext e ctx).events = c.events := by
  cases e <;> rfl

theorem onContext_events {a : Act} {call : Nat} {c c' : FdContext}
    (h : a.onContext call c = .ok c') : c'.events = a.onEvents c.events ∧ ¬ a.Stops c.events := by
  cases a with
  | fill e task scheduler =>
      cases task <;> cases h <;> exact ⟨setContext_events .., id⟩
  | schedule e =>
      simp only [Act.onContext] at h
      split at h
      · cases h
        exact ⟨setContext_events .., id⟩
      · cases h
  | assertEvent e =>
      simp only [Act.onContext] at h
      split at h
      · rename_i hhas
        cases h
        exact ⟨rfl, by simp [Act.Stops, hhas]⟩
      · cases h
  | assertEmpty e | assertNone =>
      simp only [Act.onContext] at h
      split at h
      · cases h
        exact ⟨rfl, id⟩
      · cases h
  | resetContext e | clearScheduler e =>
      cases h
      exact ⟨setContext_events .., id⟩
  | _ =>
      cases h
      exact ⟨rfl, id⟩

/-- A statement moves the counter and the bits as the debt says. -/
theorem debt_act {a : Act} {next : Prog} {call : Nat} {c c' : FdContext}
    (h : a.onContext call c = .ok c') : (Prog.act a next).debt c.events =
      next.debt c'.events + (c'.events.bits - c.events.bits) - a.pending := by
  obtain ⟨hevents, hstops⟩ := onContext_events h
  rw [Prog.debt, if_neg hstops, hevents]

theorem triggerEvent_debt {e : Event} {next : Prog} {ev : Events} :
    (triggerEvent e (.act .decPending next)).debt ev =
      if ev.has e then next.debt (ev.erase e) else 0 := by
  obtain ⟨read, write⟩ := ev
  cases e <;> cases read <;> cases write <;>
    simp [triggerEvent, Prog.debt, Act.Stops, Act.onEvents, Act.pending, Events.has, Events.erase,
      Events.bits]

/-- Every section starts without debt. -/
theorem starts_debt {s : State} {tid fc fd : Nat} {c : FdContext} {op : EpollOp}
    {mask : EpollMask} {prog : Prog} {back : Option (List EpollEvent)}
    (hstarts : Starts s tid fc c fd (.ctl op mask prog) back) : prog.debt c.events = 0 := by
  rcases hstarts with ⟨call, -, -, hsec, -⟩ | ⟨event, rest, -, -, -, hsec, -⟩
  · cases call with
    | addEvent fd e task scheduler =>
        change _ = addEventSection e task scheduler c at hsec
        unfold addEventSection at hsec
        split at hsec
        · cases hsec
        · rename_i hclear
          cases hsec
          generalize c.events = ev at *
          obtain ⟨read, write⟩ := ev
          cases task <;> cases e <;> cases read <;> cases write <;>
            simp_all [Prog.debt, Act.Stops, Act.onEvents, Act.pending, Events.has, Events.insert,
              Events.bits]
    | delEvent fd e =>
        change _ = delEventSection e c at hsec
        unfold delEventSection at hsec
        split at hsec
        · rename_i hhas
          cases hsec
          generalize c.events = ev at *
          obtain ⟨read, write⟩ := ev
          cases e <;> cases read <;> cases write <;>
            simp_all [Prog.debt, Act.Stops, Act.onEvents, Act.pending, Events.has, Events.erase,
              Events.bits]
        · cases hsec
    | cancelEvent fd e =>
        change _ = cancelEventSection e c at hsec
        unfold cancelEventSection at hsec
        split at hsec
        · rename_i hhas
          cases hsec
          generalize c.events = ev at *
          obtain ⟨read, write⟩ := ev
          cases e <;> cases read <;> cases write <;>
            simp_all [triggerEvent, Prog.debt, Act.Stops, Act.onEvents, Act.pending, Events.has,
              Events.erase, Events.bits]
        · cases hsec
    | cancelAll fd =>
        change _ = cancelAllSection c at hsec
        unfold cancelAllSection at hsec
        split at hsec
        · cases hsec
        · cases hsec
          generalize c.events = ev at *
          obtain ⟨read, write⟩ := ev
          cases read <;> cases write <;>
            simp [triggerEvent_debt, Prog.debt, Act.Stops, Act.onEvents, Act.pending, Events.has,
              Events.erase]
  · simp only [dispatchSection] at hsec
    split at hsec
    · cases hsec
    · cases hsec
      generalize c.events = ev at *
      obtain ⟨read, write⟩ := ev
      generalize event.realEvents _ = real
      obtain ⟨real_read, real_write⟩ := real
      cases read <;> cases write <;> cases real_read <;> cases real_write <;>
        simp [triggerEvent_debt, Prog.debt, Events.has, Events.erase]

/-- The bits set over all contexts ever created. -/
def State.bits (s : State) : Int := (s.contexts.map fun c => c.events.bits).sum

/-- The debt of a thread: that of the section it is in. -/
def State.debtOf (s : State) : Pc → Int
  | .inside fc prog _ =>
      match s.contexts[fc]? with
      | some c => prog.debt c.events
      | none => 0
  | _ => 0

/-- The counter is ahead of the bits by what the threads owe. -/
def Counted (s : State) : Prop := s.pending = s.bits + (s.threads.map s.debtOf).sum

variable {s t : State}

theorem debtOf_outside {pc : Pc} (h : pc.Outside) : s.debtOf pc = 0 := by
  cases pc with
  | inside fc prog back => exact h.elim
  | _ => rfl

theorem debtOf_inside {fc : Nat} {prog : Prog} {back : Option (List EpollEvent)} {c : FdContext}
    (hc : s.contexts[fc]? = some c) : s.debtOf (.inside fc prog back) = prog.debt c.events := by
  rw [State.debtOf, hc]

theorem Counted.of_eq (h : Counted s) (hcontexts : t.contexts = s.contexts)
    (hthreads : t.threads = s.threads) (hpending : t.pending = s.pending) : Counted t := by
  have hdebt : t.debtOf = s.debtOf := by
    funext pc
    cases pc <;> simp only [State.debtOf, hcontexts]
  rw [Counted, State.bits, hcontexts, hthreads, hpending, hdebt]
  exact h

theorem Counted.goto (h : Counted s) {tid : Nat} {pc pc' : Pc} (hpc : s.threads[tid]? = some pc)
    (hout : pc.Outside) (hout' : pc'.Outside) : Counted (s.setPc tid pc') := by
  have hsum := sum_map_set (f := s.debtOf) (g := (s.setPc tid pc').debtOf) pc' hpc fun _ _ _ _ => rfl
  have hdebt : s.debtOf pc = 0 := debtOf_outside hout
  have hdebt' : (s.setPc tid pc').debtOf pc' = 0 := debtOf_outside hout'
  rw [Counted] at h ⊢
  change s.pending = s.bits + ((s.threads.set tid pc').map _).sum
  rw [hsum, hdebt, hdebt', h]
  omega

theorem Counted.contextResize (h : Counted s) (hk : Kept s) (size : Nat) :
    Counted (s.contextResize size) := by
  have hbits : (s.contextResize size).bits = s.bits := by
    rw [State.bits, State.bits, State.contextResize, List.map_append, List.sum_append, List.map_map]
    have hzero : ∀ l : List Nat, (l.map fun i => ((fun c : FdContext => c.events.bits) ∘
        fun i => FdContext.new ((s.table.take size).length + i)) i).sum = 0 := by
      intro l
      induction l with
      | nil => rfl
      | cons i l ih => rw [List.map_cons, List.sum_cons, ih]; rfl
    rw [hzero, add_zero]
  have hdebt : (s.threads.map (s.contextResize size).debtOf) = s.threads.map s.debtOf := by
    refine List.map_congr_left fun pc hpc => ?_
    cases pc with
    | inside fc prog back =>
        obtain ⟨tid, htid⟩ := List.mem_iff_getElem?.mp hpc
        obtain ⟨c, hc, -⟩ := hk.inside tid fc prog back htid
        obtain ⟨hlt, -⟩ := List.getElem?_eq_some_iff.mp hc
        rw [debtOf_inside hc, debtOf_inside]
        rw [State.contextResize, List.getElem?_append_left hlt, hc]
    | _ => rfl
  rw [Counted] at h ⊢
  rw [hbits]
  change s.pending = s.bits + (s.threads.map _).sum
  rw [hdebt]
  exact h

/-- A step in the section of context `fc`, or at its ends, that moves the counter as it moves the
bits and the debt. -/
theorem Counted.setFc (h : Counted s) (hk : Kept s) {tid fc : Nat} {c d : FdContext}
    {pc pc' : Pc} (hc : s.contexts[fc]? = some c) (hpc : s.threads[tid]? = some pc)
    (howner : c.owner = none ∨ c.owner = some tid) (hcontexts : t.contexts = s.contexts.set fc d)
    (hthreads : t.threads = s.threads.set tid pc')
    (hdebt : t.pending - s.pending =
      d.events.bits - c.events.bits + (t.debtOf pc' - s.debtOf pc)) : Counted t := by
  have hbits : t.bits = s.bits - c.events.bits + d.events.bits := by
    rw [State.bits, hcontexts]
    exact sum_map_set d hc fun _ _ _ _ => rfl
  have hsame : ∀ (j : Nat) (z : Pc), j ≠ tid → s.threads[j]? = some z →
      t.debtOf z = s.debtOf z := by
    intro j z hj hz
    cases z with
    | inside fc' prog back =>
        obtain ⟨c₁, hc₁, howner₁, -⟩ := hk.inside j fc' prog back hz
        have hne := hk.ne_of_inside hc howner hj hz
        rw [debtOf_inside hc₁, debtOf_inside]
        rw [hcontexts, getElem?_set_of_some hc, if_neg hne, hc₁]
    | _ => rfl
  have hsum := sum_map_set pc' hpc hsame
  rw [Counted] at h ⊢
  rw [hthreads, hsum, hbits]
  omega

theorem counted_step {l : Label} (h : Counted s) (hk : Kept s) (hstep : step s l = some t) :
    Counted t := by
  cases stepCase_of_step hstep with
  | goto _ tid pc pc' hpc hout hout' => exact h.goto hpc hout hout'
  | halt _ reason => exact h.of_eq rfl rfl rfl
  | grow tid fc ok call hpc hfit hfc =>
      exact (h.contextResize hk (call.fd * 2)).goto hpc trivial trivial
  | growHalt tid ok call reason hpc hfit => exact (h.contextResize hk _).of_eq rfl rfl rfl
  | lock tid fc fd ok c back op mask prog epoll hc howner hstarts hctl =>
      obtain ⟨pc, hpc, hout⟩ := hstarts.outside
      refine h.setFc hk hc hpc (Or.inl howner) rfl rfl ?_
      rw [debtOf_outside hout, debtOf_inside (c := { c with owner := some tid })]
      · have hdebt := starts_debt hstarts
        change s.pending - s.pending = c.events.bits - c.events.bits + (prog.debt c.events - 0)
        omega
      · change (s.contexts.set fc _)[fc]? = _
        rw [getElem?_set_of_some hc, if_pos rfl]
  | unlock tid fc ok c result back hc hpc =>
      obtain ⟨c₁, hc₁, howner, -⟩ := hk.inside tid fc _ back hpc
      rw [hc] at hc₁
      cases hc₁
      refine h.setFc hk hc hpc (Or.inr howner) rfl rfl ?_
      rw [debtOf_outside (outside_leave back result), debtOf_inside hc]
      change s.pending - s.pending = c.events.bits - c.events.bits + (0 - 0)
      omega
  | branch tid fc ok c e yes no back hc hpc =>
      obtain ⟨c₁, hc₁, howner, -⟩ := hk.inside tid fc _ back hpc
      rw [hc] at hc₁
      cases hc₁
      refine h.setFc (d := c) hk hc hpc (Or.inr howner) (set_of_getElem? hc).symm rfl ?_
      have hdebt : (s.setPc tid (.inside fc (if c.events.has e then yes else no) back)).debtOf
          (.inside fc (if c.events.has e then yes else no) back) =
          (Prog.ifEvent e yes no).debt c.events := by
        rw [debtOf_inside (s := s.setPc tid _) hc, Prog.debt]
        split <;> rfl
      rw [debtOf_inside hc, hdebt]
      change s.pending - s.pending = _
      omega
  | act tid fc ok c c' a next back hc hpc hok =>
      obtain ⟨c₁, hc₁, howner, -⟩ := hk.inside tid fc _ back hpc
      rw [hc] at hc₁
      cases hc₁
      refine h.setFc hk hc hpc (Or.inr howner) rfl rfl ?_
      rw [debtOf_inside hc, debtOf_inside (c := c'), debt_act hok]
      · change s.pending + a.pending - s.pending = _
        omega
      · change (s.contexts.set fc _)[fc]? = _
        rw [getElem?_set_of_some hc, if_pos rfl]

end Counter

section History

/-- What waits in the contexts. -/
def State.waiting (s : State) : List Waiter := s.contexts.flatMap FdContext.waiters

/-- What was added is waiting, dropped or scheduled, once. -/
def Conserved (s : State) : Prop :=
  (s.waiting ++ (s.dropped ++ s.scheduled.map Scheduled.waiter)).Perm s.added

/-- Replacing the context of one direction. -/
theorem setContext_perm {c : FdContext} {e : Event} {ctx : EventContext} {out add : List Waiter}
    (h : (ctx.waiters ++ out).Perm ((c.getContext e).waiters ++ add)) :
    ((c.setContext e ctx).waiters ++ out).Perm (c.waiters ++ add) := by
  rw [List.perm_iff_count] at h ⊢
  intro w
  have hw := h w
  cases e <;>
    simp only [FdContext.waiters, FdContext.setContext, FdContext.getContext,
      List.count_append] at hw ⊢ <;>
    omega

/-- A statement takes what it drops or schedules out of the context, and nothing else. -/
theorem act_perm {a : Act} {call : Nat} {c c' : FdContext} (hempty : FillsEmpty a c)
    (h : a.onContext call c = .ok c') :
    (c'.waiters ++ (a.dropped c ++ (a.scheduled c).map Scheduled.waiter)).Perm
      (c.waiters ++ a.added call) := by
  cases a with
  | fill e task scheduler =>
      have he := hempty e task scheduler rfl
      cases task <;> cases h <;> refine setContext_perm ?_ <;> rw [he] <;> exact List.Perm.refl _
  | schedule e =>
      simp only [Act.onContext] at h
      split at h
      · rename_i hscheduler
        cases h
        refine setContext_perm ?_
        obtain ⟨scheduler, hscheduler⟩ := Option.isSome_iff_exists.mp hscheduler
        -- a callback is scheduled before a fiber; nothing is pushed for neither
        cases hcb : (c.getContext e).cb with
        | some w =>
            simp [Act.dropped, Act.scheduled, Act.added, hscheduler, hcb, EventContext.waiters]
        | none =>
            cases hfiber : (c.getContext e).fiber <;>
              simp [Act.dropped, Act.scheduled, Act.added, hscheduler, hcb, hfiber,
                EventContext.waiters]
      · cases h
  | resetContext e =>
      cases h
      refine setContext_perm ?_
      simp [Act.dropped, Act.scheduled, Act.added, EventContext.waiters, EventContext.empty]
  | clearScheduler e =>
      cases h
      exact setContext_perm (List.Perm.refl _)
  | assertEmpty e | assertEvent e | assertNone =>
      simp only [Act.onContext] at h
      split at h
      · cases h
        exact List.Perm.refl _
      · cases h
  | _ =>
      cases h
      exact List.Perm.refl _

variable {s t : State}

theorem Conserved.of_eq (h : Conserved s) (hwaiting : t.waiting = s.waiting)
    (hdropped : t.dropped = s.dropped) (hscheduled : t.scheduled = s.scheduled)
    (hadded : t.added = s.added) : Conserved t := by
  rw [Conserved, hwaiting, hdropped, hscheduled, hadded]
  exact h

theorem waiting_setFc {fc : Nat} {c d : FdContext} (hc : s.contexts[fc]? = some c)
    (hwaiters : d.waiters = c.waiters) (hcontexts : t.contexts = s.contexts.set fc d) :
    t.waiting = s.waiting := by
  rw [State.waiting, State.waiting, hcontexts, List.flatMap_def, List.flatMap_def]
  have hsame : (s.contexts.set fc d).map FdContext.waiters =
      s.contexts.map FdContext.waiters := by
    rw [List.map_set, hwaiters]
    exact set_of_getElem? (by rw [List.getElem?_map, hc, Option.map_some])
  rw [hsame]

theorem waiting_contextResize (size : Nat) : (s.contextResize size).waiting = s.waiting := by
  rw [State.waiting, State.waiting, State.contextResize, List.flatMap_append]
  have hnil : ∀ l : List Nat, (l.map fun i =>
      FdContext.new ((s.table.take size).length + i)).flatMap FdContext.waiters = [] := by
    intro l
    induction l with
    | nil => rfl
    | cons i l ih => rw [List.map_cons, List.flatMap_cons, ih]; rfl
  rw [hnil, List.append_nil]

theorem conserved_step {l : Label} (h : Conserved s) (hk : Kept s) (hstep : step s l = some t) :
    Conserved t := by
  cases stepCase_of_step hstep with
  | goto _ tid pc pc' hpc hout hout' => exact h.of_eq rfl rfl rfl rfl
  | halt _ reason => exact h.of_eq rfl rfl rfl rfl
  | grow tid fc ok call hpc hfit hfc => exact h.of_eq (waiting_contextResize _) rfl rfl rfl
  | growHalt tid ok call reason hpc hfit => exact h.of_eq (waiting_contextResize _) rfl rfl rfl
  | lock tid fc fd ok c back op mask prog epoll hc howner hstarts hctl =>
      exact h.of_eq (waiting_setFc (d := { c with owner := some tid }) hc rfl rfl) rfl rfl rfl
  | unlock tid fc ok c result back hc hpc =>
      exact h.of_eq (waiting_setFc (d := { c with owner := none }) hc rfl rfl) rfl rfl rfl
  | branch tid fc ok c e yes no back hc hpc => exact h.of_eq rfl rfl rfl rfl
  | act tid fc ok c c' a next back hc hpc hok =>
      obtain ⟨c₁, hc₁, -, hmeets⟩ := hk.inside tid fc _ back hpc
      rw [hc] at hc₁
      cases hc₁
      have hact := act_perm hmeets.1 hok
      have hset := flatMap_set_perm (f := FdContext.waiters) c' hc
      rw [Conserved, State.waiting] at h ⊢
      rw [List.perm_iff_count] at h hact hset ⊢
      intro w
      have hw := h w
      have hactw := hact w
      have hsetw := hset w
      simp only [State.setPc, State.setFc, List.map_append, List.count_append] at hw hactw hsetw ⊢
      omega

/-- The additions are numbered in order. -/
def Numbered (s : State) : Prop := s.added.map Waiter.call = List.range s.added.length

theorem added_eq (a : Act) (call : Nat) :
    a.added call = [] ∨ ∃ id, a.added call = [⟨id, call⟩] := by
  cases a with
  | fill e task scheduler => cases task <;> exact Or.inr ⟨_, rfl⟩
  | _ => exact Or.inl rfl

theorem numbered_step {l : Label} (h : Numbered s) (hstep : step s l = some t) : Numbered t := by
  cases stepCase_of_step hstep with
  | act tid fc ok c c' a next back hc hpc hok =>
      change (s.added ++ a.added s.added.length).map Waiter.call =
        List.range (s.added ++ a.added s.added.length).length
      rcases added_eq a s.added.length with hadd | ⟨id, hadd⟩
      · rw [hadd, List.append_nil]
        exact h
      · rw [hadd, List.map_append, h, List.length_append, List.length_singleton, List.range_succ]
        rfl
  | _ => exact h

theorem Numbered.nodup (h : Numbered s) : s.added.Nodup := by
  have hcalls : (s.added.map Waiter.call).Nodup := by
    rw [h]
    exact List.nodup_range
  exact List.Nodup.of_map _ hcalls

end History

/-- No thread is inside a locked section. -/
def Quiet (s : State) : Prop := ∀ pc ∈ s.threads, pc.Outside

/-- The call of `epoll_ctl` that thread `tid` makes next fails; `back` is as in `Pc.inside`. -/
def CtlFails (s : State) (tid : Nat) (ok : Bool) (back : Option (List EpollEvent)) : Prop :=
  ∃ fc c fd op mask prog, Starts s tid fc c fd (.ctl op mask prog) back ∧
    s.contexts[fc]? = some c ∧ c.owner = none ∧ epollCtl s.epoll op fd ⟨mask, fc⟩ ok = none

/-- The bookkeeping invariant. -/
structure Bookkeeping (r : Recorded) : Prop where
  /-- `m_pendingEventCount` is the number of bits set. -/
  pending : Quiet r.state → r.state.pending = r.state.bits
  /-- A bit is set exactly when something waits for its direction. -/
  agrees : Quiet r.state → ∀ c ∈ r.state.contexts, c.Consistent
  /-- Each `addEvent` that stored something waits, or was dropped, or was scheduled, and that once. -/
  conserved : (r.state.waiting ++ (r.state.dropped ++ r.state.scheduled.map Scheduled.waiter)).Perm
    r.state.added
  nodup : r.state.added.Nodup
  /-- Each operation that is over did what it returned, and nothing else. -/
  right : ∀ f ∈ r.finished, Right f
  /-- What was stored, dropped and scheduled is what the operations did. -/
  history : Quiet r.state → r.state.effects.Perm (r.finished.flatMap Finished.effects)
  /-- Where `epoll_ctl` fails, the operation returns failure, `idle` goes on with the next event,
  and nothing else changes. -/
  failure : r.state.halted = none → ∀ tid ok back, CtlFails r.state tid ok back →
    step r.state (.move tid ok) = some (r.state.setPc tid (.leave back false))

theorem ctlFails_step {s : State} {tid : Nat} {ok : Bool} {back : Option (List EpollEvent)}
    (hhalted : s.halted = none) (h : CtlFails s tid ok back) :
    step s (.move tid ok) = some (s.setPc tid (.leave back false)) := by
  obtain ⟨fc, c, fd, op, mask, prog, hstarts, hc, howner, hctl⟩ := h
  rcases hstarts with ⟨call, hpc, rfl, hsec, rfl⟩ | ⟨event, rest, hpc, rfl, rfl, hsec, rfl⟩
  · simp only [step, if_pos hhalted, hpc, State.move, hc, if_pos howner, ← hsec, State.lock, hctl]
  · simp only [step, if_pos hhalted, hpc, State.move, hc, if_pos howner, ← hsec, State.lock, hctl]

/-- The step invariant behind the bookkeeping. -/
structure Inv (r : Recorded) : Prop where
  kept : Kept r.state
  counted : Counted r.state
  conserved : Conserved r.state
  numbered : Numbered r.state
  tracked : Tracked r

theorem inv_init (threads : Nat) : Inv (.init threads) where
  kept := kept_init threads
  counted := by
    have hdebt : ((init threads).threads.map (init threads).debtOf).sum = 0 := by
      refine List.sum_eq_zero fun x hx => ?_
      obtain ⟨pc, hpc, rfl⟩ := List.mem_map.mp hx
      obtain ⟨-, rfl⟩ := List.mem_replicate.mp hpc
      rfl
    change Counted (init threads)
    rw [Counted, hdebt, add_zero]
    rfl
  conserved := List.Perm.refl []
  numbered := rfl
  tracked := tracked_init threads

theorem inv_step {r r' : Recorded} {l : Label} (h : Inv r) (hstep : r.step l = some r') : Inv r' := by
  have hstate := state_step hstep
  exact ⟨kept_step h.kept hstate, counted_step h.counted h.kept hstate,
    conserved_step h.conserved h.kept hstate, numbered_step h.numbered hstate,
    tracked_step h.tracked h.kept hstep⟩

theorem Inv.bookkeeping {r : Recorded} (h : Inv r) : Bookkeeping r where
  pending := by
    intro hquiet
    have hdebt : (r.state.threads.map r.state.debtOf).sum = 0 := by
      refine List.sum_eq_zero fun x hx => ?_
      obtain ⟨pc, hpc, rfl⟩ := List.mem_map.mp hx
      exact debtOf_outside (hquiet pc hpc)
    have hcounted := h.counted
    rwa [Counted, hdebt, add_zero] at hcounted
  agrees := by
    intro hquiet c hc
    obtain ⟨fc, hfc⟩ := List.mem_iff_getElem?.mp hc
    cases howner : c.owner with
    | none => exact h.kept.unlocked fc c hfc howner
    | some tid =>
        obtain ⟨prog, back, hpc⟩ := h.kept.locked fc c tid hfc howner
        exact (hquiet _ (List.mem_of_getElem? hpc)).elim
  conserved := h.conserved
  nodup := h.numbered.nodup
  right := h.tracked.right
  history := by
    intro hquiet
    have hnone : r.begun.flatMap begunEffects = [] := by
      refine List.flatMap_eq_nil_iff.mpr fun x hx => ?_
      obtain ⟨tid, htid⟩ := List.mem_iff_getElem?.mp hx
      obtain ⟨hlt, -⟩ := List.getElem?_eq_some_iff.mp htid
      rw [h.tracked.length_eq] at hlt
      have hpc := List.getElem?_eq_getElem hlt
      rw [h.tracked.outside tid _ hpc (hquiet _ (List.mem_of_getElem? hpc))] at htid
      cases htid
      rfl
    have hhistory := h.tracked.history
    rwa [hnone, List.append_nil] at hhistory
  failure := fun hhalted _ _ _ => ctlFails_step hhalted

/-- The bookkeeping of events is right in every state that a run of any number of threads
reaches, and each operation has done what it returned. -/
theorem bookkeeping_of_run (threads : Nat) (ls : List Label) (s : State)
    (h : run step (init threads) ls = some s) :
    ∃ r, run Recorded.step (.init threads) ls = some r ∧ r.state = s ∧ Bookkeeping r := by
  obtain ⟨r, hr, hstate⟩ := exists_recorded (r := .init threads) h
  exact ⟨r, hr, hstate, (run_invariant (C := fun _ _ => True) (fun _ _ _ hs _ => inv_step hs) ls _ r
    (inv_init threads) (stepsMeet_true ls _) hr).bookkeeping⟩

/-- A reader and a writer wait for descriptor 5. The writer is deleted, which fails the first time
because `epoll_ctl` does, and the reader is reported. Then a reader is cancelled by itself, and a
reader and a writer together. -/
def busyRun : List Label :=
  List.flatten [
    .call 0 (.addEvent 5 .read (.cb 7) 1) :: List.replicate 7 (.move 0 true),
    .call 0 (.addEvent 5 .write (.fiber 8) 2) :: List.replicate 8 (.move 0 true),
    [.call 1 (.delEvent 5 .write), .move 1 true, .move 1 false],
    .call 1 (.delEvent 5 .write) :: List.replicate 6 (.move 1 true),
    .wait 1 [(5, ⟨5, true, false, false, false⟩)] :: List.replicate 8 (.move 1 true),
    .call 0 (.addEvent 5 .read (.cb 9) 1) :: List.replicate 7 (.move 0 true),
    .call 1 (.cancelEvent 5 .read) :: List.replicate 8 (.move 1 true),
    .call 0 (.addEvent 5 .read (.cb 10) 1) :: List.replicate 7 (.move 0 true),
    .call 0 (.addEvent 5 .write (.cb 11) 1) :: List.replicate 7 (.move 0 true),
    .call 1 (.cancelAll 5) :: List.replicate 16 (.move 1 true)]

theorem bookkeeping_after_cancel : ∃ r, run Recorded.step (.init 2) busyRun = some r ∧
    Bookkeeping r ∧ r.state.pending = 0 ∧ r.finished.map Finished.effects =
      [[.added ⟨7, 0⟩], [.added ⟨8, 1⟩], [], [.dropped ⟨8, 1⟩], [.scheduled ⟨1, ⟨7, 0⟩⟩],
        [.added ⟨9, 2⟩], [.scheduled ⟨1, ⟨9, 2⟩⟩], [.added ⟨10, 3⟩], [.added ⟨11, 4⟩],
        [.scheduled ⟨1, ⟨10, 3⟩⟩, .scheduled ⟨1, ⟨11, 4⟩⟩]] := by
  have hstate : (run step (init 2) busyRun).map State.pending = some 0 := by decide +kernel
  have heffects : (run Recorded.step (.init 2) busyRun).map
      (fun r => r.finished.map Finished.effects) =
        some [[.added ⟨7, 0⟩], [.added ⟨8, 1⟩], [], [.dropped ⟨8, 1⟩], [.scheduled ⟨1, ⟨7, 0⟩⟩],
          [.added ⟨9, 2⟩], [.scheduled ⟨1, ⟨9, 2⟩⟩], [.added ⟨10, 3⟩], [.added ⟨11, 4⟩],
          [.scheduled ⟨1, ⟨10, 3⟩⟩, .scheduled ⟨1, ⟨11, 4⟩⟩]] := by
    decide +kernel
  obtain ⟨s, hs, hpending⟩ := Option.map_eq_some_iff.mp hstate
  obtain ⟨r, hr, rfl, hbook⟩ := bookkeeping_of_run 2 busyRun s hs
  rw [hr] at heffects
  exact ⟨r, hr, hbook, hpending, Option.some.inj heffects⟩

end IOManager

end Saturn
