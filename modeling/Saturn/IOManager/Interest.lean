import Saturn.IOManager.Bookkeeping

/-!
# The interest set of the kernel

Here the operations on one descriptor run one after the other, each section as a whole, and only
successful ones count. `addEvent`, `cancelAll` and `idle` leave the kernel with what `fc->events`
says. `delEvent` and `cancelEvent` register `EPOLLIN` without `EPOLLET` for the direction they leave.
-/

namespace Saturn

namespace IOManager

/-- An operation on a descriptor. -/
inductive FdOp where
  | addEvent (e : Event) (task : Task) (scheduler : Nat)
  | delEvent (e : Event)
  | cancelEvent (e : Event)
  | cancelAll
  | dispatch (event : EpollEvent)
  deriving DecidableEq, Repr

/-- The section of an operation on the descriptor. -/
def FdOp.lockedSection : FdOp → FdContext → Section
  | .addEvent e task scheduler => addEventSection e task scheduler
  | .delEvent e => delEventSection e
  | .cancelEvent e => cancelEventSection e
  | .cancelAll => cancelAllSection
  | .dispatch event => dispatchSection event

/-- The operation, of the `IOManager`. -/
def FdOp.op (fd : Nat) : FdOp → Op
  | .addEvent e task scheduler => .call (.addEvent fd e task scheduler)
  | .delEvent e => .call (.delEvent fd e)
  | .cancelEvent e => .call (.cancelEvent fd e)
  | .cancelAll => .call (.cancelAll fd)
  | .dispatch event => .dispatch event

/-- The rest of a section as a whole; `none` when it halts. -/
def Prog.runAll : Prog → FdContext → Option FdContext
  | .ret _, c => some c
  | .act a next, c =>
      match a.onContext 0 c with
      | .ok c' => next.runAll c'
      | .error _ => none
  | .ifEvent e yes no, c => if c.events.has e then yes.runAll c else no.runAll c

/-- A descriptor: its context and the kernel's interest set. -/
structure Watched where
  fc : FdContext
  epoll : Epoll

/-- A successful operation. -/
def Watched.step (w : Watched) (op : FdOp) : Option Watched :=
  match op.lockedSection w.fc with
  | .ctl op mask prog =>
      match epollCtl w.epoll op w.fc.fd ⟨mask, 0⟩ true, prog.runAll w.fc with
      | some epoll, some fc => some ⟨fc, epoll⟩
      | _, _ => none
  | _ => none

/-- A descriptor that was never used. -/
def Watched.new (fd : Nat) : Watched := ⟨.new fd, fun _ => none⟩

/-- The kernel watches the descriptor for what `fc->events` says, edge-triggered. -/
def Watched.Agrees (w : Watched) : Prop :=
  (w.epoll w.fc.fd).map Registration.mask =
    if w.fc.events = .none then none else some (.edge w.fc.events)

instance (w : Watched) : Decidable w.Agrees := inferInstanceAs (Decidable (_ = _))

/-- `delEvent` and `cancelEvent` take away the only direction that is waited for. -/
def LeavesNone (w : Watched) : FdOp → Prop
  | .delEvent e | .cancelEvent e => w.fc.events.has e → w.fc.events.erase e = .none
  | _ => True

instance (w : Watched) : (op : FdOp) → Decidable (LeavesNone w op)
  | .delEvent _ | .cancelEvent _ => inferInstanceAs (Decidable (_ → _))
  | .addEvent .. | .cancelAll | .dispatch _ => isTrue trivial

/-- The bits at the end of a section. -/
def Prog.lastEvents : Prog → Events → Events
  | .ret _, ev => ev
  | .act a next, ev => next.lastEvents (a.onEvents ev)
  | .ifEvent e yes no, ev => if ev.has e then yes.lastEvents ev else no.lastEvents ev

theorem runAll_events : ∀ (prog : Prog) (c c' : FdContext), prog.runAll c = some c' →
    c'.events = prog.lastEvents c.events := by
  intro prog
  induction prog with
  | ret result => intro c c' h; cases h; rfl
  | act a next ih =>
      intro c c' h
      rw [Prog.runAll] at h
      split at h
      · rename_i c₁ hok
        rw [ih c₁ c' h, (onContext_events hok).1]
        rfl
      · cases h
  | ifEvent e yes no ihYes ihNo =>
      intro c c' h
      rw [Prog.runAll] at h
      rw [Prog.lastEvents]
      split at h <;> rename_i hhas
      · rw [if_pos hhas]
        exact ihYes c c' h
      · rw [if_neg hhas]
        exact ihNo c c' h

theorem setContext_fd (c : FdContext) (e : Event) (ctx : EventContext) :
    (c.setContext e ctx).fd = c.fd := by
  cases e <;> rfl

theorem onContext_fd {a : Act} {call : Nat} {c c' : FdContext} (h : a.onContext call c = .ok c') :
    c'.fd = c.fd := by
  cases a with
  | fill e task scheduler => cases task <;> cases h <;> exact setContext_fd ..
  | schedule e =>
      simp only [Act.onContext] at h
      split at h
      · cases h
        exact setContext_fd ..
      · cases h
  | assertEmpty e | assertEvent e | assertNone =>
      simp only [Act.onContext] at h
      split at h
      · cases h
        rfl
      · cases h
  | resetContext e | clearScheduler e =>
      cases h
      exact setContext_fd ..
  | _ =>
      cases h
      rfl

theorem runAll_meets {P : Act → FdContext → Prop} {Q : FdContext → Prop} :
    ∀ (prog : Prog) (c c' : FdContext), prog.Meets P Q c → prog.runAll c = some c' →
      Q c' ∧ c'.fd = c.fd := by
  intro prog
  induction prog with
  | ret result =>
      intro c c' hmeets h
      cases h
      exact ⟨hmeets, rfl⟩
  | act a next ih =>
      intro c c' hmeets h
      rw [Prog.runAll] at h
      split at h
      · rename_i c₁ hok
        obtain ⟨hQ, hfd⟩ := ih c₁ c' (hmeets.2 0 c₁ hok) h
        exact ⟨hQ, hfd.trans (onContext_fd hok)⟩
      · cases h
  | ifEvent e yes no ihYes ihNo =>
      intro c c' hmeets h
      rw [Prog.runAll] at h
      rw [Prog.Meets] at hmeets
      split at h <;> rename_i hhas
      · rw [if_pos hhas] at hmeets
        exact ihYes c c' hmeets h
      · rw [if_neg hhas] at hmeets
        exact ihNo c c' hmeets h

/-- What `epoll_ctl` leaves for the descriptor. -/
theorem epollCtl_mask {epoll epoll' : Epoll} {op : EpollOp} {fd : Nat} {reg : Registration}
    (h : epollCtl epoll op fd reg true = some epoll') :
    (epoll' fd).map Registration.mask = if op = .del then none else some reg.mask := by
  cases op <;> simp only [epollCtl] at h <;> split at h <;> cases h <;> simp_all

theorem triggerEvent_lastEvents (e : Event) (next : Prog) (ev : Events) :
    (triggerEvent e next).lastEvents ev = next.lastEvents (ev.erase e) := rfl

section Step

variable {w t : Watched} {op : FdOp} {ctl : EpollOp} {mask : EpollMask} {prog : Prog}

/-- What the section registers is what it leaves in `fc->events`. -/
theorem lockedSection_registers (h : LeavesNone w op)
    (hsec : op.lockedSection w.fc = .ctl ctl mask prog) :
    (if ctl = .del then none else some mask) =
      if prog.lastEvents w.fc.events = .none then none
      else some (.edge (prog.lastEvents w.fc.events)) := by
  cases op with
  | addEvent e task scheduler =>
      simp only [FdOp.lockedSection, addEventSection] at hsec
      split at hsec
      · cases hsec
      · cases hsec
        generalize w.fc.events = ev
        obtain ⟨read, write⟩ := ev
        cases task <;> cases e <;> cases read <;> cases write <;>
          simp [Prog.lastEvents, Act.onEvents, Events.insert, Events.none, EpollMask.edge]
  | delEvent e | cancelEvent e =>
      simp only [FdOp.lockedSection, delEventSection, cancelEventSection] at hsec
      split at hsec
      · rename_i hhas
        have hnone := h hhas
        cases hsec
        simp [triggerEvent, Prog.lastEvents, Act.onEvents, hnone]
      · cases hsec
  | cancelAll =>
      simp only [FdOp.lockedSection, cancelAllSection] at hsec
      split at hsec
      · cases hsec
      · cases hsec
        generalize w.fc.events = ev
        obtain ⟨read, write⟩ := ev
        cases read <;> cases write <;>
          simp [triggerEvent_lastEvents, Prog.lastEvents, Act.onEvents, Events.has, Events.erase,
            Events.none]
  | dispatch event =>
      simp only [FdOp.lockedSection, dispatchSection] at hsec
      split at hsec
      · cases hsec
      · cases hsec
        generalize w.fc.events = ev
        generalize event.realEvents ev = real
        obtain ⟨read, write⟩ := ev
        obtain ⟨real_read, real_write⟩ := real
        cases read <;> cases write <;> cases real_read <;> cases real_write <;>
          simp [triggerEvent_lastEvents, Prog.lastEvents, Act.onEvents, Events.erase, Events.diff,
            Events.none, EpollMask.edge]

/-- The parts of a successful operation. -/
theorem step_eq_some (h : w.step op = some t) : ∃ ctl mask prog,
    op.lockedSection w.fc = .ctl ctl mask prog ∧
      epollCtl w.epoll ctl w.fc.fd ⟨mask, 0⟩ true = some t.epoll ∧ prog.runAll w.fc = some t.fc := by
  unfold Watched.step at h
  split at h
  · rename_i ctl mask prog hsec
    split at h
    · rename_i epoll fc hctl hrun
      cases h
      exact ⟨ctl, mask, prog, hsec, hctl, hrun⟩
    · cases h
  · cases h

theorem fdOp_meets (h : w.fc.Consistent) (hsec : op.lockedSection w.fc = .ctl ctl mask prog) :
    prog.Meets FillsEmpty FdContext.Consistent w.fc :=
  lockedSection_meets h (o := op.op w.fc.fd) (by rw [← hsec]; cases op <;> rfl) w.fc.owner

theorem consistent_step (h : w.fc.Consistent) (hstep : w.step op = some t) : t.fc.Consistent := by
  obtain ⟨ctl, mask, prog, hsec, -, hrun⟩ := step_eq_some hstep
  exact (runAll_meets prog _ _ (fdOp_meets h hsec) hrun).1

theorem agrees_step (h : w.fc.Consistent) (hop : LeavesNone w op) (hstep : w.step op = some t) :
    t.Agrees := by
  obtain ⟨ctl, mask, prog, hsec, hctl, hrun⟩ := step_eq_some hstep
  obtain ⟨-, hfd⟩ := runAll_meets prog _ _ (fdOp_meets h hsec) hrun
  rw [Watched.Agrees, hfd, epollCtl_mask hctl, lockedSection_registers hop hsec,
    runAll_events prog _ _ hrun]

/-- Where `delEvent` or `cancelEvent` leaves the other direction, it succeeds, and the kernel is
left with a level-triggered mask. -/
theorem disagrees_step (h : w.fc.Consistent) (hagrees : w.Agrees) (hop : ¬ LeavesNone w op) :
    ∃ t, w.step op = some t ∧ ¬ t.Agrees := by
  have hreg : ∀ e : Event, w.fc.events.has e = true → ∃ reg, w.epoll w.fc.fd = some reg := by
    intro e hhas
    have hne : w.fc.events ≠ .none := by
      intro hnone
      rw [hnone] at hhas
      cases e <;> cases hhas
    rw [Watched.Agrees, if_neg hne] at hagrees
    obtain ⟨reg, hreg, -⟩ := Option.map_eq_some_iff.mp hagrees
    exact ⟨reg, hreg⟩
  -- the kernel's mask has no `EPOLLET`
  have hlevel : ∀ (e : Event) (c : FdContext), c.fd = w.fc.fd →
      c.events = w.fc.events.erase e → w.fc.events.erase e ≠ .none →
      ¬ Watched.Agrees ⟨c, Function.update w.epoll w.fc.fd
        (some ⟨.inWith (w.fc.events.erase e), 0⟩)⟩ := by
    intro e c hfd hevents hne hbad
    rw [Watched.Agrees, hevents, if_neg hne, hfd] at hbad
    simp [EpollMask.inWith, EpollMask.edge] at hbad
  cases op with
  | delEvent e =>
      simp only [LeavesNone, Classical.not_imp] at hop
      obtain ⟨hhas, hne⟩ := hop
      obtain ⟨reg, hreg⟩ := hreg e hhas
      refine ⟨_, ?_, hlevel e (w.fc.cleared e) (setContext_fd ..) (setContext_events ..) hne⟩
      simp [Watched.step, FdOp.lockedSection, delEventSection, hhas, hne, epollCtl, hreg,
        Prog.runAll, Act.onContext, FdContext.cleared]
  | cancelEvent e =>
      simp only [LeavesNone, Classical.not_imp] at hop
      obtain ⟨hhas, hne⟩ := hop
      obtain ⟨reg, hreg⟩ := hreg e hhas
      obtain ⟨c₁, hc₁, hc₂⟩ := (h e).schedule hhas 0 (w.fc.events.erase e)
      refine ⟨_, ?_, hlevel e (w.fc.cleared e) (setContext_fd ..) (setContext_events ..) hne⟩
      have hrun : (Prog.act .decPending (triggerEvent e (.ret true))).runAll w.fc =
          some (w.fc.cleared e) := by
        rw [Prog.runAll, triggerEvent, Act.onContext]
        dsimp only
        rw [Prog.runAll, Act.onContext, if_pos hhas]
        dsimp only
        rw [Prog.runAll, Act.onContext]
        dsimp only
        rw [Prog.runAll, hc₁]
        dsimp only
        rw [Prog.runAll, hc₂]
        rfl
      simp [Watched.step, FdOp.lockedSection, cancelEventSection, hhas, hne, epollCtl, hreg, hrun]
  | addEvent e task scheduler => exact (hop trivial).elim
  | cancelAll => exact (hop trivial).elim
  | dispatch event => exact (hop trivial).elim

/-- The kernel's interest set agrees with `fc->events` after every operation exactly when no
successful `delEvent` or `cancelEvent` leaves the other direction waited for. -/
theorem interest_agrees_iff (fd : Nat) (ops : List FdOp) :
    StatesMeet Watched.step Watched.Agrees (.new fd) ops ↔
      StepsMeet Watched.step LeavesNone (.new fd) ops :=
  statesMeet_iff_stepsMeet (I := fun w => w.fc.Consistent) (D := fun _ _ => True)
    (fun _ _ _ h _ => consistent_step h) (fun _ _ _ h _ _ => agrees_step h)
    (fun _ _ h _ => disagrees_step h) ops _ (FdContext.consistent_new fd) rfl
    (stepsMeet_true ops _)

end Step

/-- Both directions are waited for, and then the reader is deleted: the kernel is left with
`EPOLLIN | EPOLLOUT`, level-triggered. -/
theorem interest_after_del : ¬ StatesMeet Watched.step Watched.Agrees (.new 5)
    [.addEvent .read (.cb 0) 0, .addEvent .write (.cb 1) 0, .delEvent .read] := by
  decide

end IOManager

end Saturn
