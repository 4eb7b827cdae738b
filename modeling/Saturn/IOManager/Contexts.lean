import Mathlib.Data.List.Forall2
import Saturn.IOManager.Machine

/-!
# What the locked sections do

The contexts between the locked sections, where each bit says whether something waits for its
direction, and what an operation does to its context and to the history when it succeeds: `addEvent`
stores one waiter, `delEvent` drops one, and the others hand to their schedulers the waiters of the
directions that they take away.
-/

namespace Saturn

namespace IOManager

namespace FdContext

/-- The bit of `e` says whether something waits for it. -/
structure Agrees (c : FdContext) (e : Event) : Prop where
  set_iff : c.events.has e = true ↔ (c.getContext e).scheduler.isSome ∧
    ((c.getContext e).cb.isSome ∧ (c.getContext e).fiber = none ∨
      (c.getContext e).cb = none ∧ (c.getContext e).fiber.isSome)
  clear_iff : c.events.has e = false ↔ c.getContext e = .empty

/-- Both bits do. -/
def Consistent (c : FdContext) : Prop := ∀ e, c.Agrees e

theorem consistent_new (fd : Nat) : (new fd).Consistent := by
  intro e
  cases e <;> constructor <;> simp [new, Events.none, Events.has, getContext, EventContext.empty]

variable {c : FdContext}

theorem Consistent.owner (h : c.Consistent) (owner : Option Nat) :
    { c with owner := owner }.Consistent :=
  fun e => ⟨(h e).set_iff, (h e).clear_iff⟩

/-- What is left of a direction that nothing waits for any more. -/
def cleared (c : FdContext) (e : Event) : FdContext :=
  { c with events := c.events.erase e }.setContext e .empty

theorem Consistent.cleared (h : c.Consistent) (e : Event) : (c.cleared e).Consistent := by
  intro e'
  have hother := h e'
  cases e <;> cases e' <;>
    first
    | exact ⟨hother.set_iff, hother.clear_iff⟩
    | constructor <;>
        simp [FdContext.cleared, setContext, getContext, Events.has, Events.erase, EventContext.empty]

/-- A direction that something has begun to wait for. -/
theorem Consistent.filled (h : c.Consistent) (e : Event) {ctx : EventContext}
    (hscheduler : ctx.scheduler.isSome)
    (htask : ctx.cb.isSome ∧ ctx.fiber = none ∨ ctx.cb = none ∧ ctx.fiber.isSome) :
    ({ c with events := c.events.insert e }.setContext e ctx).Consistent := by
  have hne : ctx ≠ .empty := by
    rintro rfl
    cases hscheduler
  intro e'
  have hother := h e'
  cases e <;> cases e' <;>
    first
    | exact ⟨hother.set_iff, hother.clear_iff⟩
    | constructor <;>
        simp [setContext, getContext, Events.has, Events.insert, hscheduler, htask, hne]

/-- Something that waits is scheduled and its context emptied. -/
theorem Agrees.schedule {e : Event} (h : c.Agrees e) (hhas : c.events.has e) (call : Nat)
    (ev : Events) : ∃ c', (Act.schedule e).onContext call { c with events := ev } = .ok c' ∧
      (Act.clearScheduler e).onContext call c' = .ok ({ c with events := ev }.setContext e .empty) := by
  obtain ⟨hscheduler, htask⟩ := h.set_iff.mp hhas
  cases e
  all_goals
    simp only [getContext] at hscheduler htask
    rcases htask with ⟨hcb, hfiber⟩ | ⟨hcb, hfiber⟩
    · simp [Act.onContext, getContext, setContext, hscheduler, hcb, hfiber, EventContext.empty]
    · simp [Act.onContext, getContext, setContext, hscheduler, hcb, EventContext.empty]

end FdContext

/-- `addEvent` overwrites nothing. -/
def FillsEmpty (a : Act) (c : FdContext) : Prop :=
  ∀ e task scheduler, a = .fill e task scheduler → c.getContext e = .empty

/-- What the history says of a waiter: it was stored, dropped, or handed to a scheduler. -/
inductive Effect where
  | added (w : Waiter)
  | dropped (w : Waiter)
  | scheduled (sc : Scheduled)
  deriving DecidableEq, Repr

/-- What a statement adds to the history. -/
def Act.effects (call : Nat) (c : FdContext) (a : Act) : List Effect :=
  (a.added call).map .added ++ ((a.dropped c).map .dropped ++ (a.scheduled c).map .scheduled)

/-- One of the operations: a call, or what `idle` does with one reported event. -/
inductive Op where
  | call (call : Call)
  | dispatch (event : EpollEvent)
  deriving DecidableEq, Repr

/-- The context of a direction that the task waits for. -/
def Task.context (scheduler number : Nat) : Task → EventContext
  | .cb id => ⟨some scheduler, none, some ⟨id, number⟩⟩
  | .fiber id => ⟨some scheduler, some ⟨id, number⟩, none⟩

/-- The effect of handing over what waits for `e`. -/
def FdContext.Hands (c : FdContext) (e : Event) (effect : Effect) : Prop :=
  ∃ scheduler w, (c.getContext e).scheduler = some scheduler ∧ (c.getContext e).waiters = [w] ∧
    effect = .scheduled ⟨scheduler, w⟩

/-- Each of the directions is handed over, in order, and that takes context `c` to `c'`. -/
def FdContext.HandsAll (c c' : FdContext) (es : List Event) (effects : List Effect) : Prop :=
  es.Forall₂ c.Hands effects ∧ c' = es.foldl FdContext.cleared c

namespace Op

/-- The section of an operation under the mutex of the context. -/
def lockedSection : Op → FdContext → Section
  | .call c => c.lockedSection
  | .dispatch event => dispatchSection event

/-- The directions that the operation takes away: those it is for that something waits for. -/
def directions (c : FdContext) : Op → List Event
  | .call (.addEvent ..) => []
  | .call (.delEvent _ e) | .call (.cancelEvent _ e) => [e].filter c.events.has
  | .call (.cancelAll _) => [.read, .write].filter c.events.has
  | .dispatch event =>
      [.read, .write].filter fun e => c.events.has e && (event.realEvents c.events).has e

/-- There is nothing for the operation to do. -/
def Idle (c : FdContext) : Op → Prop
  | .call (.addEvent ..) => False
  | op => op.directions c = []

/-- What the operation does from context `c` to `c'` when it succeeds. -/
def Does (c c' : FdContext) (effects : List Effect) : Op → Prop
  | .call (.addEvent _ e task scheduler) =>
      c.getContext e = .empty ∧ ∃ number w, (task.context scheduler number).waiters = [w] ∧
        effects = [.added w] ∧
        c' = { c with events := c.events.insert e }.setContext e (task.context scheduler number)
  | .call (.delEvent _ e) =>
      ∃ w, (c.getContext e).waiters = [w] ∧ effects = [.dropped w] ∧ c' = c.cleared e
  | op => c.HandsAll c' (op.directions c) effects

/-- The section ends with success. -/
def Done (op : Op) (c : FdContext) (result : Bool) (c' : FdContext) (effects : List Effect) : Prop :=
  result = true ∧ op.Does c c' effects

theorem Does.consistent {op : Op} {c c' : FdContext} {effects : List Effect} (h : c.Consistent)
    (hdoes : op.Does c c' effects) : c'.Consistent := by
  have hfoldl : ∀ (es : List Event) (c : FdContext), c.Consistent →
      (es.foldl FdContext.cleared c).Consistent := by
    intro es
    induction es with
    | nil => exact fun c hc => hc
    | cons e es ih => exact fun c hc => ih _ (hc.cleared e)
  cases op with
  | dispatch event =>
      obtain ⟨-, rfl⟩ := hdoes
      exact hfoldl _ c h
  | call call =>
      cases call with
      | addEvent fd e task scheduler =>
          obtain ⟨-, number, w, -, -, rfl⟩ := hdoes
          cases task with
          | cb id => exact h.filled e rfl (Or.inl ⟨rfl, rfl⟩)
          | fiber id => exact h.filled e rfl (Or.inr ⟨rfl, rfl⟩)
      | delEvent fd e =>
          obtain ⟨w, -, -, rfl⟩ := hdoes
          exact h.cleared e
      | cancelEvent | cancelAll =>
          obtain ⟨-, rfl⟩ := hdoes
          exact hfoldl _ c h

/-- Who holds the lock plays no part. -/
theorem Does.owner {op : Op} {c c' : FdContext} {effects : List Effect}
    (hdoes : op.Does c c' effects) (owner : Option Nat) :
    op.Does { c with owner := owner } { c' with owner := owner } effects := by
  have hset : ∀ (c : FdContext) (e : Event) (ctx : EventContext),
      { c.setContext e ctx with owner := owner } =
        FdContext.setContext { c with owner := owner } e ctx := by
    intro c e ctx
    cases e <;> rfl
  have hcleared : ∀ (c : FdContext) (e : Event),
      { c.cleared e with owner := owner } = FdContext.cleared { c with owner := owner } e :=
    fun c e => hset _ e _
  have hfoldl : ∀ (es : List Event) (c : FdContext), { es.foldl FdContext.cleared c with
      owner := owner } = es.foldl FdContext.cleared { c with owner := owner } := by
    intro es
    induction es with
    | nil => exact fun c => rfl
    | cons e es ih => exact fun c => (ih _).trans (by rw [hcleared]; rfl)
  have hget : ∀ e, FdContext.getContext { c with owner := owner } e = c.getContext e := by
    intro e
    cases e <;> rfl
  have hhand : ∀ e effect, c.Hands e effect → FdContext.Hands { c with owner := owner } e effect := by
    intro e effect hhands
    rw [FdContext.Hands, hget]
    exact hhands
  cases op with
  | dispatch event =>
      obtain ⟨hhands, rfl⟩ := hdoes
      exact ⟨hhands.imp hhand, hfoldl _ c⟩
  | call call =>
      cases call with
      | addEvent fd e task scheduler =>
          obtain ⟨hempty, number, w, hw, heffects, rfl⟩ := hdoes
          exact ⟨(hget e).trans hempty, number, w, hw, heffects, hset _ e _⟩
      | delEvent fd e =>
          obtain ⟨w, hw, heffects, rfl⟩ := hdoes
          exact ⟨w, by rw [hget, hw], heffects, hcleared c e⟩
      | cancelEvent | cancelAll =>
          obtain ⟨hhands, rfl⟩ := hdoes
          exact ⟨hhands.imp hhand, hfoldl _ c⟩

end Op

/-- From `c` the program runs with `P` at each statement, and ends as `R` says of its result, the
context and the effects, unless it is halted. -/
def Prog.Ends (P : Act → FdContext → Prop) (R : Bool → FdContext → List Effect → Prop) :
    Prog → FdContext → List Effect → Prop
  | .ret result, c, effects => R result c effects
  | .act a next, c, effects => P a c ∧ ∀ call c', a.onContext call c = .ok c' →
      next.Ends P R c' (effects ++ a.effects call c)
  | .ifEvent e yes no, c, effects =>
      if c.events.has e then yes.Ends P R c effects else no.Ends P R c effects

theorem Prog.Ends.meets {P : Act → FdContext → Prop} {Q : FdContext → Prop}
    {R : Bool → FdContext → List Effect → Prop} (hR : ∀ result c effects, R result c effects → Q c) :
    ∀ {prog : Prog} {c : FdContext} {effects : List Effect}, prog.Ends P R c effects →
      prog.Meets P Q c := by
  intro prog
  induction prog with
  | ret result => exact fun h => hR _ _ _ h
  | act a next ih => exact fun h => ⟨h.1, fun call c' hok => ih (h.2 call c' hok)⟩
  | ifEvent e yes no ihYes ihNo =>
      intro c effects h
      rw [Prog.Ends] at h
      rw [Prog.Meets]
      split <;> rename_i hhas
      · exact ihYes (by rwa [if_pos hhas] at h)
      · exact ihNo (by rwa [if_neg hhas] at h)

theorem Prog.Ends.imp {P : Act → FdContext → Prop} {R R' : Bool → FdContext → List Effect → Prop}
    (hR : ∀ result c effects, R result c effects → R' result c effects) :
    ∀ {prog : Prog} {c : FdContext} {effects : List Effect}, prog.Ends P R c effects →
      prog.Ends P R' c effects := by
  intro prog
  induction prog with
  | ret result => exact fun h => hR _ _ _ h
  | act a next ih => exact fun h => ⟨h.1, fun call c' hok => ih (h.2 call c' hok)⟩
  | ifEvent e yes no ihYes ihNo =>
      intro c effects h
      rw [Prog.Ends] at h ⊢
      split <;> rename_i hhas
      · exact ihYes (by rwa [if_pos hhas] at h)
      · exact ihNo (by rwa [if_neg hhas] at h)

section Sections

variable {c : FdContext} {effects : List Effect} {R : Bool → FdContext → List Effect → Prop}

/-- The statements but `fill` run on whatever the context is. -/
theorem ends_act {a : Act} {next : Prog} (ha : ∀ e task scheduler, a ≠ .fill e task scheduler)
    (h : ∀ call c', a.onContext call c = .ok c' →
      next.Ends FillsEmpty R c' (effects ++ a.effects call c)) :
    (Prog.act a next).Ends FillsEmpty R c effects :=
  ⟨fun e task scheduler heq => (ha e task scheduler heq).elim, h⟩

/-- Where something waits for a direction there is one waiter, with its scheduler. -/
theorem FdContext.Agrees.waiter {e : Event} (h : c.Agrees e) (hhas : c.events.has e) :
    ∃ scheduler w, (c.getContext e).scheduler = some scheduler ∧ (c.getContext e).waiters = [w] := by
  obtain ⟨hscheduler, htask⟩ := h.set_iff.mp hhas
  obtain ⟨scheduler, hscheduler⟩ := Option.isSome_iff_exists.mp hscheduler
  rcases htask with ⟨htask, hnone⟩ | ⟨hnone, htask⟩ <;>
    obtain ⟨w, htask⟩ := Option.isSome_iff_exists.mp htask <;>
    exact ⟨scheduler, w, hscheduler, by simp [EventContext.waiters, htask, hnone]⟩

theorem schedule_effects {e : Event} {call scheduler : Nat} {w : Waiter}
    (hscheduler : (c.getContext e).scheduler = some scheduler)
    (hw : (c.getContext e).waiters = [w]) :
    (Act.schedule e).effects call c = [.scheduled ⟨scheduler, w⟩] := by
  rw [EventContext.waiters] at hw
  cases hcb : (c.getContext e).cb with
  | some w' =>
      rw [hcb] at hw
      obtain ⟨rfl, -⟩ := List.cons.inj hw
      simp [Act.effects, Act.added, Act.dropped, Act.scheduled, hscheduler, hcb]
  | none =>
      cases hfiber : (c.getContext e).fiber with
      | some w' =>
          rw [hcb, hfiber] at hw
          obtain ⟨rfl, -⟩ := List.cons.inj hw
          simp [Act.effects, Act.added, Act.dropped, Act.scheduled, hscheduler, hcb, hfiber]
      | none => simp [hcb, hfiber] at hw

theorem triggerEvent_ends {e : Event} {next : Prog} (h : c.Agrees e)
    (hnext : c.events.has e → ∀ effect, c.Hands e effect →
      next.Ends FillsEmpty R (c.cleared e) (effects ++ [effect])) :
    (triggerEvent e next).Ends FillsEmpty R c effects := by
  refine ends_act (by simp) fun call c₁ h₁ => ?_
  simp only [Act.onContext] at h₁
  split at h₁
  · rename_i hhas
    cases h₁
    refine ends_act (by simp) fun call c₂ h₂ => ?_
    cases h₂
    refine ends_act (by simp) fun call c₃ h₃ => ?_
    refine ends_act (by simp) fun call' c₄ h₄ => ?_
    obtain ⟨c₃', h₃', h₄'⟩ := h.schedule hhas call (c.events.erase e)
    rw [h₃'] at h₃
    cases h₃
    have heq : (Act.clearScheduler e).onContext call' c₃ =
        (Act.clearScheduler e).onContext call c₃ := rfl
    rw [heq, h₄'] at h₄
    cases h₄
    obtain ⟨scheduler, w, hscheduler, hw⟩ := h.waiter hhas
    have hscheduled : (Act.schedule e).effects call { c with events := c.events.erase e } =
        [.scheduled ⟨scheduler, w⟩] :=
      schedule_effects (by cases e <;> exact hscheduler) (by cases e <;> exact hw)
    have hlast := hnext hhas _ ⟨scheduler, w, hscheduler, hw, rfl⟩
    rw [hscheduled]
    simp only [Act.effects, Act.added, Act.dropped, Act.scheduled, List.map_nil, List.append_nil]
    exact hlast
  · cases h₁

variable {op : EpollOp} {mask : EpollMask} {prog : Prog}

theorem addEventSection_ends {fd : Nat} {e : Event} {task : Task} {scheduler : Nat}
    (hsec : addEventSection e task scheduler c = .ctl op mask prog) :
    prog.Ends FillsEmpty (Op.Done (.call (.addEvent fd e task scheduler)) c) c [] := by
  unfold addEventSection at hsec
  split at hsec
  · cases hsec
  cases hsec
  refine ends_act (by simp) fun call c₁ h₁ => ?_
  cases h₁
  refine ends_act (by simp) fun call c₂ h₂ => ?_
  cases h₂
  refine ends_act (by simp) fun call c₃ h₃ => ?_
  simp only [Act.onContext] at h₃
  split at h₃
  · rename_i hset
    cases h₃
    have hempty : c.getContext e = .empty := by
      cases e <;> exact hset
    refine ⟨fun e' task' scheduler' heq => ?_, fun call c₄ h₄ => ?_⟩
    · cases heq
      exact hset
    · cases task with
      | cb id =>
          cases h₄
          refine ⟨rfl, hempty, call, ⟨id, call⟩, rfl, rfl, ?_⟩
          rw [hset]
          rfl
      | fiber id =>
          cases h₄
          refine ends_act (by simp) fun call' c₅ h₅ => ?_
          cases h₅
          refine ⟨rfl, hempty, call, ⟨id, call⟩, rfl, rfl, ?_⟩
          rw [hset]
          rfl
  · cases h₃

theorem directions_one {fd : Nat} {e : Event} (hhas : c.events.has e) :
    Op.directions c (.call (.cancelEvent fd e)) = [e] := by
  rw [Op.directions, List.filter_singleton, hhas]
  rfl

theorem delEventSection_ends (h : c.Consistent) {fd : Nat} {e : Event}
    (hsec : delEventSection e c = .ctl op mask prog) :
    prog.Ends FillsEmpty (Op.Done (.call (.delEvent fd e)) c) c [] := by
  unfold delEventSection at hsec
  split at hsec
  · rename_i hhas
    obtain ⟨scheduler, w, -, hw⟩ := (h e).waiter hhas
    cases hsec
    refine ends_act (by simp) fun call c₁ h₁ => ?_
    cases h₁
    refine ends_act (by simp) fun call c₂ h₂ => ?_
    cases h₂
    refine ends_act (by simp) fun call c₃ h₃ => ?_
    cases h₃
    have hw' : (FdContext.getContext { c with events := c.events.erase e } e).waiters = [w] := by
      cases e <;> exact hw
    exact ⟨rfl, w, hw, by simp [Act.effects, Act.added, Act.dropped, Act.scheduled, hw'], rfl⟩
  · cases hsec

theorem cancelEventSection_ends (h : c.Consistent) {fd : Nat} {e : Event}
    (hsec : cancelEventSection e c = .ctl op mask prog) :
    prog.Ends FillsEmpty (Op.Done (.call (.cancelEvent fd e)) c) c [] := by
  unfold cancelEventSection at hsec
  split at hsec
  · cases hsec
    refine ends_act (by simp) fun call c₁ h₁ => ?_
    cases h₁
    refine triggerEvent_ends (h e) fun hhas effect hhands => ?_
    refine ⟨rfl, ?_⟩
    change c.HandsAll _ (Op.directions c _) _
    rw [directions_one hhas]
    exact ⟨.cons hhands .nil, rfl⟩
  · cases hsec

theorem getContext_cleared {e e' : Event} (hne : e' ≠ e) :
    (c.cleared e).getContext e' = c.getContext e' := by
  cases e <;> cases e' <;> first | rfl | exact (hne rfl).elim

theorem has_cleared {e e' : Event} (hne : e' ≠ e) :
    (c.cleared e).events.has e' = c.events.has e' := by
  cases e <;> cases e' <;> first | rfl | exact (hne rfl).elim

theorem FdContext.HandsAll.concat {c₁ : FdContext} {es : List Event} {e : Event} {effect : Effect}
    (h : c.HandsAll c₁ es effects) (hget : c₁.getContext e = c.getContext e)
    (heffect : c₁.Hands e effect) :
    c.HandsAll (c₁.cleared e) (es ++ [e]) (effects ++ [effect]) := by
  obtain ⟨hhands, rfl⟩ := h
  rw [FdContext.Hands, hget] at heffect
  exact ⟨List.rel_append hhands (.cons heffect .nil), by rw [List.foldl_append]; rfl⟩

/-- Directions that are taken one after the other: each is triggered where `take` says so, in the
context that the ones before it have left. -/
theorem foldr_ends (take : Event → Bool) (branch : Event → Prog → Prog) {last : Prog}
    (hbranch : ∀ (e : Event) (rest : Prog) (c : FdContext) (effects : List Effect),
      (take e → (triggerEvent e (.act .decPending rest)).Ends FillsEmpty R c effects) →
      (¬ (c.events.has e && take e) → rest.Ends FillsEmpty R c effects) →
      (branch e rest).Ends FillsEmpty R c effects) (c : FdContext) :
    ∀ (es done : List Event) (c₁ : FdContext) (effects : List Effect), es.Nodup →
      c₁.Consistent → c.HandsAll c₁ done effects →
      (∀ e ∈ es, c₁.getContext e = c.getContext e ∧ c₁.events.has e = c.events.has e) →
      (∀ c' effects, c.HandsAll c' (done ++ es.filter fun e => c.events.has e && take e) effects →
        last.Ends FillsEmpty R c' effects) →
      (es.foldr branch last).Ends FillsEmpty R c₁ effects := by
  intro es
  induction es with
  | nil =>
      intro done c₁ effects _ _ hdone _ hlast
      exact hlast c₁ effects (by simpa using hdone)
  | cons e es ih =>
      intro done c₁ effects hnodup hc₁ hdone hsame hlast
      obtain ⟨hnotmem, hnodup⟩ := List.nodup_cons.mp hnodup
      obtain ⟨hget, hhas⟩ := hsame e List.mem_cons_self
      rw [List.foldr_cons]
      refine hbranch e _ c₁ effects (fun htake => ?_) fun hnot => ?_
      · refine triggerEvent_ends (hc₁ e) fun hset effect heffect => ?_
        refine ends_act (by simp) fun call c₂ h₂ => ?_
        cases h₂
        rw [show (Act.decPending).effects call (c₁.cleared e) = [] from rfl, List.append_nil]
        refine ih (done ++ [e]) _ _ hnodup (hc₁.cleared e) (hdone.concat hget heffect) ?_ ?_
        · intro e' he'
          have hne : e' ≠ e := fun heq => hnotmem (heq ▸ he')
          rw [getContext_cleared hne, has_cleared hne]
          exact hsame e' (List.mem_cons_of_mem _ he')
        · intro c' effects' hall
          refine hlast c' effects' ?_
          rw [List.filter_cons, if_pos (by rw [← hhas, hset, htake]; rfl)]
          simpa using hall
      · refine ih done c₁ effects hnodup hc₁ hdone
          (fun e' he' => hsame e' (List.mem_cons_of_mem _ he')) fun c' effects' hall => ?_
        refine hlast c' effects' ?_
        rw [List.filter_cons, if_neg (by rwa [← hhas])]
        exact hall

theorem handsAll_nil : c.HandsAll c [] [] := ⟨.nil, rfl⟩

theorem cancelAllSection_ends (h : c.Consistent) {fd : Nat}
    (hsec : cancelAllSection c = .ctl op mask prog) :
    prog.Ends FillsEmpty (Op.Done (.call (.cancelAll fd)) c) c [] := by
  unfold cancelAllSection at hsec
  split at hsec
  · cases hsec
  cases hsec
  refine foldr_ends (fun _ => true)
    (fun e rest => .ifEvent e (triggerEvent e (.act .decPending rest)) rest) ?_ c
    [.read, .write] [] c [] (by decide) h handsAll_nil (fun _ _ => ⟨rfl, rfl⟩) ?_
  · intro e rest c effects htrigger hrest
    rw [Prog.Ends]
    split <;> rename_i hhas
    · exact htrigger rfl
    · exact hrest (by simpa using hhas)
  · intro c' effects hall
    refine ends_act (by simp) fun call c₁ h₁ => ?_
    simp only [Act.onContext] at h₁
    split at h₁
    · cases h₁
      exact ⟨rfl, by simpa [Op.Does, Op.directions, Act.effects, Act.added, Act.dropped,
        Act.scheduled] using hall⟩
    · cases h₁

theorem dispatchSection_ends (h : c.Consistent) {event : EpollEvent}
    (hsec : dispatchSection event c = .ctl op mask prog) :
    prog.Ends FillsEmpty (Op.Done (.dispatch event) c) c [] := by
  simp only [dispatchSection] at hsec
  split at hsec
  · cases hsec
  cases hsec
  refine foldr_ends (event.realEvents c.events).has
    (fun e rest =>
      if (event.realEvents c.events).has e then triggerEvent e (.act .decPending rest) else rest)
    ?_ c [.read, .write] [] c [] (by decide) h handsAll_nil (fun _ _ => ⟨rfl, rfl⟩) ?_
  · intro e rest c effects htrigger hrest
    split <;> rename_i htake
    · exact htrigger htake
    · exact hrest fun hboth => htake (Bool.and_eq_true _ _ ▸ hboth).2
  · exact fun c' effects hall => ⟨rfl, hall⟩

/-- Every section, when `epoll_ctl` succeeds, ends as the operation should. -/
theorem lockedSection_ends (h : c.Consistent) {o : Op}
    (hsec : o.lockedSection c = .ctl op mask prog) :
    prog.Ends FillsEmpty (o.Done c) c [] := by
  cases o with
  | dispatch event => exact dispatchSection_ends h hsec
  | call call =>
      cases call with
      | addEvent fd e task scheduler => exact addEventSection_ends hsec
      | delEvent fd e => exact delEventSection_ends h hsec
      | cancelEvent fd e => exact cancelEventSection_ends h hsec
      | cancelAll fd => exact cancelAllSection_ends h hsec

theorem lockedSection_owner (o : Op) (owner : Option Nat) :
    o.lockedSection { c with owner := owner } = o.lockedSection c := by
  cases o with
  | dispatch event => rfl
  | call call => cases call <;> rfl

theorem lockedSection_meets (h : c.Consistent) {o : Op}
    (hsec : o.lockedSection c = .ctl op mask prog) (owner : Option Nat) :
    prog.Meets FillsEmpty FdContext.Consistent { c with owner := owner } :=
  (lockedSection_ends (h.owner owner) ((lockedSection_owner o owner).trans hsec)).meets
    fun _ _ _ hdone => hdone.2.consistent (h.owner owner)

/-- The same with the lock taken before and given back behind. -/
theorem lockedSection_ends_locked (h : c.Consistent) (hfree : c.owner = none) {o : Op}
    (hsec : o.lockedSection c = .ctl op mask prog) (tid : Nat) :
    prog.Ends FillsEmpty (fun result c' effects =>
      o.Done c result { c' with owner := none } effects) { c with owner := some tid } [] := by
  have hends := lockedSection_ends (h.owner (some tid))
    ((lockedSection_owner o (some tid)).trans hsec)
  refine hends.imp fun result c' effects hdone => ⟨hdone.1, ?_⟩
  have hdoes := hdone.2.owner none
  rw [← hfree] at hdoes ⊢
  exact hdoes

theorem idle_cancelAll {fd : Nat} : Op.Idle c (.call (.cancelAll fd)) ↔ c.events = .none := by
  cases hev : c.events with
  | mk read write =>
      cases read <;> cases write <;> simp [Op.Idle, Op.directions, Events.has, Events.none, hev]

theorem idle_dispatch {event : EpollEvent} :
    Op.Idle c (.dispatch event) ↔ c.events.inter (event.realEvents c.events) = .none := by
  simp [Op.Idle, Op.directions, List.filter_eq_nil_iff, Events.inter, Events.none, Events.has]

/-- A section that leaves without a call of `epoll_ctl` fails, and there was nothing to do. -/
theorem lockedSection_leave {o : Op} {result : Bool} (hsec : o.lockedSection c = .leave result) :
    result = false ∧ o.Idle c := by
  cases o with
  | dispatch event =>
      simp only [Op.lockedSection, dispatchSection] at hsec
      split at hsec
      · rename_i hnone
        cases hsec
        exact ⟨rfl, idle_dispatch.mpr hnone⟩
      · cases hsec
  | call call =>
      cases call with
      | addEvent fd e task scheduler =>
          simp only [Op.lockedSection, Call.lockedSection, addEventSection] at hsec
          split at hsec <;> cases hsec
      | delEvent fd e | cancelEvent fd e =>
          simp only [Op.lockedSection, Call.lockedSection, delEventSection,
            cancelEventSection] at hsec
          split at hsec
          · cases hsec
          · rename_i hhas
            cases hsec
            exact ⟨rfl, by simp [Op.Idle, Op.directions, hhas]⟩
      | cancelAll fd =>
          simp only [Op.lockedSection, Call.lockedSection, cancelAllSection] at hsec
          split at hsec
          · rename_i hnone
            cases hsec
            exact ⟨rfl, idle_cancelAll.mpr hnone⟩
          · cases hsec

/-- One that calls it has something to do. -/
theorem lockedSection_ctl {o : Op} (hsec : o.lockedSection c = .ctl op mask prog) : ¬ o.Idle c := by
  cases o with
  | dispatch event =>
      simp only [Op.lockedSection, dispatchSection] at hsec
      split at hsec
      · cases hsec
      · rename_i hsome
        exact fun hidle => hsome (idle_dispatch.mp hidle)
  | call call =>
      cases call with
      | addEvent fd e task scheduler => exact id
      | delEvent fd e | cancelEvent fd e =>
          simp only [Op.lockedSection, Call.lockedSection, delEventSection,
            cancelEventSection] at hsec
          split at hsec
          · rename_i hhas
            simp [Op.Idle, Op.directions, hhas]
          · cases hsec
      | cancelAll fd =>
          simp only [Op.lockedSection, Call.lockedSection, cancelAllSection] at hsec
          split at hsec
          · cases hsec
          · rename_i hsome
            exact fun hidle => hsome (idle_cancelAll.mp hidle)

end Sections

/-- The operation of a section that starts; `idle` is the one that has something to go back to. -/
theorem Starts.op {s : State} {tid fc fd : Nat} {c : FdContext} {sec : Section}
    {back : Option (List EpollEvent)} (h : Starts s tid fc c fd sec back) :
    ∃ o : Op, sec = o.lockedSection c := by
  rcases h with ⟨call, -, -, hsec, -⟩ | ⟨event, rest, -, -, -, hsec, -⟩
  · exact ⟨.call call, hsec⟩
  · exact ⟨.dispatch event, hsec⟩

/-- The invariant of the contexts. -/
abbrev Kept (s : State) : Prop := Framed FillsEmpty FdContext.Consistent FdContext.Consistent s

theorem kept_init (threads : Nat) : Kept (init threads) :=
  framed_init FdContext.consistent_new threads

theorem kept_step {s t : State} {l : Label} (h : Kept s) (hstep : step s l = some t) : Kept t :=
  h.step hstep FdContext.consistent_new (fun _ hc => hc.owner none)
    fun _ _ _ _ c _ _ _ _ _ _ _ hc hstarts _ => by
      obtain ⟨o, hsec⟩ := hstarts.op
      exact lockedSection_meets hc hsec.symm _

end IOManager

end Saturn
