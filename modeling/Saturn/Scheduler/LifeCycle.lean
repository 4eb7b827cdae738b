import Saturn.Misc.Run
import Saturn.Scheduler.WorkerSteps

/-!
# The life cycle of a fiber

`Scheduler::run` of one worker, with everything in `saturn/fiber.cc` that reads or writes a fiber's
`m_state`: the constructor, the assertions of `swapIn`, `reset` and `~Fiber`, the two yields and the
ends of `MainFunc`. A fiber is destroyed when nothing refers to it any more, so the references are
part of the state: the queue, the locals of `run`, `MainFunc`'s own `cur`, and those that timers,
events and other code hold.

The constructor does not initialise `m_state`; what the memory holds is in the label of the step that
constructs a fiber. The fiber that the loop itself runs on is not one of the fibers here.
-/

namespace Saturn

namespace LifeCycle

open Scheduler (FiberState Task FiberAndThread Action Role)

/-- What `m_ctx` leads to. -/
inductive Stack where
  /-- The beginning of `MainFunc`, since `makecontext`. -/
  | fresh
  /-- The callback; below it `MainFunc`'s `cur` refers to the fiber. -/
  | entered
  /-- `SATURN_ASSERT(false)` at the end of `MainFunc`, which has released `cur`. -/
  | left
  deriving DecidableEq, Repr

/-- A `Fiber`: `m_state`, whether `m_cb` is empty, and what refers to it that is not in `State`. -/
structure Fiber where
  state : FiberState
  hasCb : Bool
  stack : Stack
  outside : Nat
  destroyed : Bool
  deriving DecidableEq, Repr

/-- `Fiber::Fiber(cb)` in memory that holds `garbage` where `m_state` is. -/
def Fiber.new (garbage : FiberState) (hasCb : Bool) (outside : Nat) : Fiber :=
  ⟨garbage, hasCb, .fresh, outside, false⟩

/-- Where the worker is in `run`. -/
inductive Pc where
  /-- `idle_fiber(new Fiber(std::bind(&Scheduler::idle, this)))` -/
  | start
  /-- The scan of `m_fibers`. -/
  | scan
  /-- The tests of what `ft` holds. -/
  | test (task : Task)
  /-- `if(idle_fiber->getState() == TERM)` -/
  | idleTest
  /-- `cb_fiber->reset(ft.cb)` -/
  | reset (f : Nat)
  | swapIn (f : Nat) (role : Role)
  /-- In the callback of the fiber. -/
  | running (f : Nat) (role : Role)
  /-- Behind `swapIn`. -/
  | back (f : Nat) (role : Role)
  /-- `cb_fiber->reset(nullptr)` -/
  | resetNull (f : Nat)
  /-- `run` has returned. -/
  | exited
  deriving DecidableEq, Repr

/-- The fiber that `ft` refers to. -/
def Pc.taken : Pc → Option Nat
  | .test (.fiber f) | .swapIn f .taken | .running f .taken | .back f .taken => some f
  | _ => none

/-- The fiber whose callback the worker is in. -/
def Pc.current : Pc → Option Nat
  | .running f _ => some f
  | _ => none

/-- A scheduler with one thread, and its fibers. -/
structure State where
  pc : Pc
  fibers : Nat → Fiber
  count : Nat
  queue : List FiberAndThread
  cbFiber : Option Nat
  idleFiber : Option Nat
  /-- A `SATURN_ASSERT` has failed. -/
  failed : Bool

/-- A step: another thread or the running callback constructs a fiber, copies or drops a reference
or calls `schedule`; a fiber without references is destroyed; or the worker goes on, with what the
running callback does next and the memory of a fiber that it constructs. -/
inductive Label where
  | create (garbage : FiberState) (hasCb : Bool)
  | acquire (f : Nat)
  | release (f : Nat)
  | schedule (ft : FiberAndThread)
  | destroy (f : Nat)
  | move (act : Action) (garbage : FiberState)
  deriving DecidableEq, Repr

namespace State

/-- Fiber `f` changes. -/
def setFiber (s : State) (f : Nat) (x : Fiber) : State :=
  { s with fibers := Function.update s.fibers f x }

/-- `new Fiber(cb)`. -/
def create (s : State) (x : Fiber) : State :=
  { s with fibers := Function.update s.fibers s.count x, count := s.count + 1 }

/-- A `Fiber::ptr` to the fiber is left. -/
def Referenced (s : State) (f : Nat) : Prop :=
  0 < (s.fibers f).outside ∨ (s.fibers f).stack = .entered ∨ (∃ ft ∈ s.queue, ft.task = .fiber f) ∨
    s.pc.taken = some f ∨ s.cbFiber = some f ∨ s.idleFiber = some f

instance (s : State) (f : Nat) : Decidable (s.Referenced f) := inferInstanceAs (Decidable (_ ∨ _))

/-- Someone who could copy a `Fiber::ptr` to the fiber: one that holds a copy, or the fiber's own
callback with `GetThis`. -/
def Available (s : State) (f : Nat) : Prop :=
  0 < (s.fibers f).outside ∨ s.pc.current = some f

instance (s : State) (f : Nat) : Decidable (s.Available f) := inferInstanceAs (Decidable (_ ∨ _))

/-- What the fiber's callback can do next. The loop of `idle` yields or ends, and an empty `m_cb`
throws when it is called. -/
def mayAct (s : State) (f : Nat) (act : Action) : Bool :=
  if s.idleFiber = some f then act == .yieldToHold || act == .swapOut || act == .finish
  else (s.fibers f).hasCb || act == .throwException

/-- The next statements of the worker. -/
def move (s : State) (act : Action) (garbage : FiberState) : Option State :=
  match s.pc with
  | .start =>
      some { s.create (.new garbage true 0) with pc := .scan, idleFiber := some s.count }
  | .scan =>
      match (Workers.scan (fun f => (s.fibers f).state) 0 s.queue).1 with
      | some (task, rest) => some { s with queue := rest, pc := .test task }
      | none => some { s with pc := .idleTest }
  | .test (.fiber f) =>
      some { s with pc := if (s.fibers f).state.Ended then .scan else .swapIn f .taken }
  | .test (.cb _) =>
      match s.cbFiber with
      | some f => some { s with pc := .reset f }
      | none =>
          some { s.create (.new garbage true 0) with
            pc := .swapIn s.count .cb, cbFiber := some s.count }
  | .reset f =>
      if (s.fibers f).state.Ended ∨ (s.fibers f).state = .init then
        some { s.setFiber f { s.fibers f with state := .init, hasCb := true, stack := .fresh } with
          pc := .swapIn f .cb }
      else some { s with failed := true }
  | .idleTest =>
      match s.idleFiber with
      | none => none
      | some f =>
          if (s.fibers f).state = .term then
            some { s with pc := .exited, cbFiber := none, idleFiber := none }
          else some { s with pc := .swapIn f .idle }
  | .swapIn f role =>
      if (s.fibers f).state = .exec then some { s with failed := true }
      else if (s.fibers f).stack = .left then
        -- `MainFunc` goes on behind its last `swapOut`
        some { s.setFiber f { s.fibers f with state := .exec } with failed := true }
      else
        some { s.setFiber f { s.fibers f with state := .exec, stack := .entered } with
          pc := .running f role }
  | .running f role =>
      if s.mayAct f act then
        match act with
        | .yieldToReady =>
            some { s.setFiber f { s.fibers f with state := .ready } with pc := .back f role }
        | .yieldToHold =>
            some { s.setFiber f { s.fibers f with state := .hold } with pc := .back f role }
        | .swapOut => some { s with pc := .back f role }
        | .finish =>
            some { s.setFiber f { s.fibers f with state := .term, hasCb := false, stack := .left } with
              pc := .back f role }
        | .throwException =>
            some { s.setFiber f { s.fibers f with state := .except, stack := .left } with
              pc := .back f role }
      else none
  | .back f .taken =>
      if (s.fibers f).state = .ready then
        some { s with queue := s.queue ++ [⟨.fiber f, none⟩], pc := .scan }
      else if (s.fibers f).state.Ended then some { s with pc := .scan }
      else some { s.setFiber f { s.fibers f with state := .hold } with pc := .scan }
  | .back f .cb =>
      if (s.fibers f).state = .ready then
        some { s with queue := s.queue ++ [⟨.fiber f, none⟩], pc := .scan, cbFiber := none }
      else if (s.fibers f).state.Ended then some { s with pc := .resetNull f }
      else
        some { s.setFiber f { s.fibers f with state := .hold } with pc := .scan, cbFiber := none }
  | .back f .idle =>
      if (s.fibers f).state.Ended then some { s with pc := .scan }
      else some { s.setFiber f { s.fibers f with state := .hold } with pc := .scan }
  | .resetNull f =>
      if (s.fibers f).state.Ended ∨ (s.fibers f).state = .init then
        some { s.setFiber f { s.fibers f with state := .init, hasCb := false, stack := .fresh } with
          pc := .scan }
      else some { s with failed := true }
  | .exited => none

end State

/-- No fiber has been made. -/
def init : State where
  pc := .start
  fibers := fun _ => .new .init false 0
  count := 0
  queue := []
  cbFiber := none
  idleFiber := none
  failed := false

/-- The step function. `~Fiber` and `reset` have one and the same assertion. -/
def step (s : State) (l : Label) : Option State :=
  if s.failed then none
  else
    match l with
    | .create garbage hasCb => some (s.create (.new garbage hasCb 1))
    | .acquire f =>
        if f < s.count ∧ s.Available f then
          some (s.setFiber f { s.fibers f with outside := (s.fibers f).outside + 1 })
        else none
    | .release f =>
        if f < s.count ∧ 0 < (s.fibers f).outside then
          some (s.setFiber f { s.fibers f with outside := (s.fibers f).outside - 1 })
        else none
    | .schedule ft =>
        match ft.task with
        | .fiber f =>
            if f < s.count ∧ s.Available f then some { s with queue := s.queue ++ [ft] } else none
        | .cb _ => some { s with queue := s.queue ++ [ft] }
    | .destroy f =>
        if f < s.count ∧ (s.fibers f).destroyed = false ∧ ¬ s.Referenced f then
          if (s.fibers f).state.Ended ∨ (s.fibers f).state = .init then
            some (s.setFiber f { s.fibers f with destroyed := true })
          else some { s with failed := true }
        else none
    | .move act garbage => s.move act garbage

/-- What the memory of `m_state` holds in the fiber that the step constructs. -/
def State.constructs (s : State) : Label → Option FiberState
  | .create garbage _ => some garbage
  | .move _ garbage =>
      match s.pc, s.cbFiber with
      | .start, _ => some garbage
      | .test (.cb _), none => some garbage
      | _, _ => none
  | _ => none

/-- Where a fiber is constructed, the memory happens to hold `INIT`. -/
def ConstructsInit (s : State) (l : Label) : Prop := ∀ st ∈ s.constructs l, st = .init

instance (s : State) (l : Label) : Decidable (ConstructsInit s l) :=
  inferInstanceAs (Decidable (∀ st ∈ s.constructs l, st = .init))

/-- The life cycle of a fiber. -/
def goes : FiberState → FiberState → Bool
  | .init, .exec | .ready, .exec | .hold, .exec => true
  | .exec, .ready | .exec, .hold | .exec, .term | .exec, .except => true
  | .term, .init | .except, .init => true
  | _, _ => false

/-- Between the two states every fiber keeps to its life cycle, which begins with `INIT` and comes
back to it by `reset`, no assertion fails, and no fiber is switched into that has ended. -/
structure Follows (s t : State) : Prop where
  each : ∀ f < s.count, (t.fibers f).state = (s.fibers f).state ∨
    goes (s.fibers f).state (t.fibers f).state
  reset : ∀ f < s.count, (t.fibers f).state = .init →
    (s.fibers f).state = .init ∨ s.pc = .reset f ∨ s.pc = .resetNull f
  fresh : ∀ f, s.count ≤ f → f < t.count → (t.fibers f).state = .init
  holds : t.failed = false
  switched : ∀ f role, s.pc = .swapIn f role → ¬ (s.fibers f).state.Ended

/-- The step keeps to the life cycle. -/
def FollowsLifeCycle (s : State) (l : Label) : Prop := ∀ t, step s l = some t → Follows s t

/-- What the state says of the stack, and that a fiber without callback never yields. -/
structure Fiber.Fits (x : Fiber) : Prop where
  fresh : x.stack = .fresh → x.state = .init
  entered : x.stack = .entered → x.state = .exec ∨ x.state = .ready ∨ x.state = .hold
  left : x.stack = .left → x.state.Ended
  noCb : x.hasCb = false → x.state ≠ .ready ∧ x.state ≠ .hold

/-- The fiber whose callback the worker is in or has just been in. -/
def Pc.executing : Pc → Option Nat
  | .running f _ | .back f _ => some f
  | _ => none

/-- The fiber that runs a callback of the queue as `cb_fiber`. -/
def Pc.serves : Pc → Option Nat
  | .reset f | .resetNull f | .swapIn f .cb | .running f .cb | .back f .cb => some f
  | _ => none

/-- What is run as `idle_fiber` is the `idle_fiber`, which is never the `cb_fiber`. -/
def State.Plays (s : State) (f : Nat) (role : Role) : Prop :=
  (role = .idle → s.idleFiber = some f) ∧ (role = .cb → s.idleFiber ≠ some f)

/-- What the worker relies on where it is. -/
def State.Place (s : State) : Prop :=
  match s.pc with
  | .test (.fiber f) => f < s.count
  | .reset f | .resetNull f =>
      f < s.count ∧ s.idleFiber ≠ some f ∧
        ((s.fibers f).state.Ended ∨ (s.fibers f).state = .init)
  | .swapIn f role =>
      f < s.count ∧ s.Plays f role ∧ (s.fibers f).state ≠ .exec ∧ ¬ (s.fibers f).state.Ended
  | .running f role =>
      f < s.count ∧ s.Plays f role ∧ (s.fibers f).state = .exec
  | .back f role =>
      f < s.count ∧ s.Plays f role ∧ (s.fibers f).state ≠ .init ∧
        ((s.fibers f).hasCb = false → (s.fibers f).state.Ended)
  | _ => True

/-- Between two callbacks the `cb_fiber` has ended, or has no callback: then whoever still refers to
it can make the worker switch into it, but it ends at once. -/
def Fiber.Spent (x : Fiber) : Prop := x.state.Ended ∨ x.hasCb = false

/-- The `idle_fiber` never throws or yields to `READY`, and has its callback until it ends. -/
structure Fiber.Idles (x : Fiber) : Prop where
  not_except : x.state ≠ .except
  not_ready : x.state ≠ .ready
  hasCb : x.state = .term ∨ x.hasCb = true

/-- The invariant of `run`. -/
structure Inv (s : State) : Prop where
  fits : ∀ f < s.count, (s.fibers f).Fits
  exec : ∀ f < s.count, (s.fibers f).state = .exec → s.pc.executing = some f
  place : s.Place
  cbFiber : ∀ f, s.cbFiber = some f → f < s.count ∧ s.idleFiber ≠ some f ∧
    (s.pc.serves = some f ∨ (s.fibers f).Spent)
  idleFiber : ∀ f, s.idleFiber = some f → f < s.count ∧ (s.fibers f).Idles
  queue : ∀ ft ∈ s.queue, ∀ f, ft.task = .fiber f → f < s.count
  failed : s.failed = false

theorem inv_init : Inv init where
  fits := fun f hf => absurd hf (Nat.not_lt_zero f)
  exec := fun f hf => absurd hf (Nat.not_lt_zero f)
  place := trivial
  cbFiber := fun f hf => by cases hf
  idleFiber := fun f hf => by cases hf
  queue := fun ft hft => absurd hft List.not_mem_nil
  failed := rfl

variable {s : State}

theorem setFiber_same (f : Nat) (x : Fiber) : (s.setFiber f x).fibers f = x :=
  Function.update_self ..

theorem setFiber_ne {f g : Nat} (h : g ≠ f) (x : Fiber) :
    (s.setFiber f x).fibers g = s.fibers g :=
  Function.update_of_ne h ..

theorem create_same (x : Fiber) : (s.create x).fibers s.count = x :=
  Function.update_self ..

theorem create_ne {g : Nat} (h : g ≠ s.count) (x : Fiber) :
    (s.create x).fibers g = s.fibers g :=
  Function.update_of_ne h ..

theorem fits_new (hasCb : Bool) (outside : Nat) : (Fiber.new .init hasCb outside).Fits :=
  ⟨fun _ => rfl, nofun, nofun, fun _ => ⟨nofun, nofun⟩⟩

/-- The worker goes on without a fiber's state changing. -/
theorem Inv.goto (h : Inv s) {pc : Pc} {queue : List FiberAndThread} {cb idle : Option Nat}
    (hexec : ∀ f < s.count, (s.fibers f).state = .exec → pc.executing = some f)
    (hplace : State.Place { s with pc := pc, queue := queue, cbFiber := cb, idleFiber := idle })
    (hcb : ∀ f, cb = some f → s.cbFiber = some f ∧ (pc.serves = some f ∨ (s.fibers f).Spent))
    (hidle : ∀ f, idle = some f → s.idleFiber = some f)
    (hqueue : ∀ ft ∈ queue, ∀ f, ft.task = .fiber f → f < s.count) :
    Inv { s with pc := pc, queue := queue, cbFiber := cb, idleFiber := idle } where
  fits := h.fits
  exec := hexec
  place := hplace
  cbFiber := by
    intro f hf
    obtain ⟨hold, hserves⟩ := hcb f hf
    obtain ⟨hlt, hne, -⟩ := h.cbFiber f hold
    exact ⟨hlt, fun heq => hne (hidle f heq), hserves⟩
  idleFiber := fun f hf => h.idleFiber f (hidle f hf)
  queue := hqueue
  failed := h.failed

/-- What the worker relies on is not touched by steps of others. -/
theorem State.Place.congr {t : State} (h : s.Place) (hpc : t.pc = s.pc) (hcount : s.count ≤ t.count)
    (hidle : t.idleFiber = s.idleFiber)
    (hsame : ∀ f < s.count, (t.fibers f).state = (s.fibers f).state ∧
      (t.fibers f).hasCb = (s.fibers f).hasCb) : t.Place := by
  have hplays : t.Plays = s.Plays := by
    funext f role
    rw [State.Plays, State.Plays, hidle]
  rw [State.Place] at h ⊢
  rw [hpc, hidle, hplays]
  cases hs : s.pc with
  | test task =>
      rw [hs] at h
      cases task with
      | fiber f => exact Nat.lt_of_lt_of_le h hcount
      | cb id => trivial
  | reset f | resetNull f =>
      rw [hs] at h
      simp only [(hsame f h.1).1]
      exact ⟨Nat.lt_of_lt_of_le h.1 hcount, h.2⟩
  | swapIn f role | running f role =>
      rw [hs] at h
      simp only [(hsame f h.1).1]
      exact ⟨Nat.lt_of_lt_of_le h.1 hcount, h.2⟩
  | back f role =>
      rw [hs] at h
      simp only [(hsame f h.1).1, (hsame f h.1).2]
      exact ⟨Nat.lt_of_lt_of_le h.1 hcount, h.2⟩
  | start | scan | idleTest | exited => trivial

theorem Inv.not_ended (h : Inv s) {f : Nat} {role : Role} (hpc : s.pc = .swapIn f role) :
    ¬ (s.fibers f).state.Ended := by
  have hplace := h.place
  rw [State.Place, hpc] at hplace
  exact hplace.2.2.2

/-- A step that changes no fiber. -/
theorem Inv.follows_same (h : Inv s) {t : State} (hfibers : t.fibers = s.fibers)
    (hcount : t.count = s.count) (hfailed : t.failed = s.failed) : Follows s t where
  each := fun f _ => Or.inl (by rw [hfibers])
  reset := fun f _ hinit => Or.inl (by rw [← hfibers]; exact hinit)
  fresh := fun f hle hlt => by omega
  holds := hfailed.trans h.failed
  switched := fun _ _ hpc => h.not_ended hpc

/-- A step that changes one fiber. -/
theorem Inv.follows_set (h : Inv s) {f : Nat} {x : Fiber} {t : State}
    (hfibers : t.fibers = Function.update s.fibers f x) (hcount : t.count = s.count)
    (hfailed : t.failed = s.failed)
    (heach : x.state = (s.fibers f).state ∨ goes (s.fibers f).state x.state)
    (hreset : x.state = .init → (s.fibers f).state = .init ∨ s.pc = .reset f ∨ s.pc = .resetNull f) :
    Follows s t where
  each := by
    intro g _
    rw [hfibers]
    by_cases heq : g = f
    · subst heq
      rw [Function.update_self]
      exact heach
    · rw [Function.update_of_ne heq]
      exact Or.inl rfl
  reset := by
    intro g _
    rw [hfibers]
    by_cases heq : g = f
    · subst heq
      rw [Function.update_self]
      exact hreset
    · rw [Function.update_of_ne heq]
      exact Or.inl
  fresh := fun g hle hlt => by omega
  holds := hfailed.trans h.failed
  switched := fun _ _ hpc => h.not_ended hpc

/-- The worker goes on, and the one fiber that it is about changes its state. -/
theorem Inv.set (h : Inv s) {f : Nat} {x : Fiber} {pc : Pc} {cb : Option Nat} (hf : f < s.count)
    (hexecuting : ∀ g, s.pc.executing = some g → g = f)
    (hserves : ∀ g, s.pc.serves = some g → g = f) (hfits : x.Fits)
    (hexec : x.state = .exec → pc.executing = some f)
    (hplace : State.Place { s.setFiber f x with pc := pc, cbFiber := cb })
    (hcb : ∀ g, cb = some g → s.cbFiber = some g ∧ (g = f → pc.serves = some f ∨ x.Spent))
    (hidle : s.idleFiber = some f → x.Idles)
    (heach : x.state = (s.fibers f).state ∨ goes (s.fibers f).state x.state)
    (hreset : x.state = .init → (s.fibers f).state = .init ∨ s.pc = .reset f ∨ s.pc = .resetNull f) :
    Inv { s.setFiber f x with pc := pc, cbFiber := cb } ∧
      Follows s { s.setFiber f x with pc := pc, cbFiber := cb } := by
  refine ⟨⟨?_, ?_, hplace, ?_, ?_, h.queue, h.failed⟩, h.follows_set rfl rfl rfl heach hreset⟩
  · intro g hg
    by_cases heq : g = f
    · subst heq
      exact (setFiber_same g x).symm ▸ hfits
    · exact (setFiber_ne heq x).symm ▸ h.fits g hg
  · intro g hg hstate
    by_cases heq : g = f
    · subst heq
      rw [setFiber_same] at hstate
      exact hexec hstate
    · rw [setFiber_ne heq] at hstate
      exact absurd (hexecuting g (h.exec g hg hstate)) heq
  · intro g hg
    obtain ⟨hold, hspent⟩ := hcb g hg
    obtain ⟨hlt, hne, hother⟩ := h.cbFiber g hold
    refine ⟨hlt, hne, ?_⟩
    by_cases heq : g = f
    · subst heq
      rw [setFiber_same]
      exact hspent rfl
    · rw [setFiber_ne heq]
      exact Or.inr (hother.resolve_left fun hserve => heq (hserves g hserve))
  · intro g hg
    obtain ⟨hlt, hstate⟩ := h.idleFiber g hg
    refine ⟨hlt, ?_⟩
    by_cases heq : g = f
    · subst heq
      rw [setFiber_same]
      exact hidle hg
    · rw [setFiber_ne heq]
      exact hstate

/-- Counting references changes nothing that the worker looks at. -/
theorem Inv.setCounts (h : Inv s) (f outside : Nat) (destroyed : Bool) :
    let x := { s.fibers f with outside := outside, destroyed := destroyed }
    Inv (s.setFiber f x) ∧ Follows s (s.setFiber f x) := by
  intro x
  have hsame : ∀ g, ((s.setFiber f x).fibers g).state = (s.fibers g).state ∧
      ((s.setFiber f x).fibers g).hasCb = (s.fibers g).hasCb ∧
      ((s.setFiber f x).fibers g).stack = (s.fibers g).stack := by
    intro g
    by_cases heq : g = f
    · subst heq
      rw [setFiber_same]
      exact ⟨rfl, rfl, rfl⟩
    · rw [setFiber_ne heq]
      exact ⟨rfl, rfl, rfl⟩
  refine ⟨⟨?_, ?_, ?_, ?_, ?_, h.queue, h.failed⟩, ?_⟩
  · intro g hg
    obtain ⟨hstate, hcb, hstack⟩ := hsame g
    have hfits := h.fits g hg
    refine ⟨?_, ?_, ?_, ?_⟩
    · rw [hstate, hstack]
      exact hfits.fresh
    · rw [hstate, hstack]
      exact hfits.entered
    · rw [hstate, hstack]
      exact hfits.left
    · rw [hstate, hcb]
      exact hfits.noCb
  · intro g hg
    rw [(hsame g).1]
    exact h.exec g hg
  · exact h.place.congr rfl (Nat.le_refl _) rfl fun g _ => ⟨(hsame g).1, (hsame g).2.1⟩
  · intro g hg
    have hcb := h.cbFiber g hg
    rw [Fiber.Spent] at hcb ⊢
    rw [(hsame g).1, (hsame g).2.1]
    exact hcb
  · intro g hg
    obtain ⟨hlt, hidle⟩ := h.idleFiber g hg
    obtain ⟨hstate, hcb, -⟩ := hsame g
    refine ⟨hlt, ?_, ?_, ?_⟩
    · rw [hstate]
      exact hidle.not_except
    · rw [hstate]
      exact hidle.not_ready
    · rw [hstate, hcb]
      exact hidle.hasCb
  · refine h.follows_set rfl rfl rfl (Or.inl rfl) fun hinit => Or.inl hinit

/-- A new fiber changes nothing for the others. -/
theorem Inv.create (h : Inv s) (hasCb : Bool) (outside : Nat) :
    Inv (s.create (.new .init hasCb outside)) ∧
      Follows s (s.create (.new .init hasCb outside)) := by
  have hold : ∀ f < s.count, (s.create (.new .init hasCb outside)).fibers f = s.fibers f :=
    fun f hf => create_ne (Nat.ne_of_lt hf) _
  have hcases : ∀ f < s.count + 1, f < s.count ∨ f = s.count := fun f hf => by omega
  refine ⟨⟨?_, ?_, ?_, ?_, ?_, ?_, h.failed⟩, ⟨?_, ?_, ?_, h.failed, ?_⟩⟩
  · intro f hf
    rcases hcases f hf with hlt | rfl
    · rw [hold f hlt]
      exact h.fits f hlt
    · rw [create_same]
      exact fits_new hasCb outside
  · intro f hf
    rcases hcases f hf with hlt | rfl
    · rw [hold f hlt]
      exact h.exec f hlt
    · rw [create_same]
      nofun
  · exact h.place.congr rfl (Nat.le_succ _) rfl fun f hf => by rw [hold f hf]; exact ⟨rfl, rfl⟩
  · intro f hf
    obtain ⟨hlt, hcb⟩ := h.cbFiber f hf
    rw [hold f hlt]
    exact ⟨Nat.lt_succ_of_lt hlt, hcb⟩
  · intro f hf
    obtain ⟨hlt, hidle⟩ := h.idleFiber f hf
    rw [hold f hlt]
    exact ⟨Nat.lt_succ_of_lt hlt, hidle⟩
  · exact fun ft hft f htask => Nat.lt_succ_of_lt (h.queue ft hft f htask)
  · exact fun f hf => Or.inl (by rw [hold f hf])
  · exact fun f hf hinit => Or.inl (by rw [← hold f hf]; exact hinit)
  · intro f hle hlt
    rcases hcases f hlt with hlt' | rfl
    · omega
    · rw [create_same]
      rfl
  · exact fun f role hpc => h.not_ended hpc

theorem inv_queue (h : Inv s) (ft : FiberAndThread) (hft : ∀ f, ft.task = .fiber f → f < s.count) :
    ∀ x ∈ s.queue ++ [ft], ∀ f, x.task = .fiber f → f < s.count := by
  intro x hx
  rcases List.mem_append.mp hx with hmem | hmem
  · exact h.queue x hmem
  · obtain rfl := List.mem_singleton.mp hmem
    exact hft

/-- A fiber that nothing refers to is not in its callback, so `~Fiber` finds it ended or new. -/
theorem Inv.destroyable (h : Inv s) {f : Nat} (hf : f < s.count) (href : ¬ s.Referenced f) :
    (s.fibers f).state.Ended ∨ (s.fibers f).state = .init := by
  have hfits := h.fits f hf
  cases hstack : (s.fibers f).stack with
  | fresh => exact Or.inr (hfits.fresh hstack)
  | entered => exact absurd (Or.inr (Or.inl hstack)) href
  | left => exact Or.inl (hfits.left hstack)

section Moves

variable {t : State} {f : Nat} {role : Role}

/-- No fiber executes while the worker is elsewhere than in a callback or just behind one. -/
theorem Inv.none_exec (h : Inv s) (hpc : s.pc.executing = none) {f : Nat} (hf : f < s.count) :
    (s.fibers f).state ≠ .exec := by
  intro hexec
  have := h.exec f hf hexec
  rw [hpc] at this
  cases this

/-- The `cb_fiber` can be `reset` when the next callback is there. -/
theorem Inv.resettable (h : Inv s) (hcb : s.cbFiber = some f) (hexecuting : s.pc.executing = none)
    (hserves : s.pc.serves = none) :
    (s.fibers f).state.Ended ∨ (s.fibers f).state = .init := by
  obtain ⟨hlt, -, hspent⟩ := h.cbFiber f hcb
  have hfits := h.fits f hlt
  rw [hserves] at hspent
  rcases hspent.resolve_left nofun with hended | hnone
  · exact Or.inl hended
  obtain ⟨hready, hhold⟩ := hfits.noCb hnone
  cases hstack : (s.fibers f).stack with
  | fresh => exact Or.inr (hfits.fresh hstack)
  | left => exact Or.inl (hfits.left hstack)
  | entered =>
      rcases hfits.entered hstack with hexec | hstate | hstate
      · exact absurd hexec (h.none_exec hexecuting hlt)
      · exact absurd hstate hready
      · exact absurd hstate hhold

/-- The worker goes on outside the callbacks, with the queue as it is or shorter. -/
theorem Inv.pass (h : Inv s) (hexecuting : s.pc.executing = none) (hserves : s.pc.serves = none)
    {pc : Pc} {queue : List FiberAndThread} (hplace : State.Place { s with pc := pc, queue := queue })
    (hqueue : ∀ x ∈ queue, x ∈ s.queue) :
    Inv { s with pc := pc, queue := queue } ∧ Follows s { s with pc := pc, queue := queue } := by
  refine ⟨?_, h.follows_same rfl rfl rfl⟩
  apply h.goto
  · exact fun f hf hexec => absurd hexec (h.none_exec hexecuting hf)
  · exact hplace
  · intro f hf
    obtain ⟨-, -, hspent⟩ := h.cbFiber f hf
    rw [hserves] at hspent
    exact ⟨hf, Or.inr (hspent.resolve_left nofun)⟩
  · exact fun f hf => hf
  · exact fun x hx => h.queue x (hqueue x hx)

/-- The worker constructs a fiber of its own. -/
theorem Inv.construct (h : Inv s) (hexecuting : s.pc.executing = none) (hserves : s.pc.serves = none)
    {pc : Pc} {cb idle : Option Nat}
    (hplace : State.Place { s.create (.new .init true 0) with
      pc := pc, cbFiber := cb, idleFiber := idle })
    (hcb : ∀ f, cb = some f → s.cbFiber = some f ∨ f = s.count ∧ pc.serves = some f)
    (hidle : ∀ f, idle = some f → s.idleFiber = some f ∨ f = s.count)
    (hne : ∀ f, cb = some f → idle ≠ some f) :
    let t := { s.create (.new .init true 0) with pc := pc, cbFiber := cb, idleFiber := idle }
    Inv t ∧ Follows s t := by
  obtain ⟨hinv, hfollows⟩ := h.create true 0
  refine ⟨⟨hinv.fits, ?_, hplace, ?_, ?_, hinv.queue, h.failed⟩, ?_⟩
  · intro f hf hexec
    exact absurd hexec (hinv.none_exec hexecuting hf)
  · intro f hf
    rcases hcb f hf with hold | ⟨rfl, hserve⟩
    · obtain ⟨hlt, -, hspent⟩ := hinv.cbFiber f hold
      change s.pc.serves = some f ∨ _ at hspent
      rw [hserves] at hspent
      exact ⟨hlt, hne f hf, Or.inr (hspent.resolve_left nofun)⟩
    · exact ⟨Nat.lt_succ_self _, hne _ hf, Or.inl hserve⟩
  · intro f hf
    rcases hidle f hf with hold | rfl
    · exact hinv.idleFiber f hold
    · refine ⟨Nat.lt_succ_self _, ?_⟩
      change ((s.create (.new .init true 0)).fibers s.count).Idles
      rw [create_same]
      exact ⟨nofun, nofun, Or.inr rfl⟩
  · exact ⟨hfollows.each, hfollows.reset, hfollows.fresh, h.failed, hfollows.switched⟩

theorem Inv.move_start (h : Inv s) (hpc : s.pc = .start) {act : Action} {garbage : FiberState}
    (hC : ConstructsInit s (.move act garbage)) (hmove : s.move act garbage = some t) :
    Inv t ∧ Follows s t := by
  obtain rfl : garbage = .init := hC garbage (by rw [State.constructs, hpc]; rfl)
  rw [State.move, hpc] at hmove
  cases hmove
  apply h.construct
  · rw [hpc]
    rfl
  · rw [hpc]
    rfl
  · trivial
  · exact fun f hf => Or.inl hf
  · intro f hf
    exact Or.inr (Option.some.inj hf).symm
  · intro f hf heq
    obtain ⟨hlt, -⟩ := h.cbFiber f hf
    obtain rfl := Option.some.inj heq
    exact Nat.lt_irrefl _ hlt

theorem Inv.move_scan (h : Inv s) (hpc : s.pc = .scan) {act : Action} {garbage : FiberState}
    (hmove : s.move act garbage = some t) : Inv t ∧ Follows s t := by
  have hexecuting : s.pc.executing = none := by rw [hpc]; rfl
  have hserves : s.pc.serves = none := by rw [hpc]; rfl
  rw [State.move, hpc] at hmove
  dsimp only at hmove
  split at hmove
  · rename_i task rest hscan
    cases hmove
    obtain ⟨pre, ft, post, hqueue, hrest, htask, -⟩ := Workers.scan_some (Prod.ext hscan rfl)
    apply h.pass hexecuting hserves
    · cases task with
      | cb id => trivial
      | fiber f => exact h.queue ft (by simp [hqueue]) f htask
    · intro x hx
      rw [hrest] at hx
      rw [hqueue]
      rcases List.mem_append.mp hx with hx | hx
      · exact List.mem_append_left _ hx
      · exact List.mem_append_right _ (List.mem_cons_of_mem _ hx)
  · cases hmove
    exact h.pass hexecuting hserves trivial fun x hx => hx

theorem Inv.move_test (h : Inv s) {task : Task} (hpc : s.pc = .test task) {act : Action}
    {garbage : FiberState} (hC : ConstructsInit s (.move act garbage))
    (hmove : s.move act garbage = some t) : Inv t ∧ Follows s t := by
  have hexecuting : s.pc.executing = none := by rw [hpc]; rfl
  have hserves : s.pc.serves = none := by rw [hpc]; rfl
  have hplace := h.place
  rw [State.Place, hpc] at hplace
  rw [State.move, hpc] at hmove
  cases task with
  | fiber f =>
      dsimp only at hmove hplace
      cases hmove
      apply h.pass hexecuting hserves
      · split
        · trivial
        · exact ⟨hplace, ⟨nofun, nofun⟩, h.none_exec hexecuting hplace, by assumption⟩
      · exact fun x hx => hx
  | cb id =>
      dsimp only at hmove
      split at hmove
      · rename_i f hcb
        cases hmove
        apply h.pass hexecuting hserves
        · obtain ⟨hlt, hne, -⟩ := h.cbFiber f hcb
          exact ⟨hlt, hne, h.resettable hcb hexecuting hserves⟩
        · exact fun x hx => hx
      · rename_i hcb
        obtain rfl : garbage = .init := hC garbage (by rw [State.constructs, hpc, hcb]; rfl)
        cases hmove
        apply h.construct hexecuting hserves
        · refine ⟨Nat.lt_succ_self _, ⟨nofun, fun _ hidle => ?_⟩, ?_, ?_⟩
          · exact Nat.lt_irrefl _ (h.idleFiber _ hidle).1
          · rw [create_same]
            nofun
          · rw [create_same]
            exact of_decide_eq_false rfl
        · intro f hf
          obtain rfl := Option.some.inj hf
          exact Or.inr ⟨rfl, rfl⟩
        · exact fun f hf => Or.inl hf
        · intro f hf heq
          obtain rfl := Option.some.inj hf
          exact Nat.lt_irrefl _ (h.idleFiber _ heq).1

theorem Inv.move_idleTest (h : Inv s) (hpc : s.pc = .idleTest) {act : Action} {garbage : FiberState}
    (hmove : s.move act garbage = some t) : Inv t ∧ Follows s t := by
  have hexecuting : s.pc.executing = none := by rw [hpc]; rfl
  have hserves : s.pc.serves = none := by rw [hpc]; rfl
  rw [State.move, hpc] at hmove
  dsimp only at hmove
  split at hmove
  · cases hmove
  · rename_i f hidle
    obtain ⟨hlt, hidles⟩ := h.idleFiber f hidle
    split at hmove
    · cases hmove
      refine ⟨?_, h.follows_same rfl rfl rfl⟩
      exact h.goto (fun f hf hexec => absurd hexec (h.none_exec hexecuting hf)) trivial nofun nofun
        h.queue
    · rename_i hterm
      cases hmove
      apply h.pass hexecuting hserves
      · exact ⟨hlt, ⟨fun _ => hidle, nofun⟩, h.none_exec hexecuting hlt,
          fun hended => hended.elim hterm hidles.not_except⟩
      · exact fun x hx => hx

/-- Both calls of `reset`. -/
theorem Inv.reset (h : Inv s) (hf : f < s.count) (hne : s.idleFiber ≠ some f)
    (hstate : (s.fibers f).state.Ended ∨ (s.fibers f).state = .init)
    (hpc : s.pc = .reset f ∨ s.pc = .resetNull f) (hasCb : Bool) {pc : Pc}
    (hplace : State.Place { s.setFiber f { s.fibers f with
      state := .init, hasCb := hasCb, stack := .fresh } with pc := pc })
    (hcb : pc.serves = some f ∨ hasCb = false) :
    let t := { s.setFiber f { s.fibers f with
      state := .init, hasCb := hasCb, stack := .fresh } with pc := pc }
    Inv t ∧ Follows s t := by
  have hexecuting : s.pc.executing = none := by
    rcases hpc with hpc | hpc <;> rw [hpc] <;> rfl
  have hserves : s.pc.serves = some f := by
    rcases hpc with hpc | hpc <;> rw [hpc] <;> rfl
  apply h.set hf
  · rw [hexecuting]
    nofun
  · rw [hserves]
    exact fun g hg => (Option.some.inj hg).symm
  · exact ⟨fun _ => rfl, nofun, nofun, fun _ => ⟨nofun, nofun⟩⟩
  · nofun
  · exact hplace
  · exact fun g hg => ⟨hg, fun _ => hcb.imp_right Or.inr⟩
  · exact fun hidle => absurd hidle hne
  · rcases hstate with (hterm | hexcept) | hinit
    · rw [hterm]
      exact Or.inr rfl
    · rw [hexcept]
      exact Or.inr rfl
    · exact Or.inl hinit.symm
  · exact fun _ => Or.inr hpc

theorem Inv.move_reset (h : Inv s) (hpc : s.pc = .reset f) {act : Action} {garbage : FiberState}
    (hmove : s.move act garbage = some t) : Inv t ∧ Follows s t := by
  have hplace := h.place
  rw [State.Place, hpc] at hplace
  obtain ⟨hf, hne, hstate⟩ := hplace
  rw [State.move, hpc] at hmove
  dsimp only at hmove
  rw [if_pos hstate] at hmove
  cases hmove
  apply h.reset hf hne hstate (Or.inl hpc)
  · refine ⟨hf, ⟨nofun, fun _ => hne⟩, ?_, ?_⟩
    · rw [setFiber_same]
      nofun
    · rw [setFiber_same]
      exact of_decide_eq_false rfl
  · exact Or.inl rfl

theorem Inv.move_resetNull (h : Inv s) (hpc : s.pc = .resetNull f) {act : Action}
    {garbage : FiberState} (hmove : s.move act garbage = some t) : Inv t ∧ Follows s t := by
  have hplace := h.place
  rw [State.Place, hpc] at hplace
  obtain ⟨hf, hne, hstate⟩ := hplace
  rw [State.move, hpc] at hmove
  dsimp only at hmove
  rw [if_pos hstate] at hmove
  cases hmove
  exact h.reset hf hne hstate (Or.inr hpc) false trivial (Or.inr rfl)

theorem Inv.move_swapIn (h : Inv s) (hpc : s.pc = .swapIn f role) {act : Action}
    {garbage : FiberState} (hmove : s.move act garbage = some t) : Inv t ∧ Follows s t := by
  have hplace := h.place
  rw [State.Place, hpc] at hplace
  obtain ⟨hf, hplays, hexec, hended⟩ := hplace
  have hfits := h.fits f hf
  rw [State.move, hpc] at hmove
  dsimp only at hmove
  rw [if_neg hexec, if_neg fun hleft => hended (hfits.left hleft)] at hmove
  cases hmove
  apply h.set hf
  · rw [hpc]
    nofun
  · intro g hg
    rw [hpc] at hg
    cases role with
    | cb => exact (Option.some.inj hg).symm
    | taken | idle => cases hg
  · exact ⟨nofun, fun _ => Or.inl rfl, nofun, fun _ => ⟨nofun, nofun⟩⟩
  · exact fun _ => rfl
  · refine ⟨hf, hplays, ?_⟩
    rw [setFiber_same]
  · intro g hg
    refine ⟨hg, ?_⟩
    rintro rfl
    obtain ⟨-, -, hspent⟩ := h.cbFiber g hg
    rw [hpc] at hspent
    cases role with
    | cb => exact Or.inl rfl
    | taken | idle => exact Or.inr (Or.inr ((hspent.resolve_left nofun).resolve_left hended))
  · intro hidle
    obtain ⟨-, hidles⟩ := h.idleFiber f hidle
    exact ⟨nofun, nofun, Or.inr (hidles.hasCb.resolve_left fun hterm => hended (Or.inl hterm))⟩
  · cases hstack : (s.fibers f).stack with
    | fresh =>
        rw [hfits.fresh hstack]
        exact Or.inr rfl
    | entered =>
        rcases hfits.entered hstack with hstate | hstate | hstate
        · exact absurd hstate hexec
        · rw [hstate]
          exact Or.inr rfl
        · rw [hstate]
          exact Or.inr rfl
    | left => exact absurd (hfits.left hstack) hended
  · nofun

/-- The end of a callback, or a yield with an assignment to `m_state`. -/
theorem Inv.leave (h : Inv s) (hpc : s.pc = .running f role) {x : Fiber} (hfits : x.Fits)
    (hinit : x.state ≠ .init) (hgoes : goes .exec x.state)
    (hnoCb : x.hasCb = false → x.state.Ended) (hkept : x.hasCb = true → (s.fibers f).hasCb = true)
    (hidle : s.idleFiber = some f → x.Idles) :
    let t := { s.setFiber f x with pc := .back f role }
    Inv t ∧ Follows s t := by
  have hplace := h.place
  rw [State.Place, hpc] at hplace
  obtain ⟨hf, hplays, hstate⟩ := hplace
  apply h.set hf
  · rw [hpc]
    exact fun g hg => (Option.some.inj hg).symm
  · intro g hg
    rw [hpc] at hg
    cases role with
    | cb => exact (Option.some.inj hg).symm
    | taken | idle => cases hg
  · exact hfits
  · exact fun _ => rfl
  · refine ⟨hf, hplays, ?_, ?_⟩
    · rw [setFiber_same]
      exact hinit
    · rw [setFiber_same]
      exact hnoCb
  · intro g hg
    refine ⟨hg, ?_⟩
    rintro rfl
    obtain ⟨-, -, hspent⟩ := h.cbFiber g hg
    rw [hpc, Fiber.Spent, hstate] at hspent
    cases role with
    | cb => exact Or.inl rfl
    | taken | idle =>
        have hnone : (s.fibers g).hasCb = false :=
          (hspent.resolve_left nofun).resolve_left (of_decide_eq_false rfl)
        refine Or.inr (Or.inr (Bool.eq_false_iff.mpr fun hcb => ?_))
        exact absurd (hkept hcb) (Bool.eq_false_iff.mp hnone)
  · exact hidle
  · rw [hstate]
    exact Or.inr hgoes
  · exact fun heq => absurd heq hinit

theorem Fiber.Fits.entered_of_exec {x : Fiber} (h : x.Fits) (hexec : x.state = .exec) :
    x.stack = .entered := by
  cases hstack : x.stack with
  | fresh =>
      rw [h.fresh hstack] at hexec
      cases hexec
  | entered => rfl
  | left =>
      have hended := h.left hstack
      rw [hexec] at hended
      exact absurd hended (of_decide_eq_false rfl)

theorem Inv.move_running (h : Inv s) (hpc : s.pc = .running f role) {act : Action}
    {garbage : FiberState} (hmove : s.move act garbage = some t) : Inv t ∧ Follows s t := by
  have hplace := h.place
  rw [State.Place, hpc] at hplace
  obtain ⟨hf, hplays, hexec⟩ := hplace
  have hstack := (h.fits f hf).entered_of_exec hexec
  rw [State.move, hpc] at hmove
  dsimp only at hmove
  split at hmove
  swap
  · cases hmove
  rename_i hact
  -- a fiber without callback throws, and the idle fiber has one
  have hcb : act ≠ .throwException → (s.fibers f).hasCb = true := by
    intro hne
    rw [State.mayAct] at hact
    split at hact
    · rename_i hidle
      refine (h.idleFiber f hidle).2.hasCb.resolve_left ?_
      rw [hexec]
      nofun
    · simpa [hne] using hact
  cases act with
  | yieldToReady =>
      cases hmove
      have hhas := hcb nofun
      apply h.leave hpc
      · exact ⟨fun hs => absurd (hstack.symm.trans hs) nofun, fun _ => Or.inr (Or.inl rfl),
          fun hs => absurd (hstack.symm.trans hs) nofun, fun hno => absurd (hhas.symm.trans hno) nofun⟩
      · nofun
      · rfl
      · exact fun hno => absurd (hhas.symm.trans hno) nofun
      · exact id
      · intro hidle
        simp [State.mayAct, hidle] at hact
  | yieldToHold =>
      cases hmove
      have hhas := hcb nofun
      apply h.leave hpc
      · exact ⟨fun hs => absurd (hstack.symm.trans hs) nofun, fun _ => Or.inr (Or.inr rfl),
          fun hs => absurd (hstack.symm.trans hs) nofun, fun hno => absurd (hhas.symm.trans hno) nofun⟩
      · nofun
      · rfl
      · exact fun hno => absurd (hhas.symm.trans hno) nofun
      · exact id
      · exact fun _ => ⟨nofun, nofun, Or.inr hhas⟩
  | swapOut =>
      cases hmove
      have hhas := hcb nofun
      refine ⟨?_, h.follows_same rfl rfl rfl⟩
      apply h.goto
      · intro g hg hstate
        have hcur := h.exec g hg hstate
        rw [hpc] at hcur
        exact hcur
      · refine ⟨hf, hplays, ?_, fun hno => absurd (hhas.symm.trans hno) nofun⟩
        change (s.fibers f).state ≠ .init
        rw [hexec]
        nofun
      · intro g hg
        obtain ⟨-, -, hspent⟩ := h.cbFiber g hg
        rw [hpc] at hspent
        refine ⟨hg, ?_⟩
        cases role with
        | cb | taken | idle => exact hspent
      · exact fun g hg => hg
      · exact h.queue
  | finish =>
      cases hmove
      apply h.leave hpc
      · exact ⟨nofun, nofun, fun _ => Or.inl rfl, fun _ => ⟨nofun, nofun⟩⟩
      · nofun
      · rfl
      · exact fun _ => Or.inl rfl
      · nofun
      · exact fun _ => ⟨nofun, nofun, Or.inl rfl⟩
  | throwException =>
      cases hmove
      apply h.leave hpc
      · exact ⟨nofun, nofun, fun _ => Or.inr rfl, fun _ => ⟨nofun, nofun⟩⟩
      · nofun
      · rfl
      · exact fun _ => Or.inr rfl
      · exact id
      · intro hidle
        simp [State.mayAct, hidle] at hact

/-- The worker has seen how the fiber came back and leaves its state alone. -/
theorem Inv.settle (h : Inv s) (hpc : s.pc = .back f role) (hexec : (s.fibers f).state ≠ .exec)
    {pc : Pc} {queue : List FiberAndThread} {cb : Option Nat}
    (hplace : State.Place { s with pc := pc, queue := queue, cbFiber := cb })
    (hcb : cb = none ∨ cb = s.cbFiber ∧ (role = .cb → pc.serves = some f))
    (hqueue : ∀ ft ∈ queue, ∀ g, ft.task = .fiber g → g < s.count) :
    Inv { s with pc := pc, queue := queue, cbFiber := cb } ∧
      Follows s { s with pc := pc, queue := queue, cbFiber := cb } := by
  refine ⟨?_, h.follows_same rfl rfl rfl⟩
  apply h.goto
  · intro g hg hstate
    have hcur := h.exec g hg hstate
    rw [hpc] at hcur
    obtain rfl := Option.some.inj hcur
    exact absurd hstate hexec
  · exact hplace
  · intro g hg
    rcases hcb with hnone | ⟨hsame, hserves⟩
    · rw [hnone] at hg
      cases hg
    · rw [hsame] at hg
      obtain ⟨-, -, hspent⟩ := h.cbFiber g hg
      rw [hpc] at hspent
      refine ⟨hg, ?_⟩
      cases role with
      | cb => exact hspent.imp_left fun heq => (hserves rfl).trans heq
      | taken | idle => exact Or.inr (hspent.resolve_left nofun)
  · exact fun g hg => hg
  · exact hqueue

/-- A fiber that came back in `EXEC` or `HOLD` is put on hold. -/
theorem Inv.hold (h : Inv s) (hpc : s.pc = .back f role) (hready : (s.fibers f).state ≠ .ready)
    (hended : ¬ (s.fibers f).state.Ended) {cb : Option Nat}
    (hcb : cb = none ∨ cb = s.cbFiber ∧ role ≠ .cb) :
    let t := { s.setFiber f { s.fibers f with state := .hold } with pc := .scan, cbFiber := cb }
    Inv t ∧ Follows s t := by
  have hplace := h.place
  rw [State.Place, hpc] at hplace
  obtain ⟨hf, hplays, hinit, hnoCb⟩ := hplace
  have hfits := h.fits f hf
  have hhas : (s.fibers f).hasCb = true := by
    rw [← Bool.not_eq_false]
    exact fun hno => hended (hnoCb hno)
  apply h.set hf
  · rw [hpc]
    exact fun g hg => (Option.some.inj hg).symm
  · intro g hg
    rw [hpc] at hg
    cases role with
    | cb => exact (Option.some.inj hg).symm
    | taken | idle => cases hg
  · exact ⟨fun hs => absurd (hfits.fresh hs) hinit, fun _ => Or.inr (Or.inr rfl),
      fun hs => absurd (hfits.left hs) hended, fun hno => absurd (hhas.symm.trans hno) nofun⟩
  · nofun
  · trivial
  · intro g hg
    rcases hcb with hnone | ⟨hsame, hrole⟩
    · rw [hnone] at hg
      cases hg
    · rw [hsame] at hg
      obtain ⟨-, -, hspent⟩ := h.cbFiber g hg
      rw [hpc] at hspent
      refine ⟨hg, ?_⟩
      rintro rfl
      cases role with
      | cb => exact absurd rfl hrole
      | taken | idle =>
          rcases hspent.resolve_left nofun with hover | hno
          · exact absurd hover hended
          · exact absurd (hnoCb hno) hended
  · exact fun _ => ⟨nofun, nofun, Or.inr hhas⟩
  · cases hstate : (s.fibers f).state with
    | exec => exact Or.inr rfl
    | hold => exact Or.inl rfl
    | init => exact absurd hstate hinit
    | ready => exact absurd hstate hready
    | term => exact absurd (Or.inl hstate) hended
    | except => exact absurd (Or.inr hstate) hended
  · nofun

theorem Inv.move_back (h : Inv s) (hpc : s.pc = .back f role) {act : Action} {garbage : FiberState}
    (hmove : s.move act garbage = some t) : Inv t ∧ Follows s t := by
  have hplace := h.place
  rw [State.Place, hpc] at hplace
  obtain ⟨hf, hplays, hinit, -⟩ := hplace
  have hready : ∀ {st : FiberState}, st = .ready → st ≠ .exec := fun heq hexec => by
    rw [heq] at hexec
    cases hexec
  have hover : ∀ {st : FiberState}, st.Ended → st ≠ .exec := fun hended hexec => by
    rw [hexec] at hended
    exact absurd hended (of_decide_eq_false rfl)
  have hqueue := inv_queue h ⟨.fiber f, none⟩ fun g hg => Task.fiber.inj hg ▸ hf
  rw [State.move, hpc] at hmove
  cases role with
  | taken =>
      dsimp only at hmove
      split at hmove
      · rename_i hstate
        cases hmove
        exact h.settle hpc (hready hstate) trivial (Or.inr ⟨rfl, nofun⟩) hqueue
      · rename_i hstate
        split at hmove
        · rename_i hended
          cases hmove
          exact h.settle hpc (hover hended) trivial (Or.inr ⟨rfl, nofun⟩) h.queue
        · rename_i hended
          cases hmove
          exact h.hold hpc hstate hended (Or.inr ⟨rfl, nofun⟩)
  | cb =>
      dsimp only at hmove
      split at hmove
      · rename_i hstate
        cases hmove
        exact h.settle hpc (hready hstate) trivial (Or.inl rfl) hqueue
      · rename_i hstate
        split at hmove
        · rename_i hended
          cases hmove
          exact h.settle hpc (hover hended) ⟨hf, hplays.2 rfl, Or.inl hended⟩
            (Or.inr ⟨rfl, fun _ => rfl⟩) h.queue
        · rename_i hended
          cases hmove
          exact h.hold hpc hstate hended (Or.inl rfl)
  | idle =>
      dsimp only at hmove
      split at hmove
      · rename_i hended
        cases hmove
        exact h.settle hpc (hover hended) trivial (Or.inr ⟨rfl, nofun⟩) h.queue
      · rename_i hended
        cases hmove
        exact h.hold hpc (h.idleFiber f (hplays.1 rfl)).2.not_ready hended (Or.inr ⟨rfl, nofun⟩)

theorem Inv.move (h : Inv s) {act : Action} {garbage : FiberState}
    (hC : ConstructsInit s (.move act garbage)) (hmove : s.move act garbage = some t) :
    Inv t ∧ Follows s t := by
  cases hpc : s.pc with
  | start => exact h.move_start hpc hC hmove
  | scan => exact h.move_scan hpc hmove
  | test task => exact h.move_test hpc hC hmove
  | idleTest => exact h.move_idleTest hpc hmove
  | reset f => exact h.move_reset hpc hmove
  | swapIn f role => exact h.move_swapIn hpc hmove
  | running f role => exact h.move_running hpc hmove
  | back f role => exact h.move_back hpc hmove
  | resetNull f => exact h.move_resetNull hpc hmove
  | exited =>
      rw [State.move, hpc] at hmove
      cases hmove

/-- One step. -/
theorem Inv.next (h : Inv s) {l : Label} (hC : ConstructsInit s l) (hstep : step s l = some t) :
    Inv t ∧ Follows s t := by
  unfold step at hstep
  rw [if_neg (by rw [h.failed]; nofun)] at hstep
  cases l with
  | create garbage hasCb =>
      obtain rfl : garbage = .init := hC garbage rfl
      cases hstep
      exact h.create hasCb 1
  | acquire f =>
      dsimp only at hstep
      split at hstep
      · cases hstep
        exact h.setCounts f _ _
      · cases hstep
  | release f =>
      dsimp only at hstep
      split at hstep
      · cases hstep
        exact h.setCounts f _ _
      · cases hstep
  | schedule ft =>
      have hpush : (∀ f, ft.task = .fiber f → f < s.count) →
          Inv { s with queue := s.queue ++ [ft] } ∧
            Follows s { s with queue := s.queue ++ [ft] } := fun hft =>
        ⟨h.goto h.exec h.place (fun f hf => ⟨hf, (h.cbFiber f hf).2.2⟩) (fun _ hf => hf)
          (inv_queue h _ hft), h.follows_same rfl rfl rfl⟩
      dsimp only at hstep
      split at hstep
      · rename_i f htask
        split at hstep
        · rename_i hlt
          cases hstep
          exact hpush fun g hg => Task.fiber.inj (htask.symm.trans hg) ▸ hlt.1
        · cases hstep
      · rename_i id htask
        cases hstep
        exact hpush fun g hg => absurd (htask.symm.trans hg) nofun
  | destroy f =>
      dsimp only at hstep
      split at hstep
      · rename_i hdead
        rw [if_pos (h.destroyable hdead.1 hdead.2.2)] at hstep
        cases hstep
        exact h.setCounts f _ _
      · cases hstep
  | move act garbage => exact h.move hC hstep

end Moves

/-- Every step of a run, whatever the callbacks do and whoever schedules and drops what: if each
fiber is constructed in memory that holds `INIT`, every fiber keeps to its life cycle, no assertion
fails and no fiber is switched into that has ended. -/
theorem followsLifeCycle_of_constructsInit (ls : List Label)
    (hC : StepsMeet step ConstructsInit init ls) : StepsMeet step FollowsLifeCycle init ls :=
  stepsMeet_of_invariant (fun _ _ hs hc _ hstep => (hs.next hc hstep).2)
    (fun _ _ _ hs hc hstep => (hs.next hc hstep).1) ls init inv_init hC

/-- A callback that yields, is resumed and returns. -/
theorem followsLifeCycle_yield :
    let go := Label.move .finish .init
    let ls := [.schedule ⟨.cb 0, none⟩, go, go, go, go, .move .yieldToReady .init, go, go, go, go, go,
      go]
    StepsMeet step FollowsLifeCycle init ls ∧
      (run step init ls).map (fun s => (s.fibers 1).state) = some .term :=
  ⟨followsLifeCycle_of_constructsInit _ (by decide), by decide⟩

/-- The memory of the first `cb_fiber` holds `EXEC`, and the assertion of `swapIn` fails. -/
theorem swapIn_assertion_fails :
    let go := Label.move .finish .init
    let ls := [.schedule ⟨.cb 0, none⟩, go, go, .move .finish .exec, go]
    (run step init ls).map State.failed = some true ∧
      ¬ StepsMeet step FollowsLifeCycle init ls := by
  intro go ls
  have hfails : (run step init ls).map State.failed = some true := by decide
  refine ⟨hfails, fun hfollows => ?_⟩
  obtain ⟨t, ht, hfailed⟩ := Option.map_eq_some_iff.mp hfails
  have hholds : t.failed = false := run_invariant (I := fun s => s.failed = false)
    (fun s l t _ hC hstep => (hC t hstep).holds) ls init t rfl hfollows ht
  rw [hfailed] at hholds
  cases hholds

end LifeCycle

end Saturn
