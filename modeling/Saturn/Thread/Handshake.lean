import Saturn.Http.Message
import Saturn.Misc.ListUpdate
import Saturn.Misc.Run

/-!
# Threads and their constructors

`Thread::Thread` starts a thread with a pointer to the object that is being made, and waits until the
thread has taken from it what it needs. From then on the object may be destroyed, and its thread may go
on. `sem_wait` can also fail, for a signal: the constructor then throws, and the object is gone at once.
-/

namespace Saturn

namespace Threads

open Http (Bytes cstr ascii)

variable {κ : Type*}

/-- The members of a `Thread`; `m_id` is not set by the constructor. -/
structure Thread (κ : Type*) where
  id : Option Nat
  name : Bytes
  cb : Option κ
  sem : Nat
  deriving Repr, DecidableEq

/-- Where the constructor is. -/
inductive Maker
  /-- In `m_sem.wait()`. -/
  | waiting
  | returned
  | threw
  deriving Repr, DecidableEq

/-- The statement of `Thread::run` that the thread is at. -/
inductive Pc
  | setThis
  | setName
  | setId
  | setOsName
  | swap
  | notify
  | call
  | calling
  | ended
  deriving Repr, DecidableEq

/-- The thread is past its last use of the object. -/
def Pc.notified : Pc → Bool
  | .call | .calling | .ended => true
  | _ => false

/-- A thread with its `t_thread` and `t_thread_name`, its name for the kernel and the callback that it
has taken. -/
structure Child (κ : Type*) where
  pc : Pc
  tid : Nat
  this : Bool
  name : Bytes
  osName : Bytes
  cb : Option κ
  deriving Repr, DecidableEq

/-- `Thread::SetName`, for so many calls within calls. -/
def Child.setName : Nat → Bytes → Child κ → Option (Child κ)
  | 0, _, _ => none
  | fuel + 1, name, c =>
    if name = [] then some c
    else if c.this then setName fuel name { c with name }
    else some { c with name }

/-- On a thread that a `Thread` runs it calls itself without an end. -/
theorem setName_returns_iff (c : Child κ) (name : Bytes) :
    (∃ fuel c', Child.setName fuel name c = some c') ↔ name = [] ∨ c.this = false := by
  constructor
  · rintro ⟨fuel, c', h⟩
    induction fuel generalizing c with
    | zero => cases h
    | succ fuel ih =>
        rw [Child.setName] at h
        split at h
        · rename_i hname
          exact Or.inl hname
        · split at h
          · exact ih { c with name } h
          · rename_i hthis
            exact Or.inr (Bool.eq_false_iff.mpr hthis)
  · intro h
    refine ⟨1, ?_⟩
    rw [Child.setName]
    rcases h with hname | hthis
    · exact ⟨c, if_pos hname⟩
    · by_cases hname : name = []
      · exact ⟨c, if_pos hname⟩
      · exact ⟨{ c with name }, by simp [hname, hthis]⟩

/-- An object and its thread. `given` is the callback that the constructor was given, `calls` are those
that the thread has called, and `stray` is whether it has used the object after its end. -/
structure Pair (κ : Type*) where
  thread : Thread κ
  live : Bool
  maker : Maker
  child : Child κ
  given : κ
  calls : List κ
  stray : Bool
  deriving Repr, DecidableEq

namespace Pair

/-- The constructor after `pthread_create`. -/
def new (cb : κ) (name : Bytes) (tid : Nat) : Pair κ where
  thread := ⟨none, if name = [] then ascii "UNKNOWN" else name, some cb, 0⟩
  live := true
  maker := .waiting
  child := ⟨.setThis, tid, false, ascii "UNKNOWN", [], none⟩
  given := cb
  calls := []
  stray := false

/-- A use of the object by its thread. -/
def use (p : Pair κ) (thread : Thread κ) (child : Child κ) : Pair κ :=
  if p.live then { p with thread, child } else { p with stray := true }

/-- The next statement of `run`; the callback returns. -/
def run (p : Pair κ) : Option (Pair κ) :=
  match p.child.pc with
  | .setThis => some { p with child := { p.child with this := true, pc := .setName } }
  | .setName => some (p.use p.thread { p.child with name := p.thread.name, pc := .setId })
  | .setId => some (p.use { p.thread with id := some p.child.tid } { p.child with pc := .setOsName })
  | .setOsName =>
    some (p.use p.thread { p.child with osName := cstr (p.thread.name.take 15), pc := .swap })
  | .swap =>
    some (p.use { p.thread with cb := p.child.cb } { p.child with cb := p.thread.cb, pc := .notify })
  | .notify => some (p.use { p.thread with sem := p.thread.sem + 1 } { p.child with pc := .call })
  | .call =>
    some { p with child := { p.child with pc := .calling }, calls := p.calls ++ p.child.cb.toList }
  | .calling => some { p with child := { p.child with pc := .ended } }
  | .ended => none

/-- `sem_wait` has taken one from the semaphore, and the constructor returns. -/
def wait (p : Pair κ) : Option (Pair κ) :=
  if p.maker = .waiting ∧ 0 < p.thread.sem then
    some { p with thread := { p.thread with sem := p.thread.sem - 1 }, maker := .returned }
  else none

/-- `sem_wait` fails, and the exception ends the object. -/
def interrupt (p : Pair κ) : Option (Pair κ) :=
  if p.maker = .waiting then some { p with maker := .threw, live := false } else none

/-- `~Thread`, once the constructor has returned. -/
def destroy (p : Pair κ) : Option (Pair κ) :=
  if p.maker = .returned ∧ p.live then some { p with live := false } else none

end Pair

/-- A step of an object's maker or owner, or of its thread. -/
inductive Label (κ : Type*)
  | construct (cb : κ) (name : Bytes) (tid : Nat)
  /-- `pthread_create` fails, and the constructor throws. -/
  | refuse (cb : κ) (name : Bytes)
  | wait (i : Nat)
  | interrupt (i : Nat)
  | run (i : Nat)
  | destroy (i : Nat)
  deriving Repr, DecidableEq

/-- A step of object `i`. -/
def update (s : List (Pair κ)) (i : Nat) (f : Pair κ → Option (Pair κ)) : Option (List (Pair κ)) :=
  (s[i]?.bind f).map fun p => s.set i p

/-- The step function, over all objects ever made. Where there is no thread there is no object. -/
def step (s : List (Pair κ)) : Label κ → Option (List (Pair κ))
  | .construct cb name tid => some (s ++ [.new cb name tid])
  | .refuse _ _ => some s
  | .wait i => update s i Pair.wait
  | .interrupt i => update s i Pair.interrupt
  | .run i => update s i Pair.run
  | .destroy i => update s i Pair.destroy

/-- No wait is interrupted before the thread has notified. -/
def Uninterrupted (s : List (Pair κ)) : Label κ → Prop
  | .interrupt i => ∀ p, s[i]? = some p → p.child.pc.notified = true
  | _ => True

/-- What an object and its thread promise. -/
structure Pair.Sound (p : Pair κ) : Prop where
  /-- The thread does not use the object after its end. -/
  stray : p.stray = false
  /-- Behind the constructor, `getId` is the thread's, and the callback is not in the object any more. -/
  returned : p.maker = .returned → p.thread.id = some p.child.tid ∧ p.thread.cb = none
  /-- The callback is called once, with the name of the object as the thread's name. -/
  called : p.child.pc.notified = true → p.child.this = true ∧ p.child.name = p.thread.name ∧
    p.calls = if p.child.pc = .call then [] else [p.given]
  uncalled : p.child.pc.notified = false → p.calls = []

/-- Every object does. -/
def Sound (s : List (Pair κ)) : Prop := ∀ p ∈ s, p.Sound

/-- What carries `Sound`: how far the thread has come says what is in the object. -/
structure Pair.Inv (p : Pair κ) : Prop where
  stray : p.stray = false
  live : p.live = true ∨ p.child.pc.notified = true
  sem : p.maker = .waiting → p.thread.sem = p.child.pc.notified.toNat
  returned : p.maker = .returned → p.child.pc.notified = true
  this : p.child.pc ≠ .setThis → p.child.this = true
  name : p.child.pc ≠ .setThis → p.child.pc ≠ .setName → p.child.name = p.thread.name
  id : p.child.pc = .setOsName ∨ p.child.pc = .swap ∨ p.child.pc = .notify ∨
    p.child.pc.notified = true → p.thread.id = some p.child.tid
  swapped : p.child.pc = .notify ∨ p.child.pc.notified = true →
    p.thread.cb = none ∧ p.child.cb = some p.given
  unswapped : ¬ (p.child.pc = .notify ∨ p.child.pc.notified = true) →
    p.thread.cb = some p.given ∧ p.child.cb = none
  calls : p.calls = if p.child.pc = .calling ∨ p.child.pc = .ended then [p.given] else []

namespace Pair

variable {p p' : Pair κ}

theorem inv_new (cb : κ) (name : Bytes) (tid : Nat) : (new cb name tid).Inv := by
  constructor <;> simp [new, Pc.notified]

theorem use_of_live (h : p.Inv) (hpc : p.child.pc.notified = false) (thread : Thread κ)
    (child : Child κ) : p.use thread child = { p with thread, child } :=
  if_pos (h.live.resolve_right (by rw [hpc]; exact Bool.false_ne_true))

/-- The maker has gone on only behind the notification. -/
theorem Inv.waiting (h : p.Inv) (hpc : p.child.pc.notified = false) : p.maker ≠ .returned :=
  fun hmaker => by cases hpc.symm.trans (h.returned hmaker)

theorem inv_run (h : p.Inv) (hp : p.run = some p') : p'.Inv := by
  obtain ⟨thread, live, maker, ⟨pc, tid, this, name, osName, cb⟩, given, calls, stray⟩ := p
  have hstray := h.stray
  have hlive := h.live
  have hsem := h.sem
  have hreturned := h.returned
  have hthis := h.this
  have hname := h.name
  have hid := h.id
  have hswapped := h.swapped
  have hunswapped := h.unswapped
  have hcalls := h.calls
  cases pc with
  | ended => cases hp
  | setThis | call | calling =>
      cases hp
      constructor <;> simp_all [Pc.notified]
  | setName | setId | setOsName | swap | notify =>
      have huse := use_of_live h rfl
      simp only [run, huse, Option.some.injEq] at hp
      subst hp
      constructor <;> simp_all [Pc.notified]

theorem inv_wait (h : p.Inv) (hp : p.wait = some p') : p'.Inv := by
  simp only [wait, Option.ite_none_right_eq_some, Option.some.injEq] at hp
  obtain ⟨⟨hmaker, hpos⟩, rfl⟩ := hp
  have hsem := h.sem hmaker
  have hnotified : p.child.pc.notified = true := by
    by_contra hno
    rw [Bool.eq_false_iff.mpr hno, Bool.toNat_false] at hsem
    omega
  exact { h with
    sem := fun hw => by cases hw
    returned := fun _ => hnotified }

theorem inv_interrupt (h : p.Inv) (hpc : p.child.pc.notified = true) (hp : p.interrupt = some p') :
    p'.Inv := by
  simp only [interrupt, Option.ite_none_right_eq_some, Option.some.injEq] at hp
  obtain ⟨-, rfl⟩ := hp
  exact { h with
    live := Or.inr hpc
    sem := fun hw => by cases hw
    returned := fun hr => by cases hr }

theorem inv_destroy (h : p.Inv) (hp : p.destroy = some p') : p'.Inv := by
  simp only [destroy, Option.ite_none_right_eq_some, Option.some.injEq] at hp
  obtain ⟨⟨hmaker, -⟩, rfl⟩ := hp
  exact { h with live := Or.inr (h.returned hmaker) }

/-- The thread of an object that is gone uses it next. -/
theorem run_of_dead (hlive : p.live = false) (hpc : p.child.pc.notified = false)
    (hset : p.child.pc ≠ .setThis) : p.run = some { p with stray := true } := by
  cases heq : p.child.pc with
  | setThis => exact absurd heq hset
  | setName | setId | setOsName | swap | notify => simp [run, use, heq, hlive]
  | call | calling | ended => simp [heq, Pc.notified] at hpc

theorem Inv.sound (h : p.Inv) : p.Sound where
  stray := h.stray
  returned := fun hmaker =>
    ⟨h.id (Or.inr (Or.inr (Or.inr (h.returned hmaker)))), (h.swapped (Or.inr (h.returned hmaker))).1⟩
  called := by
    intro hpc
    refine ⟨h.this ?_, h.name ?_ ?_, ?_⟩
    · rintro heq
      rw [heq] at hpc
      cases hpc
    · rintro heq
      rw [heq] at hpc
      cases hpc
    · rintro heq
      rw [heq] at hpc
      cases hpc
    · rw [h.calls]
      cases heq : p.child.pc <;> simp_all [Pc.notified]
  uncalled := by
    intro hpc
    rw [h.calls, if_neg]
    rintro (heq | heq) <;> rw [heq] at hpc <;> cases hpc

end Pair

section Steps

variable {s t : List (Pair κ)} {l : Label κ}

theorem update_spec {i : Nat} {f : Pair κ → Option (Pair κ)} (h : update s i f = some t) :
    ∃ p p', s[i]? = some p ∧ f p = some p' ∧ t = s.set i p' := by
  obtain ⟨p', hp', rfl⟩ := Option.map_eq_some_iff.mp h
  obtain ⟨p, hp, hf⟩ := Option.bind_eq_some_iff.mp hp'
  exact ⟨p, p', hp, hf, rfl⟩

/-- A step changes one object and its thread, or makes a new one. -/
theorem step_cases (h : step s l = some t) :
    (∃ cb name tid, l = .construct cb name tid ∧ t = s ++ [.new cb name tid]) ∨
    (∃ cb name, l = .refuse cb name ∧ t = s) ∨
    ∃ i p p', s[i]? = some p ∧ t = s.set i p' ∧
      ((l = .wait i ∧ p.wait = some p') ∨ (l = .interrupt i ∧ p.interrupt = some p') ∨
        (l = .run i ∧ p.run = some p') ∨ (l = .destroy i ∧ p.destroy = some p')) := by
  cases l with
  | construct cb name tid => exact Or.inl ⟨cb, name, tid, rfl, (Option.some.inj h).symm⟩
  | refuse cb name => exact Or.inr (Or.inl ⟨cb, name, rfl, (Option.some.inj h).symm⟩)
  | wait i =>
      obtain ⟨p, p', hp, hf, rfl⟩ := update_spec h
      exact Or.inr (Or.inr ⟨i, p, p', hp, rfl, Or.inl ⟨rfl, hf⟩⟩)
  | interrupt i =>
      obtain ⟨p, p', hp, hf, rfl⟩ := update_spec h
      exact Or.inr (Or.inr ⟨i, p, p', hp, rfl, Or.inr (Or.inl ⟨rfl, hf⟩)⟩)
  | run i =>
      obtain ⟨p, p', hp, hf, rfl⟩ := update_spec h
      exact Or.inr (Or.inr ⟨i, p, p', hp, rfl, Or.inr (Or.inr (Or.inl ⟨rfl, hf⟩))⟩)
  | destroy i =>
      obtain ⟨p, p', hp, hf, rfl⟩ := update_spec h
      exact Or.inr (Or.inr ⟨i, p, p', hp, rfl, Or.inr (Or.inr (Or.inr ⟨rfl, hf⟩))⟩)

theorem inv_step (h : ∀ p ∈ s, p.Inv) (hC : Uninterrupted s l) (hstep : step s l = some t) :
    ∀ p ∈ t, p.Inv := by
  rcases step_cases hstep with ⟨cb, name, tid, -, rfl⟩ | ⟨cb, name, -, rfl⟩ | ⟨i, p, p', hp, rfl, hcase⟩
  · intro p hp
    rcases List.mem_append.mp hp with hp | hp
    · exact h p hp
    · rw [List.mem_singleton.mp hp]
      exact Pair.inv_new cb name tid
  · exact h
  · have hinv := h p (List.mem_of_getElem? hp)
    refine forall_mem_set ?_ h
    rcases hcase with ⟨rfl, hf⟩ | ⟨rfl, hf⟩ | ⟨rfl, hf⟩ | ⟨rfl, hf⟩
    · exact Pair.inv_wait hinv hf
    · exact Pair.inv_interrupt hinv (hC p hp) hf
    · exact Pair.inv_run hinv hf
    · exact Pair.inv_destroy hinv hf

theorem step_run {i : Nat} {p p' : Pair κ} (hp : s[i]? = some p) (hrun : p.run = some p') :
    step s (.run i) = some (s.set i p') := by
  simp [step, update, hp, hrun]

/-- A thread that has not notified when the wait is interrupted uses the object after its end. -/
theorem stray_of_interrupt {i : Nat} {p : Pair κ} (hp : s[i]? = some p) (hmaker : p.maker = .waiting)
    (hpc : p.child.pc.notified = false) : ∃ (n : Nat) (t : List (Pair κ)) (p' : Pair κ),
      run step s (.interrupt i :: List.replicate n (.run i)) = some t ∧ t[i]? = some p' ∧
        p'.stray = true := by
  have hset : ∀ q : Pair κ, (s.set i q)[i]? = some q := fun q => by
    rw [getElem?_set_of_some hp, if_pos rfl]
  have hinterrupt : step s (.interrupt i) = some (s.set i { p with maker := .threw, live := false }) := by
    simp [step, update, hp, Pair.interrupt, hmaker]
  by_cases heq : p.child.pc = .setThis
  · -- one step to the first use of the object
    have hfirst : Pair.run { p with maker := .threw, live := false } = some { p with
        maker := .threw
        live := false
        child := { p.child with this := true, pc := .setName } } := by
      simp [Pair.run, heq]
    refine ⟨2, s.set i _, { p with
      maker := .threw
      live := false
      child := { p.child with this := true, pc := .setName }
      stray := true }, ?_, hset _, rfl⟩
    rw [run_cons, hinterrupt, Option.bind_some, List.replicate, run_cons, step_run (hset _) hfirst,
      Option.bind_some, List.set_set, List.replicate, run_cons,
      step_run (hset _) (Pair.run_of_dead rfl rfl fun h => by cases h), Option.bind_some, List.set_set]
    rfl
  · refine ⟨1, s.set i _, { p with maker := .threw, live := false, stray := true }, ?_, hset _, rfl⟩
    have huse : Pair.run { p with maker := .threw, live := false } =
        some { p with maker := .threw, live := false, stray := true } := Pair.run_of_dead rfl hpc heq
    rw [run_cons, hinterrupt, Option.bind_some, List.replicate, run_cons, step_run (hset _) huse,
      Option.bind_some, List.set_set]
    rfl

end Steps

/-- In every run in which no wait is interrupted before the notification, threads use their objects only
while these live, have their ids in them when the constructors return, and call each callback once; and
whenever such a wait is interrupted in whatever run, its thread goes on to use an object that is gone. -/
theorem handshake (ls : List (Label κ)) :
    (StepsMeet step Uninterrupted [] ls → StatesMeet step Sound [] ls) ∧
    ∀ (s : List (Pair κ)) (i : Nat) (p : Pair κ), run step [] ls = some s → s[i]? = some p →
      p.maker = .waiting → p.child.pc.notified = false →
      ∃ (n : Nat) (t : List (Pair κ)) (p' : Pair κ),
        run step [] (ls ++ .interrupt i :: List.replicate n (.run i)) = some t ∧ t[i]? = some p' ∧
          p'.stray = true := by
  constructor
  · exact statesMeet_of_invariant (I := fun s => ∀ p ∈ s, p.Inv) (fun s h p hp => (h p hp).sound)
      (fun s l t h hC hstep => inv_step h hC hstep) ls _ fun p hp => absurd hp List.not_mem_nil
  · intro s i p hrun hp hmaker hpc
    obtain ⟨n, t, p', hstray, hp', htrue⟩ := stray_of_interrupt hp hmaker hpc
    refine ⟨n, t, p', ?_, hp', htrue⟩
    rw [run_append, hrun, Option.bind_some, hstray]

/-- The owner destroys the object while the callback has not begun, and can make no other one. -/
def detachedRun : List (Label Nat) :=
  [.construct 7 [] 100, .refuse 8 []] ++ List.replicate 6 (.run 0) ++ [.wait 0, .destroy 0, .run 0, .run 0]

theorem handshake_detachedRun :
    ((run step [] detachedRun).map fun s => s.map fun p => (p.live, p.calls, p.thread.id)) =
      some [(false, [7], some 100)] ∧ StatesMeet step Sound [] detachedRun :=
  ⟨by decide, (handshake detachedRun).1 (by simp [StepsMeet, Uninterrupted, detachedRun])⟩

end Threads

end Saturn
