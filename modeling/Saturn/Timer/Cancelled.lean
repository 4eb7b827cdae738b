import Mathlib.Data.List.Nodup
import Saturn.Misc.ListUpdate
import Saturn.Misc.Run
import Saturn.Timer.Sections

/-!
# What becomes of a cancelled timer

Any number of threads add, cancel, refresh, reset and expire timers, one section a step. `reset` and
`listExpiredCb` take a timer out of the set in one section and put it back in another; a `cancel`
between the two clears the callback and finds nothing to erase, and the timer comes back dead.
-/

namespace Saturn

namespace Timers

/-- The calls of the program. -/
inductive Call where
  | addTimer (ms : UInt64) (cb : Option Nat) (recurring : Bool)
  | cancel (t : Nat)
  | refresh (t : Nat)
  | reset (t : Nat) (ms : UInt64) (fromNow : Bool)
  | getNextTimer
  | listExpiredCb
  deriving DecidableEq, Repr

/-- The step that a thread takes next. -/
inductive Pc where
  | out
  /-- `new Timer(ms, cb, recurring, this)` -/
  | construct (ms : UInt64) (cb : Option Nat) (recurring : Bool)
  /-- The section of `addTimer(t)`, of a new timer or at the end of `reset`. -/
  | insert (t : Nat)
  /-- `onTimerInsertedAtFront()` -/
  | front (t : Nat)
  | cancel (t : Nat)
  | refresh (t : Nat)
  | reset (t : Nat) (ms : UInt64) (fromNow : Bool)
  | getNextTimer
  /-- The first section of `listExpiredCb`. -/
  | expire
  /-- The second section of `listExpiredCb`. -/
  | putBack (expired : List Nat) (cur : UInt64)
  deriving DecidableEq, Repr

/-- The first section of a call. -/
def Call.start : Call → Pc
  | .addTimer ms cb recurring => .construct ms cb recurring
  | .cancel t => .cancel t
  | .refresh t => .refresh t
  | .reset t ms fromNow => .reset t ms fromNow
  | .getNextTimer => .getNextTimer
  | .listExpiredCb => .expire

/-- The timer that a call is made on. -/
def Call.timer : Call → Option Nat
  | .cancel t | .refresh t | .reset t _ _ => some t
  | _ => none

/-- The timers that a thread holds, taken out of the set or not yet put in. -/
def Pc.holds : Pc → List Nat
  | .insert t => [t]
  | .putBack expired _ => expired
  | _ => []

/-- A manager, its threads, and what has come of their calls. -/
structure State where
  manager : TimerManager
  threads : List Pc
  /-- The timers that `addTimer` has returned. -/
  known : List Nat
  /-- The timers whose callback `cancel` has cleared. -/
  cleared : List Nat
  /-- The timers whose callback `listExpiredCb` has handed over. -/
  fired : List Nat

/-- A step: thread `tid` makes a call, or goes on, when the clock says `now`; what it allocates is at
the address `addr`. -/
inductive Label where
  | call (tid : Nat) (c : Call)
  | move (tid : Nat) (now : UInt64) (addr : Nat)
  deriving DecidableEq, Repr

namespace State

/-- Thread `tid` leaves a section with the timers as they are in `m`. -/
def leave (s : State) (tid : Nat) (m : TimerManager) (pc : Pc) : State :=
  { s with manager := m, threads := s.threads.set tid pc }

/-- The next step of thread `tid`. -/
def move (s : State) (tid : Nat) (now : UInt64) (addr : Nat) : Pc → Option State
  | .out => none
  | .construct ms cb recurring =>
      if (s.manager.heap addr).isSome then none
      else some (s.leave tid (s.manager.newTimer addr ms cb recurring now) (.insert addr))
  | .insert t =>
      let (m, isFront) := s.manager.addTimer t
      some { s.leave tid m (if isFront then .front t else .out) with
        known := if isFront then s.known else t :: s.known }
  | .front t => some { s.leave tid s.manager .out with known := t :: s.known }
  | .cancel t =>
      some { s.leave tid (s.manager.cancel t).1 .out with
        cleared := if (s.manager.heap t).any (·.cb.isSome) then t :: s.cleared else s.cleared }
  | .refresh t => some (s.leave tid (s.manager.refresh t now).1 .out)
  | .reset t ms fromNow =>
      let (m, found) := s.manager.reset t ms fromNow now
      some (s.leave tid m (if found then .insert t else .out))
  | .getNextTimer => some (s.leave tid (s.manager.getNextTimer now).1 .out)
  | .expire =>
      if (s.manager.heap addr).isSome then none
      else if s.manager.timers.isEmpty then some (s.leave tid s.manager .out)
      else
        let (m, expired) := s.manager.takeExpired now addr
        some (s.leave tid m (.putBack expired now))
  | .putBack expired cur =>
      some { s.leave tid (s.manager.putBack cur expired).1 .out with fired := expired ++ s.fired }

end State

/-- Any number of threads, and no timer. -/
def init (threads : Nat) : State where
  manager := .init
  threads := List.replicate threads .out
  known := []
  cleared := []
  fired := []

/-- The step function. A call on a timer needs a pointer to it, which `addTimer` returned. -/
def step (s : State) : Label → Option State
  | .call tid c =>
      if s.threads[tid]? = some .out ∧ ∀ t ∈ c.timer, t ∈ s.known then
        some (s.leave tid s.manager c.start)
      else none
  | .move tid now addr =>
      match s.threads[tid]? with
      | some pc => s.move tid now addr pc
      | none => none

/-- `m_recurring` of the timer at `t`. -/
def State.recurring (s : State) (t : Nat) : Bool := (s.manager.heap t).any Timer.recurring

/-- A thread at `pc` puts `t` into the set in its next section. -/
def State.putsBack (s : State) (t : Nat) : Pc → Bool
  | .insert u => u == t
  | .putBack expired _ => expired.contains t && s.recurring t
  | _ => false

/-- No operation is in progress. -/
def State.Quiet (s : State) : Prop := ∀ pc ∈ s.threads, pc = .out

instance (s : State) : Decidable s.Quiet := inferInstanceAs (Decidable (∀ pc ∈ s.threads, _))

/-- A cancelled timer is gone, and once every timer has fired or is cancelled there is none left. -/
structure Gone (s : State) : Prop where
  cleared_gone : ∀ t ∈ s.cleared, t ∉ s.manager.timers
  all_gone : (∀ t, s.manager.heap t ≠ none →
      t ∈ s.cleared ∨ (s.recurring t = false ∧ t ∈ s.fired)) →
    s.manager.hasTimer = false ∧ ∀ now, (s.manager.getNextTimer now).2 = ~~~0

/-- The timer whose callback the next section of thread `tid` clears. -/
def State.clearing (s : State) (tid : Nat) : Option Nat :=
  match s.threads[tid]? with
  | some (.cancel t) => if (s.manager.heap t).any (·.cb.isSome) then some t else none
  | _ => none

/-- `cancel` does not clear the callback of a timer that a thread has taken out of the set to put it
back. -/
def CancelsSettled (s : State) : Label → Prop
  | .move tid _ _ => ∀ t ∈ s.clearing tid, ∀ pc ∈ s.threads, s.putsBack t pc = false
  | _ => True

instance (s : State) : (l : Label) → Decidable (CancelsSettled s l)
  | .call .. => isTrue trivial
  | .move tid _ _ =>
      inferInstanceAs (Decidable (∀ t ∈ s.clearing tid, ∀ pc ∈ s.threads, s.putsBack t pc = false))

/-- Each timer is in one place: in the set, with one thread, or nowhere. -/
structure Inv (s : State) : Prop where
  sorted : s.manager.Sorted
  set_alive : ∀ t ∈ s.manager.timers, s.manager.heap t ≠ none
  hand_alive : ∀ (tid : Nat) pc, s.threads[tid]? = some pc → ∀ t ∈ pc.holds, s.manager.heap t ≠ none
  hand_out : ∀ (tid : Nat) pc, s.threads[tid]? = some pc → ∀ t ∈ pc.holds, t ∉ s.manager.timers
  hand_one : ∀ (tid tid' : Nat) pc pc', s.threads[tid]? = some pc → s.threads[tid']? = some pc' →
    ∀ t ∈ pc.holds, t ∈ pc'.holds → tid = tid'
  hand_nodup : ∀ (tid : Nat) pc, s.threads[tid]? = some pc → pc.holds.Nodup
  gone_alive : ∀ t, t ∈ s.cleared ∨ t ∈ s.fired → s.manager.heap t ≠ none
  fired_out : ∀ t ∈ s.fired, s.recurring t = false → t ∉ s.manager.timers ∧
    ∀ (tid : Nat) pc, s.threads[tid]? = some pc → t ∉ pc.holds
  cleared_out : ∀ t ∈ s.cleared, t ∉ s.manager.timers ∧
    ∀ (tid : Nat) pc, s.threads[tid]? = some pc → s.putsBack t pc = false

theorem inv_init (threads : Nat) : Inv (init threads) := by
  have hout : ∀ (tid : Nat) pc, (init threads).threads[tid]? = some pc → pc = .out := by
    intro tid pc h
    simp only [init, List.getElem?_replicate] at h
    split at h
    · exact (Option.some.inj h).symm
    · cases h
  refine ⟨StdSet.sorted_nil, ?_, ?_, ?_, ?_, ?_, ?_, ?_, ?_⟩
  · intro t ht
    cases ht
  · intro tid pc h t ht
    rw [hout tid pc h] at ht
    cases ht
  · intro tid pc h t ht
    rw [hout tid pc h] at ht
    cases ht
  · intro tid tid' pc pc' h _ t ht _
    rw [hout tid pc h] at ht
    cases ht
  · intro tid pc h
    rw [hout tid pc h]
    exact List.nodup_nil
  · rintro t (ht | ht) <;> cases ht
  · intro t ht
    cases ht
  · intro t ht
    cases ht

/-- What one section does to the timers, for a thread that goes from `pc` to `pc'`: none is lost from
the heap or changes its kind, what enters the set was to be put there, and what the thread takes out
it took from the set or made. -/
structure Moves (s : State) (pc pc' : Pc) (m : TimerManager) : Prop where
  sorted : m.Sorted
  kept : s.manager.Keeps m
  set_from : ∀ t ∈ m.timers, t ∈ s.manager.timers ∨ s.putsBack t pc = true
  hand_from : ∀ t ∈ pc'.holds, (t ∈ s.manager.timers ∨ s.manager.heap t = none) ∧
    m.heap t ≠ none ∧ t ∉ m.timers
  hand_nodup : pc'.holds.Nodup

variable {s : State} {tid : Nat} {pc pc' : Pc} {m : TimerManager}

theorem mem_holds_of_putsBack {t : Nat} (h : s.putsBack t pc = true) : t ∈ pc.holds := by
  cases pc with
  | insert u =>
      obtain rfl : u = t := by simpa [State.putsBack] using h
      exact List.mem_singleton_self u
  | putBack expired cur =>
      simp only [State.putsBack, Bool.and_eq_true, List.contains_iff_mem] at h
      exact h.1
  | _ => cases h

theorem Moves.alive (h : Moves s pc pc' m) {t : Nat} (ht : s.manager.heap t ≠ none) :
    m.heap t ≠ none := by
  obtain ⟨timer, htimer⟩ := Option.ne_none_iff_exists'.mp ht
  obtain ⟨timer', htimer', -⟩ := h.kept t timer htimer
  rw [htimer']
  exact Option.some_ne_none timer'

theorem Moves.recurring (h : Moves s pc pc' m) {t : Nat} (ht : s.manager.heap t ≠ none) :
    (m.heap t).any Timer.recurring = s.recurring t := by
  obtain ⟨timer, htimer⟩ := Option.ne_none_iff_exists'.mp ht
  obtain ⟨timer', htimer', hrec⟩ := h.kept t timer htimer
  rw [State.recurring, htimer, htimer', Option.any_some, Option.any_some, hrec]

/-- The place of a thread after a section of thread `tid`. -/
theorem threads_set (hpc : s.threads[tid]? = some pc) {u : Nat} {pc₁ : Pc}
    (h : (s.threads.set tid pc')[u]? = some pc₁) :
    (u = tid ∧ pc₁ = pc') ∨ (u ≠ tid ∧ s.threads[u]? = some pc₁) := by
  rw [getElem?_set_of_some hpc] at h
  split at h
  · rename_i heq
    exact Or.inl ⟨heq, (Option.some.inj h).symm⟩
  · rename_i hne
    exact Or.inr ⟨hne, h⟩

/-- What another thread holds, a section leaves alone. -/
theorem Inv.other (h : Inv s) (hmoves : Moves s pc pc' m) (hpc : s.threads[tid]? = some pc) {u : Nat}
    {pc₁ : Pc} (hu : s.threads[u]? = some pc₁) (hne : u ≠ tid) {t : Nat} (ht : t ∈ pc₁.holds) :
    t ∉ m.timers ∧ t ∉ pc'.holds := by
  constructor
  · intro hset
    rcases hmoves.set_from t hset with hset | hput
    · exact h.hand_out u pc₁ hu t ht hset
    · exact hne (h.hand_one u tid pc₁ pc hu hpc t ht (mem_holds_of_putsBack hput))
  · intro hhand
    rcases (hmoves.hand_from t hhand).1 with hset | hnew
    · exact h.hand_out u pc₁ hu t ht hset
    · exact h.hand_alive u pc₁ hu t ht hnew

theorem Inv.leave (h : Inv s) (hpc : s.threads[tid]? = some pc) (hmoves : Moves s pc pc' m) :
    Inv (s.leave tid m pc') where
  sorted := hmoves.sorted
  set_alive := fun t ht => by
    rcases hmoves.set_from t ht with hset | hput
    · exact hmoves.alive (h.set_alive t hset)
    · exact hmoves.alive (h.hand_alive tid pc hpc t (mem_holds_of_putsBack hput))
  hand_alive := fun u pc₁ hu t ht => by
    rcases threads_set hpc hu with ⟨-, rfl⟩ | ⟨-, hu⟩
    · exact (hmoves.hand_from t ht).2.1
    · exact hmoves.alive (h.hand_alive u pc₁ hu t ht)
  hand_out := fun u pc₁ hu t ht => by
    rcases threads_set hpc hu with ⟨-, rfl⟩ | ⟨hne, hu⟩
    · exact (hmoves.hand_from t ht).2.2
    · exact (h.other hmoves hpc hu hne ht).1
  hand_one := fun u u' pc₁ pc₂ hu hu' t ht ht' => by
    rcases threads_set hpc hu with ⟨rfl, rfl⟩ | ⟨hne, hold⟩
    · rcases threads_set hpc hu' with ⟨rfl, rfl⟩ | ⟨hne', hold'⟩
      · rfl
      · exact absurd ht (h.other hmoves hpc hold' hne' ht').2
    · rcases threads_set hpc hu' with ⟨rfl, rfl⟩ | ⟨hne', hold'⟩
      · exact absurd ht' (h.other hmoves hpc hold hne ht).2
      · exact h.hand_one u u' pc₁ pc₂ hold hold' t ht ht'
  hand_nodup := fun u pc₁ hu => by
    rcases threads_set hpc hu with ⟨-, rfl⟩ | ⟨-, hu⟩
    · exact hmoves.hand_nodup
    · exact h.hand_nodup u pc₁ hu
  gone_alive := fun t ht => hmoves.alive (h.gone_alive t ht)
  fired_out := fun t ht hrec => by
    have halive := h.gone_alive t (Or.inr ht)
    have hrec : s.recurring t = false := (hmoves.recurring halive).symm.trans hrec
    obtain ⟨hset, hhand⟩ := h.fired_out t ht hrec
    refine ⟨fun hnew => ?_, fun u pc₁ hu hheld => ?_⟩
    · rcases hmoves.set_from t hnew with hold | hput
      · exact hset hold
      · exact hhand tid pc hpc (mem_holds_of_putsBack hput)
    · rcases threads_set hpc hu with ⟨-, rfl⟩ | ⟨-, hu⟩
      · rcases (hmoves.hand_from t hheld).1 with hold | hnew
        · exact hset hold
        · exact halive hnew
      · exact hhand u pc₁ hu hheld
  cleared_out := fun t ht => by
    have halive := h.gone_alive t (Or.inl ht)
    obtain ⟨hset, hhand⟩ := h.cleared_out t ht
    refine ⟨fun hnew => ?_, fun u pc₁ hu => ?_⟩
    · rcases hmoves.set_from t hnew with hold | hput
      · exact hset hold
      · rw [hhand tid pc hpc] at hput
        cases hput
    · have hrec : (s.leave tid m pc').recurring t = s.recurring t := hmoves.recurring halive
      have hput : (s.leave tid m pc').putsBack t pc₁ = s.putsBack t pc₁ := by
        cases pc₁ with
        | putBack expired cur => rw [State.putsBack, State.putsBack, hrec]
        | _ => rfl
      rw [hput]
      rcases threads_set hpc hu with ⟨-, rfl⟩ | ⟨-, hu⟩
      · rw [← Bool.not_eq_true]
        intro hback
        rcases (hmoves.hand_from t (mem_holds_of_putsBack hback)).1 with hold | hnew
        · exact hset hold
        · exact halive hnew
      · exact hhand u pc₁ hu

theorem Inv.withKnown (h : Inv s) (known : List Nat) : Inv { s with known := known } :=
  ⟨h.sorted, h.set_alive, h.hand_alive, h.hand_out, h.hand_one, h.hand_nodup, h.gone_alive,
    h.fired_out, h.cleared_out⟩

theorem Inv.clear (h : Inv s) {t : Nat} (halive : s.manager.heap t ≠ none)
    (hset : t ∉ s.manager.timers)
    (hhand : ∀ (u : Nat) pc, s.threads[u]? = some pc → s.putsBack t pc = false) :
    Inv { s with cleared := t :: s.cleared } where
  sorted := h.sorted
  set_alive := h.set_alive
  hand_alive := h.hand_alive
  hand_out := h.hand_out
  hand_one := h.hand_one
  hand_nodup := h.hand_nodup
  gone_alive := fun u hu => by
    rcases hu with hu | hu
    · rcases List.mem_cons.mp hu with rfl | hu
      · exact halive
      · exact h.gone_alive u (Or.inl hu)
    · exact h.gone_alive u (Or.inr hu)
  fired_out := h.fired_out
  cleared_out := fun u hu => by
    rcases List.mem_cons.mp hu with rfl | hu
    · exact ⟨hset, hhand⟩
    · exact h.cleared_out u hu

theorem Inv.fire (h : Inv s) {ts : List Nat}
    (hts : ∀ t ∈ ts, s.manager.heap t ≠ none ∧ (s.recurring t = false → t ∉ s.manager.timers ∧
      ∀ (u : Nat) pc, s.threads[u]? = some pc → t ∉ pc.holds)) :
    Inv { s with fired := ts ++ s.fired } where
  sorted := h.sorted
  set_alive := h.set_alive
  hand_alive := h.hand_alive
  hand_out := h.hand_out
  hand_one := h.hand_one
  hand_nodup := h.hand_nodup
  gone_alive := fun t ht => by
    rcases ht with ht | ht
    · exact h.gone_alive t (Or.inl ht)
    · rcases List.mem_append.mp ht with ht | ht
      · exact (hts t ht).1
      · exact h.gone_alive t (Or.inr ht)
  fired_out := fun t ht hrec => by
    rcases List.mem_append.mp ht with ht | ht
    · exact (hts t ht).2 hrec
    · exact h.fired_out t ht hrec
  cleared_out := h.cleared_out

/-- A section that leaves the timers alone, for a thread that holds none afterwards. -/
theorem Inv.moves_stay (h : Inv s) (hpc' : pc'.holds = []) : Moves s pc pc' s.manager where
  sorted := h.sorted
  kept := s.manager.keeps_refl
  set_from := fun _ ht => Or.inl ht
  hand_from := fun t ht => by
    rw [hpc'] at ht
    cases ht
  hand_nodup := by
    rw [hpc']
    exact List.nodup_nil

theorem Inv.moves_newTimer (h : Inv s) {addr : Nat} (hnew : s.manager.heap addr = none) (ms : UInt64)
    (cb : Option Nat) (recurring : Bool) (now : UInt64) :
    Moves s pc (.insert addr) (s.manager.newTimer addr ms cb recurring now) := by
  have hout : addr ∉ s.manager.timers := fun hmem => h.set_alive addr hmem hnew
  refine ⟨h.sorted.setTimer (Or.inl hout), ?_, fun _ ht => Or.inl ht, ?_, List.nodup_singleton _⟩
  · refine TimerManager.keeps_setTimer fun old hold => ?_
    rw [hnew] at hold
    cases hold
  · intro t ht
    obtain rfl := List.mem_singleton.mp ht
    refine ⟨Or.inr hnew, ?_, hout⟩
    rw [TimerManager.newTimer, TimerManager.heap_setTimer, if_pos rfl]
    exact Option.some_ne_none _

theorem Inv.moves_addTimer (h : Inv s) (t : Nat) (hpc' : pc'.holds = []) :
    Moves s (.insert t) pc' (s.manager.addTimer t).1 where
  sorted := h.sorted.insert t
  kept := s.manager.keeps_refl
  set_from := fun u hu => by
    rcases TimerManager.mem_insert.mp hu with rfl | hu
    · exact Or.inr (by simp [State.putsBack])
    · exact Or.inl hu
  hand_from := fun u hu => by
    rw [hpc'] at hu
    cases hu
  hand_nodup := by
    rw [hpc']
    exact List.nodup_nil

/-- `cancel` takes the timer out of the set, if it is there. -/
theorem Inv.moves_cancel (h : Inv s) (t : Nat) (hpc' : pc'.holds = []) :
    Moves s pc pc' (s.manager.cancel t).1 ∧
      ((s.manager.heap t).any (·.cb.isSome) = true →
        s.manager.heap t ≠ none ∧ t ∉ (s.manager.cancel t).1.timers) := by
  rcases TimerManager.cancel_cases h.sorted t with ⟨hsame, hcb⟩ | ⟨timer, htimer, -, hcancel⟩
  · rw [hsame]
    refine ⟨h.moves_stay hpc', fun hcb' => ?_⟩
    rw [hcb] at hcb'
    cases hcb'
  have hkeep : s.manager.Keeps (s.manager.setTimer t { timer with cb := none }) :=
    TimerManager.keeps_setTimer fun old hold => by
      rw [htimer] at hold
      rw [← Option.some.inj hold]
  have hsorted : (s.manager.setTimer t { timer with cb := none }).Sorted :=
    h.sorted.setTimer (Or.inr (TimerManager.next_of_heap htimer).symm)
  have hnone : ∀ u ∈ pc'.holds, False := fun u hu => by
    rw [hpc'] at hu
    cases hu
  have hnodup : pc'.holds.Nodup := by
    rw [hpc']
    exact List.nodup_nil
  rw [hcancel]
  by_cases hmem : t ∈ s.manager.timers
  · have herase := fun u => TimerManager.mem_erase (u := u) hsorted (t := t) hmem
    rw [if_pos hmem]
    refine ⟨⟨hsorted.erase t, hkeep, fun u hu => Or.inl ((herase u).mp hu).1,
      fun u hu => (hnone u hu).elim, hnodup⟩, fun _ => ⟨by rw [htimer]; simp, fun hin => ?_⟩⟩
    exact ((herase t).mp hin).2 rfl
  · rw [if_neg hmem]
    exact ⟨⟨hsorted, hkeep, fun u hu => Or.inl hu, fun u hu => (hnone u hu).elim, hnodup⟩,
      fun _ => ⟨by rw [htimer]; simp, hmem⟩⟩

theorem Inv.moves_refresh (h : Inv s) (t : Nat) (now : UInt64) (hpc' : pc'.holds = []) :
    Moves s pc pc' (s.manager.refresh t now).1 := by
  rcases TimerManager.refresh_cases h.sorted t now with hsame | ⟨timer, htimer, hmem, hrefresh⟩
  · rw [hsame]
    exact h.moves_stay hpc'
  rw [hrefresh]
  have hout : t ∉ (s.manager.erase t).timers :=
    fun hin => ((TimerManager.mem_erase h.sorted hmem).mp hin).2 rfl
  refine ⟨TimerManager.sorted_setTimer_insert (h.sorted.erase t) hout _, ?_, ?_, ?_, ?_⟩
  · exact TimerManager.keeps_setTimer (m := s.manager.erase t) fun old hold => by
      rw [TimerManager.heap_erase, htimer] at hold
      rw [← Option.some.inj hold]
  · intro u hu
    rcases TimerManager.mem_insert.mp hu with rfl | hu
    · exact Or.inl hmem
    · exact Or.inl ((TimerManager.mem_erase h.sorted hmem).mp hu).1
  · intro u hu
    rw [hpc'] at hu
    cases hu
  · rw [hpc']
    exact List.nodup_nil

theorem Inv.moves_reset (h : Inv s) (t : Nat) (ms : UInt64) (fromNow : Bool) (now : UInt64) :
    Moves s pc (if (s.manager.reset t ms fromNow now).2 then .insert t else .out)
      (s.manager.reset t ms fromNow now).1 := by
  rcases TimerManager.reset_cases h.sorted t ms fromNow now with
    hsame | ⟨timer, next, htimer, hmem, hreset⟩
  · rw [hsame]
    exact h.moves_stay rfl
  rw [hreset]
  refine ⟨TimerManager.sorted_erase_setTimer h.sorted hmem _, ?_, ?_, ?_, List.nodup_singleton t⟩
  · exact TimerManager.keeps_setTimer (m := s.manager.erase t) fun old hold => by
      rw [TimerManager.heap_erase, htimer] at hold
      rw [← Option.some.inj hold]
  · intro u hu
    exact Or.inl ((TimerManager.mem_erase h.sorted hmem).mp hu).1
  · intro u hu
    obtain rfl := List.mem_singleton.mp hu
    refine ⟨Or.inl hmem, ?_, fun hin => ((TimerManager.mem_erase h.sorted hmem).mp hin).2 rfl⟩
    rw [TimerManager.heap_setTimer, if_pos rfl]
    exact Option.some_ne_none _

theorem Inv.moves_getNextTimer (h : Inv s) (now : UInt64) (hpc' : pc'.holds = []) :
    Moves s pc pc' (s.manager.getNextTimer now).1 := by
  rw [TimerManager.getNextTimer_fst]
  have hstay : Moves s pc pc' s.manager := h.moves_stay hpc'
  obtain ⟨hsorted, hkept, hset, hhand, hnodup⟩ := hstay
  exact ⟨hsorted, hkept, hset, hhand, hnodup⟩

theorem Inv.moves_takeExpired (h : Inv s) (now : UInt64) (addr : Nat) :
    Moves s pc (.putBack (s.manager.takeExpired now addr).2 now)
      (s.manager.takeExpired now addr).1 := by
  have hnodup : s.manager.timers.Nodup := StdSet.Sorted.nodup s.manager.isOrder_less h.sorted
  rw [← TimerManager.takeExpired_append now addr, List.nodup_append] at hnodup
  obtain ⟨hexpired, -, hdisjoint⟩ := hnodup
  have hmem : ∀ t, t ∈ (s.manager.takeExpired now addr).2 ∨
      t ∈ (s.manager.takeExpired now addr).1.timers → t ∈ s.manager.timers := by
    intro t ht
    rw [← TimerManager.takeExpired_append now addr, List.mem_append]
    exact ht
  refine ⟨TimerManager.sorted_takeExpired h.sorted now addr, s.manager.keeps_refl, ?_, ?_, hexpired⟩
  · exact fun t ht => Or.inl (hmem t (Or.inr ht))
  · intro t ht
    have hset := hmem t (Or.inl ht)
    exact ⟨Or.inl hset, h.set_alive t hset, fun hin => hdisjoint t ht t hin rfl⟩

theorem Inv.moves_putBack (h : Inv s) {expired : List Nat} {cur : UInt64}
    (hpc : s.threads[tid]? = some (.putBack expired cur)) :
    Moves s (.putBack expired cur) .out (s.manager.putBack cur expired).1 ∧
      ∀ t ∈ expired, s.recurring t = false → t ∉ (s.manager.putBack cur expired).1.timers := by
  obtain ⟨hsorted, hkeeps, hmem⟩ := TimerManager.putBack_spec cur expired s.manager h.sorted
    (h.hand_nodup tid _ hpc)
    (fun t ht => ⟨h.hand_out tid _ hpc t ht, h.hand_alive tid _ hpc t ht⟩)
  refine ⟨⟨hsorted, hkeeps, ?_, fun t ht => absurd ht List.not_mem_nil, List.nodup_nil⟩, ?_⟩
  · intro t ht
    rcases (hmem t).mp ht with hset | ⟨hexpired, hrec⟩
    · exact Or.inl hset
    · refine Or.inr ?_
      rw [State.putsBack, State.recurring, hrec, List.contains_iff_mem.mpr hexpired]
      rfl
  · intro t ht hrec hin
    rcases (hmem t).mp hin with hset | ⟨-, hrec'⟩
    · exact h.hand_out tid _ hpc t ht hset
    · rw [State.recurring, hrec'] at hrec
      cases hrec

/-- One step of a thread. -/
theorem inv_move (h : Inv s) (hpc : s.threads[tid]? = some pc) {now : UInt64} {addr : Nat}
    (hsettled : CancelsSettled s (.move tid now addr)) {t : State}
    (hmove : s.move tid now addr pc = some t) : Inv t := by
  cases pc with
  | out => cases hmove
  | construct ms cb recurring =>
      simp only [State.move] at hmove
      split at hmove
      · cases hmove
      · rename_i hnew
        obtain rfl := Option.some.inj hmove
        exact h.leave hpc (h.moves_newTimer (by simpa using hnew) ms cb recurring now)
  | insert u =>
      simp only [State.move, Option.some.injEq] at hmove
      subst hmove
      refine Inv.withKnown (h.leave hpc (h.moves_addTimer u ?_)) _
      split <;> rfl
  | front u =>
      obtain rfl := Option.some.inj hmove
      exact Inv.withKnown (h.leave hpc (h.moves_stay rfl)) _
  | cancel u =>
      obtain ⟨hmoves, hcleared⟩ :=
        (h.moves_cancel u rfl : Moves s (.cancel u) .out (s.manager.cancel u).1 ∧ _)
      have hleave := h.leave hpc hmoves
      obtain rfl := Option.some.inj hmove
      by_cases hcb : (s.manager.heap u).any (·.cb.isSome) = true
      · obtain ⟨halive, hset⟩ := hcleared hcb
        have hclear := hleave.clear (t := u) (hmoves.alive halive) hset ?_
        · simp only [hcb, if_true]
          exact hclear
        -- the threads that could put the timer back are those that `CancelsSettled` speaks of
        intro w pc₁ hw
        rcases threads_set hpc hw with ⟨-, rfl⟩ | ⟨-, hw⟩
        · rfl
        · have hback := hsettled u (by rw [State.clearing, hpc]; simp [hcb]) pc₁
            (List.mem_of_getElem? hw)
          have hrec : (s.leave tid (s.manager.cancel u).1 .out).recurring u = s.recurring u :=
            hmoves.recurring halive
          cases pc₁ with
          | putBack expired cur => rwa [State.putsBack, hrec]
          | _ => exact hback
      · simp only [hcb]
        exact hleave
  | refresh u =>
      obtain rfl := Option.some.inj hmove
      exact h.leave hpc (h.moves_refresh u now rfl)
  | reset u ms fromNow =>
      obtain rfl := Option.some.inj hmove
      exact h.leave hpc (h.moves_reset u ms fromNow now)
  | getNextTimer =>
      obtain rfl := Option.some.inj hmove
      exact h.leave hpc (h.moves_getNextTimer now rfl)
  | expire =>
      simp only [State.move] at hmove
      split at hmove
      · cases hmove
      · split at hmove
        · obtain rfl := Option.some.inj hmove
          exact h.leave hpc (h.moves_stay rfl)
        · obtain rfl := Option.some.inj hmove
          exact h.leave hpc (h.moves_takeExpired now addr)
  | putBack expired cur =>
      obtain ⟨hmoves, hshot⟩ := h.moves_putBack hpc
      have hleave := h.leave hpc hmoves
      obtain rfl := Option.some.inj hmove
      refine Inv.fire hleave fun u hu => ?_
      have halive := h.hand_alive tid _ hpc u hu
      refine ⟨hmoves.alive halive, fun hrec => ?_⟩
      have hrec : s.recurring u = false := (hmoves.recurring halive).symm.trans hrec
      refine ⟨hshot u hu hrec, fun w pc₁ hw hheld => ?_⟩
      rcases threads_set hpc hw with ⟨-, rfl⟩ | ⟨hne, hw⟩
      · cases hheld
      · exact hne (h.hand_one w tid pc₁ _ hw hpc u hheld hu)

theorem inv_step {l : Label} {t : State} (h : Inv s) (hsettled : CancelsSettled s l)
    (hstep : step s l = some t) : Inv t := by
  cases l with
  | call tid c =>
      simp only [step] at hstep
      split at hstep
      · rename_i hcond
        obtain rfl := Option.some.inj hstep
        exact h.leave hcond.1 (h.moves_stay (by cases c <;> rfl))
      · cases hstep
  | move tid now addr =>
      simp only [step] at hstep
      split at hstep
      · rename_i pc hpc
        exact inv_move h hpc hsettled hstep
      · cases hstep

/-- In a state with the invariant, a cleared timer is not in the set, and neither is a one-shot one
that has fired. -/
theorem Inv.gone (h : Inv s) : Gone s where
  cleared_gone := fun t ht => (h.cleared_out t ht).1
  all_gone := fun hall => by
    have hempty : s.manager.timers = [] := by
      refine List.eq_nil_iff_forall_not_mem.mpr fun t ht => ?_
      rcases hall t (h.set_alive t ht) with hclear | ⟨hrec, hfired⟩
      · exact (h.cleared_out t hclear).1 ht
      · exact (h.fired_out t hfired hrec).1 ht
    constructor
    · rw [TimerManager.hasTimer, hempty]
      rfl
    · intro now
      rw [TimerManager.getNextTimer]
      simp only [hempty]

/-- In every run in which no `cancel` clears the callback of a timer on its way back into the set, a
cancelled timer is gone whenever no operation is in progress. -/
theorem gone_of_run (threads : Nat) (ls : List Label)
    (h : StepsMeet step CancelsSettled (init threads) ls) :
    StatesMeet step (fun s => s.Quiet → Gone s) (init threads) ls :=
  statesMeet_of_invariant (I := Inv) (P := fun s => s.Quiet → Gone s) (fun _ hinv _ => hinv.gone)
    (fun _ _ _ hinv hsettled hstep => inv_step hinv hsettled hstep) ls _ (inv_init threads) h

/-- A recurring timer fires, is put back and is cancelled; a one-shot timer is reset and fires. -/
theorem gone_of_settled :
    StatesMeet step (fun s => s.Quiet → Gone s) (init 2)
      [.call 0 (.addTimer 10 (some 0) true), .move 0 0 7, .move 0 0 0, .move 0 0 0,
        .call 1 .listExpiredCb, .move 1 10 9, .move 1 10 0, .call 0 (.cancel 7), .move 0 0 0,
        .call 0 (.addTimer 5 (some 1) false), .move 0 20 8, .move 0 0 0,
        .call 1 (.reset 8 30 true), .move 1 21 0, .move 1 0 0, .call 1 .listExpiredCb, .move 1 60 9,
        .move 1 60 0] :=
  gone_of_run 2 _ (by decide)

/-- A recurring timer is cancelled between the two sections of `listExpiredCb`. -/
def cancelInGap : List Label :=
  [.call 0 (.addTimer 10 (some 0) true), .move 0 0 7, .move 0 0 0, .move 0 0 0,
    .call 1 .listExpiredCb, .move 1 10 9, .call 0 (.cancel 7), .move 0 0 0, .move 1 10 0]

/-- No operation is in progress, and the set has the cancelled timer. -/
theorem cancelInGap_not_gone :
    ¬ StatesMeet step (fun s => s.Quiet → Gone s) (init 2) cancelInGap := by
  intro h
  have hlast := statesMeet_run _ _ ((run step (init 2) cancelInGap).get (by decide)) h
    (Option.some_get _).symm (by decide)
  exact absurd (hlast.cleared_gone 7 (by decide)) (by decide)

end Timers

end Saturn
