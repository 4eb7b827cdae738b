import Mathlib.Logic.Function.Basic
import Saturn.Misc.StdSet

/-!
# `TimerManager`

The timers of `saturn/timer.cc` and the set `m_timers`, ordered by deadline and then by address.
A `Timer*` is the address of a timer in `heap`. Each function here is one section under the lock
`m_mutex` (`getNextTimer` holds it shared), and `now` is what `getCurrentTime` returns in it;
milliseconds are `uint64_t`. `listExpiredCb` and `reset` have two sections.
-/

namespace Saturn

/-- The fields of `Timer`; `cb` is `none` for an empty `std::function`. -/
structure Timer where
  recurring : Bool
  ms : UInt64
  next : UInt64
  cb : Option Nat
  deriving DecidableEq, Repr

/-- `TimerManager`, with the timers that exist. -/
structure TimerManager where
  heap : Nat → Option Timer
  timers : List Nat
  tickled : Bool

/-- The comparison of two deadlines, each with its timer's address. -/
def keyLess (lhs rhs : UInt64 × Nat) : Bool :=
  if lhs.1 < rhs.1 then true
  else if rhs.1 < lhs.1 then false
  else decide (lhs.2 < rhs.2)

theorem keyLess_iff (lhs rhs : UInt64 × Nat) :
    keyLess lhs rhs = true ↔
      lhs.1.toNat < rhs.1.toNat ∨ lhs.1.toNat = rhs.1.toNat ∧ lhs.2 < rhs.2 := by
  rw [keyLess]
  simp only [UInt64.lt_iff_toNat_lt]
  split
  · rename_i hlt
    exact iff_of_true rfl (Or.inl hlt)
  · split
    · simp only [Bool.false_eq_true, false_iff]
      omega
    · simp only [decide_eq_true_eq]
      omega

namespace TimerManager

/-- `TimerManager::TimerManager()`. -/
def init : TimerManager := ⟨fun _ => none, [], false⟩

/-- Timer `t` changes. -/
def setTimer (m : TimerManager) (t : Nat) (timer : Timer) : TimerManager :=
  { m with heap := Function.update m.heap t (some timer) }

/-- `m_next` of the timer at `t`. -/
def next (m : TimerManager) (t : Nat) : UInt64 := ((m.heap t).map Timer.next).getD 0

/-- `Timer::Comparator`. -/
def less (m : TimerManager) (lhs rhs : Nat) : Bool := keyLess (m.next lhs, lhs) (m.next rhs, rhs)

/-- `new Timer(ms, cb, recurring, this)`, at the address `t`. -/
def newTimer (m : TimerManager) (t : Nat) (ms : UInt64) (cb : Option Nat) (recurring : Bool)
    (now : UInt64) : TimerManager :=
  m.setTimer t ⟨recurring, ms, now + ms, cb⟩

/-- `m_timers.insert(t)`. -/
def insert (m : TimerManager) (t : Nat) : TimerManager :=
  { m with timers := StdSet.insert m.less t m.timers }

/-- `m_timers.find(t)` -/
def find (m : TimerManager) (t : Nat) : Option Nat := StdSet.find m.less t m.timers

/-- `m_timers.erase(m_timers.find(t))`. -/
def erase (m : TimerManager) (t : Nat) : TimerManager :=
  { m with timers := StdSet.erase m.less t m.timers }

/-- The section of `addTimer(t)`, with whether it goes on to `onTimerInsertedAtFront`. -/
def addTimer (m : TimerManager) (t : Nat) : TimerManager × Bool :=
  let isFront := StdSet.isFront m.less t m.timers && !m.tickled
  ({ m.insert t with tickled := if isFront then true else m.tickled }, isFront)

/-- `Timer::cancel`. -/
def cancel (m : TimerManager) (t : Nat) : TimerManager × Bool :=
  match m.heap t with
  | none => (m, false)
  | some timer =>
      if timer.cb.isSome then
        let m := m.setTimer t { timer with cb := none }
        match m.find t with
        | none => (m, false)
        | some _ => (m.erase t, true)
      else (m, false)

/-- `Timer::refresh`. -/
def refresh (m : TimerManager) (t : Nat) (now : UInt64) : TimerManager × Bool :=
  match m.heap t with
  | none => (m, false)
  | some timer =>
      if timer.cb.isNone then (m, false)
      else
        match m.find t with
        | none => (m, false)
        | some _ => (((m.erase t).setTimer t { timer with next := now + timer.ms }).insert t, true)

/-- The first section of `Timer::reset`, with whether it goes on to `addTimer`. A reset from now
counts the old period. -/
def reset (m : TimerManager) (t : Nat) (ms : UInt64) (fromNow : Bool) (now : UInt64) :
    TimerManager × Bool :=
  match m.heap t with
  | none => (m, false)
  | some timer =>
      if timer.cb.isNone then (m, false)
      else
        match m.find t with
        | none => (m, false)
        | some _ =>
            let next := if fromNow then now + timer.ms else timer.next - timer.ms + ms
            ((m.erase t).setTimer t { timer with next := next, ms := ms }, true)

/-- `getNextTimer`, with the milliseconds it returns. -/
def getNextTimer (m : TimerManager) (now : UInt64) : TimerManager × UInt64 :=
  let m := { m with tickled := false }
  match m.timers with
  | [] => (m, ~~~0)
  | it :: _ => (m, if now < m.next it then m.next it - now else 0)

/-- `hasTimer` -/
def hasTimer (m : TimerManager) : Bool := !m.timers.isEmpty

/-- The first section of `listExpiredCb`, unless `m_timers` is empty: what it takes out. The timer
that it makes for the current time is at the address `cur`. -/
def takeExpired (m : TimerManager) (now : UInt64) (cur : Nat) : TimerManager × List Nat :=
  let after := fun t => keyLess (now, cur) (m.next t, t)
  ({ m with timers := StdSet.above after m.timers }, StdSet.below after m.timers)

/-- The loop of the second section of `listExpiredCb` over what was taken out, with what it pushes
to `cbs`; `cur` is `cur->m_next`. -/
def putBack (m : TimerManager) (cur : UInt64) : List Nat → TimerManager × List (Option Nat)
  | [] => (m, [])
  | ex :: expired =>
      match m.heap ex with
      | none => m.putBack cur expired
      | some timer =>
          let m := if timer.recurring then
              (m.setTimer ex { timer with next := cur + timer.ms }).insert ex
            else m
          let (m, cbs) := m.putBack cur expired
          (m, timer.cb :: cbs)

section Lemmas

variable {m : TimerManager}

theorem isOrder_less (m : TimerManager) : StdSet.IsOrder m.less where
  irrefl := fun a => by
    rw [← Bool.not_eq_true, less, keyLess_iff]
    simp only
    omega
  trans := fun a b c => by
    simp only [less, keyLess_iff]
    omega
  total := fun a b => by
    rw [← Bool.not_eq_true, ← Bool.not_eq_true, less, less, keyLess_iff, keyLess_iff]
    simp only
    omega

/-- The set stands in the order of its comparator. -/
def Sorted (m : TimerManager) : Prop := StdSet.Sorted m.less m.timers

theorem find_eq (h : m.Sorted) (t : Nat) : m.find t = if t ∈ m.timers then some t else none :=
  StdSet.find_eq m.isOrder_less h

theorem next_setTimer (t : Nat) (timer : Timer) (u : Nat) :
    (m.setTimer t timer).next u = if u = t then timer.next else m.next u := by
  simp only [next, setTimer, Function.update_apply]
  split <;> rfl

/-- Two timers compare as before where neither deadline changes. -/
theorem less_setTimer {t : Nat} {timer : Timer} {a b : Nat}
    (ha : a ≠ t ∨ timer.next = m.next t) (hb : b ≠ t ∨ timer.next = m.next t) :
    (m.setTimer t timer).less a b = m.less a b := by
  have hnext : ∀ u, u ≠ t ∨ timer.next = m.next t → (m.setTimer t timer).next u = m.next u := by
    intro u hu
    rw [next_setTimer]
    split
    · rename_i heq
      subst heq
      exact hu.resolve_left fun hne => hne rfl
    · rfl
  rw [less, less, hnext a ha, hnext b hb]

/-- A timer outside the set may change, and one inside may change except for its deadline. -/
theorem Sorted.setTimer (h : m.Sorted) {t : Nat} {timer : Timer}
    (ht : t ∉ m.timers ∨ timer.next = m.next t) : (m.setTimer t timer).Sorted := by
  refine StdSet.Sorted.congr h fun x hx y hy => less_setTimer ?_ ?_
  · exact ht.imp_left fun hout hxt => hout (hxt ▸ hx)
  · exact ht.imp_left fun hout hyt => hout (hyt ▸ hy)

theorem Sorted.insert (h : m.Sorted) (t : Nat) : (m.insert t).Sorted :=
  StdSet.sorted_insert m.isOrder_less t h

theorem mem_insert {t u : Nat} : u ∈ (m.insert t).timers ↔ u = t ∨ u ∈ m.timers :=
  StdSet.mem_insert m.isOrder_less

theorem Sorted.erase (h : m.Sorted) (t : Nat) : (m.erase t).Sorted :=
  StdSet.Sorted.sublist h (StdSet.erase_sublist t m.timers)

theorem mem_erase (h : m.Sorted) {t u : Nat} (ht : t ∈ m.timers) :
    u ∈ (m.erase t).timers ↔ u ∈ m.timers ∧ u ≠ t :=
  StdSet.mem_erase m.isOrder_less h ht

end Lemmas

end TimerManager

end Saturn
