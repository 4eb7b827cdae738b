import Saturn.Timer.Expiry

/-!
# The period of a timer

`Timer` does not store when its period began; `reset` takes `m_next - m_ms` for it. A reset from now
counts the old `m_ms` into the deadline and stores the new one, and the two no longer fit.
-/

namespace Saturn

namespace TimerManager

/-- `Timer::reset` with its `addTimer` right behind: the timers, and whether it goes on to
`onTimerInsertedAtFront`. -/
def resetAndAdd (m : TimerManager) (t : Nat) (ms : UInt64) (fromNow : Bool) (now : UInt64) :
    TimerManager × Bool :=
  match m.reset t ms fromNow now with
  | (m, true) => m.addTimer t
  | (m, false) => (m, false)

/-- With the result `r`, `t` is in the set once, `ms` behind the start of its period, or behind `now`,
and goes on every `ms` from its next expiry on; if it became the first, that is signalled. -/
structure Reschedules (m : TimerManager) (start : UInt64) (t : Nat) (ms : UInt64) (fromNow : Bool)
    (now : UInt64) (r : TimerManager × Bool) : Prop where
  deadline : r.1.next t = (if fromNow then now else start) + ms
  once : r.1.timers.count t = 1
  period : (r.1.heap t).map Timer.ms = some ms
  rearms : m.recurring t = true → ∀ now' cur, r.1.next t < now' →
    t ∈ (r.1.listExpiredCb now' cur).1.timers ∧ (r.1.listExpiredCb now' cur).1.next t = now' + ms
  signalled : r.1.timers.head? = some t → m.tickled = false → r.2 = true

section Reset

variable {m : TimerManager} {t : Nat} {timer : Timer}

/-- The timer as a reset leaves it. -/
def resetTimer (timer : Timer) (ms : UInt64) (fromNow : Bool) (now : UInt64) : Timer :=
  { timer with
    next := if fromNow then now + timer.ms else timer.next - timer.ms + ms
    ms := ms }

theorem resetAndAdd_eq (h : m.Sorted) (htimer : m.heap t = some timer) (hcb : timer.cb ≠ none)
    (ht : t ∈ m.timers) (ms : UInt64) (fromNow : Bool) (now : UInt64) :
    m.resetAndAdd t ms fromNow now =
      ((m.erase t).setTimer t (resetTimer timer ms fromNow now)).addTimer t := by
  rw [resetAndAdd, reset_of_mem h htimer hcb ht]
  rfl

theorem addTimer_signals {t : Nat} (h : (m.addTimer t).1.timers.head? = some t)
    (hout : t ∉ m.timers) (htickled : m.tickled = false) : (m.addTimer t).2 = true := by
  have hset : (m.addTimer t).1.timers = StdSet.insert m.less t m.timers := rfl
  have hfront : (m.addTimer t).2 = (StdSet.isFront m.less t m.timers && !m.tickled) := rfl
  rw [hset] at h
  rw [hfront, htickled, Bool.not_false, Bool.and_true]
  cases htimers : m.timers with
  | nil => rfl
  | cons x l =>
      rw [htimers] at h hout
      cases hless : m.less x t with
      | true =>
          rw [StdSet.insert, if_pos hless, List.head?_cons] at h
          exact absurd (Option.some.inj h ▸ List.mem_cons_self) hout
      | false => rw [StdSet.isFront, hless, Bool.not_false]

theorem addTimer_alive (h : (m.insert t).Alive) : (m.addTimer t).1.Alive := ⟨h.sorted, h.alive⟩

/-- A recurring timer of the set that is overdue goes on a period behind the expiry. -/
theorem next_of_expiry (h : m.Alive) (htimer : m.heap t = some timer) (ht : t ∈ m.timers)
    (hrec : timer.recurring = true) {now : UInt64} (hdue : timer.next < now) (cur : Nat) :
    t ∈ (m.listExpiredCb now cur).1.timers ∧
      (m.listExpiredCb now cur).1.next t = now + timer.ms := by
  obtain ⟨-, -, -, -, hset, hheap⟩ := listExpiredCb_spec h now cur
  have hnext : m.next t = timer.next := next_of_heap htimer
  have htaken : t ∈ (m.takeExpired now cur).2 := by
    refine (mem_taken h.sorted now cur t).mpr ⟨ht, ?_⟩
    rw [hnext, UInt64.le_iff_toNat_le, ← UInt64.toNat_inj]
    rw [UInt64.lt_iff_toNat_lt] at hdue
    omega
  have hrearm : rearm now timer = { timer with next := now + timer.ms } := if_pos hrec
  refine ⟨(hset t).mpr ⟨ht, fun _ => by rw [recurring, htimer, Option.any_some, hrec]⟩, ?_⟩
  rw [next, hheap, if_pos htaken, htimer, Option.map_some, hrearm]
  rfl

/-- What a reset of a timer in the set comes to, whatever the start of its period. -/
theorem reschedules_iff (h : m.Alive) (htimer : m.heap t = some timer) (hcb : timer.cb ≠ none)
    (ht : t ∈ m.timers) (start ms : UInt64) (fromNow : Bool) (now : UInt64) :
    m.Reschedules start t ms fromNow now (m.resetAndAdd t ms fromNow now) ↔
      (resetTimer timer ms fromNow now).next = (if fromNow then now else start) + ms := by
  have hout : t ∉ (m.erase t).timers := fun hin => ((mem_erase h.sorted ht).mp hin).2 rfl
  have hsorted := sorted_setTimer_insert (h.sorted.erase t) hout (resetTimer timer ms fromNow now)
  have hheap : ((m.erase t).setTimer t (resetTimer timer ms fromNow now)).heap t =
      some (resetTimer timer ms fromNow now) := by
    rw [heap_setTimer, if_pos rfl]
  have hnext : (m.resetAndAdd t ms fromNow now).1.next t = (resetTimer timer ms fromNow now).next := by
    rw [resetAndAdd_eq h.sorted htimer hcb ht]
    exact next_of_heap hheap
  constructor
  · intro hres
    rw [← hnext]
    exact hres.deadline
  · intro hdeadline
    refine ⟨hnext.trans hdeadline, ?_, ?_, ?_, ?_⟩
    · rw [resetAndAdd_eq h.sorted htimer hcb ht]
      exact List.count_eq_one_of_mem (StdSet.Sorted.nodup (isOrder_less _) hsorted)
        (mem_insert.mpr (Or.inl rfl))
    · rw [resetAndAdd_eq h.sorted htimer hcb ht, heap_addTimer, hheap]
      rfl
    · intro hrec now' cur hdue
      rw [hnext] at hdue
      have halive : (((m.erase t).setTimer t (resetTimer timer ms fromNow now)).insert t).Alive := by
        refine ⟨hsorted, fun u hu => ?_⟩
        rw [heap_insert, heap_setTimer]
        split
        · exact Option.some_ne_none _
        · rename_i hut
          exact h.alive u (mem_of_mem_erase ((mem_insert.mp hu).resolve_left hut))
      rw [recurring, htimer, Option.any_some] at hrec
      rw [resetAndAdd_eq h.sorted htimer hcb ht]
      exact next_of_expiry (addTimer_alive halive) hheap (mem_insert.mpr (Or.inl rfl)) hrec hdue cur
    · rw [resetAndAdd_eq h.sorted htimer hcb ht]
      exact fun hhead htickled => addTimer_signals hhead hout htickled

end Reset

/-! ## The start of a period -/

section Fits

variable {m : TimerManager} {start : Nat → UInt64} {t : Nat} {timer : Timer} {now : UInt64}

/-- Every deadline is the timer's period behind its start. -/
def Fits (m : TimerManager) (start : Nat → UInt64) : Prop :=
  ∀ t timer, m.heap t = some timer → timer.next = start t + timer.ms

theorem Fits.setTimer (h : m.Fits start) (hnew : timer.next = now + timer.ms) :
    (m.setTimer t timer).Fits (Function.update start t now) := by
  intro u new hu
  rw [heap_setTimer] at hu
  rw [Function.update_apply]
  split at hu
  · rename_i hut
    obtain rfl := Option.some.inj hu
    rw [if_pos hut, hnew]
  · rename_i hut
    rw [if_neg hut]
    exact h u new hu

/-- A timer changes, and the start of its period does not. -/
theorem Fits.setTimer_same (h : m.Fits start) (hnew : timer.next = start t + timer.ms) :
    (m.setTimer t timer).Fits start := by
  have hupdate := h.setTimer (t := t) hnew
  rw [Function.update_eq_self] at hupdate
  exact hupdate

theorem Fits.cancel (h : m.Fits start) (hsorted : m.Sorted) (t : Nat) : (m.cancel t).1.Fits start := by
  rcases cancel_cases hsorted t with ⟨heq, -⟩ | ⟨timer, htimer, -, heq⟩
  · rw [heq]
    exact h
  · have hsame : (m.setTimer t { timer with cb := none }).Fits start :=
      h.setTimer_same (h t timer htimer)
    rw [heq]
    split
    · exact hsame
    · exact hsame

theorem Fits.refresh (h : m.Fits start) (hsorted : m.Sorted) (t : Nat) (now : UInt64) :
    (m.refresh t now).1.Fits
      (if (m.refresh t now).2 then Function.update start t now else start) := by
  rcases refresh_eq hsorted t now with heq | ⟨timer, htimer, -, heq⟩
  · rw [heq]
    exact h
  · rw [heq]
    exact Fits.setTimer (m := m.erase t) h rfl

/-- A reset keeps the deadline fitting if it is not from now, or the period is the old one. -/
theorem Fits.reset (h : m.Fits start) (hsorted : m.Sorted) {t : Nat} {ms : UInt64} {fromNow : Bool}
    (hkeeps : (m.reset t ms fromNow now).2 = true → fromNow = true →
      (m.heap t).map Timer.ms = some ms) :
    (m.reset t ms fromNow now).1.Fits
      (if (m.reset t ms fromNow now).2 && fromNow then Function.update start t now else start) := by
  rcases reset_eq hsorted t ms fromNow now with heq | ⟨timer, htimer, hcb, hmem⟩
  · rw [heq]
    exact h
  · rw [reset_of_mem hsorted htimer hcb hmem] at hkeeps ⊢
    cases fromNow with
    | true =>
        have hms := hkeeps rfl rfl
        rw [htimer, Option.map_some, Option.some.injEq] at hms
        subst hms
        exact Fits.setTimer (m := m.erase t) h rfl
    | false =>
        refine Fits.setTimer_same (m := m.erase t) h ?_
        show timer.next - timer.ms + ms = start t + ms
        rw [h t timer htimer, UInt64.add_sub_cancel]

/-- The recurring timers among the expired begin a period when they expire. -/
theorem Fits.putBack (h : m.Fits start) {cur : UInt64} {expired : List Nat} (hnodup : expired.Nodup)
    (halive : ∀ t ∈ expired, m.heap t ≠ none) :
    (m.putBack cur expired).1.Fits
      fun t => if t ∈ expired ∧ m.recurring t = true then cur else start t := by
  obtain ⟨-, hheap⟩ := putBack_fires cur expired m hnodup halive
  intro u new hu
  show new.next = (if u ∈ expired ∧ m.recurring u = true then cur else start u) + new.ms
  rw [hheap] at hu
  split at hu
  · rename_i hmem
    obtain ⟨timer, htimer, rfl⟩ := Option.map_eq_some_iff.mp hu
    have hrecurring : m.recurring u = timer.recurring := by rw [recurring, htimer, Option.any_some]
    rw [rearm, hrecurring]
    cases hrec : timer.recurring with
    | true =>
        rw [if_pos rfl, if_pos ⟨hmem, rfl⟩]
    | false =>
        rw [if_neg Bool.false_ne_true, if_neg fun hboth => Bool.false_ne_true hboth.2]
        exact h u timer htimer
  · rename_i hmem
    rw [if_neg fun hboth => hmem hboth.1]
    exact h u new hu

end Fits

end TimerManager

namespace Timers

/-! ## Runs -/

/-- The start of each timer's period behind a step: it begins when the timer is made, refreshed or reset
from now, and when the timer expires. -/
def State.begun (s : State) (start : Nat → UInt64) : Label → Nat → UInt64
  | .call .. => start
  | .move tid now addr =>
      match s.threads[tid]? with
      | some (.construct ..) => Function.update start addr now
      | some (.refresh t) =>
          if (s.manager.refresh t now).2 then Function.update start t now else start
      | some (.reset t ms fromNow) =>
          if (s.manager.reset t ms fromNow now).2 && fromNow then Function.update start t now
          else start
      | some (.putBack expired cur) =>
          fun t => if t ∈ expired ∧ s.manager.recurring t = true then cur else start t
      | _ => start

/-- The step function, with the starts of the periods. -/
def periodStep (p : State × (Nat → UInt64)) (l : Label) : Option (State × (Nat → UInt64)) :=
  (step p.1 l).map fun s => (s, p.1.begun p.2 l)

/-- No timer has begun a period. -/
def periodInit (threads : Nat) : State × (Nat → UInt64) := (init threads, fun _ => 0)

/-- A reset from now that finds its timer is given the period that the timer has. -/
def Pc.KeepsPeriod (m : TimerManager) (now : UInt64) : Pc → Prop
  | .reset t ms true => (m.reset t ms true now).2 = true → (m.heap t).map Timer.ms = some ms
  | _ => True

instance (m : TimerManager) (now : UInt64) : (pc : Pc) → Decidable (pc.KeepsPeriod m now)
  | .reset t ms true =>
      inferInstanceAs (Decidable ((m.reset t ms true now).2 = true →
        (m.heap t).map Timer.ms = some ms))
  | .reset _ _ false | .out | .construct .. | .insert _ | .front _ | .cancel _ | .refresh _
  | .getNextTimer | .expire | .putBack .. => isTrue trivial

/-- The condition on a step. -/
def KeepsPeriod (p : State × (Nat → UInt64)) : Label → Prop
  | .call .. => True
  | .move tid now _ => ∀ pc ∈ p.1.threads[tid]?, pc.KeepsPeriod p.1.manager now

instance (p : State × (Nat → UInt64)) : (l : Label) → Decidable (KeepsPeriod p l)
  | .call .. => isTrue trivial
  | .move tid now _ =>
      inferInstanceAs (Decidable (∀ pc ∈ p.1.threads[tid]?, pc.KeepsPeriod p.1.manager now))

/-- What holds in every state of such a run. -/
structure PeriodInv (p : State × (Nat → UInt64)) : Prop where
  inv : Inv p.1.unmarked
  fits : p.1.manager.Fits p.2

section Step

variable {s t : State} {start : Nat → UInt64}

theorem fits_move {tid : Nat} {pc : Pc} {now : UInt64} {addr : Nat}
    (h : PeriodInv (s, start)) (hpc : s.threads[tid]? = some pc)
    (hkeeps : KeepsPeriod (s, start) (.move tid now addr))
    (hmove : s.move tid now addr pc = some t) :
    t.manager.Fits (s.begun start (.move tid now addr)) := by
  have hfits : s.manager.Fits start := h.fits
  have hsorted : s.manager.Sorted := h.inv.sorted
  rw [State.begun, hpc]
  cases pc with
  | out => cases hmove
  | construct ms cb recurring =>
      simp only [State.move] at hmove
      split at hmove
      · cases hmove
      · obtain rfl := Option.some.inj hmove
        exact hfits.setTimer rfl
  | insert u =>
      simp only [State.move, Option.some.injEq] at hmove
      subst hmove
      exact hfits
  | front u =>
      obtain rfl := Option.some.inj hmove
      exact hfits
  | cancel u =>
      obtain rfl := Option.some.inj hmove
      exact hfits.cancel hsorted u
  | refresh u =>
      obtain rfl := Option.some.inj hmove
      exact hfits.refresh hsorted u now
  | reset u ms fromNow =>
      obtain rfl := Option.some.inj hmove
      refine hfits.reset hsorted fun hfound hnow => ?_
      subst hnow
      exact hkeeps _ hpc hfound
  | getNextTimer =>
      obtain rfl := Option.some.inj hmove
      rw [TimerManager.getNextTimer_fst]
      exact hfits
  | expire =>
      simp only [State.move] at hmove
      split at hmove
      · cases hmove
      · split at hmove <;>
        · obtain rfl := Option.some.inj hmove
          exact hfits
  | putBack expired cur =>
      obtain rfl := Option.some.inj hmove
      exact hfits.putBack (h.inv.hand_nodup tid _ hpc) (h.inv.hand_alive tid _ hpc)

theorem periodInv_step {p q : State × (Nat → UInt64)} {l : Label} (h : PeriodInv p)
    (hkeeps : KeepsPeriod p l) (hstep : periodStep p l = some q) : PeriodInv q := by
  obtain ⟨s, start⟩ := p
  obtain ⟨t, ht, rfl⟩ := Option.map_eq_some_iff.mp hstep
  refine ⟨inv_unmarked_step h.inv ht, ?_⟩
  cases l with
  | call tid c =>
      simp only [step] at ht
      split at ht
      · obtain rfl := Option.some.inj ht
        exact h.fits
      · cases ht
  | move tid now addr =>
      simp only [step] at ht
      split at ht
      · rename_i pc hpc
        exact fits_move h hpc hkeeps ht
      · cases ht

theorem periodInv_init (threads : Nat) : PeriodInv (periodInit threads) :=
  ⟨inv_init threads, fun _ _ h => nomatch h⟩

/-- A reset without a step of another thread between its sections. -/
theorem manager_of_reset {tid u : Nat} {ms : UInt64} {fromNow : Bool}
    (hpc : s.threads[tid]? = some (.reset u ms fromNow)) {now now' : UInt64} {addr addr' : Nat}
    (hfound : (s.manager.reset u ms fromNow now).2 = true)
    (h : run step s [.move tid now addr, .move tid now' addr'] = some t) :
    t.manager = (s.manager.resetAndAdd u ms fromNow now).1 := by
  obtain ⟨s₁, hfirst, hrest⟩ := Option.bind_eq_some_iff.mp h
  obtain ⟨s₂, hsecond, hlast⟩ := Option.bind_eq_some_iff.mp hrest
  obtain rfl := Option.some.inj hlast
  have hlt : tid < s.threads.length := (List.getElem?_eq_some_iff.mp hpc).1
  simp only [step, hpc, State.move, hfound, if_true, Option.some.injEq] at hfirst
  subst hfirst
  simp only [step, State.leave, List.getElem?_set_self hlt, State.move, Option.some.injEq] at hsecond
  subst hsecond
  rw [TimerManager.resetAndAdd]
  cases hreset : s.manager.reset u ms fromNow now with
  | mk m found =>
      rw [hreset] at hfound
      subst hfound
      rfl

end Step

/-- A reset that finds its timer does what it is asked to. -/
def ResetsAsAsked (p : State × (Nat → UInt64)) : Label → Prop
  | .call .. => True
  | .move tid now _ => ∀ t ms fromNow, p.1.threads[tid]? = some (.reset t ms fromNow) →
      (p.1.manager.reset t ms fromNow now).2 = true →
      p.1.manager.Reschedules (p.2 t) t ms fromNow now (p.1.manager.resetAndAdd t ms fromNow now)

section Asked

variable {p : State × (Nat → UInt64)}

theorem PeriodInv.alive (h : PeriodInv p) : p.1.manager.Alive := ⟨h.inv.sorted, h.inv.set_alive⟩

/-- Where the deadlines fit, a reset does what it is asked to just if it is given the period that the
timer has, or is not from now. -/
theorem PeriodInv.reschedules_iff (h : PeriodInv p) {t : Nat} {timer : Timer}
    (ht : t ∈ p.1.manager.timers) (htimer : p.1.manager.heap t = some timer) (hcb : timer.cb ≠ none)
    (ms : UInt64) (fromNow : Bool) (now : UInt64) :
    p.1.manager.Reschedules (p.2 t) t ms fromNow now (p.1.manager.resetAndAdd t ms fromNow now) ↔
      (fromNow = true → ms = timer.ms) := by
  have hnext : timer.next = p.2 t + timer.ms := h.fits t timer htimer
  rw [TimerManager.reschedules_iff h.alive htimer hcb ht]
  cases fromNow with
  | true =>
      show now + timer.ms = now + ms ↔ _
      rw [UInt64.add_right_inj]
      exact ⟨fun heq _ => heq.symm, fun heq => (heq rfl).symm⟩
  | false =>
      show timer.next - timer.ms + ms = p.2 t + ms ↔ _
      rw [hnext, UInt64.add_sub_cancel]
      exact iff_of_true rfl fun hnow => by cases hnow

theorem keepsPeriod_iff (h : PeriodInv p) (l : Label) : KeepsPeriod p l ↔ ResetsAsAsked p l := by
  have hreset : ∀ (t : Nat) (ms : UInt64) (fromNow : Bool) (now : UInt64),
      (p.1.manager.reset t ms fromNow now).2 = true →
      (p.1.manager.Reschedules (p.2 t) t ms fromNow now
          (p.1.manager.resetAndAdd t ms fromNow now) ↔
        (fromNow = true → (p.1.manager.heap t).map Timer.ms = some ms)) := by
    intro t ms fromNow now hfound
    rcases TimerManager.reset_eq h.alive.sorted t ms fromNow now with heq | ⟨timer, htimer, hcb, hmem⟩
    · rw [heq] at hfound
      cases hfound
    · rw [h.reschedules_iff hmem htimer hcb, htimer, Option.map_some, Option.some.injEq]
      exact imp_congr_right fun _ => eq_comm
  cases l with
  | call tid c => exact Iff.rfl
  | move tid now addr =>
      constructor
      · intro hkeeps t ms fromNow hpc hfound
        refine (hreset t ms fromNow now hfound).mpr fun hnow => ?_
        subst hnow
        exact hkeeps _ hpc hfound
      · intro hasked pc hpc
        cases pc with
        | reset t ms fromNow =>
            cases fromNow with
            | true => exact fun hfound => (hreset t ms true now hfound).mp (hasked t ms true hpc hfound) rfl
            | false => trivial
        | out | construct | insert | front | cancel | refresh | getNextTimer | expire | putBack =>
            trivial

end Asked

/-- The resets of a run all do what they are asked to, just if those from now are all given the period
that their timer has. The first one that is not fails itself; behind a run of such resets the same holds
of a reset of any timer in the set that has its callback. -/
theorem reschedules_of_run_iff (threads : Nat) (ls : List Label) :
    (StepsMeet periodStep ResetsAsAsked (periodInit threads) ls ↔
      StepsMeet periodStep KeepsPeriod (periodInit threads) ls) ∧
    ∀ (s : State) (start : Nat → UInt64), run periodStep (periodInit threads) ls = some (s, start) →
      StepsMeet periodStep KeepsPeriod (periodInit threads) ls → ∀ (t : Nat) (timer : Timer),
      t ∈ s.manager.timers → s.manager.heap t = some timer → timer.cb ≠ none →
      ∀ (ms : UInt64) (fromNow : Bool) (now : UInt64),
        (s.manager.Reschedules (start t) t ms fromNow now
            (s.manager.resetAndAdd t ms fromNow now) ↔
          (fromNow = true → ms = timer.ms)) := by
  constructor
  · exact (stepsMeet_congr_of_invariant (I := PeriodInv)
      (fun _ _ _ hinv hkeep hstep => periodInv_step hinv hkeep hstep)
      (fun _ l hinv => keepsPeriod_iff hinv l) ls _ (periodInv_init threads)).symm
  · intro s start h hkeeps t timer ht htimer hcb ms fromNow now
    have hinv : PeriodInv (s, start) := run_invariant (fun _ _ _ hinv hkeep hstep =>
      periodInv_step hinv hkeep hstep) ls _ _ (periodInv_init threads) hkeeps h
    exact hinv.reschedules_iff ht htimer hcb ms fromNow now

/-- A recurring timer is reset, not from now, and refreshed. -/
def resetAndRefresh : List Label :=
  [.call 0 (.addTimer 10 (some 0) true), .move 0 100 7, .move 0 0 0, .move 0 0 0,
    .call 0 (.reset 7 25 false), .move 0 105 0, .move 0 0 0, .call 0 (.refresh 7), .move 0 110 0]

/-- The state behind it, and the start of the period. -/
def refreshed : State × (Nat → UInt64) :=
  (run periodStep (periodInit 1) resetAndRefresh).get (by decide)

theorem run_refreshed : run periodStep (periodInit 1) resetAndRefresh = some refreshed :=
  (Option.some_get _).symm

theorem reschedules_refreshed :
    StepsMeet periodStep ResetsAsAsked (periodInit 1) resetAndRefresh ∧
      refreshed.1.manager.Reschedules (refreshed.2 7) 7 25 true 120
        (refreshed.1.manager.resetAndAdd 7 25 true 120) := by
  have hkeeps : StepsMeet periodStep KeepsPeriod (periodInit 1) resetAndRefresh := by decide
  obtain ⟨hrun, hnext⟩ := reschedules_of_run_iff 1 resetAndRefresh
  refine ⟨hrun.mpr hkeeps, ?_⟩
  exact (hnext refreshed.1 refreshed.2 run_refreshed hkeeps 7 ⟨true, 25, 135, some 0⟩ (by decide)
    (by decide) (by decide) 25 true 120).mpr fun _ => rfl

/-- A timer of ten milliseconds is reset to twenty-five from now, and is due in ten. -/
theorem reset_keeps_old_period : ¬ ∀ (threads : Nat) (ls : List Label) (s : State)
    (start : Nat → UInt64), run periodStep (periodInit threads) ls = some (s, start) →
    ∀ t ∈ s.manager.timers, ∀ ms fromNow now,
      s.manager.Reschedules (start t) t ms fromNow now
        (s.manager.resetAndAdd t ms fromNow now) := by
  intro h
  have hsome : (run periodStep (periodInit 1) oneTimer).isSome = true := by decide
  have hres := h 1 oneTimer _ _ (Option.some_get hsome).symm 7 (by decide) 25 true 104
  exact absurd hres.deadline (by decide)

end Timers

end Saturn
