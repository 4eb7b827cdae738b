import Mathlib.Data.List.Nodup
import Saturn.Scheduler.WorkerSteps
import Saturn.Timer.Deadlines

/-!
# Where the workers' timers are

A timer is in `m_timers`, or in the hands of one thread that has taken it out or not yet put it in,
and in one place only. So the set stands in its order, whatever the threads do.
-/

namespace Saturn

namespace Workers

open Scheduler (FiberState Task FiberAndThread Action)
open Shared (tickleIf)

/-- The timers that a call has in its hands. -/
def Call.holds : Call → List Nat
  | .insert t => [t]
  | .putBack expired _ => expired
  | _ => []

/-- The timers in the hands of calls. -/
def heldBy (calls : List Call) : List Nat := calls.flatMap Call.holds

/-- The timers in the hand of a worker. -/
def Pc.heldTimers : Pc → List Nat
  | .expired timers _ _ => timers
  | _ => []

/-- The timers that a worker has in its hands. -/
def Worker.held (wk : Worker) : List Nat := wk.pc.heldTimers ++ heldBy wk.calls

/-- In how many places the timer is. -/
def State.places (s : State) (u : Nat) : Nat :=
  (s.workers.map fun wk => wk.held.count u).sum +
    (s.others.map fun calls => (heldBy calls).count u).sum + s.shared.timers.timers.count u

/-- Each timer is in one place. -/
structure TimersOk (s : State) : Prop where
  sorted : s.shared.timers.Sorted
  once : ∀ u, s.places u ≤ 1
  alive : ∀ u, 0 < s.places u → s.shared.timers.heap u ≠ none

/-- A section moves timers between the hands of its thread, `h` before and `h'` behind it, and the set;
there may be a new one. -/
structure Hands (m m' : TimerManager) (h h' : List Nat) : Prop where
  sorted : m'.Sorted
  heap : ∀ u, m.heap u ≠ none → m'.heap u ≠ none
  count : ∀ u, h'.count u + m'.timers.count u ≤ h.count u + m.timers.count u ∨
    (m.heap u = none ∧ m'.heap u ≠ none ∧ h'.count u + m'.timers.count u ≤ 1)

@[simp] theorem heldBy_nil : heldBy [] = [] := rfl

theorem heldBy_append (calls calls' : List Call) :
    heldBy (calls ++ calls') = heldBy calls ++ heldBy calls' := List.flatMap_append

theorem heldBy_cons (call : Call) (calls : List Call) :
    heldBy (call :: calls) = call.holds ++ heldBy calls := List.flatMap_cons

@[simp] theorem heldBy_tickleIf (need : Bool) : heldBy (tickleIf need) = [] := by
  cases need <;> rfl

section Sections

open TimerManager

variable {kind : Kind} {g g' : Shared} {m m' : TimerManager} {h : List Nat}

theorem hands_of_eq (hsorted : m.Sorted) (htimers : m'.timers = m.timers) (hheap : m'.heap = m.heap) :
    Hands m m' h h := by
  refine ⟨?_, fun u hu => hheap ▸ hu, fun u => Or.inl ?_⟩
  · unfold TimerManager.Sorted
    rw [htimers]
    refine StdSet.Sorted.congr hsorted fun x _ y _ => ?_
    rw [less, less, next_congr hheap, next_congr hheap]
  · rw [htimers]

theorem hands_refl (hsorted : m.Sorted) : Hands m m h h := hands_of_eq hsorted rfl rfl

theorem heap_setTimer_ne_none {t u : Nat} {timer : Timer} (hu : m.heap u ≠ none) :
    (m.setTimer t timer).heap u ≠ none := by
  rw [heap_setTimer]
  split
  · exact Option.some_ne_none _
  · exact hu

theorem hands_newTimer (hsorted : m.Sorted) {t : Nat} (ht : m.heap t = none) (hout : t ∉ m.timers)
    (ms : UInt64) (cb : Option Nat) (recurring : Bool) (now : UInt64) :
    Hands m (m.newTimer t ms cb recurring now) [] [t] := by
  refine ⟨hsorted.setTimer (Or.inl hout), fun u hu => heap_setTimer_ne_none hu, fun u => ?_⟩
  by_cases hut : u = t
  · subst hut
    refine Or.inr ⟨ht, ?_, ?_⟩
    · rw [newTimer, heap_setTimer, if_pos rfl]
      exact Option.some_ne_none _
    · have hzero : m.timers.count u = 0 := List.count_eq_zero.mpr hout
      show [u].count u + m.timers.count u ≤ 1
      rw [hzero, List.count_singleton_self]
  · refine Or.inl ?_
    rw [List.count_singleton, if_neg (by simpa using fun h => hut h.symm)]
    exact Nat.le_refl _

theorem hands_cancel (hsorted : m.Sorted) (t : Nat) : Hands m (m.cancel t).1 [] [] := by
  rcases cancel_cases hsorted t with ⟨heq, -⟩ | ⟨timer, htimer, -, heq⟩
  · rw [heq]
    exact hands_refl hsorted
  · have hset : (m.setTimer t { timer with cb := none }).Sorted :=
      hsorted.setTimer (Or.inr (next_of_heap htimer).symm)
    rw [heq]
    split
    · refine ⟨hset.erase t, fun u hu => heap_setTimer_ne_none hu, fun u => Or.inl ?_⟩
      exact Nat.add_le_add_left ((StdSet.erase_sublist t m.timers).count_le u) _
    · exact ⟨hset, fun u hu => heap_setTimer_ne_none hu, fun u => Or.inl (Nat.le_refl _)⟩

theorem count_erase (hsorted : m.Sorted) {t : Nat} (ht : t ∈ m.timers) (u : Nat) :
    [t].count u + (m.erase t).timers.count u = m.timers.count u :=
  (count_cons_eq_add t u _).symm.trans
    ((StdSet.perm_erase m.isOrder_less hsorted ht).count_eq u)

theorem hands_refresh (hsorted : m.Sorted) (t : Nat) (now : UInt64) :
    Hands m (m.refresh t now).1 [] [] := by
  rcases refresh_cases hsorted t now with heq | ⟨timer, htimer, ht, heq⟩
  · rw [heq]
    exact hands_refl hsorted
  · rw [heq]
    refine ⟨(sorted_erase_setTimer hsorted ht _).insert t, fun u hu => heap_setTimer_ne_none hu,
      fun u => Or.inl ?_⟩
    have hinsert := @StdSet.count_insert_le Nat (TimerManager.less
      ((m.erase t).setTimer t { timer with next := now + timer.ms })) _ t u (m.erase t).timers
    have hcount := count_erase hsorted ht u
    show [].count u + (StdSet.insert _ t (m.erase t).timers).count u ≤ _
    omega

theorem hands_reset (hsorted : m.Sorted) (t : Nat) (ms : UInt64) (fromNow : Bool) (now : UInt64) :
    Hands m (m.reset t ms fromNow now).1 []
      (heldBy (if (m.reset t ms fromNow now).2 then [.insert t] else [])) := by
  rcases reset_cases hsorted t ms fromNow now with heq | ⟨timer, next, htimer, ht, heq⟩
  · rw [heq]
    exact hands_refl hsorted
  · rw [heq]
    refine ⟨sorted_erase_setTimer hsorted ht _, fun u hu => heap_setTimer_ne_none hu,
      fun u => Or.inl ?_⟩
    have hcount := count_erase hsorted ht u
    show [t].count u + (m.erase t).timers.count u ≤ [].count u + _
    omega

theorem hands_takeExpired (hsorted : m.Sorted) (now : UInt64) (cur : Nat) :
    Hands m (m.takeExpired now cur).1 [] (m.takeExpired now cur).2 := by
  refine ⟨sorted_takeExpired hsorted now cur, fun u hu => hu, fun u => Or.inl ?_⟩
  have hcount : ((m.takeExpired now cur).2 ++ (m.takeExpired now cur).1.timers).count u = _ :=
    congrArg (List.count u) (takeExpired_append now cur)
  rw [List.count_append] at hcount
  rw [hcount]
  exact Nat.le_add_left _ _

theorem hands_addTimer (hsorted : m.Sorted) (t : Nat) : Hands m (m.addTimer t).1 [t] [] := by
  refine ⟨hsorted.insert t, fun u hu => hu, fun u => Or.inl ?_⟩
  have hinsert := @StdSet.count_insert_le Nat m.less _ t u m.timers
  show [].count u + (StdSet.insert m.less t m.timers).count u ≤ _
  rw [List.count_nil]
  omega

theorem hands_putBack (hsorted : m.Sorted) {expired : List Nat}
    (honce : ∀ u, expired.count u + m.timers.count u ≤ 1)
    (halive : ∀ u ∈ expired, m.heap u ≠ none) (cur : UInt64) :
    Hands m (m.putBack cur expired).1 expired [] := by
  have hnodup : expired.Nodup := List.nodup_iff_count_le_one.mpr fun u => by
    have := honce u
    omega
  obtain ⟨hsort, hkeeps, -⟩ := putBack_spec cur expired m hsorted hnodup fun t ht => by
    refine ⟨fun hmem => ?_, halive t ht⟩
    have hcount := honce t
    have hexpired := List.count_pos_iff.mpr ht
    have htimers := List.count_pos_iff.mpr hmem
    omega
  refine ⟨hsort, fun u hu => ?_, fun u => Or.inl ?_⟩
  · obtain ⟨timer, htimer⟩ := Option.ne_none_iff_exists'.mp hu
    obtain ⟨timer', htimer', -⟩ := hkeeps u timer htimer
    rw [htimer']
    exact Option.some_ne_none _
  · have hcount := count_putBack_le cur expired m u
    rw [List.count_nil]
    omega

theorem hands_begin (hsorted : g.timers.Sorted)
    (halive : ∀ u ∈ g.timers.timers, g.timers.heap u ≠ none) {op : Op} {calls : List Call}
    (hbegin : g.begin op = some (g', calls)) : Hands g.timers g'.timers [] (heldBy calls) := by
  cases op with
  | newFiber =>
      cases hbegin
      exact hands_refl hsorted
  | stop =>
      cases hbegin
      have hnone : ∀ n, heldBy (List.replicate n .tickle) = [] := by
        intro n
        induction n with
        | zero => rfl
        | succ n ih => rw [List.replicate_succ, heldBy_cons, ih]; rfl
      rw [heldBy_cons, hnone]
      exact hands_refl hsorted
  | schedule =>
      simp only [Shared.begin] at hbegin
      split at hbegin <;> cases hbegin
      rw [heldBy_tickleIf]
      exact hands_refl hsorted
  | addTimer t ms cb recurring =>
      simp only [Shared.begin] at hbegin
      split at hbegin
      · cases hbegin
      · rename_i hfresh
        cases hbegin
        have hnone : g.timers.heap t = none := by simpa using hfresh
        exact hands_newTimer hsorted hnone (fun hmem => halive t hmem hnone) ms cb recurring g.now
  | cancel t =>
      cases hbegin
      exact hands_cancel hsorted t
  | refresh t =>
      cases hbegin
      exact hands_refresh hsorted t g.now
  | reset t ms fromNow =>
      simp only [Shared.begin, Option.some.injEq, Prod.mk.injEq] at hbegin
      obtain ⟨rfl, rfl⟩ := hbegin
      exact hands_reset hsorted t ms fromNow g.now
  | getNextTimer =>
      cases hbegin
      rw [getNextTimer_fst]
      exact hands_of_eq hsorted rfl rfl
  | listExpiredCb cur =>
      simp only [Shared.begin] at hbegin
      split at hbegin
      · cases hbegin
      · split at hbegin
        · cases hbegin
          exact hands_refl hsorted
        · cases hbegin
          rw [heldBy_cons, heldBy_nil, List.append_nil]
          exact hands_takeExpired hsorted g.now cur
  | addEvent | delEvent | cancelEvent =>
      simp only [Shared.begin] at hbegin
      split at hbegin <;> cases hbegin
      exact hands_refl hsorted
  | cancelAll i =>
      simp only [Shared.begin, Shared.trigger] at hbegin
      split at hbegin
      · cases hbegin
      · cases hbegin
        rw [heldBy_append, heldBy_tickleIf]
        exact hands_refl hsorted

theorem hands_goOn (kind : Kind) (hsorted : g.timers.Sorted) (call : Call)
    (honce : ∀ u, call.holds.count u + g.timers.timers.count u ≤ 1)
    (halive : ∀ u ∈ call.holds, g.timers.heap u ≠ none) :
    Hands g.timers (g.goOn kind call).1.timers call.holds (heldBy (g.goOn kind call).2) := by
  cases call with
  | tickle =>
      cases kind with
      | scheduler => exact hands_refl hsorted
      | ioManager =>
          simp only [Shared.goOn]
          split <;> exact hands_refl hsorted
  | insert t =>
      simp only [Shared.goOn, heldBy_tickleIf]
      exact hands_addTimer hsorted t
  | putBack expired cur => exact hands_putBack hsorted honce halive cur
  | schedule task =>
      simp only [Shared.goOn, heldBy_tickleIf]
      exact hands_refl hsorted
  | write | decPending | setStopping => exact hands_refl hsorted

theorem scheduleAll_timers (cbs : List (Option Nat)) : ∀ g : Shared,
    (g.scheduleAll cbs).1.timers = g.timers := by
  induction cbs with
  | nil => exact fun _ => rfl
  | cons cb cbs ih => exact fun g => ih (g.scheduleNoLock (cb.map .cb) none).1

theorem trigger_timers {i : Nat} {calls : List Call} (h : g.trigger i = some (g', calls)) :
    g'.timers = g.timers ∧ heldBy calls = [] := by
  unfold Shared.trigger at h
  split at h
  · cases h
  · cases h
    rw [heldBy_append, heldBy_tickleIf]
    exact ⟨rfl, rfl⟩

/-- More in the hands of the thread stays there. -/
theorem Hands.append {h h' : List Nat} (hands : Hands m m' h h') (more : List Nat)
    (hfresh : ∀ u, m.heap u = none → more.count u = 0) : Hands m m' (h ++ more) (h' ++ more) := by
  refine ⟨hands.sorted, hands.heap, fun u => ?_⟩
  rw [List.count_append, List.count_append]
  rcases hands.count u with hle | ⟨hnone, hsome, hone⟩
  · exact Or.inl (by omega)
  · have hzero := hfresh u hnone
    exact Or.inr ⟨hnone, hsome, by omega⟩

end Sections

section Moves

open TimerManager

variable {kind : Kind} {g g' : Shared} {w : Nat} {wk wk' : Worker} {c : Choice}

theorem hands_moves (h : Moves kind g w wk c g' wk') (hsorted : g.timers.Sorted)
    (honce : ∀ u, wk.held.count u + g.timers.timers.count u ≤ 1)
    (halive : ∀ u, u ∈ wk.held ∨ u ∈ g.timers.timers → g.timers.heap u ≠ none) :
    Hands g.timers g'.timers wk.held wk'.held := by
  cases h with
  | call pc call calls cbf term =>
      have hheld : ∀ more calls, Worker.held ⟨pc, more ++ calls, cbf, term⟩ =
          pc.heldTimers ++ (heldBy more ++ heldBy calls) := by
        intro more calls
        rw [Worker.held, heldBy_append]
      have hcons : Worker.held ⟨pc, call :: calls, cbf, term⟩ =
          pc.heldTimers ++ (call.holds ++ heldBy calls) := by
        rw [Worker.held, heldBy_cons]
      rw [hcons] at honce halive ⊢
      rw [hheld]
      have hcount : ∀ u, (pc.heldTimers ++ (call.holds ++ heldBy calls)).count u =
          (call.holds ++ (pc.heldTimers ++ heldBy calls)).count u := by
        intro u
        simp only [List.count_append]
        omega
      have hands := (hands_goOn kind hsorted call (fun u => ?_) fun u hu => ?_).append
        (pc.heldTimers ++ heldBy calls) fun u hnone => ?_
      · refine ⟨hands.sorted, hands.heap, fun u => ?_⟩
        have hmoved := hands.count u
        simp only [List.count_append] at hmoved ⊢
        rcases hmoved with hle | ⟨hnone, hsome, hone⟩
        · exact Or.inl (by omega)
        · exact Or.inr ⟨hnone, hsome, by omega⟩
      · have hone := honce u
        simp only [List.count_append] at hone
        omega
      · exact halive u (Or.inl (List.mem_append_right _ (List.mem_append_left _ hu)))
      · rw [List.count_eq_zero]
        intro hmem
        refine halive u (Or.inl ?_) hnone
        rcases List.mem_append.mp hmem with hmem | hmem
        · exact List.mem_append_left _ hmem
        · exact List.mem_append_right _ (List.mem_append_right _ hmem)
  | op f cb op g' calls cbf term hkind hbegin =>
      exact hands_begin hsorted (fun u hu => halive u (Or.inr hu)) hbegin
  | trigger tickled i g' calls cbf term htrigger =>
      obtain ⟨htimers, hcalls⟩ := trigger_timers htrigger
      rw [htimers]
      show Hands _ _ ([] ++ []) ([] ++ heldBy calls)
      rw [hcalls]
      exact hands_refl hsorted
  | scheduleAll cbs tickled cbf term =>
      rw [scheduleAll_timers]
      show Hands _ _ ([] ++ []) ([] ++ heldBy (tickleIf _))
      rw [heldBy_tickleIf]
      exact hands_refl hsorted
  | take | nothing | settleReady =>
      show Hands _ _ ([] ++ []) ([] ++ heldBy (tickleIf _))
      rw [heldBy_tickleIf]
      exact hands_refl hsorted
  | putBack expired cur tickled cbf term =>
      have hheld : Worker.held ⟨.expired expired cur tickled, [], cbf, term⟩ = expired :=
        List.append_nil _
      rw [hheld] at honce halive ⊢
      exact hands_putBack hsorted honce (fun u hu => halive u (Or.inl hu)) cur
  | settleEnded f cb => cases cb <;> exact hands_refl hsorted
  | leave f cb act => cases act <;> exact hands_refl hsorted
  | noTimer =>
      rw [getNextTimer_fst]
      exact hands_of_eq hsorted rfl rfl
  | nextTimer =>
      rw [getNextTimer_fst]
      rcases sleep_cases g.now (g.timers.getNextTimer g.now).2 with h | ⟨t, h⟩ <;> rw [h] <;>
        exact hands_of_eq hsorted rfl rfl
  | pending asked | waits asked =>
      rcases sleep_cases asked (~~~0) with h | ⟨t, h⟩ <;> rw [h] <;> exact hands_refl hsorted
  | list tickled cur cbf term =>
      have hheld : ∀ l : List Nat, Worker.held
          ⟨if l.isEmpty then .events tickled else .expired l g.now tickled, [], cbf, term⟩ = l := by
        intro l
        cases l with
        | nil => rfl
        | cons x rest => exact List.append_nil _
      rw [hheld]
      exact hands_takeExpired hsorted g.now cur
  | _ => exact hands_refl hsorted

end Moves

section Steps

variable {kind : Kind} {s t : State} {w : Nat} {wk wk' : Worker} {c : Choice} {g : Shared}

theorem count_held_le (hwk : s.workers[w]? = some wk) (u : Nat) :
    wk.held.count u + s.shared.timers.timers.count u ≤ s.places u := by
  have hsum := sum_map_set_add (fun x : Worker => x.held.count u) ⟨.scan, [], none, false⟩ hwk
  have hzero : (Worker.held ⟨.scan, [], none, false⟩).count u = 0 := rfl
  unfold State.places
  omega

theorem count_calls_le {i : Nat} {calls : List Call} (hi : s.others[i]? = some calls) (u : Nat) :
    (heldBy calls).count u + s.shared.timers.timers.count u ≤ s.places u := by
  have hsum := sum_map_set_add (fun calls : List Call => (heldBy calls).count u) [] hi
  have hzero : (heldBy []).count u = 0 := rfl
  unfold State.places
  omega

theorem TimersOk.alive_mem (h : TimersOk s) {u : Nat} (hu : u ∈ s.shared.timers.timers) :
    s.shared.timers.heap u ≠ none := by
  refine h.alive u ?_
  have hcount := List.count_pos_iff.mpr hu
  unfold State.places
  omega

/-- A step whose section moves timers as it should keeps them in one place each. -/
theorem timersOk_of_hands (h : TimersOk s) {held held' : List Nat}
    (hands : Hands s.shared.timers t.shared.timers held held')
    (hplaces : ∀ u, t.places u + held.count u + s.shared.timers.timers.count u =
      s.places u + held'.count u + t.shared.timers.timers.count u)
    (hheld : ∀ u, held.count u + s.shared.timers.timers.count u ≤ s.places u) : TimersOk t := by
  have hzero : ∀ u, s.shared.timers.heap u = none → s.places u = 0 := by
    intro u hnone
    by_contra hne
    exact h.alive u (Nat.pos_of_ne_zero hne) hnone
  refine ⟨hands.sorted, fun u => ?_, fun u hpos => ?_⟩
  · have hp := hplaces u
    have hle := hheld u
    have hone := h.once u
    rcases hands.count u with hcount | ⟨hnone, -, hcount⟩
    · omega
    · have hz := hzero u hnone
      omega
  · by_cases hnone : s.shared.timers.heap u = none
    · have hp := hplaces u
      have hle := hheld u
      have hz := hzero u hnone
      rcases hands.count u with hcount | ⟨-, hsome, -⟩
      · omega
      · exact hsome
    · exact hands.heap u hnone

theorem timersOk_step {l : Label} (h : TimersOk s) (hstep : step kind s l = some t) :
    TimersOk t := by
  cases l with
  | worker w c =>
      obtain ⟨wk, g, wk', hwk, hmoves, rfl⟩ := step_worker hstep
      have hle := count_held_le hwk
      have hands := hands_moves hmoves h.sorted (fun u => (hle u).trans (h.once u)) fun u hu =>
        h.alive u (by
          have hcount := hle u
          rcases hu with hu | hu
          · have hpos := List.count_pos_iff.mpr hu
            omega
          · have hpos := List.count_pos_iff.mpr hu
            omega)
      refine timersOk_of_hands h hands (fun u => ?_) hle
      have hsum := sum_map_set_add (fun x : Worker => x.held.count u) wk' hwk
      unfold State.places
      dsimp only at hsum ⊢
      omega
  | outside op =>
      obtain ⟨g, calls, -, hbegin, rfl⟩ := step_outside hstep
      refine timersOk_of_hands h (hands_begin h.sorted (fun u hu => h.alive_mem hu) hbegin)
        (fun u => ?_) fun u => ?_
      · unfold State.places
        simp only [List.map_append, List.map_cons, List.map_nil, List.sum_append, List.sum_cons,
          List.sum_nil, List.count_nil]
        omega
      · unfold State.places
        rw [List.count_nil]
        omega
  | goOn i =>
      obtain ⟨call, calls, hi, rfl⟩ := step_goOn hstep
      have hle := count_calls_le hi
      have hcons : ∀ u, (heldBy (call :: calls)).count u =
          call.holds.count u + (heldBy calls).count u := fun u => by
        rw [heldBy_cons, List.count_append]
      have hcall : ∀ u, call.holds.count u + s.shared.timers.timers.count u ≤ s.places u := by
        intro u
        have hu := hle u
        rw [hcons] at hu
        omega
      have hands := hands_goOn kind h.sorted call (fun u => (hcall u).trans (h.once u)) fun u hu =>
        h.alive u (by
          have hcount := hcall u
          have hpos := List.count_pos_iff.mpr hu
          omega)
      refine timersOk_of_hands h hands (fun u => ?_) hcall
      have hsum := sum_map_set_add (fun calls : List Call => (heldBy calls).count u)
        ((s.shared.goOn kind call).2 ++ calls) hi
      have hu := hcons u
      have happend : (heldBy ((s.shared.goOn kind call).2 ++ calls)).count u =
          (heldBy (s.shared.goOn kind call).2).count u + (heldBy calls).count u := by
        rw [heldBy_append, List.count_append]
      unfold State.places
      dsimp only at hsum ⊢
      omega
  | tick now =>
      obtain ⟨-, rfl⟩ := step_tick hstep
      exact ⟨h.sorted, h.once, h.alive⟩
  | foreign f st =>
      obtain ⟨-, rfl⟩ := step_foreign hstep
      exact ⟨h.sorted, h.once, h.alive⟩

end Steps

theorem timersOk_init (threadCount : Nat) (useCaller : Bool) (fibers : Nat → FiberState)
    (count : Nat) (now : UInt64) : TimersOk (init threadCount useCaller fibers count now) := by
  have hplaces : ∀ u, (init threadCount useCaller fibers count now).places u = 0 := by
    intro u
    simp [State.places, init, TimerManager.init, Worker.held, Pc.heldTimers]
  refine ⟨StdSet.sorted_nil, fun u => ?_, fun u hpos => ?_⟩
  · rw [hplaces]
    exact Nat.zero_le 1
  · rw [hplaces] at hpos
    omega

end Workers

end Saturn
