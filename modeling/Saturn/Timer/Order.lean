import Saturn.Timer.Cancelled
import Saturn.Timer.Deadlines

/-!
# The order of `m_timers`

The sections of `TimerManager`, statement by statement. The key of the set is a field of its elements,
and the order is kept since a statement that assigns `m_next` finds its timer outside the set.
-/

namespace Saturn

namespace Timers

/-- A statement of a section. -/
inductive Stmt where
  /-- `new Timer(...)` -/
  | construct (t : Nat) (timer : Timer)
  /-- `m_cb = nullptr` -/
  | clear (t : Nat)
  /-- `m_timers.find(t)`, with whether it comes to an element. -/
  | find (t : Nat) (found : Bool)
  | erase (t : Nat)
  /-- `m_timers.erase(m_timers.begin(), m_timers.upper_bound(cur))` -/
  | eraseUpTo (now : UInt64) (cur : Nat)
  /-- `m_next = next; m_ms = ms` -/
  | assign (t : Nat) (next ms : UInt64)
  | insert (t : Nat)
  | setTickled (tickled : Bool)
  deriving DecidableEq, Repr

/-- What a statement does, if it can be carried out. -/
def Stmt.run (m : TimerManager) : Stmt → Option TimerManager
  | .construct t timer => some (m.setTimer t timer)
  | .clear t => (m.heap t).map fun timer => m.setTimer t { timer with cb := none }
  | .find t found => if (m.find t).isSome = found then some m else none
  | .erase t => some (m.erase t)
  | .eraseUpTo now cur => some (m.takeExpired now cur).1
  | .assign t next ms =>
      (m.heap t).map fun timer => m.setTimer t { timer with next := next, ms := ms }
  | .insert t => some (m.insert t)
  | .setTickled tickled => some { m with tickled := tickled }

/-- `Timer::cancel` -/
def cancelStmts (m : TimerManager) (t : Nat) : List Stmt :=
  match m.heap t with
  | none => []
  | some timer =>
      if timer.cb.isSome then
        let found := ((m.setTimer t { timer with cb := none }).find t).isSome
        .clear t :: .find t found :: if found then [.erase t] else []
      else []

/-- `Timer::refresh` -/
def refreshStmts (m : TimerManager) (t : Nat) (now : UInt64) : List Stmt :=
  match m.heap t with
  | none => []
  | some timer =>
      if timer.cb.isNone then []
      else
        let found := (m.find t).isSome
        .find t found ::
          if found then [.erase t, .assign t (now + timer.ms) timer.ms, .insert t] else []

/-- The first section of `Timer::reset`. -/
def resetStmts (m : TimerManager) (t : Nat) (ms : UInt64) (fromNow : Bool) (now : UInt64) :
    List Stmt :=
  match m.heap t with
  | none => []
  | some timer =>
      if timer.cb.isNone then []
      else
        let found := (m.find t).isSome
        let next := if fromNow then now + timer.ms else timer.next - timer.ms + ms
        .find t found :: if found then [.erase t, .assign t next ms] else []

/-- The section of `addTimer(t)`. -/
def addTimerStmts (m : TimerManager) (t : Nat) : List Stmt :=
  .insert t :: if (m.addTimer t).2 then [.setTickled true] else []

/-- The loop of the second section of `listExpiredCb`. -/
def putBackStmts (m : TimerManager) (cur : UInt64) : List Nat → List Stmt
  | [] => []
  | ex :: expired =>
      match m.heap ex with
      | none => putBackStmts m cur expired
      | some timer =>
          if timer.recurring then
            .assign ex (cur + timer.ms) timer.ms :: .insert ex ::
              putBackStmts (m.putOne cur ex timer) cur expired
          else putBackStmts m cur expired

/-- The statements of the section that a thread at `pc` goes through, with the timers as in `m`. -/
def Pc.stmts (m : TimerManager) (now : UInt64) (addr : Nat) : Pc → List Stmt
  | .construct ms cb recurring => [.construct addr ⟨recurring, ms, now + ms, cb⟩]
  | .insert t => addTimerStmts m t
  | .cancel t => cancelStmts m t
  | .refresh t => refreshStmts m t now
  | .reset t ms fromNow => resetStmts m t ms fromNow now
  | .getNextTimer => [.setTickled false]
  | .expire => if m.timers.isEmpty then [] else [.eraseUpTo now addr]
  | .putBack expired cur => putBackStmts m cur expired
  | .out | .front _ => []

/-- The deadlines in the set stay as they are, and `find` comes to its timer just when that is in the
set. -/
structure Undisturbed (m : TimerManager) (stmt : Stmt) : Prop where
  next : ∀ m', stmt.run m = some m' → ∀ u ∈ m.timers, m'.next u = m.next u
  find : ∀ t found, stmt = .find t found → (found = true ↔ t ∈ m.timers)

/-- The set is in order by the deadlines and the addresses of its timers, `find` finds what is in it,
and the first timer has the earliest deadline. -/
structure Ordered (m : TimerManager) : Prop where
  once : m.timers.Nodup
  strict : m.timers.Pairwise fun t u => m.next t < m.next u ∨ m.next t = m.next u ∧ t < u
  find : ∀ t, (m.find t).isSome = true ↔ t ∈ m.timers
  first : ∀ t ∈ m.timers.head?, ∀ u ∈ m.timers, m.next t ≤ m.next u

/-- The statements lead from `m` to `m'` without disturbing the set. -/
structure Does (m : TimerManager) (stmts : List Stmt) (m' : TimerManager) : Prop where
  run : run Stmt.run m stmts = some m'
  undisturbed : StepsMeet Stmt.run Undisturbed m stmts

section Statements

variable {m m₁ m' : TimerManager} {t : Nat}

theorem does_nil (m : TimerManager) : Does m [] m := ⟨rfl, trivial⟩

theorem Does.cons {stmt : Stmt} {stmts : List Stmt} (hrun : stmt.run m = some m₁)
    (hstmt : Undisturbed m stmt) (h : Does m₁ stmts m') : Does m (stmt :: stmts) m' where
  run := by rw [run_cons, hrun, Option.bind_some, h.run]
  undisturbed := ⟨hstmt, fun m₂ h₂ => by
    rw [hrun] at h₂
    exact Option.some.inj h₂ ▸ h.undisturbed⟩

/-- A statement that assigns to no timer. -/
theorem undisturbed_of_heap {stmt : Stmt} (hrun : stmt.run m = some m') (hheap : m'.heap = m.heap)
    (hfind : ∀ t found, stmt ≠ .find t found) : Undisturbed m stmt where
  next := fun m₂ h₂ u _ => by
    rw [hrun] at h₂
    exact Option.some.inj h₂ ▸ TimerManager.next_congr hheap u
  find := fun t found h => absurd h (hfind t found)

/-- A statement that assigns to a timer outside the set. -/
theorem undisturbed_of_setTimer {stmt : Stmt} {timer : Timer}
    (hrun : stmt.run m = some (m.setTimer t timer)) (ht : t ∉ m.timers ∨ timer.next = m.next t)
    (hfind : ∀ t found, stmt ≠ .find t found) : Undisturbed m stmt where
  next := fun m₂ h₂ u hu => by
    rw [hrun] at h₂
    obtain rfl := Option.some.inj h₂
    rw [TimerManager.next_setTimer]
    split
    · rename_i hut
      subst hut
      exact ht.resolve_left fun hout => hout hu
    · rfl
  find := fun t found h => absurd h (hfind t found)

theorem find_isSome (h : m.Sorted) (t : Nat) : (m.find t).isSome = true ↔ t ∈ m.timers := by
  rw [TimerManager.find_eq h]
  by_cases ht : t ∈ m.timers
  · rw [if_pos ht]
    exact iff_of_true rfl ht
  · rw [if_neg ht]
    exact iff_of_false Bool.false_ne_true ht

theorem does_find (h : m.Sorted) (t : Nat) {stmts : List Stmt} (hrest : Does m stmts m') :
    Does m (.find t (m.find t).isSome :: stmts) m' := by
  have hrun : (Stmt.find t (m.find t).isSome).run m = some m := if_pos rfl
  refine .cons hrun ⟨fun m₂ h₂ u _ => ?_, ?_⟩ hrest
  · rw [hrun] at h₂
    rw [Option.some.inj h₂]
  · rintro _ _ ⟨⟩
    exact find_isSome h t

theorem does_erase (t : Nat) {stmts : List Stmt} (hrest : Does (m.erase t) stmts m') :
    Does m (.erase t :: stmts) m' :=
  .cons rfl (undisturbed_of_heap rfl rfl nofun) hrest

theorem does_insert (t : Nat) {stmts : List Stmt} (hrest : Does (m.insert t) stmts m') :
    Does m (.insert t :: stmts) m' :=
  .cons rfl (undisturbed_of_heap rfl rfl nofun) hrest

theorem does_assign {timer : Timer} (htimer : m.heap t = some timer) (ht : t ∉ m.timers)
    (next ms : UInt64) {stmts : List Stmt}
    (hrest : Does (m.setTimer t { timer with next := next, ms := ms }) stmts m') :
    Does m (.assign t next ms :: stmts) m' := by
  have hrun : (Stmt.assign t next ms).run m =
      some (m.setTimer t { timer with next := next, ms := ms }) := by
    rw [Stmt.run, htimer]
    rfl
  exact .cons hrun (undisturbed_of_setTimer hrun (Or.inl ht) nofun) hrest

theorem does_clear {timer : Timer} (htimer : m.heap t = some timer) {stmts : List Stmt}
    (hrest : Does (m.setTimer t { timer with cb := none }) stmts m') :
    Does m (.clear t :: stmts) m' := by
  have hrun : (Stmt.clear t).run m = some (m.setTimer t { timer with cb := none }) := by
    rw [Stmt.run, htimer]
    rfl
  have hnext : timer.next = m.next t := (TimerManager.next_of_heap htimer).symm
  exact .cons hrun (undisturbed_of_setTimer hrun (Or.inr hnext) nofun) hrest

/-- A statement that does not disturb the set leaves it in order. -/
theorem sorted_stmt {stmt : Stmt} (h : m.Sorted) (hstmt : Undisturbed m stmt)
    (hrun : stmt.run m = some m') : m'.Sorted := by
  have hset : ∀ t timer, m' = m.setTimer t timer → m'.Sorted := by
    rintro t timer rfl
    refine h.setTimer ?_
    by_cases ht : t ∈ m.timers
    · refine Or.inr ?_
      rw [← hstmt.next _ hrun t ht, TimerManager.next_setTimer, if_pos rfl]
    · exact Or.inl ht
  cases stmt with
  | construct t timer => exact hset t timer (Option.some.inj hrun).symm
  | clear t | assign t next ms =>
      obtain ⟨timer, -, heq⟩ := Option.map_eq_some_iff.mp hrun
      exact hset t _ heq.symm
  | find t found =>
      rw [Stmt.run] at hrun
      split at hrun
      · exact Option.some.inj hrun ▸ h
      · cases hrun
  | erase t => exact Option.some.inj hrun ▸ h.erase t
  | eraseUpTo now cur => exact Option.some.inj hrun ▸ TimerManager.sorted_takeExpired h now cur
  | insert t => exact Option.some.inj hrun ▸ h.insert t
  | setTickled tickled => exact Option.some.inj hrun ▸ h

theorem ordered_of_sorted (h : m.Sorted) : Ordered m where
  once := StdSet.Sorted.nodup m.isOrder_less h
  strict := h.imp fun {t u} htu => by
    rw [TimerManager.less, keyLess_iff] at htu
    exact htu.imp UInt64.lt_iff_toNat_lt.mpr fun heq => ⟨UInt64.toNat_inj.mp heq.1, heq.2⟩
  find := find_isSome h
  first := fun _ ht => TimerManager.next_head_le h ht

/-! ## The sections -/

theorem does_cancel (h : m.Sorted) (t : Nat) : Does m (cancelStmts m t) (m.cancel t).1 := by
  rw [cancelStmts, TimerManager.cancel]
  cases htimer : m.heap t with
  | none => exact does_nil m
  | some timer =>
      dsimp only
      by_cases hcb : timer.cb.isSome = true
      · have hsorted : (m.setTimer t { timer with cb := none }).Sorted :=
          h.setTimer (Or.inr (TimerManager.next_of_heap htimer).symm)
        rw [if_pos hcb, if_pos hcb]
        refine does_clear htimer (does_find hsorted t ?_)
        cases hfind : (m.setTimer t { timer with cb := none }).find t with
        | none => exact does_nil _
        | some it => exact does_erase t (does_nil _)
      · rw [if_neg hcb, if_neg hcb]
        exact does_nil m

theorem not_mem_erase_of_find {t it : Nat} (h : m.Sorted) (hfind : m.find t = some it) :
    t ∉ (m.erase t).timers := by
  have hmem : t ∈ m.timers := (find_isSome h t).mp (by rw [hfind]; rfl)
  intro hin
  exact ((TimerManager.mem_erase h hmem).mp hin).2 rfl

theorem does_refresh (h : m.Sorted) (t : Nat) (now : UInt64) :
    Does m (refreshStmts m t now) (m.refresh t now).1 := by
  rw [refreshStmts, TimerManager.refresh]
  cases htimer : m.heap t with
  | none => exact does_nil m
  | some timer =>
      dsimp only
      by_cases hcb : timer.cb.isNone = true
      · rw [if_pos hcb, if_pos hcb]
        exact does_nil m
      · rw [if_neg hcb, if_neg hcb]
        refine does_find h t ?_
        cases hfind : m.find t with
        | none => exact does_nil m
        | some it =>
            have hout := not_mem_erase_of_find h hfind
            exact does_erase t (does_assign (m := m.erase t) htimer hout _ _
              (does_insert t (does_nil _)))

theorem does_reset (h : m.Sorted) (t : Nat) (ms : UInt64) (fromNow : Bool) (now : UInt64) :
    Does m (resetStmts m t ms fromNow now) (m.reset t ms fromNow now).1 := by
  rw [resetStmts, TimerManager.reset]
  cases htimer : m.heap t with
  | none => exact does_nil m
  | some timer =>
      dsimp only
      by_cases hcb : timer.cb.isNone = true
      · rw [if_pos hcb, if_pos hcb]
        exact does_nil m
      · rw [if_neg hcb, if_neg hcb]
        refine does_find h t ?_
        cases hfind : m.find t with
        | none => exact does_nil m
        | some it =>
            have hout := not_mem_erase_of_find h hfind
            exact does_erase t (does_assign (m := m.erase t) htimer hout _ _ (does_nil _))

theorem does_addTimer (m : TimerManager) (t : Nat) :
    Does m (addTimerStmts m t) (m.addTimer t).1 := by
  have hresult : (m.addTimer t).1 =
      { m.insert t with tickled := if (m.addTimer t).2 then true else m.tickled } := rfl
  rw [addTimerStmts, hresult]
  refine does_insert t ?_
  cases (m.addTimer t).2 with
  | false => exact does_nil _
  | true => exact .cons rfl (undisturbed_of_heap rfl rfl nofun) (does_nil _)

/-- The loop over what was taken out: each timer is outside the set when its deadline is assigned. -/
theorem does_putBack (cur : UInt64) (expired : List Nat) : ∀ m : TimerManager, m.Sorted →
    expired.Nodup → (∀ t ∈ expired, t ∉ m.timers) →
    Does m (putBackStmts m cur expired) (m.putBack cur expired).1 := by
  induction expired with
  | nil => exact fun m _ _ _ => does_nil m
  | cons ex expired ih =>
      intro m h hnodup hout
      obtain ⟨hex, hnodup⟩ := List.nodup_cons.mp hnodup
      have hrest : ∀ t ∈ expired, t ∉ m.timers := fun t ht => hout t (List.mem_cons_of_mem _ ht)
      rw [putBackStmts]
      cases htimer : m.heap ex with
      | none =>
          rw [TimerManager.putBack_cons_none htimer]
          exact ih m h hnodup hrest
      | some timer =>
          rw [TimerManager.putBack_cons_some htimer]
          dsimp only
          by_cases hrec : timer.recurring = true
          · have hone : m.putOne cur ex timer =
                (m.setTimer ex { timer with next := cur + timer.ms }).insert ex := if_pos hrec
            have hexOut : ex ∉ m.timers := hout ex List.mem_cons_self
            rw [if_pos hrec]
            refine does_assign htimer hexOut _ _ (does_insert ex ?_)
            rw [hone]
            refine ih _ (TimerManager.sorted_setTimer_insert h hexOut _) hnodup fun t ht hin => ?_
            rcases TimerManager.mem_insert.mp hin with rfl | hin
            · exact hex ht
            · exact hrest t ht hin
          · have hone : m.putOne cur ex timer = m := if_neg hrec
            rw [if_neg hrec, hone]
            exact ih m h hnodup hrest

end Statements

/-! ## Runs -/

section Runs

variable {s t : State}

/-- The state without the record of what has been cancelled and has fired. -/
def State.unmarked (s : State) : State := { s with cleared := [], fired := [] }

/-- Where the timers are does not depend on what has been cancelled or has fired. -/
theorem inv_unmarked_move (h : Inv s.unmarked) {tid : Nat} {pc : Pc}
    (hpc : s.threads[tid]? = some pc) {now : UInt64} {addr : Nat}
    (hmove : s.move tid now addr pc = some t) : Inv t.unmarked := by
  cases pc with
  | out => cases hmove
  | construct ms cb recurring =>
      simp only [State.move] at hmove
      split at hmove
      · cases hmove
      · rename_i hnew
        obtain rfl := Option.some.inj hmove
        have hnew : s.manager.heap addr = none := by simpa using hnew
        exact h.leave hpc (h.moves_newTimer hnew ms cb recurring now)
  | insert u =>
      simp only [State.move, Option.some.injEq] at hmove
      subst hmove
      refine Inv.withKnown (h.leave hpc (h.moves_addTimer u ?_)) _
      split <;> rfl
  | front u =>
      obtain rfl := Option.some.inj hmove
      exact Inv.withKnown (h.leave hpc (h.moves_stay rfl)) _
  | cancel u =>
      obtain rfl := Option.some.inj hmove
      exact h.leave hpc (h.moves_cancel u rfl).1
  | refresh u =>
      obtain rfl := Option.some.inj hmove
      exact h.leave hpc (h.moves_refresh u now rfl)
  | reset u ms fromNow =>
      obtain rfl := Option.some.inj hmove
      exact h.leave hpc (h.moves_reset u ms fromNow now)
  | getNextTimer =>
      obtain rfl := Option.some.inj hmove
      exact h.leave hpc (h.moves_getNextTimer now rfl)
  | expire =>
      simp only [State.move] at hmove
      split at hmove
      · cases hmove
      · split at hmove
        · obtain rfl := Option.some.inj hmove
          exact h.leave hpc (h.moves_stay rfl)
        · obtain rfl := Option.some.inj hmove
          exact h.leave hpc (h.moves_takeExpired now addr)
  | putBack expired cur =>
      obtain rfl := Option.some.inj hmove
      exact h.leave hpc (h.moves_putBack hpc).1

theorem inv_unmarked_step {l : Label} (h : Inv s.unmarked) (hstep : step s l = some t) :
    Inv t.unmarked := by
  cases l with
  | call tid c =>
      simp only [step] at hstep
      split at hstep
      · rename_i hcond
        obtain rfl := Option.some.inj hstep
        exact h.leave hcond.1 (h.moves_stay (by cases c <;> rfl))
      · cases hstep
  | move tid now addr =>
      simp only [step] at hstep
      split at hstep
      · rename_i pc hpc
        exact inv_unmarked_move h hpc hstep
      · cases hstep

/-- A step of a thread goes through the statements of its section. -/
theorem does_of_step (h : Inv s.unmarked) {tid : Nat} {pc : Pc} (hpc : s.threads[tid]? = some pc)
    {now : UInt64} {addr : Nat} (hstep : step s (.move tid now addr) = some t) :
    Does s.manager (pc.stmts s.manager now addr) t.manager := by
  have hmove : s.move tid now addr pc = some t := by
    simpa [step, hpc] using hstep
  cases pc with
  | out => cases hmove
  | construct ms cb recurring =>
      simp only [State.move] at hmove
      split at hmove
      · cases hmove
      · rename_i hnew
        obtain rfl := Option.some.inj hmove
        have hnew : s.manager.heap addr = none := by simpa using hnew
        have hout : addr ∉ s.manager.timers := fun hmem => h.set_alive addr hmem hnew
        exact .cons rfl (undisturbed_of_setTimer rfl (Or.inl hout) (by simp)) (does_nil _)
  | insert u =>
      simp only [State.move, Option.some.injEq] at hmove
      subst hmove
      exact does_addTimer s.manager u
  | front u =>
      obtain rfl := Option.some.inj hmove
      exact does_nil _
  | cancel u =>
      obtain rfl := Option.some.inj hmove
      exact does_cancel h.sorted u
  | refresh u =>
      obtain rfl := Option.some.inj hmove
      exact does_refresh h.sorted u now
  | reset u ms fromNow =>
      obtain rfl := Option.some.inj hmove
      exact does_reset h.sorted u ms fromNow now
  | getNextTimer =>
      obtain rfl := Option.some.inj hmove
      rw [TimerManager.getNextTimer_fst]
      exact .cons rfl (undisturbed_of_heap rfl rfl (by simp)) (does_nil _)
  | expire =>
      simp only [State.move] at hmove
      rw [Pc.stmts]
      split at hmove
      · cases hmove
      · split at hmove
        · rename_i hempty
          obtain rfl := Option.some.inj hmove
          rw [if_pos hempty]
          exact does_nil _
        · rename_i hsome
          obtain rfl := Option.some.inj hmove
          rw [if_neg hsome]
          exact .cons rfl (undisturbed_of_heap rfl rfl (by simp)) (does_nil _)
  | putBack expired cur =>
      obtain rfl := Option.some.inj hmove
      exact does_putBack cur expired s.manager h.sorted (h.hand_nodup tid _ hpc)
        fun u hu => h.hand_out tid _ hpc u hu

/-- The set is in order, and whatever section a thread enters, it is in order at each statement. -/
structure AlwaysOrdered (s : State) : Prop where
  ordered : Ordered s.manager
  section_ordered : ∀ (tid : Nat) pc now addr t, s.threads[tid]? = some pc →
    step s (.move tid now addr) = some t →
    Does s.manager (pc.stmts s.manager now addr) t.manager ∧
      StatesMeet Stmt.run Ordered s.manager (pc.stmts s.manager now addr)

theorem alwaysOrdered_of_inv (h : Inv s.unmarked) : AlwaysOrdered s where
  ordered := ordered_of_sorted h.sorted
  section_ordered := fun tid pc now addr t hpc hstep => by
    have hdoes := does_of_step h hpc hstep
    refine ⟨hdoes, ?_⟩
    exact statesMeet_of_invariant (I := TimerManager.Sorted) (fun _ => ordered_of_sorted)
      (fun _ _ _ => sorted_stmt) _ _ h.sorted hdoes.undisturbed

/-- In every state that any number of threads reach, the set is in order, and so it is at each
statement of the sections. -/
theorem alwaysOrdered_of_run (threads : Nat) (ls : List Label) :
    StatesMeet step AlwaysOrdered (init threads) ls :=
  statesMeet_of_invariant (I := fun s => Inv s.unmarked) (fun _ => alwaysOrdered_of_inv)
    (fun _ _ _ h _ hstep => inv_unmarked_step h hstep) ls _ (inv_init threads)
    (stepsMeet_true ls _)

end Runs

end Timers

end Saturn
