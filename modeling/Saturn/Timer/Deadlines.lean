import Saturn.Misc.ListUpdate
import Saturn.Timer.Sections

/-!
# What the sections of `TimerManager` do to the deadlines in the set

Which timers are in the set behind a section, and with what deadlines, compared with the set before
it.
-/

namespace Saturn

namespace StdSet

variable {α : Type*} {lt : α → α → Bool}

theorem count_insert_le [DecidableEq α] (a x : α) (l : List α) :
    (insert lt a l).count x ≤ l.count x + [a].count x := by
  induction l with
  | nil => simp [insert]
  | cons y l ih =>
      rw [insert]
      split
      · rw [List.count_cons, List.count_cons]
        omega
      · split
        · have happend : (a :: y :: l).count x = [a].count x + (y :: l).count x :=
            count_cons_eq_add a x (y :: l)
          omega
        · omega

/-- What is erased from an ordered set was in it once. -/
theorem perm_erase (ho : IsOrder lt) {a : α} {l : List α} (h : Sorted lt l) (ha : a ∈ l) :
    (a :: erase lt a l).Perm l := by
  induction l with
  | nil => exact absurd ha List.not_mem_nil
  | cons x l ih =>
      obtain ⟨hx, hl⟩ := sorted_cons.mp h
      rw [erase]
      rcases List.mem_cons.mp ha with rfl | ha
      · rw [ho.irrefl]
        exact List.Perm.refl _
      · rw [if_pos (hx a ha)]
        exact (List.Perm.swap x a _).trans ((ih hl ha).cons x)

end StdSet

namespace TimerManager

variable {m : TimerManager}

/-- What is in the set of `m'` is in that of `m`, with the same deadline. -/
def SameDeadlines (m m' : TimerManager) : Prop :=
  ∀ u ∈ m'.timers, u ∈ m.timers ∧ m'.next u = m.next u

theorem next_congr {m' : TimerManager} (h : m'.heap = m.heap) (u : Nat) : m'.next u = m.next u := by
  rw [next, next, h]

/-- The first timer has the earliest deadline. -/
theorem next_head_le (h : m.Sorted) {it : Nat} (hit : m.timers.head? = some it) :
    ∀ u ∈ m.timers, m.next it ≤ m.next u := by
  intro u hu
  obtain ⟨rest, hrest⟩ : ∃ rest, m.timers = it :: rest := by
    cases htimers : m.timers with
    | nil =>
        rw [htimers] at hit
        cases hit
    | cons x rest =>
        rw [htimers] at hit
        cases hit
        exact ⟨rest, rfl⟩
  rw [hrest] at hu
  rcases List.mem_cons.mp hu with rfl | hu
  · exact UInt64.le_refl _
  · have hsorted : StdSet.Sorted m.less (it :: rest) := hrest ▸ h
    have hless := (StdSet.sorted_cons.mp hsorted).1 u hu
    rw [less, keyLess_iff] at hless
    rw [UInt64.le_iff_toNat_le]
    simp only at hless
    omega

theorem sameDeadlines_newTimer {t : Nat} (ht : t ∉ m.timers) (ms : UInt64) (cb : Option Nat)
    (recurring : Bool) (now : UInt64) : m.SameDeadlines (m.newTimer t ms cb recurring now) := by
  intro u hu
  refine ⟨hu, ?_⟩
  rw [newTimer, next_setTimer, if_neg]
  rintro rfl
  exact ht hu

theorem mem_of_mem_erase {t u : Nat} (h : u ∈ (m.erase t).timers) : u ∈ m.timers :=
  (StdSet.erase_sublist t m.timers).subset h

theorem sameDeadlines_cancel (h : m.Sorted) (t : Nat) : m.SameDeadlines (m.cancel t).1 := by
  rcases cancel_cases h t with ⟨heq, -⟩ | ⟨timer, htimer, -, heq⟩
  · rw [heq]
    exact fun u hu => ⟨hu, rfl⟩
  · have hnext : ∀ u, (m.setTimer t { timer with cb := none }).next u = m.next u := by
      intro u
      rw [next_setTimer]
      split
      · rename_i hut
        rw [hut, next_of_heap htimer]
      · rfl
    rw [heq]
    intro u hu
    split at hu
    · rw [if_pos ‹_›]
      have hmem : u ∈ (m.setTimer t { timer with cb := none }).timers := mem_of_mem_erase hu
      exact ⟨hmem, (next_congr rfl u).trans (hnext u)⟩
    · rw [if_neg ‹_›]
      exact ⟨hu, hnext u⟩

theorem sameDeadlines_reset (h : m.Sorted) (t : Nat) (ms : UInt64) (fromNow : Bool)
    (now : UInt64) : m.SameDeadlines (m.reset t ms fromNow now).1 := by
  rcases reset_cases h t ms fromNow now with heq | ⟨timer, next, -, ht, heq⟩
  · rw [heq]
    exact fun u hu => ⟨hu, rfl⟩
  · rw [heq]
    intro u hu
    obtain ⟨hmem, hne⟩ := (mem_erase h ht).mp hu
    refine ⟨hmem, ?_⟩
    rw [next_setTimer, if_neg hne]
    exact next_congr rfl u

theorem sameDeadlines_takeExpired (m : TimerManager) (now : UInt64) (cur : Nat) :
    m.SameDeadlines (m.takeExpired now cur).1 :=
  fun _ hu => ⟨(StdSet.above_sublist _ _).subset hu, rfl⟩

/-- `getNextTimer` returns `~0ull` for the empty set, or for a deadline that is as far ahead. -/
theorem getNextTimer_eq_max {now : UInt64} (h : (m.getNextTimer now).2 = ~~~0)
    (hnext : ∀ t ∈ m.timers.head?, now < m.next t → m.next t - now ≠ ~~~0) : m.timers = [] := by
  unfold getNextTimer at h
  dsimp only at h
  split at h
  · assumption
  · rename_i it rest hit
    have hnext : now < m.next it → m.next it - now ≠ ~~~0 := hnext it (by rw [hit]; rfl)
    have h : (if now < m.next it then m.next it - now else 0) = ~~~0 := h
    split at h
    · rename_i hlt
      exact absurd h (hnext hlt)
    · cases h

/-- Only `addTimer` and `getNextTimer` change `m_tickled`. -/
theorem tickled_cancel (m : TimerManager) (t : Nat) : (m.cancel t).1.tickled = m.tickled := by
  rw [cancel]
  split
  · rfl
  · split
    · dsimp only
      split <;> rfl
    · rfl

theorem tickled_refresh (m : TimerManager) (t : Nat) (now : UInt64) :
    (m.refresh t now).1.tickled = m.tickled := by
  rw [refresh]
  split
  · rfl
  · split
    · rfl
    · split <;> rfl

theorem tickled_reset (m : TimerManager) (t : Nat) (ms : UInt64) (fromNow : Bool) (now : UInt64) :
    (m.reset t ms fromNow now).1.tickled = m.tickled := by
  rw [reset]
  split
  · rfl
  · split
    · rfl
    · split <;> rfl

/-- `refresh` gives one timer the deadline of its period from now. -/
theorem deadlines_refresh (h : m.Sorted) (t : Nat) (now : UInt64) :
    ∀ u ∈ (m.refresh t now).1.timers,
      (u ∈ m.timers ∧ (m.refresh t now).1.next u = m.next u) ∨
      ∃ timer, m.heap t = some timer ∧ t ∈ m.timers ∧
        (m.refresh t now).1.next u = now + timer.ms := by
  rcases refresh_cases h t now with heq | ⟨timer, htimer, ht, heq⟩
  · rw [heq]
    exact fun u hu => Or.inl ⟨hu, rfl⟩
  · rw [heq]
    intro u hu
    rw [next_congr (heap_insert t) u, next_setTimer]
    by_cases hut : u = t
    · rw [if_pos hut]
      exact Or.inr ⟨timer, htimer, ht, rfl⟩
    · rw [if_neg hut]
      have hmem := (mem_insert.mp hu).resolve_left hut
      exact Or.inl ⟨mem_of_mem_erase hmem, next_congr rfl u⟩

theorem heap_addTimer (m : TimerManager) (t : Nat) : (m.addTimer t).1.heap = m.heap := rfl

theorem mem_addTimer {t u : Nat} (h : u ∈ (m.addTimer t).1.timers) : u = t ∨ u ∈ m.timers :=
  mem_insert.mp h

/-- A timer for which `addTimer` does not go on to wake a worker is not at the front, or a worker is on
its way to be woken already. -/
theorem addTimer_not_front {t : Nat} (h : (m.addTimer t).2 = false) :
    (m.addTimer t).1.tickled = m.tickled ∧
      (m.tickled = true ∨ ∃ x ∈ m.timers, m.next x ≤ m.next t) := by
  have hfront : (StdSet.isFront m.less t m.timers && !m.tickled) = false := h
  refine ⟨?_, ?_⟩
  · show (if (StdSet.isFront m.less t m.timers && !m.tickled) = true then true else m.tickled) = _
    rw [hfront]
    rfl
  · rcases Bool.and_eq_false_iff.mp hfront with hfront | htickled
    · cases htimers : m.timers with
      | nil =>
          rw [htimers] at hfront
          cases hfront
      | cons x rest =>
          rw [htimers] at hfront
          have hless : m.less x t = true := by simpa [StdSet.isFront] using hfront
          rw [less, keyLess_iff] at hless
          refine Or.inr ⟨x, List.mem_cons_self, ?_⟩
          rw [UInt64.le_iff_toNat_le]
          simp only at hless
          omega
    · exact Or.inl (by simpa using htickled)

/-- The timers behind one round of the second loop of `listExpiredCb`. -/
def putOne (m : TimerManager) (cur : UInt64) (ex : Nat) (timer : Timer) : TimerManager :=
  if timer.recurring then (m.setTimer ex { timer with next := cur + timer.ms }).insert ex else m

theorem putBack_cons_none {ex : Nat} (h : m.heap ex = none) (cur : UInt64) (expired : List Nat) :
    m.putBack cur (ex :: expired) = m.putBack cur expired := by
  rw [putBack, h]

theorem putBack_cons_some {ex : Nat} {timer : Timer} (h : m.heap ex = some timer) (cur : UInt64)
    (expired : List Nat) : m.putBack cur (ex :: expired) =
      (((m.putOne cur ex timer).putBack cur expired).1,
        timer.cb :: ((m.putOne cur ex timer).putBack cur expired).2) := by
  rw [putBack, h]
  rfl

/-- A round changes a timer's deadline at most. -/
theorem heap_putOne {ex : Nat} {timer : Timer} (h : m.heap ex = some timer) (cur : UInt64) {x : Nat}
    {new : Timer} (hx : (m.putOne cur ex timer).heap x = some new) :
    ∃ old, m.heap x = some old ∧ old.recurring = new.recurring ∧ old.ms = new.ms := by
  unfold putOne at hx
  split at hx
  · rw [heap_insert, heap_setTimer] at hx
    split at hx
    · rename_i hxe
      cases hx
      exact ⟨timer, hxe ▸ h, rfl, rfl⟩
    · exact ⟨new, hx, rfl, rfl⟩
  · exact ⟨new, hx, rfl, rfl⟩

/-- What is put back has the deadline of its period from `cur`. -/
theorem deadlines_putBack (cur : UInt64) (expired : List Nat) : ∀ m : TimerManager,
    ∀ u ∈ (m.putBack cur expired).1.timers,
      (u ∈ m.timers ∧ (m.putBack cur expired).1.next u = m.next u) ∨
      ∃ ex ∈ expired, ∃ timer, m.heap ex = some timer ∧ timer.recurring = true ∧
        (m.putBack cur expired).1.next u = cur + timer.ms := by
  induction expired with
  | nil => exact fun m u hu => Or.inl ⟨hu, rfl⟩
  | cons ex expired ih =>
      intro m u hu
      cases htimer : m.heap ex with
      | none =>
          rw [putBack_cons_none htimer] at hu ⊢
          rcases ih m u hu with hold | ⟨x, hx, hnew⟩
          · exact Or.inl hold
          · exact Or.inr ⟨x, List.mem_cons_of_mem _ hx, hnew⟩
      | some timer =>
          rw [putBack_cons_some htimer] at hu ⊢
          rcases ih _ u hu with ⟨hmem, hnext⟩ | ⟨x, hx, new, hxnew, hrec, hnext⟩
          · rw [hnext]
            unfold putOne at hmem ⊢
            by_cases hrec : timer.recurring = true
            · rw [if_pos hrec] at hmem ⊢
              rw [next_congr (heap_insert ex) u, next_setTimer]
              by_cases hue : u = ex
              · rw [if_pos hue]
                exact Or.inr ⟨ex, List.mem_cons_self, timer, htimer, hrec, rfl⟩
              · rw [if_neg hue]
                exact Or.inl ⟨(mem_insert.mp hmem).resolve_left hue, rfl⟩
            · rw [if_neg hrec] at hmem ⊢
              exact Or.inl ⟨hmem, rfl⟩
          · obtain ⟨old, hold, holdRec, holdMs⟩ := heap_putOne htimer cur hxnew
            refine Or.inr ⟨x, List.mem_cons_of_mem _ hx, old, hold, holdRec.trans hrec, ?_⟩
            rw [hnext, holdMs]

theorem tickled_putOne (m : TimerManager) (cur : UInt64) (ex : Nat) (timer : Timer) :
    (m.putOne cur ex timer).tickled = m.tickled := by
  unfold putOne
  split <;> rfl

/-- `m_tickled` is not touched by what puts back. -/
theorem tickled_putBack (cur : UInt64) (expired : List Nat) : ∀ m : TimerManager,
    (m.putBack cur expired).1.tickled = m.tickled := by
  induction expired with
  | nil => exact fun _ => rfl
  | cons ex expired ih =>
      intro m
      cases htimer : m.heap ex with
      | none => rw [putBack_cons_none htimer, ih]
      | some timer => rw [putBack_cons_some htimer, ih, tickled_putOne]

/-- The callbacks of the timers that were taken out are handed over. -/
theorem cb_mem_putBack (cur : UInt64) (expired : List Nat) : ∀ m : TimerManager,
    ∀ ex ∈ expired, ∀ timer, m.heap ex = some timer →
      timer.cb ∈ (m.putBack cur expired).2 := by
  induction expired with
  | nil => exact fun _ ex hex => absurd hex List.not_mem_nil
  | cons x expired ih =>
      intro m ex hex timer htimer
      cases hx : m.heap x with
      | none =>
          rw [putBack_cons_none hx]
          rcases List.mem_cons.mp hex with rfl | hex
          · rw [htimer] at hx
            cases hx
          · exact ih m ex hex timer htimer
      | some timer' =>
          rw [putBack_cons_some hx]
          rcases List.mem_cons.mp hex with rfl | hmem
          · rw [htimer] at hx
            cases hx
            exact List.mem_cons_self
          · refine List.mem_cons_of_mem _ ?_
            obtain ⟨new, hnew, hcb⟩ : ∃ new, (m.putOne cur x timer').heap ex = some new ∧
                new.cb = timer.cb := by
              unfold putOne
              split
              · rw [heap_insert, heap_setTimer]
                by_cases hexx : ex = x
                · subst hexx
                  rw [htimer] at hx
                  cases hx
                  exact ⟨_, if_pos rfl, rfl⟩
                · exact ⟨timer, by rw [if_neg hexx, htimer], rfl⟩
              · exact ⟨timer, htimer, rfl⟩
            exact hcb ▸ ih _ ex hmem new hnew

theorem count_putBack_le (cur : UInt64) (expired : List Nat) : ∀ (m : TimerManager) (u : Nat),
    (m.putBack cur expired).1.timers.count u ≤ m.timers.count u + expired.count u := by
  induction expired with
  | nil => exact fun _ _ => Nat.le_refl _
  | cons ex expired ih =>
      intro m u
      have hcons : (ex :: expired).count u = [ex].count u + expired.count u :=
        count_cons_eq_add ex u expired
      cases htimer : m.heap ex with
      | none =>
          rw [putBack_cons_none htimer]
          have hrest := ih m u
          omega
      | some timer =>
          rw [putBack_cons_some htimer]
          have hrest := ih (m.putOne cur ex timer) u
          have hone : (m.putOne cur ex timer).timers.count u ≤
              m.timers.count u + [ex].count u := by
            unfold putOne
            split
            · exact StdSet.count_insert_le ex u m.timers
            · omega
          dsimp only
          omega

end TimerManager

end Saturn
