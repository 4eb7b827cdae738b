import Saturn.Timer.Defs

/-!
# What the sections of `TimerManager` do

One lemma a section, for a set that stands in the order of its comparator: what `find` finds is what
is in the set, a timer changes its deadline only while it is out of the set, and so the order is
kept.
-/

namespace Saturn

namespace TimerManager

variable {m : TimerManager}

theorem next_of_heap {t : Nat} {timer : Timer} (h : m.heap t = some timer) :
    m.next t = timer.next := by
  rw [next, h]
  rfl

@[simp] theorem timers_setTimer (t : Nat) (timer : Timer) :
    (m.setTimer t timer).timers = m.timers := rfl

@[simp] theorem heap_insert (t : Nat) : (m.insert t).heap = m.heap := rfl

@[simp] theorem heap_erase (t : Nat) : (m.erase t).heap = m.heap := rfl

theorem heap_setTimer (t : Nat) (timer : Timer) (u : Nat) :
    (m.setTimer t timer).heap u = if u = t then some timer else m.heap u :=
  Function.update_apply ..

/-- The timers of `m'` are those of `m`, of the same kind; there may be new ones. -/
def Keeps (m m' : TimerManager) : Prop :=
  ∀ t timer, m.heap t = some timer →
    ∃ timer', m'.heap t = some timer' ∧ timer'.recurring = timer.recurring

theorem keeps_refl (m : TimerManager) : Keeps m m := fun _ timer h => ⟨timer, h, rfl⟩

theorem Keeps.trans {m₁ m₂ m₃ : TimerManager} (h : Keeps m₁ m₂) (h' : Keeps m₂ m₃) :
    Keeps m₁ m₃ := by
  intro t timer ht
  obtain ⟨timer₂, ht₂, hrec⟩ := h t timer ht
  obtain ⟨timer₃, ht₃, hrec'⟩ := h' t timer₂ ht₂
  exact ⟨timer₃, ht₃, hrec'.trans hrec⟩

theorem keeps_setTimer {t : Nat} {timer : Timer}
    (h : ∀ old, m.heap t = some old → timer.recurring = old.recurring) :
    Keeps m (m.setTimer t timer) := by
  intro u old hu
  rw [heap_setTimer]
  by_cases heq : u = t
  · subst heq
    exact ⟨timer, if_pos rfl, h old hu⟩
  · exact ⟨old, by rw [if_neg heq, hu], rfl⟩

theorem cancel_cases (h : m.Sorted) (t : Nat) :
    ((m.cancel t).1 = m ∧ (m.heap t).any (·.cb.isSome) = false) ∨
    ∃ timer, m.heap t = some timer ∧ (m.heap t).any (·.cb.isSome) = true ∧
      (m.cancel t).1 = if t ∈ m.timers then (m.setTimer t { timer with cb := none }).erase t
        else m.setTimer t { timer with cb := none } := by
  rw [cancel]
  cases hheap : m.heap t with
  | none => exact Or.inl ⟨rfl, rfl⟩
  | some timer =>
      dsimp only
      by_cases hcb : timer.cb.isSome = true
      · refine Or.inr ⟨timer, rfl, hcb, ?_⟩
        have hsorted : (m.setTimer t { timer with cb := none }).Sorted :=
          h.setTimer (Or.inr (next_of_heap hheap).symm)
        rw [if_pos hcb, find_eq hsorted, timers_setTimer]
        by_cases hmem : t ∈ m.timers
        · rw [if_pos hmem, if_pos hmem]
        · rw [if_neg hmem, if_neg hmem]
      · rw [if_neg hcb]
        exact Or.inl ⟨rfl, by simpa using hcb⟩

theorem refresh_eq (h : m.Sorted) (t : Nat) (now : UInt64) :
    m.refresh t now = (m, false) ∨
    ∃ timer, m.heap t = some timer ∧ t ∈ m.timers ∧ m.refresh t now =
      (((m.erase t).setTimer t { timer with next := now + timer.ms }).insert t, true) := by
  rw [refresh]
  cases hheap : m.heap t with
  | none => exact Or.inl rfl
  | some timer =>
      dsimp only
      rw [find_eq h]
      split
      · exact Or.inl rfl
      · by_cases hmem : t ∈ m.timers
        · rw [if_pos hmem]
          exact Or.inr ⟨timer, rfl, hmem, rfl⟩
        · rw [if_neg hmem]
          exact Or.inl rfl

theorem refresh_cases (h : m.Sorted) (t : Nat) (now : UInt64) :
    (m.refresh t now).1 = m ∨
    ∃ timer, m.heap t = some timer ∧ t ∈ m.timers ∧
      (m.refresh t now).1 =
        ((m.erase t).setTimer t { timer with next := now + timer.ms }).insert t := by
  rcases refresh_eq h t now with heq | ⟨timer, htimer, ht, heq⟩
  · exact Or.inl (by rw [heq])
  · exact Or.inr ⟨timer, htimer, ht, by rw [heq]⟩

/-- A timer of the set with a callback is taken out of it by `reset`. -/
theorem reset_of_mem (h : m.Sorted) {t : Nat} {timer : Timer} (htimer : m.heap t = some timer)
    (hcb : timer.cb ≠ none) (ht : t ∈ m.timers) (ms : UInt64) (fromNow : Bool) (now : UInt64) :
    m.reset t ms fromNow now =
      ((m.erase t).setTimer t { timer with
        next := if fromNow then now + timer.ms else timer.next - timer.ms + ms, ms := ms }, true) := by
  have hsome : ¬ timer.cb.isNone = true := fun hnone => hcb (Option.isNone_iff_eq_none.mp hnone)
  rw [reset, htimer]
  dsimp only
  rw [if_neg hsome, find_eq h, if_pos ht]

theorem reset_eq (h : m.Sorted) (t : Nat) (ms : UInt64) (fromNow : Bool) (now : UInt64) :
    m.reset t ms fromNow now = (m, false) ∨
    ∃ timer, m.heap t = some timer ∧ timer.cb ≠ none ∧ t ∈ m.timers := by
  rw [reset]
  cases hheap : m.heap t with
  | none => exact Or.inl rfl
  | some timer =>
      dsimp only
      rw [find_eq h]
      split
      · exact Or.inl rfl
      · rename_i hcb
        by_cases hmem : t ∈ m.timers
        · exact Or.inr ⟨timer, rfl, fun hnone => hcb (Option.isNone_iff_eq_none.mpr hnone), hmem⟩
        · rw [if_neg hmem]
          exact Or.inl rfl

theorem reset_cases (h : m.Sorted) (t : Nat) (ms : UInt64) (fromNow : Bool) (now : UInt64) :
    m.reset t ms fromNow now = (m, false) ∨
    ∃ timer next, m.heap t = some timer ∧ t ∈ m.timers ∧
      m.reset t ms fromNow now =
        ((m.erase t).setTimer t { timer with next := next, ms := ms }, true) := by
  rcases reset_eq h t ms fromNow now with heq | ⟨timer, htimer, hcb, ht⟩
  · exact Or.inl heq
  · exact Or.inr ⟨timer, _, htimer, ht, reset_of_mem h htimer hcb ht ms fromNow now⟩

/-- A timer that is out of the set may be given any deadline and put in. -/
theorem sorted_setTimer_insert (h : m.Sorted) {t : Nat} (ht : t ∉ m.timers) (timer : Timer) :
    ((m.setTimer t timer).insert t).Sorted :=
  (h.setTimer (Or.inl ht)).insert t

theorem sorted_erase_setTimer (h : m.Sorted) {t : Nat} (ht : t ∈ m.timers) (timer : Timer) :
    ((m.erase t).setTimer t timer).Sorted :=
  (h.erase t).setTimer (Or.inl fun hmem => ((mem_erase h ht).mp hmem).2 rfl)

theorem getNextTimer_fst (m : TimerManager) (now : UInt64) :
    (m.getNextTimer now).1 = { m with tickled := false } := by
  unfold getNextTimer
  dsimp only
  split <;> rfl

theorem sorted_takeExpired (h : m.Sorted) (now : UInt64) (cur : Nat) :
    (m.takeExpired now cur).1.Sorted :=
  StdSet.Sorted.sublist h (StdSet.above_sublist _ _)

/-- What `listExpiredCb` takes out and what it leaves are the set as it was. -/
theorem takeExpired_append (now : UInt64) (cur : Nat) :
    (m.takeExpired now cur).2 ++ (m.takeExpired now cur).1.timers = m.timers :=
  StdSet.below_append_above _ _

/-- The second section of `listExpiredCb`, by induction on what it puts back: the recurring ones are
in the set behind it. -/
theorem putBack_spec (cur : UInt64) : ∀ (expired : List Nat) (m : TimerManager), m.Sorted →
    expired.Nodup → (∀ t ∈ expired, t ∉ m.timers ∧ m.heap t ≠ none) →
    (m.putBack cur expired).1.Sorted ∧ Keeps m (m.putBack cur expired).1 ∧
      ∀ u, u ∈ (m.putBack cur expired).1.timers ↔
        u ∈ m.timers ∨ (u ∈ expired ∧ (m.heap u).any Timer.recurring = true) := by
  intro expired
  induction expired with
  | nil =>
      intro m h _ _
      exact ⟨h, keeps_refl m, fun u => by simp [putBack]⟩
  | cons ex expired ih =>
      intro m h hnodup hout
      obtain ⟨hex, hnodup⟩ := List.nodup_cons.mp hnodup
      obtain ⟨hexOut, hexAlive⟩ := hout ex List.mem_cons_self
      obtain ⟨timer, htimer⟩ := Option.ne_none_iff_exists'.mp hexAlive
      rw [putBack, htimer]
      dsimp only
      by_cases hrec : timer.recurring = true
      · rw [if_pos hrec]
        have hkeep : Keeps m ((m.setTimer ex { timer with next := cur + timer.ms }).insert ex) :=
          keeps_setTimer fun old hold => by rw [htimer] at hold; rw [← Option.some.inj hold]
        have hheap : ∀ u, u ≠ ex →
            ((m.setTimer ex { timer with next := cur + timer.ms }).insert ex).heap u = m.heap u :=
          fun u hu => by rw [heap_insert, heap_setTimer, if_neg hu]
        obtain ⟨hsorted, hkeeps, hmem⟩ := ih _ (sorted_setTimer_insert h hexOut _) hnodup (by
          intro t ht
          have hne : t ≠ ex := fun heq => hex (heq ▸ ht)
          obtain ⟨htout, htalive⟩ := hout t (List.mem_cons_of_mem _ ht)
          rw [mem_insert, hheap t hne]
          exact ⟨fun hin => hin.elim hne htout, htalive⟩)
        refine ⟨hsorted, hkeep.trans hkeeps, fun u => ?_⟩
        rw [hmem, mem_insert, timers_setTimer, List.mem_cons]
        by_cases hu : u = ex
        · subst hu
          simp [htimer, hrec]
        · rw [hheap u hu]
          simp [hu]
      · rw [if_neg hrec]
        obtain ⟨hsorted, hkeeps, hmem⟩ := ih m h hnodup fun t ht =>
          hout t (List.mem_cons_of_mem _ ht)
        refine ⟨hsorted, hkeeps, fun u => ?_⟩
        rw [hmem, List.mem_cons]
        by_cases hu : u = ex
        · subst hu
          simp [htimer, hrec, hex]
        · simp [hu]

end TimerManager

end Saturn
