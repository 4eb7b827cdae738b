import Saturn.Timer.Period

/-!
# Operations on one timer

What an operation on one timer leaves alone: the other timers, and which of them are in the set.
-/

namespace Saturn

namespace TimerManager

/-- `m'` is `m` but for the timer at `t`. -/
structure Touches (m m' : TimerManager) (t : Nat) : Prop where
  sorted : m'.Sorted
  alive : t ∈ m'.timers → m'.heap t ≠ none
  kept : m.heap t ≠ none → m'.heap t ≠ none
  heap : ∀ u, u ≠ t → m'.heap u = m.heap u
  timers : ∀ u, u ≠ t → (u ∈ m'.timers ↔ u ∈ m.timers)

/-- The callback of a timer, while there is one, goes by the timer's own number. -/
def OwnCallbacks (m : TimerManager) : Prop :=
  ∀ t timer, m.heap t = some timer → timer.cb = some t ∨ timer.cb = none

variable {m m' : TimerManager} {t : Nat}

theorem touches_self (h : m.Alive) (t : Nat) : Touches m m t :=
  ⟨h.sorted, h.alive t, id, fun _ _ => rfl, fun _ _ => Iff.rfl⟩

theorem Touches.toAlive (htouch : Touches m m' t) (h : m.Alive) : m'.Alive where
  sorted := htouch.sorted
  alive := fun u hu => by
    by_cases hut : u = t
    · subst hut
      exact htouch.alive hu
    · rw [htouch.heap u hut]
      exact h.alive u ((htouch.timers u hut).mp hu)

/-- A timer that is out of the set changes. -/
theorem touches_setTimer (h : m.Alive) (ht : t ∉ m.timers) (timer : Timer) :
    Touches m (m.setTimer t timer) t where
  sorted := h.sorted.setTimer (Or.inl ht)
  alive := fun hmem => absurd hmem ht
  kept := fun _ => by
    rw [heap_setTimer, if_pos rfl]
    exact Option.some_ne_none _
  heap := fun u hu => by rw [heap_setTimer, if_neg hu]
  timers := fun _ _ => Iff.rfl

theorem touches_erase (h : m.Alive) (ht : t ∈ m.timers) : Touches m (m.erase t) t where
  sorted := h.sorted.erase t
  alive := fun _ => h.alive t ht
  kept := id
  heap := fun _ _ => rfl
  timers := fun u hu => by
    rw [mem_erase h.sorted ht]
    exact and_iff_left hu

theorem touches_insert (h : m.Alive) (ht : m.heap t ≠ none) : Touches m (m.insert t) t where
  sorted := h.sorted.insert t
  alive := fun _ => ht
  kept := id
  heap := fun _ _ => rfl
  timers := fun u hu => by
    rw [mem_insert]
    exact or_iff_right hu

theorem touches_addTimer (h : m.Alive) (ht : m.heap t ≠ none) : Touches m (m.addTimer t).1 t :=
  ⟨(touches_insert h ht).sorted, (touches_insert h ht).alive, id, (touches_insert h ht).heap,
    (touches_insert h ht).timers⟩

theorem Touches.trans {m'' : TimerManager} (h : Touches m m' t) (h' : Touches m' m'' t) :
    Touches m m'' t where
  sorted := h'.sorted
  alive := h'.alive
  kept := h'.kept ∘ h.kept
  heap := fun u hu => (h'.heap u hu).trans (h.heap u hu)
  timers := fun u hu => (h'.timers u hu).trans (h.timers u hu)

/-- `cancel` leaves the timer without a callback, and out of the set if it had one. -/
theorem touches_cancel (h : m.Alive) (t : Nat) : Touches m (m.cancel t).1 t ∧
    (t ∈ (m.cancel t).1.timers → t ∈ m.timers ∧ (m.heap t).any (·.cb.isSome) = false) ∧
    ∀ timer', (m.cancel t).1.heap t = some timer' →
      ∃ timer, m.heap t = some timer ∧ (timer' = timer ∨ timer' = { timer with cb := none }) := by
  rcases cancel_cases h.sorted t with ⟨hsame, hcb⟩ | ⟨timer, htimer, hcb, hcancel⟩
  · rw [hsame]
    exact ⟨touches_self h t, fun hmem => ⟨hmem, hcb⟩, fun timer' htimer' =>
      ⟨timer', htimer', Or.inl rfl⟩⟩
  · have hset : (m.setTimer t { timer with cb := none }).Sorted :=
      h.sorted.setTimer (Or.inr (next_of_heap htimer).symm)
    have hheap (u : Nat) : (m.setTimer t { timer with cb := none }).heap u =
        if u = t then some { timer with cb := none } else m.heap u := heap_setTimer ..
    rw [hcancel]
    split
    · rename_i hmem
      have hsome : ((m.setTimer t { timer with cb := none }).erase t).heap t ≠ none := by
        rw [heap_erase, hheap, if_pos rfl]
        exact Option.some_ne_none _
      refine ⟨⟨hset.erase t, fun _ => hsome, fun _ => hsome, fun u hu => ?_, fun u hu => ?_⟩,
        fun hin => ?_, fun timer' htimer' => ?_⟩
      · rw [heap_erase, hheap, if_neg hu]
      · rw [mem_erase hset hmem]
        exact and_iff_left hu
      · exact absurd rfl ((mem_erase hset hmem).mp hin).2
      · rw [heap_erase, hheap, if_pos rfl] at htimer'
        exact ⟨timer, htimer, Or.inr (Option.some.inj htimer').symm⟩
    · rename_i hmem
      refine ⟨touches_setTimer h hmem _, fun hin => absurd hin hmem, fun timer' htimer' => ?_⟩
      rw [hheap, if_pos rfl] at htimer'
      exact ⟨timer, htimer, Or.inr (Option.some.inj htimer').symm⟩

/-- A timer of the set goes to another deadline. -/
theorem touches_rearm (h : m.Alive) (ht : t ∈ m.timers) (timer : Timer) :
    Touches m (((m.erase t).setTimer t timer).insert t) t := by
  have herase := touches_erase h ht
  have hout : t ∉ (m.erase t).timers := fun hin => ((mem_erase h.sorted ht).mp hin).2 rfl
  have hset := herase.trans (touches_setTimer (herase.toAlive h) hout timer)
  refine hset.trans (touches_insert (hset.toAlive h) ?_)
  rw [heap_setTimer, if_pos rfl]
  exact Option.some_ne_none _

theorem Touches.ownCallbacks (htouch : Touches m m' t) (h : m.OwnCallbacks)
    (ht : ∀ timer, m'.heap t = some timer → timer.cb = some t ∨ timer.cb = none) :
    m'.OwnCallbacks := by
  intro u timer hu
  by_cases hut : u = t
  · subst hut
    exact ht timer hu
  · rw [htouch.heap u hut] at hu
    exact h u timer hu

end TimerManager

end Saturn
