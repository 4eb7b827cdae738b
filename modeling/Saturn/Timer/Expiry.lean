import Saturn.Timer.Order

/-!
# What `listExpiredCb` fires

`listExpiredCb` looks for the end of what is due with a timer made for the purpose, and the comparator
goes on to the addresses where the deadlines are equal. So a timer that is due at this very
millisecond fires only if it lies below the new one.
-/

namespace Saturn

namespace TimerManager

/-- `m_cb` of the timer at `t`. -/
def cb (m : TimerManager) (t : Nat) : Option Nat := (m.heap t).bind Timer.cb

/-- `m_recurring` of the timer at `t`. -/
def recurring (m : TimerManager) (t : Nat) : Bool := (m.heap t).any Timer.recurring

/-- `listExpiredCb`, with nothing between its sections; the timer for the current time is at `cur`. -/
def listExpiredCb (m : TimerManager) (now : UInt64) (cur : Nat) :
    TimerManager × List (Option Nat) :=
  if m.timers.isEmpty then (m, [])
  else
    let (m, expired) := m.takeExpired now cur
    m.putBack now expired

/-- What becomes of a timer that fires. -/
def rearm (now : UInt64) (timer : Timer) : Timer :=
  if timer.recurring then { timer with next := now + timer.ms } else timer

/-- With the result `r`, the timers `fired` have fired, and they are those that are due: each once and
the earlier deadlines first. The recurring ones are back in the set with their next deadline, and no
other timer has changed. -/
structure Fires (m : TimerManager) (now : UInt64) (fired : List Nat)
    (r : TimerManager × List (Option Nat)) : Prop where
  once : fired.Nodup
  due : ∀ t, t ∈ fired ↔ t ∈ m.timers ∧ m.next t ≤ now
  early_first : fired.Pairwise fun t u => m.next t ≤ m.next u
  cbs : r.2 = fired.map m.cb
  set : ∀ t, t ∈ r.1.timers ↔ t ∈ m.timers ∧ (m.next t ≤ now → m.recurring t = true)
  set_once : r.1.timers.Nodup
  heap : ∀ t, r.1.heap t = if t ∈ fired then (m.heap t).map (rearm now) else m.heap t

/-- `listExpiredCb` fires the timers that are due. -/
def FiresDue (m : TimerManager) (now : UInt64) (cur : Nat) : Prop :=
  ∃ fired, m.Fires now fired (m.listExpiredCb now cur)

/-- The set of `m'` is that of `m` with its timers at other addresses. -/
structure Relocated (σ : Nat → Nat) (m m' : TimerManager) : Prop where
  inj : ∀ t ∈ m.timers, ∀ u ∈ m.timers, σ t = σ u → t = u
  timers : ∀ u, u ∈ m'.timers ↔ ∃ t ∈ m.timers, σ t = u
  heap : ∀ t ∈ m.timers, m'.heap (σ t) = m.heap t
  sorted : m'.Sorted

/-- The same timers have fired, in the same order up to equal deadlines, and the same became of every
timer. -/
def SameUpToTies (σ : Nat → Nat) (m m' : TimerManager) (r r' : TimerManager × List (Option Nat)) :
    Prop :=
  (∃ fired fired' : List Nat, r.2 = fired.map m.cb ∧ r'.2 = fired'.map m'.cb ∧ fired'.Perm (fired.map σ) ∧
    fired'.map m'.next = fired.map m.next) ∧
  ∀ t ∈ m.timers, (σ t ∈ r'.1.timers ↔ t ∈ r.1.timers) ∧ r'.1.heap (σ t) = r.1.heap t

/-- The result does not depend on where the timers are. -/
def AddressFree (m : TimerManager) (now : UInt64) (cur : Nat) : Prop :=
  ∀ σ m' cur', Relocated σ m m' → m'.heap cur' = none →
    SameUpToTies σ m m' (m.listExpiredCb now cur) (m'.listExpiredCb now cur')

variable {m : TimerManager}

theorem heap_of_putOne {ex : Nat} {timer : Timer} (htimer : m.heap ex = some timer)
    (cur : UInt64) (t : Nat) :
    (m.putOne cur ex timer).heap t = if t = ex then some (rearm cur timer) else m.heap t := by
  unfold putOne rearm
  split
  · rw [heap_insert, heap_setTimer]
  · split
    · rename_i hte
      rw [hte, htimer]
    · rfl

/-- The second section hands over the callbacks in order and arms again what it puts back. -/
theorem putBack_fires (cur : UInt64) (expired : List Nat) : ∀ m : TimerManager, expired.Nodup →
    (∀ t ∈ expired, m.heap t ≠ none) →
    (m.putBack cur expired).2 = expired.map m.cb ∧
      ∀ t, (m.putBack cur expired).1.heap t =
        if t ∈ expired then (m.heap t).map (rearm cur) else m.heap t := by
  induction expired with
  | nil => exact fun m _ _ => ⟨rfl, fun t => rfl⟩
  | cons ex expired ih =>
      intro m hnodup halive
      obtain ⟨hex, hnodup⟩ := List.nodup_cons.mp hnodup
      obtain ⟨timer, htimer⟩ := Option.ne_none_iff_exists'.mp (halive ex List.mem_cons_self)
      have hheap := heap_of_putOne htimer cur
      have hother : ∀ t ∈ expired, (m.putOne cur ex timer).heap t = m.heap t := fun t ht => by
        rw [hheap, if_neg fun hte : t = ex => hex (hte ▸ ht)]
      obtain ⟨hcbs, hrest⟩ := ih (m.putOne cur ex timer) hnodup fun t ht => by
        rw [hother t ht]
        exact halive t (List.mem_cons_of_mem _ ht)
      rw [putBack_cons_some htimer]
      refine ⟨?_, fun t => ?_⟩
      · have hcb : m.cb ex = timer.cb := by rw [cb, htimer, Option.bind_some]
        rw [hcbs, List.map_cons, hcb]
        exact congrArg _ (List.map_congr_left fun t ht => by rw [cb, hother t ht, cb])
      · rw [hrest]
        by_cases hte : t = ex
        · subst hte
          rw [if_neg hex, if_pos List.mem_cons_self, hheap, if_pos rfl, htimer, Option.map_some]
        · rw [hheap, if_neg hte]
          simp only [List.mem_cons, hte, false_or]

/-! ## What is taken out -/

section Due

variable {now : UInt64} {cur : Nat}

/-- The bound cuts the set in two. -/
theorem after_mono (h : m.Sorted) (now : UInt64) (cur : Nat) :
    m.timers.Pairwise fun t u =>
      keyLess (now, cur) (m.next t, t) = true → keyLess (now, cur) (m.next u, u) = true := by
  refine h.imp fun {t u} htu hafter => ?_
  rw [less, keyLess_iff] at htu
  rw [keyLess_iff] at hafter ⊢
  simp only at htu hafter ⊢
  omega

theorem mem_taken (h : m.Sorted) (now : UInt64) (cur t : Nat) :
    t ∈ (m.takeExpired now cur).2 ↔
      t ∈ m.timers ∧ (m.next t ≤ now ∧ (m.next t = now → t ≤ cur)) := by
  have htaken : (m.takeExpired now cur).2 =
      m.timers.filter fun t => !keyLess (now, cur) (m.next t, t) :=
    StdSet.below_eq_filter _ (after_mono h now cur)
  rw [htaken, List.mem_filter, Bool.not_eq_true', ← Bool.not_eq_true, keyLess_iff,
    UInt64.le_iff_toNat_le, ← UInt64.toNat_inj]
  simp only
  refine and_congr_right fun _ => ?_
  omega

theorem mem_left (h : m.Sorted) (now : UInt64) (cur t : Nat) :
    t ∈ (m.takeExpired now cur).1.timers ↔ t ∈ m.timers ∧ t ∉ (m.takeExpired now cur).2 := by
  have hleft : (m.takeExpired now cur).1.timers =
      m.timers.filter fun t => keyLess (now, cur) (m.next t, t) :=
    StdSet.above_eq_filter _ (after_mono h now cur)
  have htaken : (m.takeExpired now cur).2 =
      m.timers.filter fun t => !keyLess (now, cur) (m.next t, t) :=
    StdSet.below_eq_filter _ (after_mono h now cur)
  rw [hleft, htaken, List.mem_filter, List.mem_filter, Bool.not_eq_true', ← Bool.not_eq_true]
  tauto

/-- What every run keeps to, and what `listExpiredCb` relies on. -/
structure Alive (m : TimerManager) : Prop where
  sorted : m.Sorted
  alive : ∀ t ∈ m.timers, m.heap t ≠ none

/-- The whole of `listExpiredCb`: the timers taken out fire, whether they are all that are due or
not. -/
theorem listExpiredCb_spec (h : m.Alive) (now : UInt64) (cur : Nat) :
    (m.takeExpired now cur).2.Nodup ∧
    (m.takeExpired now cur).2.Pairwise (fun t u => m.next t ≤ m.next u) ∧
    (m.listExpiredCb now cur).2 = (m.takeExpired now cur).2.map m.cb ∧
    (m.listExpiredCb now cur).1.Sorted ∧
    (∀ t, t ∈ (m.listExpiredCb now cur).1.timers ↔
      t ∈ m.timers ∧ (t ∈ (m.takeExpired now cur).2 → m.recurring t = true)) ∧
    ∀ t, (m.listExpiredCb now cur).1.heap t =
      if t ∈ (m.takeExpired now cur).2 then (m.heap t).map (rearm now) else m.heap t := by
  have hsub : (m.takeExpired now cur).2.Sublist m.timers := StdSet.below_sublist _ _
  have hnodup : (m.takeExpired now cur).2.Nodup :=
    (StdSet.Sorted.nodup m.isOrder_less h.sorted).sublist hsub
  have horder : (m.takeExpired now cur).2.Pairwise fun t u => m.next t ≤ m.next u := by
    refine (h.sorted.sublist hsub).imp fun {t u} htu => ?_
    rw [less, keyLess_iff] at htu
    rw [UInt64.le_iff_toNat_le]
    simp only at htu
    omega
  refine ⟨hnodup, horder, ?_⟩
  rw [listExpiredCb]
  by_cases hempty : m.timers.isEmpty = true
  · have hnil : m.timers = [] := List.isEmpty_iff.mp hempty
    have htaken : (m.takeExpired now cur).2 = [] := List.sublist_nil.mp (hnil ▸ hsub)
    rw [if_pos hempty, htaken]
    refine ⟨rfl, h.sorted, fun t => ?_, fun t => (if_neg List.not_mem_nil).symm⟩
    exact ⟨fun ht => ⟨ht, fun hin => absurd hin List.not_mem_nil⟩, And.left⟩
  · have halive : ∀ t ∈ (m.takeExpired now cur).2, m.heap t ≠ none := fun t ht =>
      h.alive t (hsub.subset ht)
    rw [if_neg hempty]
    obtain ⟨hcbs, hheap⟩ := putBack_fires now (m.takeExpired now cur).2 (m.takeExpired now cur).1
      hnodup halive
    obtain ⟨hsorted, -, hset⟩ := putBack_spec now (m.takeExpired now cur).2
      (m.takeExpired now cur).1 (sorted_takeExpired h.sorted now cur) hnodup fun t ht =>
        ⟨fun hin => ((mem_left h.sorted now cur t).mp hin).2 ht, halive t ht⟩
    refine ⟨hcbs, hsorted, fun t => ?_, hheap⟩
    have hmem := (mem_left h.sorted now cur t)
    rw [hset, hmem]
    constructor
    · rintro (⟨ht, hnot⟩ | ⟨ht, hrec⟩)
      · exact ⟨ht, fun hin => absurd hin hnot⟩
      · exact ⟨hsub.subset ht, fun _ => hrec⟩
    · rintro ⟨ht, hrec⟩
      by_cases hin : t ∈ (m.takeExpired now cur).2
      · exact Or.inr ⟨hin, hrec hin⟩
      · exact Or.inl ⟨ht, hin⟩

/-- The timers that are due fire just when none that is due now lies above the timer that the search
goes by. -/
theorem firesDue_iff_taken (h : m.Alive) : m.FiresDue now cur ↔
    ∀ t ∈ m.timers, m.next t = now → t ≤ cur := by
  obtain ⟨hnodup, horder, hcbs, hsorted, hset, hheap⟩ := listExpiredCb_spec h now cur
  have hmem := mem_taken h.sorted now cur
  constructor
  · rintro ⟨fired, hfires⟩ t ht hnow
    by_contra hcur
    -- the timer is due and not taken, so more have fired than were taken
    have hsub : t :: (m.takeExpired now cur).2 ⊆ fired := by
      intro u hu
      rw [hfires.due]
      rcases List.mem_cons.mp hu with rfl | hu
      · exact ⟨ht, hnow ▸ UInt64.le_refl _⟩
      · exact ⟨((hmem u).mp hu).1, ((hmem u).mp hu).2.1⟩
    have hnot : t ∉ (m.takeExpired now cur).2 := fun hin => hcur (((hmem t).mp hin).2.2 hnow)
    have hle := (List.subperm_of_subset (List.nodup_cons.mpr ⟨hnot, hnodup⟩) hsub).length_le
    have hlen := congrArg List.length (hfires.cbs.symm.trans hcbs)
    rw [List.length_map, List.length_map] at hlen
    rw [List.length_cons] at hle
    omega
  · intro hties
    have hdue : ∀ t, t ∈ (m.takeExpired now cur).2 ↔ t ∈ m.timers ∧ m.next t ≤ now := fun t =>
      (hmem t).trans (and_congr_right fun ht => and_iff_left (hties t ht))
    refine ⟨_, hnodup, hdue, horder, hcbs, fun t => ?_,
      StdSet.Sorted.nodup (isOrder_less _) hsorted, hheap⟩
    rw [hset, hdue]
    exact and_congr_right fun ht => ⟨fun hrec hle => hrec ⟨ht, hle⟩, fun hrec hle => hrec hle.2⟩

end Due

/-! ## Addresses -/

section Addresses

variable {m' : TimerManager} {σ : Nat → Nat} {now : UInt64} {cur : Nat}

theorem Relocated.next (h : Relocated σ m m') {t : Nat} (ht : t ∈ m.timers) :
    m'.next (σ t) = m.next t := by
  rw [TimerManager.next, TimerManager.next, h.heap t ht]

theorem Relocated.alive (h : Relocated σ m m') (halive : m.Alive) : m'.Alive where
  sorted := h.sorted
  alive := fun u hu => by
    obtain ⟨t, ht, rfl⟩ := (h.timers u).mp hu
    rw [h.heap t ht]
    exact halive.alive t ht

/-- Where no timer is due at this very millisecond, what is taken out is the same wherever the timers
are. -/
theorem taken_of_relocated (h : m.Alive) (hrel : Relocated σ m m')
    (hnone : ∀ t ∈ m.timers, m.next t ≠ now) (cur cur' : Nat) :
    (m'.takeExpired now cur').2.Perm ((m.takeExpired now cur).2.map σ) := by
  obtain ⟨hnodup, -⟩ := listExpiredCb_spec h now cur
  obtain ⟨hnodup', -⟩ := listExpiredCb_spec (hrel.alive h) now cur'
  have hmem := mem_taken h.sorted now cur
  have hmem' := mem_taken hrel.sorted now cur'
  have hmap : ((m.takeExpired now cur).2.map σ).Nodup :=
    hnodup.map_on fun t ht u hu => hrel.inj t ((hmem t).mp ht).1 u ((hmem u).mp hu).1
  refine (List.perm_ext_iff_of_nodup hnodup' hmap).mpr fun u => ?_
  rw [hmem', List.mem_map]
  constructor
  · rintro ⟨hu, hle, -⟩
    obtain ⟨t, ht, rfl⟩ := (hrel.timers u).mp hu
    rw [hrel.next ht] at hle
    exact ⟨t, (hmem t).mpr ⟨ht, hle, fun heq => absurd heq (hnone t ht)⟩, rfl⟩
  · rintro ⟨t, ht, rfl⟩
    obtain ⟨ht, hle, -⟩ := (hmem t).mp ht
    rw [hrel.next ht]
    exact ⟨(hrel.timers _).mpr ⟨t, ht, rfl⟩, hle, fun heq => absurd heq (hnone t ht)⟩

theorem addressFree_of_none (h : m.Alive) (hnone : ∀ t ∈ m.timers, m.next t ≠ now) :
    m.AddressFree now cur := by
  intro σ m' cur' hrel _
  obtain ⟨hnodup, horder, hcbs, -, hset, hheap⟩ := listExpiredCb_spec h now cur
  obtain ⟨-, horder', hcbs', -, hset', hheap'⟩ := listExpiredCb_spec (hrel.alive h) now cur'
  have hperm := taken_of_relocated h hrel hnone cur cur'
  have hsub : ∀ t ∈ (m.takeExpired now cur).2, t ∈ m.timers := fun t ht =>
    ((mem_taken h.sorted now cur t).mp ht).1
  have hfired : ∀ t ∈ m.timers,
      (σ t ∈ (m'.takeExpired now cur').2 ↔ t ∈ (m.takeExpired now cur).2) := by
    intro t ht
    rw [hperm.mem_iff, List.mem_map]
    constructor
    · rintro ⟨u, hu, heq⟩
      exact hrel.inj u (hsub u hu) t ht heq ▸ hu
    · exact fun hin => ⟨t, hin, rfl⟩
  refine ⟨⟨_, _, hcbs, hcbs', hperm, ?_⟩, fun t ht => ⟨?_, ?_⟩⟩
  · have hnext : ((m.takeExpired now cur).2.map σ).map m'.next =
        (m.takeExpired now cur).2.map m.next := by
      rw [List.map_map]
      exact List.map_congr_left fun t ht => hrel.next (hsub t ht)
    exact List.Perm.eq_of_pairwise (fun a b _ _ => UInt64.le_antisymm)
      (List.pairwise_map.mpr horder') (List.pairwise_map.mpr horder) (hnext ▸ hperm.map m'.next)
  · have hrec : m'.recurring (σ t) = m.recurring t := by
      rw [recurring, recurring, hrel.heap t ht]
    rw [hset, hset', hfired t ht, hrec]
    exact and_congr_left' (iff_of_true ((hrel.timers _).mpr ⟨t, ht, rfl⟩) ht)
  · rw [hheap, hheap', hrel.heap t ht]
    simp only [hfired t ht]

/-- The timers one address further up. -/
def shifted (m : TimerManager) : TimerManager where
  heap := fun t => match t with
    | 0 => none
    | t + 1 => m.heap t
  timers := m.timers.map (· + 1)
  tickled := m.tickled

theorem relocated_shifted (h : m.Sorted) : Relocated (· + 1) m m.shifted where
  inj := fun _ _ _ _ heq => Nat.succ.inj heq
  timers := fun _ => List.mem_map
  heap := fun _ _ => rfl
  sorted := by
    refine List.pairwise_map.mpr (h.imp fun {t u} htu => ?_)
    rw [less, keyLess_iff] at htu ⊢
    have hnext : ∀ t, m.shifted.next (t + 1) = m.next t := fun _ => rfl
    rw [hnext, hnext]
    simp only at htu ⊢
    omega

/-- A timer that is due at this very millisecond fires or does not, by where it is. -/
theorem not_addressFree (h : m.Alive) (hdue : m.FiresDue now cur) {t : Nat} (ht : t ∈ m.timers)
    (hnow : m.next t = now) : ¬ m.AddressFree now cur := by
  intro hfree
  have hrel := relocated_shifted h.sorted
  obtain ⟨⟨fired, fired', hfired, hfired', hperm, -⟩, -⟩ := hfree _ m.shifted 0 hrel rfl
  obtain ⟨hnodup, -, hcbs, -⟩ := listExpiredCb_spec h now cur
  obtain ⟨hnodup', -, hcbs', -⟩ := listExpiredCb_spec (hrel.alive h) now 0
  have hmem := mem_taken h.sorted now cur
  have hmem' := mem_taken hrel.sorted now 0
  have hties := (firesDue_iff_taken h).mp hdue
  have hlen : (m.takeExpired now cur).2.length = (m.shifted.takeExpired now 0).2.length := by
    have hone := congrArg List.length (hcbs.symm.trans hfired)
    have htwo := congrArg List.length (hcbs'.symm.trans hfired')
    have hthree := hperm.length_eq
    simp only [List.length_map] at hone htwo hthree
    omega
  have hnot : t + 1 ∉ (m.shifted.takeExpired now 0).2 := fun hin =>
    absurd (((hmem' _).mp hin).2.2 hnow) (by omega)
  have hsub : (t + 1) :: (m.shifted.takeExpired now 0).2 ⊆
      (m.takeExpired now cur).2.map (· + 1) := by
    intro u hu
    rw [List.mem_map]
    rcases List.mem_cons.mp hu with rfl | hu
    · exact ⟨t, (hmem t).mpr ⟨ht, hnow ▸ UInt64.le_refl _, hties t ht⟩, rfl⟩
    · obtain ⟨hu, hle, -⟩ := (hmem' u).mp hu
      obtain ⟨x, hx, rfl⟩ := (hrel.timers u).mp hu
      exact ⟨x, (hmem x).mpr ⟨hx, hle, hties x hx⟩, rfl⟩
  have hle := (List.subperm_of_subset (List.nodup_cons.mpr ⟨hnot, hnodup'⟩) hsub).length_le
  rw [List.length_cons, List.length_map] at hle
  omega

end Addresses

end TimerManager

namespace Timers

theorem alive_of_run {threads : Nat} {ls : List Label} {s : State}
    (h : run step (init threads) ls = some s) : s.manager.Alive := by
  have hinv : Inv s.unmarked := run_invariant (I := fun s => Inv s.unmarked)
    (fun _ _ _ hinv _ hstep => inv_unmarked_step hinv hstep) ls _ _ (inv_init threads)
    (stepsMeet_true ls _) h
  exact ⟨hinv.sorted, hinv.set_alive⟩

/-- `listExpiredCb` without a step of another thread between its sections. -/
theorem manager_of_expire {s t : State} {tid : Nat} (hpc : s.threads[tid]? = some .expire)
    (hsome : s.manager.timers ≠ []) {now now' : UInt64} {cur addr : Nat}
    (h : run step s [.move tid now cur, .move tid now' addr] = some t) :
    t.manager = (s.manager.listExpiredCb now cur).1 := by
  have hempty : s.manager.timers.isEmpty = false := List.isEmpty_eq_false_iff.mpr hsome
  obtain ⟨s₁, hfirst, hrest⟩ := Option.bind_eq_some_iff.mp h
  obtain ⟨s₂, hsecond, hlast⟩ := Option.bind_eq_some_iff.mp hrest
  obtain rfl := Option.some.inj hlast
  simp only [step, hpc, State.move, hempty] at hfirst
  split at hfirst
  · cases hfirst
  · obtain rfl := Option.some.inj hfirst
    have hlt : tid < s.threads.length := (List.getElem?_eq_some_iff.mp hpc).1
    simp only [step, State.leave, List.getElem?_set_self hlt, State.move] at hsecond
    obtain rfl := Option.some.inj hsecond
    rw [TimerManager.listExpiredCb, hempty]
    rfl

/-- Of any set of timers that the threads reach, `listExpiredCb` fires exactly what is due if no timer
that is due at this very millisecond lies above the one made for the search; and it does so wherever the
timers are if there is none. -/
theorem firesDue_of_run_iff (threads : Nat) (ls : List Label) (s : State)
    (h : run step (init threads) ls = some s) (now : UInt64) (cur : Nat)
    (hcur : s.manager.heap cur = none) :
    (s.manager.FiresDue now cur ↔ ∀ t ∈ s.manager.timers, s.manager.next t = now → t < cur) ∧
    (s.manager.FiresDue now cur ∧ s.manager.AddressFree now cur ↔
      ∀ t ∈ s.manager.timers, s.manager.next t ≠ now) := by
  have halive := alive_of_run h
  have hfires : s.manager.FiresDue now cur ↔
      ∀ t ∈ s.manager.timers, s.manager.next t = now → t < cur := by
    rw [TimerManager.firesDue_iff_taken halive]
    refine forall₂_congr fun t ht => imp_congr_right fun _ => ?_
    have hne : t ≠ cur := fun heq => halive.alive t ht (heq ▸ hcur)
    omega
  refine ⟨hfires, fun hboth t ht hnow => ?_, fun hnone => ⟨?_, ?_⟩⟩
  · exact TimerManager.not_addressFree halive hboth.1 ht hnow hboth.2
  · exact hfires.mpr fun t ht hnow => absurd hnow (hnone t ht)
  · exact TimerManager.addressFree_of_none halive hnone

/-- One timer, at the address 7 and due at 110. -/
def oneTimer : List Label :=
  [.call 0 (.addTimer 10 (some 0) false), .move 0 100 7, .move 0 0 0, .move 0 0 0]

/-- The state with one timer. -/
def oneTimerState : State := (run step (init 1) oneTimer).get (by decide)

theorem firesDue_oneTimer : oneTimerState.manager.FiresDue 110 9 :=
  (firesDue_of_run_iff 1 oneTimer oneTimerState (Option.some_get _).symm 110 9 (by decide)).1.mpr
    (by decide)

/-- With the timer for the search at the address 3, nothing fires at 110. -/
theorem oneTimer_not_firesDue : ¬ ∀ (threads : Nat) (ls : List Label) (s : State),
    run step (init threads) ls = some s → ∀ now cur, s.manager.heap cur = none →
      s.manager.FiresDue now cur := by
  intro h
  obtain ⟨fired, hfires⟩ := h 1 oneTimer oneTimerState (Option.some_get _).symm 110 3 (by decide)
  have hmem : 7 ∈ fired := (hfires.due 7).mpr (by decide)
  have hcbs : (oneTimerState.manager.listExpiredCb 110 3).2 = [] := by decide
  rw [List.map_eq_nil_iff.mp (hfires.cbs.symm.trans hcbs)] at hmem
  cases hmem

end Timers

end Saturn
