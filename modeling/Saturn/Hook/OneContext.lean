import Saturn.Hook.FdManager

/-!
# One context for each descriptor

Threads call `get`, `del` and the setters of the contexts they were given. Between the shared
section in which `get` finds an empty slot and the unique section in which it fills it, another
thread may have filled it: then that context is replaced, although it has been handed out.
-/

namespace Saturn

namespace Hook

namespace Table

/-- The calls of `FdManager`. -/
inductive Call where
  | get (fd : Int) (autoCreate : Bool)
  | del (fd : Int)
  deriving DecidableEq, Repr

/-- The step that a thread takes next. -/
inductive Pc where
  /-- Outside, with what its last `get` returned. -/
  | out (result : Option Nat)
  /-- The test of the sign of `fd` and the shared section of `get`. -/
  | lookup (fd : Int) (autoCreate : Bool)
  /-- `new FdContext(fd)` -/
  | create (fd : Nat)
  /-- The unique section of `get`. -/
  | insert (fd ctx : Nat)
  /-- The section of `del`. -/
  | del (fd : Int)
  deriving DecidableEq, Repr

/-- The first statement of a call. -/
def Call.start : Call → Pc
  | .get fd autoCreate => .lookup fd autoCreate
  | .del fd => .del fd

/-- An `FdContext*` is an index into `heap`, which has every context ever created. -/
structure State where
  manager : FdManager Nat
  heap : List FdContext
  threads : List Pc
  /-- The non-null results of `get`, with their descriptor, since its last `del`. -/
  handed : List (Nat × Nat)
  deriving DecidableEq

/-- A step: thread `tid` makes a call, or goes on (`stat` is what `fstat` says when it constructs a
context), or somebody sets a field of a context. -/
inductive Label where
  | call (tid : Nat) (c : Call)
  | move (tid : Nat) (stat : Option Bool)
  | setTimeout (ctx : Nat) (type : Int) (v : UInt64)
  | setUserNonblock (ctx : Nat) (v : Bool)

namespace State

/-- Thread `tid` goes on. -/
def setPc (s : State) (tid : Nat) (pc : Pc) : State := { s with threads := s.threads.set tid pc }

/-- `get` returns context `ctx` for `fd`. -/
def hand (s : State) (fd ctx : Nat) : State := { s with handed := (fd, ctx) :: s.handed }

/-- A holder of the context sets a timeout. -/
def setTimeout (s : State) (ctx : Nat) (type : Int) (v : UInt64) : State :=
  { s with heap := s.heap.modify ctx (·.setTimeout type v) }

/-- A holder of the context reads a timeout. -/
def getTimeout (s : State) (ctx : Nat) (type : Int) : Option UInt64 :=
  s.heap[ctx]?.map (·.getTimeout type)

/-- A holder of the context sets the flag. -/
def setUserNonblock (s : State) (ctx : Nat) (v : Bool) : State :=
  { s with heap := s.heap.modify ctx (·.setUserNonblock v) }

/-- A holder of the context reads the flag. -/
def getUserNonblock (s : State) (ctx : Nat) : Option Bool := s.heap[ctx]?.map (·.userNonblock)

/-- `del(fd)`; what `get` returned for `fd` up to now counts no more. -/
def del (s : State) (fd : Int) : State :=
  { s with
    manager := s.manager.del fd
    handed := s.handed.filter fun h => (h.1 : Int) ≠ fd }

/-- The next step of thread `tid`. -/
def move (s : State) (tid : Nat) (stat : Option Bool) : Pc → Option State
  | .out _ => none
  | .lookup fd autoCreate =>
      if fd < 0 then some (s.setPc tid (.out none))
      else
        match s.manager.lookup fd.toNat autoCreate with
        | none => some (s.setPc tid (.create fd.toNat))
        | some none => some (s.setPc tid (.out none))
        | some (some ctx) => some ((s.hand fd.toNat ctx).setPc tid (.out (some ctx)))
  | .create fd =>
      some (State.setPc { s with heap := s.heap ++ [.new fd stat] } tid (.insert fd s.heap.length))
  | .insert fd ctx =>
      some ((State.hand { s with manager := s.manager.insert fd ctx } fd ctx).setPc tid
        (.out (some ctx)))
  | .del fd => some ((s.del fd).setPc tid (.out none))

end State

/-- Any number of threads, outside, and an empty table. -/
def init (threads : Nat) : State where
  manager := .init
  heap := []
  threads := List.replicate threads (.out none)
  handed := []

/-- The step function. -/
def step (s : State) : Label → Option State
  | .call tid c =>
      match s.threads[tid]? with
      | some (.out _) => some (s.setPc tid c.start)
      | _ => none
  | .move tid stat =>
      match s.threads[tid]? with
      | some pc => s.move tid stat pc
      | none => none
  | .setTimeout ctx type v => some (s.setTimeout ctx type v)
  | .setUserNonblock ctx v => some (s.setUserNonblock ctx v)

/-- All results for one descriptor since its last `del` are the same context, and what is set
through one of them is seen through every other. -/
def OneContext (s : State) : Prop :=
  ∀ fd p q, (fd, p) ∈ s.handed → (fd, q) ∈ s.handed →
    p = q ∧ (∀ type v, (s.setTimeout p type v).getTimeout q type = some v) ∧
      ∀ v, (s.setUserNonblock p v).getUserNonblock q = some v

/-- The unique section of `get`, if it is the next step of thread `tid`: the slot that it fills. -/
def State.inserting (s : State) (tid : Nat) : Option Nat :=
  match s.threads[tid]? with
  | some (.insert fd _) => some fd
  | _ => none

/-- The unique section of `get` finds the slot still empty. -/
def FillsEmpty (s : State) : Label → Prop
  | .move tid _ => ∀ fd ∈ s.inserting tid, s.manager.slot fd = none
  | _ => True

instance (s : State) : (l : Label) → Decidable (FillsEmpty s l)
  | .call .. | .setTimeout .. | .setUserNonblock .. => isTrue trivial
  | .move tid _ => inferInstanceAs (Decidable (∀ fd ∈ s.inserting tid, _))

/-- What holds in every state, however the threads interleave. -/
structure Wf (s : State) : Prop where
  size_pos : 0 < s.manager.datas.length
  slot_handed : ∀ fd p, s.manager.slot fd = some p → (fd, p) ∈ s.handed
  handed_slot : ∀ fd p, (fd, p) ∈ s.handed → s.manager.slot fd ≠ none
  handed_valid : ∀ fd p, (fd, p) ∈ s.handed → p < s.heap.length
  pending_valid : ∀ (tid fd p : Nat), s.threads[tid]? = some (.insert fd p) → p < s.heap.length
  pending_fresh : ∀ (tid fd p : Nat), s.threads[tid]? = some (.insert fd p) →
    ∀ fd', (fd', p) ∉ s.handed
  pending_unique : ∀ (tid tid' fd fd' p : Nat), s.threads[tid]? = some (.insert fd p) →
    s.threads[tid']? = some (.insert fd' p) → tid = tid'

theorem wf_init (threads : Nat) : Wf (init threads) := by
  have hout : ∀ (tid fd p : Nat), (init threads).threads[tid]? ≠ some (.insert fd p) := by
    intro tid fd p
    simp only [init, List.getElem?_replicate]
    split <;> simp
  refine ⟨by simp [init], fun fd p h => ?_, fun fd p h => ?_, fun fd p h => ?_,
    fun tid fd p h => absurd h (hout tid fd p), fun tid fd p h => absurd h (hout tid fd p),
    fun tid tid' fd fd' p h _ => absurd h (hout tid fd p)⟩
  · rw [init, FdManager.slot_init] at h
    cases h
  · simp [init] at h
  · simp [init] at h

variable {s : State} {tid : Nat}

/-- Where a thread that moves on to something else than the unique section stands does not matter. -/
theorem threads_setPc {pc pc' : Pc} (hpc : s.threads[tid]? = some pc)
    (hpc' : ∀ fd p : Nat, pc' ≠ .insert fd p) {u fd p : Nat}
    (h : (s.setPc tid pc').threads[u]? = some (.insert fd p)) :
    s.threads[u]? = some (.insert fd p) := by
  rw [State.setPc, getElem?_set_of_some hpc] at h
  by_cases hu : u = tid
  · rw [if_pos hu] at h
    exact absurd (Option.some.inj h) (hpc' fd p)
  · rwa [if_neg hu] at h

theorem Wf.setPc (h : Wf s) {pc pc' : Pc} (hpc : s.threads[tid]? = some pc)
    (hpc' : ∀ fd p : Nat, pc' ≠ .insert fd p) : Wf (s.setPc tid pc') where
  size_pos := h.size_pos
  slot_handed := h.slot_handed
  handed_slot := h.handed_slot
  handed_valid := h.handed_valid
  pending_valid := fun u fd p hu => h.pending_valid u fd p (threads_setPc hpc hpc' hu)
  pending_fresh := fun u fd p hu => h.pending_fresh u fd p (threads_setPc hpc hpc' hu)
  pending_unique := fun u u' fd fd' p hu hu' =>
    h.pending_unique u u' fd fd' p (threads_setPc hpc hpc' hu) (threads_setPc hpc hpc' hu')

theorem mem_hand {fd ctx fd' p : Nat} :
    (fd', p) ∈ (s.hand fd ctx).handed ↔ (fd' = fd ∧ p = ctx) ∨ (fd', p) ∈ s.handed := by
  rw [State.hand, List.mem_cons, Prod.mk.injEq]

/-- A `get` that finds a context hands out what has been handed out before. -/
theorem mem_hand_found (h : Wf s) {fd ctx : Nat} (hslot : s.manager.slot fd = some ctx) {fd' p : Nat} :
    (fd', p) ∈ (s.hand fd ctx).handed ↔ (fd', p) ∈ s.handed := by
  rw [mem_hand]
  refine ⟨fun hmem => ?_, Or.inr⟩
  rcases hmem with ⟨rfl, rfl⟩ | hmem
  · exact h.slot_handed _ _ hslot
  · exact hmem

theorem Wf.hand (h : Wf s) {fd ctx : Nat} (hslot : s.manager.slot fd = some ctx) :
    Wf (s.hand fd ctx) where
  size_pos := h.size_pos
  slot_handed := fun fd' p hp => (mem_hand_found h hslot).mpr (h.slot_handed fd' p hp)
  handed_slot := fun fd' p hp => h.handed_slot fd' p ((mem_hand_found h hslot).mp hp)
  handed_valid := fun fd' p hp => h.handed_valid fd' p ((mem_hand_found h hslot).mp hp)
  pending_valid := h.pending_valid
  pending_fresh := fun u fd' p hu fd'' hp =>
    h.pending_fresh u fd' p hu fd'' ((mem_hand_found h hslot).mp hp)
  pending_unique := h.pending_unique

/-- The new context is at the end of the heap, where no pointer leads yet. -/
theorem Wf.create (h : Wf s) {fd : Nat} (hpc : s.threads[tid]? = some (.create fd))
    (ctx : FdContext) :
    Wf (State.setPc { s with heap := s.heap ++ [ctx] } tid (.insert fd s.heap.length)) := by
  have hpending : ∀ u fd' p,
      (s.threads.set tid (.insert fd s.heap.length))[u]? = some (.insert fd' p) →
      (u = tid ∧ p = s.heap.length) ∨ s.threads[u]? = some (.insert fd' p) := by
    intro u fd' p hu
    rw [getElem?_set_of_some hpc] at hu
    by_cases hne : u = tid
    · rw [if_pos hne] at hu
      injection hu with hu
      injection hu with _ hp
      exact Or.inl ⟨hne, hp.symm⟩
    · rw [if_neg hne] at hu
      exact Or.inr hu
  refine ⟨h.size_pos, h.slot_handed, h.handed_slot, ?_, ?_, ?_, ?_⟩
  · intro fd' p hp
    have := h.handed_valid fd' p hp
    simp only [State.setPc, List.length_append, List.length_singleton]
    omega
  · intro u fd' p hu
    simp only [State.setPc, List.length_append, List.length_singleton]
    rcases hpending u fd' p hu with ⟨-, rfl⟩ | hu
    · omega
    · have := h.pending_valid u fd' p hu
      omega
  · intro u fd' p hu fd'' hp
    rcases hpending u fd' p hu with ⟨-, rfl⟩ | hu
    · have := h.handed_valid fd'' _ hp
      omega
    · exact h.pending_fresh u fd' p hu fd'' hp
  · intro u u' fd₁ fd₂ p hu hu'
    rcases hpending u fd₁ p hu with ⟨rfl, rfl⟩ | hold
    · rcases hpending u' fd₂ _ hu' with ⟨rfl, -⟩ | hold'
      · rfl
      · have := h.pending_valid u' fd₂ _ hold'
        omega
    · rcases hpending u' fd₂ p hu' with ⟨rfl, rfl⟩ | hold'
      · have := h.pending_valid u fd₁ _ hold
        omega
      · exact h.pending_unique u u' fd₁ fd₂ p hold hold'

/-- Behind the unique section, only other threads are at theirs. -/
theorem threads_leave {pc : Pc} {result : Option Nat} (hpc : s.threads[tid]? = some pc)
    {u fd p : Nat} (h : (s.threads.set tid (.out result))[u]? = some (.insert fd p)) :
    u ≠ tid ∧ s.threads[u]? = some (.insert fd p) := by
  rw [getElem?_set_of_some hpc] at h
  by_cases hu : u = tid
  · rw [if_pos hu] at h
    cases h
  · rw [if_neg hu] at h
    exact ⟨hu, h⟩

theorem Wf.insert (h : Wf s) {fd ctx : Nat} (hpc : s.threads[tid]? = some (.insert fd ctx)) :
    Wf ((State.hand { s with manager := s.manager.insert fd ctx } fd ctx).setPc tid
      (.out (some ctx))) := by
  have hslot := fun fd' => FdManager.slot_insert h.size_pos fd ctx fd'
  refine ⟨Nat.lt_of_lt_of_le h.size_pos (FdManager.insert_size ..), ?_, ?_, ?_, ?_, ?_, ?_⟩
  · intro fd' p hp
    have hp : (s.manager.insert fd ctx).slot fd' = some p := hp
    rw [hslot] at hp
    refine mem_hand.mpr ?_
    split at hp
    · rename_i heq
      exact Or.inl ⟨heq, (Option.some.inj hp).symm⟩
    · exact Or.inr (h.slot_handed fd' p hp)
  · intro fd' p hp
    change (s.manager.insert fd ctx).slot fd' ≠ none
    rw [hslot]
    split
    · exact Option.some_ne_none ctx
    · rename_i hne
      rcases mem_hand.mp hp with ⟨heq, -⟩ | hp
      · exact absurd heq hne
      · exact h.handed_slot fd' p hp
  · intro fd' p hp
    rcases mem_hand.mp hp with ⟨-, rfl⟩ | hp
    · exact h.pending_valid tid fd _ hpc
    · exact h.handed_valid fd' p hp
  · intro u fd' p hu
    exact h.pending_valid u fd' p (threads_leave hpc hu).2
  · intro u fd' p hu fd'' hp
    obtain ⟨hne, hold⟩ := threads_leave hpc hu
    rcases mem_hand.mp hp with ⟨-, rfl⟩ | hp
    · exact hne (h.pending_unique u tid fd' fd _ hold hpc)
    · exact h.pending_fresh u fd' p hold fd'' hp
  · intro u u' fd₁ fd₂ p hu hu'
    exact h.pending_unique u u' fd₁ fd₂ p (threads_leave hpc hu).2 (threads_leave hpc hu').2

theorem mem_del {fd : Int} {fd' p : Nat} :
    (fd', p) ∈ (s.del fd).handed ↔ (fd', p) ∈ s.handed ∧ (fd' : Int) ≠ fd := by
  rw [State.del, List.mem_filter, decide_eq_true_eq]

theorem Wf.del (h : Wf s) (fd : Int) : Wf (s.del fd) where
  size_pos := by
    rw [State.del, FdManager.del_size]
    exact h.size_pos
  slot_handed := by
    intro fd' p hp
    have hp : (s.manager.del fd).slot fd' = some p := hp
    rw [FdManager.slot_del] at hp
    split at hp
    · cases hp
    · rename_i hne
      exact mem_del.mpr ⟨h.slot_handed fd' p hp, Ne.symm hne⟩
  handed_slot := by
    intro fd' p hp
    obtain ⟨hp, hne⟩ := mem_del.mp hp
    change (s.manager.del fd).slot fd' ≠ none
    rw [FdManager.slot_del, if_neg (Ne.symm hne)]
    exact h.handed_slot fd' p hp
  handed_valid := fun fd' p hp => h.handed_valid fd' p (mem_del.mp hp).1
  pending_valid := h.pending_valid
  pending_fresh := fun u fd' p hu fd'' hp => h.pending_fresh u fd' p hu fd'' (mem_del.mp hp).1
  pending_unique := h.pending_unique

theorem Wf.modify (h : Wf s) (ctx : Nat) (f : FdContext → FdContext) :
    Wf { s with heap := s.heap.modify ctx f } where
  size_pos := h.size_pos
  slot_handed := h.slot_handed
  handed_slot := h.handed_slot
  handed_valid := fun fd p hp => by
    rw [List.length_modify]
    exact h.handed_valid fd p hp
  pending_valid := fun u fd p hu => by
    rw [List.length_modify]
    exact h.pending_valid u fd p hu
  pending_fresh := h.pending_fresh
  pending_unique := h.pending_unique

/-- What one step can be, by what it does to the contexts handed out. -/
inductive StepCase (s : State) : Label → State → Prop where
  /-- Nothing is handed out, and no slot changes. -/
  | quiet (l : Label) (t : State) : t.manager = s.manager → t.handed = s.handed → StepCase s l t
  /-- `get` finds a context. -/
  | found (tid : Nat) (stat : Option Bool) (fd ctx : Nat) : s.manager.slot fd = some ctx →
      StepCase s (.move tid stat) ((s.hand fd ctx).setPc tid (.out (some ctx)))
  /-- `get` stores a new context. -/
  | insert (tid : Nat) (stat : Option Bool) (fd ctx : Nat) :
      s.threads[tid]? = some (.insert fd ctx) →
      StepCase s (.move tid stat)
        ((State.hand { s with manager := s.manager.insert fd ctx } fd ctx).setPc tid
          (.out (some ctx)))
  | del (tid : Nat) (stat : Option Bool) (fd : Int) :
      StepCase s (.move tid stat) ((s.del fd).setPc tid (.out none))

/-- One step keeps what holds in every state, and is one of the cases. -/
theorem step_wf_cases {l : Label} {t : State} (h : Wf s) (hstep : step s l = some t) :
    Wf t ∧ StepCase s l t := by
  cases l with
  | call tid c =>
      simp only [step] at hstep
      split at hstep
      · rename_i hpc
        cases hstep
        refine ⟨h.setPc hpc ?_, .quiet _ _ rfl rfl⟩
        intro fd p
        cases c <;> simp [Call.start]
      · cases hstep
  | setTimeout ctx type v =>
      cases hstep
      exact ⟨h.modify ctx _, .quiet _ _ rfl rfl⟩
  | setUserNonblock ctx v =>
      cases hstep
      exact ⟨h.modify ctx _, .quiet _ _ rfl rfl⟩
  | move tid stat =>
      simp only [step] at hstep
      split at hstep
      · rename_i pc hpc
        cases pc with
        | out result => cases hstep
        | lookup fd autoCreate =>
            rw [State.move] at hstep
            split at hstep
            · cases hstep
              exact ⟨h.setPc hpc (by simp), .quiet _ _ rfl rfl⟩
            · rw [FdManager.lookup_eq] at hstep
              split at hstep
              · cases hstep
                exact ⟨h.setPc hpc (by simp), .quiet _ _ rfl rfl⟩
              · cases hstep
                exact ⟨h.setPc hpc (by simp), .quiet _ _ rfl rfl⟩
              · rename_i ctx hslot
                have hslot : s.manager.slot fd.toNat = some ctx := by
                  split at hslot
                  · cases hslot
                  · exact Option.some.inj hslot
                cases hstep
                refine ⟨Wf.setPc (h.hand hslot) hpc (by simp), .found tid stat _ ctx hslot⟩
        | create fd =>
            cases hstep
            exact ⟨h.create hpc _, .quiet _ _ rfl rfl⟩
        | insert fd ctx =>
            cases hstep
            exact ⟨h.insert hpc, .insert tid stat fd ctx hpc⟩
        | del fd =>
            cases hstep
            exact ⟨Wf.setPc (h.del fd) hpc (by simp), .del tid stat fd⟩
      · cases hstep

/-- A context that exists shows what is set through a pointer to it. -/
theorem seen_of_valid {p : Nat} (hp : p < s.heap.length) :
    (∀ type v, (s.setTimeout p type v).getTimeout p type = some v) ∧
      ∀ v, (s.setUserNonblock p v).getUserNonblock p = some v := by
  constructor
  · intro type v
    simp [State.setTimeout, State.getTimeout, List.getElem?_eq_getElem hp]
  · intro v
    simp [State.setUserNonblock, State.getUserNonblock, List.getElem?_eq_getElem hp]

/-- Where the results agree, so do the fields seen through them. -/
theorem oneContext_iff (h : Wf s) :
    OneContext s ↔ ∀ fd p q, (fd, p) ∈ s.handed → (fd, q) ∈ s.handed → p = q := by
  constructor
  · intro hone fd p q hp hq
    exact (hone fd p q hp hq).1
  · intro hone fd p q hp hq
    obtain rfl := hone fd p q hp hq
    exact ⟨rfl, seen_of_valid (h.handed_valid fd p hp)⟩

theorem oneContext_step {l : Label} {t : State} (h : Wf s) (hone : OneContext s)
    (hfill : FillsEmpty s l) (hstep : step s l = some t) : OneContext t := by
  obtain ⟨ht, hcase⟩ := step_wf_cases h hstep
  rw [oneContext_iff ht]
  rw [oneContext_iff h] at hone
  cases hcase with
  | quiet _ _ _ hhanded =>
      rw [hhanded]
      exact hone
  | found tid stat fd ctx hslot =>
      intro fd' p q hp hq
      exact hone fd' p q ((mem_hand_found h hslot).mp hp) ((mem_hand_found h hslot).mp hq)
  | insert tid stat fd ctx hpc =>
      have hempty : s.manager.slot fd = none := hfill fd (by rw [State.inserting, hpc]; rfl)
      have hnone : ∀ p, (fd, p) ∉ s.handed := fun p hp => h.handed_slot fd p hp hempty
      intro fd' p q hp hq
      rcases mem_hand.mp hp with ⟨rfl, rfl⟩ | hp
      · rcases mem_hand.mp hq with ⟨-, rfl⟩ | hq
        · rfl
        · exact absurd hq (hnone q)
      · rcases mem_hand.mp hq with ⟨rfl, -⟩ | hq
        · exact absurd hp (hnone p)
        · exact hone fd' p q hp hq
  | del tid stat fd =>
      intro fd' p q hp hq
      exact hone fd' p q (mem_del.mp hp).1 (mem_del.mp hq).1

/-- A unique section that replaces a context leaves two results for one descriptor. -/
theorem not_oneContext_of_refill {l : Label} (h : Wf s) (hfill : ¬ FillsEmpty s l) :
    ∃ t, step s l = some t ∧ ¬ OneContext t := by
  cases l with
  | move tid stat =>
      simp only [FillsEmpty, not_forall] at hfill
      obtain ⟨fd, hins, hslot⟩ := hfill
      obtain ⟨ctx, hpc⟩ : ∃ ctx, s.threads[tid]? = some (.insert fd ctx) := by
        rw [State.inserting] at hins
        split at hins
        · rename_i fd' ctx hpc
          obtain rfl : fd' = fd := Option.some.inj hins
          exact ⟨ctx, hpc⟩
        · cases hins
      obtain ⟨old, hold⟩ := Option.ne_none_iff_exists'.mp hslot
      refine ⟨_, by simp only [step, hpc]; rfl, fun hone => ?_⟩
      have hmem : (fd, old) ∈ s.handed := h.slot_handed fd old hold
      have heq := (hone fd ctx old (mem_hand.mpr (Or.inl ⟨rfl, rfl⟩))
        (mem_hand.mpr (Or.inr hmem))).1
      exact h.pending_fresh tid fd ctx hpc fd (heq ▸ hmem)
  | _ => exact absurd trivial hfill

/-- All results for a descriptor between two `del`s of it are one context, in exactly the runs in
which every unique section of `get` finds the slot that it fills empty. -/
theorem oneContext_iff_fillsEmpty (threads : Nat) (ls : List Label) :
    StatesMeet step OneContext (init threads) ls ↔
      StepsMeet step FillsEmpty (init threads) ls := by
  refine statesMeet_iff_stepsMeet (I := Wf) (D := fun _ _ => True) ?_ ?_ ?_ ls _ (wf_init threads)
    ?_ (stepsMeet_true ls _)
  · intro s l t h _ hstep
    exact (step_wf_cases h hstep).1
  · intro s l t h _ hone hfill hstep
    exact oneContext_step h hone hfill hstep
  · intro s l h _ _ hfill
    exact not_oneContext_of_refill h hfill
  · intro fd p q hp _
    simp [init] at hp

/-- Two threads meet a new descriptor: both find the slot empty, and each stores its own context. -/
def twoThreadsGet : List Label :=
  [.call 0 (.get 5 true), .call 1 (.get 5 true), .move 0 none, .move 1 none, .move 0 (some true),
    .move 1 (some true), .move 0 none, .move 1 none]

theorem twoThreadsGet_two_contexts : ¬ StatesMeet step OneContext (init 2) twoThreadsGet := by
  intro h
  have hlast := statesMeet_run _ _ ((run step (init 2) twoThreadsGet).get (by decide)) h
    (Option.some_get _).symm
  have hone := (hlast 5 0 1 (by decide) (by decide)).1
  cases hone

end Table

end Hook

end Saturn
