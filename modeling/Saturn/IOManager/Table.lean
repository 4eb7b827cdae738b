import Saturn.IOManager.Machine

/-!
# The table of contexts

`addEvent` tests the size of `m_fdContexts` under the shared lock, lets go of it, and resizes the
table to `fd * 2` under the exclusive one. Where another thread has made the table longer than that
in between, the slots behind are lost, together with what waits in their contexts.
-/

namespace Saturn

namespace IOManager

/-- A step does not make the table shorter. -/
def TableGrows (s : State) (l : Label) : Prop :=
  ∀ t ∈ step s l, s.table.length ≤ t.table.length

instance (s : State) (l : Label) : Decidable (TableGrows s l) :=
  inferInstanceAs (Decidable (∀ t ∈ step s l, _))

/-- With label `l`, thread `tid` looks up the descriptor of `call` in the table. -/
def LooksUp (s : State) (l : Label) (tid : Nat) (call : Call) : Prop :=
  (∃ ok, l = .move tid ok) ∧
    (s.threads[tid]? = some (.lookup call) ∨ s.threads[tid]? = some (.grow call))

/-- Once a slot holds a context, every later look-up of its descriptor sees that context. -/
def LookupsAgree (s : State) (ls : List Label) : Prop :=
  ∀ pre mid l post t u v, ls = pre ++ (mid ++ l :: post) → run step s pre = some t →
    run step t mid = some u → step u l = some v → v.halted = none →
    ∀ tid call fc, t.table[call.fd]? = some fc → LooksUp u l tid call →
      v.threads[tid]? = some (.enter call fc)

/-- The call of `addEvent` whose exclusive section is the next step of thread `tid`. -/
def State.growing (s : State) (tid : Nat) : Option Call :=
  match s.threads[tid]? with
  | some (.grow call) => some call
  | _ => none

theorem growing_eq {s : State} {tid : Nat} {call : Call} :
    s.growing tid = some call ↔ s.threads[tid]? = some (.grow call) := by
  rw [State.growing]
  split
  · rename_i call' h
    rw [h]
    simp
  · rename_i h
    simp only [reduceCtorEq, false_iff]
    exact h call

/-- The exclusive section of `addEvent` finds a table of at most the size it resizes it to. -/
def ResizeGrows (s : State) : Label → Prop
  | .move tid _ => s.halted = none → ∀ call ∈ s.growing tid, s.table.length ≤ call.fd * 2
  | _ => True

instance (s : State) : (l : Label) → Decidable (ResizeGrows s l)
  | .call .. | .wait .. => isTrue trivial
  | .move .. => inferInstanceAs (Decidable (_ → _))

@[simp] theorem contextResize_table_length (s : State) (size : Nat) :
    (s.contextResize size).table.length = size := by
  simp only [State.contextResize, List.length_append, List.length_map, List.length_range,
    List.length_take]
  omega

theorem contextResize_extends {s : State} {size : Nat} (h : s.table.length ≤ size) :
    s.table <+: (s.contextResize size).table := by
  rw [State.contextResize, List.take_of_length_le h]
  exact List.prefix_append _ _

/-- `fd * 2` is an `int`, and so is every size of the table. -/
theorem table_length_lt {s t : State} {l : Label} (h : s.table.length < 2 ^ 31)
    (hstep : step s l = some t) : t.table.length < 2 ^ 31 := by
  cases stepCase_of_step hstep with
  | grow tid fc ok call hpc hfit hfc =>
      change (s.contextResize _).table.length < _
      rwa [contextResize_table_length]
  | growHalt tid ok call reason hpc hfit =>
      change (s.contextResize _).table.length < _
      rwa [contextResize_table_length]
  | _ => exact h

/-- A step within the condition keeps every slot there is. -/
theorem table_extends {s t : State} {l : Label} (h : ResizeGrows s l) (hstep : step s l = some t) :
    s.table <+: t.table := by
  have hhalted : s.halted = none := by
    unfold step at hstep
    split at hstep
    · assumption
    · cases hstep
  cases stepCase_of_step hstep with
  | grow tid fc ok call hpc hfit hfc =>
      exact contextResize_extends (h hhalted call (growing_eq.mpr hpc))
  | growHalt tid ok call reason hpc hfit =>
      exact contextResize_extends (h hhalted call (growing_eq.mpr hpc))
  | _ => exact List.prefix_rfl

/-- The table gets shorter exactly in a step outside the condition. -/
theorem resizeGrows_iff {s : State} (hlt : s.table.length < 2 ^ 31) (l : Label) :
    ResizeGrows s l ↔ TableGrows s l := by
  constructor
  · intro h t ht
    exact (table_extends h ht).length_le
  · intro h
    cases l with
    | call tid call => trivial
    | wait tid ready => trivial
    | move tid ok =>
        intro hhalted call hcall
        have hpc := growing_eq.mp hcall
        rcases Nat.lt_or_ge (call.fd * 2) (2 ^ 31) with hfit | hbig
        · rw [← contextResize_table_length s (call.fd * 2)]
          have hstep : step s (.move tid ok) = s.move tid ok (.grow call) := by
            simp only [step, if_pos hhalted, hpc]
          simp only [State.move, if_neg (Nat.not_le.mpr hfit)] at hstep
          cases hfc : (s.contextResize (call.fd * 2)).table[call.fd]? with
          | some fc =>
              rw [hfc] at hstep
              exact h ((s.contextResize (call.fd * 2)).setPc tid (.enter call fc)) hstep
          | none =>
              rw [hfc] at hstep
              exact h ((s.contextResize (call.fd * 2)).halt .outOfRange) hstep
        · omega

theorem getElem?_of_extends {as bs : List Nat} (h : as <+: bs) {i x : Nat} (hx : as[i]? = some x) :
    bs[i]? = some x := by
  obtain ⟨cs, rfl⟩ := h
  obtain ⟨hi, -⟩ := List.getElem?_eq_some_iff.mp hx
  rw [List.getElem?_append_left hi, hx]

/-- A look-up sees what the table holds behind it. -/
theorem lookup_sees {s t : State} {l : Label} {tid fc : Nat} {call : Call}
    (h : ResizeGrows s l) (hlook : LooksUp s l tid call) (hslot : s.table[call.fd]? = some fc)
    (hstep : step s l = some t) (hhalted : t.halted = none) :
    t.threads[tid]? = some (.enter call fc) := by
  have hprefix := table_extends h hstep
  obtain ⟨⟨ok, rfl⟩, hpc⟩ := hlook
  have hset : ∀ pc : Pc, s.threads[tid]? = some pc → ∀ pc' : Pc,
      (s.threads.set tid pc')[tid]? = some pc' := fun pc hpc pc' => by
    rw [getElem?_set_of_some hpc, if_pos rfl]
  unfold step at hstep
  split at hstep
  · rcases hpc with hpc | hpc
    · simp only [hpc, State.move, hslot] at hstep
      cases hstep
      exact hset _ hpc _
    · simp only [hpc, State.move] at hstep
      split at hstep
      · cases hstep
        cases hhalted
      · split at hstep
        · rename_i fc' hfc'
          cases hstep
          have hslot' := getElem?_of_extends hprefix hslot
          have heq : fc' = fc := Option.some.inj (hfc'.symm.trans hslot')
          rw [heq]
          exact hset _ hpc _
        · cases hstep
          cases hhalted
  · cases hstep

/-- The table of contexts only grows, and look-ups agree, in exactly the runs in which every
exclusive section of `addEvent` finds a table that it does not make shorter. -/
theorem table_only_grows_iff (threads : Nat) (ls : List Label) :
    (StepsMeet step TableGrows (init threads) ls ∧ LookupsAgree (init threads) ls) ↔
      StepsMeet step ResizeGrows (init threads) ls := by
  have hgrows : StepsMeet step ResizeGrows (init threads) ls ↔
      StepsMeet step TableGrows (init threads) ls := by
    refine stepsMeet_congr_of_invariant (I := fun s => s.table.length < 2 ^ 31)
      (fun s l t h _ => table_length_lt h) (fun s l hs => resizeGrows_iff hs l) ls _ ?_
    rw [init, contextResize_table_length]
    decide
  refine ⟨fun h => hgrows.mpr h.1, fun h => ⟨hgrows.mp h, ?_⟩⟩
  rintro pre mid l post t u v rfl ht hu hv hhalted tid call fc hslot hlook
  obtain ⟨-, hmid⟩ := (stepsMeet_append _ _ _).mp h
  obtain ⟨hmid, hpost⟩ := (stepsMeet_append _ _ _).mp (hmid t ht)
  have hprefix : t.table <+: u.table := run_preorder (R := fun s t => s.table <+: t.table)
    (fun s => List.prefix_rfl) (fun _ _ _ => List.IsPrefix.trans) (fun _ _ _ => table_extends)
    mid t u hmid hu
  exact lookup_sees (hpost u hu).1 hlook (getElem?_of_extends hprefix hslot) hv hhalted

/-- Two threads test the size of the table; the first makes room for descriptor 70, the second for
33. A third one then looks 70 up. -/
def growTwice : List Label :=
  [.call 0 (.addEvent 70 .read (.cb 0) 0), .call 1 (.addEvent 33 .read (.cb 1) 0),
    .call 2 (.delEvent 70 .read), .move 0 true, .move 1 true, .move 0 true, .move 1 true,
    .move 2 true]

/-- The table shrinks from 140 slots to 66, and descriptor 70 has no context any more. -/
theorem growTwice_loses_context :
    ¬ StepsMeet step TableGrows (init 3) growTwice ∧ ¬ LookupsAgree (init 3) growTwice := by
  refine ⟨by decide +kernel, fun h => ?_⟩
  have hsees := h (growTwice.take 6) [.move 1 true] (.move 2 true) []
    ((run step (init 3) (growTwice.take 6)).get (by decide))
    ((run step (init 3) (growTwice.take 7)).get (by decide))
    ((run step (init 3) growTwice).get (by decide)) rfl
    (Option.some_get _).symm (by rw [Option.some_get]; rfl) (by rw [Option.some_get]; rfl) (by decide)
    2 (.delEvent 70 .read) 70 (by decide) ⟨⟨true, rfl⟩, Or.inl (by decide)⟩
  revert hsees
  decide

end IOManager

end Saturn
