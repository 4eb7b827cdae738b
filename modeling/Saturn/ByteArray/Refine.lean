import Saturn.ByteArray.Flat
import Saturn.ByteArray.Inv
import Saturn.Misc.Run

/-!
# When `ByteArray` is a flat byte vector

`Sim` relates a `ByteArray` to the flat vector it stands for. Every call but `read` preserves it and
shows what the flat vector shows. `read` does so exactly where the bytes asked for end on the border
of a node, because its last `memcpy` copies all that is left of the node.
-/

namespace Saturn

namespace ByteArray

/-- One call. An exception leaves the object as it was; anything else that goes wrong is undefined
behaviour, and has no state behind it. -/
def apply (ba : ByteArray) : Op → Except Fault (Outcome × ByteArray)
  | .write buf => (ba.write buf).map fun ba' => (.done, ba')
  | .read n =>
      match ba.read n with
      | .ok (bytes, ba') => .ok (.stored bytes, ba')
      | .error .outOfRange => .ok (.threw, ba)
      | .error fault => .error fault
  | .setPosition v =>
      match ba.setPosition v with
      | .ok ba' => .ok (.done, ba')
      | .error .outOfRange => .ok (.threw, ba)
      | .error fault => .error fault
  | .clear => .ok (.done, ba.clear)

/-- The step function of a user's run. -/
def step (ba : ByteArray) (op : Op) : Option ByteArray :=
  match ba.apply op with
  | .ok r => some r.2
  | .error _ => none

/-- `setPosition`'s test of the capacity. -/
def accepts (ba : ByteArray) : Op → Bool
  | .setPosition v => decide (v ≤ ba.capacity)
  | _ => true

/-- What is seen of a call. -/
def obs (r : Outcome × ByteArray) : Obs := ⟨r.1, r.2.position, r.2.contents⟩

/-- What each of a sequence of calls shows, with the outcome of the capacity test in it. -/
def trace : ByteArray → List Op → Except Fault (List (Obs × Bool))
  | _, [] => .ok []
  | ba, op :: ops =>
      match ba.apply op with
      | .error fault => .error fault
      | .ok r => (trace r.2 ops).map fun rest => (obs r, ba.accepts op) :: rest

/-- The calls show what they show of the flat vector `f`. -/
def Refines (ba : ByteArray) (f : Flat) (ops : List Op) : Prop :=
  ∃ shown, ba.trace ops = .ok shown ∧
    List.Forall₂ Obs.Meets (shown.map Prod.fst) (f.trace (ops.zip (shown.map Prod.snd)))

/-- A `read` throws, or ends on the border of a node; one of no bytes needs a node to look at. -/
def BorderRead (ba : ByteArray) : Op → Prop
  | .read n => ba.getReadSize < n ∨ (n = 0 ∧ ba.position ≠ ba.capacity) ∨
      (0 < n ∧ (ba.position + n) % ba.baseSize = 0)
  | _ => True

instance (ba : ByteArray) : (op : Op) → Decidable (BorderRead ba op)
  | .read _ => inferInstanceAs (Decidable (_ ∨ _))
  | .write _ | .setPosition _ | .clear => isTrue trivial

/-- The flat vector that a `ByteArray` stands for. -/
structure Sim (ba : ByteArray) (f : Flat) : Prop where
  inv : Inv ba
  position : ba.position = f.pos
  contents : BlockMeets ba.contents f.bytes

theorem sim_new {baseSize : Nat} (h : 0 < baseSize) : Sim (new baseSize) Flat.empty :=
  ⟨inv_new h, rfl, by simp [contents, new, Flat.empty]⟩

variable {ba ba' : ByteArray} {f : Flat}

theorem Sim.size_eq (h : Sim ba f) : ba.size = f.bytes.length := by
  rw [← h.inv.contents_length, h.contents.length_eq]

theorem Sim.write (h : Sim ba f) (buf : List UInt8) :
    ∃ ba', ba.write buf = .ok ba' ∧ Sim ba' (f.write buf) := by
  obtain ⟨ba', hok, hinv, -, hpos, hcontents⟩ := write_spec h.inv buf
  refine ⟨ba', hok, hinv, ?_, ?_⟩
  · rw [hpos, h.position]
    rfl
  · rw [hcontents, h.position]
    exact h.contents.overlay _ _

theorem Sim.setPosition (h : Sim ba f) {v : Nat} (hv : v ≤ ba.capacity) :
    ∃ ba', ba.setPosition v = .ok ba' ∧ Sim ba' (f.setPosition v) := by
  obtain ⟨ba', hok, hinv, hpos, hcontents⟩ := setPosition_spec h.inv hv
  refine ⟨ba', hok, hinv, hpos, ?_⟩
  have hskipped : ((ba.cells.drop ba.size).take (v - ba.size)).length = v - f.bytes.length := by
    rw [List.length_take, List.length_drop, h.inv.cells_length, h.size_eq]
    omega
  have hgrown : ba'.contents = ba.contents ++ (ba.cells.drop ba.size).take (v - ba.size) := by
    rw [hcontents, ByteArray.contents, ← List.take_add]
    congr 1
    omega
  have hspec := blockMeets_none ((ba.cells.drop ba.size).take (v - ba.size))
  rw [hskipped] at hspec
  rw [hgrown]
  exact List.rel_append h.contents hspec

theorem Sim.clear (h : Sim ba f) : Sim ba.clear Flat.empty :=
  ⟨clear_inv h.inv, rfl, by simp [ByteArray.contents, ByteArray.clear, Flat.empty]⟩

/-- What `read` stores past the bytes asked for is what is left of the node. -/
theorem stride_eq_iff {b p n : Nat} (hb : 0 < b) :
    stride b (p % b) n = n ↔ n = 0 ∨ (p + n) % b = 0 := by
  rw [stride]
  split
  · omega
  rename_i hn
  have hlt := Nat.mod_lt p hb
  have hmod : (p + n) % b = (p % b + n) % b := by rw [Nat.mod_add_mod]
  have hceil := ceil_mul_le b (p % b + n) hb
  rw [hmod]
  generalize p % b = npos at *
  have hdm := Nat.div_add_mod' (npos + n + b - 1) b
  constructor
  · intro h
    have hmul : npos + n = (npos + n + b - 1) / b * b := by omega
    exact Or.inr (by rw [hmul, Nat.mul_mod_left])
  · rintro (h | h)
    · omega
    have hdm' := Nat.div_add_mod' (npos + n) b
    have hquot : (npos + n + b - 1) / b = (npos + n) / b := by
      rw [Nat.add_sub_assoc hb, ← hdm', h, Nat.add_zero]
      rw [Nat.add_comm, Nat.add_mul_div_right _ _ hb, Nat.div_eq_of_lt (by omega), Nat.zero_add,
        Nat.mul_div_cancel _ hb]
    rw [hquot]
    omega

/-- A `read` that ends on a border stores the bytes asked for and no more. -/
theorem Sim.read (h : Sim ba f) {n : Nat} (hn : n ≤ f.bytes.length - f.pos)
    (hcur : ba.position < ba.capacity) (hborder : n = 0 ∨ (ba.position + n) % ba.baseSize = 0) :
    ∃ bytes ba', ba.read n = .ok (bytes, ba') ∧ BlockMeets bytes ((f.bytes.drop f.pos).take n) ∧
      Sim ba' (f.read n hn) := by
  have hsize := h.size_eq
  have hposition := h.position
  have hle := h.inv.position_le
  obtain ⟨ba', hok, hinv, hpos, hcontents⟩ :=
    read_spec h.inv (n := n) (by rw [getReadSize]; omega) hcur
  rw [(stride_eq_iff h.inv.base_pos).mpr hborder] at hok
  refine ⟨_, ba', hok, ?_, hinv, ?_, ?_⟩
  · -- the bytes asked for lie below `m_size`
    have hbelow : (ba.cells.drop ba.position).take n = (ba.contents.drop ba.position).take n := by
      rw [ByteArray.contents, List.drop_take, List.take_take]
      congr 1
      omega
    rw [hbelow, hposition]
    exact List.forall₂_take n (List.forall₂_drop _ h.contents)
  · rw [hpos, hposition]
    rfl
  · rw [hcontents]
    exact h.contents

/-- A `read` that ends inside a node stores more bytes than were asked for. -/
theorem Sim.read_overruns (h : Sim ba f) {n : Nat} (hn : n ≤ ba.getReadSize)
    (hcur : ba.position < ba.capacity) (hpos : 0 < n)
    (hinside : (ba.position + n) % ba.baseSize ≠ 0) :
    ∃ bytes ba', ba.read n = .ok (bytes, ba') ∧ n < bytes.length := by
  have hle := h.inv.position_le
  have hsize := h.inv.size_le
  obtain ⟨ba', hok, -⟩ := read_spec h.inv hn hcur
  refine ⟨_, ba', hok, ?_⟩
  rw [getReadSize] at hn
  have hne : stride ba.baseSize (ba.position % ba.baseSize) n ≠ n := fun heq =>
    ((stride_eq_iff h.inv.base_pos).mp heq).elim (by omega) hinside
  have hceil := ceil_mul_le ba.baseSize (ba.position % ba.baseSize + n) h.inv.base_pos
  have hend : ba.position + n ≠ ba.capacity := by
    intro heq
    rw [heq, h.inv.capacity_eq, Nat.mul_mod_left] at hinside
    exact hinside rfl
  rw [List.length_take, List.length_drop, h.inv.cells_length]
  rw [stride, if_neg (by omega)] at hne ⊢
  omega

/-- One call within the condition shows what the flat vector shows. -/
theorem Sim.apply (h : Sim ba f) (op : Op) (hborder : BorderRead ba op) :
    ∃ r, ba.apply op = .ok r ∧ (obs r).Meets (Flat.obs (f.apply (ba.accepts op) op)) ∧
      Sim r.2 (f.apply (ba.accepts op) op).2 := by
  have hread : ba.getReadSize = f.bytes.length - f.pos := by
    rw [getReadSize, h.size_eq, h.position]
  cases op with
  | write buf =>
      obtain ⟨ba', hok, hsim⟩ := h.write buf
      refine ⟨(.done, ba'), ?_, ⟨trivial, hsim.position, hsim.contents⟩, hsim⟩
      rw [ByteArray.apply, hok]
      rfl
  | read n =>
      simp only [ByteArray.apply, Flat.apply]
      by_cases hn : n ≤ f.bytes.length - f.pos
      · have hle := h.inv.position_le
        have hsize := h.inv.size_le
        have hborder' : ba.position < ba.capacity ∧
            (n = 0 ∨ (ba.position + n) % ba.baseSize = 0) := by
          rw [getReadSize] at hread
          rcases hborder with hlt | ⟨hzero, hne⟩ | ⟨hpos, hmod⟩
          · rw [getReadSize] at hlt
            omega
          · exact ⟨by omega, Or.inl hzero⟩
          · exact ⟨by omega, Or.inr hmod⟩
        obtain ⟨bytes, ba', hok, hbytes, hsim⟩ := h.read hn hborder'.1 hborder'.2
        rw [dif_pos hn, hok]
        exact ⟨_, rfl, ⟨hbytes, hsim.position, hsim.contents⟩, hsim⟩
      · rw [dif_neg hn, read_throws (by omega)]
        exact ⟨_, rfl, ⟨trivial, h.position, h.contents⟩, h⟩
  | setPosition v =>
      simp only [ByteArray.apply, Flat.apply, accepts, decide_eq_true_eq]
      by_cases hv : v ≤ ba.capacity
      · obtain ⟨ba', hok, hsim⟩ := h.setPosition hv
        rw [if_pos hv, hok]
        exact ⟨_, rfl, ⟨trivial, hsim.position, hsim.contents⟩, hsim⟩
      · rw [if_neg hv, setPosition_throws (by omega)]
        exact ⟨_, rfl, ⟨trivial, h.position, h.contents⟩, h⟩
  | clear => exact ⟨_, rfl, ⟨trivial, h.clear.position, h.clear.contents⟩, h.clear⟩

/-- A call outside the condition is undefined behaviour, or shows something else. -/
theorem Sim.not_apply (h : Sim ba f) (op : Op) (hborder : ¬ BorderRead ba op) :
    ∀ r, ba.apply op = .ok r → ¬ (obs r).Meets (Flat.obs (f.apply (ba.accepts op) op)) := by
  cases op with
  | read n =>
      rw [BorderRead] at hborder
      push Not at hborder
      obtain ⟨hn, hzero, hinside⟩ := hborder
      have hread : ba.getReadSize = f.bytes.length - f.pos := by
        rw [getReadSize, h.size_eq, h.position]
      have hsize := h.inv.size_le
      have hle := h.inv.position_le
      intro r hr hmeets
      simp only [ByteArray.apply] at hr
      by_cases hcur : ba.position = ba.capacity
      · rw [read_at_capacity h.inv hn hcur] at hr
        cases hr
      · have hpos : 0 < n := Nat.pos_of_ne_zero fun h0 => hcur (hzero h0)
        obtain ⟨bytes, ba', hok, hover⟩ :=
          h.read_overruns hn (by omega) hpos (hinside hpos)
        rw [hok] at hr
        cases hr
        have hlen : bytes.length = ((f.bytes.drop f.pos).take n).length := by
          have hmeets' := hmeets.outcome
          rw [Flat.apply, dif_pos (by omega)] at hmeets'
          exact List.Forall₂.length_eq hmeets'
        rw [List.length_take, List.length_drop] at hlen
        omega
  | write buf => exact absurd trivial hborder
  | setPosition v => exact absurd trivial hborder
  | clear => exact absurd trivial hborder

theorem refines_nil : Refines ba f [] := ⟨[], rfl, List.Forall₂.nil⟩

/-- A run refines the flat vector step by step. -/
theorem refines_cons {op : Op} {ops : List Op} :
    Refines ba f (op :: ops) ↔ ∃ r, ba.apply op = .ok r ∧
      (obs r).Meets (Flat.obs (f.apply (ba.accepts op) op)) ∧
      Refines r.2 (f.apply (ba.accepts op) op).2 ops := by
  constructor
  · rintro ⟨shown, hshown, hmeets⟩
    rw [trace] at hshown
    cases hr : ba.apply op with
    | error fault => rw [hr] at hshown; cases hshown
    | ok r =>
        rw [hr] at hshown
        dsimp only at hshown
        cases hrest : trace r.2 ops with
        | error fault => rw [hrest] at hshown; cases hshown
        | ok rest =>
            rw [hrest] at hshown
            cases hshown
            obtain ⟨hfirst, htail⟩ := List.forall₂_cons.mp hmeets
            exact ⟨r, rfl, hfirst, rest, hrest, htail⟩
  · rintro ⟨r, hr, hfirst, rest, hrest, htail⟩
    refine ⟨(obs r, ba.accepts op) :: rest, ?_, List.Forall₂.cons hfirst htail⟩
    rw [trace, hr]
    dsimp only
    rw [hrest]
    rfl

/-- The run lemma: a run refines the flat vector exactly when all its steps are within the
condition. -/
theorem Sim.refines_iff : ∀ (ops : List Op) (ba : ByteArray) (f : Flat), Sim ba f →
    (Refines ba f ops ↔ StepsMeet step BorderRead ba ops) := by
  intro ops
  induction ops with
  | nil => exact fun ba f _ => ⟨fun _ => trivial, fun _ => refines_nil⟩
  | cons op ops ih =>
      intro ba f h
      rw [refines_cons]
      constructor
      · rintro ⟨r, hr, hfirst, hrest⟩
        have hborder : BorderRead ba op := by
          by_contra hno
          exact h.not_apply op hno r hr hfirst
        obtain ⟨r', hr', -, hsim⟩ := h.apply op hborder
        refine ⟨hborder, fun t ht => ?_⟩
        rw [hr] at hr'
        cases hr'
        rw [step, hr] at ht
        cases ht
        exact (ih _ _ hsim).mp hrest
      · rintro ⟨hborder, hrest⟩
        obtain ⟨r, hr, hfirst, hsim⟩ := h.apply op hborder
        refine ⟨r, hr, hfirst, (ih _ _ hsim).mpr (hrest r.2 ?_)⟩
        rw [step, hr]

/-- `ByteArray` is a flat byte vector with a cursor in exactly the runs in which every `read` ends
on the border of a node. Two of different base sizes show the same in such runs, whenever their
capacities let the same calls of `setPosition` through. -/
theorem byteArray_refines_flat_iff {baseSize : Nat} (h : 0 < baseSize) (ops : List Op) :
    (Refines (new baseSize) Flat.empty ops ↔ StepsMeet step BorderRead (new baseSize) ops) ∧
      ∀ baseSize', 0 < baseSize' → StepsMeet step BorderRead (new baseSize) ops →
        StepsMeet step BorderRead (new baseSize') ops →
        ∃ shown shown', (new baseSize).trace ops = .ok shown ∧
          (new baseSize').trace ops = .ok shown' ∧
          (shown.map Prod.snd = shown'.map Prod.snd →
            List.Forall₂ Obs.Meets (shown.map Prod.fst)
              (Flat.empty.trace (ops.zip (shown.map Prod.snd))) ∧
            List.Forall₂ Obs.Meets (shown'.map Prod.fst)
              (Flat.empty.trace (ops.zip (shown.map Prod.snd)))) := by
  refine ⟨(sim_new h).refines_iff ops, fun baseSize' h' hmeets hmeets' => ?_⟩
  obtain ⟨shown, hshown, hspec⟩ := ((sim_new h).refines_iff ops).mpr hmeets
  obtain ⟨shown', hshown', hspec'⟩ := ((sim_new h').refines_iff ops).mpr hmeets'
  refine ⟨shown, shown', hshown, hshown', fun heq => ⟨hspec, ?_⟩⟩
  rw [heq]
  exact hspec'

/-- Nodes of three and of two bytes, with reads that end on the borders of both. -/
theorem refines_flat_at_borders :
    let ops := [.write [10, 11, 12, 13, 14, 15, 16], .setPosition 1, .read 5, .read 2, .clear]
    Refines (new 3) Flat.empty ops ∧ ∃ shown shown',
      (new 3).trace ops = .ok shown ∧ (new 2).trace ops = .ok shown' := by
  intro ops
  obtain ⟨hiff, hsame⟩ := byteArray_refines_flat_iff (show 0 < 3 by decide) ops
  obtain ⟨shown, shown', hshown, hshown', -⟩ :=
    hsame 2 (by decide) (by decide) (by decide)
  exact ⟨hiff.mpr (by decide), shown, shown', hshown, hshown'⟩

/-- One byte read out of a node of four stores four. -/
theorem read_inside_node_overruns :
    ¬ Refines (new 4) Flat.empty [.write [10, 11, 12, 13], .setPosition 0, .read 1] := by
  rw [(sim_new (by decide)).refines_iff]
  decide

end ByteArray

end Saturn
