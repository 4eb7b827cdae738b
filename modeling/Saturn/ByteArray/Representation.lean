import Saturn.Misc.Run
import Saturn.Misc.Scan
import Saturn.ByteArray.Buffers

/-!
# The representation invariant over a run

A run is any list of calls, each of which returns or throws. The invariant survives all of them but
one kind: `new Node` throwing behind the first node that `addCapacity` appends to an object whose
position is at the capacity, where `m_cur` stays null although there are nodes behind the position.
-/

namespace Saturn

namespace ByteArray

/-- The calls. `room` is what is allocated at the `buf` of `read`, and `avail` is how often
`new Node` succeeds before it throws. -/
inductive Call where
  | write (buf : List UInt8) (avail : Nat)
  | read (size room : Nat)
  | setPosition (v : Nat)
  | clear
  | getReadBuffers (len : Nat)
  | getReadBuffersAt (len position : Nat)
  | getWriteBuffers (len avail : Nat)
  | readFromFile (file : Option (List UInt8)) (avail : Nat)

/-- `read` into a buffer of `room` bytes. -/
def readInto (ba : ByteArray) (size room : Nat) : Except Fault ByteArray := do
  let (bytes, ba') ← ba.read size
  if bytes.length ≤ room then pure ba' else .error .outOfBounds

/-- How a call ends. -/
def call (ba : ByteArray) : Call → Ending
  | .write buf avail => ba.tryWrite buf avail
  | .read size room => .of ba (ba.readInto size room)
  | .setPosition v => .of ba (ba.setPosition v)
  | .clear => .returns ba.clear
  | .getReadBuffers len => .of ba ((ba.getReadBuffers len).map fun _ => ba)
  | .getReadBuffersAt len position => .of ba ((ba.getReadBuffersAt len position).map fun _ => ba)
  | .getWriteBuffers len avail => ba.tryGetWriteBuffers len avail
  | .readFromFile file avail => ba.tryReadFromFile file avail

/-- The object behind a call that returns or throws. -/
def callStep (ba : ByteArray) (c : Call) : Option ByteArray := (ba.call c).object

/-- The representation invariant: nodes of the base size, `m_cur` the node of the position and null
exactly at the capacity, and `addCapacity` makes the room it is asked for. -/
structure Represented (ba : ByteArray) : Prop where
  base_pos : 0 < ba.baseSize
  node_size : ∀ n ∈ ba.nodes, n.size = ba.baseSize ∧ n.ptr.length = ba.baseSize
  nodes_pos : 0 < ba.nodes.length
  capacity_eq : ba.capacity = ba.baseSize * ba.nodes.length
  position_le : ba.position ≤ ba.size
  size_le : ba.size ≤ ba.capacity
  cur_node : ba.position < ba.capacity →
    ba.cur = some (ba.position / ba.baseSize) ∧ ba.position / ba.baseSize < ba.nodes.length
  cur_null : ba.cur = none ↔ ba.position = ba.capacity
  room : ∀ n, n ≤ (ba.addCapacity n).capacity - (ba.addCapacity n).position

/-- The nodes that `addCapacity(size)` needs can be had, or not the first one, or `m_cur` is not
null and need not be set. -/
def GrowsCleanly (ba : ByteArray) (size avail : Nat) : Prop :=
  ba.position = ba.capacity → avail < ba.nodesNeeded size → avail = 0

instance (ba : ByteArray) (size avail : Nat) : Decidable (GrowsCleanly ba size avail) :=
  inferInstanceAs (Decidable (_ → _ → _))

/-- The same for each `write` that `readFromFile` comes to. -/
def BlocksGrowCleanly : ByteArray → List (List UInt8) → Nat → Prop
  | _, [], _ => True
  | ba, block :: blocks, avail =>
      GrowsCleanly ba block.length avail ∧
        ∀ ba', ba.tryWrite block avail = .returns ba' →
          BlocksGrowCleanly ba' blocks (avail - ba.nodesNeeded block.length)

/-- No call runs out of memory between the first node that it appends and the line that sets the
null `m_cur`. -/
def AllocatesCleanly (ba : ByteArray) : Call → Prop
  | .write buf avail => GrowsCleanly ba buf.length avail
  | .getWriteBuffers len avail => GrowsCleanly ba len avail
  | .readFromFile (some file) avail =>
      BlocksGrowCleanly ba (fileBlocks ba.baseSize file.length file) avail
  | _ => True

variable {ba : ByteArray}

theorem Inv.represented (h : Inv ba) : Represented ba where
  base_pos := h.base_pos
  node_size := h.uniform
  nodes_pos := h.nodes_pos
  capacity_eq := by rw [h.capacity_eq, Nat.mul_comm]
  position_le := h.position_le
  size_le := h.size_le
  cur_node := fun hlt => ⟨h.cur_of_lt hlt, h.position_div_lt.mpr hlt⟩
  cur_null := by
    refine ⟨fun hcur => ?_, h.cur_of_eq⟩
    have hpos := h.position_le
    have hsize := h.size_le
    by_contra hne
    rw [h.cur_of_lt (by omega)] at hcur
    cases hcur
  room := by
    intro n
    obtain ⟨-, hposition, -, -, hfit, -⟩ := addCapacity_spec h n
    omega

theorem Represented.inv (h : Represented ba) : Inv ba where
  base_pos := h.base_pos
  uniform := h.node_size
  nodes_pos := h.nodes_pos
  capacity_eq := by rw [h.capacity_eq, Nat.mul_comm]
  position_le := h.position_le
  size_le := h.size_le
  cur_eq := by
    rw [nodePtr]
    by_cases hlt : ba.position < ba.capacity
    · obtain ⟨hcur, hnode⟩ := h.cur_node hlt
      rw [hcur, if_pos hnode]
    · have hpos := h.position_le
      have hsize := h.size_le
      have hend : ba.position = ba.capacity := by omega
      rw [h.cur_null.mpr hend, if_neg]
      rw [Nat.div_lt_iff_lt_mul h.base_pos, Nat.mul_comm, ← h.capacity_eq]
      omega

theorem inv_iff_represented : Inv ba ↔ Represented ba :=
  ⟨Inv.represented, Represented.inv⟩

/-- What is left behind by the members that call `addCapacity`: with the nodes there, whatever
the rest of the call does, else the nodes appended so far. -/
theorem tryAddCapacity_cases (h : Inv ba) (size avail : Nat) :
    (∃ ba', ba.tryAddCapacity size avail = .ok ba' ∧ Inv ba' ∧
      ba'.position + size ≤ ba'.capacity ∧ GrowsCleanly ba size avail) ∨
    (∃ ba', ba.tryAddCapacity size avail = .error ba' ∧
      (Inv ba' ↔ GrowsCleanly ba size avail)) := by
  rw [tryAddCapacity]
  by_cases hfit : ba.nodesNeeded size ≤ avail
  · obtain ⟨hinv, hposition, -, -, hroom, -⟩ := addCapacity_spec h size
    rw [if_pos hfit]
    refine Or.inl ⟨_, rfl, hinv, by rw [hposition]; exact hroom, ?_⟩
    intro _ hlt
    omega
  · rw [if_neg hfit]
    refine Or.inr ⟨_, rfl, ?_⟩
    rw [inv_appendNodes_iff h]
    exact ⟨fun hk hend _ => hk hend, fun hk hend => hk hend (by omega)⟩

theorem growsCleanly_zero (avail : Nat) : GrowsCleanly ba 0 avail := by
  intro _ hlt
  rw [nodesNeeded_eq_zero (Nat.zero_le _)] at hlt
  omega

theorem tryWrite_cases (h : Inv ba) (buf : List UInt8) (avail : Nat) :
    (∃ ba', ba.tryWrite buf avail = .returns ba' ∧ Inv ba' ∧ GrowsCleanly ba buf.length avail) ∨
    (∃ ba', ba.tryWrite buf avail = .throws ba' ∧
      (Inv ba' ↔ GrowsCleanly ba buf.length avail)) := by
  rw [tryWrite]
  by_cases hbuf : buf.length = 0
  · rw [if_pos hbuf, hbuf]
    exact Or.inl ⟨ba, rfl, h, growsCleanly_zero avail⟩
  rw [if_neg hbuf]
  rcases tryAddCapacity_cases h buf.length avail with
    ⟨ba₁, hgrow, hinv, hfit, hclean⟩ | ⟨ba₁, hgrow, hiff⟩
  · obtain ⟨ba', hwrite, hinv', -⟩ := writeBytes_spec hinv (Nat.pos_of_ne_zero hbuf) hfit
    rw [hgrow]
    dsimp only
    rw [hwrite]
    exact Or.inl ⟨ba', rfl, hinv', hclean⟩
  · rw [hgrow]
    exact Or.inr ⟨ba₁, rfl, hiff⟩

theorem tryGetWriteBuffers_cases (h : Inv ba) (len avail : Nat) :
    ∃ ba', (ba.tryGetWriteBuffers len avail).object = some ba' ∧
      (Inv ba' ↔ GrowsCleanly ba len avail) := by
  rw [tryGetWriteBuffers]
  by_cases hlen : len = 0
  · rw [if_pos hlen, hlen]
    exact ⟨ba, rfl, iff_of_true h (growsCleanly_zero avail)⟩
  rw [if_neg hlen]
  rcases tryAddCapacity_cases h len avail with
    ⟨ba', hgrow, hinv, hfit, hclean⟩ | ⟨ba', hgrow, hiff⟩
  · obtain ⟨buffers, hbuffers⟩ := writeBuffers_ok hinv (Nat.pos_of_ne_zero hlen) hfit
    rw [hgrow]
    dsimp only
    rw [hbuffers]
    exact ⟨ba', rfl, iff_of_true hinv hclean⟩
  · rw [hgrow]
    exact ⟨ba', rfl, hiff⟩

/-- The loop of `readFromFile`, by induction on the blocks: it stops at the first `write` that
throws. -/
theorem writeBlocks_cases : ∀ (blocks : List (List UInt8)) (ba : ByteArray) (avail : Nat), Inv ba →
    ∃ ba', (ba.writeBlocks blocks avail).object = some ba' ∧
      (Inv ba' ↔ BlocksGrowCleanly ba blocks avail) := by
  intro blocks
  induction blocks with
  | nil => intro ba avail h; exact ⟨ba, rfl, iff_of_true h trivial⟩
  | cons block blocks ih =>
      intro ba avail h
      rw [writeBlocks, BlocksGrowCleanly]
      rcases tryWrite_cases h block avail with
        ⟨ba₁, hwrite, hinv, hclean⟩ | ⟨ba₁, hwrite, hiff⟩
      · obtain ⟨ba', hrest, hiff⟩ := ih ba₁ (avail - ba.nodesNeeded block.length) hinv
        rw [hwrite]
        refine ⟨ba', hrest, hiff.trans ?_⟩
        constructor
        · intro hblocks
          refine ⟨hclean, fun ba₂ heq => ?_⟩
          injection heq with heq
          exact heq ▸ hblocks
        · rintro ⟨-, hblocks⟩
          exact hblocks ba₁ rfl
      · rw [hwrite]
        refine ⟨ba₁, rfl, hiff.trans ⟨fun hclean => ⟨hclean, ?_⟩, And.left⟩⟩
        intro ba₂ heq
        cases heq

theorem readInto_inv (h : Inv ba) {size room : Nat} {ba' : ByteArray}
    (hread : ba.readInto size room = .ok ba') : Inv ba' := by
  have hpos := h.position_le
  have hsize := h.size_le
  obtain ⟨⟨bytes, ba₁⟩, hok, hroom⟩ := except_bind_eq_ok.mp hread
  obtain rfl : ba₁ = ba' := by
    dsimp only at hroom
    split at hroom
    · exact Except.ok.inj hroom
    · cases hroom
  by_cases hn : size ≤ ba.getReadSize
  · by_cases hend : ba.position = ba.capacity
    · rw [read_at_capacity h hn hend] at hok
      cases hok
    · obtain ⟨ba₂, hread, hinv, -⟩ := read_spec h hn (by omega)
      rw [hread] at hok
      obtain ⟨-, rfl⟩ := Prod.mk.inj (Except.ok.inj hok)
      exact hinv
  · rw [read_throws (by omega)] at hok
    cases hok

theorem setPosition_inv (h : Inv ba) {v : Nat} {ba' : ByteArray}
    (hset : ba.setPosition v = .ok ba') : Inv ba' := by
  by_cases hv : v ≤ ba.capacity
  · obtain ⟨ba₁, hok, hinv, -⟩ := setPosition_spec h hv
    rw [hok] at hset
    exact Except.ok.inj hset ▸ hinv
  · rw [setPosition_throws (by omega)] at hset
    cases hset

/-- Behind a member that throws before it changes anything, the object is what it returns or the
one from before. -/
theorem object_of {r : Except Fault ByteArray} {ba' : ByteArray}
    (h : (Ending.of ba r).object = some ba') : r = .ok ba' ∨ ba' = ba := by
  cases r with
  | ok ba₁ => exact Or.inl (congrArg Except.ok (Option.some.inj h))
  | error fault =>
      cases fault with
      | outOfRange => exact Or.inr (Option.some.inj h).symm
      | nullDeref => cases h
      | outOfBounds => cases h

/-- One call: however it ends, the invariant holds behind it exactly if it allocated cleanly. -/
theorem callStep_inv_iff (h : Inv ba) {c : Call} {ba' : ByteArray}
    (hstep : ba.callStep c = some ba') : Inv ba' ↔ AllocatesCleanly ba c := by
  cases c with
  | write buf avail =>
      rw [callStep, call] at hstep
      rcases tryWrite_cases h buf avail with ⟨ba₁, hwrite, hinv, hclean⟩ | ⟨ba₁, hwrite, hiff⟩
      · rw [hwrite] at hstep
        obtain rfl : ba₁ = ba' := Option.some.inj hstep
        exact iff_of_true hinv hclean
      · rw [hwrite] at hstep
        obtain rfl : ba₁ = ba' := Option.some.inj hstep
        exact hiff
  | read size room =>
      rcases object_of hstep with hread | rfl
      · exact iff_of_true (readInto_inv h hread) trivial
      · exact iff_of_true h trivial
  | setPosition v =>
      rcases object_of hstep with hset | rfl
      · exact iff_of_true (setPosition_inv h hset) trivial
      · exact iff_of_true h trivial
  | clear =>
      obtain rfl : ba.clear = ba' := Option.some.inj hstep
      exact iff_of_true (clear_inv h) trivial
  | getReadBuffers len =>
      rcases object_of hstep with hread | rfl
      · obtain ⟨_, -, rfl⟩ := except_map_eq_ok.mp hread
        exact iff_of_true h trivial
      · exact iff_of_true h trivial
  | getReadBuffersAt len position =>
      rcases object_of hstep with hread | rfl
      · obtain ⟨_, -, rfl⟩ := except_map_eq_ok.mp hread
        exact iff_of_true h trivial
      · exact iff_of_true h trivial
  | getWriteBuffers len avail =>
      obtain ⟨ba₁, hobj, hiff⟩ := tryGetWriteBuffers_cases h len avail
      rw [callStep, call, hobj] at hstep
      exact Option.some.inj hstep ▸ hiff
  | readFromFile file avail =>
      cases file with
      | none => exact iff_of_true (Option.some.inj hstep ▸ h) trivial
      | some bytes =>
          obtain ⟨ba₁, hobj, hiff⟩ := writeBlocks_cases
            (fileBlocks ba.baseSize bytes.length bytes) ba avail h
          rw [callStep, call, tryReadFromFile, hobj] at hstep
          exact Option.some.inj hstep ▸ hiff

/-- An unclean call throws, so there is an object behind it. -/
theorem callStep_of_not_clean (h : Inv ba) {c : Call} (hc : ¬ AllocatesCleanly ba c) :
    ∃ ba', ba.callStep c = some ba' := by
  cases c with
  | write buf avail =>
      rcases tryWrite_cases h buf avail with ⟨ba', hwrite, -⟩ | ⟨ba', hwrite, -⟩
      · exact ⟨ba', by rw [callStep, call, hwrite]; rfl⟩
      · exact ⟨ba', by rw [callStep, call, hwrite]; rfl⟩
  | getWriteBuffers len avail =>
      obtain ⟨ba', hobj, -⟩ := tryGetWriteBuffers_cases h len avail
      exact ⟨ba', hobj⟩
  | readFromFile file avail =>
      cases file with
      | none => exact absurd trivial hc
      | some bytes =>
          obtain ⟨ba', hobj, -⟩ := writeBlocks_cases
            (fileBlocks ba.baseSize bytes.length bytes) ba avail h
          exact ⟨ba', hobj⟩
  | _ => exact absurd trivial hc

/-- The representation invariant holds in every state of a run of calls exactly if no call of it
runs out of memory between the first node that it appends and the line that sets the null
`m_cur`. -/
theorem represented_iff_allocatesCleanly {b : Nat} (hb : 0 < b) (calls : List Call) :
    StatesMeet callStep Represented (new b) calls ↔
      StepsMeet callStep AllocatesCleanly (new b) calls := by
  refine statesMeet_iff_stepsMeet (I := fun _ => True) (D := fun _ _ => True)
    (fun _ _ _ _ _ _ => trivial) ?_ ?_ calls (new b) trivial (inv_new hb).represented
    (stepsMeet_true calls (new b))
  · intro ba c ba' _ _ h hc hstep
    exact ((callStep_inv_iff h.inv hstep).mpr hc).represented
  · intro ba c _ _ h hc
    obtain ⟨ba', hstep⟩ := callStep_of_not_clean h.inv hc
    exact ⟨ba', hstep, fun h' => hc ((callStep_inv_iff h.inv hstep).mp h'.inv)⟩

theorem represented_of_fullNode :
    StatesMeet callStep Represented (new 2)
        [.write [1, 2] 0, .write [3, 4, 5] 0, .getWriteBuffers 3 9, .setPosition 7, .read 1 1,
          .readFromFile (some [6, 7, 8]) 9, .clear] ↔
      StepsMeet callStep AllocatesCleanly (new 2)
        [.write [1, 2] 0, .write [3, 4, 5] 0, .getWriteBuffers 3 9, .setPosition 7, .read 1 1,
          .readFromFile (some [6, 7, 8]) 9, .clear] :=
  represented_iff_allocatesCleanly (by decide) _

/-- What `write` leaves of a full object that needs two more nodes of which one can be had. -/
def halfGrown : ByteArray where
  baseSize := 2
  position := 2
  capacity := 4
  size := 2
  endian := .big
  nodes := [⟨[some 1, some 2], 2⟩, Node.new 2]
  cur := none

/-- `m_cur` stays null although a node lies behind the position. -/
theorem write_outOfMemory_not_represented :
    ¬ StatesMeet callStep Represented (new 2) [.write [1, 2] 0, .write [3, 4, 5] 1] := by
  intro h
  have hlast : Represented halfGrown := statesMeet_run _ _ halfGrown h (by decide)
  exact absurd (hlast.cur_null.mp rfl) (by decide)

end ByteArray

end Saturn
