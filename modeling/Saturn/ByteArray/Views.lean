import Saturn.ByteArray.Reachable

/-!
# Views of the bytes

The members that look at the bytes without moving the position: the positional `read`, `toString`,
and the `iovec`s of the two `getReadBuffers`. Each has a walk over the nodes of its own.
-/

namespace Saturn

namespace ByteArray

/-- `a - b` of two `size_t`s, which wraps around below zero. -/
def sizeSub (a b : Nat) : Nat := if b ≤ a then a - b else a + 2 ^ 64 - b

/-- The loop of the positional `read` over the nodes from `cur` on. -/
def readAtLoop : List Node → Nat → Nat → Except Fault (List Cell)
  | [], _, _ => .error .nullDeref
  | node :: rest, npos, size =>
      if size = 0 then .ok []
      else
        let ncap := node.size - npos
        if size ≤ ncap then node.copy npos size
        else do
          let bytes ← node.copy npos ncap
          let bytes' ← readAtLoop rest 0 (size - ncap)
          pure (bytes ++ bytes')

/-- `read(buf, size, position) const`: what it stores to `buf`. The walk starts at `m_cur`. -/
def readAt (ba : ByteArray) (size position : Nat) : Except Fault (List Cell) :=
  if sizeSub ba.size position < size then .error .outOfRange
  else
    match ba.cur with
    | none => .error .nullDeref
    | some i => readAtLoop (ba.nodes.drop i) (position % ba.baseSize) size

/-- `toString()`. -/
def toString (ba : ByteArray) : Except Fault (List Cell) :=
  if ba.getReadSize = 0 then .ok [] else ba.readAt ba.getReadSize ba.position

/-- The bytes that an `iovec` exposes. -/
def IoVec.bytes (nodes : List Node) (v : IoVec) : Except Fault (List Cell) :=
  match nodes[v.node]? with
  | none => .error .nullDeref
  | some node => node.copy v.offset v.len

/-- The bytes that `iovec`s expose one behind the other. -/
def gather (nodes : List Node) : List IoVec → Except Fault (List Cell)
  | [] => .ok []
  | v :: vs => do
      let bytes ← v.bytes nodes
      let rest ← gather nodes vs
      pure (bytes ++ rest)

section Walks

variable {b : Nat}

/-- The walk copies the bytes from `npos` on, where the nodes have as many. -/
theorem readAtLoop_spec (hb : 0 < b) : ∀ (ns : List Node) (npos size : Nat),
    Uniform b ns → npos < b → 0 < ns.length → npos + size ≤ ns.length * b →
    readAtLoop ns npos size = .ok (((ns.flatMap Node.ptr).drop npos).take size) := by
  intro ns
  induction ns with
  | nil => intro npos size _ _ hpos _; simp at hpos
  | cons n rest ih =>
      intro npos size hu hnpos _ hfit
      obtain ⟨⟨hsize, hptr⟩, hrest⟩ := uniform_cons.mp hu
      have hdrop : (n.ptr ++ rest.flatMap Node.ptr).drop npos =
          n.ptr.drop npos ++ rest.flatMap Node.ptr := List.drop_append_of_le_length (by omega)
      have hhead : (n.ptr.drop npos).length = b - npos := by rw [List.length_drop, hptr]
      have hwhole : ∀ k, b - npos ≤ k → (n.ptr.drop npos).take k = n.ptr.drop npos :=
        fun k hk => List.take_of_length_le (by omega)
      rw [readAtLoop, hsize, List.flatMap_cons, hdrop]
      by_cases hzero : size = 0
      · rw [if_pos hzero, hzero, List.take_zero]
      rw [if_neg hzero]
      dsimp only
      by_cases hin : size ≤ b - npos
      · rw [if_pos hin, copy_ok (by omega), List.take_append_of_le_length (by omega)]
      · have hfit' : npos + size ≤ b + rest.length * b := by
          rw [List.length_cons, Nat.succ_mul] at hfit
          omega
        have hrestpos : 0 < rest.length := by
          by_contra h
          rw [Nat.eq_zero_of_not_pos h] at hfit'
          omega
        rw [if_neg hin, copy_ok (by omega), ih 0 (size - (b - npos)) hrest hb hrestpos (by omega),
          hwhole _ (Nat.le_refl _), List.take_append, hhead, hwhole size (by omega), List.drop_zero]
        rfl

/-- Where the nodes have fewer, the walk runs into the null pointer behind them. -/
theorem readAtLoop_short (hb : 0 < b) : ∀ (ns : List Node) (npos size : Nat),
    Uniform b ns → npos < b → 0 < size → ns.length * b < npos + size →
    readAtLoop ns npos size = .error .nullDeref := by
  intro ns
  induction ns with
  | nil => intro npos size _ _ _ _; rfl
  | cons n rest ih =>
      intro npos size hu hnpos hpos hshort
      obtain ⟨⟨hsize, hptr⟩, hrest⟩ := uniform_cons.mp hu
      have hshort' : b + rest.length * b < npos + size := by
        rw [List.length_cons, Nat.succ_mul] at hshort
        omega
      rw [readAtLoop, if_neg (by omega), hsize]
      dsimp only
      rw [if_neg (by omega), copy_ok (by omega), ih 0 (size - (b - npos)) hrest hb (by omega)
        (by omega)]
      rfl

/-- What the `iovec`s of the loop expose, by induction on the nodes with those before them fixed:
the bytes from `npos` on, in non-empty pieces within a node each. -/
theorem bufferLoop_gather (hb : 0 < b) : ∀ (ns pre : List Node) (npos len : Nat),
    Uniform b ns → npos < b → 0 < len → npos + len ≤ ns.length * b →
    ∃ vs, bufferLoop ns pre.length npos len = .ok vs ∧
      gather (pre ++ ns) vs = .ok (((ns.flatMap Node.ptr).drop npos).take len) ∧
      ∀ v ∈ vs, 0 < v.len ∧ ∃ node, (pre ++ ns)[v.node]? = some node ∧
        v.offset + v.len ≤ node.size := by
  intro ns
  induction ns with
  | nil =>
      intro pre npos len _ _ hlen hfit
      rw [List.length_nil, Nat.zero_mul] at hfit
      omega
  | cons n rest ih =>
      intro pre npos len hu hnpos hlen hfit
      obtain ⟨⟨hsize, hptr⟩, hrest⟩ := uniform_cons.mp hu
      have hget : (pre ++ n :: rest)[pre.length]? = some n := by simp
      have hdrop : (n.ptr ++ rest.flatMap Node.ptr).drop npos =
          n.ptr.drop npos ++ rest.flatMap Node.ptr := List.drop_append_of_le_length (by omega)
      have hhead : (n.ptr.drop npos).length = b - npos := by rw [List.length_drop, hptr]
      have hwhole : ∀ k, b - npos ≤ k → (n.ptr.drop npos).take k = n.ptr.drop npos :=
        fun k hk => List.take_of_length_le (by omega)
      rw [bufferLoop, if_neg (by omega), hsize, List.flatMap_cons, hdrop]
      dsimp only
      by_cases hin : len ≤ b - npos
      · rw [if_pos hin]
        refine ⟨_, rfl, ?_, fun v hv => ?_⟩
        · simp only [gather, IoVec.bytes, hget, copy_ok (show npos + len ≤ n.ptr.length by omega)]
          rw [List.take_append_of_le_length (by omega)]
          simp only [bind, Except.bind, pure, Except.pure, List.append_nil]
        · obtain rfl := List.mem_singleton.mp hv
          exact ⟨hlen, n, hget, by dsimp only; omega⟩
      · have hfit' : npos + len ≤ b + rest.length * b := by
          rw [List.length_cons, Nat.succ_mul] at hfit
          omega
        obtain ⟨vs, hloop, hgather, hmem⟩ :=
          ih (pre ++ [n]) 0 (len - (b - npos)) hrest hb (by omega) (by omega)
        rw [List.length_append, List.length_singleton] at hloop
        rw [List.append_assoc, List.singleton_append] at hgather hmem
        rw [if_neg hin, hloop]
        refine ⟨_, rfl, ?_, fun v hv => ?_⟩
        · simp only [gather, IoVec.bytes, hget,
            copy_ok (show npos + (b - npos) ≤ n.ptr.length by omega), hgather]
          rw [hwhole _ (Nat.le_refl _), List.take_append, hhead, hwhole len (by omega),
            List.drop_zero]
          rfl
        · rcases List.mem_cons.mp hv with rfl | hv
          · exact ⟨by dsimp only; omega, n, hget, by dsimp only; omega⟩
          · exact hmem v hv

end Walks

variable {ba : ByteArray}

/-- Bytes below `m_size`, taken from those of all nodes. -/
theorem contents_slice {position size : Nat} (h : position + size ≤ ba.size) :
    (ba.contents.drop position).take size = (ba.cells.drop position).take size := by
  rw [contents, List.drop_take, List.take_take]
  congr 1
  omega

/-- The bytes from offset `npos` of node number `i` on. -/
theorem Reached.cells_from (h : Reached ba) {i : Nat} (hi : i ≤ ba.nodes.length) (npos : Nat) :
    ((ba.nodes.drop i).flatMap Node.ptr).drop npos = ba.cells.drop (i * ba.baseSize + npos) := by
  have huniform : Uniform ba.baseSize ba.nodes := h.repaired.uniform
  rw [flatMap_ptr_drop huniform i hi, List.drop_drop, cells]

theorem Reached.cells_length (h : Reached ba) : ba.cells.length = ba.capacity := by
  have hlen := h.repaired.cells_length
  exact hlen

theorem Reached.contents_length (h : Reached ba) : ba.contents.length = ba.size := by
  have hlen := h.repaired.contents_length
  exact hlen

theorem Reached.cur_lt (h : Reached ba) {i : Nat} (hcur : ba.cur = some i) :
    i < ba.nodes.length := by
  rcases h.cur_eq with heq | ⟨hnull, -⟩
  · rw [hcur, nodePtr] at heq
    split at heq
    · cases heq
      assumption
    · cases heq
  · rw [hnull] at hcur
    cases hcur

/-- The walk of the positional `read` from node number `i`. -/
theorem Reached.readAtLoop_cases (h : Reached ba) {i : Nat} (hi : i < ba.nodes.length)
    (size position : Nat) :
    (i * ba.baseSize + position % ba.baseSize + size ≤ ba.capacity ∧
      readAtLoop (ba.nodes.drop i) (position % ba.baseSize) size =
        .ok ((ba.cells.drop (i * ba.baseSize + position % ba.baseSize)).take size)) ∨
    (ba.capacity < i * ba.baseSize + position % ba.baseSize + size ∧ 0 < size ∧
      readAtLoop (ba.nodes.drop i) (position % ba.baseSize) size = .error .nullDeref) := by
  have hbase : 0 < ba.baseSize := h.repaired.base_pos
  have huniform : Uniform ba.baseSize (ba.nodes.drop i) := uniform_drop h.repaired.uniform i
  have hcap : ba.capacity = ba.nodes.length * ba.baseSize := h.repaired.capacity_eq
  have hnpos := Nat.mod_lt position hbase
  have hlen : (ba.nodes.drop i).length * ba.baseSize = ba.capacity - i * ba.baseSize := by
    rw [List.length_drop, Nat.sub_mul, hcap]
  have hroom : (i + 1) * ba.baseSize ≤ ba.capacity := by
    rw [hcap]
    exact Nat.mul_le_mul_right _ hi
  rw [Nat.succ_mul] at hroom
  by_cases hfit : i * ba.baseSize + position % ba.baseSize + size ≤ ba.capacity
  · left
    refine ⟨hfit, ?_⟩
    rw [readAtLoop_spec hbase _ _ _ huniform hnpos (by rw [List.length_drop]; omega)
      (by omega), h.cells_from (Nat.le_of_lt hi)]
  · right
    exact ⟨by omega, by omega,
      readAtLoop_short hbase _ _ _ huniform hnpos (by omega) (by omega)⟩

/-- `read(buf, size, position)` fills `buf` with the bytes from `position` on, or throws where
there are not as many. -/
def ReadsAt (ba : ByteArray) (size position : Nat) : Prop :=
  if position ≤ ba.size ∧ size ≤ ba.size - position then
    ba.readAt size position = .ok ((ba.contents.drop position).take size)
  else ba.readAt size position = .error .outOfRange

/-- Where there are enough bytes, `m_cur` is not null and the bytes asked for stand at the offset of
the position in the nodes from `m_cur` on; and where there are not, the difference that is compared
with `size` has not wrapped around to something larger. -/
def CursorServes (ba : ByteArray) (size position : Nat) : Prop :=
  if position ≤ ba.size ∧ size ≤ ba.size - position then
    ∃ i, ba.cur = some i ∧
      (ba.cells.drop (i * ba.baseSize + position % ba.baseSize)).take size =
        (ba.cells.drop position).take size
  else sizeSub ba.size position < size

/-- So it is in the node of the cursor. -/
theorem Reached.cursorServes_of_node (h : Reached ba) {size position : Nat}
    (hlt : ba.position < ba.capacity) (hcur : ba.cur ≠ none)
    (hnode : position / ba.baseSize = ba.position / ba.baseSize)
    (hle : position ≤ ba.size ∧ size ≤ ba.size - position) : CursorServes ba size position := by
  rw [CursorServes, if_pos hle]
  rcases h.inv_or with hinv | ⟨hnull, -⟩
  · refine ⟨_, hinv.cur_of_lt hlt, ?_⟩
    rw [← hnode, Nat.div_add_mod']
  · exact absurd hnull hcur

theorem Reached.readsAt_iff (h : Reached ba) (size position : Nat) :
    ReadsAt ba size position ↔ CursorServes ba size position := by
  rw [ReadsAt, CursorServes, readAt]
  have hsize : ba.size ≤ ba.capacity := h.repaired.size_le
  by_cases hle : position ≤ ba.size ∧ size ≤ ba.size - position
  · rw [if_pos hle, if_pos hle, sizeSub, if_pos hle.1, if_neg (by omega),
      contents_slice (by omega)]
    have hwanted : ((ba.cells.drop position).take size).length = size := by
      rw [List.length_take, List.length_drop, h.cells_length]
      omega
    cases hcur : ba.cur with
    | none => exact ⟨nofun, fun ⟨i, hi, _⟩ => by cases hi⟩
    | some i =>
        dsimp only
        rcases h.readAtLoop_cases (h.cur_lt hcur) size position with
          ⟨-, hok⟩ | ⟨hshort, hpos, herror⟩
        · rw [hok]
          constructor
          · intro heq
            exact ⟨i, rfl, Except.ok.inj heq⟩
          · rintro ⟨j, hj, heq⟩
            cases hj
            rw [heq]
        · rw [herror]
          constructor
          · intro heq
            cases heq
          · rintro ⟨j, hj, heq⟩
            cases hj
            have hlen := congrArg List.length heq
            rw [hwanted, List.length_take, List.length_drop, h.cells_length] at hlen
            omega
  · rw [if_neg hle, if_neg hle]
    by_cases hwrap : sizeSub ba.size position < size
    · rw [if_pos hwrap]
      exact iff_of_true rfl hwrap
    · rw [if_neg hwrap]
      refine iff_of_false ?_ hwrap
      cases hcur : ba.cur with
      | none => intro heq; cases heq
      | some i =>
          dsimp only
          rcases h.readAtLoop_cases (h.cur_lt hcur) size position with ⟨-, hok⟩ | ⟨-, -, herror⟩
          · rw [hok]
            intro heq
            cases heq
          · rw [herror]
            intro heq
            cases heq

/-- In every state that calls reach, the positional `read` is right exactly where the cursor serves
it. -/
theorem readsAt_iff_cursorServes {b : Nat} (hb : 0 < b) {calls : List Call}
    (hrun : run callStep (new b) calls = some ba) (size position : Nat) :
    ReadsAt ba size position ↔ CursorServes ba size position :=
  (reached_of_run hb hrun).readsAt_iff size position

/-- Two bytes over a border of nodes of four, with the cursor in the first of the nodes. -/
theorem readsAt_over_border :
    ∃ ba, run callStep (new 4) [.write [1, 2, 3, 4, 5, 6] 1, .setPosition 1] = some ba ∧
      ReadsAt ba 2 3 := by
  refine ⟨_, rfl, ?_⟩
  rw [@readsAt_iff_cursorServes _ 4 (by decide) [.write [1, 2, 3, 4, 5, 6] 1, .setPosition 1] rfl]
  exact ⟨0, rfl, rfl⟩

/-- The last byte of six, with the cursor at the first: what comes is the byte at the same offset
of the first node. -/
theorem not_readsAt_behind_cursor :
    ∃ ba, run callStep (new 4) [.write [1, 2, 3, 4, 5, 6] 1, .setPosition 0] = some ba ∧
      ba.readAt 1 5 = .ok [some 2] ∧ ¬ ReadsAt ba 1 5 := by
  refine ⟨_, rfl, rfl, ?_⟩
  intro h
  have hback : Except.ok [some 2] = (Except.ok [some 6] : Except Fault (List Cell)) := h
  exact absurd (Except.ok.inj hback) (by decide)

/-- `toString` returns the bytes from the position on. -/
theorem Reached.toString_eq (h : Reached ba) :
    ba.toString = .ok (ba.contents.drop ba.position) := by
  have hpos : ba.position ≤ ba.size := h.repaired.position_le
  rw [toString]
  by_cases hzero : ba.getReadSize = 0
  · rw [if_pos hzero, List.drop_of_length_le]
    rw [getReadSize] at hzero
    rw [h.contents_length]
    omega
  · rw [getReadSize] at hzero
    have hinv := h.inv_of_lt (by omega)
    have hsize := hinv.size_le
    have hserves : CursorServes ba ba.getReadSize ba.position := by
      apply h.cursorServes_of_node (by omega) _ rfl
      · exact ⟨hpos, Nat.le_refl _⟩
      · rw [hinv.cur_of_lt (by omega)]
        exact Option.some_ne_none _
    have hread := (h.readsAt_iff _ _).mpr hserves
    rw [ReadsAt, if_pos ⟨hpos, Nat.le_refl _⟩] at hread
    rw [if_neg (by rw [getReadSize]; omega), hread, List.take_of_length_le]
    rw [List.length_drop, h.contents_length]
    exact Nat.le_refl _

/-- The walk of the two `getReadBuffers` from the node of `position` on. -/
theorem Reached.bufferLoop_at (h : Reached ba) (position : Nat) {len : Nat} (hlen : 0 < len)
    (hle : position + len ≤ ba.size) :
    ∃ vs, bufferLoop (ba.nodes.drop (position / ba.baseSize)) (position / ba.baseSize)
        (position % ba.baseSize) len = .ok vs ∧
      gather ba.nodes vs = .ok ((ba.contents.drop position).take len) ∧
      ∀ v ∈ vs, 0 < v.len ∧ ∃ node, ba.nodes[v.node]? = some node ∧
        v.offset + v.len ≤ node.size := by
  have hbase : 0 < ba.baseSize := h.repaired.base_pos
  have huniform : Uniform ba.baseSize ba.nodes := h.repaired.uniform
  have hcap : ba.capacity = ba.nodes.length * ba.baseSize := h.repaired.capacity_eq
  have hsize : ba.size ≤ ba.capacity := h.repaired.size_le
  have hdm := Nat.div_add_mod' position ba.baseSize
  have hi : position / ba.baseSize < ba.nodes.length := by
    rw [Nat.div_lt_iff_lt_mul hbase, ← hcap]
    omega
  have hpre : (ba.nodes.take (position / ba.baseSize)).length = position / ba.baseSize := by
    rw [List.length_take, Nat.min_eq_left (Nat.le_of_lt hi)]
  obtain ⟨vs, hloop, hgather, hmem⟩ := bufferLoop_gather hbase
    (ba.nodes.drop (position / ba.baseSize)) (ba.nodes.take (position / ba.baseSize))
    (position % ba.baseSize) len (uniform_drop huniform _) (Nat.mod_lt _ hbase) hlen
    (by rw [List.length_drop, Nat.sub_mul, ← hcap]; omega)
  rw [hpre] at hloop
  rw [List.take_append_drop] at hgather hmem
  rw [h.cells_from (Nat.le_of_lt hi), hdm, ← contents_slice hle] at hgather
  exact ⟨vs, hloop, hgather, hmem⟩

/-- `getReadBuffers(buffers, len, position)` exposes as many of the bytes from `position` on as
there are, and `len` at most. -/
def GathersAt (ba : ByteArray) (len position : Nat) : Prop :=
  ∃ iovs, ba.getReadBuffersAt len position = .ok (iovs, min len (ba.size - position)) ∧
    gather ba.nodes iovs = .ok ((ba.contents.drop position).take (min len (ba.size - position)))

/-- What is left behind the cursor bounds `len` as what is left behind `position` does. -/
def BoundServes (ba : ByteArray) (len position : Nat) : Prop :=
  position = ba.position ∨ len ≤ ba.size - max position ba.position

instance (ba : ByteArray) (len position : Nat) : Decidable (BoundServes ba len position) :=
  inferInstanceAs (Decidable (_ ∨ _))

/-- The clamp of both `getReadBuffers`. -/
theorem clamp_eq (len : Nat) :
    (if len > ba.getReadSize then ba.getReadSize else len) = min len ba.getReadSize := by
  split <;> omega

theorem Reached.gathersAt_iff (h : Reached ba) {position : Nat} (hposition : position ≤ ba.size)
    (len : Nat) : GathersAt ba len position ↔ BoundServes ba len position := by
  have hpos : ba.position ≤ ba.size := h.repaired.position_le
  have hsize : ba.size ≤ ba.capacity := h.repaired.size_le
  have hbase : 0 < ba.baseSize := h.repaired.base_pos
  have hcap : ba.capacity = ba.nodes.length * ba.baseSize := h.repaired.capacity_eq
  -- the two bounds agree on `len` exactly in the condition
  have hbound : BoundServes ba len position ↔ min len ba.getReadSize = min len (ba.size - position) := by
    rw [BoundServes, getReadSize]
    omega
  rw [hbound, GathersAt, getReadBuffersAt]
  simp only [clamp_eq]
  by_cases hzero : min len ba.getReadSize = 0
  · rw [if_pos hzero, hzero]
    constructor
    · rintro ⟨iovs, heq, -⟩
      exact (Prod.mk.inj (Except.ok.inj heq)).2
    · intro heq
      rw [← heq]
      exact ⟨[], rfl, by rw [List.take_zero]; rfl⟩
  rw [if_neg hzero]
  constructor
  · rintro ⟨iovs, heq, -⟩
    split at heq
    · cases heq
    · obtain ⟨vs, -, hret⟩ := except_bind_eq_ok.mp heq
      exact (Prod.mk.inj (Except.ok.inj hret)).2
  · intro heq
    rw [heq] at hzero ⊢
    have hi : position / ba.baseSize < ba.nodes.length := by
      rw [Nat.div_lt_iff_lt_mul hbase, ← hcap]
      omega
    obtain ⟨vs, hloop, hgather, -⟩ := h.bufferLoop_at position
      (by omega : 0 < min len (ba.size - position)) (by omega)
    refine ⟨vs, ?_, hgather⟩
    rw [if_neg (by omega), hloop]
    rfl

/-- In every state that calls reach, and for every position in the data, the positional gather is
right exactly where the bound taken from the cursor is the one for the position. -/
theorem gathersAt_iff_boundServes {b : Nat} (hb : 0 < b) {calls : List Call}
    (hrun : run callStep (new b) calls = some ba) {position : Nat} (hposition : position ≤ ba.size)
    (len : Nat) : GathersAt ba len position ↔ BoundServes ba len position :=
  (reached_of_run hb hrun).gathersAt_iff hposition len

/-- Four bytes over a border of nodes of four, as many as are left behind the cursor. -/
theorem gathersAt_over_border :
    ∃ ba, run callStep (new 4) [.write [1, 2, 3, 4, 5, 6, 7] 1, .setPosition 3] = some ba ∧
      GathersAt ba 4 2 := by
  refine ⟨_, rfl, ?_⟩
  rw [@gathersAt_iff_boundServes _ 4 (by decide)
    [.write [1, 2, 3, 4, 5, 6, 7] 1, .setPosition 3] rfl 2 (by decide)]
  exact Or.inr (by decide)

/-- All of six bytes asked for with the cursor behind the fourth: two come. -/
theorem not_gathersAt_before_cursor :
    ∃ ba, run callStep (new 8) [.write [1, 2, 3, 4, 5, 6] 0, .setPosition 4] = some ba ∧
      ba.getReadBuffersAt 6 0 = .ok ([⟨0, 0, 2⟩], 2) ∧ ¬ GathersAt ba 6 0 := by
  refine ⟨_, rfl, rfl, ?_⟩
  rintro ⟨iovs, hread, -⟩
  have hcount : (2 : Nat) = 6 := (Prod.mk.inj (Except.ok.inj hread)).2
  exact absurd hcount (by decide)

/-- The `iovec`s of `getReadBuffers(buffers, len)` are the beginning of `toString()`, in non-empty
pieces within a node each. -/
def ViewsAgree (ba : ByteArray) (len : Nat) : Prop :=
  ∃ str iovs, ba.toString = .ok str ∧
    ba.getReadBuffers len = .ok (iovs, min len ba.getReadSize) ∧
    gather ba.nodes iovs = .ok (str.take (min len ba.getReadSize)) ∧
    (str.take (min len ba.getReadSize)).length = min len ba.getReadSize ∧
    ∀ v ∈ iovs, 0 < v.len ∧ ∃ node, ba.nodes[v.node]? = some node ∧ v.offset + v.len ≤ node.size

theorem Reached.viewsAgree (h : Reached ba) (len : Nat) : ViewsAgree ba len := by
  have hpos : ba.position ≤ ba.size := h.repaired.position_le
  have hlength : ((ba.contents.drop ba.position).take (min len ba.getReadSize)).length =
      min len ba.getReadSize := by
    rw [List.length_take, List.length_drop, h.contents_length, getReadSize]
    omega
  rw [ViewsAgree, getReadBuffers]
  simp only [clamp_eq]
  by_cases hzero : min len ba.getReadSize = 0
  · refine ⟨_, [], h.toString_eq, ?_, ?_, hlength, fun v hv => absurd hv List.not_mem_nil⟩
    · rw [if_pos hzero, hzero]
    · rw [hzero, List.take_zero]
      rfl
  · have hread : ba.position + min len ba.getReadSize ≤ ba.size := by
      rw [getReadSize] at hzero ⊢
      omega
    have hinv := h.inv_of_lt (by omega)
    have hsize := hinv.size_le
    obtain ⟨vs, hloop, hgather, hmem⟩ := h.bufferLoop_at ba.position
      (Nat.pos_of_ne_zero hzero) hread
    refine ⟨_, vs, h.toString_eq, ?_, hgather, hlength, hmem⟩
    rw [if_neg hzero, hinv.cur_of_lt (by omega)]
    dsimp only
    rw [hloop]
    rfl

/-- In every state that calls reach, the sequential views agree. -/
theorem views_agree {b : Nat} (hb : 0 < b) {calls : List Call}
    (hrun : run callStep (new b) calls = some ba) (len : Nat) : ViewsAgree ba len :=
  (reached_of_run hb hrun).viewsAgree len

/-- An object that ran out of memory with the cursor behind its one node, and the same one with the
cursor back in it and another node behind: the views have bytes of both nodes. -/
theorem views_agree_outOfMemory :
    (∃ ba, run callStep (new 2) [.write [1, 2] 0, .write [3, 4, 5] 1] = some ba ∧
      ba.cur = none ∧ ViewsAgree ba 3) ∧
    ∃ ba, run callStep (new 2) [.write [1, 2] 0, .write [3, 4, 5] 1, .clear, .write [6, 7, 8] 9,
        .setPosition 1] = some ba ∧
      ba.toString = .ok [some 7, some 8] ∧ ViewsAgree ba 3 :=
  ⟨⟨_, rfl, rfl, @views_agree _ 2 (by decide) [.write [1, 2] 0, .write [3, 4, 5] 1] rfl 3⟩,
    ⟨_, rfl, rfl, @views_agree _ 2 (by decide) [.write [1, 2] 0, .write [3, 4, 5] 1, .clear,
      .write [6, 7, 8] 9, .setPosition 1] rfl 3⟩⟩

end ByteArray

end Saturn
