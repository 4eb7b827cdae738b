import Mathlib.Tactic.Ring
import Saturn.ByteArray.Defs

/-!
# What the operations of `ByteArray` do

`ByteArray.Inv` is the representation invariant: the nodes have `m_baseSize` bytes each, and
`m_cur` is the node that `m_position` falls in, null exactly behind the last byte. Each member
function gets one lemma that says when it succeeds, that it keeps the invariant, and what it does to
the bytes seen as one list.
-/

namespace Saturn

/-- Every node has `b` bytes. -/
def Uniform (b : Nat) (ns : List Node) : Prop := ∀ n ∈ ns, n.size = b ∧ n.ptr.length = b

section Nodes

variable {b : Nat}

theorem uniform_cons {n : Node} {ns : List Node} :
    Uniform b (n :: ns) ↔ (n.size = b ∧ n.ptr.length = b) ∧ Uniform b ns := by
  simp [Uniform]

theorem uniform_append {ms ns : List Node} :
    Uniform b (ms ++ ns) ↔ Uniform b ms ∧ Uniform b ns := by
  simp only [Uniform, List.mem_append]
  exact ⟨fun h => ⟨fun n hn => h n (Or.inl hn), fun n hn => h n (Or.inr hn)⟩,
    fun h n hn => hn.elim (h.1 n) (h.2 n)⟩

theorem uniform_replicate (k : Nat) : Uniform b (List.replicate k (Node.new b)) := by
  intro n hn
  obtain ⟨-, rfl⟩ := List.mem_replicate.mp hn
  simp [Node.new]

theorem uniform_take {ns : List Node} (h : Uniform b ns) (k : Nat) : Uniform b (ns.take k) :=
  fun n hn => h n (List.mem_of_mem_take hn)

theorem uniform_drop {ns : List Node} (h : Uniform b ns) (k : Nat) : Uniform b (ns.drop k) :=
  fun n hn => h n (List.mem_of_mem_drop hn)

theorem flatMap_ptr_length {ns : List Node} (h : Uniform b ns) :
    (ns.flatMap Node.ptr).length = ns.length * b := by
  induction ns with
  | nil => simp
  | cons n ns ih =>
      obtain ⟨hn, hns⟩ := uniform_cons.mp h
      rw [List.flatMap_cons, List.length_append, ih hns, hn.2, List.length_cons]
      ring

theorem flatMap_ptr_replicate (k : Nat) :
    (List.replicate k (Node.new b)).flatMap Node.ptr = List.replicate (k * b) none := by
  induction k with
  | zero => simp
  | succ k ih =>
      rw [List.replicate_succ, List.flatMap_cons, ih, Node.new, ← List.replicate_add]
      congr 1
      ring

/-- Dropping whole nodes drops their bytes. -/
theorem flatMap_ptr_drop {ns : List Node} (h : Uniform b ns) (k : Nat) (hk : k ≤ ns.length) :
    (ns.drop k).flatMap Node.ptr = (ns.flatMap Node.ptr).drop (k * b) := by
  have hlen : ((ns.take k).flatMap Node.ptr).length = k * b := by
    rw [flatMap_ptr_length (uniform_take h k), List.length_take, Nat.min_eq_left hk]
  conv_rhs => rw [← List.take_append_drop k ns, List.flatMap_append]
  rw [← hlen, List.drop_left]

theorem flatMap_ptr_take {ns : List Node} (h : Uniform b ns) (k : Nat) (hk : k ≤ ns.length) :
    (ns.take k).flatMap Node.ptr = (ns.flatMap Node.ptr).take (k * b) := by
  have hlen : ((ns.take k).flatMap Node.ptr).length = k * b := by
    rw [flatMap_ptr_length (uniform_take h k), List.length_take, Nat.min_eq_left hk]
  conv_rhs => rw [← List.take_append_drop k ns, List.flatMap_append]
  rw [← hlen, List.take_left]

namespace ByteArray

theorem memcpy_ok {n : Node} {npos : Nat} {src : List UInt8} (h : npos + src.length ≤ n.ptr.length) :
    n.memcpy npos src = .ok { n with ptr := overlay n.ptr npos (src.map some) } := by
  rw [Node.memcpy, if_pos h]

theorem copy_ok {n : Node} {npos count : Nat} (h : npos + count ≤ n.ptr.length) :
    n.copy npos count = .ok ((n.ptr.drop npos).take count) := by
  rw [Node.copy, if_pos h]

/-- `writeLoop` stores the block at `npos` of the bytes of the nodes, and `m_cur` ends at the node
that the byte behind the block falls in. -/
theorem writeLoop_spec (hb : 0 < b) : ∀ (ns : List Node) (npos : Nat) (buf : List UInt8),
    Uniform b ns → npos < b → 0 < buf.length → npos + buf.length ≤ ns.length * b →
    ∃ ns', writeLoop ns npos buf = .ok (ns', (npos + buf.length) / b) ∧ Uniform b ns' ∧
      ns'.length = ns.length ∧
      ns'.flatMap Node.ptr = overlay (ns.flatMap Node.ptr) npos (buf.map some) := by
  intro ns
  induction ns with
  | nil =>
      intro npos buf _ _ hbuf hfit
      rw [List.length_nil, Nat.zero_mul] at hfit
      omega
  | cons n rest ih =>
      intro npos buf hu hnpos hbuf hfit
      obtain ⟨⟨hsize, hptr⟩, hrest⟩ := uniform_cons.mp hu
      rw [writeLoop, if_neg (by omega)]
      by_cases hin : buf.length ≤ n.size - npos
      · -- the block ends in this node
        rw [if_pos hin, memcpy_ok (by omega)]
        refine ⟨{ n with ptr := overlay n.ptr npos (buf.map some) } :: rest, ?_, uniform_cons.mpr ⟨⟨hsize, ?_⟩, hrest⟩, rfl, ?_⟩
        · have hhops : (if n.size = npos + buf.length then 1 else 0) = (npos + buf.length) / b := by
            split
            · rename_i h; rw [← h, hsize, Nat.div_self hb]
            · exact (Nat.div_eq_of_lt (by omega)).symm
          simp only [bind, Except.bind, pure, Except.pure, hhops]
        · rw [overlay_length_of_le (by rw [List.length_map]; omega), hptr]
        · rw [List.flatMap_cons, List.flatMap_cons,
            overlay_append_left (by rw [List.length_map]; omega)]
      · -- the block goes on in the next node
        rw [if_neg hin]
        have hcount : (n.size - npos) = b - npos := by rw [hsize]
        rw [hcount] at hin ⊢
        have htake : (buf.take (b - npos)).length = b - npos := by
          rw [List.length_take]; omega
        have hdrop : (buf.drop (b - npos)).length = buf.length - (b - npos) := List.length_drop ..
        have hfit' : npos + buf.length ≤ b + rest.length * b := by
          rw [List.length_cons, Nat.succ_mul] at hfit
          omega
        obtain ⟨rest', hloop, hu', hlen', hflat'⟩ :=
          ih 0 (buf.drop (b - npos)) hrest hb (by omega) (by omega)
        rw [memcpy_ok (by omega)]
        refine ⟨{ n with ptr := overlay n.ptr npos ((buf.take (b - npos)).map some) } :: rest', ?_,
          uniform_cons.mpr ⟨⟨hsize, ?_⟩, hu'⟩, by rw [List.length_cons, hlen', List.length_cons], ?_⟩
        · have hhops : (0 + (buf.drop (b - npos)).length) / b + 1 = (npos + buf.length) / b := by
            rw [hdrop, ← Nat.add_div_right _ hb]
            congr 1
            omega
          simp only [bind, Except.bind, pure, Except.pure, hloop, hhops]
        · rw [overlay_length_of_le (by rw [List.length_map]; omega), hptr]
        · rw [List.flatMap_cons, List.flatMap_cons, hflat',
            overlay_append_split (by omega) (by rw [List.length_map]; omega), hptr, List.map_take,
            List.map_drop]

/-- How many bytes `read` stores for a request of `size` at offset `npos` of a node: it rounds the
end of the request up to the end of the node. -/
def stride (b npos size : Nat) : Nat :=
  if size = 0 then 0 else (npos + size + b - 1) / b * b - npos

/-- `readLoop` stores the bytes from `npos` on, up to the end of the node the request ends in. -/
theorem readLoop_spec (hb : 0 < b) : ∀ (ns : List Node) (npos size : Nat),
    Uniform b ns → npos < b → 0 < ns.length → npos + size ≤ ns.length * b →
    readLoop ns npos size =
      .ok (((ns.flatMap Node.ptr).drop npos).take (stride b npos size), (npos + size) / b) := by
  intro ns
  induction ns with
  | nil => intro npos size _ _ hpos _; simp at hpos
  | cons n rest ih =>
      intro npos size hu hnpos _ hfit
      obtain ⟨⟨hsize, hptr⟩, hrest⟩ := uniform_cons.mp hu
      rw [readLoop]
      by_cases hzero : size = 0
      · rw [if_pos hzero, stride, if_pos hzero, hzero, List.take_zero, Nat.add_zero,
          Nat.div_eq_of_lt hnpos]
      rw [if_neg hzero, hsize, stride, if_neg hzero, List.flatMap_cons]
      dsimp only
      rw [copy_ok (by omega)]
      have hdrop : (n.ptr ++ rest.flatMap Node.ptr).drop npos =
          n.ptr.drop npos ++ rest.flatMap Node.ptr := List.drop_append_of_le_length (by omega)
      have hhead : (n.ptr.drop npos).length = b - npos := by rw [List.length_drop, hptr]
      by_cases hin : size ≤ b - npos
      · -- the request ends in this node
        have hborder : (npos + size + b - 1) / b = 1 := Nat.div_eq_of_lt_le (by omega) (by omega)
        have hhops : (if b = npos + size then 1 else 0) = (npos + size) / b := by
          split
          · rename_i h; rw [← h, Nat.div_self hb]
          · exact (Nat.div_eq_of_lt (by omega)).symm
        rw [if_pos hin, hdrop, hborder, Nat.one_mul, List.take_append_of_le_length (by omega)]
        simp only [bind, Except.bind, pure, Except.pure, hhops]
      · -- the request goes on in the next node
        have hfit' : npos + size ≤ b + rest.length * b := by
          rw [List.length_cons, Nat.succ_mul] at hfit
          omega
        have hrestpos : 0 < rest.length := by
          by_contra h
          rw [Nat.eq_zero_of_not_pos h] at hfit'
          omega
        have hhops : (0 + (size - (b - npos))) / b + 1 = (npos + size) / b := by
          rw [← Nat.add_div_right _ hb]
          congr 1
          omega
        have hborder : (npos + size + b - 1) / b =
            (0 + (size - (b - npos)) + b - 1) / b + 1 := by
          rw [← Nat.add_div_right _ hb]
          congr 1
          omega
        have hcount : (npos + size + b - 1) / b * b - npos =
            (b - npos) + stride b 0 (size - (b - npos)) := by
          rw [stride, if_neg (by omega), hborder, Nat.succ_mul]
          omega
        have hwhole : ∀ k, b - npos ≤ k → (n.ptr.drop npos).take k = n.ptr.drop npos :=
          fun k hk => List.take_of_length_le (by omega)
        rw [if_neg hin, hdrop, hcount, List.take_append, hhead, hwhole _ (Nat.le_refl _),
          hwhole _ (Nat.le_add_right _ _), Nat.add_sub_cancel_left]
        simp only [bind, Except.bind, pure, Except.pure,
          ih 0 (size - (b - npos)) hrest hb hrestpos (by omega), hhops, List.drop_zero]

theorem seekLoop_spec (hb : 0 < b) : ∀ (ns : List Node) (v : Nat),
    Uniform b ns → 0 < ns.length → v ≤ ns.length * b → seekLoop ns v = .ok (v / b) := by
  intro ns
  induction ns with
  | nil => intro v _ hpos _; simp at hpos
  | cons n rest ih =>
      intro v hu _ hv
      obtain ⟨⟨hsize, -⟩, hrest⟩ := uniform_cons.mp hu
      rw [seekLoop, hsize]
      split
      · have hv' : v ≤ b + rest.length * b := by
          rw [List.length_cons, Nat.succ_mul] at hv
          omega
        have hrestpos : 0 < rest.length := by
          by_contra h
          rw [Nat.eq_zero_of_not_pos h] at hv'
          omega
        have hhops : (v - b) / b + 1 = v / b := by
          rw [← Nat.add_div_right _ hb]
          congr 1
          omega
        rw [ih (v - b) hrest hrestpos (by omega)]
        simp only [Except.map, hhops]
      · congr 1
        split
        · rename_i h; rw [h, Nat.div_self hb]
        · exact (Nat.div_eq_of_lt (by omega)).symm

end ByteArray

end Nodes

namespace ByteArray

/-- The representation invariant of `ByteArray`. -/
structure Inv (ba : ByteArray) : Prop where
  base_pos : 0 < ba.baseSize
  uniform : Uniform ba.baseSize ba.nodes
  nodes_pos : 0 < ba.nodes.length
  capacity_eq : ba.capacity = ba.nodes.length * ba.baseSize
  position_le : ba.position ≤ ba.size
  size_le : ba.size ≤ ba.capacity
  cur_eq : ba.cur = ba.nodePtr (ba.position / ba.baseSize)

theorem inv_new {baseSize : Nat} (h : 0 < baseSize) : Inv (new baseSize) where
  base_pos := h
  uniform := by simp [new, Uniform, Node.new]
  nodes_pos := by simp [new]
  capacity_eq := by simp [new]
  position_le := by simp [new]
  size_le := by simp [new]
  cur_eq := by simp [new, nodePtr]

variable {ba : ByteArray}

theorem Inv.cells_length (h : Inv ba) : ba.cells.length = ba.capacity := by
  rw [cells, flatMap_ptr_length h.uniform, h.capacity_eq]

theorem Inv.contents_length (h : Inv ba) : ba.contents.length = ba.size := by
  rw [contents, List.length_take, h.cells_length, Nat.min_eq_left h.size_le]

/-- `m_cur` is null exactly at the end of the last node. -/
theorem Inv.position_div_lt (h : Inv ba) :
    ba.position / ba.baseSize < ba.nodes.length ↔ ba.position < ba.capacity := by
  rw [Nat.div_lt_iff_lt_mul h.base_pos, h.capacity_eq]

theorem Inv.cur_of_lt (h : Inv ba) (hpos : ba.position < ba.capacity) :
    ba.cur = some (ba.position / ba.baseSize) := by
  rw [h.cur_eq, nodePtr, if_pos (h.position_div_lt.mpr hpos)]

theorem Inv.cur_of_eq (h : Inv ba) (hpos : ba.position = ba.capacity) : ba.cur = none := by
  rw [h.cur_eq, nodePtr, if_neg]
  rw [h.position_div_lt]
  omega

/-- What is left of the nodes from `m_cur` on holds the bytes from there to the capacity. -/
theorem Inv.rest_fits (h : Inv ba) {n : Nat} (hfit : ba.position + n ≤ ba.capacity) :
    ba.position % ba.baseSize + n ≤
      (ba.nodes.drop (ba.position / ba.baseSize)).length * ba.baseSize := by
  have hdm := Nat.div_add_mod' ba.position ba.baseSize
  rw [List.length_drop, Nat.sub_mul, ← h.capacity_eq]
  omega

theorem div_add_mod_add_div {b p n : Nat} (hb : 0 < b) : p / b + (p % b + n) / b = (p + n) / b := by
  conv_rhs => rw [← Nat.div_add_mod p b, Nat.add_assoc, Nat.mul_add_div hb]

theorem ceil_mul_le (b x : Nat) (hb : 0 < b) : x ≤ (x + b - 1) / b * b := by
  have hdm := Nat.div_add_mod' (x + b - 1) b
  have hlt := Nat.mod_lt (x + b - 1) hb
  omega

/-- `addCapacity` adds nodes, keeps the bytes there are, and makes room for `n`. -/
theorem addCapacity_spec (h : Inv ba) (n : Nat) :
    Inv (ba.addCapacity n) ∧ (ba.addCapacity n).position = ba.position ∧
      (ba.addCapacity n).size = ba.size ∧ (ba.addCapacity n).baseSize = ba.baseSize ∧
      ba.position + n ≤ (ba.addCapacity n).capacity ∧
      ∃ k, (ba.addCapacity n).cells = ba.cells ++ List.replicate k none := by
  have hpos := h.position_le
  have hsize := h.size_le
  rw [addCapacity]
  split
  · exact ⟨h, rfl, rfl, rfl, by omega, 0, by simp⟩
  rename_i hn
  dsimp only [getCapacity]
  split
  · exact ⟨h, rfl, rfl, rfl, by omega, 0, by simp⟩
  rename_i hcap
  have hroom := ceil_mul_le ba.baseSize (n - (ba.capacity - ba.position)) h.base_pos
  generalize (n - (ba.capacity - ba.position) + ba.baseSize - 1) / ba.baseSize = count at hroom ⊢
  have hcountpos : count ≠ 0 := by
    rintro rfl
    rw [Nat.zero_mul] at hroom
    omega
  refine ⟨⟨h.base_pos, uniform_append.mpr ⟨h.uniform, uniform_replicate _⟩, ?_, ?_, hpos, ?_, ?_⟩,
    rfl, rfl, rfl, ?_, count * ba.baseSize, ?_⟩
  · have := h.nodes_pos
    rw [List.length_append]
    omega
  · rw [List.length_append, List.length_replicate, Nat.add_mul, ← h.capacity_eq]
  · exact Nat.le_trans hsize (Nat.le_add_right _ _)
  · -- `m_cur` stays where it is, unless it was null: then it is the first new node
    dsimp only [nodePtr]
    rw [List.length_append, List.length_replicate]
    split
    · rename_i hfull
      have hend : ba.position / ba.baseSize = ba.nodes.length := by
        have heq : ba.position = ba.nodes.length * ba.baseSize := by
          rw [← h.capacity_eq]
          omega
        rw [heq, Nat.mul_div_cancel _ h.base_pos]
      rw [hend, if_pos (by omega)]
    · have hlt := h.position_div_lt.mpr (by omega)
      rw [h.cur_of_lt (by omega), if_pos (Nat.lt_add_right _ hlt)]
  · dsimp only
    omega
  · rw [cells, List.flatMap_append, flatMap_ptr_replicate, cells]

/-- Bytes stored at the offset of the position in the nodes from its node on are stored at the
position. -/
theorem Inv.cells_stored (h : Inv ba) {ns : List Node} {src : List Cell}
    (hflat : ns.flatMap Node.ptr = overlay
      ((ba.nodes.drop (ba.position / ba.baseSize)).flatMap Node.ptr) (ba.position % ba.baseSize) src) :
    (ba.nodes.take (ba.position / ba.baseSize) ++ ns).flatMap Node.ptr =
      overlay ba.cells ba.position src := by
  have hpos := h.position_le
  have hsize := h.size_le
  have hdm := Nat.div_add_mod' ba.position ba.baseSize
  have hi : ba.position / ba.baseSize ≤ ba.nodes.length := by
    rw [Nat.div_le_iff_le_mul_add_pred h.base_pos, Nat.mul_comm, ← h.capacity_eq]
    omega
  have hbefore : (ba.cells.take (ba.position / ba.baseSize * ba.baseSize)).length =
      ba.position / ba.baseSize * ba.baseSize := by
    rw [List.length_take, h.cells_length]
    omega
  rw [List.flatMap_append, hflat, flatMap_ptr_take h.uniform _ hi, flatMap_ptr_drop h.uniform _ hi]
  change ba.cells.take _ ++ overlay (ba.cells.drop _) _ _ = _
  rw [← overlay_append_right, List.take_append_drop, hbefore, hdm]

/-- Behind `addCapacity`, the bytes are stored at the position, which moves behind them. -/
theorem writeBytes_spec (h : Inv ba) {buf : List UInt8} (hbuf : 0 < buf.length)
    (hfit : ba.position + buf.length ≤ ba.capacity) :
    ∃ ba', ba.writeBytes buf = .ok ba' ∧ Inv ba' ∧ ba'.baseSize = ba.baseSize ∧
      ba'.position = ba.position + buf.length ∧
      ba'.contents = overlay ba.contents ba.position (buf.map some) := by
  have hpos := h.position_le
  have hsize := h.size_le
  have hi := h.position_div_lt.mpr (by omega)
  have hdm := Nat.div_add_mod' ba.position ba.baseSize
  obtain ⟨ns, hloop, huni, hlen, hflat⟩ := writeLoop_spec h.base_pos _ _ buf
    (uniform_drop h.uniform _) (Nat.mod_lt _ h.base_pos) hbuf (h.rest_fits hfit)
  have hnodes : (ba.nodes.take (ba.position / ba.baseSize) ++ ns).length = ba.nodes.length := by
    rw [List.length_append, List.length_take, hlen, List.length_drop]
    omega
  have hbytes := h.cells_stored hflat
  rw [writeBytes, h.cur_of_lt (by omega)]
  dsimp only
  rw [hloop]
  refine ⟨_, rfl, ⟨h.base_pos, ?_, ?_, ?_, ?_, ?_, ?_⟩, rfl, rfl, ?_⟩
  · exact uniform_append.mpr ⟨uniform_take h.uniform _, huni⟩
  · rw [hnodes]
    exact h.nodes_pos
  · rw [hnodes]
    exact h.capacity_eq
  · exact Nat.le_max_right _ _
  · exact Nat.max_le.mpr ⟨hsize, hfit⟩
  · dsimp only [nodePtr]
    rw [hnodes, div_add_mod_add_div h.base_pos]
  · rw [contents, cells, contents]
    dsimp only
    rw [hbytes, ← take_overlay hpos (by rw [h.cells_length]; exact hsize), List.length_map]

/-- `write` never fails, puts the bytes at the position and moves it behind them. -/
theorem write_spec (h : Inv ba) (buf : List UInt8) :
    ∃ ba', ba.write buf = .ok ba' ∧ Inv ba' ∧ ba'.baseSize = ba.baseSize ∧
      ba'.position = ba.position + buf.length ∧
      ba'.contents = overlay ba.contents ba.position (buf.map some) := by
  rw [write]
  split
  · rename_i hbuf
    obtain rfl := List.length_eq_zero_iff.mp hbuf
    exact ⟨ba, rfl, h, rfl, rfl, by simp [overlay]⟩
  rename_i hbuf
  obtain ⟨h', hposition, hsize, hbase, hfit, k, hcells⟩ := addCapacity_spec h buf.length
  have hcontents : (ba.addCapacity buf.length).contents = ba.contents := by
    rw [contents, contents, hcells, hsize, List.take_append_of_le_length]
    rw [h.cells_length]
    exact h.size_le
  have hspec := writeBytes_spec h' (Nat.pos_of_ne_zero hbuf) (by rw [hposition]; exact hfit)
  rwa [hcontents, hposition, hbase] at hspec

/-- `read` of what is there stores the bytes from the position on, up to the end of the node that
the last of them lies in, and moves the position behind the bytes asked for. -/
theorem read_spec (h : Inv ba) {n : Nat} (hn : n ≤ ba.getReadSize)
    (hcur : ba.position < ba.capacity) :
    ∃ ba', ba.read n = .ok
        ((ba.cells.drop ba.position).take (stride ba.baseSize (ba.position % ba.baseSize) n), ba') ∧
      Inv ba' ∧ ba'.position = ba.position + n ∧ ba'.contents = ba.contents := by
  have hpos := h.position_le
  have hsize := h.size_le
  rw [getReadSize] at hn
  have hi := h.position_div_lt.mpr hcur
  have hdm := Nat.div_add_mod' ba.position ba.baseSize
  have hrest : 0 < (ba.nodes.drop (ba.position / ba.baseSize)).length := by
    rw [List.length_drop]
    omega
  have hloop := readLoop_spec h.base_pos _ _ n (uniform_drop h.uniform _)
    (Nat.mod_lt _ h.base_pos) hrest (h.rest_fits (by omega))
  rw [flatMap_ptr_drop h.uniform _ (by omega), List.drop_drop, hdm] at hloop
  rw [read, if_neg (by rw [getReadSize]; omega), h.cur_of_lt hcur]
  dsimp only
  rw [hloop]
  refine ⟨_, rfl, ⟨h.base_pos, h.uniform, h.nodes_pos, h.capacity_eq, ?_, hsize, ?_⟩, rfl, rfl⟩
  · dsimp only
    omega
  · dsimp only [nodePtr]
    rw [div_add_mod_add_div h.base_pos]

/-- `read` behind the last node dereferences the null `m_cur`, for a request of no bytes too. -/
theorem read_at_capacity (h : Inv ba) {n : Nat} (hn : n ≤ ba.getReadSize)
    (hcur : ba.position = ba.capacity) : ba.read n = .error .nullDeref := by
  rw [read, if_neg (by omega), h.cur_of_eq hcur]

theorem read_throws {n : Nat} (hn : ba.getReadSize < n) : ba.read n = .error .outOfRange := by
  rw [read, if_pos hn]

/-- `setPosition` within the capacity moves the position, and the size along with it when the
position is behind it. -/
theorem setPosition_spec (h : Inv ba) {v : Nat} (hv : v ≤ ba.capacity) :
    ∃ ba', ba.setPosition v = .ok ba' ∧ Inv ba' ∧ ba'.position = v ∧
      ba'.contents = ba.cells.take (max ba.size v) := by
  have hsize := h.size_le
  rw [setPosition, if_neg (by omega), seekLoop_spec h.base_pos _ _ h.uniform h.nodes_pos
    (by rw [← h.capacity_eq]; exact hv)]
  refine ⟨_, rfl, ⟨h.base_pos, h.uniform, h.nodes_pos, h.capacity_eq, ?_, ?_, rfl⟩, rfl, rfl⟩
  · exact Nat.le_max_right _ _
  · exact Nat.max_le.mpr ⟨hsize, hv⟩

theorem setPosition_throws {v : Nat} (hv : ba.capacity < v) :
    ba.setPosition v = .error .outOfRange := by
  rw [setPosition, if_pos hv]

theorem clear_inv (h : Inv ba) : Inv ba.clear where
  base_pos := h.base_pos
  uniform := uniform_take h.uniform 1
  nodes_pos := by
    have := h.nodes_pos
    rw [clear, List.length_take]
    omega
  capacity_eq := by
    have := h.nodes_pos
    rw [clear, List.length_take, Nat.min_eq_left (by omega), Nat.one_mul]
  position_le := Nat.le_refl _
  size_le := Nat.zero_le _
  cur_eq := by
    have := h.nodes_pos
    rw [clear, nodePtr, Nat.zero_div, if_pos (by rw [List.length_take]; omega)]

end ByteArray

end Saturn
