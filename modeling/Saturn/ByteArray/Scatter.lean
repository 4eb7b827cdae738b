import Saturn.ByteArray.Representation

/-!
# Receiving into the nodes

`SocketStream::read(ba, length)` has the kernel store what it receives into the slices that
`getWriteBuffers` exposes, and moves the position behind it: the same bytes at the same place as
`write`, which copies them.
-/

namespace Saturn

namespace ByteArray

/-- Store `bytes` into the slices, in order, as `recvmsg` does. -/
def storeIoVecs : List Node → List IoVec → List UInt8 → Except Fault (List Node)
  | nodes, [], bytes => if bytes = [] then .ok nodes else .error .outOfBounds
  | nodes, v :: vs, bytes =>
      if bytes = [] then .ok nodes
      else
        match nodes[v.node]? with
        | none => .error .nullDeref
        | some node => do
            let node' ← node.memcpy v.offset (bytes.take v.len)
            storeIoVecs (nodes.set v.node node') vs (bytes.drop v.len)

/-- `SocketStream::read(ba, length)`, with `bytes` what comes in. Returns the slices too. -/
def receive (ba : ByteArray) (length : Nat) (bytes : List UInt8) :
    Except Fault (List IoVec × ByteArray) := do
  let (iovs, _, ba') ← ba.getWriteBuffers length
  let nodes ← storeIoVecs ba'.nodes iovs bytes
  let ba'' ← { ba' with nodes := nodes }.setPosition (ba'.position + bytes.length)
  pure (iovs, ba'')

/-- The two slices have no byte in common. -/
def IoVec.Disjoint (v w : IoVec) : Prop :=
  v.node ≠ w.node ∨ v.offset + v.len ≤ w.offset ∨ w.offset + w.len ≤ v.offset

instance (v w : IoVec) : Decidable (v.Disjoint w) := inferInstanceAs (Decidable (_ ∨ _))

/-- The slices have `len` bytes together, are disjoint, and lie inside the nodes. -/
structure Exposes (ba : ByteArray) (len : Nat) (iovs : List IoVec) : Prop where
  total : (iovs.map IoVec.len).sum = len
  disjoint : iovs.Pairwise IoVec.Disjoint
  inside : ∀ v ∈ iovs, ∃ node, ba.nodes[v.node]? = some node ∧ v.offset + v.len ≤ node.ptr.length

/-- The number of the node of `m_cur`; the null pointer counts as the one behind the last node. -/
def cursorIndex (ba : ByteArray) : Nat := ba.cur.getD ba.nodes.length

/-- Receiving the bytes leaves what writing them leaves. The pointers differ only where `write` ends
at its capacity, with the null pointer, and the nodes that were exposed reach beyond it. -/
structure SameAsWrite (len : Nat) (iovs : List IoVec) (received written : ByteArray) : Prop where
  exposes : Exposes received len iovs
  contents : received.contents = written.contents
  position : received.position = written.position
  size : received.size = written.size
  cursor : received.cursorIndex = written.cursorIndex
  cur : written.position < written.capacity ∨ received.capacity = written.capacity →
    received.cur = written.cur

theorem storeIoVecs_nil (nodes : List Node) (vs : List IoVec) : storeIoVecs nodes vs [] = .ok nodes := by
  cases vs <;> rfl

/-- Storing into a slice of the node behind `pre`. -/
theorem storeIoVecs_cons {pre rest : List Node} {n : Node} {off m : Nat} {bytes : List UInt8}
    (hbytes : bytes ≠ []) (hfit : off + (bytes.take m).length ≤ n.ptr.length) (vs : List IoVec) :
    storeIoVecs (pre ++ n :: rest) (⟨pre.length, off, m⟩ :: vs) bytes =
      storeIoVecs (pre ++ { n with ptr := overlay n.ptr off ((bytes.take m).map some) } :: rest) vs
        (bytes.drop m) := by
  have hget : (pre ++ n :: rest)[pre.length]? = some n := by simp
  rw [storeIoVecs, if_neg hbytes]
  simp only [hget, memcpy_ok hfit]
  simp [bind, Except.bind]

/-- What the loop of `getWriteBuffers` pushes. -/
theorem bufferLoop_spec {b : Nat} (hb : 0 < b) : ∀ (ns : List Node) (index npos len : Nat)
    (vs : List IoVec), Uniform b ns → npos < b → 0 < len → bufferLoop ns index npos len = .ok vs →
    (vs.map IoVec.len).sum = len ∧ vs.Pairwise (·.node < ·.node) ∧
      ∀ v ∈ vs, index ≤ v.node ∧ v.node < index + ns.length ∧ v.offset + v.len ≤ b := by
  intro ns
  induction ns with
  | nil =>
      intro index npos len vs _ _ _ h
      cases h
  | cons n rest ih =>
      intro index npos len vs hu hnpos hlen h
      obtain ⟨⟨hsize, -⟩, hrest⟩ := uniform_cons.mp hu
      rw [bufferLoop, if_neg (by omega), hsize] at h
      dsimp only at h
      by_cases hin : len ≤ b - npos
      · rw [if_pos hin] at h
        cases h
        refine ⟨by simp, List.pairwise_singleton _ _, fun v hv => ?_⟩
        obtain rfl := List.mem_singleton.mp hv
        simp only [List.length_cons]
        omega
      · rw [if_neg hin] at h
        obtain ⟨vs', hloop, heq⟩ := except_bind_eq_ok.mp h
        obtain ⟨hsum, hpair, hmem⟩ := ih (index + 1) 0 (len - (b - npos)) vs' hrest hb (by omega) hloop
        cases heq
        refine ⟨?_, List.pairwise_cons.mpr ⟨fun v hv => ?_, hpair⟩, fun v hv => ?_⟩
        · rw [List.map_cons, List.sum_cons, hsum]
          change b - npos + (len - (b - npos)) = len
          omega
        · have hv' := hmem v hv
          simp only
          omega
        · rw [List.length_cons]
          rcases List.mem_cons.mp hv with rfl | hv
          · simp only
            omega
          · have hv' := hmem v hv
            omega

/-- Storing into the slices puts the bytes at the position they begin at, by induction on the nodes,
with those before them left alone. -/
theorem storeIoVecs_spec {b : Nat} (hb : 0 < b) : ∀ (ns pre : List Node) (npos len : Nat)
    (vs : List IoVec) (bytes : List UInt8), Uniform b ns → npos < b → 0 < len →
    bufferLoop ns pre.length npos len = .ok vs → bytes.length ≤ len →
    ∃ ns', storeIoVecs (pre ++ ns) vs bytes = .ok (pre ++ ns') ∧ Uniform b ns' ∧
      ns'.length = ns.length ∧
      ns'.flatMap Node.ptr = overlay (ns.flatMap Node.ptr) npos (bytes.map some) := by
  intro ns
  induction ns with
  | nil =>
      intro pre npos len vs bytes _ _ _ h
      cases h
  | cons n rest ih =>
      intro pre npos len vs bytes hu hnpos hlen h hle
      obtain ⟨⟨hsize, hptr⟩, hrest⟩ := uniform_cons.mp hu
      by_cases hbytes : bytes = []
      · subst hbytes
        exact ⟨n :: rest, storeIoVecs_nil _ _, hu, rfl, by simp [overlay]⟩
      rw [bufferLoop, if_neg (by omega), hsize] at h
      dsimp only at h
      by_cases hin : len ≤ b - npos
      · -- the one slice has room for the bytes
        rw [if_pos hin] at h
        cases h
        have htake : bytes.take len = bytes := List.take_of_length_le hle
        have hdrop : bytes.drop len = [] := List.drop_of_length_le hle
        rw [storeIoVecs_cons hbytes (by rw [htake]; omega), htake, hdrop, storeIoVecs_nil]
        refine ⟨_, rfl, uniform_cons.mpr ⟨⟨hsize, ?_⟩, hrest⟩, rfl, ?_⟩
        · rw [overlay_length_of_le (by rw [List.length_map]; omega), hptr]
        · rw [List.flatMap_cons, List.flatMap_cons,
            overlay_append_left (by rw [List.length_map]; omega)]
      · -- the bytes fill the slice to the end of the node, or end in it
        rw [if_neg hin] at h
        obtain ⟨vs', hloop, heq⟩ := except_bind_eq_ok.mp h
        cases heq
        have htake : (bytes.take (b - npos)).length ≤ b - npos := List.length_take_le _ _
        rw [storeIoVecs_cons hbytes (by omega)]
        generalize hn' : ({ n with ptr := overlay n.ptr npos ((bytes.take (b - npos)).map some) } : Node) = n'
        have hn'len : n'.size = b ∧ n'.ptr.length = b := by
          rw [← hn']
          refine ⟨hsize, ?_⟩
          dsimp only
          rw [overlay_length_of_le (by rw [List.length_map]; omega), hptr]
        obtain ⟨rest', hstore, hu', hlen', hflat⟩ := ih (pre ++ [n']) 0 (len - (b - npos)) vs'
          (bytes.drop (b - npos)) hrest hb (by omega)
          (by rw [List.length_append, List.length_singleton]; exact hloop)
          (by rw [List.length_drop]; omega)
        refine ⟨n' :: rest', ?_, uniform_cons.mpr ⟨hn'len, hu'⟩, by simp [hlen'], ?_⟩
        · simpa using hstore
        · rw [List.flatMap_cons, List.flatMap_cons, hflat, ← hn', List.map_take, List.map_drop]
          by_cases hend : bytes.length ≤ b - npos
          · have hall : (bytes.map some).length ≤ b - npos := by
              rw [List.length_map]
              exact hend
            rw [List.take_of_length_le hall, List.drop_of_length_le hall, overlay_nil,
              overlay_append_left (by omega)]
          · rw [overlay_append_split (by omega) (by rw [List.length_map]; omega), hptr]

variable {ba : ByteArray}

theorem setPosition_frame {v : Nat} {ba' : ByteArray} (h : ba.setPosition v = .ok ba') :
    ba'.nodes = ba.nodes ∧ ba'.baseSize = ba.baseSize ∧ ba'.capacity = ba.capacity := by
  rw [setPosition] at h
  split at h
  · cases h
  · obtain ⟨hops, -, heq⟩ := except_bind_eq_ok.mp h
    cases heq
    exact ⟨rfl, rfl, rfl⟩

/-- `write` changes the capacity by what `addCapacity` adds. -/
theorem write_capacity {buf : List UInt8} {ba' : ByteArray} (h : ba.write buf = .ok ba') :
    ba'.capacity = (ba.addCapacity buf.length).capacity := by
  rw [write] at h
  split at h
  · rename_i hbuf
    cases h
    rw [addCapacity, if_pos hbuf]
  · rw [writeBytes] at h
    split at h
    · cases h
    · obtain ⟨r, -, heq⟩ := except_bind_eq_ok.mp h
      cases heq
      rfl

theorem addCapacity_capacity (ba : ByteArray) (n : Nat) :
    (ba.addCapacity n).capacity = if n ≤ ba.getCapacity then ba.capacity
      else ba.capacity + (n - ba.getCapacity + ba.baseSize - 1) / ba.baseSize * ba.baseSize := by
  by_cases hle : n ≤ ba.getCapacity
  · rw [if_pos hle, addCapacity]
    split
    · rfl
    · dsimp only
      rw [if_pos hle]
  · rw [if_neg hle, addCapacity, if_neg (by omega)]
    dsimp only
    rw [if_neg hle]

theorem addCapacity_mono {m n : Nat} (h : m ≤ n) :
    (ba.addCapacity m).capacity ≤ (ba.addCapacity n).capacity := by
  have hcount : (m - ba.getCapacity + ba.baseSize - 1) / ba.baseSize * ba.baseSize ≤
      (n - ba.getCapacity + ba.baseSize - 1) / ba.baseSize * ba.baseSize :=
    Nat.mul_le_mul_right _ (Nat.div_le_div_right (by omega))
  rw [addCapacity_capacity, addCapacity_capacity]
  split
  · split
    · rfl
    · exact Nat.le_add_right _ _
  · rw [if_neg (by omega)]
    exact Nat.add_le_add_left hcount _

/-- The nodes appended for the slices lie behind the bytes of the object. -/
theorem addCapacity_contents (h : Inv ba) (len : Nat) :
    (ba.addCapacity len).contents = ba.contents := by
  obtain ⟨-, -, hsize, -, -, k, hcells⟩ := addCapacity_spec h len
  rw [contents, hcells, hsize, contents]
  apply List.take_append_of_le_length
  rw [h.cells_length]
  exact h.size_le

/-- With the bytes stored into the slices, `setPosition` moves the position behind them. -/
theorem setPosition_stored (h : Inv ba) {ns : List Node} {bytes : List UInt8}
    (hu : Uniform ba.baseSize ns) (hlen : ns.length = ba.nodes.length)
    (hcells : ns.flatMap Node.ptr = overlay ba.cells ba.position (bytes.map some))
    (hfit : ba.position + bytes.length ≤ ba.capacity) :
    ∃ ba', { ba with nodes := ns }.setPosition (ba.position + bytes.length) = .ok ba' ∧ Inv ba' ∧
      ba'.nodes = ns ∧ ba'.baseSize = ba.baseSize ∧ ba'.capacity = ba.capacity ∧
      ba'.position = ba.position + bytes.length ∧
      ba'.contents = overlay ba.contents ba.position (bytes.map some) := by
  have hstored : Inv { ba with nodes := ns } := by
    refine ⟨h.base_pos, hu, ?_, ?_, h.position_le, h.size_le, ?_⟩
    · exact hlen ▸ h.nodes_pos
    · rw [h.capacity_eq, hlen]
    · simp only [nodePtr, hlen]
      exact h.cur_eq
  obtain ⟨ba', hset, hinv, hposition, hcontents⟩ := setPosition_spec hstored hfit
  obtain ⟨hnodes, hbase, hcapacity⟩ := setPosition_frame hset
  refine ⟨ba', hset, hinv, hnodes, hbase, hcapacity, hposition, ?_⟩
  rw [hcontents, contents, ← take_overlay h.position_le (by rw [h.cells_length]; exact h.size_le),
    List.length_map, ← hcells]
  rfl

/-- `receive` never fails, puts the bytes at the position and moves it behind them, as `write_spec`
says of `write`. -/
theorem receive_spec (h : Inv ba) {len : Nat} (hlen : 0 < len) {bytes : List UInt8}
    (hle : bytes.length ≤ len) :
    ∃ iovs ba', ba.receive len bytes = .ok (iovs, ba') ∧ Inv ba' ∧ ba'.baseSize = ba.baseSize ∧
      ba'.capacity = (ba.addCapacity len).capacity ∧
      ba'.position = ba.position + bytes.length ∧
      ba'.contents = overlay ba.contents ba.position (bytes.map some) ∧ Exposes ba' len iovs := by
  obtain ⟨hgrown, hposition, -, hbase, hfit, -⟩ := addCapacity_spec h len
  have hcontents := addCapacity_contents h len
  rw [receive, getWriteBuffers, if_neg (by omega)]
  generalize ba.addCapacity len = grown at hgrown hposition hbase hfit hcontents ⊢
  rw [← hposition, ← hbase, ← hcontents]
  rw [← hposition] at hfit
  have hi := hgrown.position_div_lt.mpr (by omega)
  have hnpos := Nat.mod_lt grown.position hgrown.base_pos
  obtain ⟨iovs, hloop⟩ := bufferLoop_ok hgrown.base_pos _ (grown.position / grown.baseSize) _ len
    (uniform_drop hgrown.uniform _) hnpos hlen (hgrown.rest_fits hfit)
  have hslices : grown.writeBuffers len = .ok (iovs, len) := by
    rw [writeBuffers, hgrown.cur_of_lt (by omega)]
    dsimp only
    rw [hloop]
    rfl
  obtain ⟨hsum, hpair, hmem⟩ := bufferLoop_spec hgrown.base_pos _ _ _ _ _
    (uniform_drop hgrown.uniform _) hnpos hlen hloop
  have hpre : (grown.nodes.take (grown.position / grown.baseSize)).length =
      grown.position / grown.baseSize := by
    rw [List.length_take]
    omega
  obtain ⟨ns, hstore, huni, hnslen, hflat⟩ := storeIoVecs_spec hgrown.base_pos _
    (grown.nodes.take (grown.position / grown.baseSize)) _ _ _ bytes (uniform_drop hgrown.uniform _)
    hnpos hlen (by rw [hpre]; exact hloop) hle
  rw [List.take_append_drop] at hstore
  have huniform : Uniform grown.baseSize (grown.nodes.take (grown.position / grown.baseSize) ++ ns) :=
    uniform_append.mpr ⟨uniform_take hgrown.uniform _, huni⟩
  have hlength : (grown.nodes.take (grown.position / grown.baseSize) ++ ns).length =
      grown.nodes.length := by
    rw [List.length_append, hpre, hnslen, List.length_drop]
    omega
  obtain ⟨ba', hset, hinv, hnodes, hbase', hcapacity, hposition', hcontents'⟩ := setPosition_stored hgrown huniform
    hlength (hgrown.cells_stored hflat) (by omega)
  refine ⟨iovs, ba', ?_, hinv, hbase', hcapacity, hposition', hcontents', hsum, ?_, ?_⟩
  · simp only [hslices, bind, Except.bind, pure, Except.pure, hstore, hset]
  · exact hpair.imp fun hlt => Or.inl (Nat.ne_of_lt hlt)
  · intro v hv
    obtain ⟨-, hnode, hoff⟩ := hmem v hv
    rw [List.length_drop] at hnode
    have hv' : v.node < ba'.nodes.length := by
      rw [hnodes, hlength]
      omega
    have hmem' : ba'.nodes[v.node] ∈ grown.nodes.take (grown.position / grown.baseSize) ++ ns := by
      rw [← hnodes]
      exact List.getElem_mem hv'
    refine ⟨ba'.nodes[v.node], List.getElem?_eq_getElem hv', ?_⟩
    rw [(huniform _ hmem').2]
    exact hoff

theorem Inv.cursorIndex_eq (h : Inv ba) : ba.cursorIndex = ba.position / ba.baseSize := by
  have hpos := h.position_le
  have hsize := h.size_le
  rw [cursorIndex]
  by_cases hlt : ba.position < ba.capacity
  · rw [h.cur_of_lt hlt, Option.getD_some]
  · have hend : ba.position = ba.capacity := by omega
    rw [h.cur_of_eq hend, Option.getD_none, hend, h.capacity_eq, Nat.mul_div_cancel _ h.base_pos]

/-- Two objects with the same bytes and the same position, of which the first reaches as far as the
second, agree on `m_cur` but where the second ends at its capacity. -/
theorem sameAsWrite_of_spec {len : Nat} {iovs : List IoVec} {received written : ByteArray}
    (hr : Inv received) (hw : Inv written) (hbase : received.baseSize = written.baseSize)
    (hcapacity : written.capacity ≤ received.capacity)
    (hposition : received.position = written.position)
    (hcontents : received.contents = written.contents) (hexposes : Exposes received len iovs) :
    SameAsWrite len iovs received written where
  exposes := hexposes
  contents := hcontents
  position := hposition
  size := by rw [← hr.contents_length, hcontents, hw.contents_length]
  cursor := by rw [hr.cursorIndex_eq, hw.cursorIndex_eq, hposition, hbase]
  cur := by
    have hpos := hw.position_le
    have hsize := hw.size_le
    intro hcase
    by_cases hlt : written.position < written.capacity
    · rw [hr.cur_of_lt (by omega), hw.cur_of_lt hlt, hposition, hbase]
    · rw [hr.cur_of_eq (by omega), hw.cur_of_eq (by omega)]

/-- In every state that calls reach none of which runs out of memory between the first node that it
appends and the line that sets the null `m_cur`: receiving is writing. -/
theorem receive_sameAsWrite {b : Nat} (hb : 0 < b) (calls : List Call)
    (hclean : StepsMeet callStep AllocatesCleanly (new b) calls) {ba : ByteArray}
    (hrun : run callStep (new b) calls = some ba) {len : Nat} (hlen : 1 ≤ len) (bytes : List UInt8)
    (hle : bytes.length ≤ len) :
    ∃ iovs received written, ba.receive len bytes = .ok (iovs, received) ∧
      ba.write bytes = .ok written ∧ SameAsWrite len iovs received written := by
  have hinv : Inv ba :=
    (statesMeet_run calls _ _ ((represented_iff_allocatesCleanly hb calls).mpr hclean) hrun).inv
  obtain ⟨iovs, received, hreceive, hr, hbase, hcapacity, hposition, hcontents, hexposes⟩ :=
    receive_spec hinv hlen hle
  obtain ⟨written, hwrite, hw, hbase', hposition', hcontents'⟩ := write_spec hinv bytes
  refine ⟨iovs, received, written, hreceive, hwrite, ?_⟩
  apply sameAsWrite_of_spec hr hw _ _ _ _ hexposes
  · rw [hbase, hbase']
  · rw [hcapacity, write_capacity hwrite]
    exact addCapacity_mono hle
  · rw [hposition, hposition']
  · rw [hcontents, hcontents']

/-- Five bytes received over a border of nodes of four, of eight that were asked for. -/
theorem receive_sameAsWrite_overBorder :
    ∃ ba, run callStep (new 4) [.write [1, 2] 0] = some ba ∧
      ∃ iovs received written, ba.receive 8 [3, 4, 5, 6, 7] = .ok (iovs, received) ∧
        ba.write [3, 4, 5, 6, 7] = .ok written ∧ SameAsWrite 8 iovs received written :=
  have hclean : GrowsCleanly (new 4) 2 0 := by decide
  ⟨_, rfl, receive_sameAsWrite (show 0 < 4 by decide) [.write [1, 2] 0] ⟨hclean, fun _ _ => trivial⟩
    rfl (by decide) _ (by decide)⟩

/-- Four bytes that fill the one node, of eight that were asked for: `m_cur` is the node appended
for the other four, where `write` leaves the null pointer. -/
theorem receive_cur_differs :
    ∃ iovs received written, (new 4).receive 8 [1, 2, 3, 4] = .ok (iovs, received) ∧
      (new 4).write [1, 2, 3, 4] = .ok written ∧ received.cur = some 1 ∧ written.cur = none :=
  ⟨_, _, _, rfl, rfl, rfl, rfl⟩

end ByteArray

end Saturn
