import Saturn.ByteArray.Inv

/-!
# Scatter buffers, files and failing allocation

The `iovec` lists of `getReadBuffers` and `getWriteBuffers`, the loop of `readFromFile`, and what
the members that append nodes leave behind when `new Node` throws `std::bad_alloc`: the nodes
appended so far stay in the list, and the code behind the loop of `addCapacity` is not reached.
-/

namespace Saturn

namespace ByteArray

/-- An `iovec`: `iov_base` is the byte at `offset` of node number `node`. -/
structure IoVec where
  node : Nat
  offset : Nat
  len : Nat
  deriving DecidableEq, Repr

/-- The loop that pushes the `iovec`s, over the nodes from `cur` on, of which the first has number
`index`, with `npos` the offset in it. -/
def bufferLoop : List Node → Nat → Nat → Nat → Except Fault (List IoVec)
  | [], _, _, _ => .error .nullDeref
  | node :: rest, index, npos, len =>
      if len = 0 then .ok []
      else
        let ncap := node.size - npos
        if len ≤ ncap then .ok [⟨index, npos, len⟩]
        else do
          let buffers ← bufferLoop rest (index + 1) 0 (len - ncap)
          pure (⟨index, npos, ncap⟩ :: buffers)

/-- `getReadBuffers(buffers, len)`: what it appends to `buffers`, and what it returns. -/
def getReadBuffers (ba : ByteArray) (len : Nat) : Except Fault (List IoVec × Nat) :=
  let len := if len > ba.getReadSize then ba.getReadSize else len
  if len = 0 then .ok ([], 0)
  else
    match ba.cur with
    | none => .error .nullDeref
    | some i => do
        let buffers ← bufferLoop (ba.nodes.drop i) i (ba.position % ba.baseSize) len
        pure (buffers, len)

/-- `getReadBuffers(buffers, len, position)`. The walk to the node of `position` follows `next`
from `m_root` on. -/
def getReadBuffersAt (ba : ByteArray) (len position : Nat) : Except Fault (List IoVec × Nat) :=
  let len := if len > ba.getReadSize then ba.getReadSize else len
  if len = 0 then .ok ([], 0)
  else
    let count := position / ba.baseSize
    if ba.nodes.length ≤ count then .error .nullDeref
    else do
      let buffers ← bufferLoop (ba.nodes.drop count) count (position % ba.baseSize) len
      pure (buffers, len)

/-- The part of `getWriteBuffers` behind the call of `addCapacity`. -/
def writeBuffers (ba : ByteArray) (len : Nat) : Except Fault (List IoVec × Nat) :=
  match ba.cur with
  | none => .error .nullDeref
  | some i => do
      let buffers ← bufferLoop (ba.nodes.drop i) i (ba.position % ba.baseSize) len
      pure (buffers, len)

/-- `getWriteBuffers(buffers, len)`. -/
def getWriteBuffers (ba : ByteArray) (len : Nat) : Except Fault (List IoVec × Nat × ByteArray) :=
  if len = 0 then .ok ([], 0, ba)
  else do
    let (buffers, size) ← (ba.addCapacity len).writeBuffers len
    pure (buffers, size, ba.addCapacity len)

/-- The blocks that `readFromFile` reads from a file: `m_baseSize` bytes each, up to a last one
that is shorter, since only a read that comes up short sets `eof`. -/
def fileBlocks (baseSize : Nat) : Nat → List UInt8 → List (List UInt8)
  | 0, file => [file]
  | n + 1, file =>
      if file.length < baseSize then [file]
      else file.take baseSize :: fileBlocks baseSize n (file.drop baseSize)

/-- How a call ends: it returns, it throws and leaves the object in the state named, or its
behaviour is undefined. -/
inductive Ending where
  | returns (ba : ByteArray)
  | throws (ba : ByteArray)
  | undefined (fault : Fault)
  deriving DecidableEq, Repr

/-- The object behind a call that returns or throws. -/
def Ending.object : Ending → Option ByteArray
  | .returns ba => some ba
  | .throws ba => some ba
  | .undefined _ => none

/-- `read` and `setPosition` throw before they change anything. -/
def Ending.of (ba : ByteArray) : Except Fault ByteArray → Ending
  | .ok ba' => .returns ba'
  | .error .outOfRange => .throws ba
  | .error fault => .undefined fault

/-- How many nodes `addCapacity(size)` appends. -/
def nodesNeeded (ba : ByteArray) (size : Nat) : Nat :=
  if size ≤ ba.getCapacity then 0
  else (size - ba.getCapacity + ba.baseSize - 1) / ba.baseSize

/-- `k` turns of the loop of `addCapacity`; `m_cur` is set behind the loop only. -/
def appendNodes (ba : ByteArray) (k : Nat) : ByteArray :=
  { ba with
    nodes := ba.nodes ++ List.replicate k (Node.new ba.baseSize)
    capacity := ba.capacity + k * ba.baseSize }

/-- `addCapacity(size)` when `new Node` succeeds `avail` more times: the object behind it, or the
one that `std::bad_alloc` leaves behind. -/
def tryAddCapacity (ba : ByteArray) (size avail : Nat) : Except ByteArray ByteArray :=
  if ba.nodesNeeded size ≤ avail then .ok (ba.addCapacity size) else .error (ba.appendNodes avail)

/-- `write(buf, size)` when `new Node` succeeds `avail` more times. -/
def tryWrite (ba : ByteArray) (buf : List UInt8) (avail : Nat) : Ending :=
  if buf.length = 0 then .returns ba
  else
    match ba.tryAddCapacity buf.length avail with
    | .error ba' => .throws ba'
    | .ok ba' => .of ba' (ba'.writeBytes buf)

/-- `getWriteBuffers(buffers, len)` when `new Node` succeeds `avail` more times. -/
def tryGetWriteBuffers (ba : ByteArray) (len avail : Nat) : Ending :=
  if len = 0 then .returns ba
  else
    match ba.tryAddCapacity len avail with
    | .error ba' => .throws ba'
    | .ok ba' => .of ba' ((ba'.writeBuffers len).map fun _ => ba')

/-- The loop of `readFromFile` over the blocks it reads. -/
def writeBlocks : ByteArray → List (List UInt8) → Nat → Ending
  | ba, [], _ => .returns ba
  | ba, block :: blocks, avail =>
      match ba.tryWrite block avail with
      | .returns ba' => writeBlocks ba' blocks (avail - ba.nodesNeeded block.length)
      | ending => ending

/-- `readFromFile(name)`; the file is `none` if it cannot be opened. -/
def tryReadFromFile (ba : ByteArray) (file : Option (List UInt8)) (avail : Nat) : Ending :=
  match file with
  | none => .returns ba
  | some bytes => ba.writeBlocks (fileBlocks ba.baseSize bytes.length bytes) avail

section Specs

variable {ba : ByteArray}

theorem bufferLoop_ok {b : Nat} (hb : 0 < b) : ∀ (ns : List Node) (index npos len : Nat),
    Uniform b ns → npos < b → 0 < len → npos + len ≤ ns.length * b →
    ∃ buffers, bufferLoop ns index npos len = .ok buffers := by
  intro ns
  induction ns with
  | nil =>
      intro index npos len _ _ hlen hfit
      rw [List.length_nil, Nat.zero_mul] at hfit
      omega
  | cons n rest ih =>
      intro index npos len hu hnpos hlen hfit
      obtain ⟨⟨hsize, -⟩, hrest⟩ := uniform_cons.mp hu
      rw [bufferLoop, if_neg (by omega), hsize]
      dsimp only
      by_cases hin : len ≤ b - npos
      · rw [if_pos hin]
        exact ⟨_, rfl⟩
      · have hfit' : npos + len ≤ b + rest.length * b := by
          rw [List.length_cons, Nat.succ_mul] at hfit
          omega
        obtain ⟨buffers, hloop⟩ := ih (index + 1) 0 (len - (b - npos)) hrest hb (by omega) (by omega)
        rw [if_neg hin, hloop]
        exact ⟨_, rfl⟩

/-- With room for `len` bytes behind the position, `getWriteBuffers` finds a node for each. -/
theorem writeBuffers_ok (h : Inv ba) {len : Nat} (hlen : 0 < len)
    (hfit : ba.position + len ≤ ba.capacity) : ∃ buffers, ba.writeBuffers len = .ok (buffers, len) := by
  obtain ⟨buffers, hloop⟩ := bufferLoop_ok h.base_pos _ (ba.position / ba.baseSize) _ len
    (uniform_drop h.uniform _) (Nat.mod_lt _ h.base_pos) hlen (h.rest_fits hfit)
  refine ⟨buffers, ?_⟩
  rw [writeBuffers, h.cur_of_lt (by omega)]
  dsimp only
  rw [hloop]
  rfl

theorem nodesNeeded_eq_zero {size : Nat} (h : size ≤ ba.getCapacity) : ba.nodesNeeded size = 0 := by
  rw [nodesNeeded, if_pos h]

/-- A thrown `std::bad_alloc` leaves the invariant intact unless it leaves a first node behind the
null `m_cur`. -/
theorem inv_appendNodes_iff (h : Inv ba) (k : Nat) :
    Inv (ba.appendNodes k) ↔ (ba.position = ba.capacity → k = 0) := by
  have hpos := h.position_le
  have hsize := h.size_le
  have hlen : (ba.nodes ++ List.replicate k (Node.new ba.baseSize)).length = ba.nodes.length + k := by
    rw [List.length_append, List.length_replicate]
  constructor
  · intro hinv hend
    by_contra hk
    have hcur : (ba.appendNodes k).cur = none := h.cur_of_eq hend
    have hroom : ba.position < (ba.appendNodes k).capacity := by
      have hgrow : 0 < k * ba.baseSize := Nat.mul_pos (Nat.pos_of_ne_zero hk) h.base_pos
      change ba.position < ba.capacity + k * ba.baseSize
      omega
    rw [hinv.cur_of_lt hroom] at hcur
    cases hcur
  · intro hk
    refine ⟨h.base_pos, uniform_append.mpr ⟨h.uniform, uniform_replicate _⟩, ?_, ?_, hpos, ?_, ?_⟩
    · change 0 < (ba.nodes ++ List.replicate k (Node.new ba.baseSize)).length
      have := h.nodes_pos
      omega
    · change ba.capacity + k * ba.baseSize =
        (ba.nodes ++ List.replicate k (Node.new ba.baseSize)).length * ba.baseSize
      rw [hlen, Nat.add_mul, ← h.capacity_eq]
    · exact Nat.le_trans hsize (Nat.le_add_right _ _)
    · by_cases hend : ba.position = ba.capacity
      · obtain rfl := hk hend
        change ba.cur = _
        rw [h.cur_eq, nodePtr, nodePtr, appendNodes, List.replicate_zero, List.append_nil]
      · have hlt := h.position_div_lt.mpr (by omega)
        change ba.cur = if ba.position / ba.baseSize <
          (ba.nodes ++ List.replicate k (Node.new ba.baseSize)).length then _ else _
        rw [hlen, if_pos (Nat.lt_add_right _ hlt), h.cur_of_lt (by omega)]
        rfl

/-- Where the nodes can be had, `write` is the function of the model without failing allocation. -/
theorem tryWrite_eq_write (buf : List UInt8) {avail : Nat} (h : ba.nodesNeeded buf.length ≤ avail) :
    ba.tryWrite buf avail = .of (ba.addCapacity buf.length) (ba.write buf) := by
  rw [tryWrite, write]
  by_cases hbuf : buf.length = 0
  · rw [if_pos hbuf, if_pos hbuf, hbuf, addCapacity, if_pos rfl]
    rfl
  · rw [if_neg hbuf, if_neg hbuf, tryAddCapacity, if_pos h]

end Specs

end ByteArray

end Saturn
