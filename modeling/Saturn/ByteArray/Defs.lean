import Mathlib.Data.List.Basic
import Saturn.Misc.Overlay

/-!
# `ByteArray`

The growing byte buffer of `saturn/bytearray.cc`: a singly linked list of nodes of `m_baseSize`
bytes, a position, and a cached pointer `m_cur` to the node the position lies in. The list from
`m_root` on is the Lean list `nodes`, and a `Node*` is an index into it, with `none` for `nullptr`;
the pointer to a node is followed by the list that starts there, so the loops over `m_cur` recurse
on that list.

Sizes and positions are `Nat`: they count bytes of memory that exists. For the same reason the
double quotient in `addCapacity` is taken as exact (below `2^53` it never rounds onto or past an
integer that the exact quotient is not).
-/

namespace Saturn

/-- A byte of memory; `none` is a byte of `new char[s]` that nothing has been stored to yet. -/
abbrev Cell := Option UInt8

/-- How a member function fails: by `throw std::out_of_range`, or by undefined behaviour. -/
inductive Fault where
  | outOfRange
  | nullDeref
  | outOfBounds
  deriving DecidableEq, Repr

/-- `ByteArray::Node`; its `next` is the next element of the list it stands in. -/
structure Node where
  ptr : List Cell
  size : Nat
  deriving DecidableEq, Repr

/-- `Node::Node(size_t s)`: `new char[s]` does not initialise the bytes. -/
def Node.new (s : Nat) : Node := ⟨List.replicate s none, s⟩

/-- `memcpy(node->ptr + npos, src, src.length)`. -/
def Node.memcpy (node : Node) (npos : Nat) (src : List UInt8) : Except Fault Node :=
  if npos + src.length ≤ node.ptr.length then
    .ok { node with ptr := overlay node.ptr npos (src.map some) }
  else .error .outOfBounds

/-- The bytes `memcpy(dst, node->ptr + npos, count)` stores at `dst`. -/
def Node.copy (node : Node) (npos count : Nat) : Except Fault (List Cell) :=
  if npos + count ≤ node.ptr.length then .ok ((node.ptr.drop npos).take count)
  else .error .outOfBounds

/-- An order of bytes. -/
inductive Endian where
  | little
  | big
  deriving DecidableEq, Repr

/-- The fields of `ByteArray`. -/
structure ByteArray where
  baseSize : Nat
  position : Nat
  capacity : Nat
  size : Nat
  endian : Endian
  nodes : List Node
  cur : Option Nat
  deriving DecidableEq, Repr

namespace ByteArray

/-- `ByteArray::ByteArray(base_size)`. -/
def new (baseSize : Nat) : ByteArray where
  baseSize := baseSize
  position := 0
  capacity := baseSize
  size := 0
  endian := .big
  nodes := [Node.new baseSize]
  cur := some 0

/-- `getReadSize` -/
def getReadSize (ba : ByteArray) : Nat := ba.size - ba.position

/-- `getCapacity` -/
def getCapacity (ba : ByteArray) : Nat := ba.capacity - ba.position

/-- The pointer to node number `index`, which is null behind the last node. -/
def nodePtr (ba : ByteArray) (index : Nat) : Option Nat :=
  if index < ba.nodes.length then some index else none

/-- `addCapacity`: append nodes until `size` bytes fit behind the position. -/
def addCapacity (ba : ByteArray) (size : Nat) : ByteArray :=
  if size = 0 then ba
  else
    let oldCap := ba.getCapacity
    if size ≤ oldCap then ba
    else
      let count := (size - oldCap + ba.baseSize - 1) / ba.baseSize
      { ba with
        nodes := ba.nodes ++ List.replicate count (Node.new ba.baseSize)
        capacity := ba.capacity + count * ba.baseSize
        cur := if oldCap = 0 then (if count = 0 then none else some ba.nodes.length) else ba.cur }

/-- The loop of `write` over the nodes from `m_cur` on, with `npos` the offset in the first one and
`buf` what is left to store. Returns the nodes with the bytes stored, and how many times `m_cur`
has moved to `next`. -/
def writeLoop : List Node → Nat → List UInt8 → Except Fault (List Node × Nat)
  | [], _, _ => .error .nullDeref
  | node :: rest, npos, buf =>
      if buf.length = 0 then .ok (node :: rest, 0)
      else
        let ncap := node.size - npos
        if buf.length ≤ ncap then do
          let node' ← node.memcpy npos buf
          pure (node' :: rest, if node.size = npos + buf.length then 1 else 0)
        else do
          let node' ← node.memcpy npos (buf.take ncap)
          let (rest', hops) ← writeLoop rest 0 (buf.drop ncap)
          pure (node' :: rest', hops + 1)

/-- The part of `write` behind the call of `addCapacity`. -/
def writeBytes (ba : ByteArray) (buf : List UInt8) : Except Fault ByteArray :=
  match ba.cur with
  | none => .error .nullDeref
  | some i => do
      let (nodes, hops) ← writeLoop (ba.nodes.drop i) (ba.position % ba.baseSize) buf
      pure { ba with
        nodes := ba.nodes.take i ++ nodes
        position := ba.position + buf.length
        size := max ba.size (ba.position + buf.length)
        cur := ba.nodePtr (i + hops) }

/-- `ByteArray::write(buf, size)`, with `buf` the `size` bytes to write. -/
def write (ba : ByteArray) (buf : List UInt8) : Except Fault ByteArray :=
  if buf.length = 0 then .ok ba else (ba.addCapacity buf.length).writeBytes buf

/-- The loop of `read` over the nodes from `m_cur` on. Returns the bytes that the `memcpy` calls
store from `buf[0]` on, and how many times `m_cur` has moved to `next`. -/
def readLoop : List Node → Nat → Nat → Except Fault (List Cell × Nat)
  | [], _, _ => .error .nullDeref
  | node :: rest, npos, size =>
      if size = 0 then .ok ([], 0)
      else
        let ncap := node.size - npos
        if size ≤ ncap then do
          -- the source copies `ncap` bytes here, not `size`
          let bytes ← node.copy npos ncap
          pure (bytes, if node.size = npos + size then 1 else 0)
        else do
          let bytes ← node.copy npos ncap
          let (bytes', hops) ← readLoop rest 0 (size - ncap)
          pure (bytes ++ bytes', hops + 1)

/-- `ByteArray::read(buf, size)`. The list returned is what it stores at `buf[0]`, `buf[1]`, ... -/
def read (ba : ByteArray) (size : Nat) : Except Fault (List Cell × ByteArray) :=
  if ba.getReadSize < size then .error .outOfRange
  else
    -- `m_cur->size` is read before the loop tests `size`
    match ba.cur with
    | none => .error .nullDeref
    | some i => do
        let (bytes, hops) ← readLoop (ba.nodes.drop i) (ba.position % ba.baseSize) size
        pure (bytes, { ba with position := ba.position + size, cur := ba.nodePtr (i + hops) })

/-- The loop of `setPosition` that looks for the node of the new position, from `m_root` on. -/
def seekLoop : List Node → Nat → Except Fault Nat
  | [], _ => .error .nullDeref
  | node :: rest, v =>
      if node.size < v then (seekLoop rest (v - node.size)).map (· + 1)
      else .ok (if v = node.size then 1 else 0)

/-- `ByteArray::setPosition(v)`. -/
def setPosition (ba : ByteArray) (v : Nat) : Except Fault ByteArray :=
  if ba.capacity < v then .error .outOfRange
  else do
    let hops ← seekLoop ba.nodes v
    pure { ba with position := v, size := max ba.size v, cur := ba.nodePtr hops }

/-- `ByteArray::clear()`: the first node stays, with the bytes it holds. -/
def clear (ba : ByteArray) : ByteArray :=
  { ba with
    position := 0
    size := 0
    capacity := ba.baseSize
    nodes := ba.nodes.take 1
    cur := some 0 }

/-- The bytes of all nodes, in order. -/
def cells (ba : ByteArray) : List Cell := ba.nodes.flatMap Node.ptr

/-- The bytes from the first one to `m_size`. -/
def contents (ba : ByteArray) : List Cell := ba.cells.take ba.size

end ByteArray

end Saturn
