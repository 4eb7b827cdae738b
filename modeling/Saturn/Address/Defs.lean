import Saturn.Misc.Bytes

/-!
# Socket addresses

What `IPv4Address` and `IPv6Address` hold, as it lies in memory: ports and addresses stand there in
network byte order.
-/

namespace Saturn

/-- What an expression has instead of a value where the language gives it none. -/
inductive Undefined
  | shiftCount
  | signedOverflow
  | outOfBounds
  deriving Repr, DecidableEq

/-- `sockaddr_in` on a little-endian machine. -/
structure SockaddrIn where
  family : BitVec 16
  port : BitVec 16
  addr : BitVec 32
  deriving Repr, DecidableEq

/-- `sockaddr_in6`. -/
structure SockaddrIn6 where
  family : BitVec 16
  port : BitVec 16
  flowinfo : BitVec 32
  addr : Vector UInt8 16
  scopeId : BitVec 32
  deriving Repr, DecidableEq

/-- `AF_INET` -/
def afInet : BitVec 16 := 2

/-- `AF_INET6` -/
def afInet6 : BitVec 16 := 10

/-- `memset(&addr, 0, sizeof(addr))` -/
def SockaddrIn.zero : SockaddrIn where
  family := 0
  port := 0
  addr := 0

/-- `memset(&addr, 0, sizeof(addr))` -/
def SockaddrIn6.zero : SockaddrIn6 where
  family := 0
  port := 0
  flowinfo := 0
  addr := Vector.replicate 16 0
  scopeId := 0

/-- `CreateMask<T>(bits)` for a `T` of `w` bits: `(1 << (sizeof(T) * 8 - bits)) - 1`. The count is a
`size_t`, the `1` and the difference are of type `int`. -/
def createMask (w : Nat) (bits : UInt32) : Except Undefined (BitVec w) :=
  let count := (w + 2 ^ 64 - bits.toNat) % 2 ^ 64
  if 32 ≤ count then .error .shiftCount
  else
    let shifted := (1#32 <<< count).toInt
    if shifted - 1 < -2 ^ 31 then .error .signedOverflow else .ok (BitVec.ofInt w (shifted - 1))

end Saturn
