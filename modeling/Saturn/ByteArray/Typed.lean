import Saturn.ByteArray.Defs
import Saturn.Misc.Bytes

/-!
# The typed members of `ByteArray`

The members of `saturn/bytearray.cc` that write and read numbers and strings, on a little-endian
machine. They go through `write`, `read` and `m_endian` only, so they are stated over `Raw`, which
stands for these: `ByteStream.raw` delivers bytes in order, and `ByteArray.raw` is the object itself.
An exception leaves behind what the calls before it have done.
-/

namespace Saturn

/-- How a typed member fails: as `write` or `read` does, or by an exception of
`std::string::resize`. -/
inductive Failure where
  | raw (fault : Fault)
  | noMemory
  deriving DecidableEq, Repr

/-- The member throws; the other failures are undefined behaviour. -/
def Failure.Throws : Failure → Prop
  | .raw fault => fault = .outOfRange
  | .noMemory => True

/-- What the typed members use of the object, and the `resize` of the string they return. -/
structure Raw (σ : Type) where
  write : List UInt8 → EStateM Failure σ Unit
  read : Nat → EStateM Failure σ (List UInt8)
  endian : σ → Endian
  setEndian : Endian → σ → σ
  resize : Nat → EStateM Failure σ Unit

/-- `EncodeZigzag32` and `EncodeZigzag64`, with two's-complement wrap-around. -/
def encodeZigzag {w : Nat} (v : BitVec w) : BitVec w :=
  if v.slt 0#w then -v * 2#w - 1#w else v * 2#w

/-- `DecodeZigzag32` and `DecodeZigzag64`. -/
def decodeZigzag {w : Nat} (v : BitVec w) : BitVec w := (v >>> 1) ^^^ -(v &&& 1#w)

/-- `EncodeZigzag32` -/
def encodeZigzag32 (v : Int32) : UInt32 := .ofBitVec (encodeZigzag v.toBitVec)

/-- `EncodeZigzag64` -/
def encodeZigzag64 (v : Int64) : UInt64 := .ofBitVec (encodeZigzag v.toBitVec)

/-- `DecodeZigzag32` -/
def decodeZigzag32 (v : UInt32) : Int32 := .ofBitVec (decodeZigzag v.toBitVec)

/-- `DecodeZigzag64` -/
def decodeZigzag64 (v : UInt64) : Int64 := .ofBitVec (decodeZigzag v.toBitVec)

/-- The loop of `writeUint32` and `writeUint64`: what it stores to `tmp`, of which `room` bytes are
left. -/
def varintLoop {w : Nat} : Nat → BitVec w → Except Fault (List UInt8)
  | 0, _ => .error .outOfBounds
  | room + 1, value =>
      if 0x80#w ≤ value then do
        let tmp ← varintLoop room (value >>> 7)
        pure (.ofBitVec ((value &&& 0x7f#w ||| 0x80#w).setWidth 8) :: tmp)
      else pure [.ofBitVec (value.setWidth 8)]

namespace Raw

variable {σ : Type} (r : Raw σ)

/-- `setIsLittleEndian` -/
def setIsLittleEndian (val : Bool) : EStateM Failure σ Unit :=
  modify (r.setEndian (if val then .little else .big))

/-- `writeFint16` to `writeFuint64`. -/
def writeFixed {w : Nat} (value : BitVec w) : EStateM Failure σ Unit := do
  let s ← get
  if r.endian s ≠ .little then r.write (storeLe (bswap value)) else r.write (storeLe value)

/-- `readFint16` to `readFuint64`. -/
def readFixed (w : Nat) : EStateM Failure σ (BitVec w) := do
  let v ← r.read (w / 8)
  let s ← get
  if r.endian s = .little then pure (loadLe w v) else pure (bswap (loadLe w v))

-- the members of one byte do not ask for the order

/-- One byte, in any order. -/
def writeFint8 (value : Int8) : EStateM Failure σ Unit := r.write (storeLe value.toBitVec)

/-- The same, without a sign. -/
def writeFuint8 (value : UInt8) : EStateM Failure σ Unit := r.write (storeLe value.toBitVec)

/-- Two bytes in the order of the object. -/
def writeFint16 (value : Int16) : EStateM Failure σ Unit := r.writeFixed value.toBitVec

/-- The same, without a sign. -/
def writeFuint16 (value : UInt16) : EStateM Failure σ Unit := r.writeFixed value.toBitVec

/-- Four bytes in the order of the object. -/
def writeFint32 (value : Int32) : EStateM Failure σ Unit := r.writeFixed value.toBitVec

/-- The same, without a sign. -/
def writeFuint32 (value : UInt32) : EStateM Failure σ Unit := r.writeFixed value.toBitVec

/-- Eight bytes in the order of the object. -/
def writeFint64 (value : Int64) : EStateM Failure σ Unit := r.writeFixed value.toBitVec

/-- The same, without a sign. -/
def writeFuint64 (value : UInt64) : EStateM Failure σ Unit := r.writeFixed value.toBitVec

/-- What `writeFint8` has written. -/
def readFint8 : EStateM Failure σ Int8 := do pure (.ofBitVec (loadLe 8 (← r.read 1)))

/-- What `writeFuint8` has written. -/
def readFuint8 : EStateM Failure σ UInt8 := do pure (.ofBitVec (loadLe 8 (← r.read 1)))

/-- What `writeFint16` has written. -/
def readFint16 : EStateM Failure σ Int16 := do pure (.ofBitVec (← r.readFixed 16))

/-- What `writeFuint16` has written. -/
def readFuint16 : EStateM Failure σ UInt16 := do pure (.ofBitVec (← r.readFixed 16))

/-- What `writeFint32` has written. -/
def readFint32 : EStateM Failure σ Int32 := do pure (.ofBitVec (← r.readFixed 32))

/-- What `writeFuint32` has written. -/
def readFuint32 : EStateM Failure σ UInt32 := do pure (.ofBitVec (← r.readFixed 32))

/-- What `writeFint64` has written. -/
def readFint64 : EStateM Failure σ Int64 := do pure (.ofBitVec (← r.readFixed 64))

/-- What `writeFuint64` has written. -/
def readFuint64 : EStateM Failure σ UInt64 := do pure (.ofBitVec (← r.readFixed 64))

/-- `writeFloat`; a `float` is its bit pattern here. -/
def writeFloat (value : UInt32) : EStateM Failure σ Unit := r.writeFuint32 value

/-- `writeDouble`; a `double` is its bit pattern too. -/
def writeDouble (value : UInt64) : EStateM Failure σ Unit := r.writeFuint64 value

/-- `readFloat` -/
def readFloat : EStateM Failure σ UInt32 := r.readFuint32

/-- `readDouble` -/
def readDouble : EStateM Failure σ UInt64 := r.readFuint64

/-- `writeUint32` and `writeUint64`, with a `tmp` of `room` bytes. -/
def writeVarint {w : Nat} (room : Nat) (value : BitVec w) : EStateM Failure σ Unit :=
  match varintLoop room value with
  | .ok tmp => r.write tmp
  | .error fault => throw (.raw fault)

/-- `writeUint32` -/
def writeUint32 (value : UInt32) : EStateM Failure σ Unit := r.writeVarint 5 value.toBitVec

/-- `writeUint64` -/
def writeUint64 (value : UInt64) : EStateM Failure σ Unit := r.writeVarint 10 value.toBitVec

/-- `writeInt32`, in zigzag order -/
def writeInt32 (value : Int32) : EStateM Failure σ Unit := r.writeUint32 (encodeZigzag32 value)

/-- `writeInt64`, in zigzag order -/
def writeInt64 (value : Int64) : EStateM Failure σ Unit := r.writeUint64 (encodeZigzag64 value)

/-- The loop of `readUint32` and `readUint64`, with `turns` the number of shifts `i`, `i + 7`, ...
below the width. -/
def varintTurns (w : Nat) : Nat → Nat → BitVec w → EStateM Failure σ (BitVec w)
  | 0, _, result => pure result
  | turns + 1, i, result => do
      let b ← r.readFuint8
      if b < 0x80 then pure (result ||| b.toBitVec.setWidth w <<< i)
      else varintTurns w turns (i + 7) (result ||| (b &&& 0x7f).toBitVec.setWidth w <<< i)

/-- `readUint32` and `readUint64`. -/
def readVarint (w : Nat) : EStateM Failure σ (BitVec w) := r.varintTurns w ((w + 6) / 7) 0 0#w

/-- `readUint32` -/
def readUint32 : EStateM Failure σ UInt32 := do pure (.ofBitVec (← r.readVarint 32))

/-- `readUint64` -/
def readUint64 : EStateM Failure σ UInt64 := do pure (.ofBitVec (← r.readVarint 64))

/-- `readInt32` -/
def readInt32 : EStateM Failure σ Int32 := do pure (decodeZigzag32 (← r.readUint32))

/-- `readInt64`, which decodes what `readUint32` returns. -/
def readInt64 : EStateM Failure σ Int64 := do pure (decodeZigzag64 (← r.readUint32).toUInt64)

/-- A length of two bytes and the bytes. -/
def writeStringF16 (value : List UInt8) : EStateM Failure σ Unit := do
  r.writeFuint16 (UInt16.ofNat value.length)
  r.write value

/-- A length of four bytes and the bytes. -/
def writeStringF32 (value : List UInt8) : EStateM Failure σ Unit := do
  r.writeFuint32 (UInt32.ofNat value.length)
  r.write value

/-- A length of eight bytes and the bytes. -/
def writeStringF64 (value : List UInt8) : EStateM Failure σ Unit := do
  r.writeFuint64 (UInt64.ofNat value.length)
  r.write value

/-- A length as `writeUint64` writes it and the bytes. -/
def writeStringVint (value : List UInt8) : EStateM Failure σ Unit := do
  r.writeUint64 (UInt64.ofNat value.length)
  r.write value

/-- What the four string readers do with the length: `buff.resize(len)`, `read(&buff[0], len)`. -/
def readBody (len : Nat) : EStateM Failure σ (List UInt8) := do
  r.resize len
  r.read len

/-- What `writeStringF16` has written. -/
def readStringF16 : EStateM Failure σ (List UInt8) := do r.readBody (← r.readFuint16).toNat

/-- What `writeStringF32` has written. -/
def readStringF32 : EStateM Failure σ (List UInt8) := do r.readBody (← r.readFuint32).toNat

/-- What `writeStringF64` has written. -/
def readStringF64 : EStateM Failure σ (List UInt8) := do r.readBody (← r.readFuint64).toNat

/-- What `writeStringVint` has written. -/
def readStringVint : EStateM Failure σ (List UInt8) := do r.readBody (← r.readUint64).toNat

end Raw

/-- A byte stream: what has been written, what is there to read, and `m_endian`. -/
structure ByteStream where
  written : List UInt8
  unread : List UInt8
  endian : Endian
  deriving DecidableEq, Repr

/-- Bytes in order: `write` puts them behind those written, `read` takes them from the front. -/
def ByteStream.raw : Raw ByteStream where
  write buf s := .ok () { s with written := s.written ++ buf }
  read n s :=
    if s.unread.length < n then .error (.raw .outOfRange) s
    else .ok (s.unread.take n) { s with unread := s.unread.drop n }
  endian s := s.endian
  setEndian e s := { s with endian := e }
  resize _ s := .ok () s

/-- The values of cells the first of which is byte `p` of the vector; `junk` says what bytes that
were never written to hold. -/
def Cell.values (junk : Nat → UInt8) : Nat → List Cell → List UInt8
  | _, [] => []
  | p, c :: cs => c.getD (junk p) :: values junk (p + 1) cs

/-- The object, and the lengths that strings have been resized to, each with what `getReadSize()`
was then. -/
structure Caller where
  object : ByteArray
  resized : List (Nat × Nat)

/-- The object itself. Behind each destination of `read` there are `slack` bytes that it does no
harm to overwrite, and a string can be resized to at most `memory` bytes. -/
def ByteArray.raw (slack memory : Nat) (junk : Nat → UInt8) : Raw Caller where
  write buf s :=
    match s.object.write buf with
    | .ok ba => .ok () { s with object := ba }
    | .error fault => .error (.raw fault) s
  read n s :=
    match s.object.read n with
    | .ok (bytes, ba) =>
        if n + slack < bytes.length then .error (.raw .outOfBounds) s
        else .ok (Cell.values junk s.object.position (bytes.take n)) { s with object := ba }
    | .error fault => .error (.raw fault) s
  endian s := s.object.endian
  setEndian e s := { s with object := { s.object with endian := e } }
  resize len s :=
    let s' := { s with resized := (len, s.object.getReadSize) :: s.resized }
    if memory < len then .error .noMemory s' else .ok () s'

end Saturn
