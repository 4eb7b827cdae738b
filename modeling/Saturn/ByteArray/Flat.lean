import Mathlib.Data.List.Forall2
import Saturn.ByteArray.Defs

/-!
# A flat byte vector with a cursor

What `ByteArray` is for: one vector of bytes and a position in it. There are no nodes here and no
capacity, so whether `setPosition` is refused is a parameter, and the bytes it skips over are
unspecified.
-/

namespace Saturn

/-- The calls a user makes. -/
inductive Op where
  | write (buf : List UInt8)
  | read (n : Nat)
  | setPosition (v : Nat)
  | clear
  deriving DecidableEq, Repr

/-- How a call ends, with what it stored to the caller's buffer. -/
inductive Outcome where
  | done
  | stored (bytes : List Cell)
  | threw
  deriving DecidableEq, Repr

/-- What a user can observe behind a call. -/
structure Obs where
  outcome : Outcome
  position : Nat
  contents : List Cell
  deriving DecidableEq, Repr

/-- The cell `c` is as specified: a byte that was never written may be anything. -/
def Cell.Meets (c spec : Cell) : Prop := spec = none ∨ c = spec

instance (c spec : Cell) : Decidable (c.Meets spec) :=
  inferInstanceAs (Decidable (spec = none ∨ c = spec))

/-- Block by block; the lengths agree. -/
abbrev BlockMeets : List Cell → List Cell → Prop := List.Forall₂ Cell.Meets

/-- What a call returns is what the flat one says, where that says anything. -/
def Outcome.Meets : Outcome → Outcome → Prop
  | .done, .done => True
  | .threw, .threw => True
  | .stored bytes, .stored spec => BlockMeets bytes spec
  | _, _ => False

/-- What is seen of a call is what the flat one says. -/
structure Obs.Meets (o spec : Obs) : Prop where
  outcome : o.outcome.Meets spec.outcome
  position : o.position = spec.position
  contents : BlockMeets o.contents spec.contents

section Blocks

theorem blockMeets_refl (l : List Cell) : BlockMeets l l :=
  List.forall₂_same.mpr fun _ _ => Or.inr rfl

theorem blockMeets_none : ∀ l : List Cell, BlockMeets l (List.replicate l.length none) := by
  intro l
  induction l with
  | nil => exact List.Forall₂.nil
  | cons c l ih => exact List.Forall₂.cons (Or.inl rfl) ih

theorem BlockMeets.overlay {as bs : List Cell} (h : BlockMeets as bs) (off : Nat)
    (src : List Cell) : BlockMeets (overlay as off src) (overlay bs off src) :=
  List.rel_append (List.rel_append (List.forall₂_take off h) (blockMeets_refl src))
    (List.forall₂_drop _ h)

end Blocks

/-- The vector and its cursor, which never passes the end. -/
structure Flat where
  bytes : List Cell
  pos : Nat
  pos_le : pos ≤ bytes.length

namespace Flat

/-- No byte. -/
def empty : Flat := ⟨[], 0, Nat.le_refl 0⟩

/-- The bytes go over those at the cursor, and beyond the end. -/
def write (f : Flat) (buf : List UInt8) : Flat where
  bytes := overlay f.bytes f.pos (buf.map some)
  pos := f.pos + buf.length
  pos_le := by
    rw [overlay_length f.pos_le, List.length_map]
    exact Nat.le_max_right _ _

/-- The cursor moves past the bytes. -/
def read (f : Flat) (n : Nat) (h : n ≤ f.bytes.length - f.pos) : Flat where
  bytes := f.bytes
  pos := f.pos + n
  pos_le := by
    have := f.pos_le
    omega

/-- The cursor moves, and bytes without a value come up to it. -/
def setPosition (f : Flat) (v : Nat) : Flat where
  bytes := f.bytes ++ List.replicate (v - f.bytes.length) none
  pos := v
  pos_le := by
    rw [List.length_append, List.length_replicate]
    omega

/-- One call. `accepted` says whether `setPosition` is let through. -/
def apply (f : Flat) (accepted : Bool) : Op → Outcome × Flat
  | .write buf => (.done, f.write buf)
  | .read n =>
      if h : n ≤ f.bytes.length - f.pos then (.stored ((f.bytes.drop f.pos).take n), f.read n h)
      else (.threw, f)
  | .setPosition v => if accepted then (.done, f.setPosition v) else (.threw, f)
  | .clear => (.done, empty)

/-- What is seen of a call. -/
def obs (r : Outcome × Flat) : Obs := ⟨r.1, r.2.pos, r.2.bytes⟩

/-- What each of a sequence of calls shows. -/
def trace : Flat → List (Op × Bool) → List Obs
  | _, [] => []
  | f, (op, accepted) :: ops =>
      let r := f.apply accepted op
      obs r :: trace r.2 ops

end Flat

end Saturn
