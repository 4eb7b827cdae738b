import Mathlib.Algebra.Group.Int.Defs
import Mathlib.Algebra.Group.Nat.Defs
import Mathlib.Data.List.Basic
import Mathlib.Tactic.Ring

/-!
# Reading from a socket

What a peer sends on a connection, and the way the bytes arrive: each `recv` transfers as many
bytes as the caller has room for and the kernel has at hand. When nothing is left the peer has
shut down, and `recv` returns 0.
-/

namespace Saturn

namespace Http

/-- An unsigned value converted to `int`. -/
def toInt32 (n : Nat) : Int := (BitVec.ofNat 32 n).toInt

/-- An unsigned value converted to `int64_t`. -/
def toInt64 (n : Nat) : Int := (BitVec.ofNat 64 n).toInt

theorem toInt32_of_lt {n : Nat} (h : n < 2 ^ 31) : toInt32 n = n := by
  rw [toInt32, BitVec.toInt_ofNat', Int.bmod_eq_of_le] <;> omega

theorem toInt64_of_lt {n : Nat} (h : n < 2 ^ 63) : toInt64 n = n := by
  rw [toInt64, BitVec.toInt_ofNat', Int.bmod_eq_of_le] <;> omega

theorem toInt64_of_ge {n : Nat} (h : 2 ^ 63 ≤ n) (hlt : n < 2 ^ 64) : toInt64 n < 0 := by
  rw [toInt64, BitVec.toInt_ofNat', Int.bmod_def]
  split <;> omega

/-- The bytes not read yet. `cuts` lists, for the reads to come, how many bytes the kernel will
have at hand; after the last cut everything is there. -/
structure Stream where
  unread : List UInt8
  cuts : List Nat
  deriving Repr, DecidableEq

/-- One `recv` transfers at most this many bytes on Linux. -/
def maxTransfer : Nat := 0x7ffff000

/-- How many bytes a `recv` into a buffer of `n` bytes returns when `left` bytes are unread. -/
def ready (left : Nat) (cuts : List Nat) (n : Nat) : Nat :=
  min (min n maxTransfer) (min (max 1 (cuts.headD maxTransfer)) left)

theorem ready_le (left : Nat) (cuts : List Nat) (n : Nat) : ready left cuts n ≤ n := by
  unfold ready; omega

theorem ready_le_left (left : Nat) (cuts : List Nat) (n : Nat) : ready left cuts n ≤ left := by
  unfold ready; omega

theorem ready_pos {left n : Nat} (cuts : List Nat) (hl : 0 < left) (hn : 0 < n) :
    0 < ready left cuts n := by
  have : 0 < maxTransfer := by decide
  unfold ready; omega

theorem ready_zero_left (cuts : List Nat) (n : Nat) : ready 0 cuts n = 0 := by
  unfold ready; omega

namespace Stream

/-- The stream that the pieces come over, one piece for each read. -/
def ofPieces (pieces : List (List UInt8)) : Stream := ⟨pieces.flatten, pieces.map List.length⟩

/-- How many bytes a read of `n` bytes returns. -/
def ready (s : Stream) (n : Nat) : Nat := Http.ready s.unread.length s.cuts n

/-- `SocketStream::read`; `none` where it returns 0 or less. -/
def read (s : Stream) (n : Nat) : Option (List UInt8 × Stream) :=
  if s.ready n = 0 then none
  else some (s.unread.take (s.ready n), ⟨s.unread.drop (s.ready n), s.cuts.tail⟩)

theorem read_eq_some {s t : Stream} {n : Nat} {bytes : List UInt8}
    (h : s.read n = some (bytes, t)) :
    0 < s.ready n ∧ bytes = s.unread.take (s.ready n) ∧ t = ⟨s.unread.drop (s.ready n), s.cuts.tail⟩ := by
  unfold read at h
  split at h
  · cases h
  · cases h
    exact ⟨by omega, rfl, rfl⟩

theorem read_of_pos {s : Stream} {n : Nat} (h : 0 < s.ready n) :
    s.read n = some (s.unread.take (s.ready n), ⟨s.unread.drop (s.ready n), s.cuts.tail⟩) := by
  rw [read, if_neg (by omega)]

/-- A read with room for the bytes up to the next cut returns them. -/
theorem read_piece {s : Stream} {piece rest : List UInt8} {cuts : List Nat} {n : Nat}
    (hunread : s.unread = piece ++ rest) (hcuts : s.cuts = piece.length :: cuts)
    (hpiece : piece ≠ []) (hn : piece.length ≤ n) (hmax : piece.length ≤ maxTransfer) :
    s.read n = some (piece, ⟨rest, cuts⟩) := by
  have hpos : 0 < piece.length := List.length_pos_iff.mpr hpiece
  have hready : s.ready n = piece.length := by
    rw [ready, Http.ready, hunread, hcuts, List.length_append, List.headD_cons]
    omega
  rw [read_of_pos (by omega), hready, hunread, hcuts, List.take_left' rfl, List.drop_left' rfl,
    List.tail_cons]

/-- A read past the first bytes of a stream. -/
theorem read_past {first rest : List UInt8} {cuts : List Nat} {n k : Nat} (hfirst : first ≠ [])
    (hk : Http.ready (first.length + rest.length) cuts n = first.length + k) :
    (⟨first ++ rest, cuts⟩ : Stream).read n =
      some (first ++ rest.take k, ⟨rest.drop k, cuts.tail⟩) := by
  have hpos : 0 < first.length := List.length_pos_iff.mpr hfirst
  have hready : (⟨first ++ rest, cuts⟩ : Stream).ready n = first.length + k := by
    rw [ready, List.length_append, hk]
  rw [read_of_pos (by omega), hready, List.take_length_add_append, List.drop_length_add_append]

theorem read_of_nil {s : Stream} (h : s.unread = []) (n : Nat) : s.read n = none := by
  rw [read, ready, h, List.length_nil, ready_zero_left, if_pos rfl]

/-- A read moves bytes from the stream to the caller and loses none. -/
theorem read_conserves {s t : Stream} {n : Nat} {bytes : List UInt8}
    (h : s.read n = some (bytes, t)) :
    s.unread = bytes ++ t.unread ∧ bytes.length = s.ready n ∧ 0 < bytes.length ∧
      bytes.length ≤ n := by
  obtain ⟨hpos, rfl, rfl⟩ := read_eq_some h
  have hlen : (s.unread.take (s.ready n)).length = s.ready n := by
    rw [List.length_take]
    exact min_eq_left (ready_le_left ..)
  refine ⟨(List.take_append_drop ..).symm, hlen, by omega, ?_⟩
  rw [hlen]
  exact ready_le ..

theorem read_unread_length {s t : Stream} {n : Nat} {bytes : List UInt8}
    (h : s.read n = some (bytes, t)) : t.unread.length < s.unread.length := by
  obtain ⟨heq, -, hpos, -⟩ := read_conserves h
  rw [heq, List.length_append]
  omega

/-- Read until `left` bytes have come, `request left` at most each time. -/
def readAll (request : Nat → Nat) : Nat → Stream → Nat → Option (List UInt8 × Stream)
  | 0, _, _ => none
  | fuel + 1, s, left =>
    if left = 0 then some ([], s)
    else match s.read (request left) with
      | none => none
      | some (bytes, t) =>
        (readAll request fuel t (left - bytes.length)).map fun r => (bytes ++ r.1, r.2)

/-- `Stream::readFixSize`; `none` where a read fails. -/
def readFixSize (s : Stream) (length : Nat) : Option (Int × List UInt8 × Stream) :=
  (readAll id (s.unread.length + 1) s length).map fun r => (toInt32 length, r)

/-- With fuel for every unread byte the loop returns the next `left` bytes, if there are as
many. -/
theorem readAll_spec (request : Nat → Nat) (hreq : ∀ n, 0 < n → 0 < request n ∧ request n ≤ n)
    {fuel : Nat} : ∀ {s : Stream} {left : Nat}, s.unread.length < fuel →
    (left ≤ s.unread.length → ∃ cuts, readAll request fuel s left =
      some (s.unread.take left, ⟨s.unread.drop left, cuts⟩)) ∧
    (s.unread.length < left → readAll request fuel s left = none) := by
  induction fuel with
  | zero => intro s left h; omega
  | succ fuel ih =>
      intro s left hfuel
      by_cases hleft : left = 0
      · subst hleft
        exact ⟨fun _ => ⟨s.cuts, by rw [readAll, if_pos rfl]; rfl⟩, fun h => by omega⟩
      by_cases hnil : s.unread = []
      · have hnone : readAll request (fuel + 1) s left = none := by
          rw [readAll, if_neg hleft, read_of_nil hnil]
        rw [hnil]
        exact ⟨fun h => absurd (Nat.le_zero.mp h) hleft, fun _ => hnone⟩
      · have hlen : 0 < s.unread.length := List.length_pos_iff.mpr hnil
        obtain ⟨hpos, hle⟩ := hreq left (by omega)
        have hready : 0 < s.ready (request left) := ready_pos _ hlen hpos
        have hready' : s.ready (request left) ≤ request left := ready_le ..
        have hunread : s.ready (request left) ≤ s.unread.length := ready_le_left ..
        have hread := read_of_pos hready
        obtain ⟨-, hbytes, -, -⟩ := read_conserves hread
        have hdrop := read_unread_length hread
        rw [readAll, if_neg hleft, hread]
        simp only [hbytes]
        generalize s.ready (request left) = k at *
        obtain ⟨hall, hnone⟩ := @ih ⟨s.unread.drop k, s.cuts.tail⟩ (left - k) (by omega)
        simp only [List.length_drop] at hall hnone
        refine ⟨fun h => ?_, fun h => ?_⟩
        · obtain ⟨cuts, heq⟩ := hall (by omega)
          have hsplit : left = k + (left - k) := by omega
          refine ⟨cuts, ?_⟩
          rw [heq, Option.map_some, List.drop_drop, ← List.take_add, ← hsplit]
        · rw [hnone (by omega), Option.map_none]

theorem readFixSize_of_le {s : Stream} {length : Nat} (h : length ≤ s.unread.length) :
    ∃ cuts, s.readFixSize length =
      some (toInt32 length, s.unread.take length, ⟨s.unread.drop length, cuts⟩) := by
  obtain ⟨cuts, heq⟩ :=
    (readAll_spec id (fun n hn => ⟨hn, Nat.le_refl n⟩) (Nat.lt_succ_self _)).1 h
  exact ⟨cuts, by rw [readFixSize, heq]; rfl⟩

theorem readFixSize_of_lt {s : Stream} {length : Nat} (h : s.unread.length < length) :
    s.readFixSize length = none := by
  rw [readFixSize,
    (readAll_spec id (fun n hn => ⟨hn, Nat.le_refl n⟩) (Nat.lt_succ_self _)).2 h]
  rfl

end Stream

end Http

end Saturn
