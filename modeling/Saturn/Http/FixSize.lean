import Saturn.Http.Stream

/-!
# `readFixSize` and `writeFixSize`

The loops of `saturn/stream.cc`, over any stream. The loop counts what is left in an `int64_t`, and
the length that it returns at the end is converted to `int`.
-/

namespace Saturn

namespace Http

/-- The calls of `read` or `write` on a stream: call `k`, asked for `n` bytes, moves `result k n` of
them, or returns 0 or an error. -/
structure Transfers where
  result : Nat → Nat → Int
  le_asked : ∀ k n, result k n ≤ n
  isInt : ∀ k n, -2 ^ 31 ≤ result k n ∧ result k n < 2 ^ 31

namespace Transfers

/-- The loop from call `k` on: what it returns from within, and the calls made, each with the
position of its first byte and its result. -/
def loop (c : Transfers) (k position : Nat) (left : Int) : Option Int × List (Nat × Int) :=
  if 0 < left then
    let len := c.result k left.toNat
    if len ≤ 0 then (some len, [(position, len)])
    else
      let (early, calls) := c.loop (k + 1) (position + len.toNat) (left - len)
      (early, (position, len) :: calls)
  else (none, [])
termination_by left.toNat
decreasing_by omega

/-- The four functions: the loop, and what it returns as an `int`. -/
def fixSize (c : Transfers) (position : Nat) (length : UInt64) : Int × List (Nat × Int) :=
  let (early, calls) := c.loop 0 position (toInt64 length.toNat)
  (match early with
    | some len => (BitVec.ofInt 32 len).toInt
    | none => toInt32 length.toNat,
    calls)

/-- `readFixSize(void* buffer, size_t length)`; positions are offsets in the buffer. -/
def readFixSize (c : Transfers) (length : UInt64) : Int × List (Nat × Int) := c.fixSize 0 length

/-- `readFixSize(ByteArray::ptr ba, size_t length)`: each `read` writes at the position of `ba` and
moves it on. -/
def readFixSizeByteArray (c : Transfers) (position : Nat) (length : UInt64) :
    Int × List (Nat × Int) :=
  c.fixSize position length

/-- `writeFixSize(const void* buffer, size_t length)` -/
def writeFixSize (c : Transfers) (length : UInt64) : Int × List (Nat × Int) := c.fixSize 0 length

/-- `writeFixSize(ByteArray::ptr ba, size_t length)`: each `write` reads at the position of `ba` and
moves it on. -/
def writeFixSizeByteArray (c : Transfers) (position : Nat) (length : UInt64) :
    Int × List (Nat × Int) :=
  c.fixSize position length

/-- The positions of the bytes moved, in the order in which they are moved. -/
def moved (calls : List (Nat × Int)) : List Nat :=
  calls.flatMap fun call => List.range' call.1 call.2.toNat

/-- The result is positive just when there are bytes to move and all have been, in order and each
once. Otherwise it is 0, or the error that the last call returned. -/
def Truthful (position : Nat) (length : UInt64) (r : Int × List (Nat × Int)) : Prop :=
  (0 < r.1 ↔ 0 < length.toNat ∧ moved r.2 = List.range' position length.toNat) ∧
    (r.1 ≤ 0 → r.1 = 0 ∨ r.2.getLast?.map Prod.snd = some r.1)

instance (position : Nat) (length : UInt64) (r : Int × List (Nat × Int)) :
    Decidable (Truthful position length r) := inferInstanceAs (Decidable (_ ∧ _))

/-- With `left` bytes to move from call `k` on, some call returns 0 or an error. -/
inductive Breaks (c : Transfers) : Nat → Nat → Prop
  | here {k left} : 0 < left → c.result k left ≤ 0 → Breaks c k left
  | later {k left} : 0 < c.result k left → Breaks c (k + 1) (left - (c.result k left).toNat) →
      Breaks c k left

/-- The lengths whose `int` says what came of the calls. -/
def Reportable (c : Transfers) (length : Nat) : Prop :=
  if length < 2 ^ 63 then
    length = 0 ∨ c.Breaks 0 length ∨ (0 < length % 2 ^ 32 ∧ length % 2 ^ 32 < 2 ^ 31)
  else length % 2 ^ 32 = 0

variable {c : Transfers}

theorem loop_of_nonpos (k position : Nat) {left : Int} (h : left ≤ 0) :
    c.loop k position left = (none, []) := by
  rw [loop, if_neg (by omega)]

theorem loop_of_fails (k position : Nat) {left : Nat} (hleft : 0 < left)
    (h : c.result k left ≤ 0) :
    c.loop k position left = (some (c.result k left), [(position, c.result k left)]) := by
  rw [loop, if_pos (by omega)]
  simp only [Int.toNat_natCast]
  rw [if_pos h]

theorem loop_of_moves (k position : Nat) {left n : Nat} (hn : c.result k left = n) (hpos : 0 < n) :
    c.loop k position left =
      ((c.loop (k + 1) (position + n) (left - n : Nat)).1,
        (position, (n : Int)) :: (c.loop (k + 1) (position + n) (left - n : Nat)).2) := by
  have hle : (n : Int) ≤ left := hn ▸ c.le_asked k left
  have hsub : (left : Int) - n = (left - n : Nat) := by omega
  rw [loop, if_pos (by omega)]
  simp only [Int.toNat_natCast, hn, hsub]
  rw [if_neg (by omega)]

theorem moved_cons (position n : Nat) (calls : List (Nat × Int)) :
    moved ((position, (n : Int)) :: calls) = List.range' position n ++ moved calls := by
  rw [moved, List.flatMap_cons, Int.toNat_natCast]
  rfl

/-- A loop in which a call fails returns what the call returned, with less moved than asked for. -/
theorem loop_of_breaks {k left : Nat} (h : c.Breaks k left) : ∀ position,
    ∃ len, (c.loop k position left).1 = some len ∧ len ≤ 0 ∧ -2 ^ 31 ≤ len ∧
      (c.loop k position left).2.getLast?.map Prod.snd = some len ∧
      ∃ n < left, moved (c.loop k position left).2 = List.range' position n := by
  induction h with
  | @here k left hleft hfails =>
      intro position
      rw [loop_of_fails k position hleft hfails]
      refine ⟨c.result k left, rfl, hfails, (c.isInt k left).1, rfl, 0, hleft, ?_⟩
      rw [moved, List.flatMap_singleton, Int.toNat_of_nonpos hfails]
  | @later k left hmoves _ ih =>
      intro position
      obtain ⟨n, hn⟩ := Int.eq_ofNat_of_zero_le hmoves.le
      have hpos : 0 < n := by omega
      have hle : (n : Int) ≤ left := hn ▸ c.le_asked k left
      rw [loop_of_moves k position hn hpos]
      rw [hn, Int.toNat_natCast] at ih
      obtain ⟨len, hearly, hfails, hint, hlast, m, hm, hmoved⟩ := ih (position + n)
      refine ⟨len, hearly, hfails, hint, ?_, n + m, by omega, ?_⟩
      · obtain ⟨call, hcall, rfl⟩ := Option.map_eq_some_iff.mp hlast
        rw [List.getLast?_cons, hcall]
        rfl
      · rw [moved_cons, hmoved, List.range'_append_1]

/-- A loop in which no call fails moves everything. -/
theorem loop_of_not_breaks (left : Nat) : ∀ k position, ¬ c.Breaks k left →
    (c.loop k position left).1 = none ∧
      moved (c.loop k position left).2 = List.range' position left := by
  induction left using Nat.strong_induction_on with
  | h left ih =>
      intro k position hkeeps
      rcases Nat.eq_zero_or_pos left with rfl | hleft
      · rw [loop_of_nonpos k position (by omega)]
        exact ⟨rfl, rfl⟩
      · have hmoves : 0 < c.result k left := by
          by_contra hfails
          exact hkeeps (.here hleft (by omega))
        obtain ⟨n, hn⟩ := Int.eq_ofNat_of_zero_le hmoves.le
        have hle : (n : Int) ≤ left := hn ▸ c.le_asked k left
        have hrest : ¬ c.Breaks (k + 1) (left - n) := fun hbreaks =>
          hkeeps (.later hmoves (by rw [hn, Int.toNat_natCast]; exact hbreaks))
        obtain ⟨hearly, hmoved⟩ := ih (left - n) (by omega) (k + 1) (position + n) hrest
        rw [loop_of_moves k position hn (by omega)]
        refine ⟨hearly, ?_⟩
        rw [moved_cons, hmoved, List.range'_append_1, Nat.add_sub_cancel' (by omega)]

theorem toInt32_pos_iff (n : Nat) : 0 < toInt32 n ↔ 0 < n % 2 ^ 32 ∧ n % 2 ^ 32 < 2 ^ 31 := by
  rw [toInt32, BitVec.toInt_ofNat', Int.bmod_def]
  split <;> omega

theorem toInt32_eq_zero_iff (n : Nat) : toInt32 n = 0 ↔ n % 2 ^ 32 = 0 := by
  rw [toInt32, BitVec.toInt_ofNat', Int.bmod_def]
  split <;> omega

/-- An error comes through the conversions as it is. -/
theorem toInt_ofInt_of_fails {len : Int} (hint : -2 ^ 31 ≤ len) (hfails : len ≤ 0) :
    (BitVec.ofInt 32 len).toInt = len := by
  rw [BitVec.toInt_ofInt, Int.bmod_eq_of_le] <;> omega

theorem range'_length_ne {position n m : Nat} (h : n ≠ m) :
    List.range' position n ≠ List.range' position m := by
  intro heq
  have hlen := congrArg List.length heq
  rw [List.length_range', List.length_range'] at hlen
  exact h hlen

section FixSize

variable {position : Nat} {length : UInt64}

theorem truthful_of_breaks (hlt : length.toNat < 2 ^ 63) (h : c.Breaks 0 length.toNat) :
    Truthful position length (c.fixSize position length) := by
  obtain ⟨len, hearly, hfails, hint, hlast, n, hn, hmoved⟩ := loop_of_breaks h position
  have hresult : c.fixSize position length = (len, (c.loop 0 position length.toNat).2) := by
    rw [fixSize, toInt64_of_lt hlt]
    simp only [hearly, toInt_ofInt_of_fails hint hfails]
  rw [hresult]
  refine ⟨iff_of_false (by omega) fun hall => ?_, fun _ => Or.inr hlast⟩
  rw [hmoved] at hall
  exact range'_length_ne hn.ne hall.2

theorem truthful_iff_of_not_breaks (hlt : length.toNat < 2 ^ 63) (h : ¬ c.Breaks 0 length.toNat) :
    Truthful position length (c.fixSize position length) ↔
      length.toNat = 0 ∨ 0 < toInt32 length.toNat := by
  obtain ⟨hearly, hmoved⟩ := loop_of_not_breaks length.toNat 0 position h
  have hresult : c.fixSize position length =
      (toInt32 length.toNat, (c.loop 0 position length.toNat).2) := by
    rw [fixSize, toInt64_of_lt hlt]
    simp only [hearly]
  rw [hresult, Truthful, hmoved]
  rcases Nat.eq_zero_or_pos length.toNat with hzero | hpos
  · have hrt : toInt32 0 = 0 := rfl
    rw [hzero, hrt]
    exact iff_of_true
      ⟨iff_of_false (Int.lt_irrefl 0) fun hall => Nat.lt_irrefl 0 hall.1, fun _ => Or.inl rfl⟩
      (Or.inl rfl)
  · constructor
    · rintro ⟨hiff, -⟩
      exact Or.inr (hiff.mpr ⟨hpos, rfl⟩)
    · rintro (hzero | hrt)
      · omega
      · exact ⟨iff_of_true hrt ⟨hpos, rfl⟩, fun hle => by omega⟩

theorem truthful_iff_of_negative (hge : 2 ^ 63 ≤ length.toNat) :
    Truthful position length (c.fixSize position length) ↔ toInt32 length.toNat = 0 := by
  have hneg := toInt64_of_ge hge length.toNat_lt
  have hresult : c.fixSize position length = (toInt32 length.toNat, []) := by
    rw [fixSize, loop_of_nonpos 0 position hneg.le]
  have hnone : moved [] ≠ List.range' position length.toNat := range'_length_ne (n := 0) (by omega)
  rw [hresult, Truthful]
  constructor
  · rintro ⟨hiff, hfails⟩
    have hle : ¬ 0 < toInt32 length.toNat := fun hrt => hnone (hiff.mp hrt).2
    rcases hfails (by omega) with hzero | hlast
    · exact hzero
    · cases hlast
  · intro hzero
    rw [hzero]
    exact ⟨iff_of_false (by omega) fun hall => hnone hall.2, fun _ => Or.inl rfl⟩

theorem fixSize_truthful : Truthful position length (c.fixSize position length) ↔
    c.Reportable length.toNat := by
  rw [Reportable]
  by_cases hlt : length.toNat < 2 ^ 63
  · rw [if_pos hlt]
    by_cases hbreaks : c.Breaks 0 length.toNat
    · exact iff_of_true (truthful_of_breaks hlt hbreaks) (Or.inr (Or.inl hbreaks))
    · rw [truthful_iff_of_not_breaks hlt hbreaks, toInt32_pos_iff]
      exact or_congr_right (or_iff_right hbreaks).symm
  · rw [if_neg hlt, truthful_iff_of_negative (by omega), toInt32_eq_zero_iff]

end FixSize

/-- For each of the four functions, and whatever the calls return, the result is truthful just for
the lengths that are reportable. -/
theorem fixSize_truthful_iff (c : Transfers) (position : Nat) (length : UInt64) :
    (Truthful 0 length (c.readFixSize length) ↔ c.Reportable length.toNat) ∧
    (Truthful position length (c.readFixSizeByteArray position length) ↔
      c.Reportable length.toNat) ∧
    (Truthful 0 length (c.writeFixSize length) ↔ c.Reportable length.toNat) ∧
    (Truthful position length (c.writeFixSizeByteArray position length) ↔
      c.Reportable length.toNat) :=
  ⟨fixSize_truthful, fixSize_truthful, fixSize_truthful, fixSize_truthful⟩

/-- Calls that move as much as they are asked for, up to the largest `int`. -/
def eager : Transfers where
  result := fun _ n => min n (2 ^ 31 - 1)
  le_asked := fun _ n => by omega
  isInt := fun _ n => by omega

theorem eager_not_breaks {k left : Nat} : ¬ eager.Breaks k left := by
  intro h
  induction h with
  | here hleft hfails =>
      simp only [eager] at hfails
      omega
  | later _ _ ih => exact ih

/-- 2^31 bytes are read, in two calls, and the result is the smallest `int`. -/
theorem readFixSize_negative : ¬ ∀ (c : Transfers) (length : UInt64),
    Truthful 0 length (c.readFixSize length) := by
  intro h
  have hlt : (2147483648 : UInt64).toNat < 2 ^ 63 := by decide
  rcases (truthful_iff_of_not_breaks hlt eager_not_breaks).mp (h eager 2147483648) with hlen | hrt
  · exact absurd hlen (by decide)
  · exact absurd hrt (by decide)

end Transfers

/-! ## The socket -/

namespace Stream

/-- The calls of `read` in a `readFixSize` of `length` bytes from a socket. -/
def transfers (s : Stream) (length : Nat) : Transfers where
  result := fun k n => Http.ready (s.unread.length - (length - n)) (s.cuts.drop k) n
  le_asked := fun _ _ => Int.ofNat_le.mpr (ready_le ..)
  isInt := fun k n => by
    have hmax : Http.ready (s.unread.length - (length - n)) (s.cuts.drop k) n ≤ maxTransfer := by
      unfold Http.ready
      omega
    have hint : maxTransfer < 2 ^ 31 := by decide
    omega

variable {s : Stream} {length : Nat}

theorem lt_of_breaks {k left : Nat} (h : (s.transfers length).Breaks k left) :
    left ≤ length → length - left ≤ s.unread.length → s.unread.length < length := by
  induction h with
  | @here k left hleft hfails =>
      intro hle hread
      have hzero : Http.ready (s.unread.length - (length - left)) (s.cuts.drop k) left = 0 := by
        simp only [transfers] at hfails
        omega
      by_contra hmore
      have hpos : 0 < Http.ready (s.unread.length - (length - left)) (s.cuts.drop k) left :=
        ready_pos _ (by omega) hleft
      omega
  | @later k left hmoves _ ih =>
      intro hle hread
      have hready := ready_le_left (s.unread.length - (length - left)) (s.cuts.drop k) left
      simp only [transfers, Int.toNat_natCast] at ih
      exact ih (by omega) (by omega)

theorem le_of_not_breaks (left : Nat) : ∀ k, left ≤ length → length - left ≤ s.unread.length →
    ¬ (s.transfers length).Breaks k left → length ≤ s.unread.length := by
  induction left using Nat.strong_induction_on with
  | h left ih =>
      intro k hle hread hkeeps
      rcases Nat.eq_zero_or_pos left with rfl | hleft
      · exact hread
      · have hmoves : 0 < (s.transfers length).result k left := by
          by_contra hfails
          exact hkeeps (.here hleft (by omega))
        have hready := ready_le_left (s.unread.length - (length - left)) (s.cuts.drop k) left
        have hpos : 0 < Http.ready (s.unread.length - (length - left)) (s.cuts.drop k) left :=
          Int.natCast_pos.mp hmoves
        have hresult : ((s.transfers length).result k left).toNat =
            Http.ready (s.unread.length - (length - left)) (s.cuts.drop k) left := rfl
        exact ih _ (by omega) (k + 1) (by omega) (by omega)
          fun hbreaks => hkeeps (.later hmoves hbreaks)

/-- On a socket some `read` fails just when the peer sends less than is asked for. -/
theorem breaks_transfers_iff :
    (s.transfers length).Breaks 0 length ↔ s.unread.length < length := by
  constructor
  · intro h
    exact lt_of_breaks h le_rfl (by omega)
  · intro h
    by_contra hkeeps
    have hle := le_of_not_breaks length 0 le_rfl (by omega) hkeeps
    omega

/-- The model of a socket and the loop over its calls agree: the bytes read are those at the positions
moved, and the result is the same. -/
theorem readFixSize_some {length : UInt64} (hlt : length.toNat < 2 ^ 63) {rt : Int}
    {bytes : List UInt8} {t : Stream} (h : s.readFixSize length.toNat = some (rt, bytes, t)) :
    ((s.transfers length.toNat).readFixSize length).1 = rt ∧
      Transfers.moved ((s.transfers length.toNat).readFixSize length).2 =
        List.range' 0 bytes.length := by
  have hle : length.toNat ≤ s.unread.length := by
    by_contra hmore
    rw [readFixSize_of_lt (by omega)] at h
    cases h
  obtain ⟨cuts, hread⟩ := readFixSize_of_le hle
  obtain ⟨rfl, rfl, rfl⟩ : toInt32 length.toNat = rt ∧ s.unread.take length.toNat = bytes ∧
      ⟨s.unread.drop length.toNat, cuts⟩ = t := by
    simpa [hread] using h
  obtain ⟨hearly, hmoved⟩ := Transfers.loop_of_not_breaks length.toNat 0 0
    fun hbreaks : (s.transfers length.toNat).Breaks 0 length.toNat =>
      absurd (breaks_transfers_iff.mp hbreaks) (by omega)
  rw [Transfers.readFixSize, Transfers.fixSize, toInt64_of_lt hlt, List.length_take_of_le hle]
  simp only [hearly]
  exact ⟨trivial, hmoved⟩

theorem readFixSize_none {length : UInt64} (hlt : length.toNat < 2 ^ 63)
    (h : s.readFixSize length.toNat = none) :
    ((s.transfers length.toNat).readFixSize length).1 ≤ 0 := by
  have hmore : s.unread.length < length.toNat := by
    by_contra hle
    have henough : length.toNat ≤ s.unread.length := by omega
    obtain ⟨cuts, hread⟩ := readFixSize_of_le henough
    rw [hread] at h
    cases h
  obtain ⟨len, hearly, hfails, hint, -⟩ :=
    Transfers.loop_of_breaks (breaks_transfers_iff.mpr hmore) 0
  rw [Transfers.readFixSize, Transfers.fixSize, toInt64_of_lt hlt]
  simp only [hearly]
  rw [Transfers.toInt_ofInt_of_fails hint hfails]
  exact hfails

end Stream

end Http

end Saturn
