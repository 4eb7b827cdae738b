import Mathlib.Algebra.Group.Int.Defs
import Mathlib.Algebra.Group.Nat.Defs
import Mathlib.Data.List.Basic

/-!
# Numbers in groups of seven bits

A number as bytes of seven bits each, the lowest first, every byte but the last with its top bit
set. A reader takes a bounded number of groups and leaves what comes behind them.
-/

namespace Saturn

/-- The groups of `n`. -/
def toGroups (n : Nat) : List UInt8 :=
  if n < 128 then [UInt8.ofNat n] else UInt8.ofNat (n % 128 + 128) :: toGroups (n / 128)
termination_by n
decreasing_by omega

/-- The number that at most `turns` groups at the start of the bytes spell, and the bytes behind
them; `none` if the bytes end within. -/
def ofGroups : Nat → List UInt8 → Option (Nat × List UInt8)
  | 0, bs => some (0, bs)
  | _ + 1, [] => none
  | turns + 1, b :: bs =>
      if b.toNat < 128 then some (b.toNat, bs)
      else (ofGroups turns bs).map fun r => (b.toNat - 128 + 128 * r.1, r.2)

theorem ofNat_toNat_of_lt {n : Nat} (h : n < 256) : (UInt8.ofNat n).toNat = n := by
  rw [UInt8.toNat_ofNat']
  exact Nat.mod_eq_of_lt h

theorem toGroups_of_lt {n : Nat} (h : n < 128) : toGroups n = [UInt8.ofNat n] := by
  rw [toGroups, if_pos h]

theorem toGroups_of_le {n : Nat} (h : 128 ≤ n) :
    toGroups n = UInt8.ofNat (n % 128 + 128) :: toGroups (n / 128) := by
  rw [toGroups, if_neg (by omega)]

theorem toGroups_length_pos (n : Nat) : 0 < (toGroups n).length := by
  rw [toGroups]
  split <;> simp

theorem toGroups_length_le_iff : ∀ (k n : Nat), (toGroups n).length ≤ k + 1 ↔ n < 128 ^ (k + 1) := by
  intro k
  induction k with
  | zero =>
      intro n
      by_cases h : n < 128
      · rw [toGroups_of_lt h]
        simpa using h
      · have hpos := toGroups_length_pos (n / 128)
        rw [toGroups_of_le (by omega), List.length_cons]
        omega
  | succ k ih =>
      intro n
      have hpow : 128 ^ (k + 1 + 1) = 128 ^ (k + 1) * 128 := Nat.pow_succ ..
      have hbase : 0 < 128 ^ (k + 1) := Nat.pow_pos (by decide)
      by_cases h : n < 128
      · rw [toGroups_of_lt h, List.length_singleton]
        omega
      · rw [toGroups_of_le (by omega), List.length_cons, hpow, ← Nat.div_lt_iff_lt_mul (by decide),
          ← ih]
        omega

/-- The reader gives back what the writer was given, with the bytes behind it untouched. -/
theorem ofGroups_toGroups (n : Nat) : ∀ (turns : Nat) (rest : List UInt8),
    (toGroups n).length ≤ turns → ofGroups turns (toGroups n ++ rest) = some (n, rest) := by
  induction n using Nat.strongRecOn with
  | ind n ih =>
      intro turns rest hturns
      have hpos := toGroups_length_pos n
      cases turns with
      | zero => omega
      | succ turns =>
          by_cases h : n < 128
          · have hbyte : (UInt8.ofNat n).toNat = n := ofNat_toNat_of_lt (by omega)
            rw [toGroups_of_lt h, List.singleton_append, ofGroups, hbyte, if_pos h]
          · have hbyte : (UInt8.ofNat (n % 128 + 128)).toNat = n % 128 + 128 :=
              ofNat_toNat_of_lt (by omega)
            rw [toGroups_of_le (by omega), List.length_cons] at hturns
            rw [toGroups_of_le (by omega), List.cons_append, ofGroups, hbyte, if_neg (by omega),
              ih (n / 128) (by omega) turns rest (by omega)]
            simp only [Option.map_some, Option.some.injEq, Prod.mk.injEq, and_true]
            omega

theorem ofGroups_rest_le : ∀ (turns : Nat) (bs : List UInt8) (r : Nat × List UInt8),
    ofGroups turns bs = some r → r.2.length ≤ bs.length := by
  intro turns
  induction turns with
  | zero =>
      intro bs r h
      obtain rfl := Option.some.inj h
      exact Nat.le_refl _
  | succ turns ih =>
      intro bs r h
      cases bs with
      | nil => cases h
      | cons b bs =>
          rw [ofGroups] at h
          split at h
          · rw [← Option.some.inj h]
            exact Nat.le_succ _
          · obtain ⟨r', hrest, rfl⟩ := Option.map_eq_some_iff.mp h
            exact Nat.le_succ_of_le (ih bs r' hrest)

/-- With a turn to take, the reader takes a byte at least. -/
theorem ofGroups_shorter {turns : Nat} {bs : List UInt8} {r : Nat × List UInt8}
    (h : ofGroups (turns + 1) bs = some r) : r.2.length < bs.length := by
  cases bs with
  | nil => cases h
  | cons b bs =>
      rw [ofGroups] at h
      split at h
      · rw [← Option.some.inj h]
        exact Nat.lt_succ_self _
      · obtain ⟨r', hrest, rfl⟩ := Option.map_eq_some_iff.mp h
        exact Nat.lt_succ_of_le (ofGroups_rest_le turns bs r' hrest)

end Saturn
