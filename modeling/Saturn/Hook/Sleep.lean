import Mathlib.Algebra.Group.Int.Defs
import Mathlib.Algebra.Group.Nat.Defs
import Mathlib.Data.Nat.Basic

/-!
# Hooked sleeps

The milliseconds that `sleep`, `usleep` and `nanosleep` of `saturn/hook.cc` pass to `addTimer`. The
products are taken in `unsigned int`, in `useconds_t` and in `long`, and the last one is stored in an
`int`.
-/

namespace Saturn

namespace Hook

/-- A `timespec` that `nanosleep` accepts. -/
structure Timespec where
  tv_sec : Nat
  tv_nsec : Nat
  sec_lt : tv_sec < 2 ^ 63
  nsec_lt : tv_nsec < 10 ^ 9

/-- `sleep(unsigned int seconds)` -/
def sleep (seconds : UInt32) : UInt64 := (seconds * 1000).toUInt64

/-- `usleep(useconds_t usec)` -/
def usleep (usec : UInt32) : UInt64 := (usec * 1000).toUInt64

/-- `nanosleep(const struct timespec* req, ...)`; undefined where the sum overflows a `long`. -/
def nanosleep (req : Timespec) : Option UInt64 :=
  let sum := req.tv_sec * 1000 + req.tv_nsec / 1000 / 1000
  if sum < 2 ^ 63 then
    let timeout_ms : Int := (BitVec.ofNat 32 sum).toInt
    some (UInt64.ofInt timeout_ms)
  else none

/-- `ms` is what is requested, in units of which a millisecond has `unit`, and less than a millisecond
more. -/
def Lasts (unit requested ms : Nat) : Prop :=
  requested ≤ ms * unit ∧ ms * unit < requested + unit

instance (unit requested ms : Nat) : Decidable (Lasts unit requested ms) :=
  inferInstanceAs (Decidable (_ ∧ _))

/-- The three calls, each asked for its own unit. -/
def SleepLasts (seconds : UInt32) : Prop := Lasts 1 (seconds.toNat * 1000) (sleep seconds).toNat

/-- `usleep` lasts as long as it is asked to. -/
def UsleepLasts (usec : UInt32) : Prop := Lasts 1000 usec.toNat (usleep usec).toNat

/-- `nanosleep` lasts as long as it is asked to. -/
def NanosleepLasts (req : Timespec) : Prop :=
  ∃ ms ∈ nanosleep req, Lasts (10 ^ 6) (req.tv_sec * 10 ^ 9 + req.tv_nsec) ms.toNat

theorem toNat_product (x : UInt32) : (x * 1000).toUInt64.toNat = x.toNat * 1000 % 2 ^ 32 := by
  rw [UInt32.toNat_toUInt64, UInt32.toNat_mul]
  rfl

theorem sleepLasts_iff (seconds : UInt32) : SleepLasts seconds ↔ seconds.toNat * 1000 < 2 ^ 32 := by
  rw [SleepLasts, Lasts, sleep, toNat_product]
  omega

theorem wraps_table : ∀ k < 1000, k ≠ 0 →
    k * 2 ^ 32 % 999999 ≠ 0 ∧ k * 2 ^ 32 % 999999 % 1000 ≠ 999 := by
  decide +kernel

/-- A product that wraps around is not a thousandth of what it was taken of, rounded up. -/
theorem not_wraps {k ms rest : Nat} (hk : k < 1000) (hrest : rest < 1000)
    (h : 999999 * ms = 1000 * rest + k * 2 ^ 32) : k = 0 := by
  by_contra hne
  obtain ⟨hnonzero, hnot⟩ := wraps_table k hk hne
  obtain ⟨t, u, hu, hsplit⟩ : ∃ t u, u = k * 2 ^ 32 % 999999 ∧ k * 2 ^ 32 = 999999 * t + u :=
    ⟨_, _, rfl, (Nat.div_add_mod _ _).symm⟩
  have hlt : u < 999999 := hu ▸ Nat.mod_lt _ (by decide)
  rw [← hu] at hnonzero hnot
  have hone : ms = t ∨ ms = t + 1 := by omega
  omega

theorem usleepLasts_iff (usec : UInt32) : UsleepLasts usec ↔ usec = 0 := by
  rw [UsleepLasts, Lasts, usleep, toNat_product]
  constructor
  · rintro ⟨hle, hlt⟩
    have husec : usec.toNat < 2 ^ 32 := usec.toNat_lt
    -- `ms` is the product less `k` times 2^32, and a thousand of them are `rest` more than asked for
    obtain ⟨k, hk⟩ : ∃ k, k = usec.toNat * 1000 / 2 ^ 32 := ⟨_, rfl⟩
    obtain ⟨ms, hms⟩ : ∃ ms, ms = usec.toNat * 1000 % 2 ^ 32 := ⟨_, rfl⟩
    obtain ⟨rest, hrest⟩ : ∃ rest, rest = ms * 1000 - usec.toNat := ⟨_, rfl⟩
    rw [← hms] at hle hlt
    have hsum : 999999 * ms = 1000 * rest + k * 2 ^ 32 := by omega
    have hzero : k = 0 := not_wraps (by omega) (by omega) hsum
    have hnone : usec.toNat = 0 := by omega
    exact UInt32.toNat_inj.mp hnone
  · rintro rfl
    decide

/-- The `int`, as it is converted to `uint64_t`. -/
theorem toNat_int (n : Nat) : (UInt64.ofInt (BitVec.ofNat 32 n).toInt).toNat =
    if n % 2 ^ 32 < 2 ^ 31 then n % 2 ^ 32 else 2 ^ 64 - 2 ^ 32 + n % 2 ^ 32 := by
  rw [UInt64.ofInt, UInt64.toNat_ofNat', BitVec.toInt_ofNat', Int.bmod_def]
  split <;> split <;> omega

theorem nanosleepLasts_iff (req : Timespec) : NanosleepLasts req ↔
    10 ^ 6 ∣ req.tv_nsec ∧ req.tv_sec * 1000 + req.tv_nsec / 10 ^ 6 < 2 ^ 31 := by
  have hsum : req.tv_nsec / 1000 / 1000 = req.tv_nsec / 10 ^ 6 := by omega
  rw [NanosleepLasts, nanosleep, hsum, Nat.dvd_iff_mod_eq_zero]
  dsimp only
  split
  · simp only [Option.mem_some_iff, exists_eq_left', Lasts, toNat_int]
    split <;> omega
  · refine iff_of_false ?_ (by omega)
    rintro ⟨ms, hms, -⟩
    cases hms

/-- What each call passes on lasts as long as requested, up to a millisecond, just in this range. -/
theorem sleeps_last_iff (seconds usec : UInt32) (req : Timespec) :
    (SleepLasts seconds ↔ seconds.toNat * 1000 < 2 ^ 32) ∧
    (UsleepLasts usec ↔ usec = 0) ∧
    (NanosleepLasts req ↔
      10 ^ 6 ∣ req.tv_nsec ∧ req.tv_sec * 1000 + req.tv_nsec / 10 ^ 6 < 2 ^ 31) :=
  ⟨sleepLasts_iff seconds, usleepLasts_iff usec, nanosleepLasts_iff req⟩

/-- A `usleep` of a millisecond passes on a thousand seconds. -/
theorem usleep_thousand : ¬ ∀ usec, UsleepLasts usec := by
  intro h
  have husec : usleep 1000 = 1000000 := by decide
  have hlast := h 1000
  rw [UsleepLasts, husec] at hlast
  exact absurd hlast (by decide)

end Hook

end Saturn
