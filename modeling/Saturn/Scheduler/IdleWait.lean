import Saturn.Scheduler.Deadline

/-!
# The wait of an idle worker

The loop around `epoll_wait` in `IOManager::idle`. The delay is compared with `MAX_TIMEOUT` as an `int`,
and a delay that is not cut to that goes to `epoll_wait` as it is, and again after each `EINTR`.
-/

namespace Saturn

namespace Workers

/-- `next_timeout` behind the test of one round. -/
def cutTimeout (nextTimeout : UInt64) : UInt64 :=
  if nextTimeout ≠ ~~~0 then
    if 3000 < nextTimeout.toUInt32.toInt32 then 3000 else nextTimeout
  else 3000

/-- What `epoll_wait` gets in each round, the first `interrupted` of which end with `EINTR`. -/
def epollTimeouts (nextTimeout : UInt64) : Nat → List Int32
  | 0 => [(cutTimeout nextTimeout).toUInt32.toInt32]
  | interrupted + 1 =>
      (cutTimeout nextTimeout).toUInt32.toInt32 :: epollTimeouts (cutTimeout nextTimeout) interrupted

/-- However often it is interrupted, no wait is negative or longer than the delay or `MAX_TIMEOUT`. -/
def WaitsBounded (delay : UInt64) : Prop :=
  ∀ interrupted, ∀ timeout ∈ epollTimeouts delay interrupted,
    0 ≤ timeout.toInt ∧ timeout.toInt ≤ min delay.toNat 3000

variable {x : UInt64}

theorem toNat_low (x : UInt64) : x.toUInt32.toNat = x.toNat % 2 ^ 32 := UInt64.toNat_toUInt32 x

theorem toInt_low_of_lt (h : x.toNat % 2 ^ 32 < 2 ^ 31) :
    x.toUInt32.toInt32.toInt = (x.toNat % 2 ^ 32 : Nat) := by
  have hlow := toNat_low x
  rw [UInt32.toInt32, Int32.toInt, Int32.toBitVec, BitVec.toInt_eq_toNat_of_lt]
  · exact congrArg _ hlow
  · show 2 * x.toUInt32.toNat < 2 ^ 32
    omega

theorem toInt_low_of_ge (h : 2 ^ 31 ≤ x.toNat % 2 ^ 32) : x.toUInt32.toInt32.toInt < 0 := by
  have hlow := toNat_low x
  have hlt := Nat.mod_lt x.toNat (show 0 < 2 ^ 32 by decide)
  have hbits : x.toUInt32.toInt32.toInt = x.toUInt32.toBitVec.toInt := rfl
  have hnat : x.toUInt32.toBitVec.toNat = x.toUInt32.toNat := rfl
  rw [hbits, BitVec.toInt_eq_toNat_cond, hnat]
  split <;> omega

/-- The two models of one round agree. -/
theorem epollTimeout_eq (nextTimeout : UInt64) :
    epollTimeout nextTimeout = (cutTimeout nextTimeout).toUInt32.toInt32 := by
  unfold epollTimeout cutTimeout
  split
  · split <;> rfl
  · rfl

theorem toInt_max : (3000 : Int32).toInt = 3000 := by decide

/-- A delay whose low half is no negative `int` is cut to `MAX_TIMEOUT`, or is passed on with that
half. -/
theorem cutTimeout_of_lt (hne : x ≠ ~~~0) (h : x.toNat % 2 ^ 32 < 2 ^ 31) :
    (cutTimeout x = 3000 ∧ 3000 ≤ x.toNat) ∨ (cutTimeout x = x ∧ x.toNat % 2 ^ 32 ≤ 3000) := by
  have hint := toInt_low_of_lt h
  have hmax := toInt_max
  unfold cutTimeout
  rw [if_pos hne]
  split
  · rename_i hlt
    rw [Int32.lt_iff_toInt_lt, hmax, hint] at hlt
    exact Or.inl ⟨rfl, by omega⟩
  · rename_i hlt
    rw [Int32.lt_iff_toInt_lt, hmax, hint] at hlt
    exact Or.inr ⟨rfl, by omega⟩

theorem cutTimeout_of_ge (hne : x ≠ ~~~0) (h : 2 ^ 31 ≤ x.toNat % 2 ^ 32) : cutTimeout x = x := by
  have hint := toInt_low_of_ge h
  have hmax := toInt_max
  unfold cutTimeout
  rw [if_pos hne, if_neg]
  rw [Int32.lt_iff_toInt_lt, hmax]
  omega

/-- A delay that the test leaves alone is left alone in every round. -/
theorem epollTimeouts_of_fixed (h : cutTimeout x = x) (interrupted : Nat) :
    ∀ timeout ∈ epollTimeouts x interrupted, timeout = x.toUInt32.toInt32 := by
  induction interrupted with
  | zero =>
      intro timeout ht
      rw [epollTimeouts, h] at ht
      exact List.mem_singleton.mp ht
  | succ interrupted ih =>
      intro timeout ht
      rw [epollTimeouts, h] at ht
      exact (List.mem_cons.mp ht).elim id (ih timeout)

/-- A delay that is cut is `MAX_TIMEOUT` in every round. -/
theorem epollTimeouts_of_cut (h : cutTimeout x = 3000) (interrupted : Nat) :
    ∀ timeout ∈ epollTimeouts x interrupted, timeout = 3000 := by
  have hfixed : cutTimeout 3000 = 3000 := by decide
  have hlow : (3000 : UInt64).toUInt32.toInt32 = 3000 := by decide
  intro timeout ht
  cases interrupted with
  | zero =>
      rw [epollTimeouts, h, hlow] at ht
      exact List.mem_singleton.mp ht
  | succ interrupted =>
      rw [epollTimeouts, h, hlow] at ht
      rcases List.mem_cons.mp ht with ht | ht
      · exact ht
      · exact (epollTimeouts_of_fixed hfixed interrupted timeout ht).trans hlow

/-- The wait of an idle worker is bounded just for the delays that are `~0ull` or whose low half is no
negative `int`. -/
theorem waitsBounded_iff (delay : UInt64) :
    WaitsBounded delay ↔ delay = ~~~0 ∨ delay.toNat % 2 ^ 32 < 2 ^ 31 := by
  have hmax := toInt_max
  by_cases hnone : delay = ~~~0
  · refine iff_of_true (fun interrupted timeout ht => ?_) (Or.inl hnone)
    have hcut : cutTimeout delay = 3000 := by rw [hnone]; decide
    have hlarge : 3000 ≤ delay.toNat := by rw [hnone]; decide
    rw [epollTimeouts_of_cut hcut interrupted timeout ht]
    omega
  rw [or_iff_right hnone]
  by_cases hlow : delay.toNat % 2 ^ 32 < 2 ^ 31
  · refine iff_of_true (fun interrupted timeout ht => ?_) hlow
    rcases cutTimeout_of_lt hnone hlow with ⟨hcut, hlarge⟩ | ⟨hfixed, hsmall⟩
    · rw [epollTimeouts_of_cut hcut interrupted timeout ht]
      omega
    · rw [epollTimeouts_of_fixed hfixed interrupted timeout ht, toInt_low_of_lt hlow]
      omega
  · refine iff_of_false (fun hbounded => ?_) hlow
    have hge : 2 ^ 31 ≤ delay.toNat % 2 ^ 32 := by omega
    have hfirst : delay.toUInt32.toInt32 ∈ epollTimeouts delay 0 := by
      rw [epollTimeouts, cutTimeout_of_ge hnone hge]
      exact List.mem_singleton_self _
    have hneg := toInt_low_of_ge hge
    have hpos := (hbounded 0 _ hfirst).1
    omega

/-- With a timer in 2^31 milliseconds, which is not quite 25 days, the wait has no end. -/
theorem month_not_waitsBounded : ¬ ∀ delay, WaitsBounded delay := by
  intro h
  have hwait := h 2147483648 0 (-2147483648) (by decide)
  exact absurd hwait.1 (by decide)

/-- A worker blocks without end just where its wait is not bounded. -/
theorem sleep_forever_iff (asked delay : UInt64) :
    Pc.sleep asked delay = .waiting none ↔ ¬ WaitsBounded delay := by
  have hzero : (0 : Int32).toInt = 0 := by decide
  have hforever : Pc.sleep asked delay = .waiting none ↔ (epollTimeout delay).toInt < 0 := by
    have hlt : epollTimeout delay < 0 ↔ (epollTimeout delay).toInt < 0 := by
      rw [Int32.lt_iff_toInt_lt, hzero]
    unfold Pc.sleep
    dsimp only
    rw [← hlt]
    split
    · rename_i hneg
      exact iff_of_true rfl hneg
    · rename_i hneg
      refine iff_of_false ?_ hneg
      split <;> exact nofun
  rw [hforever]
  constructor
  · intro hneg hbounded
    have hfirst : epollTimeout delay ∈ epollTimeouts delay 0 := by
      rw [epollTimeouts, epollTimeout_eq]
      exact List.mem_singleton_self _
    have hpos := (hbounded 0 _ hfirst).1
    omega
  · intro hunbounded
    rw [waitsBounded_iff, not_or] at hunbounded
    have hge : 2 ^ 31 ≤ delay.toNat % 2 ^ 32 := by omega
    rw [epollTimeout_eq, cutTimeout_of_ge hunbounded.1 hge]
    exact toInt_low_of_ge hge

end Workers

end Saturn
