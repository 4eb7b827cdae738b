import Mathlib.Data.List.Basic

/-!
# Calls with a log

A call that logs what it does and returns a value, gives up, throws, or runs out of the fuel that
bounds its loops. A call is safe when every entry of its log is as it should be and it returns or
gives up.
-/

namespace Saturn

/-- How a call ends. -/
inductive CallEnd (ε α : Type*)
  | returned (a : α)
  | gaveUp
  | threw (e : ε)
  | outOfFuel
  deriving Repr, DecidableEq

/-- What a call did on the way, and how it ended. -/
structure Logged (ι ε α : Type*) where
  log : List ι
  outcome : CallEnd ε α
  deriving Repr, DecidableEq

namespace Logged

variable {ι ε α β γ : Type*} {P : ι → Prop} {x : Logged ι ε α} {f : α → Logged ι ε β}

/-- The call returns. -/
def ret (a : α) : Logged ι ε α := ⟨[], .returned a⟩

/-- The call gives up. -/
def giveUp : Logged ι ε α := ⟨[], .gaveUp⟩

/-- The call throws. -/
def throwing (e : ε) : Logged ι ε α := ⟨[], .threw e⟩

/-- The call has not ended. -/
def outOfFuel : Logged ι ε α := ⟨[], .outOfFuel⟩

/-- The call does something first. -/
def tell (i : ι) (x : Logged ι ε α) : Logged ι ε α := ⟨i :: x.log, x.outcome⟩

/-- One call behind another. -/
def bind (x : Logged ι ε α) (f : α → Logged ι ε β) : Logged ι ε β :=
  match x.outcome with
  | .returned a => ⟨x.log ++ (f a).log, (f a).outcome⟩
  | .gaveUp => ⟨x.log, .gaveUp⟩
  | .threw e => ⟨x.log, .threw e⟩
  | .outOfFuel => ⟨x.log, .outOfFuel⟩

/-- A call without a log. -/
def ofExcept : Except ε α → Logged ι ε α
  | .ok a => ret a
  | .error e => throwing e

/-- The call keeps to `P` and ends without a fault. -/
def Safe (P : ι → Prop) (x : Logged ι ε α) : Prop :=
  (∀ i ∈ x.log, P i) ∧ ((∃ a, x.outcome = .returned a) ∨ x.outcome = .gaveUp)

@[simp] theorem outcome_ret (a : α) : (ret a : Logged ι ε α).outcome = .returned a := rfl

@[simp] theorem outcome_giveUp : (giveUp : Logged ι ε α).outcome = .gaveUp := rfl

@[simp] theorem outcome_throwing (e : ε) : (throwing e : Logged ι ε α).outcome = .threw e := rfl

@[simp] theorem outcome_outOfFuel : (outOfFuel : Logged ι ε α).outcome = .outOfFuel := rfl

@[simp] theorem ofExcept_ok (a : α) : (ofExcept (.ok a) : Logged ι ε α) = ret a := rfl

@[simp] theorem ret_bind (a : α) : (ret a : Logged ι ε α).bind f = f a := rfl

@[simp] theorem outcome_tell (i : ι) : (x.tell i).outcome = x.outcome := rfl

theorem outcome_bind_returned {a : α} (h : x.outcome = .returned a) :
    (x.bind f).outcome = (f a).outcome := by
  rw [bind, h]

theorem outcome_bind_gaveUp (h : x.outcome = .gaveUp) : (x.bind f).outcome = .gaveUp := by
  rw [bind, h]

theorem outcome_bind_eq_returned {b : β} :
    (x.bind f).outcome = .returned b ↔
      ∃ a, x.outcome = .returned a ∧ (f a).outcome = .returned b := by
  unfold bind
  cases x.outcome with
  | returned a => simp
  | gaveUp => simp
  | threw e => simp
  | outOfFuel => simp

theorem safe_ret (a : α) : (ret a : Logged ι ε α).Safe P :=
  ⟨fun _ hi => (by cases hi), Or.inl ⟨a, rfl⟩⟩

theorem safe_giveUp : (giveUp : Logged ι ε α).Safe P := ⟨fun _ hi => (by cases hi), Or.inr rfl⟩

theorem not_safe_throwing (e : ε) : ¬ (throwing e : Logged ι ε α).Safe P := by
  rintro ⟨-, ⟨a, ha⟩ | hnull⟩
  · cases ha
  · cases hnull

@[simp] theorem safe_tell_iff (i : ι) : (x.tell i).Safe P ↔ P i ∧ x.Safe P := by
  simp only [Safe, tell, List.mem_cons, forall_eq_or_imp, and_assoc]

/-- A call in two parts is safe if the first is, and the second from whatever the first returns. -/
theorem safe_bind_iff :
    (x.bind f).Safe P ↔ x.Safe P ∧ ∀ a, x.outcome = .returned a → (f a).Safe P := by
  unfold bind Safe
  cases hx : x.outcome with
  | returned a =>
      simp only [List.mem_append, CallEnd.returned.injEq, forall_eq']
      constructor
      · rintro ⟨hall, hend⟩
        exact ⟨⟨fun i hi => hall i (Or.inl hi), Or.inl ⟨a, rfl⟩⟩,
          fun i hi => hall i (Or.inr hi), hend⟩
      · rintro ⟨⟨hleft, -⟩, hright, hend⟩
        exact ⟨fun i hi => hi.elim (hleft i) (hright i), hend⟩
  | gaveUp => simp
  | threw e => simp
  | outOfFuel => simp

end Logged

end Saturn
