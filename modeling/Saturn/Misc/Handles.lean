import Mathlib.Data.List.Basic
import Mathlib.Logic.Function.Basic

/-!
# Owners and what they hold

Owners hold one handle each, or none. A handle is acquired from outside by an owner that has none, or
by nobody, and an owner may release what it holds. No handle is then ever held twice or released
twice, and what is open is held unless nobody took it.
-/

namespace Saturn

/-- Who holds what, the handles that are open, and of these those that nobody has taken. -/
structure Handles (ι α : Type*) where
  held : ι → Option α
  opened : List α
  lost : List α

namespace Handles

variable {ι α : Type*} [DecidableEq ι] [DecidableEq α]

/-- What happens to a handle. -/
inductive Step (h : Handles ι α) : Handles ι α → Prop
  | keep : Step h h
  | acquire (i : ι) (a : α) : h.held i = none → a ∉ h.opened →
      Step h ⟨Function.update h.held i (some a), a :: h.opened, h.lost⟩
  | release (i : ι) (a : α) : h.held i = some a →
      Step h ⟨Function.update h.held i none, h.opened.erase a, h.lost⟩
  | lose (a : α) : a ∉ h.opened → Step h ⟨h.held, a :: h.opened, a :: h.lost⟩

/-- Each open handle is held by one owner, or it is lost. -/
structure Inv (h : Handles ι α) : Prop where
  nodup : h.opened.Nodup
  unique : ∀ i j a, h.held i = some a → h.held j = some a → i = j
  apart : ∀ i a, h.held i = some a → a ∉ h.lost
  covered : ∀ a, a ∈ h.opened ↔ (∃ i, h.held i = some a) ∨ a ∈ h.lost

variable {h h' : Handles ι α}

omit [DecidableEq ι] [DecidableEq α] in
theorem Inv.opened_of_held (hinv : h.Inv) {i : ι} {a : α} (ha : h.held i = some a) : a ∈ h.opened :=
  (hinv.covered a).mpr (Or.inl ⟨i, ha⟩)

omit [DecidableEq α] in
theorem Inv.acquire (hinv : h.Inv) {i : ι} {a : α} (hi : h.held i = none) (ha : a ∉ h.opened) :
    Inv ⟨Function.update h.held i (some a), a :: h.opened, h.lost⟩ := by
  have hheld : ∀ j b, Function.update h.held i (some a) j = some b ↔
      j = i ∧ b = a ∨ h.held j = some b := by
    intro j b
    by_cases hj : j = i
    · simp [hj, hi, eq_comm]
    · simp [hj]
  constructor
  · exact List.nodup_cons.mpr ⟨ha, hinv.nodup⟩
  · intro j k b hj hk
    rcases (hheld j b).mp hj with ⟨hji, hb⟩ | hj' <;> rcases (hheld k b).mp hk with ⟨hki, hb'⟩ | hk'
    · rw [hji, hki]
    · exact absurd (hinv.opened_of_held hk') (hb ▸ ha)
    · exact absurd (hinv.opened_of_held hj') (hb' ▸ ha)
    · exact hinv.unique j k b hj' hk'
  · intro j b hj
    rcases (hheld j b).mp hj with ⟨rfl, rfl⟩ | hj
    · exact fun hlost => ha ((hinv.covered b).mpr (Or.inr hlost))
    · exact hinv.apart j b hj
  · intro b
    rw [List.mem_cons, hinv.covered b]
    simp only [hheld]
    constructor
    · rintro (rfl | ⟨j, hj⟩ | hlost)
      · exact Or.inl ⟨i, Or.inl ⟨rfl, rfl⟩⟩
      · exact Or.inl ⟨j, Or.inr hj⟩
      · exact Or.inr hlost
    · rintro (⟨j, ⟨-, rfl⟩ | hj⟩ | hlost)
      · exact Or.inl rfl
      · exact Or.inr (Or.inl ⟨j, hj⟩)
      · exact Or.inr (Or.inr hlost)

theorem Inv.release (hinv : h.Inv) {i : ι} {a : α} (hi : h.held i = some a) :
    Inv ⟨Function.update h.held i none, h.opened.erase a, h.lost⟩ := by
  have hheld : ∀ j b, Function.update h.held i none j = some b ↔ j ≠ i ∧ h.held j = some b := by
    intro j b
    by_cases hj : j = i <;> simp [hj]
  constructor
  · exact hinv.nodup.erase a
  · intro j k b hj hk
    exact hinv.unique j k b ((hheld j b).mp hj).2 ((hheld k b).mp hk).2
  · exact fun j b hj => hinv.apart j b ((hheld j b).mp hj).2
  · intro b
    rw [hinv.nodup.mem_erase_iff, hinv.covered b]
    simp only [hheld]
    constructor
    · rintro ⟨hne, ⟨j, hj⟩ | hlost⟩
      · refine Or.inl ⟨j, ?_, hj⟩
        rintro rfl
        exact hne (Option.some.inj (hj.symm.trans hi))
      · exact Or.inr hlost
    · rintro (⟨j, hne, hj⟩ | hlost)
      · refine ⟨?_, Or.inl ⟨j, hj⟩⟩
        rintro rfl
        exact hne (hinv.unique j i b hj hi)
      · refine ⟨?_, Or.inr hlost⟩
        rintro rfl
        exact hinv.apart i b hi hlost

omit [DecidableEq ι] [DecidableEq α] in
theorem Inv.lose (hinv : h.Inv) {a : α} (ha : a ∉ h.opened) :
    Inv ⟨h.held, a :: h.opened, a :: h.lost⟩ := by
  constructor
  · exact List.nodup_cons.mpr ⟨ha, hinv.nodup⟩
  · exact hinv.unique
  · intro j b hj
    rw [List.mem_cons, not_or]
    refine ⟨?_, hinv.apart j b hj⟩
    rintro rfl
    exact ha (hinv.opened_of_held hj)
  · intro b
    rw [List.mem_cons, List.mem_cons, hinv.covered b]
    exact or_left_comm

/-- The invariant rule. -/
theorem Step.inv (hstep : Step h h') (hinv : h.Inv) : h'.Inv := by
  cases hstep with
  | keep => exact hinv
  | acquire i a hi ha => exact hinv.acquire hi ha
  | release i a hi => exact hinv.release hi
  | lose a ha => exact hinv.lose ha

end Handles

end Saturn
