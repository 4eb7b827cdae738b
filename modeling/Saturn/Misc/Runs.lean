import Mathlib.Data.List.TakeWhile

/-!
# The run in front of a separator

Scanners read up to the first byte that does not belong to what they read. These lemmas say what is
taken and what is left where that byte is known.
-/

namespace Saturn

variable {α : Type*} {p : α → Bool} {c : α} {u : List α}

theorem takeWhile_run (hu : ∀ a ∈ u, p a = true) (hc : p c = false) (v : List α) :
    (u ++ c :: v).takeWhile p = u := by
  rw [List.takeWhile_append_of_pos hu, List.takeWhile_cons_of_neg (by simp [hc]), List.append_nil]

theorem dropWhile_run (hu : ∀ a ∈ u, p a = true) (hc : p c = false) (v : List α) :
    (u ++ c :: v).dropWhile p = c :: v := by
  rw [List.dropWhile_append_of_pos hu, List.dropWhile_cons_of_neg (by simp [hc])]

section Separator

variable [DecidableEq α]

theorem decide_ne_of_not_mem (h : c ∉ u) : ∀ a ∈ u, decide (a ≠ c) = true := by
  intro a ha
  rw [decide_eq_true_eq]
  rintro rfl
  exact h ha

theorem takeWhile_ne_run (h : c ∉ u) (v : List α) : (u ++ c :: v).takeWhile (· ≠ c) = u :=
  takeWhile_run (decide_ne_of_not_mem h) (by simp) v

theorem dropWhile_ne_run (h : c ∉ u) (v : List α) : (u ++ c :: v).dropWhile (· ≠ c) = c :: v :=
  dropWhile_run (decide_ne_of_not_mem h) (by simp) v

theorem takeWhile_ne_self (h : c ∉ u) : u.takeWhile (· ≠ c) = u :=
  List.takeWhile_eq_self_iff.mpr (decide_ne_of_not_mem h)

theorem bne_of_not_mem (h : c ∉ u) : ∀ a ∈ u, (a != c) = true := by
  intro a ha
  rw [bne_iff_ne]
  rintro rfl
  exact h ha

theorem takeWhile_bne_run (h : c ∉ u) (v : List α) : (u ++ c :: v).takeWhile (· != c) = u :=
  takeWhile_run (bne_of_not_mem h) (by simp) v

theorem dropWhile_bne_run (h : c ∉ u) (v : List α) : (u ++ c :: v).dropWhile (· != c) = c :: v :=
  dropWhile_run (bne_of_not_mem h) (by simp) v

/-- The run in front of the first `c` is determined. -/
theorem run_unique {u' v v' : List α} (h : c ∉ u) (h' : c ∉ u') (heq : u ++ c :: v = u' ++ c :: v') :
    u = u' := by
  rw [← takeWhile_ne_run h v, heq, takeWhile_ne_run h']

end Separator

end Saturn
