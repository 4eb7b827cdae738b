import Mathlib.Algebra.BigOperators.Group.List.Basic
import Mathlib.Tactic.Abel

/-!
# Updating one place of a list

A machine keeps its threads and its objects in lists and a step updates a few places of them. These
lemmas say what an update changes: the places read back, sums over the list, and the elements
collected from it.
-/

namespace Saturn

variable {α β : Type*}

theorem getElem?_set_of_some {l : List α} {i : Nat} {x : α} (hx : l[i]? = some x) (y : α)
    (j : Nat) : (l.set i y)[j]? = if j = i then some y else l[j]? := by
  obtain ⟨hi, -⟩ := List.getElem?_eq_some_iff.mp hx
  rw [List.getElem?_set]
  split
  · rename_i h
    subst h
    simp
  · rename_i h
    rw [if_neg (Ne.symm h)]

theorem set_of_getElem? {l : List α} {i : Nat} {x : α} (hx : l[i]? = some x) : l.set i x = l := by
  obtain ⟨hi, rfl⟩ := List.getElem?_eq_some_iff.mp hx
  exact List.set_getElem_self hi

theorem getElem?_concat_cases {l : List α} {x y : α} {i : Nat} (h : (l ++ [x])[i]? = some y) :
    l[i]? = some y ∨ y = x := by
  rw [List.getElem?_append] at h
  split at h
  · exact Or.inl h
  · exact Or.inr (List.mem_singleton.mp (List.mem_of_getElem? h))

theorem modify_of_getElem? {l : List α} {i : Nat} {x : α} (hx : l[i]? = some x) (f : α → α) :
    l.modify i f = l.set i (f x) := by
  refine List.ext_getElem? fun j => ?_
  rw [List.getElem?_modify, getElem?_set_of_some hx]
  by_cases hij : i = j
  · subst hij
    rw [hx, if_pos rfl]
    simp
  · rw [if_neg (Ne.symm hij)]
    simp [hij]

/-- Some place of the list other than `i` meets `P`. -/
def Elsewhere (l : List α) (i : Nat) (P : α → Prop) : Prop := ∃ j z, j ≠ i ∧ l[j]? = some z ∧ P z

theorem exists_mem_iff {l : List α} {i : Nat} {x : α} (hx : l[i]? = some x) {P : α → Prop} :
    (∃ z ∈ l, P z) ↔ P x ∨ Elsewhere l i P := by
  constructor
  · rintro ⟨z, hz, hP⟩
    obtain ⟨j, hj⟩ := List.mem_iff_getElem?.mp hz
    by_cases hji : j = i
    · subst hji
      obtain rfl := Option.some.inj (hx.symm.trans hj)
      exact Or.inl hP
    · exact Or.inr ⟨j, z, hji, hj, hP⟩
  · rintro (hP | ⟨j, z, -, hj, hP⟩)
    · exact ⟨x, List.mem_of_getElem? hx, hP⟩
    · exact ⟨z, List.mem_of_getElem? hj, hP⟩

/-- An update changes what holds of some place by what holds of the new element. -/
theorem exists_mem_set_iff {l : List α} {i : Nat} {x : α} (hx : l[i]? = some x) (y : α)
    {P : α → Prop} : (∃ z ∈ l.set i y, P z) ↔ P y ∨ Elsewhere l i P := by
  have hy : (l.set i y)[i]? = some y := by rw [getElem?_set_of_some hx, if_pos rfl]
  rw [exists_mem_iff hy]
  refine or_congr_right (exists_congr fun j => exists_congr fun z => and_congr_right fun hji => ?_)
  rw [getElem?_set_of_some hx, if_neg hji]

theorem elsewhere_iff {l : List α} {i : Nat} {P : α → Prop} :
    Elsewhere l i P ↔ ∃ z ∈ l.eraseIdx i, P z := by
  constructor
  · rintro ⟨j, z, hji, hj, hP⟩
    exact ⟨z, List.mem_eraseIdx_iff_getElem?.mpr ⟨j, hji, hj⟩, hP⟩
  · rintro ⟨z, hz, hP⟩
    obtain ⟨j, hji, hj⟩ := List.mem_eraseIdx_iff_getElem?.mp hz
    exact ⟨j, z, hji, hj, hP⟩

/-- The same for what holds of a place and its element. -/
theorem exists_getElem?_set_iff {l : List α} {i : Nat} {x : α} (hx : l[i]? = some x) (y : α)
    {P : Nat → α → Prop} : (∃ j z, (l.set i y)[j]? = some z ∧ P j z) ↔
      P i y ∨ ∃ j z, j ≠ i ∧ l[j]? = some z ∧ P j z := by
  simp only [getElem?_set_of_some hx]
  constructor
  · rintro ⟨j, z, hj, hP⟩
    by_cases hji : j = i
    · rw [if_pos hji] at hj
      cases hj
      exact Or.inl (hji ▸ hP)
    · rw [if_neg hji] at hj
      exact Or.inr ⟨j, z, hji, hj, hP⟩
  · rintro (hP | ⟨j, z, hji, hj, hP⟩)
    · exact ⟨i, y, if_pos rfl, hP⟩
    · exact ⟨j, z, (if_neg hji).trans hj, hP⟩

theorem exists_getElem?_iff {l : List α} {i : Nat} {x : α} (hx : l[i]? = some x)
    {P : Nat → α → Prop} : (∃ j z, l[j]? = some z ∧ P j z) ↔
      P i x ∨ ∃ j z, j ≠ i ∧ l[j]? = some z ∧ P j z := by
  rw [← exists_getElem?_set_iff hx x, set_of_getElem? hx]

theorem forall_mem_set {l : List α} {i : Nat} {y : α} {P : α → Prop} (hy : P y)
    (h : ∀ z ∈ l, P z) : ∀ z ∈ l.set i y, P z := by
  intro z hz
  rcases List.mem_or_eq_of_mem_set hz with hz | rfl
  · exact h z hz
  · exact hy

theorem Elsewhere.imp {l : List α} {i : Nat} {P Q : α → Prop} (h : Elsewhere l i P)
    (hPQ : ∀ z, P z → Q z) : Elsewhere l i Q := by
  obtain ⟨j, z, hji, hj, hP⟩ := h
  exact ⟨j, z, hji, hj, hPQ z hP⟩

theorem sum_map_set_add (f : α → Nat) : ∀ {l : List α} {i : Nat} {x : α} (y : α),
    l[i]? = some x → ((l.set i y).map f).sum + f x = (l.map f).sum + f y := by
  intro l
  induction l with
  | nil => intro i x y hx; simp at hx
  | cons a l ih =>
      intro i x y hx
      cases i with
      | zero =>
          obtain rfl : a = x := by simpa using hx
          simp only [List.set_cons_zero, List.map_cons, List.sum_cons]
          omega
      | succ i =>
          have htail := ih (i := i) (x := x) y (by simpa using hx)
          simp only [List.set_cons_succ, List.map_cons, List.sum_cons]
          omega

/-- A count over the list changes by what the updated place counts for. -/
theorem countP_set_add (p : α → Bool) {l : List α} {i : Nat} {x : α} (y : α)
    (hx : l[i]? = some x) : (l.set i y).countP p + (p x).toNat = l.countP p + (p y).toNat := by
  have hcount : ∀ l : List α, l.countP p = (l.map fun z => (p z).toNat).sum := by
    intro l
    induction l with
    | nil => rfl
    | cons a l ih =>
        rw [List.countP_cons, List.map_cons, List.sum_cons, ih]
        cases p a with
        | false => simp
        | true =>
            simp
            omega
  rw [hcount, hcount]
  exact sum_map_set_add (fun z => (p z).toNat) y hx

theorem countP_set_eraseIdx (p : α → Bool) : ∀ {l : List α} {i : Nat} {x : α},
    l[i]? = some x → ∀ y, (l.set i y).countP p = (l.eraseIdx i).countP p + (p y).toNat := by
  intro l
  induction l with
  | nil => intro i x hx; simp at hx
  | cons a l ih =>
      intro i x hx y
      cases i with
      | zero =>
          rw [List.set_cons_zero, List.eraseIdx_cons_zero, List.countP_cons]
          cases p y <;> rfl
      | succ i =>
          have htail := ih (i := i) (x := x) (by simpa using hx) y
          rw [List.set_cons_succ, List.eraseIdx_cons_succ, List.countP_cons, List.countP_cons, htail]
          omega

/-- A sum over the list changes by what the updated place contributes. The summand may change too,
as long as the other places contribute what they did. -/
theorem sum_map_set {f g : α → Int} : ∀ {l : List α} {i : Nat} {x : α} (y : α), l[i]? = some x →
    (∀ (j : Nat) (z : α), j ≠ i → l[j]? = some z → g z = f z) →
    ((l.set i y).map g).sum = (l.map f).sum - f x + g y := by
  intro l
  induction l with
  | nil => intro i x y hx; simp at hx
  | cons a l ih =>
      intro i x y hx hsame
      cases i with
      | zero =>
          have hrest : l.map g = l.map f := by
            refine List.map_congr_left fun z hz => ?_
            obtain ⟨j, hj⟩ := List.mem_iff_getElem?.mp hz
            exact hsame (j + 1) z (Nat.succ_ne_zero j) (by simpa using hj)
          obtain rfl : a = x := by simpa using hx
          simp only [List.set_cons_zero, List.map_cons, List.sum_cons, hrest]
          abel
      | succ i =>
          have hhead : g a = f a := hsame 0 a (Nat.succ_ne_zero i).symm (by simp)
          have htail := ih (i := i) (x := x) y (by simpa using hx) fun j z hj hz =>
            hsame (j + 1) z (by omega) (by simpa using hz)
          simp only [List.set_cons_succ, List.map_cons, List.sum_cons, hhead, htail]
          abel

theorem count_cons_eq_add [DecidableEq α] (a x : α) (l : List α) :
    (a :: l).count x = [a].count x + l.count x := by
  rw [← List.count_append, List.singleton_append]

/-- What is collected from the list changes by what comes from the updated place. -/
theorem flatMap_set_perm {f : α → List β} : ∀ {l : List α} {i : Nat} {x : α} (y : α),
    l[i]? = some x → ((l.set i y).flatMap f ++ f x).Perm (l.flatMap f ++ f y) := by
  intro l
  induction l with
  | nil => intro i x y hx; simp at hx
  | cons a l ih =>
      intro i x y hx
      cases i with
      | zero =>
          obtain rfl : a = x := by simpa using hx
          simp only [List.set_cons_zero, List.flatMap_cons]
          rw [List.append_assoc (f a)]
          exact List.perm_append_comm.trans (List.perm_append_comm.append_left _)
      | succ i =>
          simp only [List.set_cons_succ, List.flatMap_cons, List.append_assoc]
          exact (ih y (by simpa using hx)).append_left _

end Saturn
