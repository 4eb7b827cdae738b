import Mathlib.Data.List.Basic

/-!
# `std::set` with a comparator

A `std::set` as the list of its elements in iteration order. The operations go by the comparator
alone, as the container does: they find what they look for only if the list is ordered by it.
-/

namespace Saturn

namespace StdSet

section Operations

variable {α : Type*} (lt : α → α → Bool)

/-- `insert(a)`: nothing changes if there is an equivalent element. -/
def insert (a : α) : List α → List α
  | [] => [a]
  | x :: l => if lt x a then x :: insert a l else if lt a x then a :: x :: l else x :: l

/-- `insert(a).first == begin()` -/
def isFront (a : α) (l : List α) : Bool :=
  match l with
  | [] => true
  | x :: _ => !lt x a

/-- `find(a)`. -/
def find (a : α) : List α → Option α
  | [] => none
  | x :: l => if lt x a then find a l else if lt a x then none else some x

/-- `erase(find(a))`, where there is something to find. -/
def erase (a : α) : List α → List α
  | [] => []
  | x :: l => if lt x a then x :: erase a l else if lt a x then x :: l else l

end Operations

section Bounds

variable {α : Type*} (after : α → Bool)

/-- The elements in `[begin(), upper_bound(a))`, where `after x` is whether `a` comes before `x`. -/
def below (l : List α) : List α := l.takeWhile fun x => !after x

/-- The elements in `[upper_bound(a), end())`. -/
def above (l : List α) : List α := l.dropWhile fun x => !after x

@[simp] theorem below_append_above (l : List α) : below after l ++ above after l = l :=
  List.takeWhile_append_dropWhile

theorem below_sublist (l : List α) : (below after l).Sublist l := List.takeWhile_sublist _

theorem above_sublist (l : List α) : (above after l).Sublist l := List.dropWhile_sublist _

/-- Where everything behind an element after the bound is after it too, the bound cuts the set in
two. -/
theorem below_eq_filter {l : List α} (h : l.Pairwise fun x y => after x = true → after y = true) :
    below after l = l.filter fun x => !after x := by
  induction l with
  | nil => rfl
  | cons x l ih =>
      obtain ⟨hx, hl⟩ := List.pairwise_cons.mp h
      rw [below, List.takeWhile_cons, List.filter_cons]
      cases hafter : after x with
      | false => exact congrArg _ (ih hl)
      | true =>
          refine (List.filter_eq_nil_iff.mpr fun y hy => ?_).symm
          rw [hx y hy hafter]
          exact Bool.false_ne_true

theorem above_eq_filter {l : List α} (h : l.Pairwise fun x y => after x = true → after y = true) :
    above after l = l.filter after := by
  induction l with
  | nil => rfl
  | cons x l ih =>
      obtain ⟨hx, hl⟩ := List.pairwise_cons.mp h
      rw [above, List.dropWhile_cons, List.filter_cons]
      cases hafter : after x with
      | false => exact ih hl
      | true => exact congrArg (x :: ·) (List.filter_eq_self.mpr fun y hy => hx y hy hafter).symm

end Bounds

section Order

variable {α : Type*} {lt : α → α → Bool}

/-- The comparator orders the elements, and no two of them are equivalent. -/
structure IsOrder (lt : α → α → Bool) : Prop where
  irrefl : ∀ a, lt a a = false
  trans : ∀ a b c, lt a b = true → lt b c = true → lt a c = true
  total : ∀ a b, lt a b = false → lt b a = false → a = b

/-- The elements stand in their order. -/
def Sorted (lt : α → α → Bool) (l : List α) : Prop := l.Pairwise fun x y => lt x y = true

theorem sorted_nil : Sorted lt [] := List.Pairwise.nil

theorem sorted_cons {x : α} {l : List α} :
    Sorted lt (x :: l) ↔ (∀ y ∈ l, lt x y = true) ∧ Sorted lt l := List.pairwise_cons

theorem Sorted.sublist {l l' : List α} (h : Sorted lt l) (hsub : l'.Sublist l) : Sorted lt l' :=
  List.Pairwise.sublist hsub h

/-- The order of a list depends only on how its elements compare. -/
theorem Sorted.congr {lt' : α → α → Bool} {l : List α} (h : Sorted lt l)
    (hlt : ∀ x ∈ l, ∀ y ∈ l, lt' x y = lt x y) : Sorted lt' l :=
  List.Pairwise.imp_of_mem (fun {x y} hx hy hxy => by rw [hlt x hx y hy]; exact hxy) h

theorem mem_insert (ho : IsOrder lt) {a y : α} {l : List α} :
    y ∈ insert lt a l ↔ y = a ∨ y ∈ l := by
  induction l with
  | nil => simp [insert]
  | cons x l ih =>
      rw [insert]
      by_cases hx : lt x a = true
      · rw [if_pos hx, List.mem_cons, ih, List.mem_cons]
        exact or_left_comm
      · rw [if_neg hx]
        by_cases ha : lt a x = true
        · rw [if_pos ha, List.mem_cons]
        · obtain rfl : x = a := ho.total x a (by simpa using hx) (by simpa using ha)
          rw [if_neg ha, List.mem_cons]
          exact ⟨Or.inr, fun h => h.elim Or.inl id⟩

theorem sorted_insert (ho : IsOrder lt) (a : α) {l : List α} (h : Sorted lt l) :
    Sorted lt (insert lt a l) := by
  induction l with
  | nil => exact sorted_cons.mpr ⟨fun y hy => absurd hy List.not_mem_nil, sorted_nil⟩
  | cons x l ih =>
      obtain ⟨hx, hl⟩ := sorted_cons.mp h
      rw [insert]
      by_cases hxa : lt x a = true
      · rw [if_pos hxa]
        refine sorted_cons.mpr ⟨fun y hy => ?_, ih hl⟩
        rcases (mem_insert ho).mp hy with rfl | hy
        · exact hxa
        · exact hx y hy
      · rw [if_neg hxa]
        by_cases hax : lt a x = true
        · rw [if_pos hax]
          refine sorted_cons.mpr ⟨fun y hy => ?_, h⟩
          rcases List.mem_cons.mp hy with rfl | hy
          · exact hax
          · exact ho.trans a x y hax (hx y hy)
        · rw [if_neg hax]
          exact h

theorem eq_of_find (ho : IsOrder lt) {a x : α} {l : List α} (h : find lt a l = some x) :
    x = a ∧ a ∈ l := by
  induction l with
  | nil => cases h
  | cons y l ih =>
      rw [find] at h
      split at h
      · obtain ⟨hx, ha⟩ := ih h
        exact ⟨hx, List.mem_cons_of_mem _ ha⟩
      · split at h
        · cases h
        · rename_i hya hay
          obtain rfl := Option.some.inj h
          obtain rfl := ho.total y a (by simpa using hya) (by simpa using hay)
          exact ⟨rfl, List.mem_cons_self⟩

/-- In an ordered set `find` finds exactly the elements. -/
theorem find_eq (ho : IsOrder lt) [DecidableEq α] {a : α} {l : List α} (h : Sorted lt l) :
    find lt a l = if a ∈ l then some a else none := by
  by_cases ha : a ∈ l
  · rw [if_pos ha]
    induction l with
    | nil => exact absurd ha List.not_mem_nil
    | cons x l ih =>
        obtain ⟨hx, hl⟩ := sorted_cons.mp h
        rw [find]
        rcases List.mem_cons.mp ha with rfl | ha
        · rw [ho.irrefl]
          rfl
        · rw [if_pos (hx a ha), ih hl ha]
  · rw [if_neg ha]
    cases hfind : find lt a l with
    | none => rfl
    | some x => exact absurd (eq_of_find ho hfind).2 ha

theorem erase_sublist (a : α) (l : List α) : (erase lt a l).Sublist l := by
  induction l with
  | nil => exact List.Sublist.slnil
  | cons x l ih =>
      rw [erase]
      split
      · exact ih.cons_cons x
      · split
        · exact List.Sublist.refl _
        · exact List.sublist_cons_self x l

/-- Of an ordered set, erasing what was found leaves the others. -/
theorem mem_erase (ho : IsOrder lt) {a y : α} {l : List α} (h : Sorted lt l) (ha : a ∈ l) :
    y ∈ erase lt a l ↔ y ∈ l ∧ y ≠ a := by
  induction l with
  | nil => exact absurd ha List.not_mem_nil
  | cons x l ih =>
      obtain ⟨hx, hl⟩ := sorted_cons.mp h
      rw [erase]
      rcases List.mem_cons.mp ha with rfl | ha
      · rw [ho.irrefl]
        have hne : y ∈ l → y ≠ a := by
          rintro hy rfl
          have hself := hx y hy
          rw [ho.irrefl] at hself
          cases hself
        simp only [List.mem_cons]
        constructor
        · intro hy
          exact ⟨Or.inr hy, hne hy⟩
        · rintro ⟨rfl | hy, hya⟩
          · exact absurd rfl hya
          · exact hy
      · have hxa : x ≠ a := by
          rintro rfl
          have hself := hx x ha
          rw [ho.irrefl] at hself
          cases hself
        rw [if_pos (hx a ha), List.mem_cons, ih hl ha, List.mem_cons]
        constructor
        · rintro (rfl | ⟨hy, hya⟩)
          · exact ⟨Or.inl rfl, hxa⟩
          · exact ⟨Or.inr hy, hya⟩
        · rintro ⟨rfl | hy, hya⟩
          · exact Or.inl rfl
          · exact Or.inr ⟨hy, hya⟩

theorem Sorted.nodup (ho : IsOrder lt) {l : List α} (h : Sorted lt l) : l.Nodup :=
  List.Pairwise.imp (fun {x y} hxy => by
    rintro rfl
    rw [ho.irrefl] at hxy
    cases hxy) h

end Order

end StdSet

end Saturn
