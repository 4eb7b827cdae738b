import Mathlib.Data.List.Infix
import Saturn.Misc.StdSet

/-!
# `std::set` with a comparator that looks at a key

Elements with one key are equivalent for the container, though they may differ in what else they hold:
of these it keeps the one that was inserted first.
-/

namespace Saturn

namespace StdSet

variable {α κ : Type*}

/-- The comparator by a key. -/
def byKey (lt : κ → κ → Bool) (key : α → κ) (x y : α) : Bool := lt (key x) (key y)

/-- The set after insertions of these elements, one after the other, into the empty one. -/
def ofList (lt : α → α → Bool) (l : List α) : List α := l.foldl (fun s a => insert lt a s) []

theorem ofList_concat (lt : α → α → Bool) (l : List α) (a : α) :
    ofList lt (l ++ [a]) = insert lt a (ofList lt l) := by
  simp [ofList]

theorem insert_of_above {lt : α → α → Bool} {a : α} {l : List α} (h : ∀ x ∈ l, lt x a = true) :
    insert lt a l = l ++ [a] := by
  induction l with
  | nil => rfl
  | cons x l ih =>
      rw [insert, if_pos (h x List.mem_cons_self), ih fun y hy => h y (List.mem_cons_of_mem _ hy)]
      rfl

/-- What is inserted in its order stays as it is. -/
theorem ofList_sorted {lt : α → α → Bool} {l : List α} (h : Sorted lt l) : ofList lt l = l := by
  induction l using List.reverseRecOn with
  | nil => rfl
  | append_singleton l a ih =>
      obtain ⟨hl, -, hlt⟩ := List.pairwise_append.mp h
      rw [ofList_concat, ih hl, insert_of_above fun x hx => hlt x hx a List.mem_cons_self]

variable {lt : κ → κ → Bool} {key : α → κ}

/-- The keys of a set are a set. -/
theorem map_insert (a : α) (l : List α) :
    (insert (byKey lt key) a l).map key = insert lt (key a) (l.map key) := by
  induction l with
  | nil => rfl
  | cons x l ih =>
      rw [insert, byKey, byKey, List.map_cons, insert]
      split
      · rw [List.map_cons, ih]
      · split <;> simp

theorem map_ofList (l : List α) : (ofList (byKey lt key) l).map key = ofList lt (l.map key) := by
  induction l using List.reverseRecOn with
  | nil => rfl
  | append_singleton l a ih =>
      rw [List.map_append, List.map_singleton, ofList_concat, ofList_concat, map_insert, ih]

theorem sorted_ofList (ho : IsOrder lt) (l : List κ) : Sorted lt (ofList lt l) := by
  induction l using List.reverseRecOn with
  | nil => exact sorted_nil
  | append_singleton l a ih =>
      rw [ofList_concat]
      exact sorted_insert ho a ih

theorem mem_ofList (ho : IsOrder lt) {k : κ} {l : List κ} : k ∈ ofList lt l ↔ k ∈ l := by
  induction l using List.reverseRecOn with
  | nil => exact Iff.rfl
  | append_singleton l a ih =>
      rw [ofList_concat, mem_insert ho, ih, List.mem_append, List.mem_singleton]
      exact or_comm

theorem sorted_byKey {l : List α} : Sorted (byKey lt key) l ↔ Sorted lt (l.map key) := by
  rw [Sorted, Sorted, List.pairwise_map]
  rfl

/-- An element is inserted unless there is one with its key. -/
theorem mem_insert_byKey (ho : IsOrder lt) {a x : α} {l : List α} (h : Sorted lt (l.map key)) :
    x ∈ insert (byKey lt key) a l ↔ x ∈ l ∨ x = a ∧ key a ∉ l.map key := by
  induction l with
  | nil => simp [insert]
  | cons y l ih =>
      rw [List.map_cons, sorted_cons] at h
      obtain ⟨hy, hl⟩ := h
      rw [insert, byKey, byKey, List.map_cons]
      by_cases hya : lt (key y) (key a) = true
      · have hne : key a ≠ key y := by
          intro heq
          rw [heq, ho.irrefl] at hya
          cases hya
        rw [if_pos hya, List.mem_cons, ih hl, List.mem_cons, or_assoc]
        simp [hne]
      · rw [if_neg hya]
        by_cases hay : lt (key a) (key y) = true
        · have hnew : key a ∉ key y :: l.map key := by
            intro hmem
            rcases List.mem_cons.mp hmem with heq | hmem
            · rw [heq, ho.irrefl] at hay
              cases hay
            · exact hya (hy _ hmem)
          rw [if_pos hay, List.mem_cons]
          simp [hnew, or_comm]
        · have heq : key y = key a := ho.total _ _ (by simpa using hya) (by simpa using hay)
          rw [if_neg hay]
          simp [heq]

/-- The set has, of the elements with one key, the one that was inserted first. -/
theorem mem_ofList_byKey (ho : IsOrder lt) {x : α} {l : List α} :
    x ∈ ofList (byKey lt key) l ↔
      ∃ before after, l = before ++ x :: after ∧ key x ∉ before.map key := by
  induction l using List.reverseRecOn with
  | nil => simp [ofList]
  | append_singleton l a ih =>
      have hsorted : Sorted lt ((ofList (byKey lt key) l).map key) := by
        rw [map_ofList]
        exact sorted_ofList ho _
      have hkeys : key a ∉ (ofList (byKey lt key) l).map key ↔ key a ∉ l.map key := by
        rw [map_ofList, mem_ofList ho]
      rw [ofList_concat, mem_insert_byKey ho hsorted, ih, hkeys]
      constructor
      · rintro (⟨before, after, rfl, hnew⟩ | ⟨rfl, hnew⟩)
        · exact ⟨before, after ++ [a], by simp, hnew⟩
        · exact ⟨l, [], rfl, hnew⟩
      · rintro ⟨before, after, hl, hnew⟩
        cases after using List.reverseRecOn with
        | nil =>
            obtain ⟨rfl, hlast⟩ := List.append_inj' hl rfl
            obtain rfl : a = x := by simpa using hlast
            exact Or.inr ⟨rfl, hnew⟩
        | append_singleton after b _ =>
            rw [← List.cons_append, ← List.append_assoc] at hl
            obtain ⟨rfl, -⟩ := List.append_inj' hl rfl
            exact Or.inl ⟨before, after, rfl, hnew⟩

end StdSet

end Saturn
