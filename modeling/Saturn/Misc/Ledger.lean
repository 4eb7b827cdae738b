import Mathlib.Data.List.Basic
import Mathlib.Data.List.Perm.Basic

/-!
# What goes through a work list

A list to whose end items are put, and from whose middle workers take them. The ledger keeps what was
put and what was taken; these rules say what one operation preserves of the balance between the ledger
and the list, and of the order within one kind of items.
-/

namespace Saturn

variable {α β : Type*}

/-- What was put into the list, and what was taken out with the worker who took it, both in order. -/
structure Ledger (α β : Type*) where
  put : List α
  taken : List (β × α)
  deriving Repr, DecidableEq

namespace Ledger

/-- Nothing has been put or taken. -/
def empty : Ledger α β := ⟨[], []⟩

/-- A step puts items, and may take one. -/
def record (l : Ledger α β) (take : Option (β × α)) (items : List α) : Ledger α β :=
  ⟨l.put ++ items, l.taken ++ take.toList⟩

/-- Every item that was put is taken once or still in the list, where the order is that of the putting;
and no worker has taken an item that it may not have. -/
structure Balances (may : β → α → Prop) (l : Ledger α β) (queue : List α) : Prop where
  conserved : l.put.Perm (l.taken.map Prod.snd ++ queue)
  ordered : queue.Sublist l.put
  allowed : ∀ t ∈ l.taken, may t.1 t.2

/-- The items of a kind leave the list in the order in which they were put into it. -/
def InOrder (kind : α → Bool) (l : Ledger α β) (queue : List α) : Prop :=
  (l.taken.map Prod.snd).filter kind ++ queue.filter kind = l.put.filter kind

variable {may : β → α → Prop} {kind : α → Bool} {l : Ledger α β} {queue pre post : List α} {x : α}
  {b : β}

theorem balances_empty : Balances may (empty : Ledger α β) [] :=
  ⟨List.Perm.refl _, List.Sublist.refl _, fun _ ht => absurd ht List.not_mem_nil⟩

theorem inOrder_empty : InOrder kind (empty : Ledger α β) [] := rfl

theorem Balances.put (h : Balances may l queue) (items : List α) :
    Balances may (l.record none items) (queue ++ items) where
  conserved := by
    simp only [record, Option.toList_none, List.append_nil, ← List.append_assoc]
    exact h.conserved.append_right items
  ordered := h.ordered.append (List.Sublist.refl items)
  allowed := by simpa [record] using h.allowed

theorem InOrder.put (h : InOrder kind l queue) (items : List α) :
    InOrder kind (l.record none items) (queue ++ items) := by
  simp only [InOrder, record, Option.toList_none, List.append_nil, List.filter_append]
  rw [← List.append_assoc, h]

theorem Balances.take (h : Balances may l (pre ++ x :: post)) (hmay : may b x) :
    Balances may (l.record (some (b, x)) []) (pre ++ post) where
  conserved := by
    simp only [record, Option.toList_some, List.append_nil, List.map_append, List.map_cons,
      List.map_nil, List.append_assoc, List.singleton_append]
    exact h.conserved.trans (List.perm_middle.append_left _)
  ordered := by
    simp only [record, List.append_nil]
    exact ((List.sublist_cons_self x post).append_left pre).trans h.ordered
  allowed := by
    intro t ht
    rcases List.mem_append.mp ht with ht | ht
    · exact h.allowed t ht
    · rw [List.mem_singleton.mp ht]
      exact hmay

/-- Taking the first item of its kind keeps the order within the kind. -/
theorem InOrder.take (h : InOrder kind l (pre ++ x :: post))
    (hfirst : kind x = true → ∀ y ∈ pre, kind y = false) :
    InOrder kind (l.record (some (b, x)) []) (pre ++ post) := by
  simp only [InOrder, record, Option.toList_some, List.append_nil, List.map_append, List.map_cons,
    List.map_nil, List.filter_append]
  rw [← h, List.filter_append]
  cases hx : kind x with
  | false => simp [hx]
  | true =>
      have hnone : pre.filter kind = [] := by
        rw [List.filter_eq_nil_iff]
        intro y hy
        rw [hfirst hx y hy]
        exact Bool.false_ne_true
      simp [hx, hnone]

end Ledger

end Saturn
