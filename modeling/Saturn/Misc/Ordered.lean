import Mathlib.Data.List.Nodup

/-!
# Ordered tables

An ordered table has at most one entry for each key. To put a key enters it at the end, where it
replaces the entry it had; to drop a key removes its entry. What a table holds can be told from the
history of its changes alone: the entries put last for their keys and not dropped since, by age.
-/

namespace Saturn

namespace Ordered

variable {κ τ : Type*}

/-- A change of a table. -/
inductive Op (κ τ : Type*)
  | put (key : κ) (value : τ)
  | drop (key : κ)

/-- The key that a change is about. -/
def Op.key : Op κ τ → κ
  | .put key _ => key
  | .drop key => key

/-- The entry of the key behind a change. -/
def Op.value : Op κ τ → Option τ
  | .put _ value => some value
  | .drop _ => none

/-- The entry that an operation leaves. -/
def Op.entries : Op κ τ → List (κ × τ)
  | .put key value => [(key, value)]
  | .drop _ => []

theorem key_of_mem_entries {op : Op κ τ} {e : κ × τ} (h : e ∈ op.entries) : e.1 = op.key := by
  cases op with
  | put key value => simp_all [Op.entries, Op.key]
  | drop key => simp [Op.entries] at h

variable [DecidableEq κ]

/-- The table without the first entry of the key. -/
def erase (key : κ) (table : List (κ × τ)) : List (κ × τ) := table.eraseP fun e => e.1 = key

/-- The entry of the key goes, and a new one comes behind the others. -/
def apply (table : List (κ × τ)) (op : Op κ τ) : List (κ × τ) := erase op.key table ++ op.entries

/-- The value that the table has for the key. -/
def get (key : κ) (table : List (κ × τ)) : Option τ :=
  (table.find? fun e => e.1 = key).map Prod.snd

/-- What a history, oldest change first, leaves: a change counts if its key is not touched again. -/
def live : List (Op κ τ) → List (κ × τ)
  | [] => []
  | op :: later => if ∃ o ∈ later, o.key = op.key then live later else op.entries ++ live later

@[simp] theorem erase_nil (key : κ) : erase key ([] : List (κ × τ)) = [] := rfl

theorem erase_cons_self (e : κ × τ) (table : List (κ × τ)) : erase e.1 (e :: table) = table := by
  simp [erase]

theorem erase_cons_of_ne {key : κ} {e : κ × τ} (h : e.1 ≠ key) (table : List (κ × τ)) :
    erase key (e :: table) = e :: erase key table := by
  simp [erase, h]

theorem erase_of_forall_ne {key : κ} {table : List (κ × τ)} (h : ∀ e ∈ table, e.1 ≠ key) :
    erase key table = table := by
  apply List.eraseP_of_forall_not
  simpa using h

theorem touched_of_mem_live {h : List (Op κ τ)} {e : κ × τ} (he : e ∈ live h) :
    ∃ op ∈ h, op.key = e.1 := by
  induction h with
  | nil => simp [live] at he
  | cons op later ih =>
      have hlater : e ∈ live later → ∃ o ∈ op :: later, o.key = e.1 := by
        intro he
        obtain ⟨o, ho, hkey⟩ := ih he
        exact ⟨o, List.mem_cons_of_mem _ ho, hkey⟩
      unfold live at he
      split at he
      · exact hlater he
      · rcases List.mem_append.mp he with he | he
        · exact ⟨op, List.mem_cons_self, (key_of_mem_entries he).symm⟩
        · exact hlater he

theorem erase_live_of_untouched {key : κ} {h : List (Op κ τ)} (hkey : ¬ ∃ op ∈ h, op.key = key) :
    erase key (live h) = live h := by
  apply erase_of_forall_ne
  intro e he heq
  obtain ⟨op, hop, hk⟩ := touched_of_mem_live he
  exact hkey ⟨op, hop, hk.trans heq⟩

/-- Each change of a table keeps it what its history leaves. -/
theorem live_concat (h : List (Op κ τ)) (op : Op κ τ) : live (h ++ [op]) = apply (live h) op := by
  induction h with
  | nil => simp [live, apply]
  | cons first later ih =>
      rw [List.cons_append, live, live, ih]
      by_cases htouched : ∃ o ∈ later, o.key = first.key
      · obtain ⟨o, ho, hkey⟩ := htouched
        rw [if_pos ⟨o, List.mem_append_left _ ho, hkey⟩, if_pos ⟨o, ho, hkey⟩]
      · rw [if_neg htouched]
        by_cases hop : op.key = first.key
        · -- the first change ends here: its entry is the one that is erased
          rw [if_pos ⟨op, by simp, hop⟩, apply, apply, hop, erase_live_of_untouched htouched]
          cases first with
          | put key value => simp [Op.entries, Op.key, erase]
          | drop key => rw [Op.entries, List.nil_append, erase_live_of_untouched htouched]
        · have hlater : ¬ ∃ o ∈ later ++ [op], o.key = first.key := by
            rintro ⟨o, ho, hkey⟩
            rcases List.mem_append.mp ho with ho | ho
            · exact htouched ⟨o, ho, hkey⟩
            · exact hop (List.mem_singleton.mp ho ▸ hkey)
          rw [if_neg hlater, apply, apply]
          cases first with
          | put key value =>
              have hne : key ≠ op.key := fun heq => hop heq.symm
              simp [Op.entries, erase, hne]
          | drop key => simp [Op.entries]

/-- No key has two entries. -/
theorem nodup_live (h : List (Op κ τ)) : ((live h).map Prod.fst).Nodup := by
  induction h with
  | nil => simp [live]
  | cons op later ih =>
      unfold live
      split
      · exact ih
      · rename_i huntouched
        cases op with
        | drop key => exact ih
        | put key value =>
            refine List.nodup_cons.mpr ⟨fun hmem => ?_, ih⟩
            obtain ⟨e, he, heq⟩ := List.mem_map.mp hmem
            obtain ⟨o, ho, hkey⟩ := touched_of_mem_live he
            exact huntouched ⟨o, ho, hkey.trans heq⟩

/-- A search does not notice that an entry is erased which it does not end at. -/
theorem find?_erase {key : κ} {p : κ × τ → Bool} {table : List (κ × τ)}
    (h : ∀ e, table.find? p = some e → e.1 ≠ key) : (erase key table).find? p = table.find? p := by
  induction table with
  | nil => rfl
  | cons e table ih =>
      by_cases hp : p e = true
      · rw [erase_cons_of_ne (h e (by simp [hp])), List.find?_cons_of_pos hp, List.find?_cons_of_pos hp]
      · rw [List.find?_cons_of_neg hp] at h ⊢
        by_cases hkey : e.1 = key
        · rw [← hkey, erase_cons_self]
        · rw [erase_cons_of_ne hkey, List.find?_cons_of_neg hp, ih h]

theorem ne_of_mem_erase {key : κ} {table : List (κ × τ)} (hnodup : (table.map Prod.fst).Nodup) :
    ∀ e ∈ erase key table, e.1 ≠ key := by
  induction table with
  | nil => simp
  | cons first table ih =>
      obtain ⟨hfirst, hnodup⟩ := List.nodup_cons.mp hnodup
      by_cases hkey : first.1 = key
      · rw [← hkey, erase_cons_self]
        intro e he heq
        exact hfirst (heq ▸ List.mem_map_of_mem he)
      · rw [erase_cons_of_ne hkey]
        intro e he
        rcases List.mem_cons.mp he with rfl | he
        · exact hkey
        · exact ih hnodup e he

/-- The value of a key is the one put by the last change about it. -/
theorem get_live_concat (h : List (Op κ τ)) (op : Op κ τ) (key : κ) :
    get key (live (h ++ [op])) = if key = op.key then op.value else get key (live h) := by
  rw [live_concat, apply, get, List.find?_append]
  by_cases hkey : key = op.key
  · have hnone : (erase op.key (live h)).find? (fun e => e.1 = key) = none := by
      rw [List.find?_eq_none]
      intro e he
      simpa [hkey] using ne_of_mem_erase (nodup_live h) e he
    rw [hnone, if_pos hkey]
    cases op with
    | put k value => simp [Op.entries, Op.value, hkey, Op.key]
    | drop k => rfl
  · have hentries : op.entries.find? (fun e => e.1 = key) = none := by
      rw [List.find?_eq_none]
      intro e he
      rw [key_of_mem_entries he]
      simpa using fun heq => hkey heq.symm
    have hother : ∀ e, (live h).find? (fun e => e.1 = key) = some e → e.1 ≠ op.key := by
      intro e he heq
      have hfound := List.find?_some he
      exact hkey ((of_decide_eq_true hfound).symm.trans heq)
    rw [find?_erase hother, hentries, Option.or_none, if_neg hkey, get]

end Ordered

end Saturn
