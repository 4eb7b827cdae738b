import Mathlib.Data.List.Sort
import Saturn.Http.Message

/-!
# Header maps

The order of `CaseInsensitiveLess`: a map has its keys in that order, so it holds one value for all
spellings of a name, and is determined by its entries.
-/

namespace Saturn

namespace Http

theorem caseInsensitiveLess_iff {a b : Bytes} :
    caseInsensitiveLess a b = true ↔ caseFold a < caseFold b := List.lex_eq_true_iff_lt

theorem caseFold_eq_of_not_less {a b : Bytes} (hab : caseInsensitiveLess a b = false)
    (hba : caseInsensitiveLess b a = false) : caseFold a = caseFold b := by
  rw [← Bool.not_eq_true, caseInsensitiveLess_iff] at hab hba
  exact List.le_antisymm hba hab

theorem not_less_of_caseFold_eq {a b : Bytes} (h : caseFold a = caseFold b) :
    caseInsensitiveLess a b = false := by
  rw [← Bool.not_eq_true, caseInsensitiveLess_iff, h]
  exact List.lt_irrefl _

namespace MapType

/-- The entries stand in the order of their keys. -/
def Sorted (m : MapType) : Prop := m.Pairwise fun a b => caseInsensitiveLess a.1 b.1 = true

theorem lookup_eq_find (m : MapType) (key : Bytes) :
    lookup m key = (m.find? fun e => caseFold e.1 = caseFold key).map Prod.snd := by
  have hequiv (e : Bytes × Bytes) : (!caseInsensitiveLess e.1 key && !caseInsensitiveLess key e.1) =
      decide (caseFold e.1 = caseFold key) := by
    rw [Bool.eq_iff_iff, Bool.and_eq_true, Bool.not_eq_true', Bool.not_eq_true', decide_eq_true_eq]
    constructor
    · rintro ⟨hab, hba⟩
      exact caseFold_eq_of_not_less hab hba
    · intro h
      exact ⟨not_less_of_caseFold_eq h, not_less_of_caseFold_eq h.symm⟩
  rw [lookup]
  simp only [hequiv]

/-- The entries with a name that the map has are the one that `lookup` finds. -/
theorem Sorted.filter_eq {m : MapType} (h : Sorted m) (key : Bytes) :
    m.filter (fun e => caseFold e.1 = caseFold key) =
      (m.find? fun e => caseFold e.1 = caseFold key).toList := by
  induction m with
  | nil => rfl
  | cons e m ih =>
      obtain ⟨hhead, htail⟩ := List.pairwise_cons.mp h
      by_cases hkey : caseFold e.1 = caseFold key
      · have hrest : m.filter (fun e => caseFold e.1 = caseFold key) = [] := by
          rw [List.filter_eq_nil_iff]
          intro e' he' heq
          have hless := hhead e' he'
          rw [not_less_of_caseFold_eq (hkey.trans (of_decide_eq_true heq).symm)] at hless
          cases hless
        simp [hkey, hrest]
      · simp only [List.filter_cons, List.find?_cons, hkey, decide_false, Bool.false_eq_true,
          if_false]
        exact ih htail

theorem mem_set_cases {m : MapType} {key val : Bytes} {e : Bytes × Bytes}
    (h : e ∈ set m key val) : caseFold e.1 = caseFold key ∨ e ∈ m := by
  induction m with
  | nil =>
      rw [set, List.mem_singleton] at h
      exact Or.inl (congrArg _ (congrArg Prod.fst h))
  | cons head m ih =>
      obtain ⟨k, v⟩ := head
      rw [set] at h
      split at h
      · rcases List.mem_cons.mp h with rfl | h
        · exact Or.inr List.mem_cons_self
        · exact (ih h).imp_right (List.mem_cons_of_mem _)
      · rename_i hless
        split at h
        · rcases List.mem_cons.mp h with rfl | h
          · exact Or.inl rfl
          · exact Or.inr h
        · rename_i hgreater
          rcases List.mem_cons.mp h with rfl | h
          · refine Or.inl (caseFold_eq_of_not_less ?_ ?_)
            · exact Bool.not_eq_true _ ▸ hless
            · exact Bool.not_eq_true _ ▸ hgreater
          · exact Or.inr (List.mem_cons_of_mem _ h)

/-- An entry is found behind it, under every spelling of its name. -/
theorem lookup_set_self (m : MapType) {key key' : Bytes} (val : Bytes)
    (h : caseFold key = caseFold key') : lookup (set m key val) key' = some val := by
  rw [lookup_eq_find]
  induction m with
  | nil => simp [set, h]
  | cons head m ih =>
      obtain ⟨k, v⟩ := head
      rw [set]
      split
      · rename_i hless
        have hne : caseFold k ≠ caseFold key' := fun heq => by
          rw [not_less_of_caseFold_eq (heq.trans h.symm)] at hless
          cases hless
        simpa [hne] using ih
      · rename_i hless
        split
        · simp [h]
        · rename_i hgreater
          have heq : caseFold k = caseFold key :=
            caseFold_eq_of_not_less (Bool.not_eq_true _ ▸ hless) (Bool.not_eq_true _ ▸ hgreater)
          simp [heq, h]

theorem lookup_set_of_ne (m : MapType) {key key' : Bytes} (val : Bytes)
    (h : caseFold key ≠ caseFold key') : lookup (set m key val) key' = lookup m key' := by
  rw [lookup_eq_find, lookup_eq_find]
  induction m with
  | nil => simp [set, h]
  | cons head m ih =>
      obtain ⟨k, v⟩ := head
      rw [set]
      split
      · by_cases hk : caseFold k = caseFold key'
        · simp [hk]
        · simpa [hk] using ih
      · rename_i hless
        split
        · simp [h]
        · rename_i hgreater
          have heq : caseFold k = caseFold key :=
            caseFold_eq_of_not_less (Bool.not_eq_true _ ▸ hless) (Bool.not_eq_true _ ▸ hgreater)
          simp [heq, h]

theorem less_trans {a b c : Bytes} (hab : caseInsensitiveLess a b = true)
    (hbc : caseInsensitiveLess b c = true) : caseInsensitiveLess a c = true := by
  rw [caseInsensitiveLess_iff] at *
  exact List.lt_trans hab hbc

theorem less_congr_right {a b c : Bytes} (h : caseFold b = caseFold c) :
    caseInsensitiveLess a b = caseInsensitiveLess a c := by
  rw [caseInsensitiveLess, caseInsensitiveLess, h]

theorem Sorted.set {m : MapType} (h : Sorted m) (key val : Bytes) : Sorted (set m key val) := by
  induction m with
  | nil => exact List.pairwise_singleton _ _
  | cons head m ih =>
      obtain ⟨k, v⟩ := head
      obtain ⟨hhead, htail⟩ := List.pairwise_cons.mp h
      rw [MapType.set]
      split
      · rename_i hless
        refine List.pairwise_cons.mpr ⟨fun e he => ?_, ih htail⟩
        rcases mem_set_cases he with heq | hmem
        · rw [less_congr_right heq]
          exact hless
        · exact hhead e hmem
      · split
        · rename_i hgreater
          refine List.pairwise_cons.mpr ⟨fun e he => ?_, h⟩
          rcases List.mem_cons.mp he with rfl | hmem
          · exact hgreater
          · exact less_trans hgreater (hhead e hmem)
        · exact List.pairwise_cons.mpr ⟨hhead, htail⟩

/-- A new entry before all others. -/
theorem set_of_forall_greater {m : MapType} {key : Bytes} (val : Bytes)
    (h : ∀ e ∈ m, caseInsensitiveLess key e.1 = true) : set m key val = (key, val) :: m := by
  cases m with
  | nil => rfl
  | cons head m =>
      obtain ⟨k, v⟩ := head
      have hgreater : caseInsensitiveLess key k = true := h _ List.mem_cons_self
      have hless : ¬ caseInsensitiveLess k key = true := by
        rw [caseInsensitiveLess_iff] at hgreater ⊢
        exact List.lt_asymm hgreater
      rw [set, if_neg hless, if_pos hgreater]

/-- A new entry behind all others. -/
theorem set_of_forall_less {m : MapType} {key : Bytes} (val : Bytes)
    (h : ∀ e ∈ m, caseInsensitiveLess e.1 key = true) : set m key val = m ++ [(key, val)] := by
  induction m with
  | nil => rfl
  | cons head m ih =>
      obtain ⟨k, v⟩ := head
      have hless : caseInsensitiveLess k key = true := h _ List.mem_cons_self
      rw [set, if_pos hless, ih fun e he => h e (List.mem_cons_of_mem _ he), List.cons_append]

section Filter

variable {p : Bytes × Bytes → Bool} {key : Bytes} (val : Bytes)

theorem filter_set_of_neg (m : MapType)
    (hp : ∀ e : Bytes × Bytes, caseFold e.1 = caseFold key → p e = false) :
    (set m key val).filter p = m.filter p := by
  induction m with
  | nil => simp [set, hp]
  | cons head m ih =>
      obtain ⟨k, v⟩ := head
      rw [set]
      split
      · rw [List.filter_cons, List.filter_cons, ih]
      · rename_i hless
        split
        · rw [List.filter_cons_of_neg (by simp [hp])]
        · rename_i hgreater
          have heq : caseFold k = caseFold key :=
            caseFold_eq_of_not_less (Bool.not_eq_true _ ▸ hless) (Bool.not_eq_true _ ▸ hgreater)
          rw [List.filter_cons_of_neg (by simp [hp, heq]), List.filter_cons_of_neg (by simp [hp, heq])]

theorem filter_set_of_pos {m : MapType} (h : Sorted m)
    (hp : ∀ e : Bytes × Bytes, caseFold e.1 = caseFold key → p e = true) :
    (set m key val).filter p = set (m.filter p) key val := by
  induction m with
  | nil => simp [set, hp]
  | cons head m ih =>
      obtain ⟨k, v⟩ := head
      obtain ⟨hhead, htail⟩ := List.pairwise_cons.mp h
      rw [set]
      split
      · rename_i hless
        rw [List.filter_cons, List.filter_cons, ih htail]
        split
        · rw [set, if_pos hless]
        · rfl
      · rename_i hless
        split
        · rename_i hgreater
          rw [List.filter_cons_of_pos (by simp [hp])]
          refine (set_of_forall_greater val fun e he => ?_).symm
          rcases List.mem_cons.mp (List.mem_of_mem_filter he) with rfl | hmem
          · exact hgreater
          · exact less_trans hgreater (hhead e hmem)
        · rename_i hgreater
          have heq : caseFold k = caseFold key :=
            caseFold_eq_of_not_less (Bool.not_eq_true _ ▸ hless) (Bool.not_eq_true _ ▸ hgreater)
          rw [List.filter_cons_of_pos (by simp [hp, heq]), List.filter_cons_of_pos (by simp [hp, heq]),
            set, if_neg hless, if_neg hgreater]

end Filter

/-- `m[name] = value` for each of the fields. -/
def setAll (m fields : MapType) : MapType := fields.foldl (fun m e => set m e.1 e.2) m

@[simp] theorem setAll_nil (m : MapType) : setAll m [] = m := rfl

@[simp] theorem setAll_cons (m fields : MapType) (e : Bytes × Bytes) :
    setAll m (e :: fields) = setAll (set m e.1 e.2) fields := rfl

theorem setAll_append (m fields fields' : MapType) :
    setAll m (fields ++ fields') = setAll (setAll m fields) fields' := List.foldl_append ..

theorem Sorted.setAll {m : MapType} (h : Sorted m) (fields : MapType) :
    Sorted (setAll m fields) := by
  induction fields generalizing m with
  | nil => exact h
  | cons e fields ih => exact ih (h.set e.1 e.2)

/-- Entries that follow those of a map are set behind them. -/
theorem setAll_of_sorted {m fields : MapType} (h : Sorted (m ++ fields)) :
    setAll m fields = m ++ fields := by
  induction fields generalizing m with
  | nil => rw [List.append_nil]; rfl
  | cons e fields ih =>
      have hless : ∀ e' ∈ m, caseInsensitiveLess e'.1 e.1 = true := fun e' he' =>
        (List.pairwise_append.mp h).2.2 e' he' e List.mem_cons_self
      rw [List.append_cons] at h ⊢
      rw [setAll_cons, set_of_forall_less e.2 hless]
      exact ih h

/-- A property of names that the entries to be set have passes through. -/
theorem filter_setAll {p : Bytes × Bytes → Bool} {m fields : MapType} (h : Sorted m)
    (hp : ∀ e ∈ fields, ∀ e' : Bytes × Bytes, caseFold e'.1 = caseFold e.1 → p e' = true) :
    (setAll m fields).filter p = setAll (m.filter p) fields := by
  induction fields generalizing m with
  | nil => rfl
  | cons e fields ih =>
      rw [setAll_cons, setAll_cons, ih (h.set e.1 e.2) fun f hf => hp f (List.mem_cons_of_mem _ hf),
        filter_set_of_pos e.2 h (hp e List.mem_cons_self)]

/-- Of the fields that have a name, the last one is found. -/
theorem lookup_setAll (m fields : MapType) (key : Bytes) :
    lookup (setAll m fields) key =
      ((fields.filter fun f => caseFold f.1 = caseFold key).getLast?.map Prod.snd).or
        (lookup m key) := by
  induction fields generalizing m with
  | nil => rfl
  | cons f fields ih =>
      rw [setAll_cons, ih]
      by_cases hf : caseFold f.1 = caseFold key
      · rw [List.filter_cons_of_pos (by simpa using hf), lookup_set_self m f.2 hf, List.getLast?_cons]
        cases (fields.filter fun f => caseFold f.1 = caseFold key).getLast? <;> rfl
      · rw [List.filter_cons_of_neg (by simpa using hf), lookup_set_of_ne m f.2 hf]

theorem lookup_setAll_of_ne {m fields : MapType} {key : Bytes}
    (h : ∀ e ∈ fields, caseFold e.1 ≠ caseFold key) :
    lookup (setAll m fields) key = lookup m key := by
  have hfilter : (fields.filter fun f => caseFold f.1 = caseFold key) = [] := by
    simpa [List.filter_eq_nil_iff] using h
  rw [lookup_setAll, hfilter]
  rfl

/-- A name that one of the fields has is found with its value. -/
theorem lookup_setAll_of_filter {m fields : MapType} {key : Bytes} {e : Bytes × Bytes}
    (h : fields.filter (fun f => caseFold f.1 = caseFold key) = [e]) :
    lookup (setAll m fields) key = some e.2 := by
  rw [lookup_setAll, h]
  rfl

end MapType

end Http

end Saturn
