import Mathlib.Data.List.TakeWhile
import Saturn.Http.HeaderMap
import Saturn.Http.StringUtil
import Saturn.Misc.Runs
import Saturn.Misc.StdSet

/-!
# Query, form and cookie parameters

`PARSE_PARAM` looks for the next `=` before it looks for the separator. A piece of the text without
`=` therefore ends up in the key of the next piece that has one, and only there.
-/

namespace Saturn

namespace Http

/-- `m.insert(e)`: an equivalent key that is there keeps its value. -/
def MapType.insert (m : MapType) (e : Bytes × Bytes) : MapType :=
  StdSet.insert (fun a b => caseInsensitiveLess a.1 b.1) e m

/-- `str.find(c, pos)`. -/
def find (str : Bytes) (c : UInt8) (pos : Nat) : Option Nat :=
  ((str.drop pos).findIdx? (· == c)).map (pos + ·)

/-- The loop of `PARSE_PARAM(str, m, flag, trim)`, for any `m` with an `insert`. -/
def parseParam {M : Type*} (insert : M → Bytes × Bytes → M) (str : Bytes) (m : M) (flag : UInt8)
    (trim : Bytes → Bytes) (last : Nat) : M :=
  match _hkey : find str 61 last with
  | none => m
  | some key =>
    match _hpos : find str flag key with
    | none =>
      insert m (trim ((str.drop last).take (key - last)), urlDecode (str.drop (key + 1)) true)
    | some pos =>
      parseParam insert str
        (insert m (trim ((str.drop last).take (key - last)),
          urlDecode ((str.drop (key + 1)).take (pos - key - 1)) true))
        flag trim (pos + 1)
termination_by str.length - last
decreasing_by
  obtain ⟨i, hi, rfl⟩ := Option.map_eq_some_iff.mp _hkey
  obtain ⟨j, -, rfl⟩ := Option.map_eq_some_iff.mp _hpos
  obtain ⟨hi, -⟩ := List.findIdx?_eq_some_iff_findIdx_eq.mp hi
  rw [List.length_drop] at hi
  omega

/-- `HttpRequest`, with the members that the parameters are parsed to. -/
structure ParamRequest extends HttpRequest where
  parserParamFlag : UInt8
  params : MapType
  cookies : MapType
  deriving Repr, DecidableEq

/-- A request that has not parsed anything yet. -/
def ParamRequest.new : ParamRequest :=
  { HttpRequest.new with parserParamFlag := 0, params := [], cookies := [] }

/-- `strcasestr(haystack, needle) != nullptr`. -/
def strcasestr (haystack needle : Bytes) : Bool :=
  (caseFold haystack).tails.any fun s => (caseFold needle).isPrefixOf s

namespace ParamRequest

/-- `initQueryParam` -/
def initQueryParam (r : ParamRequest) : ParamRequest :=
  if r.parserParamFlag &&& 0x1 ≠ 0 then r
  else { r with
    params := parseParam MapType.insert r.query r.params 38 id 0
    parserParamFlag := r.parserParamFlag ||| 0x1 }

/-- `initBodyParam` -/
def initBodyParam (r : ParamRequest) : ParamRequest :=
  if r.parserParamFlag &&& 0x2 ≠ 0 then r
  else if strcasestr (r.getHeader (ascii "content-type"))
      (ascii "application/x-www-form-urlencoded") = false then
    { r with parserParamFlag := r.parserParamFlag ||| 0x2 }
  else { r with
    params := parseParam MapType.insert r.body r.params 38 id 0
    parserParamFlag := r.parserParamFlag ||| 0x2 }

/-- `initCookies` -/
def initCookies (r : ParamRequest) : ParamRequest :=
  if r.parserParamFlag &&& 0x4 ≠ 0 then r
  else if r.getHeader (ascii "cookie") = [] then
    { r with parserParamFlag := r.parserParamFlag ||| 0x4 }
  else { r with
    cookies := parseParam MapType.insert (r.getHeader (ascii "cookie")) r.cookies 59
      (fun s => StringUtil.trim s whitespace) 0
    parserParamFlag := r.parserParamFlag ||| 0x4 }

end ParamRequest

/-! ### `std::map::insert` -/

namespace MapType

variable {m : MapType} {e e' : Bytes × Bytes}

theorem insert_cons (head : Bytes × Bytes) (m : MapType) (e : Bytes × Bytes) :
    insert (head :: m) e =
      if caseInsensitiveLess head.1 e.1 then head :: insert m e
      else if caseInsensitiveLess e.1 head.1 then e :: head :: m else head :: m := rfl

theorem mem_insert_of_mem (h : e' ∈ m) : e' ∈ insert m e := by
  induction m with
  | nil => cases h
  | cons head m ih =>
      rw [insert_cons]
      split
      · rcases List.mem_cons.mp h with rfl | h
        · exact List.mem_cons_self
        · exact List.mem_cons_of_mem _ (ih h)
      · split
        · exact List.mem_cons_of_mem _ h
        · exact h

theorem mem_insert_cases (h : e' ∈ insert m e) : e' = e ∨ e' ∈ m := by
  induction m with
  | nil => exact Or.inl (List.mem_singleton.mp h)
  | cons head m ih =>
      rw [insert_cons] at h
      split at h
      · rcases List.mem_cons.mp h with rfl | h
        · exact Or.inr List.mem_cons_self
        · exact (ih h).imp_right (List.mem_cons_of_mem _)
      · split at h
        · exact List.mem_cons.mp h
        · exact Or.inr h

/-- The key is in the map then, in some spelling. -/
theorem exists_mem_insert (m : MapType) (e : Bytes × Bytes) :
    ∃ e' ∈ insert m e, caseFold e'.1 = caseFold e.1 := by
  induction m with
  | nil => exact ⟨e, List.mem_singleton_self e, rfl⟩
  | cons head m ih =>
      rw [insert_cons]
      split
      · obtain ⟨e', hmem, heq⟩ := ih
        exact ⟨e', List.mem_cons_of_mem _ hmem, heq⟩
      · rename_i hless
        split
        · exact ⟨e, List.mem_cons_self, rfl⟩
        · rename_i hgreater
          exact ⟨head, List.mem_cons_self,
            caseFold_eq_of_not_less (Bool.not_eq_true _ ▸ hless) (Bool.not_eq_true _ ▸ hgreater)⟩

/-- Add a key that is not there yet. -/
def add (m : MapType) (e : Bytes × Bytes) : MapType :=
  if (lookup m e.1).isSome then m else set m e.1 e.2

theorem Sorted.insert_eq (h : Sorted m) (e : Bytes × Bytes) : insert m e = add m e := by
  induction m with
  | nil => rfl
  | cons head m ih =>
      obtain ⟨hhead, htail⟩ := List.pairwise_cons.mp h
      rw [insert_cons, ih htail, add, add, MapType.set]
      by_cases hless : caseInsensitiveLess head.1 e.1 = true
      · have hlookup : lookup (head :: m) e.1 = lookup m e.1 := by
          rw [lookup, List.find?_cons_of_neg (by simp [hless]), lookup]
        rw [if_pos hless, if_pos hless, hlookup]
        split <;> rfl
      · rw [if_neg hless, if_neg hless]
        by_cases hgreater : caseInsensitiveLess e.1 head.1 = true
        · have hlookup : lookup (head :: m) e.1 = none := by
            rw [lookup_eq_find, Option.map_eq_none_iff, List.find?_eq_none]
            intro e' hmem heq
            have hlt : caseInsensitiveLess e.1 e'.1 = true := by
              rcases List.mem_cons.mp hmem with rfl | hmem
              · exact hgreater
              · exact less_trans hgreater (hhead e' hmem)
            rw [not_less_of_caseFold_eq (of_decide_eq_true heq).symm] at hlt
            cases hlt
          rw [if_pos hgreater, if_pos hgreater, hlookup]
          rfl
        · have hlookup : lookup (head :: m) e.1 = some head.2 := by
            rw [lookup, List.find?_cons_of_pos (by simp [hless, hgreater])]
            rfl
          rw [if_neg hgreater, hlookup]
          rfl

theorem Sorted.add (h : Sorted m) (e : Bytes × Bytes) : Sorted (m.add e) := by
  rw [MapType.add]
  split
  · exact h
  · exact h.set e.1 e.2

theorem Sorted.foldl_insert (h : Sorted m) (l : List (Bytes × Bytes)) :
    l.foldl insert m = l.foldl MapType.add m := by
  induction l generalizing m with
  | nil => rfl
  | cons e l ih => rw [List.foldl_cons, List.foldl_cons, h.insert_eq, ih (h.add e)]

theorem mem_foldl_insert_cases {l : List (Bytes × Bytes)} (h : e ∈ l.foldl insert m) :
    e ∈ l ∨ e ∈ m := by
  induction l generalizing m with
  | nil => exact Or.inr h
  | cons head l ih =>
      rcases ih h with hmem | hmem
      · exact Or.inl (List.mem_cons_of_mem _ hmem)
      · rcases mem_insert_cases hmem with rfl | hmem
        · exact Or.inl List.mem_cons_self
        · exact Or.inr hmem

end MapType

theorem caseFold_of_zero_not_mem {key : Bytes} (h : 0 ∉ key) : caseFold key = key.map toLower := by
  have hcstr : cstr key = key :=
    List.takeWhile_eq_self_iff.mpr fun c hc => decide_eq_true fun heq => h (heq ▸ hc)
  rw [caseFold, hcstr]

/-! ### The searches -/

section Find

variable {str : Bytes} {c : UInt8} {pos key : Nat}

theorem find_eq_none (h : find str c pos = none) : c ∉ str.drop pos := by
  rw [find, Option.map_eq_none_iff, List.findIdx?_eq_none_iff] at h
  intro hc
  exact Bool.false_ne_true ((h c hc).symm.trans (beq_self_eq_true c))

/-- What is found is the first `c` behind the position. -/
theorem find_eq_some (h : find str c pos = some key) :
    ∃ front, str.drop pos = front ++ c :: str.drop (key + 1) ∧ c ∉ front ∧
      (str.drop pos).take (key - pos) = front ∧ key = pos + front.length := by
  obtain ⟨i, hi, rfl⟩ := Option.map_eq_some_iff.mp h
  obtain ⟨hlt, hc, hbefore⟩ := List.findIdx?_eq_some_iff_getElem.mp hi
  have hdrop : (str.drop pos).drop i = c :: str.drop (pos + i + 1) := by
    rw [List.drop_eq_getElem_cons hlt, eq_of_beq hc, List.drop_drop, Nat.add_assoc]
  refine ⟨(str.drop pos).take i, ?_, fun hmem => ?_, ?_, ?_⟩
  · rw [← hdrop, List.take_append_drop]
  · obtain ⟨j, hj, hget⟩ := List.getElem_of_mem hmem
    rw [List.length_take] at hj
    rw [List.getElem_take] at hget
    exact hbefore j (by omega) (by rw [hget]; exact beq_self_eq_true c)
  · rw [Nat.add_sub_cancel_left]
  · rw [List.length_take]
    omega

end Find

/-! ### The pieces between the separators -/

section Pieces

variable {flag : UInt8} {trim : Bytes → Bytes}

/-- The entry of a piece with `=`. -/
def entry (trim : Bytes → Bytes) (piece : Bytes) : Option (Bytes × Bytes) :=
  if 61 ∈ piece then
    some (trim (piece.takeWhile (· ≠ 61)), urlDecode (piece.dropWhile (· ≠ 61)).tail true)
  else none

/-- The entries of the pieces, in order. -/
def entries (flag : UInt8) (trim : Bytes → Bytes) (text : Bytes) : List (Bytes × Bytes) :=
  (text.splitOn flag).filterMap (entry trim)

/-- No piece without `=` stands before a piece with `=`. -/
def AssignmentsFirst (flag : UInt8) (text : Bytes) : Prop :=
  (text.splitOn flag).Pairwise fun p q => 61 ∈ q → 61 ∈ p

instance (flag : UInt8) (text : Bytes) : Decidable (AssignmentsFirst flag text) :=
  inferInstanceAs (Decidable (List.Pairwise _ _))

theorem entry_of_assign {front : Bytes} (h : 61 ∉ front) (value : Bytes) :
    entry trim (front ++ 61 :: value) = some (trim front, urlDecode value true) := by
  rw [entry, if_pos (by simp), takeWhile_ne_run h, dropWhile_ne_run h, List.tail_cons]

/-- The pieces have the bytes of the text, but the separators. -/
theorem exists_mem_piece {text : Bytes} {c : UInt8} :
    (∃ piece ∈ text.splitOn flag, c ∈ piece) ↔ c ∈ text ∧ c ≠ flag := by
  induction text with
  | nil => simp
  | cons b text ih =>
      rw [List.splitOn_cons_eq_if_modifyHead]
      cases hsplit : text.splitOn flag with
      | nil => exact absurd hsplit (List.splitOn_ne_nil _ _)
      | cons p ps =>
          rw [hsplit] at ih
          simp only [List.mem_cons, exists_eq_or_imp] at ih
          split
          · rename_i hb
            simp only [List.mem_cons, exists_eq_or_imp, List.not_mem_nil, false_or, ih]
            constructor
            · rintro ⟨hc, hne⟩
              exact ⟨Or.inr hc, hne⟩
            · rintro ⟨rfl | hc, hne⟩
              · exact absurd (eq_of_beq hb) hne
              · exact ⟨hc, hne⟩
          · rename_i hb
            simp only [List.modifyHead_cons, List.mem_cons, exists_eq_or_imp, or_assoc, ih]
            constructor
            · rintro (rfl | ⟨hc, hne⟩)
              · exact ⟨Or.inl rfl, fun heq => hb (beq_iff_eq.mpr heq)⟩
              · exact ⟨Or.inr hc, hne⟩
            · rintro ⟨rfl | hc, hne⟩
              · exact Or.inl rfl
              · exact Or.inr ⟨hc, hne⟩

theorem entries_of_no_assign {text : Bytes} (h : 61 ∉ text) : entries flag trim text = [] := by
  refine List.filterMap_eq_nil_iff.mpr fun piece hpiece => if_neg fun hmem => h ?_
  exact (exists_mem_piece.mp ⟨piece, hpiece, hmem⟩).1

theorem assignmentsFirst_of_no_assign {text : Bytes} (h : 61 ∉ text) :
    AssignmentsFirst flag text := by
  refine List.Pairwise.imp_of_mem (R := fun _ _ => True) (fun {p q} _ hq _ hmem => ?_)
    (List.pairwise_of_forall fun _ _ => trivial)
  exact absurd (exists_mem_piece.mp ⟨q, hq, hmem⟩).1 h

/-- A separator in front of the first `=` ends a piece without `=`. -/
theorem AssignmentsFirst.not_mem {front rest : Bytes} (hflag : flag ≠ 61) (hfront : 61 ∉ front)
    (h : AssignmentsFirst flag (front ++ 61 :: rest)) : flag ∉ front := by
  intro hmem
  obtain ⟨a, b, rfl⟩ := List.append_of_mem hmem
  rw [AssignmentsFirst, List.append_assoc, List.cons_append, List.splitOn_append_cons_self] at h
  have hpiece : ∃ piece ∈ (b ++ 61 :: rest).splitOn flag, 61 ∈ piece :=
    exists_mem_piece.mpr ⟨by simp, hflag.symm⟩
  obtain ⟨q, hq, hassign⟩ := hpiece
  cases hsplit : a.splitOn flag with
  | nil => exact absurd hsplit (List.splitOn_ne_nil _ _)
  | cons p ps =>
      have hp := (List.pairwise_append.mp h).2.2 p (by rw [hsplit]; exact List.mem_cons_self) q hq
        hassign
      refine hfront (List.mem_append_left _ ?_)
      exact (exists_mem_piece.mp ⟨p, by rw [hsplit]; exact List.mem_cons_self, hp⟩).1

section Assign

variable {front value rest : Bytes} (hflag : flag ≠ 61) (hfront : 61 ∉ front)
  (hmem : flag ∉ front) (hvalue : flag ∉ value)

include hflag hmem hvalue

theorem splitOn_last : (front ++ 61 :: value).splitOn flag = [front ++ 61 :: value] :=
  List.splitOn_eq_singleton (by simp [hmem, hvalue, hflag])

theorem splitOn_next : (front ++ 61 :: (value ++ flag :: rest)).splitOn flag =
    (front ++ 61 :: value) :: rest.splitOn flag := by
  have h : flag ∉ front ++ 61 :: value := by simp [hmem, hvalue, hflag]
  rw [← List.cons_append, ← List.append_assoc, List.splitOn_append_cons_self_of_not_mem h]

theorem assignmentsFirst_last : AssignmentsFirst flag (front ++ 61 :: value) := by
  rw [AssignmentsFirst, splitOn_last hflag hmem hvalue]
  exact List.pairwise_singleton _ _

theorem assignmentsFirst_next :
    AssignmentsFirst flag (front ++ 61 :: (value ++ flag :: rest)) ↔
      AssignmentsFirst flag rest := by
  rw [AssignmentsFirst, splitOn_next hflag hmem hvalue, List.pairwise_cons]
  exact and_iff_right fun _ _ _ => by simp

include hfront

theorem entries_last : entries flag trim (front ++ 61 :: value) =
    [(trim front, urlDecode value true)] := by
  rw [entries, splitOn_last hflag hmem hvalue, List.filterMap_cons, entry_of_assign hfront]
  rfl

theorem entries_next : entries flag trim (front ++ 61 :: (value ++ flag :: rest)) =
    (trim front, urlDecode value true) :: entries flag trim rest := by
  rw [entries, splitOn_next hflag hmem hvalue, List.filterMap_cons, entry_of_assign hfront]
  rfl

end Assign

end Pieces

/-! ### The loop -/

section Loop

variable {M : Type*} {insert : M → Bytes × Bytes → M} {str : Bytes} {flag : UInt8}
  {trim : Bytes → Bytes}

theorem parseParam_stop {last : Nat} (hkey : find str 61 last = none) (m : M) :
    parseParam insert str m flag trim last = m := by
  rw [parseParam]
  split
  · rfl
  · rename_i h
    cases hkey.symm.trans h

theorem parseParam_last {last key : Nat} (hkey : find str 61 last = some key)
    (hpos : find str flag key = none) (m : M) :
    parseParam insert str m flag trim last =
      insert m (trim ((str.drop last).take (key - last)), urlDecode (str.drop (key + 1)) true) := by
  rw [parseParam]
  split
  · rename_i h
    cases hkey.symm.trans h
  · rename_i h
    cases hkey.symm.trans h
    split
    · rfl
    · rename_i h
      cases hpos.symm.trans h

theorem parseParam_next {last key pos : Nat} (hkey : find str 61 last = some key)
    (hpos : find str flag key = some pos) (m : M) :
    parseParam insert str m flag trim last = parseParam insert str
      (insert m (trim ((str.drop last).take (key - last)),
        urlDecode ((str.drop (key + 1)).take (pos - key - 1)) true)) flag trim (pos + 1) := by
  rw [parseParam]
  split
  · rename_i h
    cases hkey.symm.trans h
  · rename_i h
    cases hkey.symm.trans h
    split
    · rename_i h
      cases hpos.symm.trans h
    · rename_i h
      cases hpos.symm.trans h
      rfl

/-- The value between `=` and the separator. -/
theorem find_separator (hflag : flag ≠ 61) {key pos : Nat}
    (hassign : str.drop key = 61 :: str.drop (key + 1)) (hpos : find str flag key = some pos) :
    ∃ value, str.drop (key + 1) = value ++ flag :: str.drop (pos + 1) ∧ flag ∉ value ∧
      (str.drop (key + 1)).take (pos - key - 1) = value ∧ key < pos ∧ pos < str.length := by
  obtain ⟨front, hsplit, hfront, -, rfl⟩ := find_eq_some hpos
  have hlength := congrArg List.length hsplit
  rw [List.length_append, List.length_cons, List.length_drop] at hlength
  rw [hassign] at hsplit
  cases front with
  | nil => exact absurd (List.cons.inj hsplit).1.symm hflag
  | cons c value =>
      obtain ⟨rfl, hsplit⟩ := List.cons.inj hsplit
      rw [List.length_cons] at hlength hsplit ⊢
      refine ⟨value, hsplit, fun hmem => hfront (List.mem_cons_of_mem _ hmem), ?_, by omega,
        by omega⟩
      rw [hsplit, Nat.add_sub_cancel_left, Nat.add_sub_cancel]
      exact List.take_left

/-- What one round does with the text that is left. -/
theorem parseParam_cases (insert : M → Bytes × Bytes → M) (str : Bytes) (trim : Bytes → Bytes)
    (hflag : flag ≠ 61) (last : Nat) :
    (61 ∉ str.drop last ∧ ∀ m, parseParam insert str m flag trim last = m) ∨
    (∃ front value, str.drop last = front ++ 61 :: value ∧ 61 ∉ front ∧ flag ∉ value ∧
      ∀ m, parseParam insert str m flag trim last =
        insert m (trim front, urlDecode value true)) ∨
    (∃ front value pos, str.drop last = front ++ 61 :: (value ++ flag :: str.drop (pos + 1)) ∧
      61 ∉ front ∧ flag ∉ value ∧ last < pos ∧ pos < str.length ∧
      ∀ m, parseParam insert str m flag trim last =
        parseParam insert str (insert m (trim front, urlDecode value true)) flag trim
          (pos + 1)) := by
  cases hkey : find str 61 last with
  | none => exact Or.inl ⟨find_eq_none hkey, parseParam_stop hkey⟩
  | some key =>
      obtain ⟨front, hrest, hfront, htake, hlen⟩ := find_eq_some hkey
      have hassign : str.drop key = 61 :: str.drop (key + 1) := by
        rw [hlen, ← List.drop_drop, hrest, List.drop_left, ← hlen]
      cases hpos : find str flag key with
      | none =>
          have hvalue : flag ∉ str.drop (key + 1) := fun hmem => by
            refine find_eq_none hpos ?_
            rw [hassign]
            exact List.mem_cons_of_mem _ hmem
          refine Or.inr (Or.inl ⟨front, _, hrest, hfront, hvalue, fun m => ?_⟩)
          rw [parseParam_last hkey hpos, htake]
      | some pos =>
          obtain ⟨value, hsplit, hvalue, hvalueTake, hlt, hend⟩ := find_separator hflag hassign hpos
          refine Or.inr (Or.inr ⟨front, value, pos, ?_, hfront, hvalue, by omega, hend,
            fun m => ?_⟩)
          · rw [hrest, hsplit]
          · rw [parseParam_next hkey hpos, htake, hvalueTake]

/-- Where the pieces without `=` come last, the loop adds the entries of the pieces. -/
theorem parseParam_of_assignmentsFirst (hflag : flag ≠ 61) (last : Nat)
    (h : AssignmentsFirst flag (str.drop last)) (m : M) :
    parseParam insert str m flag trim last =
      (entries flag trim (str.drop last)).foldl insert m := by
  induction hn : str.length - last using Nat.strongRecOn generalizing last m with
  | ind n ih =>
      rcases parseParam_cases insert str trim hflag last with
        ⟨hassign, hparse⟩ | ⟨front, value, hrest, hfront, hvalue, hparse⟩ |
        ⟨front, value, pos, hrest, hfront, hvalue, hlt, hend, hparse⟩
      · rw [hparse, entries_of_no_assign hassign]
        rfl
      · rw [hrest] at h
        rw [hparse, hrest, entries_last hflag hfront (h.not_mem hflag hfront) hvalue]
        rfl
      · rw [hrest] at h
        have hmem := h.not_mem hflag hfront
        rw [hparse, hrest, entries_next hflag hfront hmem hvalue, List.foldl_cons]
        exact ih (str.length - (pos + 1)) (by omega) _
          ((assignmentsFirst_next hflag hmem hvalue).mp h) _ rfl

/-- Where a piece without `=` stands before one with, a key with a separator is added. -/
theorem parseParam_of_not_assignmentsFirst {Q : M → Prop} (hflag : flag ≠ 61)
    (hkeep : ∀ m e, Q m → Q (insert m e))
    (hkey : ∀ m key value, flag ∈ key → (∀ c ∈ key, c ∈ str) → Q (insert m (trim key, value)))
    (last : Nat) {m : M} (h : Q m ∨ ¬ AssignmentsFirst flag (str.drop last)) :
    Q (parseParam insert str m flag trim last) := by
  have hsub {last : Nat} {front rest : Bytes} (hrest : str.drop last = front ++ rest) :
      ∀ c ∈ front, c ∈ str := fun c hc =>
    List.mem_of_mem_drop (hrest ▸ List.mem_append_left rest hc)
  induction hn : str.length - last using Nat.strongRecOn generalizing last m with
  | ind n ih =>
      rcases parseParam_cases insert str trim hflag last with
        ⟨hassign, hparse⟩ | ⟨front, value, hrest, hfront, hvalue, hparse⟩ |
        ⟨front, value, pos, hrest, hfront, hvalue, hlt, hend, hparse⟩
      · rw [hparse]
        exact h.resolve_right (not_not_intro (assignmentsFirst_of_no_assign hassign))
      · rw [hparse]
        by_cases hmem : flag ∈ front
        · exact hkey m front _ hmem (hsub hrest)
        · rw [hrest] at h
          exact hkeep m _ (h.resolve_right
            (not_not_intro (assignmentsFirst_last hflag hmem hvalue)))
      · rw [hparse]
        refine ih (str.length - (pos + 1)) (by omega) _ ?_ rfl
        by_cases hmem : flag ∈ front
        · exact Or.inl (hkey m front _ hmem (hsub hrest))
        · rw [hrest, assignmentsFirst_next hflag hmem hvalue] at h
          exact h.imp_left (hkeep m _)

end Loop

/-! ### The three texts -/

/-- What `PARSE_PARAM` is used for. -/
inductive ParamSource
  | query | body | cookies
  deriving Repr, DecidableEq

namespace ParamSource

/-- What stands between two entries. -/
def separator : ParamSource → UInt8
  | .query | .body => 38
  | .cookies => 59

/-- The bit of `m_parserParamFlag`. -/
def bit : ParamSource → UInt8
  | .query => 0x1
  | .body => 0x2
  | .cookies => 0x4

/-- The `trim` with which `parseParam` is called. -/
def trim : ParamSource → Bytes → Bytes
  | .query | .body => id
  | .cookies => fun s => StringUtil.trim s whitespace

/-- The text that is read. -/
def text : ParamSource → ParamRequest → Bytes
  | .query, r => r.query
  | .body, r => r.body
  | .cookies, r => r.getHeader (ascii "cookie")

/-- The map that is filled. -/
def map : ParamSource → ParamRequest → MapType
  | .query, r | .body, r => r.params
  | .cookies, r => r.cookies

/-- The call that fills it. -/
def init : ParamSource → ParamRequest → ParamRequest
  | .query => ParamRequest.initQueryParam
  | .body => ParamRequest.initBodyParam
  | .cookies => ParamRequest.initCookies

/-- The text is there to be parsed, and has not been parsed yet. -/
def Unparsed (s : ParamSource) (r : ParamRequest) : Prop :=
  r.parserParamFlag &&& s.bit = 0 ∧
    (s = .body → strcasestr (r.getHeader (ascii "content-type"))
      (ascii "application/x-www-form-urlencoded") = true)

/-- What the text says is to be added. -/
def entries (s : ParamSource) (r : ParamRequest) : List (Bytes × Bytes) :=
  Http.entries s.separator s.trim (s.text r)

/-- What the loop hands to `insert`. -/
def inserted (s : ParamSource) (r : ParamRequest) : List (Bytes × Bytes) :=
  parseParam (fun l e => l ++ [e]) (s.text r) [] s.separator s.trim 0

/-- The map is the one that the entries of the text make. -/
def MapFollows (s : ParamSource) (r : ParamRequest) : Prop :=
  s.map (s.init r) = (s.entries r).foldl MapType.add (s.map r)

variable {s : ParamSource} {r : ParamRequest}

theorem map_init (h : s.Unparsed r) :
    s.map (s.init r) =
      parseParam MapType.insert (s.text r) (s.map r) s.separator s.trim 0 := by
  obtain ⟨hbit, hform⟩ := h
  cases s with
  | query =>
      rw [init, ParamRequest.initQueryParam,
        if_neg (show ¬ (r.parserParamFlag &&& 0x1 ≠ 0) from not_not_intro hbit)]
      rfl
  | body =>
      rw [init, ParamRequest.initBodyParam,
        if_neg (show ¬ (r.parserParamFlag &&& 0x2 ≠ 0) from not_not_intro hbit),
        if_neg (by simp [hform rfl])]
      rfl
  | cookies =>
      rw [init, ParamRequest.initCookies,
        if_neg (show ¬ (r.parserParamFlag &&& 0x4 ≠ 0) from not_not_intro hbit)]
      split
      · rename_i hempty
        rw [text, hempty, parseParam_stop (by rfl)]
        rfl
      · rfl

theorem separator_ne (s : ParamSource) : s.separator ≠ 61 := by cases s <;> decide

theorem mem_of_mem_trim {c : UInt8} {key : Bytes} (h : c ∈ s.trim key) : c ∈ key := by
  cases s with
  | query => exact h
  | body => exact h
  | cookies => exact Http.mem_of_mem_trim h

theorem separator_mem_trim {key : Bytes} (h : s.separator ∈ key) : s.separator ∈ s.trim key := by
  cases s with
  | query => exact h
  | body => exact h
  | cookies => exact mem_trim h (by decide)

theorem separator_not_mem {e : Bytes × Bytes} (h : e ∈ s.entries r) : s.separator ∉ e.1 := by
  obtain ⟨piece, hpiece, hentry⟩ := List.mem_filterMap.mp h
  rw [entry] at hentry
  split at hentry
  · cases hentry
    intro hmem
    have hmem := List.takeWhile_subset _ (mem_of_mem_trim hmem)
    exact (exists_mem_piece.mp ⟨piece, hpiece, hmem⟩).2 rfl
  · cases hentry

/-- The parsing follows the separators: it adds, in order, the entry of every piece with `=`. -/
def Follows (s : ParamSource) (r : ParamRequest) : Prop :=
  s.inserted r = s.entries r ∧ s.MapFollows r

theorem inserted_of_assignmentsFirst (h : AssignmentsFirst s.separator (s.text r)) :
    s.inserted r = s.entries r := by
  rw [inserted, parseParam_of_assignmentsFirst s.separator_ne 0 (by rwa [List.drop_zero]),
    List.drop_zero, List.foldl_append_eq_append, List.nil_append, ← List.flatMap_def,
    List.flatMap_singleton']
  rfl

theorem mapFollows_of_assignmentsFirst (h : s.Unparsed r) (hm : (s.map r).Sorted)
    (hfirst : AssignmentsFirst s.separator (s.text r)) : s.MapFollows r := by
  rw [MapFollows, map_init h, parseParam_of_assignmentsFirst s.separator_ne 0
    (by rwa [List.drop_zero]), List.drop_zero, hm.foldl_insert]
  rfl

/-- Otherwise a key with a separator is added. -/
theorem exists_inserted (h : ¬ AssignmentsFirst s.separator (s.text r)) :
    ∃ e ∈ s.inserted r, s.separator ∈ e.1 := by
  refine parseParam_of_not_assignmentsFirst
    (Q := fun l : List (Bytes × Bytes) => ∃ e ∈ l, s.separator ∈ e.1)
    s.separator_ne ?_ ?_ 0 (Or.inr h)
  · rintro l e ⟨e', hmem, hkey⟩
    exact ⟨e', List.mem_append_left _ hmem, hkey⟩
  · intro l key value hkey _
    exact ⟨_, List.mem_append_right _ (List.mem_singleton_self _), separator_mem_trim hkey⟩

theorem toLower_eq_separator {c : UInt8} : toLower c = s.separator ↔ c = s.separator := by
  have hall (sep : UInt8) (hsep : sep = 38 ∨ sep = 59) (c : UInt8) :
      toLower c = sep ↔ c = sep := by
    rw [toLower]
    split
    · rename_i hupper
      have hlo := UInt8.le_iff_toNat_le.mp hupper.1
      have hhi := UInt8.le_iff_toNat_le.mp hupper.2
      rw [← UInt8.toNat_inj, ← UInt8.toNat_inj, UInt8.toNat_add]
      rcases hsep with rfl | rfl <;> simp only [UInt8.reduceToNat] at * <;> omega
    · exact Iff.rfl
  refine hall _ ?_ c
  cases s
  · exact Or.inl rfl
  · exact Or.inl rfl
  · exact Or.inr rfl

theorem separator_mem_caseFold {key : Bytes} (h : 0 ∉ key) (hmem : s.separator ∈ key) :
    s.separator ∈ caseFold key := by
  rw [caseFold_of_zero_not_mem h]
  exact List.mem_map.mpr ⟨_, hmem, toLower_eq_separator.mpr rfl⟩

theorem separator_mem_of_caseFold {key : Bytes} (h : s.separator ∈ caseFold key) :
    s.separator ∈ key := by
  obtain ⟨c, hc, heq⟩ := List.mem_map.mp h
  exact toLower_eq_separator.mp heq ▸ List.takeWhile_subset _ hc

/-- In a text without zeros the key is also seen in the map. -/
theorem exists_mem_map (h : s.Unparsed r) (hzero : 0 ∉ s.text r)
    (hfirst : ¬ AssignmentsFirst s.separator (s.text r)) :
    ∃ e ∈ s.map (s.init r), s.separator ∈ e.1 := by
  rw [map_init h]
  refine parseParam_of_not_assignmentsFirst (Q := fun m : MapType => ∃ e ∈ m, s.separator ∈ e.1)
    s.separator_ne ?_ ?_ 0 (Or.inr hfirst)
  · rintro m e ⟨e', hmem, hkey⟩
    exact ⟨e', MapType.mem_insert_of_mem hmem, hkey⟩
  · intro m key value hkey hsub
    obtain ⟨e', hmem, heq⟩ := MapType.exists_mem_insert m (s.trim key, value)
    refine ⟨e', hmem, separator_mem_of_caseFold ?_⟩
    rw [heq]
    exact separator_mem_caseFold (fun hnul => hzero (hsub 0 (mem_of_mem_trim hnul)))
      (separator_mem_trim hkey)

/-- The parsing follows the separators exactly where no piece without `=` stands before one with.
In a text without zeros, where `strcasecmp` sees whole keys, that already holds of the map. -/
theorem follows_iff (h : s.Unparsed r) (hm : (s.map r).Sorted) :
    (s.Follows r ↔ AssignmentsFirst s.separator (s.text r)) ∧
      (0 ∉ s.text r → (∀ e ∈ s.map r, s.separator ∉ e.1) →
        (s.MapFollows r ↔ AssignmentsFirst s.separator (s.text r))) := by
  refine ⟨⟨?_, ?_⟩, fun hzero hclean => ⟨?_, mapFollows_of_assignmentsFirst h hm⟩⟩
  · rintro ⟨hinserted, -⟩
    by_contra hnot
    obtain ⟨e, he, hkey⟩ := exists_inserted hnot
    rw [hinserted] at he
    exact separator_not_mem he hkey
  · intro hfirst
    exact ⟨inserted_of_assignmentsFirst hfirst, mapFollows_of_assignmentsFirst h hm hfirst⟩
  · intro hfollows
    by_contra hnot
    obtain ⟨e, he, hkey⟩ := exists_mem_map h hzero hnot
    rw [hfollows, ← hm.foldl_insert] at he
    rcases MapType.mem_foldl_insert_cases he with he | he
    · exact separator_not_mem he hkey
    · exact hclean e he hkey

/-- A piece without an assignment, behind one. -/
def trailingPiece : ParamRequest := { ParamRequest.new with query := ascii "b=1&a" }

theorem trailingPiece_follows :
    ParamSource.query.Follows trailingPiece ∧ ParamSource.query.MapFollows trailingPiece := by
  have h : ParamSource.query.Unparsed trailingPiece := ⟨by decide, nofun⟩
  have hfollows := follows_iff h List.Pairwise.nil
  exact ⟨hfollows.1.mpr (by decide), (hfollows.2 (by decide) (by simp [map, trailingPiece,
    ParamRequest.new])).mpr (by decide)⟩

/-- A piece without an assignment, before one. -/
def leadingPiece : ParamRequest := { ParamRequest.new with query := ascii "a&b=1" }

/-- The piece `a` becomes part of the key `b`. -/
theorem leadingPiece_not_follows :
    leadingPiece.initQueryParam.params = [(ascii "a&b", ascii "1")] ∧
      ParamSource.query.entries leadingPiece = [(ascii "b", ascii "1")] ∧
      ¬ ParamSource.query.MapFollows leadingPiece := by
  have hparams : leadingPiece.initQueryParam.params = [(ascii "a&b", ascii "1")] := by
    rw [ParamRequest.initQueryParam, if_neg (by decide)]
    exact (parseParam_last (by decide : find (ascii "a&b=1") 61 0 = some 3) (by decide) _).trans
      (by decide)
  have hentries : ParamSource.query.entries leadingPiece = [(ascii "b", ascii "1")] := by decide
  refine ⟨hparams, hentries, fun hfollows => ?_⟩
  rw [MapFollows, hentries, map, init, hparams] at hfollows
  exact absurd hfollows (by decide)

end ParamSource

end Http

end Saturn
