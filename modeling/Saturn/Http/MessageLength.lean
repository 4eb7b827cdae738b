import Saturn.Http.ContentLength
import Saturn.Http.Dump
import Saturn.Http.HeaderMap
import Saturn.Misc.Runs

/-!
# The length of a message that is written

`dump` writes a `content-length` of its own next to whatever the map holds, and filters only
`connection` out of the map. The lines of the header block are read back the way a recipient reads
them.
-/

namespace Saturn

namespace Http

/-! ## Reading a header block -/

/-- The lines of a block, each up to its CRLF. -/
def crlfLines : Bytes → List Bytes
  | [] => []
  | 13 :: 10 :: rest => [] :: crlfLines rest
  | c :: rest =>
      match crlfLines rest with
      | [] => [[c]]
      | line :: lines => (c :: line) :: lines

/-- A space or a tab. -/
def isBlank (c : UInt8) : Bool := c == 32 || c == 9

/-- The bytes between the blanks at both ends. -/
def trim (s : Bytes) : Bytes := ((s.dropWhile isBlank).reverse.dropWhile isBlank).reverse

/-- What stands before the first colon. -/
def fieldName (line : Bytes) : Bytes := line.takeWhile (· ≠ 58)

/-- What stands behind it, without the blanks around. -/
def fieldValue (line : Bytes) : Bytes := trim ((line.dropWhile (· ≠ 58)).drop 1)

/-- The line is one for `content-length`. -/
def isLengthLine (line : Bytes) : Bool :=
  caseFold (fieldName line) == caseFold (ascii "content-length")

/-- The lines of a header block that give a length. -/
def lengthLines (block : Bytes) : List Bytes := (crlfLines block).filter isLengthLine

/-- The lines say `size`: one of them does, or there is none and nothing to say. -/
def Says (size : Nat) : List Bytes → Prop
  | [] => size = 0
  | [line] => decimal (fieldValue line) = some size
  | _ => False

instance (size : Nat) : (lines : List Bytes) → Decidable (Says size lines)
  | [] => inferInstanceAs (Decidable (_ = _))
  | [_] => inferInstanceAs (Decidable (_ = _))
  | _ :: _ :: _ => isFalse not_false

/-- The block has one `content-length`, for a body of `size` bytes; without a body it may have
none. -/
def OneLength (block : Bytes) (size : Nat) : Prop := Says size (lengthLines block)

instance (block : Bytes) (size : Nat) : Decidable (OneLength block size) :=
  inferInstanceAs (Decidable (Says _ _))

/-- A character of a `token`: no control character and no separator. -/
def isTokenChar (c : UInt8) : Bool :=
  33 ≤ c && c ≤ 126 && !(ascii "()<>@,;:\\\"/[]?=\x7b\x7d").contains c

/-- The names are tokens, and the values have no CR and no LF. -/
structure MapType.WellFormed (m : MapType) : Prop where
  sorted : m.Sorted
  token : ∀ e ∈ m, e.1 ≠ [] ∧ e.1.all isTokenChar = true
  oneLine : ∀ e ∈ m, 13 ∉ e.2 ∧ 10 ∉ e.2

/-- With a body, the map has no `content-length`; without one, it has none or one that says 0. -/
def LeavesLength (headers : MapType) (body : Bytes) : Prop :=
  ∀ v ∈ headers.lookup (ascii "content-length"), body = [] ∧ decimal (trim v) = some 0

instance (headers : MapType) (body : Bytes) : Decidable (LeavesLength headers body) :=
  inferInstanceAs (Decidable (∀ v ∈ headers.lookup _, _))

/-! ## Decimal numbers -/

theorem toNat_digitChar {d : Nat} (h : d < 10) : d.digitChar.toNat.toUInt8.toNat = 48 + d := by
  rw [Nat.toNat_digitChar_of_lt_ten h]
  exact Nat.mod_eq_of_lt (by omega)

theorem isDigit_digitChar {d : Nat} (h : d < 10) : isDigit d.digitChar.toNat.toUInt8 = true := by
  have hchar := toNat_digitChar h
  rw [isDigit, Bool.and_eq_true, decide_eq_true_eq, decide_eq_true_eq, UInt8.le_iff_toNat_le,
    UInt8.le_iff_toNat_le, hchar]
  exact ⟨Nat.le_add_right 48 d, by change 48 + d ≤ 57; omega⟩

theorem digits_of_lt {n : Nat} (h : n < 10) : digits n = [n.digitChar.toNat.toUInt8] := by
  rw [digits, Nat.toDigits_of_lt_base h]
  rfl

theorem digits_of_le {n : Nat} (h : 10 ≤ n) :
    digits n = digits (n / 10) ++ [(n % 10).digitChar.toNat.toUInt8] := by
  rw [digits, Nat.toDigits_of_base_le (by decide) h, List.map_append]
  rfl

theorem digits_ne_nil (n : Nat) : digits n ≠ [] := by
  rcases Nat.lt_or_ge n 10 with h | h
  · simp [digits_of_lt h]
  · simp [digits_of_le h]

theorem all_isDigit_digits (n : Nat) : (digits n).all isDigit = true := by
  induction n using Nat.strong_induction_on with
  | _ n ih =>
      rcases Nat.lt_or_ge n 10 with h | h
      · simp [digits_of_lt h, isDigit_digitChar h]
      · rw [digits_of_le h, List.all_append, ih (n / 10) (by omega)]
        simp [isDigit_digitChar (Nat.mod_lt n (by decide : 0 < 10))]

theorem foldl_digits (n : Nat) : (digits n).foldl (fun m c => 10 * m + (c.toNat - 48)) 0 = n := by
  induction n using Nat.strong_induction_on with
  | _ n ih =>
      rcases Nat.lt_or_ge n 10 with h | h
      · simp only [digits_of_lt h, List.foldl_cons, List.foldl_nil, toNat_digitChar h]
        omega
      · have hlast := toNat_digitChar (Nat.mod_lt n (by decide : 0 < 10))
        simp only [digits_of_le h, List.foldl_append, List.foldl_cons, List.foldl_nil,
          ih (n / 10) (by omega), hlast]
        omega

/-- What `<<` writes is read back. -/
theorem decimal_digits (n : Nat) : decimal (digits n) = some n := by
  rw [decimal, if_pos ⟨digits_ne_nil n, all_isDigit_digits n⟩, foldl_digits]

/-! ## The lines that `dump` writes -/

/-- A line without CR is read up to its CRLF. -/
theorem crlfLines_append {line rest : Bytes} (h : 13 ∉ line) :
    crlfLines (line ++ crlf ++ rest) = line :: crlfLines rest := by
  induction line with
  | nil => rfl
  | cons c line ih =>
      rw [List.mem_cons, not_or] at h
      have hrest := ih h.2
      rw [List.cons_append, List.cons_append, crlfLines, hrest]
      rintro rest' rfl
      exact absurd rfl h.1

theorem token_facts {name : Bytes} (h : name.all isTokenChar = true) :
    13 ∉ name ∧ 10 ∉ name ∧ 58 ∉ name := by
  rw [List.all_eq_true] at h
  refine ⟨fun hc => ?_, fun hc => ?_, fun hc => ?_⟩ <;>
    exact absurd (h _ hc) (by decide)

theorem fieldName_of_token {name : Bytes} (h : name.all isTokenChar = true) (rest : Bytes) :
    fieldName (name ++ 58 :: rest) = name := by
  obtain ⟨-, -, hcolon⟩ := token_facts h
  rw [fieldName, takeWhile_ne_run hcolon]

theorem fieldValue_of_token {name : Bytes} (h : name.all isTokenChar = true) (rest : Bytes) :
    fieldValue (name ++ 58 :: rest) = trim rest := by
  obtain ⟨-, -, hcolon⟩ := token_facts h
  rw [fieldValue, dropWhile_ne_run hcolon, List.drop_succ_cons, List.drop_zero]

theorem trim_cons_blank (s : Bytes) : trim (32 :: s) = trim s := rfl

theorem trim_of_digits {s : Bytes} (h : s.all isDigit = true) : trim s = s := by
  have hdrop {t : Bytes} (ht : t.all isDigit = true) : t.dropWhile isBlank = t := by
    cases t with
    | nil => rfl
    | cons c t =>
        have hc : isDigit c = true := by
          rw [List.all_cons, Bool.and_eq_true] at ht
          exact ht.1
        have hblank : isBlank c = false := by
          by_contra hb
          simp only [isBlank, Bool.not_eq_false, Bool.or_eq_true, beq_iff_eq] at hb
          rcases hb with rfl | rfl <;> exact absurd hc (by decide)
        rw [List.dropWhile_cons, hblank]
        rfl
  rw [trim, hdrop h, hdrop (by rwa [List.all_reverse]), List.reverse_reverse]

/-- Between name and value stands a colon, and perhaps a blank. -/
def IsSeparator (sep : Bytes) : Prop := sep = ascii ":" ∨ sep = ascii ": "

theorem IsSeparator.value {sep : Bytes} (h : IsSeparator sep) (v : Bytes) :
    ∃ s, sep ++ v = 58 :: s ∧ trim s = trim v := by
  rcases h with rfl | rfl
  · exact ⟨v, rfl, rfl⟩
  · exact ⟨32 :: v, rfl, rfl⟩

/-- The lines of the map are its entries but `connection`. -/
theorem crlfLines_mapFields {sep : Bytes} (hsep : IsSeparator sep) {m : MapType}
    (htoken : ∀ e ∈ m, e.1.all isTokenChar = true) (hline : ∀ e ∈ m, 13 ∉ e.2) (rest : Bytes) :
    crlfLines (mapFields sep m ++ rest) =
      (m.filter fun e => ¬ caseFold e.1 = caseFold (ascii "connection")).map
        (fun e => e.1 ++ sep ++ e.2) ++ crlfLines rest := by
  induction m with
  | nil => rfl
  | cons e m ih =>
      have htail := ih (fun e he => htoken e (List.mem_cons_of_mem _ he))
        (fun e he => hline e (List.mem_cons_of_mem _ he))
      rw [mapFields] at htail ⊢
      rw [List.flatMap_cons, List.append_assoc]
      by_cases hconn : caseFold e.1 = caseFold (ascii "connection")
      · rw [if_pos hconn, List.nil_append, htail]
        simp [hconn]
      · have hno : 13 ∉ e.1 ++ sep ++ e.2 := by
          obtain ⟨hname, -, -⟩ := token_facts (htoken e List.mem_cons_self)
          have hvalue := hline e List.mem_cons_self
          have hcolon : 13 ∉ sep := by
            rcases hsep with rfl | rfl <;> decide
          simp [hname, hvalue, hcolon]
        rw [if_neg hconn, crlfLines_append hno, htail]
        simp [hconn]

theorem lengthLines_connectionField (close : Bool) (rest : Bytes) :
    lengthLines (connectionField close ++ rest) = lengthLines rest := by
  have hlines : crlfLines (connectionField close ++ rest) =
      (ascii "connection: " ++ ascii (if close then "close" else "keep-alive")) ::
        crlfLines rest := by
    rw [connectionField]
    apply crlfLines_append
    cases close <;> decide
  rw [lengthLines, hlines, List.filter_cons_of_neg]
  · rfl
  · cases close <;> decide

theorem crlfLines_lengthField (body : Bytes) :
    crlfLines (lengthField body) =
      if body = [] then [] else [ascii "content-length: " ++ digits body.length] := by
  rw [lengthField]
  split
  · rfl
  · have hdigits : 13 ∉ digits body.length := fun hc =>
      absurd (List.all_eq_true.mp (all_isDigit_digits _) _ hc) (by decide)
    have hno : 13 ∉ ascii "content-length: " ++ digits body.length := by
      rw [List.mem_append, not_or]
      exact ⟨by decide, hdigits⟩
    rw [← List.append_nil (_ ++ _ ++ crlf), crlfLines_append hno]
    rfl

theorem lengthField_value (n : Nat) :
    isLengthLine (ascii "content-length: " ++ digits n) = true ∧
      decimal (fieldValue (ascii "content-length: " ++ digits n)) = some n := by
  have hline : ascii "content-length: " ++ digits n =
      ascii "content-length" ++ 58 :: 32 :: digits n := rfl
  have htoken : (ascii "content-length").all isTokenChar = true := by decide
  rw [hline, isLengthLine, fieldName_of_token htoken, fieldValue_of_token htoken, trim_cons_blank,
    trim_of_digits (all_isDigit_digits n)]
  exact ⟨beq_self_eq_true _, decimal_digits n⟩

/-- The `content-length` lines of the map are the entry that `lookup` finds. -/
theorem lengthLines_mapFields {sep : Bytes} (hsep : IsSeparator sep) {m : MapType}
    (hm : m.WellFormed) (rest : Bytes) :
    lengthLines (mapFields sep m ++ rest) =
      (m.find? fun e => caseFold e.1 = caseFold (ascii "content-length")).toList.map
        (fun e => e.1 ++ sep ++ e.2) ++ lengthLines rest := by
  have htoken : ∀ e ∈ m, e.1.all isTokenChar = true := fun e he => (hm.token e he).2
  have hother : caseFold (ascii "connection") ≠ caseFold (ascii "content-length") := by decide
  have hname : ∀ e ∈ m, isLengthLine (e.1 ++ sep ++ e.2) =
      decide (caseFold e.1 = caseFold (ascii "content-length")) := by
    intro e he
    obtain ⟨s, hs, -⟩ := hsep.value e.2
    rw [List.append_assoc, hs, isLengthLine, fieldName_of_token (htoken e he)]
    exact beq_eq_decide _ _
  rw [lengthLines, crlfLines_mapFields hsep htoken (fun e he => (hm.oneLine e he).1),
    List.filter_append, List.filter_map, List.filter_filter, ← hm.sorted.filter_eq]
  congr 2
  apply List.filter_congr
  intro e he
  rw [Function.comp_apply, hname e he]
  by_cases hlen : caseFold e.1 = caseFold (ascii "content-length")
  · simp [hlen, hother.symm]
  · simp [hlen]

/-- The line of the map and the line of `dump` together. -/
theorem oneLength_iff {sep : Bytes} (hsep : IsSeparator sep) {m : MapType} (hm : m.WellFormed)
    {block body : Bytes}
    (hblock : lengthLines block = lengthLines (mapFields sep m ++ lengthField body)) :
    OneLength block body.length ↔ LeavesLength m body := by
  rw [OneLength, LeavesLength, hblock, lengthLines_mapFields hsep hm, MapType.lookup_eq_find,
    lengthLines, crlfLines_lengthField]
  have hours := lengthField_value body.length
  cases hfind : m.find? fun e => caseFold e.1 = caseFold (ascii "content-length") with
  | none =>
      by_cases hbody : body = []
      · simp [hbody, Says]
      · simp [hbody, Says, hours.1, hours.2]
  | some e =>
      have he := List.mem_of_find?_eq_some hfind
      obtain ⟨s, hs, htrim⟩ := hsep.value e.2
      have hvalue : fieldValue (e.1 ++ sep ++ e.2) = trim e.2 := by
        rw [List.append_assoc, hs, fieldValue_of_token (hm.token e he).2, htrim]
      by_cases hbody : body = []
      · simp [hbody, Says, ← hvalue]
      · simp [hbody, Says, hours.1]

theorem request_oneLength_iff {r : HttpRequest} (h : r.headers.WellFormed) :
    OneLength r.headerBlock r.body.length ↔ LeavesLength r.headers r.body := by
  apply oneLength_iff (Or.inl rfl) h
  rw [HttpRequest.headerBlock, List.append_assoc, lengthLines_connectionField]

theorem response_oneLength_iff {r : HttpResponse} (h : r.headers.WellFormed) :
    OneLength r.headerBlock r.body.length ↔ LeavesLength r.headers r.body := by
  have hsep : IsSeparator (ascii ": ") := Or.inr rfl
  apply oneLength_iff hsep h
  rw [HttpResponse.headerBlock, List.append_assoc, lengthLines_mapFields hsep h,
    lengthLines_connectionField, lengthLines_mapFields hsep h]

/-- A message is written with one length exactly if its header map leaves the length to `dump`. -/
theorem messages_oneLength_iff (q : HttpRequest) (r : HttpResponse) :
    (q.headers.WellFormed →
      (OneLength q.headerBlock q.body.length ↔ LeavesLength q.headers q.body)) ∧
    (r.headers.WellFormed →
      (OneLength r.headerBlock r.body.length ↔ LeavesLength r.headers r.body)) :=
  ⟨request_oneLength_iff, response_oneLength_iff⟩

instance (m : MapType) : Decidable m.Sorted := inferInstanceAs (Decidable (List.Pairwise _ _))

theorem messages_oneLength_hello :
    OneLength ({ HttpRequest.new with
      headers := [(ascii "host", ascii "www.saturn.top")]
      body := ascii "hello saturn" }).headerBlock 12 ∧
    OneLength ({ HttpResponse.new with
      headers := [(ascii "X-X", ascii "saturn")]
      body := ascii "hello saturn" }).headerBlock 12 := by
  refine ⟨((messages_oneLength_iff _ HttpResponse.new).1 ⟨?_, ?_, ?_⟩).mpr ?_,
    ((messages_oneLength_iff HttpRequest.new _).2 ⟨?_, ?_, ?_⟩).mpr ?_⟩ <;>
  decide

/-- A request of three bytes that has been received is written with its length twice. -/
theorem received_request_two_lengths :
    ∃ r t, recvRequest postEnv ⟨0, false⟩ (postStream "3" "abc") = .ok ⟨some (r, t), 3⟩ ∧
      r.headers.WellFormed ∧ lengthLines r.headerBlock =
        [ascii "content-length:3", ascii "content-length: 3"] ∧
      ¬ OneLength r.headerBlock r.body.length := by
  refine ⟨{ HttpRequest.new with
    method := .post
    headers := [(ascii "content-length", ascii "3")]
    body := ascii "abc" }, ⟨[], []⟩, ?_, ⟨?_, ?_, ?_⟩, ?_, ?_⟩ <;>
  decide

end Http

end Saturn
