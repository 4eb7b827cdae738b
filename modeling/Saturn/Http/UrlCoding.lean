import Saturn.Http.StringUtil

/-!
# What `UrlDecode` reads

`UrlDecode` looks two bytes ahead of its pointer. Here its reads go through positions of the string,
and none of them is outside. A `%` that starts no escape is copied, and the result is never longer
than the input.
-/

namespace Saturn

namespace Http

/-- `*(str.c_str() + i)`, for a byte of the string itself. -/
def readChar (str : Bytes) (i : Nat) : Except Fault UInt8 :=
  match str[i]? with
  | some c => .ok c
  | none => .error .outOfBounds

/-- `(c + 2) < end && isxdigit(*(c + 1)) && isxdigit(*(c + 2))`, and the byte of the two digits. -/
def readEscape (str : Bytes) (i : Nat) : Except Fault (Option UInt8) :=
  if i + 2 < str.length then
    (readChar str (i + 1)).bind fun hi =>
      if isXdigit hi then
        (readChar str (i + 2)).map fun lo =>
          if isXdigit lo then some (xdigitChars hi <<< 4 ||| xdigitChars lo) else none
      else .ok none
  else .ok none

/-- The loop of `UrlDecode`, with `c` at position `i`. -/
def urlDecodeFrom (spaceAsPlus : Bool) (str : Bytes) (i : Nat) (ss : Option Bytes) :
    Except Fault Bytes :=
  if i < str.length then
    (readChar str i).bind fun c =>
      if c == 43 && spaceAsPlus then
        urlDecodeFrom spaceAsPlus str (i + 1) (some (ss.getD (str.take i) ++ [32]))
      else
        (if c == 37 then readEscape str i else .ok none).bind fun
          | some d => urlDecodeFrom spaceAsPlus str (i + 3) (some (ss.getD (str.take i) ++ [d]))
          | none => urlDecodeFrom spaceAsPlus str (i + 1) (ss.map (· ++ [c]))
  else .ok (ss.getD str)
termination_by str.length - i

/-- Two hexadecimal digits come first. -/
def StartsEscape (s : Bytes) : Prop :=
  ∃ hi lo rest, s = hi :: lo :: rest ∧ isXdigit hi = true ∧ isXdigit lo = true

section Reads

variable {spaceAsPlus : Bool} {before rest : Bytes} {a b c : UInt8}

theorem readChar_here (before : Bytes) (c : UInt8) (rest : Bytes) :
    readChar (before ++ c :: rest) before.length = .ok c := by
  simp [readChar]

theorem readEscape_append (before : Bytes) (c hi lo : UInt8) (rest : Bytes) :
    readEscape (before ++ c :: hi :: lo :: rest) before.length = .ok
      (if isXdigit hi && isXdigit lo then some (xdigitChars hi <<< 4 ||| xdigitChars lo)
        else none) := by
  have hhi : readChar (before ++ c :: hi :: lo :: rest) (before.length + 1) = .ok hi := by
    simp [readChar]
  have hlo : readChar (before ++ c :: hi :: lo :: rest) (before.length + 2) = .ok lo := by
    simp [readChar]
  rw [readEscape, if_pos (by simp), hhi, hlo, Except.bind, Except.map]
  cases isXdigit hi <;> cases isXdigit lo <;> rfl

theorem readEscape_short (h : rest.length < 2) :
    readEscape (before ++ c :: rest) before.length = .ok none := by
  rw [readEscape, if_neg]
  rw [List.length_append, List.length_cons]
  omega

theorem exists_cons_cons (h : 2 ≤ rest.length) : ∃ hi lo rest', rest = hi :: lo :: rest' := by
  rcases rest with _ | ⟨hi, _ | ⟨lo, rest'⟩⟩
  · simp at h
  · simp at h
  · exact ⟨hi, lo, rest', rfl⟩

theorem urlDecodeFrom_here (ss : Option Bytes) (before : Bytes) (c : UInt8) (rest : Bytes) :
    urlDecodeFrom spaceAsPlus (before ++ c :: rest) before.length ss =
      if c == 43 && spaceAsPlus then
        urlDecodeFrom spaceAsPlus (before ++ c :: rest) (before.length + 1)
          (some (ss.getD before ++ [32]))
      else
        (if c == 37 then readEscape (before ++ c :: rest) before.length else .ok none).bind fun
          | some d => urlDecodeFrom spaceAsPlus (before ++ c :: rest) (before.length + 3)
              (some (ss.getD before ++ [d]))
          | none => urlDecodeFrom spaceAsPlus (before ++ c :: rest) (before.length + 1)
              (ss.map (· ++ [c])) := by
  rw [urlDecodeFrom, if_pos (by simp), readChar_here, Except.bind, List.take_left]

/-- None of the reads is outside the string. -/
theorem urlDecodeFrom_append (ss : Option Bytes) (before rest : Bytes) :
    urlDecodeFrom spaceAsPlus (before ++ rest) before.length ss =
      .ok (urlDecodeLoop spaceAsPlus ss before rest) := by
  have hnext (before : Bytes) (c : UInt8) (rest : Bytes) :
      before ++ c :: rest = before ++ [c] ++ rest := by
    rw [List.append_assoc, List.singleton_append]
  have hlength (before : Bytes) (c : UInt8) : before.length + 1 = (before ++ [c]).length := by
    rw [List.length_append, List.length_singleton]
  fun_induction urlDecodeLoop spaceAsPlus ss before rest with
  | case1 ss before =>
      rw [urlDecodeFrom, if_neg (by simp), List.append_nil]
  | case2 ss before hi lo rest h ih =>
      rw [urlDecodeFrom_here, if_neg (by simp), if_pos (beq_self_eq_true 37),
        readEscape_append, if_pos h, Except.bind]
      rw [show before ++ 37 :: hi :: lo :: rest = before ++ [37, hi, lo] ++ rest by simp,
        show before.length + 3 = (before ++ [37, hi, lo]).length by simp]
      exact ih
  | case3 ss before hi lo rest h ih =>
      rw [urlDecodeFrom_here, if_neg (by simp), if_pos (beq_self_eq_true 37),
        readEscape_append, if_neg h, Except.bind]
      rw [hnext before, hlength before]
      exact ih
  | case4 ss before c rest hshape h ih =>
      rw [urlDecodeFrom_here, if_pos h, hnext before, hlength before]
      exact ih
  | case5 ss before c rest hshape h ih =>
      have hescape : (if c == 37 then readEscape (before ++ c :: rest) before.length else .ok none) =
          .ok none := by
        split
        · rename_i hc
          refine readEscape_short (Nat.lt_of_not_le fun hle => ?_)
          obtain ⟨hi, lo, rest', rfl⟩ := exists_cons_cons hle
          exact hshape hi lo rest' (eq_of_beq hc) rfl
        · rfl
      rw [urlDecodeFrom_here, if_neg h, hescape, Except.bind]
      rw [hnext before, hlength before]
      exact ih

end Reads

section Decoded

variable {spaceAsPlus : Bool}

/-- An escape decodes to one byte, every other byte to itself or a blank. -/
theorem length_decodeChars_le (str : Bytes) :
    (decodeChars spaceAsPlus str).length ≤ str.length := by
  fun_induction decodeChars spaceAsPlus str with
  | case1 => exact Nat.le_refl 0
  | case2 hi lo rest h ih => grind
  | case3 hi lo rest h ih => grind
  | case4 c rest hshape ih => grind

/-- `%` is no digit, so an escape does not reach over one. -/
theorem startsEscape_of_append {before rest : Bytes} (h : StartsEscape (before ++ 37 :: rest)) :
    StartsEscape before := by
  have hpercent : isXdigit 37 ≠ true := by decide
  obtain ⟨hi, lo, rest', heq, hhi, hlo⟩ := h
  rcases before with _ | ⟨hi', _ | ⟨lo', before⟩⟩
  · injection heq with h₁ _
    exact absurd (h₁ ▸ hhi) hpercent
  · injection heq with _ h₂
    injection h₂ with h₂ _
    exact absurd (h₂ ▸ hlo) hpercent
  · injection heq with h₁ h₂
    injection h₂ with h₂ _
    exact ⟨hi, lo, before, by rw [h₁, h₂], hhi, hlo⟩

theorem decodeChars_percent {rest : Bytes} (h : ¬StartsEscape rest) :
    decodeChars spaceAsPlus (37 :: rest) = 37 :: decodeChars spaceAsPlus rest := by
  rcases Nat.lt_or_ge rest.length 2 with hlt | hle
  · rw [decodeChars, if_neg (by simp)]
    rintro hi lo rest' - rfl
    rw [List.length_cons, List.length_cons] at hlt
    omega
  · obtain ⟨hi, lo, rest', rfl⟩ := exists_cons_cons hle
    rw [decodeChars, if_neg]
    intro hboth
    obtain ⟨hhi, hlo⟩ := Bool.and_eq_true_iff.mp hboth
    exact h ⟨hi, lo, rest', rfl, hhi, hlo⟩

/-- A `%` that starts no escape is copied, and the bytes on its two sides are decoded apart. -/
theorem decodeChars_append {before : Bytes} (rest : Bytes) (h : ¬StartsEscape rest) :
    decodeChars spaceAsPlus (before ++ 37 :: rest) =
      decodeChars spaceAsPlus before ++ 37 :: decodeChars spaceAsPlus rest := by
  fun_induction decodeChars spaceAsPlus before with
  | case1 => exact decodeChars_percent h
  | case2 hi lo before hboth ih =>
      rw [List.cons_append, List.cons_append, List.cons_append, decodeChars, if_pos hboth, ih,
        List.cons_append]
  | case3 hi lo before hboth ih =>
      rw [List.cons_append, List.cons_append, List.cons_append, decodeChars, if_neg hboth,
        List.cons_append, ← ih]
      rfl
  | case4 c before hshape ih =>
      rw [List.cons_append, List.cons_append, ← ih]
      by_cases hc : c = 37
      · have hnot : ¬StartsEscape (before ++ 37 :: rest) := by
          intro hstarts
          obtain ⟨hi, lo, before', rfl, -, -⟩ := startsEscape_of_append hstarts
          exact hshape hi lo before' hc rfl
        rw [hc, decodeChars_percent hnot, if_neg (by simp)]
      · exact decodeChars_cons_of_ne _ hc _

/-- `UrlDecode` undoes `UrlEncode`, stays inside its input and touches only `+` and the escapes. -/
theorem urlDecode_undoes_urlEncode (str : Bytes) (spaceAsPlus : Bool) :
    urlDecode (urlEncode str spaceAsPlus) spaceAsPlus = str ∧
      urlDecode (urlEncode str false) true = str ∧
      urlDecodeFrom spaceAsPlus str 0 none = .ok (urlDecode str spaceAsPlus) ∧
      (urlDecode str spaceAsPlus).length ≤ str.length ∧
      ∀ before rest, str = before ++ 37 :: rest → ¬StartsEscape rest →
        urlDecode str spaceAsPlus =
          urlDecode before spaceAsPlus ++ 37 :: urlDecode rest spaceAsPlus := by
  refine ⟨urlDecode_urlEncode spaceAsPlus str, ?_, urlDecodeFrom_append none [] str, ?_, ?_⟩
  · rw [urlDecode_eq, urlEncode_eq]
    exact decodeChars_flatMap (fun h => absurd h Bool.false_ne_true) str
  · rw [urlDecode_eq]
    exact length_decodeChars_le str
  · rintro before rest rfl h
    rw [urlDecode_eq, urlDecode_eq, urlDecode_eq]
    exact decodeChars_append rest h

end Decoded

end Http

end Saturn
