import Saturn.Http.Http11

/-!
# URL encoding and trimming

`UrlEncode`, `UrlDecode` and `Trim` of `StringUtil`. The encoder and the decoder copy the string
only from the first byte on that they change; both are byte by byte translations, and the decoder
undoes the encoder.
-/

namespace Saturn

namespace Http

/-- The first half of `uri_chars`; the second is all zero. -/
def uriChars : List UInt8 :=
  [0, 0, 0, 0, 0, 0, 0, 0,   0, 0, 0, 0, 0, 0, 0, 0,
   0, 0, 0, 0, 0, 0, 0, 0,   0, 0, 0, 0, 0, 0, 0, 0,
   0, 0, 0, 0, 0, 0, 0, 0,   0, 0, 0, 0, 0, 1, 1, 0,
   1, 1, 1, 1, 1, 1, 1, 1,   1, 1, 0, 0, 0, 1, 0, 0,
   0, 1, 1, 1, 1, 1, 1, 1,   1, 1, 1, 1, 1, 1, 1, 1,
   1, 1, 1, 1, 1, 1, 1, 1,   1, 1, 1, 0, 0, 0, 0, 1,
   0, 1, 1, 1, 1, 1, 1, 1,   1, 1, 1, 1, 1, 1, 1, 1,
   1, 1, 1, 1, 1, 1, 1, 1,   1, 1, 1, 0, 0, 0, 1, 0]

/-- `CHAR_IS_UNRESERVED`. -/
def charIsUnreserved (c : UInt8) : Bool := (uriChars[c.toNat]?).getD 0 != 0

/-- `xdigit_chars`. -/
def xdigitChars (c : UInt8) : UInt8 :=
  if 48 ≤ c && c ≤ 57 then c - 48
  else if 65 ≤ c && c ≤ 70 then c - 55
  else if 97 ≤ c && c ≤ 102 then c - 87
  else 0

/-- `hexdigits` -/
def hexdigits : Bytes := ascii "0123456789ABCDEF"

/-- What `UrlEncode` writes for a byte. -/
def encodeChar (spaceAsPlus : Bool) (c : UInt8) : Bytes :=
  if charIsUnreserved c then [c]
  else if c == 32 && spaceAsPlus then [43]
  else [37, hexdigits.getD (c >>> 4).toNat 0, hexdigits.getD (c &&& 0xf).toNat 0]

/-- The loop of `UrlEncode` behind the bytes `before`; `ss` is `none` until a byte is replaced. -/
def urlEncodeLoop (spaceAsPlus : Bool) (ss : Option Bytes) (before : Bytes) : Bytes → Bytes
  | [] => ss.getD before
  | c :: rest =>
    if charIsUnreserved c then
      urlEncodeLoop spaceAsPlus (ss.map (· ++ [c])) (before ++ [c]) rest
    else
      urlEncodeLoop spaceAsPlus (some (ss.getD before ++ encodeChar spaceAsPlus c)) (before ++ [c])
        rest

/-- `StringUtil::UrlEncode` -/
def urlEncode (str : Bytes) (spaceAsPlus : Bool) : Bytes := urlEncodeLoop spaceAsPlus none [] str

/-- The loop of `UrlDecode` behind the bytes `before`; `ss` is `none` until a byte is replaced. -/
def urlDecodeLoop (spaceAsPlus : Bool) (ss : Option Bytes) (before : Bytes) : Bytes → Bytes
  | [] => ss.getD before
  | 37 :: hi :: lo :: rest =>
    if isXdigit hi && isXdigit lo then
      urlDecodeLoop spaceAsPlus (some (ss.getD before ++ [xdigitChars hi <<< 4 ||| xdigitChars lo]))
        (before ++ [37, hi, lo]) rest
    else
      urlDecodeLoop spaceAsPlus (ss.map (· ++ [37])) (before ++ [37]) (hi :: lo :: rest)
  | c :: rest =>
    if c == 43 && spaceAsPlus then
      urlDecodeLoop spaceAsPlus (some (ss.getD before ++ [32])) (before ++ [c]) rest
    else
      urlDecodeLoop spaceAsPlus (ss.map (· ++ [c])) (before ++ [c]) rest

/-- `StringUtil::UrlDecode` -/
def urlDecode (str : Bytes) (spaceAsPlus : Bool) : Bytes := urlDecodeLoop spaceAsPlus none [] str

/-- `str.find_first_not_of(delimit)` -/
def findFirstNotOf (str delimit : Bytes) : Option Nat := str.findIdx? fun c => !delimit.contains c

/-- `str.find_last_not_of(delimit)` -/
def findLastNotOf (str delimit : Bytes) : Option Nat :=
  (str.reverse.findIdx? fun c => !delimit.contains c).map fun i => str.length - 1 - i

/-- `StringUtil::Trim` -/
def StringUtil.trim (str delimit : Bytes) : Bytes :=
  match findFirstNotOf str delimit, findLastNotOf str delimit with
  | some start, some last => (str.drop start).take (last - start + 1)
  | _, _ => []

/-- The default argument of `Trim`. -/
def whitespace : Bytes := ascii " \t\r\n"

section Encode

variable (spaceAsPlus : Bool)

theorem urlEncodeLoop_some (ss before : Bytes) (rest : Bytes) :
    urlEncodeLoop spaceAsPlus (some ss) before rest =
      ss ++ rest.flatMap (encodeChar spaceAsPlus) := by
  induction rest generalizing ss before with
  | nil => simp [urlEncodeLoop]
  | cons c rest ih =>
      rw [urlEncodeLoop]
      split
      · rename_i hc
        rw [Option.map_some, ih, List.flatMap_cons, encodeChar, if_pos hc, List.append_assoc]
      · rw [Option.getD_some, ih, List.flatMap_cons, List.append_assoc]

theorem urlEncodeLoop_none (before rest : Bytes) :
    urlEncodeLoop spaceAsPlus none before rest =
      before ++ rest.flatMap (encodeChar spaceAsPlus) := by
  induction rest generalizing before with
  | nil => simp [urlEncodeLoop]
  | cons c rest ih =>
      rw [urlEncodeLoop]
      split
      · rename_i hc
        rw [Option.map_none, ih, List.flatMap_cons, encodeChar, if_pos hc, List.append_assoc]
      · rw [Option.getD_none, urlEncodeLoop_some, List.flatMap_cons, List.append_assoc]

theorem urlEncode_eq (str : Bytes) :
    urlEncode str spaceAsPlus = str.flatMap (encodeChar spaceAsPlus) :=
  urlEncodeLoop_none spaceAsPlus [] str

end Encode

section Decode

variable (spaceAsPlus : Bool)

/-- `UrlDecode`, byte by byte. -/
def decodeChars : Bytes → Bytes
  | [] => []
  | 37 :: hi :: lo :: rest =>
    if isXdigit hi && isXdigit lo then
      (xdigitChars hi <<< 4 ||| xdigitChars lo) :: decodeChars rest
    else 37 :: decodeChars (hi :: lo :: rest)
  | c :: rest => (if c == 43 && spaceAsPlus then 32 else c) :: decodeChars rest

theorem urlDecodeLoop_eq (ss : Option Bytes) (before rest : Bytes) :
    urlDecodeLoop spaceAsPlus ss before rest =
      ss.getD before ++ decodeChars spaceAsPlus rest := by
  have hkeep (ss : Option Bytes) (before : Bytes) (c : UInt8) :
      (ss.map (· ++ [c])).getD (before ++ [c]) = ss.getD before ++ [c] := by
    cases ss <;> rfl
  fun_induction urlDecodeLoop spaceAsPlus ss before rest with
  | case1 => simp [decodeChars]
  | case2 ss before hi lo rest h ih =>
      rw [ih, decodeChars, if_pos h, Option.getD_some, List.append_assoc, List.singleton_append]
  | case3 ss before hi lo rest h ih =>
      rw [ih, decodeChars, if_neg h, hkeep, List.append_assoc, List.singleton_append]
  | case4 ss before c rest hshape h ih =>
      rw [ih, decodeChars.eq_3 _ c rest hshape, if_pos h, Option.getD_some, List.append_assoc,
        List.singleton_append]
  | case5 ss before c rest hshape h ih =>
      rw [ih, decodeChars.eq_3 _ c rest hshape, if_neg h, hkeep, List.append_assoc,
        List.singleton_append]

theorem urlDecode_eq (str : Bytes) : urlDecode str spaceAsPlus = decodeChars spaceAsPlus str :=
  urlDecodeLoop_eq spaceAsPlus none [] str

theorem decodeChars_cons_of_ne {c : UInt8} (h : c ≠ 37) (rest : Bytes) :
    decodeChars spaceAsPlus (c :: rest) =
      (if c == 43 && spaceAsPlus then 32 else c) :: decodeChars spaceAsPlus rest := by
  rw [decodeChars]
  rintro hi lo rest' rfl
  exact absurd rfl h

end Decode

section RoundTrip

theorem ne_of_unreserved {c : UInt8} (h : charIsUnreserved c = true) :
    c ≠ 32 ∧ c ≠ 37 ∧ c ≠ 38 ∧ c ≠ 43 := by
  refine ⟨?_, ?_, ?_, ?_⟩ <;> rintro rfl <;> exact absurd h (by decide)

theorem hexdigits_spec (n : Fin 16) :
    isXdigit (hexdigits.getD n 0) = true ∧
      xdigitChars (hexdigits.getD n 0) = UInt8.ofNat n := by
  revert n
  decide

theorem toNat_hi (c : UInt8) : (c >>> 4).toNat = c.toNat / 16 := by
  rw [UInt8.toNat_shiftRight]
  exact Nat.shiftRight_eq_div_pow c.toNat 4

theorem toNat_lo (c : UInt8) : (c &&& 0xf).toNat = c.toNat % 16 := by
  rw [UInt8.toNat_and]
  exact Nat.and_two_pow_sub_one_eq_mod c.toNat 4

theorem nibbles (c : UInt8) : (c >>> 4) <<< 4 ||| (c &&& 0xf) = c := by
  have hmul : (c.toNat / 16) <<< 4 = c.toNat / 16 * 16 := Nat.shiftLeft_eq _ 4
  have hor : (c.toNat / 16) <<< 4 + c.toNat % 16 = (c.toNat / 16) <<< 4 ||| c.toNat % 16 :=
    Nat.shiftLeft_add_eq_or_of_lt (i := 4) (Nat.mod_lt _ (by decide)) _
  have hlt := c.toNat_lt
  have hwrap : ((c.toNat / 16) <<< 4) % 2 ^ 8 = (c.toNat / 16) <<< 4 := by omega
  rw [← UInt8.toNat_inj, UInt8.toNat_or, UInt8.toNat_shiftLeft, toNat_hi, toNat_lo,
    show (4 : UInt8).toNat % 8 = 4 from rfl, hwrap, ← hor]
  omega

theorem hexdigits_of_lt {d : UInt8} (h : d.toNat < 16) :
    isXdigit (hexdigits.getD d.toNat 0) = true ∧ xdigitChars (hexdigits.getD d.toNat 0) = d := by
  have h := hexdigits_spec ⟨d.toNat, h⟩
  rwa [UInt8.ofNat_toNat] at h

theorem hexdigits_hi (c : UInt8) : isXdigit (hexdigits.getD (c >>> 4).toNat 0) = true ∧
    xdigitChars (hexdigits.getD (c >>> 4).toNat 0) = c >>> 4 := by
  have hlt := c.toNat_lt
  refine hexdigits_of_lt ?_
  rw [toNat_hi]
  omega

theorem hexdigits_lo (c : UInt8) : isXdigit (hexdigits.getD (c &&& 0xf).toNat 0) = true ∧
    xdigitChars (hexdigits.getD (c &&& 0xf).toNat 0) = c &&& 0xf := by
  refine hexdigits_of_lt ?_
  rw [toNat_lo]
  omega

/-- The decoder may take `+` for a blank even where the encoder writes none. -/
theorem decodeChars_encodeChar {spaceAsPlus plusAsSpace : Bool}
    (h : spaceAsPlus = true → plusAsSpace = true) (c : UInt8) (rest : Bytes) :
    decodeChars plusAsSpace (encodeChar spaceAsPlus c ++ rest) =
      c :: decodeChars plusAsSpace rest := by
  rw [encodeChar]
  split
  · rename_i hc
    obtain ⟨-, hpercent, -, hplus⟩ := ne_of_unreserved hc
    rw [List.singleton_append, decodeChars_cons_of_ne _ hpercent, if_neg (by simp [hplus])]
  · split
    · rename_i hspace
      obtain ⟨hspace, hplus⟩ := Bool.and_eq_true_iff.mp hspace
      rw [List.singleton_append, decodeChars_cons_of_ne _ (by decide), if_pos (by simp [h hplus]),
        eq_of_beq hspace]
    · obtain ⟨hhi, hhivalue⟩ := hexdigits_hi c
      obtain ⟨hlo, hlovalue⟩ := hexdigits_lo c
      rw [List.cons_append, List.cons_append, List.cons_append, List.nil_append, decodeChars,
        if_pos (by rw [hhi, hlo]; rfl), hhivalue, hlovalue, nibbles]

theorem decodeChars_flatMap {spaceAsPlus plusAsSpace : Bool}
    (h : spaceAsPlus = true → plusAsSpace = true) (str : Bytes) :
    decodeChars plusAsSpace (str.flatMap (encodeChar spaceAsPlus)) = str := by
  induction str with
  | nil => rfl
  | cons c str ih => rw [List.flatMap_cons, decodeChars_encodeChar h, ih]

/-- What `UrlEncode` writes, `UrlDecode` reads back. -/
theorem urlDecode_urlEncode (spaceAsPlus : Bool) (str : Bytes) :
    urlDecode (urlEncode str spaceAsPlus) spaceAsPlus = str := by
  rw [urlDecode_eq, urlEncode_eq, decodeChars_flatMap id]

end RoundTrip

section Trim

variable {str delimit : Bytes}

theorem findFirstNotOf_le {i : Nat} (hi : i < str.length) (h : str[i] ∉ delimit) :
    ∃ start ≤ i, findFirstNotOf str delimit = some start := by
  have hp : (!delimit.contains str[i]) = true := by simpa using h
  refine ⟨str.findIdx fun c => !delimit.contains c, Nat.not_lt.mp fun hlt => ?_,
    List.findIdx?_eq_some_of_exists ⟨_, List.getElem_mem hi, hp⟩⟩
  exact Bool.false_ne_true ((List.not_of_lt_findIdx hlt).symm.trans hp)

theorem le_findLastNotOf {i : Nat} (hi : i < str.length) (h : str[i] ∉ delimit) :
    ∃ last, i ≤ last ∧ findLastNotOf str delimit = some last := by
  have hlt : str.length - 1 - i < str.reverse.length := by
    rw [List.length_reverse]
    omega
  have hnot : str.reverse[str.length - 1 - i] ∉ delimit := by
    rw [List.getElem_reverse]
    simpa only [show str.length - 1 - (str.length - 1 - i) = i by omega] using h
  obtain ⟨k, hk, hfind⟩ := findFirstNotOf_le hlt hnot
  rw [findFirstNotOf] at hfind
  exact ⟨str.length - 1 - k, by omega, by rw [findLastNotOf, hfind]; rfl⟩

theorem mem_of_mem_trim {c : UInt8} (h : c ∈ StringUtil.trim str delimit) : c ∈ str := by
  rw [StringUtil.trim] at h
  split at h
  · exact List.mem_of_mem_drop (List.mem_of_mem_take h)
  · cases h

/-- Only what is trimmed off can be missing. -/
theorem mem_trim {c : UInt8} (hc : c ∈ str) (h : c ∉ delimit) : c ∈ StringUtil.trim str delimit := by
  obtain ⟨i, hi, rfl⟩ := List.getElem_of_mem hc
  obtain ⟨start, hstart, hfirst⟩ := findFirstNotOf_le hi h
  obtain ⟨last, hlast, hfindLast⟩ := le_findLastNotOf hi h
  rw [StringUtil.trim, hfirst, hfindLast]
  refine List.mem_iff_getElem?.mpr ⟨i - start, ?_⟩
  rw [List.getElem?_take_of_lt (by omega), List.getElem?_drop,
    show start + (i - start) = i by omega, List.getElem?_eq_getElem hi]

end Trim

end Http

end Saturn
