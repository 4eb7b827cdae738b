import Saturn.Http.HeaderBlock
import Saturn.Http.RequestTarget
import Saturn.Misc.Runs

/-!
# Methods and their tokens

`on_request_method` gets the token and its length, but compares the buffer from the token on with
each name, for as long as the name is. `StringToHttpMethod` compares whole strings. The two agree
exactly on the tokens that do not go on behind a method's name.
-/

namespace Saturn

namespace Http

/-- `strcmp(s, t) == 0`. -/
def strcmpEq (s t : Bytes) : Bool := cstr s == cstr t

/-- The method whose name `m` is. -/
def stringToHttpMethod (m : Bytes) : HttpMethod :=
  ((httpMethodMap.find? fun e => strcmpEq (ascii e.2) m).map Prod.fst).getD .invalidMethod

/-- The parser behind a method that is read as exactly its token. -/
def HttpRequestParser.withMethod (r : HttpRequestParser) (token : Bytes) : HttpRequestParser :=
  if stringToHttpMethod token = .invalidMethod then { r with error := 1000 }
  else { r with data.method := stringToHttpMethod token }

/-- The method of a request line is its token: both functions find the same method, the callback
stores it or sets error 1000, and the machine goes on behind the blank with that. -/
structure MethodIsToken (rest : Http11Rest) (r : HttpRequestParser) (before token after : Bytes) :
    Prop where
  agree : charsToHttpMethod (token ++ 32 :: after) = stringToHttpMethod token
  callback : onRequestMethod r (before ++ (token ++ 32 :: after)) before.length token.length =
    .ok (r.withMethod token)
  machine : scan (http11Step rest (before ++ (token ++ 32 :: after))) (httpParserStart, r)
      before.length (token ++ 32 :: after) =
    scan (http11Step rest (before ++ (token ++ 32 :: after)))
      (3, { r with parser.mark := before.length }.withMethod token)
      (before.length + token.length + 1) after

section Names

variable {token after : Bytes}

theorem httpMethodMap_injective : ∀ e ∈ httpMethodMap, ∀ e' ∈ httpMethodMap, e.1 = e'.1 → e = e' := by
  decide

/-- No name goes on behind another. -/
theorem httpMethodMap_prefixFree : ∀ e ∈ httpMethodMap, ∀ e' ∈ httpMethodMap,
    (ascii e.2).isPrefixOf (ascii e'.2) = true → e.1 = e'.1 := by
  decide +kernel

theorem httpMethodMap_cstr : ∀ e ∈ httpMethodMap, cstr (ascii e.2) = ascii e.2 := by
  decide

theorem httpMethodMap_valid : ∀ e ∈ httpMethodMap, e.1 ≠ .invalidMethod := by
  decide

/-- A method's token has no blank and no NUL. -/
theorem not_mem_of_isMethodName (h : isMethodName token = true) :
    (32 : UInt8) ∉ token ∧ cstr token = token := by
  rw [isMethodName, Bool.and_eq_true, List.all_eq_true] at h
  refine ⟨fun hmem => absurd (h.2 32 hmem) (by decide), ?_⟩
  exact takeWhile_ne_self fun hmem => absurd (h.2 0 hmem) (by decide)

theorem isMethodName_length (h : isMethodName token = true) : token.length ≤ 20 := by
  rw [isMethodName, Bool.and_eq_true, Bool.and_eq_true] at h
  exact of_decide_eq_true h.1.2

/-- The blank behind the token ends the comparison. -/
theorem isPrefixOf_token {e : HttpMethod × String} (he : e ∈ httpMethodMap) :
    (ascii e.2).isPrefixOf (token ++ 32 :: after) = true ↔ ascii e.2 <+: token := by
  rw [List.isPrefixOf_iff_prefix]
  refine ⟨fun hpre => ?_, fun hpre => hpre.trans (List.prefix_append token _)⟩
  rcases List.prefix_or_prefix_of_prefix hpre (List.prefix_append token (32 :: after)) with h | h
  · exact h
  · obtain ⟨t, ht⟩ := h
    rw [← ht, List.prefix_append_right_inj] at hpre
    cases t with
    | nil =>
        rw [List.append_nil] at ht
        exact ht ▸ List.prefix_rfl
    | cons c t =>
        have hc : c = 32 := (List.cons_prefix_cons.mp hpre).1
        have hmem : (32 : UInt8) ∈ ascii e.2 := by
          rw [← ht, hc]
          exact List.mem_append_right _ List.mem_cons_self
        exact absurd hmem (httpMethodMap_no_space e he)

theorem strcmpEq_token {e : HttpMethod × String} (he : e ∈ httpMethodMap)
    (h : isMethodName token = true) : strcmpEq (ascii e.2) token = true ↔ ascii e.2 = token := by
  rw [strcmpEq, httpMethodMap_cstr e he, (not_mem_of_isMethodName h).2, beq_iff_eq]

theorem charsToHttpMethod_of_prefix {e : HttpMethod × String} (he : e ∈ httpMethodMap)
    (hpre : ascii e.2 <+: token) : charsToHttpMethod (token ++ 32 :: after) = e.1 := by
  rw [charsToHttpMethod]
  cases hfind : httpMethodMap.find? fun e => (ascii e.2).isPrefixOf (token ++ 32 :: after) with
  | none => exact absurd ((isPrefixOf_token he).mpr hpre) (List.find?_eq_none.mp hfind e he)
  | some e' =>
      have he' := List.mem_of_find?_eq_some hfind
      have hfound : (ascii e'.2).isPrefixOf (token ++ 32 :: after) = true := by
        simpa using List.find?_some hfind
      rcases List.prefix_or_prefix_of_prefix ((isPrefixOf_token he').mp hfound) hpre with h | h
      · exact httpMethodMap_prefixFree e' he' e he (List.isPrefixOf_iff_prefix.mpr h)
      · exact (httpMethodMap_prefixFree e he e' he' (List.isPrefixOf_iff_prefix.mpr h)).symm

theorem token_of_stringToHttpMethod {e : HttpMethod × String} (he : e ∈ httpMethodMap)
    (h : isMethodName token = true) (hm : stringToHttpMethod token = e.1) : ascii e.2 = token := by
  rw [stringToHttpMethod] at hm
  cases hfind : httpMethodMap.find? fun e => strcmpEq (ascii e.2) token with
  | none =>
      rw [hfind] at hm
      exact absurd hm.symm (httpMethodMap_valid e he)
  | some e' =>
      rw [hfind] at hm
      have he' := List.mem_of_find?_eq_some hfind
      rw [← httpMethodMap_injective e' he' e he hm]
      exact (strcmpEq_token he' h).mp (by simpa using List.find?_some hfind)

/-- The two functions agree exactly where no name stops short of the token's end. -/
theorem charsToHttpMethod_eq_iff (h : isMethodName token = true) :
    charsToHttpMethod (token ++ 32 :: after) = stringToHttpMethod token ↔
      ∀ e ∈ httpMethodMap, ascii e.2 <+: token → ascii e.2 = token := by
  constructor
  · intro heq e he hpre
    exact token_of_stringToHttpMethod he h (heq ▸ charsToHttpMethod_of_prefix he hpre)
  · intro hexact
    rw [charsToHttpMethod, stringToHttpMethod, ← List.head?_filter, ← List.head?_filter,
      List.filter_congr]
    intro e he
    rw [Bool.eq_iff_iff, isPrefixOf_token he, strcmpEq_token he h]
    exact ⟨hexact e he, fun heq => heq ▸ List.prefix_rfl⟩

end Names

section Machine

variable {rest : Http11Rest} {r : HttpRequestParser} {buf token after : Bytes}

/-- On a method's token and the blank behind it, the machine sets the mark at the first byte and
calls `on_request_method` once, with the token. -/
theorem scan_method (h : isMethodName token = true) (p : Nat) :
    scan (http11Step rest buf) (httpParserStart, r) p (token ++ 32 :: after) =
      (onRequestMethod { r with parser.mark := p } buf p token.length).bind fun r =>
        scan (http11Step rest buf) (3, r) (p + token.length + 1) after := by
  rw [isMethodName, Bool.and_eq_true, Bool.and_eq_true, decide_eq_true_eq, decide_eq_true_eq] at h
  obtain ⟨⟨hne, hlen⟩, hall⟩ := h
  obtain ⟨c, w, rfl⟩ := List.exists_cons_of_ne_nil hne
  rw [List.all_cons, Bool.and_eq_true] at hall
  rw [List.length_cons] at hlen
  have hfirst : http11Step rest buf (httpParserStart, r) p c =
      .ok (.goto (2, { r with parser.mark := p })) := by
    have hnext : http11Next rest r.parser.uriRelaxed httpParserStart c = .goto [.mark] 2 :=
      next_method_first hall.1
    simp only [http11Step, hnext]
    rfl
  have hw : reads rest r.parser.uriRelaxed 2 w = some (methodState (1 + w.length)) :=
    reads_method hall.2 1 (Nat.le_refl 1) (by omega)
  have hspace := next_method_space rest r.parser.uriRelaxed
    (List.mem_range'_1.mpr ⟨Nat.le_add_right 1 w.length, by omega⟩)
  have hlenFrom : lenFrom p (p + 1 + w.length) = w.length + 1 := by
    rw [Nat.add_assoc, lenFrom_add, Nat.add_comm]
  rw [List.cons_append, scan_cons_goto _ hfirst]
  have hmark : ({ r with parser.mark := p } : HttpRequestParser).parser.mark = p := rfl
  have hrelaxed : ({ r with parser.mark := p } : HttpRequestParser).parser.uriRelaxed =
      r.parser.uriRelaxed := rfl
  generalize ({ r with parser.mark := p } : HttpRequestParser) = r' at hmark hrelaxed ⊢
  rw [scan_reads hrelaxed hw, scan, http11Step, hrelaxed, hspace]
  simp only [runActions, Action.run, hmark, hlenFrom, List.length_cons]
  cases onRequestMethod r' buf p (w.length + 1) with
  | error => rfl
  | ok r'' =>
      simp only [Except.bind, Except.map]
      rw [Nat.add_right_comm p 1, Nat.add_assoc p]

theorem onRequestMethod_token (h : isMethodName token = true) (r : HttpRequestParser) (before : Bytes)
    (heq : charsToHttpMethod (token ++ 32 :: after) = stringToHttpMethod token) :
    onRequestMethod r (before ++ (token ++ 32 :: after)) before.length token.length =
      .ok (r.withMethod token) := by
  have hmax : ¬stringMaxSize < token.length := by
    have hlen := isMethodName_length h
    simp only [stringMaxSize]
    omega
  simp only [onRequestMethod, List.drop_left, heq, HttpRequestParser.withMethod]
  split
  · rw [makeString, if_neg hmax]
    rfl
  · rfl

/-- The method is exactly the token, unless a method's name stops short of the token's end. -/
theorem methodIsToken_iff (rest : Http11Rest) (r : HttpRequestParser) (before token after : Bytes)
    (h : isMethodName token = true) :
    MethodIsToken rest r before token after ↔
      ∀ e ∈ httpMethodMap, ascii e.2 <+: token → ascii e.2 = token := by
  rw [← charsToHttpMethod_eq_iff h]
  refine ⟨MethodIsToken.agree, fun heq => ⟨heq, onRequestMethod_token h r before heq, ?_⟩⟩
  rw [scan_method h, onRequestMethod_token h _ before heq]
  rfl

theorem delete_isToken : MethodIsToken .refuse (.new ⟨0, false⟩) [] (ascii "DELETE") (ascii "/a") :=
  (methodIsToken_iff .refuse (.new ⟨0, false⟩) [] (ascii "DELETE") (ascii "/a") (by decide)).mpr
    (by decide)

/-- `GETX` is no method's name and passes for `GET`. -/
theorem getx_isNoToken : isMethodName (ascii "GETX") = true ∧
    stringToHttpMethod (ascii "GETX") = .invalidMethod ∧
    ¬MethodIsToken .refuse (.new ⟨0, false⟩) [] (ascii "GETX") (ascii "/ HTTP/1.1") := by
  refine ⟨by decide, by decide, fun h => ?_⟩
  exact absurd h.agree (by decide)

end Machine

end Http

end Saturn
