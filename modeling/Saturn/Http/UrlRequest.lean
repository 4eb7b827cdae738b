import Saturn.Http.DoRequest
import Saturn.Http.RoundTrip
import Saturn.Uri.Reparse

/-!
# From a URL to the server

`DoRequest` makes a request of a URL and `HttpServer` reads it: what the grammar of one of the machines
calls a path, a query and a fragment, the other one takes for the same, but for bytes that are not ASCII
and for a path that begins with two slashes. So the server gets the components of the URL.
-/

namespace Saturn

open Http (Bytes ascii isWord isSegment isPathChar isQueryChar isXdigit isFieldValue lookup_mem)

namespace Uri

/-! ## The words of a URI -/

section Words

variable {rest : Rest} {ok : UInt8 → Bool} {P : UInt8 → Prop} {L : List Nat} {a t : Nat}

/-- The states `L` go round on characters, and on escapes by way of `a` and `a + 1`, which are not
final. -/
structure Words (rest : Rest) (P : UInt8 → Prop) (ok : UInt8 → Bool) (L : List Nat) (a : Nat) : Prop where
  char : ∀ s ∈ L, ∀ c actions t, P c → c ≠ 37 → next rest s c = some (actions, t) → ok c = true ∧ t ∈ L
  percent : ∀ s ∈ L, ∀ actions t, next rest s 37 = some (actions, t) → t = a
  high : ∀ c actions t, next rest a c = some (actions, t) → isXdigit c = true ∧ t = a + 1
  low : ∀ c actions t, next rest (a + 1) c = some (actions, t) → isXdigit c = true ∧ t ∈ L
  inner : a + 1 < 451

/-- What is read to its end from such a state is a word. -/
theorem Words.isWord (h : Words rest P ok L a) : ∀ {w : Bytes} {s : Nat}, s ∈ L → (∀ c ∈ w, P c) →
    run rest s w = some t → 451 ≤ t → isWord ok w = true := by
  intro w
  have hinner := h.inner
  induction w using Http.isWord.induct with
  | case1 => exact fun _ _ _ _ => rfl
  | case2 b b' w ih =>
      intro s hs hw hrun ht
      obtain ⟨_, s₁, hpct, hrun₁⟩ := run_cons_eq_some.mp hrun
      obtain rfl := h.percent s hs _ _ hpct
      obtain ⟨_, s₂, hhigh, hrun₂⟩ := run_cons_eq_some.mp hrun₁
      obtain ⟨hb, rfl⟩ := h.high b _ _ hhigh
      obtain ⟨_, s₃, hlow, hrun₃⟩ := run_cons_eq_some.mp hrun₂
      obtain ⟨hb', hs₃⟩ := h.low b' _ _ hlow
      have hrest := ih hs₃ (fun c hc => hw c (by simp [hc])) hrun₃ ht
      rw [Http.isWord, hb, hb', hrest]
      rfl
  | case3 c w hne ih =>
      intro s hs hw hrun ht
      obtain ⟨_, s₁, hnext, hrun₁⟩ := run_cons_eq_some.mp hrun
      by_cases hc : c = 37
      · -- an escape that is cut short does not end in a final state
        subst hc
        obtain rfl := h.percent s hs _ _ hnext
        rcases w with _ | ⟨b, _ | ⟨b', w⟩⟩
        · obtain rfl : s₁ = t := Option.some.inj hrun₁
          omega
        · obtain ⟨_, s₂, hhigh, hrun₂⟩ := run_cons_eq_some.mp hrun₁
          obtain ⟨-, rfl⟩ := h.high b _ _ hhigh
          obtain rfl : s₁ + 1 = t := Option.some.inj hrun₂
          omega
        · exact absurd rfl (hne b b' w rfl)
      · obtain ⟨hok, hs₁⟩ := h.char s hs c _ _ (hw c List.mem_cons_self) hc hnext
        rw [Http.isWord, hok, ih hs₁ (fun b hb => hw b (List.mem_cons_of_mem _ hb)) hrun₁ ht]
        · rfl
        · exact hne

/-- The first digit of an escape, or the second. -/
theorem next_xdigit {s u : Nat} {c : UInt8} {actions : List Action}
    (hrow : table.lookup s = some (silent [(.xdigit, u)])) (h : next rest s c = some (actions, t)) :
    isXdigit c = true ∧ t = u := by
  rw [next_of_lookup hrow, silent, List.map_singleton, rowNext_cons_eq_some] at h
  rcases h with ⟨hhas, heq⟩ | ⟨-, hnil⟩
  · exact ⟨hhas, (Prod.mk.inj heq).2.symm⟩
  · cases hnil

/-- Of the characters of a URI, the ASCII ones are characters of a request target. -/
theorem isSegment_of_isNoColon {c : UInt8} (relaxed : Bool) (h : isNoColon c = true) (hc : c < 128) :
    (isSegment relaxed c || c == 64) = true := by
  have hhigh : decide (128 ≤ c) = false := decide_eq_false (UInt8.not_le.mpr hc)
  have hmono : isSegment false c = true → isSegment relaxed c = true := by
    cases relaxed
    · exact id
    · intro h
      rw [isSegment, Bool.false_and, Bool.or_false] at h
      rw [isSegment, h]
      rfl
  rw [isNoColon, hhigh, Bool.or_false, isName, Bool.or_eq_true] at h
  rw [Bool.or_eq_true]
  exact h.imp_left hmono

theorem isPathChar_of_has {c : UInt8} (relaxed : Bool) (h : CharClass.path.has c = true)
    (hc : c < 128) : isPathChar relaxed c = true := by
  simp only [CharClass.has, Bool.or_eq_true] at h
  have hsegment := isSegment_of_isNoColon (c := c) relaxed
  simp only [isPathChar, Bool.or_eq_true] at hsegment ⊢
  tauto

theorem isQueryChar_of_has {c : UInt8} (relaxed : Bool) (h : CharClass.query.has c = true)
    (hc : c < 128) : isQueryChar relaxed c = true := by
  simp only [CharClass.has, Bool.or_eq_true] at h
  have hsegment := isSegment_of_isNoColon (c := c) relaxed
  simp only [isQueryChar, Bool.or_eq_true] at hsegment ⊢
  tauto

/-- Rows of a class of characters, with the bytes that end the word, and the rows of an escape. -/
theorem words_of_rows (k : CharClass) (ends : List UInt8) {u : Nat}
    (hk : ∀ c, P c → k.has c = true → ok c = true) (hpct : k.has 37 = false ∧ 37 ∉ ends)
    (hends : ∀ b ∈ ends, ¬P b)
    (hrows : ∀ s ∈ L, ∃ row, table.lookup s = some row ∧ ∀ e ∈ row,
      (e.1 = .byte 37 ∧ e.2.2 = a) ∨ (∃ b ∈ ends, e.1 = .byte b) ∨ e.1 = k ∧ e.2.2 ∈ L)
    (hhigh : table.lookup a = some (silent [(.xdigit, a + 1)]))
    (hlow : table.lookup (a + 1) = some (silent [(.xdigit, u)])) (hu : u ∈ L) (hinner : a + 1 < 451) :
    Words rest P ok L a where
  char s hs c actions t hc hne h := by
    obtain ⟨row, hrow, hall⟩ := hrows s hs
    obtain ⟨k', hmem, hhas⟩ := next_cases_of_mem hrow h
    rcases hall _ hmem with ⟨rfl, -⟩ | ⟨b, hb, rfl⟩ | ⟨rfl, ht⟩
    · exact absurd (eq_of_beq hhas) hne
    · obtain rfl : c = b := eq_of_beq hhas
      exact absurd hc (hends c hb)
    · exact ⟨hk c hc hhas, ht⟩
  percent s hs actions t h := by
    obtain ⟨row, hrow, hall⟩ := hrows s hs
    obtain ⟨k', hmem, hhas⟩ := next_cases_of_mem hrow h
    rcases hall _ hmem with ⟨-, ht⟩ | ⟨b, hb, rfl⟩ | ⟨rfl, -⟩
    · exact ht
    · obtain rfl : 37 = b := eq_of_beq hhas
      exact absurd hb hpct.2
    · rw [hpct.1] at hhas
      cases hhas
  high c actions t h := next_xdigit hhigh h
  low c actions t h := by
    obtain ⟨hc, rfl⟩ := next_xdigit hlow h
    exact ⟨hc, hu⟩
  inner := hinner

theorem words_path (relaxed : Bool) :
    Words rest (fun c => c < 128 ∧ c ≠ 63 ∧ c ≠ 35) (isPathChar relaxed) [513] 243 := by
  refine words_of_rows .path [63, 35] (fun c hc h => isPathChar_of_has relaxed h hc.1) (by decide)
    (by simp) (fun s hs => ?_) rfl rfl List.mem_cons_self (by decide)
  obtain rfl := List.mem_singleton.mp hs
  exact ⟨_, rfl, by decide⟩

theorem words_query (relaxed : Bool) :
    Words rest (fun c => c < 128 ∧ c ≠ 35) (isQueryChar relaxed) [456, 457] 7 := by
  refine words_of_rows (u := 457) .query [35] (fun c hc h => isQueryChar_of_has relaxed h hc.1)
    (by decide) (by simp) (fun s hs => ?_) rfl rfl (by decide) (by decide)
  simp only [List.mem_cons, List.not_mem_nil, or_false] at hs
  rcases hs with rfl | rfl
  · exact ⟨_, rfl, by decide⟩
  · exact ⟨_, rfl, by decide⟩

theorem words_fragment (relaxed : Bool) :
    Words rest (fun c => c < 128) (isQueryChar relaxed) [453, 454] 1 := by
  refine words_of_rows (u := 454) .query [] (fun c hc h => isQueryChar_of_has relaxed h hc)
    (by decide) (by simp) (fun s hs => ?_) rfl rfl (by decide) (by decide)
  simp only [List.mem_cons, List.not_mem_nil, or_false] at hs
  rcases hs with rfl | rfl
  · exact ⟨_, rfl, by decide⟩
  · exact ⟨_, rfl, by decide⟩

end Words

/-! ## The bytes of an authority -/

section Graphic

variable {rest : Rest} {cs t : Nat} {c : UInt8} {actions : List Action}

/-- A byte that may stand anywhere in a header field, but for the byte 2 that the grammar has for the
digit of an octet. -/
def isGraphic (c : UInt8) : Bool := c == 2 || (32 < c && c != 127)

theorem graphic_next (hphase : phase cs ≠ .none) (hc : isDelim c = false)
    (h : next rest cs c = some (actions, t)) : phase t ≠ .none ∧ isGraphic c = true := by
  have hrows : ∀ row ∈ table, phase row.1 ≠ .none → ∀ e ∈ row.2,
      delimClasses.contains e.1 = true ∨ phase e.2.2 ≠ .none ∧ e.1 ∈ CharClass.byte 91 :: innerClasses := by
    decide +kernel
  have hclasses : ∀ n : Fin 256, ∀ k ∈ CharClass.byte 91 :: innerClasses,
      k.has (UInt8.ofNat n) = true → isGraphic (UInt8.ofNat n) = true := by
    decide +kernel
  obtain ⟨row, k, hrow, he, hhas⟩ := next_cases hphase h
  rcases hrows _ hrow hphase _ he with hdelim | ⟨hnext, hk⟩
  · rw [isDelim_of_class (List.contains_iff_mem.mp hdelim) hhas] at hc
    cases hc
  · exact ⟨hnext, Http.forall_byte (P := fun c => ∀ k ∈ CharClass.byte 91 :: innerClasses,
      k.has c = true → isGraphic c = true) hclasses c k hk hhas⟩

theorem graphic_run : ∀ {w : Bytes} {cs : Nat}, phase cs ≠ .none → (∀ c ∈ w, isDelim c = false) →
    run rest cs w = some t → ∀ c ∈ w, isGraphic c = true := by
  intro w
  induction w with
  | nil => exact fun _ _ _ c hc => absurd hc List.not_mem_nil
  | cons b w ih =>
      intro cs hphase hw hrun c hc
      obtain ⟨_, _, hnext, hrun'⟩ := run_cons_eq_some.mp hrun
      obtain ⟨hphase', hb⟩ := graphic_next hphase (hw b List.mem_cons_self) hnext
      rcases List.mem_cons.mp hc with rfl | hc
      · exact hb
      · exact ih hphase' (fun c hc => hw c (List.mem_cons_of_mem _ hc)) hrun' c hc

end Graphic

/-- The URL is ASCII where the server looks, and its path does not begin with two slashes. -/
structure Components.Plain (parts : Components) : Prop where
  authority : 2 ∉ parts.authority
  path : ∀ c ∈ parts.path, c < 128
  slash : (parts.path.drop 1).head? ≠ some 47
  query : ∀ c ∈ parts.query.getD [], c < 128
  fragment : ∀ c ∈ parts.fragment.getD [], c < 128

section Target

variable {rest : Rest} {parts : Components}

theorem isPathAbsolute_getPath (relaxed : Bool) (h : Accepts rest parts) (hplain : parts.Plain) :
    Http.IsPathAbsolute relaxed parts.decoded.getPath := by
  have hpath : parts.decoded.path = parts.path := rfl
  rw [getPath, hpath]
  split
  · exact ⟨[], rfl, rfl, by decide⟩
  · rename_i hne
    obtain ⟨c, w, hcons⟩ := List.exists_cons_of_ne_nil hne
    obtain rfl : c = 47 := by simpa [hcons] using parts.path_valid
    have hend := parts.path_end
    have hascii := hplain.path
    have hslash := hplain.slash
    rw [hcons] at hend hascii hslash
    refine ⟨w, hcons, (words_path relaxed).isWord List.mem_cons_self (fun c hc => ?_) (h.path w hcons)
      (by decide), hslash⟩
    refine ⟨hascii c (List.mem_cons_of_mem _ hc), ?_, ?_⟩
    · rintro rfl
      exact hend.1 (List.mem_cons_of_mem _ hc)
    · rintro rfl
      exact hend.2 (List.mem_cons_of_mem _ hc)

theorem isWord_query (relaxed : Bool) (h : Accepts rest parts) (hplain : parts.Plain) :
    isWord (isQueryChar relaxed) parts.decoded.query = true := by
  change isWord _ (parts.query.getD []) = true
  have hascii := hplain.query
  cases hq : parts.query with
  | none => rfl
  | some w =>
      rw [hq] at hascii
      obtain ⟨t, hrun, ht⟩ := h.query w hq
      refine (words_query relaxed).isWord List.mem_cons_self (fun c hc => ⟨hascii c hc, ?_⟩) hrun ht
      rintro rfl
      exact parts.query_end w hq hc

theorem isWord_fragment (relaxed : Bool) (h : Accepts rest parts) (hplain : parts.Plain) :
    isWord (isQueryChar relaxed) parts.decoded.fragment = true := by
  change isWord _ (parts.fragment.getD []) = true
  have hascii := hplain.fragment
  cases hf : parts.fragment with
  | none => rfl
  | some w =>
      rw [hf] at hascii
      obtain ⟨t, hrun, ht⟩ := h.fragment w hf
      exact (words_fragment relaxed).isWord List.mem_cons_self hascii hrun ht

theorem isFieldValue_host (h : Accepts rest parts) (hplain : parts.Plain) :
    isFieldValue parts.decoded.host = true := by
  obtain ⟨cs, hrun, -⟩ := h.authority
  have hgraphic := graphic_run (by decide) parts.authority_valid hrun
  have hhost : ∀ c ∈ hostOf parts.authority, 32 < c ∧ c ≠ 127 := by
    intro c hc
    have hmem := mem_of_mem_hostOf hc
    have hne : c ≠ 2 := by
      rintro rfl
      exact hplain.authority hmem
    simpa [isGraphic, hne] using hgraphic c hmem
  change isFieldValue (hostOf parts.authority) = true
  rw [isFieldValue, Bool.and_eq_true, List.all_eq_true, bne_iff_ne]
  refine ⟨fun c hc => ?_, fun hhead => ?_⟩
  · obtain ⟨hlt, hne⟩ := hhost c hc
    rw [Bool.and_eq_true, bne_iff_ne, decide_eq_true_eq]
    exact ⟨UInt8.le_of_lt hlt, hne⟩
  · exact absurd (hhost 32 (List.mem_of_mem_head? hhead)).1 (by decide)

end Target

end Uri

namespace Http

/-! ## The request -/

/-- The name of a field that `dump` does not add itself. -/
def IsOwnName (name : Bytes) : Prop := name ≠ [] ∧ name.all isTokenChar = true ∧ isAdded name = false

/-- The fields of the caller can stand in a header block. -/
def StringMap.Writable (headers : StringMap) : Prop :=
  ∀ i ∈ headers.entries, isName "connection" i = false → IsOwnName i.1 ∧ isFieldValue i.2 = true

/-- The value that the caller's map has last under a name. -/
def StringMap.last (headers : StringMap) (name : Bytes) : Option Bytes :=
  (headers.entries.filter fun i => caseFold i.1 = caseFold name).getLast?.map Prod.snd

/-- The server has received what the client was called with. -/
structure Carries (parts : Uri.Components) (method : HttpMethod) (close : Bool) (host : Bytes)
    (headers : StringMap) (body : Bytes) (req : HttpRequest) : Prop where
  method : req.method = method
  path : req.path = if parts.path = [] then ascii "/" else parts.path
  query : req.query = parts.query.getD []
  fragment : req.fragment = parts.fragment.getD []
  body : req.body = body
  close : req.close = true ↔ close = true ∧ ¬headers.Passes "keep-alive"
  host : ¬headers.GivesHost → req.headers.lookup (ascii "host") = some host
  field : ∀ name, isAdded name = false →
    (caseFold name = caseFold (ascii "host") → headers.GivesHost) →
    req.headers.lookup name = headers.last name

/-- However the bytes of the request are cut, with its header block in the first read, the server
receives a request that meets `P`, and leaves nothing behind. -/
def Reaches (env : Env) (junk : Junk) (r : HttpRequest) (P : HttpRequest → Prop) : Prop :=
  ∀ s : Stream, s.unread = r.dump → r.head.length ≤ s.ready env.bufferSize →
    ∃ (req : HttpRequest) (t : Stream) (n : Nat),
      recvRequest env junk s = .ok ⟨some (req, t), n⟩ ∧ t.unread = [] ∧ P req

section Map

variable {P Q : Bytes → Prop} {m fields : MapType} {key val name : Bytes}

theorem MapType.forall_set (h : ∀ e ∈ m, P e.1 ∧ Q e.2) (hkey : P key) (hval : Q val) :
    ∀ e ∈ set m key val, P e.1 ∧ Q e.2 := by
  induction m with
  | nil =>
      intro e he
      rw [set, List.mem_singleton] at he
      subst he
      exact ⟨hkey, hval⟩
  | cons head m ih =>
      obtain ⟨k, v⟩ := head
      obtain ⟨hhead, htail⟩ := List.forall_mem_cons.mp h
      rw [set]
      split
      · exact List.forall_mem_cons.mpr ⟨hhead, ih htail⟩
      · split
        · exact List.forall_mem_cons.mpr ⟨⟨hkey, hval⟩, h⟩
        · exact List.forall_mem_cons.mpr ⟨⟨hhead.1, hval⟩, htail⟩

/-- Names and values of a map come from the fields that are set in it. -/
theorem MapType.forall_setAll (h : ∀ e ∈ m, P e.1 ∧ Q e.2) (hfields : ∀ e ∈ fields, P e.1 ∧ Q e.2) :
    ∀ e ∈ setAll m fields, P e.1 ∧ Q e.2 := by
  induction fields generalizing m with
  | nil => exact h
  | cons e fields ih =>
      obtain ⟨hhead, htail⟩ := List.forall_mem_cons.mp hfields
      exact ih (forall_set h hhead.1 hhead.2) htail

/-- A filter that has the name passes through does not change what is found. -/
theorem MapType.lookup_filter {p : Bytes × Bytes → Bool}
    (hp : ∀ e : Bytes × Bytes, caseFold e.1 = caseFold name → p e = true) :
    lookup (m.filter p) name = lookup m name := by
  rw [lookup_eq_find, lookup_eq_find]
  congr 1
  induction m with
  | nil => rfl
  | cons e m ih =>
      by_cases hname : caseFold e.1 = caseFold name
      · simp [hp e hname, hname]
      · by_cases hpass : p e = true
        · simp [hpass, hname, ih]
        · simp [hpass, hname, ih]

end Map

section Fill

variable {req : HttpRequest} {parts : Uri.Components} {method : HttpMethod} {close : Bool}
  {host name body : Bytes} {headers : StringMap}

/-- The fields that the loop over the caller's headers sets, and the `Host` behind them. -/
def StringMap.fields (headers : StringMap) (host : Bytes) : MapType :=
  (headers.entries.filter fun i => !isName "connection" i) ++
    if headers.entries.any fun i => isName "host" i && !i.2.isEmpty then [] else [(ascii "Host", host)]

theorem fillRequest_eq (hreq : req.headers = []) : fillRequest req host headers body =
    { req with
      close := req.close && !headers.entries.any fun i => isName "connection" i && isValue "keep-alive" i
      headers := MapType.setAll [] (headers.fields host)
      body } := by
  rw [fillRequest, foldl_addHeader, hreq, StringMap.fields]
  cases (headers.entries.any fun i => isName "host" i && !i.2.isEmpty) with
  | false => simp [HttpRequest.setHeader, MapType.setAll_append]
  | true => simp

/-- The request for the target of a `Uri`. -/
def targetRequest (method : HttpMethod) (uri : Uri) (close : Bool) : HttpRequest :=
  { HttpRequest.new with
    path := uri.getPath, query := uri.query, fragment := uri.fragment, method, close }

variable (method body headers) in
/-- A pool, which takes the target for a path, writes the same header block. -/
theorem head_doRequest (pool : HttpConnectionPool) (uri : Uri) :
    (pool.doRequest method uri headers body).head =
      (fillRequest (targetRequest method uri false) pool.defaultHost headers body).head := by
  have hline : (pool.doRequest method uri headers body).startLine =
      (fillRequest (targetRequest method uri false) pool.defaultHost headers body).startLine := by
    rw [← startLine_doRequest, HttpConnection.doRequest, fillRequest_startLine, fillRequest_startLine]
    rfl
  have hblock : (pool.doRequest method uri headers body).headerBlock =
      (fillRequest (targetRequest method uri false) pool.defaultHost headers body).headerBlock := by
    rw [HttpConnectionPool.doRequest, HttpConnectionPool.doRequestUrl, fillRequest_eq rfl,
      fillRequest_eq rfl]
    rfl
  rw [HttpRequest.head, HttpRequest.head, hline, hblock]

variable (method body headers) in
theorem dump_doRequest (pool : HttpConnectionPool) (uri : Uri) :
    (pool.doRequest method uri headers body).dump =
      (fillRequest (targetRequest method uri false) pool.defaultHost headers body).dump := by
  rw [HttpRequest.dump, HttpRequest.dump, head_doRequest]
  rfl

theorem ne_of_not_isAdded (h : isAdded name = false) :
    caseFold name ≠ caseFold (ascii "connection") ∧
      caseFold name ≠ caseFold (ascii "content-length") := by
  simpa [isAdded] using h

theorem fields_ok (hheaders : headers.Writable) (hhost : isFieldValue host = true) :
    ∀ e ∈ headers.fields host, IsOwnName e.1 ∧ isFieldValue e.2 = true := by
  intro e he
  rcases List.mem_append.mp he with hcaller | hdefault
  · obtain ⟨hmem, hname⟩ := List.mem_filter.mp hcaller
    exact hheaders e hmem (by simpa using hname)
  · split at hdefault
    · exact absurd hdefault List.not_mem_nil
    · have hname : IsOwnName (ascii "Host") := ⟨by decide, by decide, by decide⟩
      obtain rfl := List.mem_singleton.mp hdefault
      exact ⟨hname, hhost⟩

theorem serialisable_request {uriRest : Uri.Rest} {rest : Http11Rest} {relaxed : Bool}
    (haccepts : Uri.Accepts uriRest parts) (hplain : parts.Plain)
    (hmethod : isMethodName (httpMethodToString method) = true) (hheaders : headers.Writable)
    (hhost : isFieldValue host = true) (hbody : body.length < 2 ^ 31) :
    Serialisable rest relaxed
      (fillRequest (targetRequest method parts.decoded close) host headers body) := by
  have hmap := MapType.forall_setAll (Q := fun v => isFieldValue v = true)
    (fun e he => absurd he (List.not_mem_nil (a := e))) (fields_ok hheaders hhost)
  rw [fillRequest_eq rfl]
  exact
    { version := Or.inr rfl
      method := hmethod
      path := isPath_of_absolute (Uri.isPathAbsolute_getPath relaxed haccepts hplain)
      query := Uri.isWord_query relaxed haccepts hplain
      fragment := Uri.isWord_fragment relaxed haccepts hplain
      sorted := MapType.Sorted.setAll List.Pairwise.nil _
      token := fun e he => ⟨(hmap e he).1.1, (hmap e he).1.2.1⟩
      ownConnection := fun e he => (ne_of_not_isAdded (hmap e he).1.2.2).1
      ownLength := fun e he => (ne_of_not_isAdded (hmap e he).1.2.2).2
      value := fun e he => (hmap e he).2
      body_lt := hbody }

/-- Of the fields with another name than `Host`, the last spelling is the one that stays. -/
theorem lookup_fields (hadded : isAdded name = false)
    (hhost : caseFold name = caseFold (ascii "host") → headers.GivesHost) :
    MapType.lookup (MapType.setAll [] (headers.fields host)) name = headers.last name := by
  have hconnection := (ne_of_not_isAdded hadded).1
  have hcaller : ((headers.entries.filter fun i => !isName "connection" i).filter
      fun i => caseFold i.1 = caseFold name) =
        headers.entries.filter fun i => caseFold i.1 = caseFold name := by
    rw [List.filter_filter]
    refine List.filter_congr fun i _ => ?_
    by_cases hname : caseFold i.1 = caseFold name
    · simp [isName, hname, hconnection]
    · simp [hname]
  have hdefault : ((if headers.entries.any fun i => isName "host" i && !i.2.isEmpty then []
      else [(ascii "Host", host)]).filter fun i => caseFold i.1 = caseFold name) = [] := by
    split
    · rfl
    · rename_i hnone
      have hfold : caseFold (ascii "Host") = caseFold (ascii "host") := by decide
      have hne : caseFold (ascii "Host") ≠ caseFold name := fun heq =>
        hnone (any_givesHost.mpr (hhost (heq.symm.trans hfold)))
      simp [hne]
  rw [MapType.lookup_setAll, StringMap.fields, List.filter_append, hcaller, hdefault,
    List.append_nil]
  exact Option.or_none

theorem carries_of_survives
    (h : Survives (fillRequest (targetRequest method parts.decoded close) host headers body) req) :
    Carries parts method close host headers body req := by
  have hlookup : ∀ name, isAdded name = false → req.headers.lookup name =
      (fillRequest (targetRequest method parts.decoded close) host headers body).headers.lookup
        name := by
    intro name hadded
    rw [← h.headers, MapType.lookup_filter]
    intro e heq
    rw [isAdded, heq, ← isAdded, hadded]
    rfl
  have hfill : fillRequest (targetRequest method parts.decoded close) host headers body = _ :=
    fillRequest_eq rfl
  refine ⟨?_, ?_, ?_, ?_, ?_, ?_, fun hgives => ?_, fun name hadded hhost => ?_⟩
  · rw [h.method, hfill]
    rfl
  · rw [h.path, hfill]
    rfl
  · rw [h.query, hfill]
    rfl
  · rw [h.fragment, hfill]
    rfl
  · rw [h.body, hfill]
  · rw [h.close, fillRequest_close]
    rfl
  · rw [hlookup _ (by decide), lookup_host host headers body rfl,
      if_neg (mt any_givesHost.mp hgives)]
  · rw [hlookup _ hadded, hfill]
    exact lookup_fields hadded hhost

end Fill

section Reach

variable {env : Env} {junk : Junk} {r : HttpRequest}

theorem Reaches.mono {P Q : HttpRequest → Prop} (h : Reaches env junk r P)
    (hpq : ∀ req, P req → Q req) : Reaches env junk r Q := by
  intro s hs hone
  obtain ⟨req, t, n, hrecv, ht, hreq⟩ := h s hs hone
  exact ⟨req, t, n, hrecv, ht, hpq req hreq⟩

theorem reaches_of_serialisable (h : Serialisable env.rest junk.uriRelaxed r) :
    Reaches env junk r (Survives r) := by
  intro s hs hone
  have hm := sentMessage_wellFormed h (hone.trans (ready_le ..))
  have hbytes : s.unread = (sentMessage r).bytes ++ [] := hs.trans (List.append_nil _).symm
  obtain ⟨t, n, hrecv, ht⟩ := recvRequest_message hm hbytes hone
  refine ⟨_, t, n, hrecv, ?_, survives_request h⟩
  rw [ht, hbytes, List.append_nil, List.drop_eq_nil_iff]
  exact Nat.le_max_right ..

/-- The parser reads the name of every method but `M-SEARCH`, which has a hyphen. -/
theorem isMethodName_toString {method : HttpMethod} (hmsearch : method ≠ .msearch)
    (hvalid : method ≠ .invalidMethod) : isMethodName (httpMethodToString method) = true := by
  cases method
  case msearch => exact absurd rfl hmsearch
  case invalidMethod => exact absurd rfl hvalid
  all_goals decide

/-- What a URL says gets to the server, by either of the functions that make a request of it. -/
theorem recvRequest_url (pool : HttpConnectionPool) {uriRest : Uri.Rest} {parts : Uri.Components}
    {u : Uri} {method : HttpMethod} {headers : StringMap} {body : Bytes}
    (hcreate : Uri.create uriRest parts.text = .ok (some u)) (hplain : parts.Plain)
    (hmsearch : method ≠ .msearch) (hvalid : method ≠ .invalidMethod) (hheaders : headers.Writable)
    (hhost : isFieldValue pool.defaultHost = true) (hbody : body.length < 2 ^ 31) :
    Reaches env junk (HttpConnection.doRequest method u headers body)
        (Carries parts method true (Uri.hostOf parts.authority) headers body) ∧
      Reaches env junk (pool.doRequest method u headers body)
        (Carries parts method false pool.defaultHost headers body) := by
  obtain ⟨haccepts, rfl⟩ := Uri.create_eq_some_iff.mp hcreate
  have hmethod := isMethodName_toString hmsearch hvalid
  constructor
  · have hserialisable : Serialisable env.rest junk.uriRelaxed
        (fillRequest (targetRequest method parts.decoded true) _ headers body) :=
      serialisable_request haccepts hplain hmethod hheaders (Uri.isFieldValue_host haccepts hplain) hbody
    exact (reaches_of_serialisable hserialisable).mono fun req => carries_of_survives
  · have hserialisable : Serialisable env.rest junk.uriRelaxed
        (fillRequest (targetRequest method parts.decoded false) _ headers body) :=
      serialisable_request haccepts hplain hmethod hheaders hhost hbody
    intro s hs hone
    rw [dump_doRequest] at hs
    rw [head_doRequest] at hone
    exact ((reaches_of_serialisable hserialisable).mono fun req => carries_of_survives) s hs hone

theorem ascii_of_all {w : Bytes} (h : (w.all fun c => c < 128) = true) : ∀ c ∈ w, c < 128 := by
  simpa using h

/-- A caller's header that `dump` writes as it is. -/
def textHeaders : StringMap := ⟨[(ascii "accept", ascii "text/html")], List.pairwise_singleton _ _⟩

/-- `http://user:pw@host:80/p?q#f` -/
theorem recvRequest_url_full :
    ∃ (req : HttpRequest) (t : Stream) (n : Nat),
      recvRequest helloEnv ⟨0, false⟩ (.ofPieces
        [(HttpConnection.doRequest .post Uri.fullComponents.decoded textHeaders (ascii "hello")).dump]) =
          .ok ⟨some (req, t), n⟩ ∧ t.unread = [] ∧
        Carries Uri.fullComponents .post true (Uri.hostOf Uri.fullComponents.authority) textHeaders
          (ascii "hello") req := by
  have hcreate : Uri.create .refuse Uri.fullComponents.text =
      .ok (some Uri.fullComponents.decoded) := by
    decide +kernel
  have hplain : Uri.fullComponents.Plain :=
    ⟨by decide, ascii_of_all (by decide), by decide, ascii_of_all (by decide),
      ascii_of_all (by decide)⟩
  have hheaders : textHeaders.Writable := by
    intro i hi _
    obtain rfl := List.mem_singleton.mp hi
    exact ⟨⟨by decide, by decide, by decide⟩, by decide⟩
  exact (recvRequest_url hostPool hcreate hplain (by decide) (by decide) hheaders (by decide)
    (by decide)).1 _
    (List.append_nil _) (by decide +kernel)

end Reach

end Http

end Saturn
