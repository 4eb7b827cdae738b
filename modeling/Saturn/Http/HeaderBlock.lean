import Saturn.Http.HeaderLoop

/-!
# What follows a header block

A header block that the parser accepts is accepted, with the same request, whatever bytes the same
read returns behind it: no callback looks past the position of the machine.
-/

namespace Saturn

namespace Http

section Append

variable {block more : Bytes}

theorem makeString_append {pos length : Nat} (h : pos + length ≤ block.length ∨
    (block ++ more).length ≤ pos ∨ stringMaxSize < length) :
    makeString (block ++ more) pos length = makeString block pos length := by
  unfold makeString
  by_cases hmax : stringMaxSize < length
  · rw [if_pos hmax, if_pos hmax]
  rw [if_neg hmax, if_neg hmax]
  rcases h with hle | hge | hgt
  · rw [List.drop_append_of_le_length (by omega),
      List.take_append_of_le_length (by rw [List.length_drop]; omega)]
  · rw [List.length_append] at hge
    rw [List.drop_of_length_le (by rw [List.length_append]; omega),
      List.drop_of_length_le (by omega)]
  · exact absurd hgt hmax

theorem isPrefixOf_append_of_not_mem {c : UInt8} : ∀ {name s : Bytes}, c ∉ name → c ∈ s →
    name.isPrefixOf (s ++ more) = name.isPrefixOf s := by
  intro name
  induction name with
  | nil => intro s _ _; rw [List.isPrefixOf_nil_left, List.isPrefixOf_nil_left]
  | cons n name ih =>
      intro s hname hs
      cases s with
      | nil => cases hs
      | cons b s =>
          rw [List.cons_append, List.isPrefixOf_cons_cons, List.isPrefixOf_cons_cons]
          by_cases hb : n = b
          · subst hb
            rcases List.mem_cons.mp hs with rfl | hs
            · exact absurd List.mem_cons_self hname
            · rw [ih (fun h => hname (List.mem_cons_of_mem _ h)) hs]
          · rw [beq_eq_false_iff_ne.mpr hb, Bool.false_and, Bool.false_and]

theorem httpMethodMap_no_space : ∀ e ∈ httpMethodMap, (32 : UInt8) ∉ ascii e.2 := by
  decide

/-- The space behind a method ends every comparison with a method name. -/
theorem charsToHttpMethod_append {s : Bytes} (hs : (32 : UInt8) ∈ s) :
    charsToHttpMethod (s ++ more) = charsToHttpMethod s := by
  rw [charsToHttpMethod, charsToHttpMethod, ← List.head?_filter, ← List.head?_filter,
    List.filter_congr fun e he => isPrefixOf_append_of_not_mem (httpMethodMap_no_space e he) hs]

theorem strncmpEq_append {s t : Bytes} {n : Nat} (hn : n ≤ s.length) :
    strncmpEq (s ++ more) t n = strncmpEq s t n := by
  have htake : (cstr (s ++ more) ++ [0]).take n = (cstr s ++ [0]).take n := by
    unfold cstr
    rw [List.takeWhile_append]
    split
    next hall =>
      have hs : s.takeWhile (· ≠ 0) = s := (List.takeWhile_prefix _).eq_of_length hall
      rw [hs, List.append_assoc, List.take_append_of_le_length hn, List.take_append_of_le_length hn]
    next => rfl
  rw [strncmpEq, htake, strncmpEq]

end Append

/-- Whether the marks of the current field are set behind the action; it may not use them before
they are. -/
def Action.flow (set : Bool) : Action → Option Bool
  | .startField => some false
  | .writeField => some true
  | .writeValue => if set then some true else none
  | _ => some set

/-- The same for the actions of a transition. -/
def fieldFlow : Bool → List Action → Option Bool
  | set, [] => some set
  | set, a :: as => (a.flow set).bind fun set => fieldFlow set as

/-- The states within a field name, where `field_len` is still that of the field before. -/
def withinName (cs : Nat) : Bool := cs == 14 || cs == 18

/-- The transition keeps the marks of the field in order. -/
def Transition.flows (cs : Nat) : Transition → Bool
  | .fail => true
  | .goto actions target => (fieldFlow (!withinName cs) actions).any fun set => set || withinName target
  | .done actions _ => (fieldFlow (!withinName cs) actions).isSome

/-- The actions of a transition. -/
def Transition.actions : Transition → List Action
  | .fail => []
  | .goto actions _ | .done actions _ => actions

/-- The method is looked up at the space behind it. -/
def methodAtSpace (e : CharClass × Transition) : Bool :=
  !e.2.actions.contains .requestMethod || e.1 == .byte 32

theorem http11Table_flows : ∀ row ∈ http11Table, ∀ e ∈ row.2, e.2.flows row.1 = true := by
  decide

theorem http11Table_methodAtSpace : ∀ row ∈ http11Table, ∀ e ∈ row.2, methodAtSpace e = true := by
  decide

/-- The marks that the actions read refer to bytes before position `p`. -/
structure MarksBefore (set : Bool) (r : HttpRequestParser) (p : Nat) : Prop where
  mark : r.parser.mark ≤ p
  fieldStart : r.parser.fieldStart ≤ p
  field : set = true → r.parser.fieldStart + r.parser.fieldLen ≤ p
  queryStart : r.parser.queryStart < 2 ^ 64

theorem MarksBefore.mono {set set' : Bool} {r : HttpRequestParser} {p q : Nat}
    (h : MarksBefore set r p) (hset : set' = true → set = true) (hpq : p ≤ q) :
    MarksBefore set' r q :=
  ⟨h.mark.trans hpq, h.fieldStart.trans hpq, fun hs => (h.field (hset hs)).trans hpq, h.queryStart⟩

theorem fieldFlow_of_subset {set : Bool} : ∀ {actions : List Action},
    (∀ a ∈ actions, a ∈ [Action.mark, .requestPath, .requestUri, .xml, .json]) →
    fieldFlow set actions = some set := by
  intro actions
  induction actions with
  | nil => intro _; rfl
  | cons a as ih =>
      intro h
      have ha := h a List.mem_cons_self
      have hflow : a.flow set = some set := by
        simp only [List.mem_cons, List.not_mem_nil, or_false] at ha
        rcases ha with rfl | rfl | rfl | rfl | rfl <;> rfl
      rw [fieldFlow, hflow, Option.bind_some]
      exact ih fun a ha => h a (List.mem_cons_of_mem _ ha)

/-- The states left out are not those within a field name. -/
theorem withinName_of_lookup {cs : Nat} (h : http11Table.lookup cs = none) :
    withinName cs = false := by
  by_contra hname
  rw [Bool.not_eq_false, withinName, Bool.or_eq_true, beq_iff_eq, beq_iff_eq] at hname
  rcases hname with rfl | rfl
  · exact absurd h (by decide)
  · exact absurd h (by decide)

theorem http11Next_flows (rest : Http11Rest) (relaxed : Bool) (cs : Nat) (c : UInt8) :
    (http11Next rest relaxed cs c).flows cs = true := by
  rcases http11Next_cases (Eq.refl (http11Next rest relaxed cs c)) with
    hfail | ⟨row, hrow, rfl, e, he, -, heq⟩ | ⟨hlookup, hrest⟩
  · rw [hfail]
    rfl
  · rw [← heq]
    exact http11Table_flows row hrow e he
  · rw [← hrest]
    have hname := withinName_of_lookup hlookup
    cases hnext : rest.next relaxed cs c with
    | fail => rfl
    | goto actions target =>
        rw [Transition.flows, fieldFlow_of_subset (rest.actions (.inl hnext)), hname]
        rfl
    | done actions target =>
        rw [Transition.flows, fieldFlow_of_subset (rest.actions (.inr hnext))]
        rfl

theorem http11Next_methodAtSpace {rest : Http11Rest} {relaxed : Bool} {cs : Nat} {c : UInt8}
    (h : .requestMethod ∈ (http11Next rest relaxed cs c).actions) : c = 32 := by
  rcases http11Next_cases (Eq.refl (http11Next rest relaxed cs c)) with
    hfail | ⟨row, hrow, -, e, he, hhas, heq⟩ | ⟨-, hrest⟩
  · rw [hfail] at h
    cases h
  · have hmethod := http11Table_methodAtSpace row hrow e he
    rw [← heq] at h
    rw [methodAtSpace, List.contains_iff_mem.mpr h, Bool.not_true, Bool.false_or, beq_iff_eq] at hmethod
    rw [hmethod] at hhas
    exact eq_of_beq hhas
  · rw [← hrest] at h
    have hmem : Action.requestMethod ∈ [Action.mark, .requestPath, .requestUri, .xml, .json] := by
      cases hnext : rest.next relaxed cs c with
      | fail => rw [hnext] at h; cases h
      | goto actions target =>
          rw [hnext] at h
          exact rest.actions (.inl hnext) _ h
      | done actions target =>
          rw [hnext] at h
          exact rest.actions (.inr hnext) _ h
    exact absurd hmem (by decide)

section Step

variable {block more : Bytes} {p : Nat}

theorem lenFrom_of_le {start : Nat} (h : start ≤ p) : start + lenFrom start p = p := by
  rw [lenFrom, if_pos h]
  omega

theorem lenFrom_add (start length : Nat) : lenFrom start (start + length) = length := by
  rw [lenFrom, if_pos (Nat.le_add_right ..), Nat.add_sub_cancel_left]

/-- What is copied is what stands from the mark on. -/
theorem makeString_of_prefix {buf w : Bytes} {start : Nat} (h : w <+: buf.drop start)
    (hmax : buf.length ≤ stringMaxSize) :
    makeString buf start (lenFrom start (start + w.length)) = .ok w := by
  have hle := h.length_le
  rw [List.length_drop] at hle
  rw [lenFrom_add, makeString, if_neg (by omega), List.prefix_iff_eq_take.mp h]
  simp

theorem Action.run_marksBefore {a : Action} {buffer : Bytes} {set set' : Bool}
    {r r' : HttpRequestParser} (hmarks : MarksBefore set r p) (hflow : a.flow set = some set')
    (hp : p < 2 ^ 64) (h : a.run buffer p r = .ok r') : MarksBefore set' r' p := by
  obtain ⟨hmark, hstart, hfield, hquery⟩ := hmarks
  obtain ⟨hparser, -⟩ := Action.run_parser h
  have hlen := lenFrom_of_le hstart
  cases a <;> simp only [Action.flow, Option.some.injEq] at hflow <;>
    constructor <;> rw [hparser] <;> simp only [Action.onParser] <;> grind

/-- Within the block no action can tell what is behind it. -/
theorem Action.run_append {a : Action} {set set' : Bool} {r : HttpRequestParser}
    (hmarks : MarksBefore set r p) (hflow : a.flow set = some set') (hp : p < block.length)
    (hlen : (block ++ more).length ≤ maxTransfer)
    (hspace : a = .requestMethod → block[p]? = some 32) :
    a.run (block ++ more) p r = a.run block p r := by
  obtain ⟨hmark, hstart, hfield, hquery⟩ := hmarks
  have hmax : maxTransfer < stringMaxSize := by decide
  have hupto : r.parser.mark + lenFrom r.parser.mark p ≤ block.length := by
    rw [lenFrom_of_le hmark]
    exact hp.le
  have hdrop : (block ++ more).drop r.parser.mark = block.drop r.parser.mark ++ more :=
    List.drop_append_of_le_length (by omega)
  cases a with
  | mark | startField | writeField | startValue | startQuery | xml | json | requestUri => rfl
  | writeValue =>
      have hset : set = true := by
        by_contra hset
        rw [Action.flow, if_neg hset] at hflow
        cases hflow
      have hname := hfield hset
      simp only [Action.run, onRequestHttpField]
      rw [makeString_append (.inl (by omega)), makeString_append (.inl hupto)]
  | requestMethod =>
      have hmem : (32 : UInt8) ∈ block.drop r.parser.mark := by
        rw [List.mem_iff_getElem?]
        exact ⟨p - r.parser.mark, by rw [List.getElem?_drop, ← hspace rfl]; congr 1; omega⟩
      simp only [Action.run, onRequestMethod]
      rw [hdrop, charsToHttpMethod_append hmem, makeString_append (.inl hupto)]
  | fragment => simp only [Action.run, onRequestFragment, makeString_append (.inl hupto)]
  | requestPath => simp only [Action.run, onRequestPath, makeString_append (.inl hupto)]
  | httpVersion =>
      simp only [Action.run, onRequestVersion]
      rw [hdrop, strncmpEq_append (by rw [List.length_drop]; omega),
        strncmpEq_append (by rw [List.length_drop]; omega), makeString_append (.inl hupto)]
  | queryString =>
      simp only [Action.run, onRequestQuery]
      rw [makeString_append]
      -- a query mark that nothing has set is far away, or behind the position
      by_cases hle : r.parser.queryStart ≤ p
      · exact .inl (by rw [lenFrom_of_le hle]; omega)
      by_cases hfar : (block ++ more).length ≤ r.parser.queryStart
      · exact .inr (.inl hfar)
      · refine .inr (.inr ?_)
        rw [lenFrom, if_neg hle]
        have : stringMaxSize + maxTransfer < 2 ^ 64 := by decide
        omega

theorem runActions_append {actions : List Action} : ∀ {set set' : Bool} {r r' : HttpRequestParser},
    MarksBefore set r p → fieldFlow set actions = some set' → p < block.length →
    (block ++ more).length ≤ maxTransfer →
    (.requestMethod ∈ actions → block[p]? = some 32) → runActions block p r actions = .ok r' →
    runActions (block ++ more) p r actions = .ok r' ∧ MarksBefore set' r' p := by
  induction actions with
  | nil =>
      intro set set' r r' hmarks hflow _ _ _ h
      cases hflow
      cases h
      exact ⟨rfl, hmarks⟩
  | cons a as ih =>
      intro set set' r r' hmarks hflow hp hlen hspace h
      obtain ⟨set₁, ha, has⟩ := Option.bind_eq_some_iff.mp hflow
      obtain ⟨r₁, hrun, h⟩ := except_bind_eq_ok.mp h
      have hmax : maxTransfer < 2 ^ 64 := by decide
      have hp64 : p < 2 ^ 64 := by rw [List.length_append] at hlen; omega
      have hmarks₁ := Action.run_marksBefore hmarks ha hp64 hrun
      obtain ⟨hrest, hmarks'⟩ := ih hmarks₁ has hp hlen
        (fun hmem => hspace (List.mem_cons_of_mem _ hmem)) h
      have hhead : a.run (block ++ more) p r = a.run block p r :=
        Action.run_append hmarks ha hp hlen fun heq => hspace (heq ▸ List.mem_cons_self)
      refine ⟨?_, hmarks'⟩
      rw [runActions, hhead, hrun]
      exact hrest

theorem http11Step_append {rest : Http11Rest} {s : Nat × HttpRequestParser} {c : UInt8} {bs : Bytes}
    {m : Move (Nat × HttpRequestParser)} (hlen : (block ++ more).length ≤ maxTransfer)
    (hmarks : MarksBefore (!withinName s.1) s.2 p) (hdrop : block.drop p = c :: bs)
    (h : http11Step rest block s p c = .ok m) :
    http11Step rest (block ++ more) s p c = .ok m ∧
      ∀ t, m = .goto t → MarksBefore (!withinName t.1) t.2 (p + 1) := by
  have hp : p < block.length := by
    by_contra hge
    rw [List.drop_of_length_le (by omega)] at hdrop
    cases hdrop
  have hc : block[p]? = some c := by
    rw [← Nat.add_zero p, ← List.getElem?_drop, hdrop]
    rfl
  have hflows := http11Next_flows rest s.2.parser.uriRelaxed s.1 c
  have hspace : .requestMethod ∈ (http11Next rest s.2.parser.uriRelaxed s.1 c).actions →
      block[p]? = some 32 := fun hmem => by rw [hc, http11Next_methodAtSpace hmem]
  unfold http11Step
  rcases http11Step_cases h with
    ⟨hnext, rfl⟩ | ⟨actions, cs, r, hnext, hr, rfl⟩ | ⟨actions, cs, r, hnext, hr, rfl⟩ <;>
    rw [hnext] at hflows hspace ⊢
  · refine ⟨rfl, fun t ht => ?_⟩
    cases ht
  · obtain ⟨set, hflow, hset⟩ := (Option.any_eq_true ..).mp hflows
    obtain ⟨hrun, hmarks'⟩ := runActions_append hmarks hflow hp hlen hspace hr
    refine ⟨by simp only [hrun, Except.map], fun t ht => ?_⟩
    cases ht
    refine hmarks'.mono (fun hname => ?_) (Nat.le_succ p)
    rw [Bool.not_eq_true'] at hname
    rw [hname, Bool.or_false] at hset
    exact hset
  · obtain ⟨set, hflow⟩ := Option.isSome_iff_exists.mp hflows
    obtain ⟨hrun, -⟩ := runActions_append hmarks hflow hp hlen hspace hr
    refine ⟨by simp only [hrun, Except.map], fun t ht => ?_⟩
    cases ht

/-- The parser scans a block it accepts the same way when more bytes follow in the buffer. -/
theorem scan_new_append {rest : Http11Rest} {junk : Junk} {e : Scanned (Nat × HttpRequestParser)}
    (hlen : (block ++ more).length ≤ maxTransfer)
    (h : scan (http11Step rest block) (httpParserStart, .new junk) 0 block = .ok e)
    (hstop : e.halt = .stopped) :
    scan (http11Step rest (block ++ more)) (httpParserStart, .new junk) 0 (block ++ more) = .ok e := by
  refine scan_append_stopped ?_ hstop more
  refine scan_congr (I := fun s p => MarksBefore (!withinName s.1) s.2 p) block ?_ block
    List.drop_zero ?_ h
  · intro s p c bs m hmarks hdrop hstep
    exact http11Step_append hlen hmarks hdrop hstep
  · exact ⟨Nat.le_refl 0, Nat.le_refl 0, fun _ => Nat.le_refl 0, junk.queryStart.toNat_lt⟩

end Step

end Http

end Saturn
