import Mathlib.Tactic.SplitIfs
import Saturn.Uri.Authority

/-!
# What `Uri::Create` accepts

A URI is read component by component: each of them takes the machine from one state to another, and
what the component is saved as depends on its own text only.
-/

namespace Saturn

open Http (Bytes ascii digitValue digitsValue isAlpha isDigit longToInt strtol)

namespace Uri

/-! ## The machine in the middle of a URI -/

section Resume

variable {rest : Rest} {cs t : Nat} {r r' : Parser} {v w tail : Bytes} {c : UInt8}
  {actions : List Action} {u : Uri}

/-- `Uri::Create` on `v ++ w`, when the state behind `v` is `s`. -/
def resume (rest : Rest) (s : Nat × Parser) (v w : Bytes) : Except Fault (Option Uri) :=
  (scan (step rest (v ++ w)) s v.length w).bind fun e =>
    if e.halt = .failed then .ok none
    else (runActions (v ++ w) (v ++ w).length e.state.2 (eofActions rest e.state.1)).map fun r =>
      if uriParserFirstFinal ≤ e.state.1 then some r.uri else none

theorem create_eq_resume (s : Bytes) :
    create rest s = resume rest (uriParserStart, ⟨none, .new⟩) [] s := rfl

theorem resume_cons (hnext : next rest cs c = some (actions, t)) :
    resume rest (cs, r) v (c :: w) = (runActions (v ++ c :: w) v.length r actions).bind fun r' =>
      resume rest (t, r') (v ++ [c]) w := by
  have hstep : step rest (v ++ c :: w) (cs, r) v.length c =
      (runActions (v ++ c :: w) v.length r actions).map fun r' => .goto (t, r') := by
    rw [step, hnext]
  cases hrun : runActions (v ++ c :: w) v.length r actions with
  | error e =>
      rw [resume, scan, hstep, hrun]
      rfl
  | ok r' =>
      rw [hrun] at hstep
      rw [resume, scan_cons_goto _ hstep, Except.bind, resume, List.append_assoc,
        List.singleton_append]
      simp

theorem resume_silent (hnext : next rest cs c = some ([], t)) :
    resume rest (cs, r) v (c :: w) = resume rest (t, r) (v ++ [c]) w := by
  rw [resume_cons hnext]
  rfl

theorem resume_nil (h : 451 ≤ cs) :
    resume rest (cs, r) v [] =
      (runActions v v.length r (eofActions rest cs)).map fun r => some r.uri := by
  simp [resume, Except.bind, uriParserFirstFinal, h]

theorem resume_fail (hnext : next rest cs c = none) :
    resume rest (cs, r) v (c :: w) = .ok none := by
  have hstep : step rest (v ++ c :: w) (cs, r) v.length c = .ok .fail := by
    rw [step, hnext]
  rw [resume, scan_cons_fail _ hstep]
  rfl

theorem run_append (v w : Bytes) (cs : Nat) :
    run rest cs (v ++ w) = (run rest cs v).bind fun t => run rest t w := by
  induction v generalizing cs with
  | nil => rfl
  | cons c v ih =>
      rw [List.cons_append, run, run]
      cases next rest cs c with
      | none => rfl
      | some e => exact ih e.2

theorem run_append_eq_some {v w : Bytes} :
    run rest cs (v ++ w) = some t ↔ ∃ s, run rest cs v = some s ∧ run rest s w = some t := by
  rw [run_append, Option.bind_eq_some_iff]

theorem run_cons_eq_some :
    run rest cs (c :: w) = some t ↔
      ∃ actions s, next rest cs c = some (actions, s) ∧ run rest s w = some t := by
  rw [run, Option.bind_eq_some_iff]
  exact ⟨fun ⟨⟨actions, s⟩, hnext, hrun⟩ => ⟨actions, s, hnext, hrun⟩,
    fun ⟨actions, s, hnext, hrun⟩ => ⟨(actions, s), hnext, hrun⟩⟩

/-- What is accepted has a run that ends in a final state. -/
theorem run_of_resume : ∀ {w : Bytes} {v : Bytes} {cs : Nat} {r : Parser},
    resume rest (cs, r) v w = .ok (some u) → ∃ t, run rest cs w = some t ∧ 451 ≤ t := by
  intro w
  induction w with
  | nil =>
      intro v cs r h
      refine ⟨cs, rfl, ?_⟩
      by_contra hlt
      rw [resume, scan_nil, Except.bind, if_neg nofun, except_map_eq_ok] at h
      obtain ⟨r', -, h⟩ := h
      rw [uriParserFirstFinal, if_neg hlt] at h
      cases h
  | cons c w ih =>
      intro v cs r h
      cases hnext : next rest cs c with
      | none =>
          rw [resume_fail hnext] at h
          cases h
      | some e =>
          obtain ⟨actions, s⟩ := e
          rw [resume_cons hnext, except_bind_eq_ok] at h
          obtain ⟨r', -, h⟩ := h
          obtain ⟨t, hrun, ht⟩ := ih h
          exact ⟨t, run_cons_eq_some.mpr ⟨actions, s, hnext, hrun⟩, ht⟩

end Resume

/-! ## The scheme -/

section Scheme

variable {rest : Rest} {c : UInt8}

theorem next_451 (hc : isAlpha c = true) : next rest 451 c = some ([.mark], 508) := by
  rw [next_of_lookup rfl]
  exact rowNext_cons_eq_some.mpr (Or.inl ⟨hc, rfl⟩)

theorem next_508 (hc : CharClass.scheme.has c = true) : next rest 508 c = some ([], 508) := by
  have hcolon : CharClass.has (.byte 58) c = false := by
    rw [CharClass.has, beq_eq_false_iff_ne]
    rintro rfl
    revert hc
    decide
  rw [next_of_lookup rfl]
  exact rowNext_cons_eq_some.mpr (Or.inr ⟨hcolon, rowNext_cons_eq_some.mpr (Or.inl ⟨hc, rfl⟩)⟩)

theorem run_scheme {s : Bytes} (hs : s.all CharClass.scheme.has = true) : run rest 508 s = some 508 := by
  induction s with
  | nil => rfl
  | cons c s ih =>
      rw [List.all_cons, Bool.and_eq_true] at hs
      exact run_cons_eq_some.mpr ⟨_, _, next_508 hs.1, ih hs.2⟩

theorem resume_schemeRest {s v tail : Bytes} {r : Parser} (hs : s.all CharClass.scheme.has = true) :
    resume rest (508, r) v (s ++ tail) = resume rest (508, r) (v ++ s) tail := by
  induction s generalizing v with
  | nil => rw [List.nil_append, List.append_nil]
  | cons c s ih =>
      rw [List.all_cons, Bool.and_eq_true] at hs
      rw [List.cons_append, resume_silent (next_508 hs.1), ih hs.2, List.append_assoc]
      rfl

end Scheme

/-- The scheme and what separates it from the authority. -/
theorem resume_scheme {rest : Rest} {s : Bytes} (hs : isScheme s = true) (tail : Bytes) :
    resume rest (uriParserStart, ⟨none, .new⟩) [] (s ++ ascii "://" ++ tail) =
      resume rest (511, ⟨none, saved s [] []⟩) (s ++ ascii "://") tail := by
  cases s with
  | nil => cases hs
  | cons c s =>
      rw [isScheme, Bool.and_eq_true] at hs
      have htext : c :: s ++ ascii "://" ++ tail = c :: (s ++ 58 :: 47 :: 47 :: tail) := by
        rw [List.append_assoc]
        rfl
      have hsave : runActions (c :: s ++ 58 :: 47 :: 47 :: tail) (c :: s).length ⟨some 0, .new⟩
          [.saveScheme] = .ok ⟨none, saved (c :: s) [] []⟩ := by
        rw [runActions, Action.run, marked]
        simp only
        rw [List.drop_zero, Nat.sub_zero, List.take_left']
        · rfl
        · rfl
      have hcolon : next rest 508 58 = some ([.saveScheme], 509) := by
        rw [next_of_lookup rfl]
        rfl
      calc resume rest (uriParserStart, ⟨none, .new⟩) [] (c :: s ++ ascii "://" ++ tail)
          = resume rest (508, ⟨some 0, .new⟩) [c] (s ++ 58 :: 47 :: 47 :: tail) := by
            rw [htext, uriParserStart, resume_cons (next_451 hs.1)]
            rfl
        _ = resume rest (508, ⟨some 0, .new⟩) (c :: s) (58 :: 47 :: 47 :: tail) :=
            resume_schemeRest hs.2
        _ = resume rest (509, ⟨none, saved (c :: s) [] []⟩) (c :: s ++ [58]) (47 :: 47 :: tail) := by
            rw [resume_cons hcolon, hsave]
            rfl
        _ = resume rest (511, ⟨none, saved (c :: s) [] []⟩) (c :: s ++ [58] ++ [47] ++ [47]) tail := by
            rw [resume_silent (t := 510) (by rw [next_of_lookup rfl]; rfl),
              resume_silent (t := 511) (by rw [next_of_lookup rfl]; rfl)]
        _ = resume rest (511, ⟨none, saved (c :: s) [] []⟩) (c :: s ++ ascii "://") tail := by
            rw [List.append_assoc, List.append_assoc]
            rfl

theorem run_scheme_append {rest : Rest} {s : Bytes} (hs : isScheme s = true) :
    run rest uriParserStart (s ++ ascii "://") = some 511 := by
  cases s with
  | nil => cases hs
  | cons c s =>
      rw [isScheme, Bool.and_eq_true] at hs
      have hend : run rest 508 (ascii "://") = some 511 := rfl
      exact run_cons_eq_some.mpr
        ⟨_, _, next_451 hs.1, run_append_eq_some.mpr ⟨_, run_scheme hs.2, hend⟩⟩

/-! ## Loops -/

/-- Within the states `L` only the bytes `ends` have an action, or lead outside. -/
def quiet (L : List Nat) (ends : List CharClass) : Bool :=
  L.all fun cs => match table.lookup cs with
    | none => false
    | some row => row.all fun e => ends.contains e.1 || (e.2.1 == [] && L.contains e.2.2)

section Loops

variable {rest : Rest} {cs t : Nat} {r : Parser} {v w tail : Bytes} {c : UInt8}
  {actions : List Action} {L : List Nat} {ends : List CharClass}

theorem next_cases_of_mem {row : Row} (hrow : table.lookup cs = some row)
    (h : next rest cs c = some (actions, t)) :
    ∃ k, (k, actions, t) ∈ row ∧ k.has c = true := by
  rw [next, hrow] at h
  obtain ⟨⟨k, e⟩, hfind, rfl⟩ := Option.map_eq_some_iff.mp h
  exact ⟨k, List.mem_of_find?_eq_some hfind,
    List.find?_some (p := fun e : Entry => e.1.has c) hfind⟩

/-- Every byte but `ends` has the actions `as` and leads into `L`. -/
theorem next_of_all {row : Row} {as : List Action} (hrow : table.lookup cs = some row)
    (hall : row.all (fun e => ends.contains e.1 || (e.2.1 == as && L.contains e.2.2)) = true)
    (hc : ∀ k ∈ ends, k.has c = false) (h : next rest cs c = some (actions, t)) :
    actions = as ∧ t ∈ L := by
  obtain ⟨k, hk, hhas⟩ := next_cases_of_mem hrow h
  have he := List.all_eq_true.mp hall _ hk
  rw [Bool.or_eq_true, Bool.and_eq_true, beq_iff_eq, List.contains_iff_mem,
    List.contains_iff_mem] at he
  rcases he with hend | ⟨hactions, ht⟩
  · rw [hc k hend] at hhas
    cases hhas
  · exact ⟨hactions, ht⟩

theorem next_of_quiet (hL : quiet L ends = true) (hcs : cs ∈ L) (hc : ∀ k ∈ ends, k.has c = false)
    (h : next rest cs c = some (actions, t)) : actions = [] ∧ t ∈ L := by
  have hrow := List.all_eq_true.mp hL cs hcs
  split at hrow
  next => cases hrow
  next row hlookup => exact next_of_all hlookup hrow hc h

theorem resume_loop (tail : Bytes) (hL : quiet L ends = true) : ∀ {w v : Bytes} {cs : Nat}, cs ∈ L →
    (∀ c ∈ w, ∀ k ∈ ends, k.has c = false) → run rest cs w = some t →
    t ∈ L ∧ resume rest (cs, r) v (w ++ tail) = resume rest (t, r) (v ++ w) tail := by
  intro w
  induction w with
  | nil =>
      rintro v cs hcs - hrun
      cases hrun
      exact ⟨hcs, by rw [List.nil_append, List.append_nil]⟩
  | cons c w ih =>
      intro v cs hcs hw hrun
      obtain ⟨actions, s, hnext, hrun⟩ := run_cons_eq_some.mp hrun
      obtain ⟨rfl, hs⟩ := next_of_quiet hL hcs (hw c List.mem_cons_self) hnext
      obtain ⟨ht, hresume⟩ := ih (v := v ++ [c]) hs (fun b hb => hw b (List.mem_cons_of_mem _ hb)) hrun
      refine ⟨ht, ?_⟩
      rw [List.cons_append, resume_silent hnext, hresume, List.append_assoc]
      rfl

end Loops

/-! ## The query and the fragment -/

section Tail

variable {rest : Rest} {cs t : Nat} {r : Parser} {v w tail : Bytes} {c : UInt8} {L : List Nat}
  {actions : List Action} {ends : List CharClass} {u : Uri}

/-- From the state `first` every byte but `ends` sets the mark and leads into `L`. -/
def marks (first : Nat) (L : List Nat) (ends : List CharClass) : Bool :=
  match table.lookup first with
  | none => false
  | some row => row.all fun e => ends.contains e.1 || (e.2.1 == [.mark] && L.contains e.2.2)

theorem next_of_marks {first : Nat} (hL : marks first L ends = true)
    (hc : ∀ k ∈ ends, k.has c = false) (h : next rest first c = some (actions, t)) :
    actions = [.mark] ∧ t ∈ L := by
  rw [marks] at hL
  split at hL
  next => cases hL
  next row hlookup => exact next_of_all hlookup hL hc h

/-- A component that is marked at its first byte. -/
theorem resume_marked {first : Nat} (tail : Bytes) (hfirst : marks first L ends = true) (hL : quiet L ends = true)
    (hw : ∀ b ∈ c :: w, ∀ k ∈ ends, k.has b = false) (hrun : run rest first (c :: w) = some t) :
    t ∈ L ∧ resume rest (first, r) v (c :: w ++ tail) =
      resume rest (t, { r with mark := some v.length }) (v ++ c :: w) tail := by
  obtain ⟨actions, s, hnext, hrun⟩ := run_cons_eq_some.mp hrun
  obtain ⟨rfl, hs⟩ := next_of_marks hfirst (hw c List.mem_cons_self) hnext
  obtain ⟨ht, hresume⟩ := resume_loop (r := { r with mark := some v.length })
    (v := v ++ [c]) tail hL hs (fun b hb => hw b (List.mem_cons_of_mem _ hb)) hrun
  refine ⟨ht, ?_⟩
  rw [List.append_assoc, List.singleton_append] at hresume
  rw [List.cons_append, resume_cons hnext, ← hresume]
  rfl

theorem marked_append (tail : Bytes) (hmark : r.mark = some v.length) :
    marked (v ++ w ++ tail) (v ++ w).length r = .ok w := by
  rw [marked, hmark]
  simp only
  rw [List.append_assoc, List.drop_left, List.length_append, Nat.add_sub_cancel_left, List.take_left]

theorem run_saveFragment (hmark : r.mark = some v.length) :
    runActions (v ++ w) (v ++ w).length r [.saveFragment] =
      .ok ⟨none, { r.uri with fragment := w }⟩ := by
  have hmarked := marked_append (w := w) [] hmark
  rw [List.append_nil] at hmarked
  rw [runActions, Action.run, hmarked]
  rfl

theorem run_mark_saveFragment {buffer : Bytes} {p : Nat} :
    runActions buffer p r [.mark, .saveFragment] = .ok ⟨none, { r.uri with fragment := [] }⟩ := by
  simp [runActions, Action.run, marked, Except.bind, Except.map]

theorem run_saveQuery (hmark : r.mark = some v.length) :
    runActions (v ++ w ++ tail) (v ++ w).length r [.saveQuery] =
      .ok ⟨none, { r.uri with query := w }⟩ := by
  rw [runActions, Action.run, marked_append tail hmark]
  rfl

theorem run_mark_saveQuery {buffer : Bytes} {p : Nat} :
    runActions buffer p r [.mark, .saveQuery] = .ok ⟨none, { r.uri with query := [] }⟩ := by
  simp [runActions, Action.run, marked, Except.bind, Except.map]

theorem resume_fragment (hrun : run rest 453 w = some t) (ht : 451 ≤ t) :
    resume rest (453, r) v w = .ok (some { r.uri with fragment := w }) := by
  cases w with
  | nil =>
      cases hrun
      rw [resume_nil ht]
      exact congrArg (Except.map _) run_mark_saveFragment
  | cons c w =>
      have hfirst : marks 453 [454, 1, 2] [] = true := by decide
      have hloop : quiet [454, 1, 2] [] = true := by decide
      obtain ⟨hmem, hresume⟩ :=
        resume_marked (r := r) (v := v) [] hfirst hloop (fun _ _ _ hk => nomatch hk) hrun
      obtain rfl : t = 454 := by
        simp only [List.mem_cons, List.not_mem_nil, or_false] at hmem
        omega
      rw [List.append_nil] at hresume
      rw [hresume, resume_nil ht]
      exact congrArg (Except.map _) (run_saveFragment rfl)

/-- What may end a component: the end of the URI, or what announces the next component. -/
structure Gate (rest : Rest) (cs : Nat) (actions : List Action) : Prop where
  final : 451 ≤ cs
  eof : eofActions rest cs = actions
  hash : next rest cs 35 = some (actions, 453)

/-- A fragment, or the end of the URI. -/
theorem Gate.resume_hash (h : Gate rest cs actions) {f : Option Bytes}
    (hf : ∀ w ∈ f, ∃ t, run rest 453 w = some t ∧ 451 ≤ t) :
    resume rest (cs, r) v (announced 35 f) =
      (runActions (v ++ announced 35 f) v.length r actions).map fun r' =>
        some { r'.uri with fragment := f.getD r'.uri.fragment } := by
  cases f with
  | none =>
      rw [announced, resume_nil h.final, h.eof, List.append_nil]
      rfl
  | some w =>
      obtain ⟨t, hrun, ht⟩ := hf w rfl
      rw [announced, resume_cons h.hash]
      cases runActions (v ++ 35 :: w) v.length r actions with
      | error e => rfl
      | ok r' => exact resume_fragment hrun ht

theorem gate_query_empty : Gate rest 456 [.mark, .saveQuery] :=
  ⟨by decide, rfl, by rw [next_of_lookup rfl]; rfl⟩

theorem gate_query : Gate rest 457 [.saveQuery] :=
  ⟨by decide, rfl, by rw [next_of_lookup rfl]; rfl⟩

/-- A query that is not empty. -/
theorem resume_queryText (tail : Bytes) (hw : 35 ∉ c :: w) (hrun : run rest 456 (c :: w) = some t) :
    t ∈ [457, 7, 8] ∧ resume rest (456, r) v (c :: w ++ tail) =
      resume rest (t, { r with mark := some v.length }) (v ++ c :: w) tail := by
  have hend : ∀ b ∈ c :: w, ∀ k ∈ [CharClass.byte 35], k.has b = false := by
    intro b hb k hk
    obtain rfl := List.mem_singleton.mp hk
    rw [CharClass.has, beq_eq_false_iff_ne]
    rintro rfl
    exact hw hb
  exact resume_marked tail (by decide) (by decide) hend hrun

theorem resume_query (hw : 35 ∉ w) (hrun : run rest 456 w = some t) (ht : 451 ≤ t)
    {f : Option Bytes} (hf : ∀ w ∈ f, ∃ t, run rest 453 w = some t ∧ 451 ≤ t) :
    resume rest (456, r) v (w ++ announced 35 f) =
      .ok (some { r.uri with query := w, fragment := f.getD r.uri.fragment }) := by
  cases w with
  | nil =>
      cases hrun
      rw [List.nil_append, gate_query_empty.resume_hash hf, run_mark_saveQuery]
      rfl
  | cons c w =>
      obtain ⟨hmem, hresume⟩ := resume_queryText (r := r) (v := v) (announced 35 f) hw hrun
      obtain rfl : t = 457 := by
        simp only [List.mem_cons, List.not_mem_nil, or_false] at hmem
        omega
      rw [hresume, gate_query.resume_hash hf, run_saveQuery rfl]
      rfl

/-- The query and the fragment, or the end of the URI. -/
theorem Gate.resume_tail (h : Gate rest cs actions) (hquery : next rest cs 63 = some (actions, 456))
    {q f : Option Bytes} (hq : ∀ w ∈ q, 35 ∉ w ∧ ∃ t, run rest 456 w = some t ∧ 451 ≤ t)
    (hf : ∀ w ∈ f, ∃ t, run rest 453 w = some t ∧ 451 ≤ t) :
    resume rest (cs, r) v (announced 63 q ++ announced 35 f) =
      (runActions (v ++ (announced 63 q ++ announced 35 f)) v.length r actions).map fun r' =>
        some { r'.uri with query := q.getD r'.uri.query, fragment := f.getD r'.uri.fragment } := by
  cases q with
  | none => exact h.resume_hash hf
  | some w =>
      obtain ⟨hhash, t, hrun, ht⟩ := hq w rfl
      rw [announced, List.cons_append, resume_cons hquery]
      cases runActions (v ++ 63 :: (w ++ announced 35 f)) v.length r actions with
      | error e => rfl
      | ok r' => exact resume_query hhash hrun ht hf

/-! ## The path -/

theorem runActions_append {buffer : Bytes} {p : Nat} (as bs : List Action) :
    runActions buffer p r (as ++ bs) =
      (runActions buffer p r as).bind fun r' => runActions buffer p r' bs := by
  induction as generalizing r with
  | nil => rfl
  | cons a as ih =>
      rw [List.cons_append, runActions, runActions]
      cases a.run buffer p r with
      | error e => rfl
      | ok r' => exact ih

theorem run_savePath (hmark : r.mark = some v.length) :
    runActions (v ++ w ++ tail) (v ++ w).length r [.savePath] =
      .ok ⟨none, { r.uri with path := w }⟩ := by
  rw [runActions, Action.run, marked_append tail hmark]
  rfl

/-- Without a mark there is no path to save. -/
theorem run_savePath_unmarked {buffer : Bytes} {p : Nat} (hmark : r.mark = none) :
    runActions buffer p r [.savePath] = .error .logicError := by
  rw [runActions, Action.run, marked, hmark]
  rfl

theorem gate_path : Gate rest 513 [.savePath] :=
  ⟨by decide, rfl, by rw [next_of_lookup rfl]; rfl⟩

/-- A path behind its first slash. -/
theorem resume_pathRest (tail : Bytes) (hw : 63 ∉ w ∧ 35 ∉ w) (hrun : run rest 513 w = some t) :
    resume rest (513, r) v (w ++ tail) = resume rest (t, r) (v ++ w) tail ∧ t ∈ [513, 243, 244] := by
  have hend : ∀ b ∈ w, ∀ k ∈ [CharClass.byte 63, .byte 35], k.has b = false := by
    intro b hb k hk
    simp only [List.mem_cons, List.not_mem_nil, or_false] at hk
    rcases hk with rfl | rfl <;> rw [CharClass.has, beq_eq_false_iff_ne] <;> rintro rfl
    · exact hw.1 hb
    · exact hw.2 hb
  obtain ⟨hmem, hresume⟩ := resume_loop (r := r) (v := v) (L := [513, 243, 244]) tail
    (by decide) (by decide) hend hrun
  exact ⟨hresume, hmem⟩

end Tail

/-! ## The authority -/

section Authority

variable {rest : Rest} {place : Place} {cs t : Nat} {r : Parser} {c : UInt8} {actions : List Action}
  {scheme v w tail : Bytes} {k : Nat}

theorem resume_authority (scheme tail : Bytes) : ∀ {w : Bytes} {place : Place} {cs : Nat} {r : Parser}, Reads place cs →
    Holds scheme v.length place r → (∀ c ∈ w, isDelim c = false) → run rest cs w = some t →
    ∃ place' r', place'.text = place.text ++ w ∧ Reads place' t ∧ Holds scheme v.length place' r' ∧
      resume rest (cs, r) (v ++ place.text) (w ++ tail) =
        resume rest (t, r') (v ++ place'.text) tail := by
  intro w
  induction w with
  | nil =>
      rintro place cs r hread hr - hrun
      cases hrun
      exact ⟨place, r, (List.append_nil _).symm, hread, hr, rfl⟩
  | cons c w ih =>
      intro place cs r hread hr hw hrun
      obtain ⟨actions, s, hnext, hrun⟩ := run_cons_eq_some.mp hrun
      obtain ⟨place₁, hmove, hread₁⟩ := hread.step (hw c List.mem_cons_self) hnext
      have hbuf : (v ++ place.text ++ (c :: (w ++ tail))).drop v.length =
          place.text ++ (c :: (w ++ tail)) := by
        rw [List.append_assoc, List.drop_left]
      obtain ⟨r₁, hactions, hr₁⟩ := hmove.holds hr hbuf
      obtain ⟨place', r', htext, hread', hr', hresume⟩ :=
        ih hread₁ hr₁ (fun b hb => hw b (List.mem_cons_of_mem _ hb)) hrun
      refine ⟨place', r', ?_, hread', hr', ?_⟩
      · rw [htext, hmove.text, List.append_assoc]
        rfl
      · rw [← List.length_append] at hactions
        rw [List.cons_append, resume_cons hnext, hactions, ← hresume, hmove.text, List.append_assoc]
        rfl

/-- The actions at the end of an authority. -/
def leaveActions (cs : Nat) : List Action :=
  if cs = 511 ∨ cs = 522 then [.mark, .saveHost]
  else if cs = 514 ∨ cs = 521 then [.mark, .savePort]
  else if cs = 515 ∨ cs = 542 then [.savePort, .mark]
  else [.saveHost, .mark]

theorem table_leave : ∀ row ∈ table, phase row.1 ≠ .none → 451 ≤ row.1 →
    row.2.take 3 = delimiters (leaveActions row.1) := by
  decide +kernel

theorem cs_of_phase (hphase : phase cs ≠ .none) (h : 451 ≤ cs) :
    cs = 511 ∨ cs = 512 ∨ 514 ≤ cs ∧ cs ≤ 560 := by
  have hcheck : ∀ cs < 561, 451 ≤ cs → phase cs ≠ .none → cs = 511 ∨ cs = 512 ∨ 514 ≤ cs := by
    decide +kernel
  have hlt : cs < 561 := by
    by_contra hge
    exact hphase (phase_of_ge (by omega))
  have := hcheck cs hlt h hphase
  omega

theorem lt_of_phase {φ : Phase} (hφ : φ ≠ .none)
    (hcheck : ∀ cs < 561, phase cs = φ → cs < 451) (hphase : phase cs = φ) : cs < 451 := by
  by_cases hlt : cs < 561
  · exact hcheck cs hlt hphase
  · rw [phase_of_ge (by omega)] at hphase
    exact absurd hphase.symm hφ

theorem user_lt (hphase : phase cs = .user) : cs < 451 :=
  lt_of_phase (by decide) (by decide +kernel) hphase

theorem literal_lt (hphase : phase cs = .literal) : cs < 451 :=
  lt_of_phase (by decide) (by decide +kernel) hphase

theorem eofActions_of_phase (hphase : phase cs ≠ .none) (h : 451 ≤ cs) :
    eofActions rest cs = leaveActions cs ++ [.savePath] := by
  have hcs := cs_of_phase hphase h
  rw [eofActions, leaveActions]
  by_cases hhost : cs = 511 ∨ cs = 522
  · rw [if_pos hhost, if_pos hhost]
    rfl
  rw [if_neg hhost, if_neg hhost]
  by_cases hcolon : cs = 514 ∨ cs = 521
  · rw [if_pos hcolon, if_pos hcolon]
    rfl
  rw [if_neg hcolon, if_neg hcolon]
  by_cases hdigits : cs = 515 ∨ cs = 542
  · rw [if_pos hdigits, if_pos hdigits]
    rfl
  rw [if_neg hdigits, if_neg hdigits, if_neg (by omega), if_pos (by omega)]
  rfl

theorem next_of_phase (rest : Rest) (hphase : phase cs ≠ .none) (h : 451 ≤ cs) :
    next rest cs 47 = some (leaveActions cs, 513) ∧
      next rest cs 63 = some (leaveActions cs ++ [.savePath], 456) ∧
      next rest cs 35 = some (leaveActions cs ++ [.savePath], 453) := by
  obtain ⟨row, hrow⟩ := lookup_of_phase hphase
  have htake := table_leave _ (Http.lookup_mem hrow) hphase h
  have hsplit : row = delimiters (leaveActions cs) ++ row.drop 3 := by
    rw [← htake, List.take_append_drop]
  rw [next_of_lookup hrow, next_of_lookup hrow, next_of_lookup hrow, hsplit]
  exact ⟨rfl, rfl, rfl⟩

theorem gate_of_phase (hphase : phase cs ≠ .none) (h : 451 ≤ cs) :
    Gate rest cs (leaveActions cs ++ [.savePath]) :=
  ⟨h, eofActions_of_phase hphase h, (next_of_phase rest hphase h).2.2⟩

theorem leaveActions_of_host (h : phase cs = .name ∨ phase cs = .host ∨ phase cs = .ipv4 ∨
    phase cs = .literal ∨ phase cs = .closed) : leaveActions cs = [.saveHost, .mark] := by
  rw [leaveActions]
  split_ifs with h₁ h₂ h₃
  · rcases h₁ with rfl | rfl <;> revert h <;> decide
  · rcases h₂ with rfl | rfl <;> revert h <;> decide
  · rcases h₃ with rfl | rfl <;> revert h <;> decide
  · rfl

/-! ## The port -/

/-- What the machine saves of the digits of a port. -/
def portNumber (d : Bytes) : Int := longToInt (min (digitsValue 10 d : Int) (2 ^ 63 - 1))

theorem portNumber_nil : portNumber [] = 0 := by
  decide

theorem digitValue_of_isDigit (hc : isDigit c = true) :
    Http.Client.isSpace c = false ∧ c ≠ 45 ∧ c ≠ 43 ∧ digitValue c < 10 :=
  Http.forall_byte (P := fun c => isDigit c = true →
    Http.Client.isSpace c = false ∧ c ≠ 45 ∧ c ≠ 43 ∧ digitValue c < 10) (by decide +kernel) c hc

theorem not_lt_of_isDigit (hc : isDigit c = false) : ¬ digitValue c < 10 :=
  Http.forall_byte (P := fun c => isDigit c = false → ¬ digitValue c < 10) (by decide +kernel) c hc

theorem atoi_append {d : Bytes} (hne : d ≠ []) (hd : d.all isDigit = true)
    (htail : ∀ c ∈ tail.head?, isDigit c = false) : atoi (d ++ tail) = portNumber d := by
  obtain ⟨c, d, rfl⟩ := List.exists_cons_of_ne_nil hne
  have hall : ∀ b ∈ c :: d, digitValue b < 10 := fun b hb =>
    (digitValue_of_isDigit (List.all_eq_true.mp hd b hb)).2.2.2
  obtain ⟨hspace, hminus, hplus, -⟩ :=
    digitValue_of_isDigit (List.all_eq_true.mp hd c List.mem_cons_self)
  have htake : (c :: d ++ tail).takeWhile (fun c => digitValue c < 10) = c :: d := by
    rw [List.takeWhile_append_of_pos (by simpa using hall)]
    cases tail with
    | nil => simp
    | cons b tail =>
        rw [List.takeWhile_cons_of_neg (by simpa using not_lt_of_isDigit (htail b rfl)),
          List.append_nil]
  rw [List.cons_append] at htake
  rw [atoi, strtol, List.cons_append, List.dropWhile_cons_of_neg (by simp [hspace])]
  simp [hminus, hplus, htake, portNumber]

namespace Place

/-- The host at a place of an authority. -/
def hostText : Place → Bytes
  | .host _ h | .port _ h _ => h
  | .colon n _ => n
  | .user _ _ => []

/-- The digits of the port at a place of an authority. -/
def portDigits : Place → Bytes
  | .host _ _ | .user _ _ => []
  | .colon _ d | .port _ _ d => d

end Place

/-- The port of an authority that ends in a colon is not saved, and the mark is lost. -/
theorem Holds.leave_unmarked {buffer : Bytes} {p : Nat} (hcs : cs = 514 ∨ cs = 521) :
    runActions buffer p r (leaveActions cs) = .ok ⟨none, r.uri⟩ := by
  rcases hcs with rfl | rfl <;> simp [leaveActions, runActions, Action.run, Except.bind]

theorem run_saveHost_mark (hmark : r.mark = some (v.length + k)) (hk : k ≤ w.length) :
    runActions (v ++ w ++ tail) (v ++ w).length r [.saveHost, .mark] =
      .ok ⟨some (v ++ w).length, { r.uri with host := w.drop k }⟩ := by
  have hbuf : (v ++ w ++ tail).drop v.length = w ++ tail := by
    rw [List.append_assoc, List.drop_left]
  have hsave := run_saveHost hbuf hmark hk
  rw [← List.length_append] at hsave
  rw [← List.singleton_append, runActions_append, hsave]
  rfl

theorem run_savePort_mark {d : Bytes} (hmark : r.mark = some (v.length + k))
    (hw : w.drop k = d) (hne : d ≠ []) (hd : d.all isDigit = true)
    (htail : ∀ c ∈ tail.head?, isDigit c = false) :
    runActions (v ++ w ++ tail) (v ++ w).length r [.savePort, .mark] =
      .ok ⟨some (v ++ w).length, { r.uri with port := portNumber d }⟩ := by
  have hk : k < w.length := by
    by_contra hge
    exact hne (hw ▸ List.drop_eq_nil_of_le (by omega))
  have hother : r.mark ≠ some (v ++ w).length := by
    rw [hmark, List.length_append, Ne, Option.some.injEq]
    omega
  have hdrop : (v ++ w ++ tail).drop (v.length + k) = d ++ tail := by
    rw [← List.drop_drop, List.append_assoc, List.drop_left, List.drop_append_of_le_length hk.le, hw]
  rw [runActions, Action.run, if_neg hother, hmark]
  simp only
  rw [hdrop, atoi_append hne hd htail]
  rfl

/-- What is saved of an authority, and the mark of the path behind it. -/
theorem Holds.leave (hread : Reads place cs) (hcs : 451 ≤ cs) (hne : cs ≠ 514 ∧ cs ≠ 521)
    (hr : Holds scheme v.length place r) (htail : ∀ c ∈ tail.head?, isDigit c = false) :
    runActions (v ++ place.text ++ tail) (v ++ place.text).length r (leaveActions cs) =
      .ok ⟨some (v ++ place.text).length,
        { saved scheme place.userinfo place.hostText with port := portNumber place.portDigits }⟩ := by
  obtain ⟨host, hhost, rfl⟩ := hr
  have hleave {x h} (hphase : phase cs = .name ∨ phase cs = .host ∨ phase cs = .ipv4 ∨
      phase cs = .literal ∨ phase cs = .closed) (hnil : h ≠ []) (hplace : place = .host x h) :
      runActions (v ++ place.text ++ tail) (v ++ place.text).length
        ⟨place.mark.map (v.length + ·), saved scheme place.userinfo host⟩ (leaveActions cs) =
      .ok ⟨some (v ++ place.text).length,
        { saved scheme place.userinfo place.hostText with port := portNumber place.portDigits }⟩ := by
    subst hplace
    rw [leaveActions_of_host hphase, run_saveHost_mark (k := (lead x).length)]
    · simp [Place.text, Place.hostText, Place.portDigits, saved, new, portNumber_nil]
    · simp [Place.mark, hnil]
    · simp [Place.text]
  cases hread with
  | start =>
      refine run_mark_saveHost.trans ?_
      simp [Place.hostText, Place.portDigits, saved, new, portNumber_nil]
  | behindAt hx =>
      refine run_mark_saveHost.trans ?_
      simp [Place.hostText, Place.portDigits, saved, new, portNumber_nil]
  | name hphase hh hnil => exact hleave (Or.inl hphase) hnil rfl
  | host hx hphase hh hnil =>
      exact hleave (Or.inr (hphase.imp_right Or.inl)) hnil rfl
  | literal hx hphase hh hnil => exact hleave (by simp [hphase]) hnil rfl
  | closed hx hphase hh hnil => exact hleave (by simp [hphase]) hnil rfl
  | colon hn => exact absurd rfl hne.2
  | @digits n d hn hnil hd =>
      refine (run_savePort_mark (k := n.length + 1) (d := d) ?_ ?_ hnil hd htail).trans ?_
      · simp [Place.mark, hnil]
      · simp [Place.text]
      · rw [hhost n rfl]
        rfl
  | user hphase hn hv hnil => exact absurd (user_lt hphase) (by omega)
  | port hx hh => exact absurd rfl hne.1
  | @portDigits x h d hx hh hnil hd =>
      refine (run_savePort_mark (k := (lead x ++ h).length + 1) (d := d) ?_ ?_ hnil hd htail).trans ?_
      · simp [Place.mark, hnil]
      · have htext : (Place.port x h d).text = lead x ++ h ++ [58] ++ d := by simp [Place.text]
        rw [htext]
        exact List.drop_left' (by simp [Nat.add_assoc])
      · rw [hhost h rfl]
        rfl

end Authority

/-! ## The whole URI -/

section Whole

variable {rest : Rest} {cs t : Nat} {r : Parser} {c : UInt8} {actions : List Action}
  {v path : Bytes} {q f : Option Bytes} {parts : Components} {u : Uri}

/-- The components that the machine can read. -/
structure Accepts (rest : Rest) (parts : Components) : Prop where
  authority : ∃ cs, run rest 511 parts.authority = some cs ∧ 451 ≤ cs ∧ cs ≠ 514 ∧ cs ≠ 521
  path : ∀ w, parts.path = 47 :: w → run rest 513 w = some 513
  query : ∀ w ∈ parts.query, ∃ t, run rest 456 w = some t ∧ 451 ≤ t
  fragment : ∀ w ∈ parts.fragment, ∃ t, run rest 453 w = some t ∧ 451 ≤ t

/-- What they are read as. -/
def Components.decoded (parts : Components) : Uri where
  scheme := parts.scheme
  userinfo := kept (userinfoOf parts.authority)
  host := hostOf parts.authority
  port := portNumber (portOf parts.authority)
  path := parts.path
  query := parts.query.getD []
  fragment := parts.fragment.getD []

/-- What stands behind the authority. -/
theorem resume_behind (hphase : phase cs ≠ .none) (hcs : 451 ≤ cs)
    (hpath : path = [] ∨ path.head? = some 47) (hend : 63 ∉ path ∧ 35 ∉ path)
    (hrun : ∀ w, path = 47 :: w → run rest 513 w = some 513)
    (hq : ∀ w ∈ q, 35 ∉ w ∧ ∃ t, run rest 456 w = some t ∧ 451 ≤ t)
    (hf : ∀ w ∈ f, ∃ t, run rest 453 w = some t ∧ 451 ≤ t) :
    resume rest (cs, r) v (path ++ (announced 63 q ++ announced 35 f)) =
      (runActions (v ++ (path ++ (announced 63 q ++ announced 35 f))) v.length r
          (leaveActions cs)).bind fun r₁ =>
        (runActions (v ++ path ++ (announced 63 q ++ announced 35 f)) (v ++ path).length r₁
          [.savePath]).map fun r₂ =>
          some { r₂.uri with query := q.getD r₂.uri.query, fragment := f.getD r₂.uri.fragment } := by
  obtain ⟨hslash, hquery, -⟩ := next_of_phase rest hphase hcs
  cases path with
  | nil =>
      rw [List.nil_append, List.append_nil, (gate_of_phase hphase hcs).resume_tail hquery hq hf,
        runActions_append]
      cases runActions (v ++ (announced 63 q ++ announced 35 f)) v.length r (leaveActions cs) <;> rfl
  | cons c w =>
      obtain rfl : c = 47 := by simpa using hpath
      rw [List.cons_append, resume_cons hslash]
      congr 1
      funext r₁
      have hw : 63 ∉ w ∧ 35 ∉ w :=
        ⟨fun h => hend.1 (List.mem_cons_of_mem _ h), fun h => hend.2 (List.mem_cons_of_mem _ h)⟩
      have happ : v ++ 47 :: w = v ++ [47] ++ w := by simp
      rw [(resume_pathRest _ hw (hrun w rfl)).1,
        gate_path.resume_tail (by rw [next_of_lookup rfl]; rfl) hq hf, happ]

theorem Reads.phase_ne_none {place : Place} (h : Reads place cs) : phase cs ≠ .none := by
  cases h with
  | start | behindAt | colon | digits | port | portDigits => decide
  | name h | user h => simp [h]
  | host _ h => rcases h with h | h <;> simp [h]
  | literal _ h | closed _ h => simp [h]

theorem kept_getD {x : Option Bytes} : kept (x.getD []) = (x.map kept).getD [] := by
  cases x with
  | none => rfl
  | some x => rfl

theorem parts_of_reads {place : Place} (h : Reads place cs) (hcs : 451 ≤ cs)
    (hne : cs ≠ 514 ∧ cs ≠ 521) :
    kept (userinfoOf place.text) = place.userinfo ∧ hostOf place.text = place.hostText ∧
      portOf place.text = place.portDigits := by
  have hparts (x : Option Bytes) (h d : Bytes) (hx : ∀ u ∈ x, 64 ∉ u) (hh : IsHost h)
      (hd : d.all isDigit = true) (htext : place.text = lead x ++ (h ++ portText d)) :
      kept (userinfoOf place.text) = (x.map kept).getD [] ∧ hostOf place.text = h ∧
        portOf place.text = d := by
    obtain ⟨huser, hhost, hport⟩ := parts_of_authority hx hh hd
    rw [htext, huser, kept_getD]
    exact ⟨rfl, hhost, hport⟩
  cases h with
  | start => exact hparts none [] [] (by simp) simple_nil.isHost rfl rfl
  | @behindAt x hx => exact hparts (some x) [] [] (by simpa using hx) simple_nil.isHost rfl rfl
  | @name h _ hphase hh hnil => exact hparts none h [] (by simp) hh.isHost rfl (by simp [Place.text, portText])
  | @host x h _ hx hphase hh hnil => exact hparts x h [] hx hh.isHost rfl (by simp [Place.text, portText])
  | literal hx hphase hh hnil => exact absurd (literal_lt hphase) (by omega)
  | @closed x h _ hx hphase hh hnil => exact hparts x h [] hx hh rfl (by simp [Place.text, portText])
  | colon hn => exact absurd rfl hne.2
  | @digits n d hn hnil hd =>
      exact hparts none n d (by simp) hn.isHost hd (by simp [Place.text, portText, hnil, lead])
  | user hphase hn hv hnil => exact absurd (user_lt hphase) (by omega)
  | port hx hh => exact absurd rfl hne.1
  | @portDigits x h d hx hh hnil hd =>
      exact hparts x h d hx hh hd (by simp [Place.text, portText, hnil])

theorem Components.text_eq (parts : Components) :
    parts.text = parts.scheme ++ ascii "://" ++ (parts.authority ++
      (parts.path ++ (announced 63 parts.query ++ announced 35 parts.fragment))) := by
  simp [Components.text]

/-- No digit follows the authority. -/
theorem Components.not_digit (parts : Components) : ∀ c ∈ (parts.path ++
    (announced 63 parts.query ++ announced 35 parts.fragment)).head?, isDigit c = false := by
  intro c hc
  rcases parts.path_valid with hpath | hpath
  · rw [hpath, List.nil_append] at hc
    cases hq : parts.query with
    | some q =>
        rw [hq] at hc
        obtain rfl : 63 = c := Option.some.inj hc
        rfl
    | none =>
        cases hf : parts.fragment with
        | some f =>
            rw [hq, hf] at hc
            obtain rfl : 35 = c := Option.some.inj hc
            rfl
        | none =>
            rw [hq, hf] at hc
            cases hc
  · rw [List.head?_append, hpath] at hc
    obtain rfl : 47 = c := Option.some.inj hc
    rfl

/-- How the authority of a URI is read. -/
theorem create_eq_resume_authority (hrun : run rest 511 parts.authority = some cs) :
    ∃ place r, place.text = parts.authority ∧ Reads place cs ∧
      Holds parts.scheme (parts.scheme ++ ascii "://").length place r ∧
      create rest parts.text = resume rest (cs, r) (parts.scheme ++ ascii "://" ++ place.text)
        (parts.path ++ (announced 63 parts.query ++ announced 35 parts.fragment)) := by
  obtain ⟨place, r, htext, hread, hr, hresume⟩ := resume_authority (v := parts.scheme ++ ascii "://")
    (r := ⟨none, saved parts.scheme [] []⟩) parts.scheme
    (parts.path ++ (announced 63 parts.query ++ announced 35 parts.fragment)) Reads.start ⟨[], nofun, rfl⟩ parts.authority_valid hrun
  refine ⟨place, r, htext, hread, hr, ?_⟩
  rw [create_eq_resume, parts.text_eq, resume_scheme parts.scheme_valid, ← hresume]
  simp [Place.text, lead]

theorem create_of_accepts (h : Accepts rest parts) :
    create rest parts.text = .ok (some parts.decoded) := by
  obtain ⟨⟨cs, hrun, hcs, hne⟩, hpath, hquery, hfragment⟩ := h
  obtain ⟨place, r, htext, hread, hr, hcreate⟩ := create_eq_resume_authority hrun
  obtain ⟨huser, hhost, hport⟩ := parts_of_reads hread hcs hne
  have hq : ∀ w ∈ parts.query, 35 ∉ w ∧ ∃ t, run rest 456 w = some t ∧ 451 ≤ t :=
    fun w hw => ⟨parts.query_end w hw, hquery w hw⟩
  have hleave := hr.leave hread hcs hne parts.not_digit
  rw [hcreate, resume_behind hread.phase_ne_none hcs parts.path_valid parts.path_end hpath hq
    hfragment, hleave]
  simp only [Except.bind]
  rw [run_savePath rfl, Components.decoded, ← htext, huser, hhost, hport]
  simp [Except.map, saved, new]

/-- The classes of the rows of the states that are not final. -/
def innerClasses : List CharClass := [.byte 58, .byte 64, .byte 93, .byte 118, .user] ++ plainClasses

/-- What ends a component leaves a final state. -/
theorem final_of_next {row : Row} (hrow : table.lookup cs = some row) (hc : isDelim c = true)
    (h : next rest cs c = some (actions, t)) : 451 ≤ cs := by
  have hrows : ∀ row ∈ table, row.1 < 451 → ∀ e ∈ row.2, e.1 ∈ innerClasses := by decide +kernel
  have hclasses : ∀ k ∈ innerClasses, k.has 47 = false ∧ k.has 63 = false ∧ k.has 35 = false := by
    decide
  by_contra hlt
  obtain ⟨k, hk, hhas⟩ := next_cases_of_mem hrow h
  obtain ⟨hslash, hmark, hhash⟩ := hclasses k (hrows _ (Http.lookup_mem hrow) (by omega) _ hk)
  rw [isDelim, Bool.or_eq_true, Bool.or_eq_true, beq_iff_eq, beq_iff_eq, beq_iff_eq] at hc
  rcases hc with (rfl | rfl) | rfl
  · rw [hslash] at hhas; cases hhas
  · rw [hmark] at hhas; cases hhas
  · rw [hhash] at hhas; cases hhas

theorem final_of_run_tail {row : Row} (hrow : table.lookup cs = some row) (ht : 451 ≤ t)
    (hrun : run rest cs (announced 63 q ++ announced 35 f) = some t) : 451 ≤ cs := by
  cases q with
  | some w =>
      obtain ⟨_, _, hnext, -⟩ := run_cons_eq_some.mp hrun
      exact final_of_next hrow rfl hnext
  | none =>
      cases f with
      | some w =>
          obtain ⟨_, _, hnext, -⟩ := run_cons_eq_some.mp hrun
          exact final_of_next hrow rfl hnext
      | none =>
          cases hrun
          exact ht

theorem fragment_of_run (hgate : Gate rest cs actions) (hrun : run rest cs (announced 35 f) = some t)
    (ht : 451 ≤ t) : ∀ w ∈ f, ∃ t, run rest 453 w = some t ∧ 451 ≤ t := by
  rintro w rfl
  obtain ⟨_, _, hnext, hrun⟩ := run_cons_eq_some.mp hrun
  rw [hgate.hash] at hnext
  cases hnext
  exact ⟨t, hrun, ht⟩

/-- The states behind a query. -/
theorem mem_of_run_query {w : Bytes} (hw : 35 ∉ w) (hrun : run rest 456 w = some t) :
    t ∈ [456, 457, 7, 8] := by
  cases w with
  | nil =>
      cases hrun
      exact List.mem_cons_self
  | cons c w =>
      exact List.mem_cons_of_mem _
        (resume_queryText (r := ⟨none, .new⟩) (v := []) [] hw hrun).1

theorem exists_gate_query (hmem : t ∈ [456, 457, 7, 8]) (ht : 451 ≤ t) :
    ∃ actions, Gate rest t actions := by
  simp only [List.mem_cons, List.not_mem_nil, or_false] at hmem
  rcases hmem with rfl | rfl | rfl | rfl
  · exact ⟨_, gate_query_empty⟩
  · exact ⟨_, gate_query⟩
  · omega
  · omega

theorem tail_of_run (hgate : Gate rest cs actions) (hquery : next rest cs 63 = some (actions, 456))
    (hq : ∀ w ∈ q, 35 ∉ w) (hrun : run rest cs (announced 63 q ++ announced 35 f) = some t)
    (ht : 451 ≤ t) :
    (∀ w ∈ q, ∃ t, run rest 456 w = some t ∧ 451 ≤ t) ∧
      ∀ w ∈ f, ∃ t, run rest 453 w = some t ∧ 451 ≤ t := by
  cases q with
  | none => exact ⟨nofun, fragment_of_run hgate hrun ht⟩
  | some w =>
      obtain ⟨_, _, hnext, hrun⟩ := run_cons_eq_some.mp hrun
      rw [hquery] at hnext
      cases hnext
      obtain ⟨s, hrunq, hrun⟩ := run_append_eq_some.mp hrun
      have hmem := mem_of_run_query (hq w rfl) hrunq
      have hs : 451 ≤ s := by
        obtain ⟨row, hrow⟩ : ∃ row, table.lookup s = some row := by
          simp only [List.mem_cons, List.not_mem_nil, or_false] at hmem
          rcases hmem with rfl | rfl | rfl | rfl <;> exact ⟨_, rfl⟩
        exact final_of_run_tail (q := none) hrow ht hrun
      obtain ⟨actions, hgate⟩ := exists_gate_query hmem hs
      refine ⟨?_, fragment_of_run hgate hrun ht⟩
      rintro _ ⟨⟩
      exact ⟨s, hrunq, hs⟩

/-- An authority that ends in a colon leaves no mark to the path. -/
theorem resume_unmarked (hne : ¬ (cs ≠ 514 ∧ cs ≠ 521))
    (hpath : path = [] ∨ path.head? = some 47) (hend : 63 ∉ path ∧ 35 ∉ path)
    (hrun : ∀ w, path = 47 :: w → run rest 513 w = some 513)
    (hq : ∀ w ∈ q, 35 ∉ w ∧ ∃ t, run rest 456 w = some t ∧ 451 ≤ t)
    (hf : ∀ w ∈ f, ∃ t, run rest 453 w = some t ∧ 451 ≤ t) :
    resume rest (cs, r) v (path ++ (announced 63 q ++ announced 35 f)) = .error .logicError := by
  have hcs : cs = 514 ∨ cs = 521 := by omega
  have hphase : phase cs ≠ .none ∧ 451 ≤ cs := by
    rcases hcs with rfl | rfl <;> exact ⟨by decide, by decide⟩
  rw [resume_behind hphase.1 hphase.2 hpath hend hrun hq hf, Holds.leave_unmarked hcs]
  simp only [Except.bind]
  rw [run_savePath_unmarked rfl]
  rfl

/-- What a path is read to when it ends there. -/
theorem eq_of_run_path {s : Nat} {w : Bytes} (hw : 63 ∉ w ∧ 35 ∉ w) (hrunw : run rest 513 w = some s)
    (hrun : run rest s (announced 63 q ++ announced 35 f) = some t) (ht : 451 ≤ t) : s = 513 := by
  have hmem := (resume_pathRest (r := ⟨none, .new⟩) (v := []) [] hw hrunw).2
  obtain ⟨row, hrow⟩ : ∃ row, table.lookup s = some row := by
    simp only [List.mem_cons, List.not_mem_nil, or_false] at hmem
    rcases hmem with rfl | rfl | rfl <;> exact ⟨_, rfl⟩
  have hs := final_of_run_tail hrow ht hrun
  simp only [List.mem_cons, List.not_mem_nil, or_false] at hmem
  omega

theorem accepts_of_create (h : create rest parts.text = .ok (some u)) : Accepts rest parts := by
  obtain ⟨t, hrun, ht⟩ := run_of_resume ((create_eq_resume _).symm.trans h)
  rw [parts.text_eq] at hrun
  obtain ⟨s, hscheme, hrun⟩ := run_append_eq_some.mp hrun
  rw [run_scheme_append parts.scheme_valid, Option.some.injEq] at hscheme
  subst hscheme
  obtain ⟨cs, hauthority, hrun⟩ := run_append_eq_some.mp hrun
  obtain ⟨place, r, -, hread, -, hcreate⟩ := create_eq_resume_authority hauthority
  obtain ⟨row, hrow⟩ := lookup_of_phase hread.phase_ne_none
  -- every component ends in a final state
  have hparts : 451 ≤ cs ∧ (∀ w, parts.path = 47 :: w → run rest 513 w = some 513) ∧
      (∀ w ∈ parts.query, ∃ t, run rest 456 w = some t ∧ 451 ≤ t) ∧
      ∀ w ∈ parts.fragment, ∃ t, run rest 453 w = some t ∧ 451 ≤ t := by
    cases hpath : parts.path with
    | nil =>
        rw [hpath, List.nil_append] at hrun
        have hcs := final_of_run_tail hrow ht hrun
        exact ⟨hcs, nofun, tail_of_run (gate_of_phase hread.phase_ne_none hcs)
          (next_of_phase rest hread.phase_ne_none hcs).2.1 parts.query_end hrun ht⟩
    | cons c w =>
        obtain rfl : c = 47 := by simpa [hpath] using parts.path_valid
        rw [hpath] at hrun
        obtain ⟨_, _, hnext, hrun⟩ := run_cons_eq_some.mp hrun
        have hcs := final_of_next hrow rfl hnext
        rw [(next_of_phase rest hread.phase_ne_none hcs).1] at hnext
        cases hnext
        obtain ⟨s, hrunw, hrun⟩ := run_append_eq_some.mp hrun
        have hend : 63 ∉ w ∧ 35 ∉ w := by
          have := parts.path_end
          rw [hpath] at this
          exact ⟨fun h => this.1 (List.mem_cons_of_mem _ h), fun h => this.2 (List.mem_cons_of_mem _ h)⟩
        obtain rfl := eq_of_run_path hend hrunw hrun ht
        refine ⟨hcs, ?_, tail_of_run gate_path (by rw [next_of_lookup rfl]; rfl) parts.query_end hrun ht⟩
        rintro _ ⟨⟩
        exact hrunw
  obtain ⟨hcs, hpath, hquery, hfragment⟩ := hparts
  refine ⟨⟨cs, hauthority, hcs, ?_⟩, hpath, hquery, hfragment⟩
  by_contra hne
  rw [hcreate, resume_unmarked hne parts.path_valid parts.path_end hpath
    (fun w hw => ⟨parts.query_end w hw, hquery w hw⟩) hfragment] at h
  cases h

theorem create_eq_some_iff :
    create rest parts.text = .ok (some u) ↔ Accepts rest parts ∧ u = parts.decoded := by
  constructor
  · intro h
    have haccepts := accepts_of_create h
    rw [create_of_accepts haccepts, Except.ok.injEq, Option.some.injEq] at h
    exact ⟨haccepts, h.symm⟩
  · rintro ⟨haccepts, rfl⟩
    exact create_of_accepts haccepts

end Whole

end Uri

end Saturn
