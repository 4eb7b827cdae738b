import Saturn.Http.HeaderLoop

/-!
# The tokens of a request line

The method, the path, the query and the fragment as the grammar has them, and the states that the
parser goes through on them: it carries out no action between their ends.
-/

namespace Saturn

namespace Http

/-- What a row has for a byte. -/
def rowNext (relaxed : Bool) (row : Row) (c : UInt8) : Transition :=
  ((row.find? fun e => e.1.has relaxed c).map Prod.snd).getD .fail

theorem http11Next_of_lookup {rest : Http11Rest} {relaxed : Bool} {cs : Nat} {row : Row}
    (h : http11Table.lookup cs = some row) (c : UInt8) :
    http11Next rest relaxed cs c = rowNext relaxed row c := by
  rw [http11Next, h]
  rfl

theorem rowNext_cons (relaxed : Bool) (k : CharClass) (t : Transition) (row : Row) (c : UInt8) :
    rowNext relaxed ((k, t) :: row) c = if k.has relaxed c then t else rowNext relaxed row c := by
  rw [rowNext, List.find?_cons]
  by_cases h : k.has relaxed c = true
  · simp [h]
  · simp [h, rowNext]

/-- The machine reads the bytes without an action, and is then in the state returned. -/
def reads (rest : Http11Rest) (relaxed : Bool) : Nat → Bytes → Option Nat
  | cs, [] => some cs
  | cs, c :: w =>
      match http11Next rest relaxed cs c with
      | .goto [] cs' => reads rest relaxed cs' w
      | _ => none

/-- `( pct_encoded | ok )*` -/
def isWord (ok : UInt8 → Bool) : Bytes → Bool
  | [] => true
  | 37 :: a :: b :: w => isXdigit a && isXdigit b && isWord ok w
  | c :: w => ok c && isWord ok w

/-- `( pchar | "/" | "?" )`, without the percent sign. -/
def isQueryChar (relaxed : Bool) (c : UInt8) : Bool :=
  isSegment relaxed c || c == 58 || c == 64 || c == 47 || c == 63

/-- `( pchar | "/" )`, without the percent sign. -/
def isPathChar (relaxed : Bool) (c : UInt8) : Bool :=
  isSegment relaxed c || c == 58 || c == 64 || c == 47

/-- The transition at the end of a path. -/
def EndsPath (rest : Http11Rest) (relaxed : Bool) (cs : Nat) : Prop :=
  http11Next rest relaxed cs 32 = .goto [.requestPath, .requestUri] 4 ∧
    http11Next rest relaxed cs 35 = .goto [.requestPath, .requestUri] 20 ∧
    http11Next rest relaxed cs 63 = .goto [.requestPath] 29

/-- The parser takes the bytes for a `relative_part`, a path that no scheme stands before. -/
def IsPath (rest : Http11Rest) (relaxed : Bool) (path : Bytes) : Prop :=
  ∃ c w cs cs', path = c :: w ∧ http11Next rest relaxed 3 c = .goto [.mark] cs ∧
    reads rest relaxed cs w = some cs' ∧ EndsPath rest relaxed cs'

/-- `path_absolute`: one slash, and segments. -/
def IsPathAbsolute (relaxed : Bool) (path : Bytes) : Prop :=
  ∃ w, path = 47 :: w ∧ isWord (isPathChar relaxed) w = true ∧ w.head? ≠ some 47

/-- `path_rootless`: a segment that is not empty, and more segments. -/
def IsPathRootless (relaxed : Bool) (path : Bytes) : Prop :=
  path ≠ [] ∧ path.head? ≠ some 47 ∧ isWord (isPathChar relaxed) path = true

variable {rest : Http11Rest} {relaxed : Bool}

theorem reads_cons {cs cs' : Nat} {c : UInt8} (h : http11Next rest relaxed cs c = .goto [] cs')
    (w : Bytes) : reads rest relaxed cs (c :: w) = reads rest relaxed cs' w := by
  rw [reads, h]

/-- Bytes without an action only move the machine on. -/
theorem scan_reads {buf : Bytes} {cs cs' : Nat} {r : HttpRequestParser} {w : Bytes}
    (hrelaxed : r.parser.uriRelaxed = relaxed) (h : reads rest relaxed cs w = some cs') (p : Nat)
    (tail : Bytes) :
    scan (http11Step rest buf) (cs, r) p (w ++ tail) =
      scan (http11Step rest buf) (cs', r) (p + w.length) tail := by
  induction w generalizing cs p with
  | nil =>
      cases h
      rfl
  | cons c w ih =>
      rw [reads] at h
      split at h
      · rename_i cs₁ hnext
        have hstep : http11Step rest buf (cs, r) p c = .ok (.goto (cs₁, r)) := by
          rw [http11Step, hrelaxed, hnext]
          rfl
        rw [List.cons_append, scan_cons_goto _ hstep, ih h, List.length_cons]
        congr 1
        omega
      · cases h

/-- A set of states that reads the bytes of a word, with two more for a percent sign. -/
theorem reads_word {ok : UInt8 → Bool} {P : Nat → Prop}
    (hok : ∀ cs, P cs → ∀ c, ok c = true → ∃ cs', http11Next rest relaxed cs c = .goto [] cs' ∧ P cs')
    (hpct : ∀ cs, P cs → ∃ a b cs', http11Next rest relaxed cs 37 = .goto [] a ∧
      (∀ c, isXdigit c = true → http11Next rest relaxed a c = .goto [] b) ∧
      (∀ c, isXdigit c = true → http11Next rest relaxed b c = .goto [] cs') ∧ P cs')
    (w : Bytes) (hw : isWord ok w = true) :
    ∀ cs, P cs → ∃ cs', reads rest relaxed cs w = some cs' ∧ P cs' := by
  induction w using isWord.induct with
  | case1 => exact fun cs hcs => ⟨cs, rfl, hcs⟩
  | case2 a b w ih =>
      intro cs hcs
      rw [isWord, Bool.and_eq_true, Bool.and_eq_true] at hw
      obtain ⟨⟨ha, hb⟩, hw⟩ := hw
      obtain ⟨s, t, cs₁, hs, hst, htc, hcs₁⟩ := hpct cs hcs
      rw [reads_cons hs, reads_cons (hst a ha), reads_cons (htc b hb)]
      exact ih hw cs₁ hcs₁
  | case3 c w hne ih =>
      intro cs hcs
      rw [isWord, Bool.and_eq_true] at hw
      · obtain ⟨cs₁, hnext, hcs₁⟩ := hok cs hcs c hw.1
        rw [reads_cons hnext]
        exact ih hw.2 cs₁ hcs₁
      · exact hne

/-- The delimiters are no characters of a segment. -/
theorem isSegment_ne {c : UInt8} (h : isSegment relaxed c = true) :
    c ≠ 32 ∧ c ≠ 35 ∧ c ≠ 37 ∧ c ≠ 47 ∧ c ≠ 58 ∧ c ≠ 63 ∧ c ≠ 64 := by
  refine ⟨?_, ?_, ?_, ?_, ?_, ?_, ?_⟩
  all_goals
    rintro rfl
    cases relaxed <;> cases h

/-- `( upper | digit ){1,20}` -/
def isMethodName (name : Bytes) : Bool :=
  name ≠ [] && name.length ≤ 20 && name.all fun c => isUpper c || isDigit c

/-- The state behind `n` characters of a method. -/
def methodState (n : Nat) : Nat := if n = 1 then 2 else 173 + n

theorem next_method_first {c : UInt8} (h : (isUpper c || isDigit c) = true) :
    http11Next rest relaxed 1 c = .goto [.mark] 2 := by
  have hless : c ≠ 60 ∧ c ≠ 64 := by
    constructor <;> rintro rfl <;> cases h
  rw [http11Next_of_lookup rfl]
  simp only [rowNext_cons, CharClass.has, beq_iff_eq]
  grind

theorem lookup_methodState : ∀ n ∈ List.range' 1 19,
    http11Table.lookup (methodState n) = some (methodRow (methodState (n + 1))) := by
  decide

theorem next_method {n : Nat} (hn : n ∈ List.range' 1 19) {c : UInt8}
    (h : (isUpper c || isDigit c) = true) :
    http11Next rest relaxed (methodState n) c = .goto [] (methodState (n + 1)) := by
  have hspace : c ≠ 32 := by
    rintro rfl
    cases h
  rw [http11Next_of_lookup (lookup_methodState n hn)]
  simp only [methodRow, rowNext_cons, CharClass.has, beq_iff_eq]
  grind

variable (rest relaxed) in
theorem next_method_space {n : Nat} (hn : n ∈ List.range' 1 20) :
    http11Next rest relaxed (methodState n) 32 = .goto [.requestMethod] 3 := by
  rw [List.range'_1_concat, List.mem_append, List.mem_singleton] at hn
  rcases hn with hn | rfl
  · rw [http11Next_of_lookup (lookup_methodState n hn)]
    rfl
  · rfl

theorem reads_method {w : Bytes} (hw : (w.all fun c => isUpper c || isDigit c) = true) :
    ∀ n, 1 ≤ n → n + w.length ≤ 20 →
      reads rest relaxed (methodState n) w = some (methodState (n + w.length)) := by
  induction w with
  | nil => exact fun _ _ _ => rfl
  | cons c w ih =>
      intro n hpos hlen
      rw [List.all_cons, Bool.and_eq_true] at hw
      rw [List.length_cons] at hlen
      have hn : n ∈ List.range' 1 19 := List.mem_range'_1.mpr ⟨hpos, by omega⟩
      rw [reads_cons (next_method hn hw.1), ih hw.2 (n + 1) (by omega) (by omega), List.length_cons]
      congr 2
      omega

section Classes

variable {c : UInt8}

theorem next_query_first (h : isQueryChar relaxed c = true) :
    http11Next rest relaxed 29 c = .goto [.startQuery] 30 := by
  have hsegment (h : isSegment relaxed c = true) := isSegment_ne h
  rw [http11Next_of_lookup rfl]
  simp only [queryRow, pcharRow, rowNext_cons, CharClass.has, beq_iff_eq]
  rw [isQueryChar] at h
  grind

theorem next_query (h : isQueryChar relaxed c = true) :
    http11Next rest relaxed 30 c = .goto [] 30 := by
  have hsegment (h : isSegment relaxed c = true) := isSegment_ne h
  rw [http11Next_of_lookup rfl]
  simp only [queryRow, pcharRow, rowNext_cons, CharClass.has, beq_iff_eq]
  rw [isQueryChar] at h
  grind

theorem next_fragment_first (h : isQueryChar relaxed c = true) :
    http11Next rest relaxed 20 c = .goto [.mark] 21 := by
  have hsegment (h : isSegment relaxed c = true) := isSegment_ne h
  rw [http11Next_of_lookup rfl]
  simp only [pcharRow, rowNext_cons, CharClass.has, beq_iff_eq]
  rw [isQueryChar] at h
  grind

theorem next_fragment (h : isQueryChar relaxed c = true) :
    http11Next rest relaxed 21 c = .goto [] 21 := by
  have hsegment (h : isSegment relaxed c = true) := isSegment_ne h
  rw [http11Next_of_lookup rfl]
  simp only [pcharRow, rowNext_cons, CharClass.has, beq_iff_eq]
  rw [isQueryChar] at h
  grind

theorem next_path (h : isPathChar relaxed c = true) :
    http11Next rest relaxed 26 c = .goto [] 26 := by
  have hsegment (h : isSegment relaxed c = true) := isSegment_ne h
  rw [http11Next_of_lookup rfl]
  simp only [pathRow, rowNext_cons, CharClass.has, beq_iff_eq]
  rw [isPathChar] at h
  grind

/-- Behind the first slash, another one would begin an authority. -/
theorem next_root (h : isPathChar relaxed c = true) (hne : c ≠ 47) :
    http11Next rest relaxed 33 c = .goto [] 26 := by
  have hsegment (h : isSegment relaxed c = true) := isSegment_ne h
  rw [http11Next_of_lookup rfl]
  simp only [pathRow, rowNext_cons, CharClass.has, beq_iff_eq]
  rw [isPathChar] at h
  grind

end Classes

/-- The states of a percent sign: two hexadecimal digits lead back. -/
theorem next_pct {s t u : Nat} (h : (s, t, u) ∈ [(24, 25, 19), (27, 28, 26), (31, 32, 30), (22, 23, 21)])
    {c : UInt8} (hc : isXdigit c = true) :
    http11Next rest relaxed s c = .goto [] t ∧ http11Next rest relaxed t c = .goto [] u := by
  have hrows : ∀ x ∈ [(24, 25, 19), (27, 28, 26), (31, 32, 30), (22, 23, 21)],
      http11Table.lookup x.1 = some [(.xdigit, .goto [] x.2.1)] ∧
        http11Table.lookup x.2.1 = some [(.xdigit, .goto [] x.2.2)] := by
    decide
  obtain ⟨hs, ht⟩ := hrows _ h
  constructor
  · rw [http11Next, hs]
    simp [CharClass.has, hc]
  · rw [http11Next, ht]
    simp [CharClass.has, hc]

/-- A state that goes round on the characters of a word reads it. -/
theorem reads_loop {ok : UInt8 → Bool} {s t u : Nat}
    (hmem : (s, t, u) ∈ [(24, 25, 19), (27, 28, 26), (31, 32, 30), (22, 23, 21)])
    (hok : ∀ c, ok c = true → http11Next rest relaxed u c = .goto [] u)
    (hpct : http11Next rest relaxed u 37 = .goto [] s) {w : Bytes} (hw : isWord ok w = true) :
    reads rest relaxed u w = some u := by
  have hloop : ∃ cs', reads rest relaxed u w = some cs' ∧ cs' = u := by
    refine reads_word (P := (· = u)) ?_ ?_ w hw u rfl
    · intro cs hcs c hc
      rw [hcs]
      exact ⟨u, hok c hc, rfl⟩
    · intro cs hcs
      rw [hcs]
      exact ⟨s, t, u, hpct, fun c hc => (next_pct hmem hc).1, fun c hc => (next_pct hmem hc).2, rfl⟩
  obtain ⟨cs, hcs, hu⟩ := hloop
  rw [hcs, hu]

/-- A word that begins in a state of its own, with the action of its first byte. -/
theorem reads_loop_first {ok : UInt8 → Bool} {s t u u₀ : Nat} {a : Action}
    (hmem : (s, t, u) ∈ [(24, 25, 19), (27, 28, 26), (31, 32, 30), (22, 23, 21)])
    (hfirst : ∀ c, ok c = true → http11Next rest relaxed u₀ c = .goto [a] u)
    (hpct : http11Next rest relaxed u₀ 37 = .goto [a] s)
    (hloop : ∀ w, isWord ok w = true → reads rest relaxed u w = some u)
    {w : Bytes} (hne : w ≠ []) (hw : isWord ok w = true) : ∃ c v cs, w = c :: v ∧
    http11Next rest relaxed u₀ c = .goto [a] cs ∧ reads rest relaxed cs v = some u := by
  cases w using isWord.fun_cases with
  | case1 => exact absurd rfl hne
  | case2 b c w =>
      rw [isWord, Bool.and_eq_true, Bool.and_eq_true] at hw
      obtain ⟨⟨hb, hc⟩, hw⟩ := hw
      refine ⟨37, b :: c :: w, s, rfl, hpct, ?_⟩
      rw [reads_cons (next_pct hmem hb).1, reads_cons (next_pct hmem hc).2]
      exact hloop w hw
  | case3 c w hw' =>
      rw [isWord, Bool.and_eq_true] at hw
      · exact ⟨c, w, u, rfl, hfirst c hw.1, hloop w hw.2⟩
      · exact hw'

theorem reads_query {w : Bytes} (hw : isWord (isQueryChar relaxed) w = true) :
    reads rest relaxed 30 w = some 30 :=
  reads_loop (s := 31) (t := 32) (by decide) (fun _ hc => next_query hc) rfl hw

theorem reads_fragment {w : Bytes} (hw : isWord (isQueryChar relaxed) w = true) :
    reads rest relaxed 21 w = some 21 :=
  reads_loop (s := 22) (t := 23) (by decide) (fun _ hc => next_fragment hc) rfl hw

variable (rest) in
theorem reads_query_first {w : Bytes} (hne : w ≠ [])
    (hw : isWord (isQueryChar relaxed) w = true) : ∃ c v cs, w = c :: v ∧
    http11Next rest relaxed 29 c = .goto [.startQuery] cs ∧ reads rest relaxed cs v = some 30 := by
  exact reads_loop_first (s := 31) (t := 32) (by decide) (fun _ hc => next_query_first hc) rfl
    (fun _ => reads_query) hne hw

variable (rest) in
theorem reads_fragment_first {w : Bytes} (hne : w ≠ [])
    (hw : isWord (isQueryChar relaxed) w = true) : ∃ c v cs, w = c :: v ∧
    http11Next rest relaxed 20 c = .goto [.mark] cs ∧ reads rest relaxed cs v = some 21 := by
  exact reads_loop_first (s := 22) (t := 23) (by decide) (fun _ hc => next_fragment_first hc) rfl
    (fun _ => reads_fragment) hne hw

theorem reads_path {w : Bytes} (hw : isWord (isPathChar relaxed) w = true) :
    reads rest relaxed 26 w = some 26 :=
  reads_loop (s := 27) (t := 28) (by decide) (fun _ hc => next_path hc) rfl hw

theorem endsPath_of_mem {cs : Nat} (h : cs ∈ [19, 173, 26, 33]) : EndsPath rest relaxed cs := by
  simp only [List.mem_cons, List.not_mem_nil, or_false] at h
  rcases h with rfl | rfl | rfl | rfl <;> exact ⟨rfl, rfl, rfl⟩

theorem isPath_of_absolute {path : Bytes} (h : IsPathAbsolute relaxed path) :
    IsPath rest relaxed path := by
  obtain ⟨w, rfl, hw, hslash⟩ := h
  refine ⟨47, w, 33, ?_⟩
  cases w using isWord.fun_cases with
  | case1 => exact ⟨33, rfl, rfl, rfl, endsPath_of_mem (by decide)⟩
  | case2 a b w =>
      rw [isWord, Bool.and_eq_true, Bool.and_eq_true] at hw
      obtain ⟨⟨ha, hb⟩, hw⟩ := hw
      have hmem : (27, 28, 26) ∈ [(24, 25, 19), (27, 28, 26), (31, 32, 30), (22, 23, 21)] := by decide
      refine ⟨26, rfl, rfl, ?_, endsPath_of_mem (by decide)⟩
      rw [reads_cons rfl, reads_cons (next_pct hmem ha).1, reads_cons (next_pct hmem hb).2]
      exact reads_path hw
  | case3 c w hne =>
      rw [isWord, Bool.and_eq_true] at hw
      · refine ⟨26, rfl, rfl, ?_, endsPath_of_mem (by decide)⟩
        rw [reads_cons (next_root hw.1 fun heq => hslash (by rw [heq]; rfl))]
        exact reads_path hw.2
      · exact hne

end Http

end Saturn
