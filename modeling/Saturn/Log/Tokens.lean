import Saturn.Log.Formatter
import Saturn.Misc.Lexer
import Saturn.Misc.Runs

/-!
# Tokens of a format string

A format string is cut into directives, each the longest one that begins at its place, and into text up
to the next `%`. `parseFormat` makes a pattern of every token. A text that is not ended by a `%` takes it
beyond the end of the string, unless the text is a single `%`.
-/

namespace Saturn

namespace Log

open Http (Bytes ascii)
open Lexer (Longest Tokens)

/-- The directives with a fixed text, but `%d`, behind the `%`. None begins a later one. -/
def directives : List (Bytes × FormatPattern) :=
  [(ascii "p", .level), (ascii "level", .level),
    (ascii "message", .message), (ascii "msg", .message), (ascii "m", .message),
    (ascii "F", .file), (ascii "file", .file),
    (ascii "L", .line), (ascii "line", .line),
    (ascii "thread", .thread), (ascii "t", .thread),
    (ascii "fiber", .fiber), (ascii "f", .fiber),
    (ascii "elapse", .elapse), (ascii "e", .elapse),
    (ascii "c", .logger), (ascii "logger", .logger)]

/-- The directives and their patterns. -/
inductive Directive : Bytes → FormatPattern → Prop
  | named {name : Bytes} {p : FormatPattern} : (name, p) ∈ directives → Directive (37 :: name) p
  | date : Directive (ascii "%d") (timeFormatPattern [])
  | dateFormat {fmt : Bytes} : 125 ∉ fmt →
      Directive (ascii "%d\x7b" ++ fmt ++ [125]) (timeFormatPattern fmt)

/-- The first token of a format string: the longest directive, or else the text up to the next `%`,
reproduced as it is. -/
inductive FirstToken (s : Bytes) : Bytes → FormatPattern → Prop
  | directive {t : Bytes} {p : FormatPattern} : Longest Directive s t p → FirstToken s t p
  | text {c : UInt8} {rest : Bytes} : s = c :: rest → (∀ t p, Directive t p → ¬ t <+: s) →
      FirstToken s (c :: rest.takeWhile (· ≠ 37)) (.text (c :: rest.takeWhile (· ≠ 37)))

/-- The last token is a directive or a single `%`. -/
def EndsWell (tokens : List (Bytes × FormatPattern)) : Prop :=
  ∀ tok ∈ tokens.getLast?, Directive tok.1 tok.2 ∨ tok.1 = [37]

/-- The first entry whose name `sv` starts with: its pattern, and the length of its name. -/
def firstMatch (table : List (Bytes × FormatPattern)) (sv : Bytes) : Option (FormatPattern × Nat) :=
  (table.find? fun e => e.1.isPrefixOf sv).map fun e => (e.2, e.1.length)

theorem firstMatch_pair (a b : String) (p : FormatPattern) (rest : List (Bytes × FormatPattern))
    (sv : Bytes) : firstMatch ((ascii a, p) :: (ascii b, p) :: rest) sv =
      if startsWith sv a || startsWith sv b then
        some (p, if startsWith sv a then (ascii a).length else (ascii b).length)
      else firstMatch rest sv := by
  unfold firstMatch startsWith
  cases ha : (ascii a).isPrefixOf sv <;> cases hb : (ascii b).isPrefixOf sv <;> simp [ha, hb]

theorem firstMatch_triple (a b c : String) (p : FormatPattern) (rest : List (Bytes × FormatPattern))
    (sv : Bytes) : firstMatch ((ascii a, p) :: (ascii b, p) :: (ascii c, p) :: rest) sv =
      if startsWith sv c || startsWith sv b || startsWith sv a then
        some (p, if startsWith sv a then (ascii a).length
          else if startsWith sv b then (ascii b).length else (ascii c).length)
      else firstMatch rest sv := by
  unfold firstMatch startsWith
  cases ha : (ascii a).isPrefixOf sv <;> cases hb : (ascii b).isPrefixOf sv <;>
    cases hc : (ascii c).isPrefixOf sv <;> simp [ha, hb, hc]

/-- The branches pick the first match in the table, and skip its name. -/
theorem directive_eq (sv : Bytes) : directive sv = firstMatch directives sv := by
  unfold directives
  rw [firstMatch_pair, firstMatch_triple, firstMatch_pair, firstMatch_pair, firstMatch_pair,
    firstMatch_pair, firstMatch_pair, firstMatch_pair]
  unfold directive
  rw [Bool.or_comm (startsWith sv "t"), Bool.or_comm (startsWith sv "f"),
    Bool.or_comm (startsWith sv "e")]
  rfl

theorem directives_pairwise : directives.Pairwise fun e e' => ¬ e.1 <+: e'.1 := by
  unfold directives
  decide

theorem directives_head : ∀ e ∈ directives, e.1.head? ≠ none ∧ e.1.head? ≠ some 100 := by
  unfold directives
  decide

theorem directives_kind : ∀ e ∈ directives, ∀ e' ∈ directives, e.1 = e'.1 → e.2 = e'.2 := by
  unfold directives
  decide

/-- The directives that `37 :: sv` begins with. -/
theorem directive_cases {t sv : Bytes} {p : FormatPattern} (h : Directive t p) (ht : t <+: 37 :: sv) :
    (∃ name, t = 37 :: name ∧ (name, p) ∈ directives ∧ name <+: sv) ∨
    (sv.head? = some 100 ∧ (t = [37, 100] ∧ p = timeFormatPattern [] ∨
      ∃ fmt, 125 ∉ fmt ∧ t = 37 :: 100 :: 123 :: (fmt ++ [125]) ∧ p = timeFormatPattern fmt)) := by
  cases h with
  | named hmem => exact Or.inl ⟨_, rfl, hmem, (List.cons_prefix_cons.mp ht).2⟩
  | date =>
      obtain ⟨rest, hrest⟩ := (List.cons_prefix_cons.mp ht).2
      exact Or.inr ⟨by rw [← hrest]; rfl, Or.inl ⟨rfl, rfl⟩⟩
  | @dateFormat fmt hfmt =>
      obtain ⟨rest, hrest⟩ := (List.cons_prefix_cons.mp ht).2
      exact Or.inr ⟨by rw [← hrest]; rfl, Or.inr ⟨fmt, hfmt, rfl, rfl⟩⟩

theorem head?_of_begins {name sv : Bytes} (h : name <+: sv) (hname : name.head? ≠ none) :
    sv.head? = name.head? := by
  obtain ⟨rest, rfl⟩ := h
  cases name with
  | nil => exact absurd rfl hname
  | cons c name => rfl

theorem directive_ne_nil {t : Bytes} {p : FormatPattern} (h : Directive t p) :
    ∃ sv, t = 37 :: sv := by
  cases h with
  | named hmem => exact ⟨_, rfl⟩
  | date => exact ⟨_, rfl⟩
  | dateFormat hfmt => exact ⟨_, rfl⟩

/-- A text has one pattern as a directive. -/
theorem directive_kind (t : Bytes) (p p' : FormatPattern) (h : Directive t p) (h' : Directive t p') :
    p = p' := by
  obtain ⟨sv, rfl⟩ := directive_ne_nil h
  rcases directive_cases h (List.prefix_refl _) with ⟨name, heq, hmem, -⟩ | ⟨hhead, hdate⟩
  · cases heq
    rcases directive_cases h' (List.prefix_refl _) with ⟨name, heq, hmem', -⟩ | ⟨hhead, -⟩
    · cases heq
      exact directives_kind _ hmem _ hmem' rfl
    · exact absurd hhead (directives_head _ hmem).2
  · rcases directive_cases h' (List.prefix_refl _) with ⟨name, heq, hmem', -⟩ | ⟨-, hdate'⟩
    · cases heq
      exact absurd hhead (directives_head _ hmem').2
    · rcases hdate with ⟨ht, rfl⟩ | ⟨fmt, -, ht, rfl⟩ <;>
        rcases hdate' with ⟨ht', rfl⟩ | ⟨fmt', -, ht', rfl⟩
      · rfl
      · simp [ht] at ht'
      · simp [ht] at ht'
      · rw [ht] at ht'
        simp only [List.cons.injEq, true_and] at ht'
        rw [List.append_cancel_right ht']

/-- A match in the table is the longest directive. -/
theorem longest_of_directive {sv : Bytes} {d : FormatPattern × Nat} (h : directive sv = some d) :
    ∃ name, name.length = d.2 ∧ Longest Directive (37 :: sv) (37 :: name) d.1 := by
  rw [directive_eq] at h
  obtain ⟨e, he, rfl⟩ := Option.map_eq_some_iff.mp h
  obtain ⟨hmem, hbegins, hlongest⟩ := Lexer.longest_of_find? directives_pairwise he
  refine ⟨e.1, rfl, .named hmem, List.cons_prefix_cons.mpr ⟨rfl, hbegins⟩, fun t k ht hprefix => ?_⟩
  rcases directive_cases ht hprefix with ⟨name, rfl, hname, hsv⟩ | ⟨hhead, -⟩
  · exact Nat.succ_le_succ (hlongest name k hname hsv)
  · -- no name begins like a date
    have hne := directives_head e hmem
    exact absurd (head?_of_begins hbegins hne.1 ▸ hhead) hne.2

theorem not_prefix_of_directive_none {sv : Bytes} (h : directive sv = none) :
    ∀ e ∈ directives, ¬ e.1 <+: sv := by
  rw [directive_eq, firstMatch, Option.map_eq_none_iff, List.find?_eq_none] at h
  intro e he hbegins
  exact h e he (List.isPrefixOf_iff_prefix.mpr hbegins)

theorem directive_date (rest : Bytes) : directive (100 :: rest) = none := by
  rw [directive_eq, firstMatch, Option.map_eq_none_iff, List.find?_eq_none]
  intro e he hbegins
  have hne := directives_head e he
  have hhead := head?_of_begins (List.isPrefixOf_iff_prefix.mp hbegins) hne.1
  exact hne.2 hhead.symm

/-- A date whose brace is closed. -/
theorem longest_dateFormat {fmt rest : Bytes} (hfmt : 125 ∉ fmt) :
    Longest Directive (37 :: 100 :: 123 :: (fmt ++ 125 :: rest)) (37 :: 100 :: 123 :: (fmt ++ [125]))
      (timeFormatPattern fmt) := by
  refine ⟨.dateFormat hfmt, ⟨rest, by simp⟩, fun t k ht hprefix => ?_⟩
  rcases directive_cases ht hprefix with ⟨name, rfl, hmem, hname⟩ | ⟨-, ⟨rfl, -⟩ | ⟨fmt', hfmt', rfl, -⟩⟩
  · exact absurd hname (not_prefix_of_directive_none (directive_date _) _ hmem)
  · simp
  · obtain ⟨more, hmore⟩ := hprefix
    have hsame : fmt' ++ 125 :: more = fmt ++ 125 :: rest := by simpa using hmore
    exact Nat.le_of_eq (by rw [run_unique hfmt' hfmt hsame])

/-- A date without a format. -/
theorem longest_date {rest : Bytes} (h : ∀ fmt more, rest ≠ 123 :: (fmt ++ 125 :: more)) :
    Longest Directive (37 :: 100 :: rest) [37, 100] (timeFormatPattern []) := by
  refine ⟨.date, ⟨rest, rfl⟩, fun t k ht hprefix => ?_⟩
  rcases directive_cases ht hprefix with ⟨name, rfl, hmem, hname⟩ | ⟨-, ⟨rfl, -⟩ | ⟨fmt, -, rfl, -⟩⟩
  · exact absurd hname (not_prefix_of_directive_none (directive_date _) _ hmem)
  · exact Nat.le_refl _
  · obtain ⟨more, hmore⟩ := hprefix
    exact absurd (by simpa using hmore.symm) (h fmt more)

theorem firstToken_ne_nil (s t : Bytes) (p : FormatPattern) (h : FirstToken s t p) : t ≠ [] := by
  cases h with
  | directive h =>
      obtain ⟨sv, rfl⟩ := directive_ne_nil h.lexeme
      simp
  | text hs hnone => simp

theorem firstToken_unique (s t : Bytes) (p : FormatPattern) (t' : Bytes) (p' : FormatPattern)
    (h : FirstToken s t p) (h' : FirstToken s t' p') : t = t' ∧ p = p' := by
  cases h with
  | directive h =>
      cases h' with
      | directive h' => exact h.unique directive_kind h'
      | text hs hnone => exact absurd h.begins (hnone t p h.lexeme)
  | text hs hnone =>
      cases h' with
      | directive h' => exact absurd h'.begins (hnone t' p' h'.lexeme)
      | text hs' hnone' =>
          rw [hs] at hs'
          cases hs'
          exact ⟨rfl, rfl⟩

/-- Every format string can be cut into tokens, in one way only. -/
theorem exists_tokens (f : Bytes) :
    ∃ ts, Tokens FirstToken f ts ∧ ∀ ts', Tokens FirstToken f ts' → ts' = ts := by
  obtain ⟨ts, hts⟩ : ∃ ts, Tokens FirstToken f ts := by
    refine Lexer.exists_tokens (fun s hs => ?_) f
    by_cases hdirective : ∃ t p, Directive t p ∧ t <+: s
    · obtain ⟨t, p, ht, hprefix⟩ := hdirective
      obtain ⟨t, p, hlongest⟩ := Lexer.exists_longest ht hprefix
      obtain ⟨rest, hrest⟩ := hlongest.begins
      have hfirst : FirstToken s t p := .directive hlongest
      exact ⟨t, p, rest, hfirst, firstToken_ne_nil s t p hfirst, hrest.symm⟩
    · obtain ⟨c, rest, rfl⟩ := List.exists_cons_of_ne_nil hs
      refine ⟨_, _, rest.dropWhile (· ≠ 37), .text rfl ?_, by simp, by simp⟩
      exact fun t p ht hprefix => hdirective ⟨t, p, ht, hprefix⟩
  exact ⟨ts, hts, fun ts' hts' => hts'.unique firstToken_ne_nil firstToken_unique hts⟩

theorem closing_of_not_mem : ∀ {l : Bytes} (tmp : Nat), 125 ∉ l → closing l tmp = tmp + l.length := by
  intro l
  induction l with
  | nil => exact fun _ _ => rfl
  | cons c l ih =>
      intro tmp h
      rw [List.mem_cons, not_or] at h
      rw [closing, if_neg (Ne.symm h.1), ih (tmp + 1) h.2, List.length_cons]
      omega

theorem closing_append : ∀ {u : Bytes} (v : Bytes) (tmp : Nat), 125 ∉ u →
    closing (u ++ 125 :: v) tmp = tmp + u.length := by
  intro u
  induction u with
  | nil => exact fun _ _ _ => rfl
  | cons c u ih =>
      intro v tmp h
      rw [List.mem_cons, not_or] at h
      rw [List.cons_append, closing, if_neg (Ne.symm h.1), ih v (tmp + 1) h.2, List.length_cons]
      omega

theorem percent_of_not_mem : ∀ {l : Bytes} (tmp : Nat), 37 ∉ l →
    percent l tmp = .error .outOfBounds := by
  intro l
  induction l with
  | nil => exact fun _ _ => rfl
  | cons c l ih =>
      intro tmp h
      rw [List.mem_cons, not_or] at h
      rw [percent, if_neg (Ne.symm h.1), ih (tmp + 1) h.2]

theorem percent_append : ∀ {u : Bytes} (v : Bytes) (tmp : Nat), 37 ∉ u →
    percent (u ++ 37 :: v) tmp = .ok (tmp + u.length) := by
  intro u
  induction u with
  | nil => exact fun _ _ _ => rfl
  | cons c u ih =>
      intro v tmp h
      rw [List.mem_cons, not_or] at h
      rw [List.cons_append, percent, if_neg (Ne.symm h.1), ih v (tmp + 1) h.2, List.length_cons,
        Nat.add_assoc, Nat.add_comm 1]

theorem ok_bind {α β : Type} (a : α) (f : α → Except Fault β) : (Except.ok a >>= f) = f a := rfl

section Body

variable {views : Bytes} {i : Nat}

theorem length_of_drop {s : Bytes} (hs : views.drop i = s) (hne : s ≠ []) :
    views.length = i + s.length := by
  have hlen := congrArg List.length hs
  have hpos := List.length_pos_iff.mpr hne
  rw [List.length_drop] at hlen
  omega

theorem drop_add {u v : Bytes} (hs : views.drop i = u ++ v) : views.drop (i + u.length) = v := by
  rw [← List.drop_drop, hs, List.drop_left]

theorem charAt_of_drop {u v : Bytes} {c : UInt8} (hs : views.drop i = u ++ c :: v) :
    charAt views (i + u.length) = .ok c := by
  have hget : views[i + u.length]? = some c := by
    rw [← List.getElem?_drop, hs]
    simp
  rw [charAt, hget]

theorem lt_of_charAt {c : UInt8} (h : charAt views i = .ok c) : i < views.length := by
  unfold charAt at h
  split at h
  · rename_i hget
    exact (List.getElem?_eq_some_iff.mp hget).1
  · cases h

theorem plainStr_append {c : UInt8} {u v : Bytes} (hs : views.drop i = c :: (u ++ 37 :: v))
    (hu : 37 ∉ u) : plainStr views i = .ok (.text (c :: u), i + u.length) := by
  have hdrop : views.drop (i + 1) = u ++ 37 :: v := drop_add (u := [c]) hs
  have htake : (c :: (u ++ 37 :: v)).take (i + 1 + u.length - i) = c :: u := by
    have hn : i + 1 + u.length - i = u.length + 1 := by omega
    rw [hn, List.take_succ_cons, List.take_left]
  rw [plainStr, hdrop, percent_append v (i + 1) hu, hs]
  change Except.ok (FormatPattern.text ((c :: (u ++ 37 :: v)).take (i + 1 + u.length - i)),
    i + 1 + u.length - 1) = _
  rw [htake]
  have hi : i + 1 + u.length - 1 = i + u.length := by omega
  rw [hi]

theorem plainStr_of_not_mem {c : UInt8} {u : Bytes} (hs : views.drop i = c :: u) (hu : 37 ∉ u) :
    plainStr views i = .error .outOfBounds := by
  have hdrop : views.drop (i + 1) = u := drop_add (u := [c]) hs
  rw [plainStr, hdrop, percent_of_not_mem (i + 1) hu]
  rfl

theorem date_brace (h : charAt views (i + 2) = .ok 123) : date views i =
    if closing (views.drop (i + 3)) (i + 3) < views.length then
      .ok (timeFormatPattern ((views.drop (i + 3)).take (closing (views.drop (i + 3)) (i + 3) - i - 3)),
        closing (views.drop (i + 3)) (i + 3))
    else .ok (timeFormatPattern [], i + 1) := by
  rw [date, if_pos (lt_of_charAt h), h, ok_bind, if_pos rfl]
  rfl

theorem date_closed {fmt rest : Bytes} (hs : views.drop i = 37 :: 100 :: 123 :: (fmt ++ 125 :: rest))
    (hfmt : 125 ∉ fmt) : date views i = .ok (timeFormatPattern fmt, i + (fmt.length + 3)) := by
  have hlen : views.length = i + (fmt.length + 1 + rest.length + 3) := by
    rw [length_of_drop hs (by simp)]
    simp [Nat.add_assoc, Nat.add_comm 1]
  have hdrop : views.drop (i + 3) = fmt ++ 125 :: rest := drop_add (u := [37, 100, 123]) hs
  have hchar : charAt views (i + 2) = .ok 123 := charAt_of_drop (u := [37, 100]) hs
  have htake : (fmt ++ 125 :: rest).take (i + 3 + fmt.length - i - 3) = fmt := by
    have hn : i + 3 + fmt.length - i - 3 = fmt.length := by omega
    rw [hn, List.take_left]
  have hi : i + 3 + fmt.length = i + (fmt.length + 3) := by omega
  rw [date_brace hchar, hdrop, closing_append rest (i + 3) hfmt, if_pos (by omega), htake, hi]

theorem date_open {rest : Bytes} (hs : views.drop i = 37 :: 100 :: rest)
    (h : ∀ fmt more, rest ≠ 123 :: (fmt ++ 125 :: more)) :
    date views i = .ok (timeFormatPattern [], i + 1) := by
  have hlen : views.length = i + (rest.length + 2) := length_of_drop hs (by simp)
  cases rest with
  | nil =>
      rw [date, if_neg (by rw [hlen]; simp)]
      rfl
  | cons c rest =>
      have hchar : charAt views (i + 2) = .ok c := charAt_of_drop (u := [37, 100]) hs
      rw [List.length_cons] at hlen
      by_cases hc : c = 123
      · subst hc
        have hdrop : views.drop (i + 3) = rest := drop_add (u := [37, 100, 123]) hs
        have hnot : 125 ∉ rest := by
          intro hmem
          obtain ⟨fmt, more, hsplit⟩ := List.append_of_mem hmem
          exact h fmt more (by rw [hsplit])
        rw [date_brace hchar, hdrop, closing_of_not_mem (i + 3) hnot, if_neg (by omega)]
      · rw [date, if_pos (by omega), hchar, ok_bind, if_neg hc]
        rfl

/-- Behind a `%` that is not the last character, the pass takes one of the branches. -/
theorem body_percent {sv : Bytes} (hs : views.drop i = 37 :: sv) (hne : sv ≠ []) :
    body views i = branch views i := by
  have hlen := length_of_drop hs (by simp)
  have hpos := List.length_pos_iff.mpr hne
  have hchar : charAt views i = .ok 37 := charAt_of_drop (u := []) hs
  rw [List.length_cons] at hlen
  rw [body, hchar, ok_bind, if_pos rfl, if_pos (by omega)]

theorem branch_directive {sv : Bytes} {d : FormatPattern × Nat} (hs : views.drop i = 37 :: sv)
    (hd : directive sv = some d) : branch views i = .ok (d.1, i + d.2) := by
  have hdrop : views.drop (i + 1) = sv := drop_add (u := [37]) hs
  rw [branch, hdrop, hd]
  rfl

theorem branch_date {rest : Bytes} (hs : views.drop i = 37 :: 100 :: rest) :
    branch views i = date views i := by
  have hdrop : views.drop (i + 1) = 100 :: rest := drop_add (u := [37]) hs
  rw [branch, hdrop, directive_date]
  rfl

theorem branch_text {sv : Bytes} (hs : views.drop i = 37 :: sv)
    (hnone : ∀ t p, Directive t p → ¬ t <+: 37 :: sv) : branch views i = plainStr views i := by
  have hdrop : views.drop (i + 1) = sv := drop_add (u := [37]) hs
  have hd : directive sv = none := by
    cases hd : directive sv with
    | none => rfl
    | some d =>
        obtain ⟨name, -, hlongest⟩ := longest_of_directive hd
        exact absurd hlongest.begins (hnone _ _ hlongest.lexeme)
  have hdate : startsWith sv "d" = false := by
    cases hdate : startsWith sv "d" with
    | false => rfl
    | true =>
        have hprefix : ascii "d" <+: sv := List.isPrefixOf_iff_prefix.mp hdate
        exact absurd (List.cons_prefix_cons.mpr ⟨rfl, hprefix⟩) (hnone _ _ .date)
  rw [branch, hdrop, hd]
  change (if startsWith sv "d" = true then _ else _) = _
  rw [hdate]
  rfl

theorem body_lone (hs : views.drop i = [37]) : body views i = .ok (.text [37], i) := by
  have hlen := length_of_drop hs (by simp)
  have hchar : charAt views i = .ok 37 := charAt_of_drop (u := []) hs
  rw [List.length_singleton] at hlen
  rw [body, hchar, ok_bind, if_pos rfl, if_neg (by omega), hs]
  rfl

/-- Where no directive begins, the pass goes on as for text. -/
theorem body_text {c : UInt8} {rest : Bytes} (hs : views.drop i = c :: rest)
    (hnone : ∀ t p, Directive t p → ¬ t <+: c :: rest) (hlone : c :: rest ≠ [37]) :
    body views i = plainStr views i := by
  by_cases hc : c = 37
  · subst hc
    rw [body_percent hs (fun hnil => hlone (by rw [hnil])), branch_text hs hnone]
  · have hchar : charAt views i = .ok c := charAt_of_drop (u := []) hs
    rw [body, hchar, ok_bind, if_neg hc]

/-- Where a `%d` begins, the branch takes the whole directive. -/
theorem body_longest_date {rest t : Bytes} {p : FormatPattern}
    (hs : views.drop i = 37 :: 100 :: rest) (h : Longest Directive (37 :: 100 :: rest) t p) :
    body views i = .ok (p, i + t.length - 1) := by
  rw [body_percent hs (by simp), branch_date hs]
  by_cases hclosed : ∃ fmt more, rest = 123 :: (fmt ++ 125 :: more)
  · obtain ⟨fmt', more', rfl⟩ := hclosed
    obtain ⟨fmt, more, hsplit, hfmt⟩ :
        ∃ fmt more, fmt' ++ 125 :: more' = fmt ++ 125 :: more ∧ 125 ∉ fmt :=
      List.eq_append_cons_of_mem (by simp)
    rw [hsplit] at hs h
    obtain ⟨rfl, rfl⟩ := h.unique directive_kind (longest_dateFormat hfmt)
    rw [date_closed hs hfmt]
    simp [Nat.add_assoc]
  · have hopen : ∀ fmt more, rest ≠ 123 :: (fmt ++ 125 :: more) :=
      fun fmt more heq => hclosed ⟨fmt, more, heq⟩
    obtain ⟨rfl, rfl⟩ := h.unique directive_kind (longest_date hopen)
    rw [date_open hs hopen]
    rfl

theorem body_longest {s t : Bytes} {p : FormatPattern} (hs : views.drop i = s)
    (h : Longest Directive s t p) : body views i = .ok (p, i + t.length - 1) := by
  obtain ⟨sv, rfl⟩ : ∃ sv, s = 37 :: sv := by
    obtain ⟨sv, rfl⟩ := directive_ne_nil h.lexeme
    obtain ⟨rest, hrest⟩ := h.begins
    exact ⟨sv ++ rest, hrest.symm⟩
  cases hd : directive sv with
  | some d =>
      obtain ⟨name, hname, hlongest⟩ := longest_of_directive hd
      obtain ⟨rfl, rfl⟩ := h.unique directive_kind hlongest
      have hne : sv ≠ [] := by
        rintro rfl
        cases hd
      rw [body_percent hs hne, branch_directive hs hd, ← hname]
      rfl
  | none =>
      rcases directive_cases h.lexeme h.begins with ⟨name, -, hmem, hname⟩ | ⟨hhead, -⟩
      · exact absurd hname (not_prefix_of_directive_none hd _ hmem)
      · obtain ⟨rest, rfl⟩ := List.head?_eq_some_iff.mp hhead
        exact body_longest_date hs h

/-- The pass of a token that is a directive, a single `%`, or not the last one: it appends the pattern
of the token, and the next pass begins behind the token. -/
theorem body_token {t rest : Bytes} {p : FormatPattern} (hs : views.drop i = t ++ rest)
    (h : FirstToken (t ++ rest) t p) (hend : rest ≠ [] ∨ Directive t p ∨ t = [37]) :
    body views i = .ok (p, i + t.length - 1) := by
  cases h with
  | directive h => exact body_longest hs h
  | @text c tail happ hnone =>
      rw [happ] at hs
      by_cases hmem : 37 ∈ tail
      · obtain ⟨u, v, rfl, hu⟩ := List.eq_append_cons_of_mem hmem
        rw [takeWhile_ne_run hu, body_text hs (happ ▸ hnone) (by simp),
          plainStr_append hs hu]
        rfl
      · have htail := takeWhile_ne_self hmem
        rw [htail] at happ hend hnone ⊢
        have hrest : rest = [] := by simpa using happ
        rcases hend with hne | hdirective | hlone
        · exact absurd hrest hne
        · exact absurd (List.prefix_append _ _) (hnone _ _ hdirective)
        · rw [hlone] at hs ⊢
          exact body_lone hs

/-- The pass of any other last token searches for a `%` beyond the end. -/
theorem body_last {t : Bytes} {p : FormatPattern} (hs : views.drop i = t) (h : FirstToken t t p)
    (hend : ¬ (Directive t p ∨ t = [37])) : body views i = .error .outOfBounds := by
  cases h with
  | directive h => exact absurd (Or.inl h.lexeme) hend
  | @text c tail happ hnone =>
      have hmem : 37 ∉ tail := by
        intro hmem
        obtain ⟨u, v, rfl, hu⟩ := List.eq_append_cons_of_mem hmem
        rw [takeWhile_ne_run hu] at happ
        simpa using congrArg List.length happ
      rw [takeWhile_ne_self hmem] at hs hend hnone
      rw [body_text hs hnone (fun hlone => hend (Or.inr hlone)), plainStr_of_not_mem hs hmem]

end Body

theorem endsWell_cons_of_ne_nil {tok : Bytes × FormatPattern} {ts : List (Bytes × FormatPattern)}
    (h : ts ≠ []) : EndsWell (tok :: ts) ↔ EndsWell ts := by
  obtain ⟨tok', ts, rfl⟩ := List.exists_cons_of_ne_nil h
  unfold EndsWell
  rw [List.getLast?_cons_cons]

theorem endsWell_singleton {tok : Bytes × FormatPattern} :
    EndsWell [tok] ↔ Directive tok.1 tok.2 ∨ tok.1 = [37] := by
  simp [EndsWell]

/-- The loop makes the patterns of the tokens, as far as it comes: each pass takes one. -/
theorem loop_tokens {views s : Bytes} {ts : List (Bytes × FormatPattern)} (h : Tokens FirstToken s ts) :
    ∀ (fuel i : Nat), views.drop i = s → s.length ≤ fuel →
      (EndsWell ts → loop fuel views i = .ok (ts.map Prod.snd)) ∧
      (¬ EndsWell ts → loop fuel views i = .error .outOfBounds) := by
  induction h with
  | nil =>
      intro fuel i hs _
      have hlen : ¬ i < views.length := Nat.not_lt.mpr (List.drop_eq_nil_iff.mp hs)
      refine ⟨fun _ => ?_, fun hnot => absurd (by simp [EndsWell]) hnot⟩
      cases fuel with
      | zero => rw [loop, if_neg hlen]; rfl
      | succ fuel => rw [loop, if_neg hlen]; rfl
  | @cons t rest p ts hfirst hrest ih =>
      intro fuel i hs hfuel
      have hne := firstToken_ne_nil _ _ _ hfirst
      have hpos := List.length_pos_iff.mpr hne
      have hlen := length_of_drop hs (by simp [hne])
      rw [List.length_append] at hlen hfuel
      obtain ⟨fuel, rfl⟩ : ∃ n, fuel = n + 1 := ⟨fuel - 1, by omega⟩
      rw [loop, if_pos (by omega)]
      by_cases hlast : rest = [] ∧ ¬ (Directive t p ∨ t = [37])
      · obtain ⟨rfl, hend⟩ := hlast
        have hts : ts = [] := hrest.eq_nil firstToken_ne_nil
        rw [List.append_nil] at hs hfirst
        rw [hts, endsWell_singleton, body_last hs hfirst hend]
        exact ⟨fun hok => absurd hok hend, fun _ => rfl⟩
      · have hend : rest ≠ [] ∨ Directive t p ∨ t = [37] := by
          by_cases hnil : rest = []
          · exact Or.inr (not_not.mp fun hno => hlast ⟨hnil, hno⟩)
          · exact Or.inl hnil
        have hi : i + t.length - 1 + 1 = i + t.length := by omega
        obtain ⟨hok, hbad⟩ := ih fuel (i + t.length) (drop_add hs) (by omega)
        rw [body_token hs hfirst hend, ok_bind, hi]
        have hends : EndsWell ((t, p) :: ts) ↔ EndsWell ts := by
          cases ts with
          | nil =>
              have hnil : rest = [] := hrest.flatten.symm
              refine iff_of_true (endsWell_singleton.mpr ?_) (by simp [EndsWell])
              exact hend.resolve_left fun hne => hne hnil
          | cons tok ts => exact endsWell_cons_of_ne_nil (by simp)
        rw [hends]
        refine ⟨fun hwell => ?_, fun hnot => ?_⟩
        · rw [hok hwell]
          rfl
        · rw [hbad hnot]
          rfl

/-- `parseFormat` comes to its end within the string exactly if the last token is a directive or a
single `%`; otherwise it goes beyond the end. -/
theorem parseFormat_tokens {f : Bytes} {ts : List (Bytes × FormatPattern)} (hf : f ≠ [])
    (h : Tokens FirstToken f ts) :
    (EndsWell ts → parseFormat f = .ok ⟨f, ts.map Prod.snd, false⟩) ∧
    (¬ EndsWell ts → parseFormat f = .error .outOfBounds) := by
  obtain ⟨hok, hbad⟩ := loop_tokens h f.length 0 (List.drop_zero) (Nat.le_refl _)
  rw [parseFormat, if_neg hf]
  refine ⟨fun hwell => ?_, fun hnot => ?_⟩
  · rw [hok hwell]
    rfl
  · rw [hbad hnot]
    rfl

/-- The last token of the format string, if there is one, is a directive or a single `%`. -/
def LastClosed (f : Bytes) : Prop := ∃ ts, Tokens FirstToken f ts ∧ EndsWell ts

theorem parseFormat_of_lastClosed {f : Bytes} (h : LastClosed f) : ∃ r, parseFormat f = .ok r := by
  obtain ⟨ts, hts, hends⟩ := h
  by_cases hf : f = []
  · exact ⟨⟨f, [], true⟩, by rw [parseFormat, if_pos hf]⟩
  · exact ⟨_, (parseFormat_tokens hf hts).1 hends⟩

theorem parseFormat_of_not_lastClosed {f : Bytes} (h : ¬ LastClosed f) :
    parseFormat f = .error .outOfBounds := by
  obtain ⟨ts, hts, -⟩ := exists_tokens f
  have hf : f ≠ [] := by
    rintro rfl
    exact h ⟨[], .nil, by simp [EndsWell]⟩
  exact (parseFormat_tokens hf hts).2 fun hends => h ⟨ts, hts, hends⟩

theorem lastClosed_of_parseFormat {f : Bytes} {r : LogFormatter} (h : parseFormat f = .ok r) :
    LastClosed f := by
  by_contra hnot
  rw [parseFormat_of_not_lastClosed hnot] at h
  cases h

/-- `parseFormat` always ends, and stays within the string exactly if the last token is a directive or
a single `%`. -/
theorem parseFormat_safe_iff (f : Bytes) : parseFormat f ≠ .error .outOfFuel ∧
    ((∃ r, parseFormat f = .ok r) ↔ LastClosed f) := by
  by_cases h : LastClosed f
  · obtain ⟨r, hr⟩ := parseFormat_of_lastClosed h
    exact ⟨by rw [hr]; simp, iff_of_true ⟨r, hr⟩ h⟩
  · have hbad := parseFormat_of_not_lastClosed h
    refine ⟨by rw [hbad]; simp, fun hok => ?_, fun hlast => absurd hlast h⟩
    obtain ⟨r, hr⟩ := hok
    exact lastClosed_of_parseFormat hr

/-- A format string of one letter. -/
theorem letter_not_parsed : ¬ ∃ r, parseFormat (ascii "a") = .ok r := by
  rintro ⟨r, hr⟩
  have hbad : parseFormat (ascii "a") = .error .outOfBounds := rfl
  rw [hbad] at hr
  cases hr

/-- The patterns are those of the tokens, in order, and the tokens are the string. -/
theorem parseFormat_lossless {f : Bytes} (hf : f ≠ []) (hlast : LastClosed f) :
    ∃ ts, Tokens FirstToken f ts ∧ (∀ ts', Tokens FirstToken f ts' → ts' = ts) ∧
      (ts.map Prod.fst).flatten = f ∧ parseFormat f = .ok ⟨f, ts.map Prod.snd, false⟩ := by
  obtain ⟨ts, hts, hends⟩ := hlast
  obtain ⟨ts', -, hunique⟩ := exists_tokens f
  rw [← hunique ts hts] at hunique
  exact ⟨ts, hts, hunique, hts.flatten, (parseFormat_tokens hf hts).1 hends⟩

theorem parseFormat_lossless_message :
    ∃ ts, Tokens FirstToken (ascii "[%t] %msg%") ts ∧
      (∀ ts', Tokens FirstToken (ascii "[%t] %msg%") ts' → ts' = ts) ∧
      (ts.map Prod.fst).flatten = ascii "[%t] %msg%" ∧
      parseFormat (ascii "[%t] %msg%") = .ok ⟨ascii "[%t] %msg%", ts.map Prod.snd, false⟩ :=
  parseFormat_lossless (by decide) (lastClosed_of_parseFormat (r := ⟨ascii "[%t] %msg%",
    [.text (ascii "["), .thread, .text (ascii "] "), .message, .text (ascii "%")], false⟩) rfl)

end Log

end Saturn
