import Mathlib.Data.List.Basic

/-!
# Tokens by longest match

A text is cut into tokens from its beginning. Where one token is determined by the text that it begins,
so is the whole cut. A table of lexemes in which none begins a later one finds the longest match as its
first match.
-/

namespace Saturn

namespace Lexer

variable {α κ : Type*}

/-- `t` is the longest lexeme that `s` begins with, and of the kind `k`. -/
structure Longest (Lexeme : List α → κ → Prop) (s t : List α) (k : κ) : Prop where
  lexeme : Lexeme t k
  begins : t <+: s
  longest : ∀ t' k', Lexeme t' k' → t' <+: s → t'.length ≤ t.length

/-- The consecutive tokens of a text, where `First s t k` says that the first one of `s` is `t`. -/
inductive Tokens (First : List α → List α → κ → Prop) : List α → List (List α × κ) → Prop
  | nil : Tokens First [] []
  | cons {t rest : List α} {k : κ} {ts : List (List α × κ)} :
      First (t ++ rest) t k → Tokens First rest ts → Tokens First (t ++ rest) ((t, k) :: ts)

section Longest

variable {Lexeme : List α → κ → Prop} {s t t' : List α} {k k' : κ}

/-- Two longest matches are one. -/
theorem Longest.unique (hkind : ∀ t k k', Lexeme t k → Lexeme t k' → k = k')
    (h : Longest Lexeme s t k) (h' : Longest Lexeme s t' k') : t = t' ∧ k = k' := by
  have hlen : t.length = t'.length :=
    Nat.le_antisymm (h'.longest t k h.lexeme h.begins) (h.longest t' k' h'.lexeme h'.begins)
  have ht : t = t' := by
    rw [List.prefix_iff_eq_take.mp h.begins, List.prefix_iff_eq_take.mp h'.begins, hlen]
  subst ht
  exact ⟨rfl, hkind t k k' h.lexeme h'.lexeme⟩

/-- A text that begins with a lexeme begins with a longest one. -/
theorem exists_longest (hlexeme : Lexeme t k) (hbegins : t <+: s) :
    ∃ t k, Longest Lexeme s t k := by
  obtain ⟨n, hn⟩ : ∃ n, n = s.length - t.length := ⟨_, rfl⟩
  induction n using Nat.strongRecOn generalizing t k with
  | ind n ih =>
      by_cases hlongest : ∀ t' k', Lexeme t' k' → t' <+: s → t'.length ≤ t.length
      · exact ⟨t, k, hlexeme, hbegins, hlongest⟩
      · push Not at hlongest
        obtain ⟨t', k', hlexeme', hbegins', hlt⟩ := hlongest
        have hle := hbegins'.length_le
        exact ih (s.length - t'.length) (by omega) hlexeme' hbegins' rfl

end Longest

section Table

variable [DecidableEq α] {table : List (List α × κ)} {s : List α} {e : List α × κ}

/-- In a table where no lexeme begins a later one, the first match is the longest. -/
theorem longest_of_find? (htable : table.Pairwise fun e e' => ¬ e.1 <+: e'.1)
    (h : table.find? (fun e => e.1.isPrefixOf s) = some e) :
    Longest (fun t k => (t, k) ∈ table) s e.1 e.2 := by
  induction table with
  | nil => simp at h
  | cons first table ih =>
      obtain ⟨hfirst, htable⟩ := List.pairwise_cons.mp htable
      cases hmatch : first.1.isPrefixOf s with
      | true =>
          simp only [List.find?_cons, hmatch] at h
          cases h
          have hbegins := List.isPrefixOf_iff_prefix.mp hmatch
          refine ⟨List.mem_cons_self, hbegins, fun t k hmem ht => ?_⟩
          rcases List.mem_cons.mp hmem with heq | hmem
          · exact Nat.le_of_eq (congrArg (fun e => e.1.length) heq)
          · rcases List.prefix_or_prefix_of_prefix hbegins ht with hle | hle
            · exact absurd hle (hfirst _ hmem)
            · exact hle.length_le
      | false =>
          simp only [List.find?_cons, hmatch] at h
          obtain ⟨hlexeme, hbegins, hlongest⟩ := ih htable h
          refine ⟨List.mem_cons_of_mem _ hlexeme, hbegins, fun t k hmem ht => ?_⟩
          rcases List.mem_cons.mp hmem with heq | hmem
          · rw [← heq, List.isPrefixOf_iff_prefix.mpr ht] at hmatch
            cases hmatch
          · exact hlongest t k hmem ht

end Table

section Tokens

variable {First : List α → List α → κ → Prop} {s : List α} {ts ts' : List (List α × κ)}

/-- The tokens cover the text, each character once and in order. -/
theorem Tokens.flatten (h : Tokens First s ts) : (ts.map Prod.fst).flatten = s := by
  induction h with
  | nil => rfl
  | cons _ _ ih => rw [List.map_cons, List.flatten_cons, ih]

theorem tokens_cons_iff {t : List α} {k : κ} : Tokens First s ((t, k) :: ts) ↔
    ∃ rest, s = t ++ rest ∧ First s t k ∧ Tokens First rest ts := by
  constructor
  · rintro (_ | ⟨hfirst, hrest⟩)
    exact ⟨_, rfl, hfirst, hrest⟩
  · rintro ⟨rest, rfl, hfirst, hrest⟩
    exact .cons hfirst hrest

theorem Tokens.eq_nil (h : Tokens First [] ts) (hne : ∀ s t k, First s t k → t ≠ []) : ts = [] := by
  cases ts with
  | nil => rfl
  | cons tok ts =>
      obtain ⟨rest, happ, hfirst, -⟩ := tokens_cons_iff.mp h
      exact absurd (List.append_eq_nil_iff.mp happ.symm).1 (hne _ _ _ hfirst)

theorem Tokens.unique (hne : ∀ s t k, First s t k → t ≠ [])
    (hunique : ∀ s t k t' k', First s t k → First s t' k' → t = t' ∧ k = k')
    (h : Tokens First s ts) (h' : Tokens First s ts') : ts = ts' := by
  induction h generalizing ts' with
  | nil => exact (h'.eq_nil hne).symm
  | @cons t rest k ts hfirst hrest ih =>
      cases ts' with
      | nil =>
          have hnil := h'.flatten
          exact absurd (List.append_eq_nil_iff.mp hnil.symm).1 (hne _ _ _ hfirst)
      | cons tok ts' =>
          obtain ⟨rest', happ, hfirst', hrest'⟩ := tokens_cons_iff.mp h'
          obtain ⟨ht, hk⟩ := hunique _ _ _ _ _ hfirst hfirst'
          have hrests : rest = rest' := by
            rw [← ht] at happ
            exact List.append_cancel_left happ
          rw [ih (hrests ▸ hrest'), ← Prod.eta tok, ← ht, ← hk]

/-- Where every text begins with a token, every text can be cut. -/
theorem exists_tokens (htotal : ∀ s, s ≠ [] → ∃ t k rest, First s t k ∧ t ≠ [] ∧ s = t ++ rest)
    (s : List α) : ∃ ts, Tokens First s ts := by
  obtain ⟨n, hn⟩ : ∃ n, n = s.length := ⟨_, rfl⟩
  induction n using Nat.strongRecOn generalizing s with
  | ind n ih =>
      by_cases hs : s = []
      · exact ⟨[], hs ▸ .nil⟩
      · obtain ⟨t, k, rest, hfirst, ht, rfl⟩ := htotal s hs
        have hpos := List.length_pos_iff.mpr ht
        rw [List.length_append] at hn
        obtain ⟨ts, hts⟩ := ih rest.length (by omega) rest rfl
        exact ⟨(t, k) :: ts, .cons hfirst hts⟩

end Tokens

end Lexer

end Saturn
