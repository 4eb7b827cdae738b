import Saturn.Address.Defs
import Saturn.Http.Message
import Saturn.Misc.Runs

/-!
# Host and service

The part of `Address::Lookup` that splits its argument into what it passes to `getaddrinfo`. Pointers
into the string are positions in its memory, the terminator included.
-/

namespace Saturn

open Http (Bytes cstr)

namespace Address

/-- `memchr(mem + start, c, n)`; `none` stands for `NULL`. -/
def memchr (mem : Bytes) (start : Nat) (c : UInt8) (n : Nat) : Except Undefined (Option Nat) :=
  if start + n ≤ mem.length then
    .ok ((((mem.drop start).take n).findIdx? (· == c)).map (start + ·))
  else .error .outOfBounds

/-- `*(mem + i)` -/
def readAt (mem : Bytes) (i : Nat) : Except Undefined UInt8 :=
  match mem[i]? with
  | some c => .ok c
  | none => .error .outOfBounds

/-- The C string at a position. -/
def readString (mem : Bytes) (i : Nat) : Except Undefined Bytes :=
  if i < mem.length then .ok (cstr (mem.drop i)) else .error .outOfBounds

/-- The stage that looks for an address in brackets: `node` and `service` behind it. -/
def bracketStage (host : Bytes) : Except Undefined (Bytes × Option Nat) :=
  if host.head? = some 91 then
    (memchr (host ++ [0]) 1 93 (host.length - 1)).bind fun
      | some endipv6 => (readAt (host ++ [0]) (endipv6 + 1)).map fun c =>
          ((host.drop 1).take (endipv6 - 1), if c = 58 then some (endipv6 + 2) else none)
      | none => .ok ([], none)
  else .ok ([], none)

/-- The stage that looks for a single colon. -/
def colonStage (host : Bytes) : Except Undefined (Bytes × Option Nat) :=
  (memchr (host ++ [0]) 0 58 host.length).bind fun
    | some service =>
      (memchr (host ++ [0]) (service + 1) 58 (host.length - service - 1)).map fun
        | some _ => ([], some service)
        | none => (host.take service, some (service + 1))
    | none => .ok ([], none)

/-- The `node` and the `service` that `Address::Lookup` passes to `getaddrinfo`. -/
def lookup (host : Bytes) : Except Undefined (Bytes × Option Bytes) :=
  (bracketStage host).bind fun s =>
    (if s.1 = [] then colonStage host else .ok s).bind fun s =>
      let node := if s.1 = [] then host else s.1
      match s.2 with
      | some service => (readString (host ++ [0]) service).map fun service => (node, some service)
      | none => .ok (node, none)

/-- `host` is `[h]rest`, with an `h` that is not empty and has no bracket. -/
def Bracketed (host h rest : Bytes) : Prop :=
  host = 91 :: (h ++ 93 :: rest) ∧ h ≠ [] ∧ (93 : UInt8) ∉ h

/-- `host` has one colon, between `a` and `b`. -/
def OneColon (host a b : Bytes) : Prop :=
  host = a ++ 58 :: b ∧ (58 : UInt8) ∉ a ∧ (58 : UInt8) ∉ b

/-- What node and service of a string are. -/
structure Splits (host : Bytes) (r : Bytes × Option Bytes) : Prop where
  brackets : ∀ h rest, Bracketed host h rest →
    r.1 = h ∧ (∀ s, rest = 58 :: s → r.2 = some s) ∧ (rest.head? ≠ some 58 → r.2 = none)
  colon : (∀ h rest, ¬Bracketed host h rest) → ∀ a b, OneColon host a b → a ≠ [] → r = (a, some b)
  other : (∀ h rest, ¬Bracketed host h rest) → (∀ a b, OneColon host a b → a = []) → r = (host, none)

section Memory

variable {c : UInt8} {w : Bytes}

theorem findIdx_none (hw : c ∉ w) : w.findIdx? (· == c) = none := by
  rw [List.findIdx?_eq_none_iff]
  intro b hb
  rw [beq_eq_false_iff_ne]
  rintro rfl
  exact hw hb

theorem memchr_found (x : Bytes) (hw : c ∉ w) (y z : Bytes) :
    memchr (x ++ (w ++ c :: y ++ z)) x.length c (w ++ c :: y).length = .ok (some (x.length + w.length)) := by
  rw [memchr, if_pos (by simp only [List.length_append]; omega), List.drop_left, List.take_left,
    List.findIdx?_append, findIdx_none hw]
  simp [List.findIdx?_cons]

theorem memchr_none (x : Bytes) (hw : c ∉ w) (z : Bytes) :
    memchr (x ++ (w ++ z)) x.length c w.length = .ok none := by
  rw [memchr, if_pos (by simp only [List.length_append]; omega), List.drop_left, List.take_left,
    findIdx_none hw]
  rfl

theorem readAt_append (x : Bytes) (c : UInt8) (z : Bytes) : readAt (x ++ c :: z) x.length = .ok c := by
  simp [readAt]

theorem readString_append (x : Bytes) {s : Bytes} (hs : (0 : UInt8) ∉ s) :
    readString (x ++ (s ++ [0])) x.length = .ok s := by
  have hcstr : cstr (s ++ [0]) = s := takeWhile_ne_run hs []
  rw [readString, if_pos (by simp), List.drop_left, hcstr]

end Memory

section Stages

variable {host a b h rest : Bytes}

/-- The byte behind `]` is there, if only the terminator. -/
theorem bracketStage_eq (hh : (93 : UInt8) ∉ h) (rest : Bytes) :
    bracketStage (91 :: (h ++ 93 :: rest)) =
      .ok (h, if rest.head? = some 58 then some (h.length + 3) else none) := by
  have hfound : memchr (91 :: (h ++ 93 :: rest) ++ [0]) 1 93 ((91 :: (h ++ 93 :: rest)).length - 1) =
      .ok (some (1 + h.length)) := memchr_found [91] hh rest [0]
  have hread (c : UInt8) (z : Bytes) (hrest : rest ++ [0] = c :: z) :
      readAt (91 :: (h ++ 93 :: rest) ++ [0]) (1 + h.length + 1) = .ok c := by
    have hmem : 91 :: (h ++ 93 :: rest) ++ [0] = (91 :: (h ++ [93])) ++ c :: z := by
      rw [← hrest]
      simp
    have hlen : 1 + h.length + 1 = (91 :: (h ++ [93])).length := by
      simp only [List.length_cons, List.length_append, List.length_nil]
      omega
    rw [hmem, hlen]
    exact readAt_append _ c z
  have hnode : ((91 :: (h ++ 93 :: rest)).drop 1).take (1 + h.length - 1) = h := by
    rw [Nat.add_sub_cancel_left, List.drop_one, List.tail_cons, List.take_left]
  rw [bracketStage, if_pos List.head?_cons, hfound]
  simp only [Except.bind, hnode]
  cases rest with
  | nil =>
      rw [hread 0 [] rfl]
      rfl
  | cons c rest =>
      rw [hread c (rest ++ [0]) rfl, Except.map, List.head?_cons]
      simp only [Option.some.injEq, show 1 + h.length + 2 = h.length + 3 by omega]

/-- Without an address in brackets the first stage leaves `node` empty. -/
theorem bracketStage_of_not (hb : ∀ h rest, ¬Bracketed host h rest) :
    ∃ service, bracketStage host = .ok ([], service) := by
  cases host with
  | nil => exact ⟨none, rfl⟩
  | cons c t =>
      by_cases hc : c = 91
      · subst hc
        by_cases hmem : (93 : UInt8) ∈ t
        · obtain ⟨h, rest, rfl, hh⟩ := List.eq_append_cons_of_mem hmem
          have hempty : h = [] := by_contra fun hne => hb h rest ⟨rfl, hne, hh⟩
          rw [bracketStage_eq hh, hempty]
          exact ⟨_, rfl⟩
        · have hnone : memchr (91 :: t ++ [0]) 1 93 ((91 :: t).length - 1) = .ok none :=
            memchr_none [91] hmem [0]
          rw [bracketStage, if_pos List.head?_cons, hnone]
          exact ⟨none, rfl⟩
      · rw [bracketStage, if_neg (by simpa using hc)]
        exact ⟨none, rfl⟩

theorem colonStage_none (h : (58 : UInt8) ∉ host) : colonStage host = .ok ([], none) := by
  have hnone : memchr (host ++ [0]) 0 58 host.length = .ok none := memchr_none [] h [0]
  rw [colonStage, hnone]
  rfl

/-- Of several colons the first one stays in `service`. -/
theorem colonStage_eq (ha : (58 : UInt8) ∉ a) (b : Bytes) :
    colonStage (a ++ 58 :: b) =
      .ok (if 58 ∈ b then ([], some a.length) else (a, some (a.length + 1))) := by
  have hfirst : memchr (a ++ 58 :: b ++ [0]) 0 58 (a ++ 58 :: b).length = .ok (some (0 + a.length)) :=
    memchr_found [] ha b [0]
  have hmem : a ++ 58 :: b ++ [0] = (a ++ [58]) ++ (b ++ [0]) := by simp
  have hlen : a.length + 1 = (a ++ [58]).length := by simp
  have hcount : (a ++ 58 :: b).length - a.length - 1 = b.length := by
    rw [List.length_append, List.length_cons]
    omega
  rw [Nat.zero_add] at hfirst
  rw [colonStage, hfirst, Except.bind]
  simp only [hcount]
  split
  · rename_i hb
    obtain ⟨w, y, rfl, hw⟩ := List.eq_append_cons_of_mem hb
    rw [hmem, hlen, memchr_found (a ++ [58]) hw y [0]]
    rfl
  · rename_i hb
    rw [hmem, hlen, memchr_none (a ++ [58]) hb [0]]
    simp [Except.map]

end Stages

section Lookup

variable {host : Bytes}

/-- The three ways a string can go at its colons. -/
theorem colon_cases (host : Bytes) : (58 : UInt8) ∉ host ∨ (∃ a b, OneColon host a b) ∨
    ∃ a b, host = a ++ 58 :: b ∧ (58 : UInt8) ∉ a ∧ (58 : UInt8) ∈ b := by
  by_cases hmem : (58 : UInt8) ∈ host
  · obtain ⟨a, b, rfl, ha⟩ := List.eq_append_cons_of_mem hmem
    by_cases hb : (58 : UInt8) ∈ b
    · exact Or.inr (Or.inr ⟨a, b, rfl, ha, hb⟩)
    · exact Or.inr (Or.inl ⟨a, b, rfl, ha, hb⟩)
  · exact Or.inl hmem

theorem lookup_bracketed (hnul : (0 : UInt8) ∉ host) {h rest : Bytes} (hb : Bracketed host h rest) :
    lookup host = .ok (h, if rest.head? = some 58 then some rest.tail else none) := by
  obtain ⟨rfl, hne, hh⟩ := hb
  have hstage := bracketStage_eq hh rest
  split
  · rename_i hcolon
    rw [if_pos hcolon] at hstage
    obtain ⟨s, rfl⟩ := List.head?_eq_some_iff.mp hcolon
    have hs : (0 : UInt8) ∉ s := fun hmem => hnul (by simp [hmem])
    have hmem : 91 :: (h ++ 93 :: 58 :: s) ++ [0] = (91 :: (h ++ [93, 58])) ++ (s ++ [0]) := by simp
    have hlen : h.length + 3 = (91 :: (h ++ [93, 58])).length := by simp
    rw [lookup, hstage]
    simp only [Except.bind, if_neg hne]
    rw [hmem, hlen, readString_append _ hs]
    rfl
  · rename_i hcolon
    rw [if_neg hcolon] at hstage
    rw [lookup, hstage]
    simp only [Except.bind, if_neg hne]

theorem lookup_not_bracketed (hb : ∀ h rest, ¬Bracketed host h rest) :
    lookup host = (colonStage host).bind fun s =>
      let node := if s.1 = [] then host else s.1
      match s.2 with
      | some service => (readString (host ++ [0]) service).map fun service => (node, some service)
      | none => .ok (node, none) := by
  obtain ⟨service, hstage⟩ := bracketStage_of_not hb
  rw [lookup, hstage]
  rfl

theorem lookup_none (hb : ∀ h rest, ¬Bracketed host h rest) (h : (58 : UInt8) ∉ host) :
    lookup host = .ok (host, none) := by
  rw [lookup_not_bracketed hb, colonStage_none h]
  rfl

theorem lookup_one (hnul : (0 : UInt8) ∉ host) (hb : ∀ h rest, ¬Bracketed host h rest) {a b : Bytes}
    (h : OneColon host a b) : lookup host = .ok (if a = [] then host else a, some b) := by
  obtain ⟨rfl, ha, hcolon⟩ := h
  have hnulb : (0 : UInt8) ∉ b := fun hmem => hnul (by simp [hmem])
  have hmem : a ++ 58 :: b ++ [0] = (a ++ [58]) ++ (b ++ [0]) := by simp
  have hlen : a.length + 1 = (a ++ [58]).length := by simp
  rw [lookup_not_bracketed hb, colonStage_eq ha, if_neg hcolon]
  simp only [Except.bind]
  rw [hmem, hlen, readString_append _ hnulb]
  rfl

/-- The service of a string with more colons is what follows the first, colon and all. -/
theorem lookup_more (hnul : (0 : UInt8) ∉ host) (hb : ∀ h rest, ¬Bracketed host h rest) {a b : Bytes}
    (heq : host = a ++ 58 :: b) (ha : (58 : UInt8) ∉ a) (hmore : (58 : UInt8) ∈ b) :
    lookup host = .ok (host, some (58 :: b)) := by
  have hnulb : (0 : UInt8) ∉ 58 :: b := fun hmem => hnul (heq ▸ List.mem_append_right a hmem)
  rw [lookup_not_bracketed hb, heq, colonStage_eq ha, if_pos hmore]
  simp only [Except.bind]
  rw [List.append_assoc, readString_append a hnulb]
  rfl

theorem OneColon.count_eq {a b : Bytes} (h : OneColon host a b) : host.count 58 = 1 := by
  obtain ⟨rfl, ha, hb⟩ := h
  rw [List.count_append, List.count_cons_self, List.count_eq_zero.mpr ha, List.count_eq_zero.mpr hb]

/-- A colon in front is the only one there is. -/
theorem OneColon.eq_nil {a b : Bytes} (h : OneColon (58 :: host) a b) : a = [] := by
  cases a with
  | nil => rfl
  | cons c a =>
      have hc : 58 = c := (List.cons.inj h.1).1
      exact absurd (hc ▸ List.mem_cons_self) h.2.1

/-- What holds of the result if there is no address in brackets. -/
theorem splits_of_not {r : Bytes × Option Bytes} (hb : ∀ h rest, ¬Bracketed host h rest)
    (hcolon : ∀ a b, OneColon host a b → a ≠ [] → r = (a, some b))
    (hother : (∀ a b, OneColon host a b → a = []) → r = (host, none)) : Splits host r where
  brackets h rest hbr := absurd hbr (hb h rest)
  colon _ := hcolon
  other _ := hother

theorem splits_bracketed (hnul : (0 : UInt8) ∉ host) {h rest : Bytes} (hb : Bracketed host h rest)
    {r : Bytes × Option Bytes} (hr : lookup host = .ok r) : Splits host r where
  brackets h' rest' hb' := by
    have heq := Except.ok.inj (hr.symm.trans (lookup_bracketed hnul hb'))
    subst heq
    refine ⟨rfl, ?_, fun hne => if_neg hne⟩
    rintro s rfl
    rfl
  colon hnot := absurd hb (hnot h rest)
  other hnot := absurd hb (hnot h rest)

/-- No read is behind the terminator. -/
theorem lookup_ok (hnul : (0 : UInt8) ∉ host) : ∃ r, lookup host = .ok r := by
  by_cases hbr : ∃ h rest, Bracketed host h rest
  · obtain ⟨h, rest, hb⟩ := hbr
    exact ⟨_, lookup_bracketed hnul hb⟩
  · have hb : ∀ h rest, ¬Bracketed host h rest := fun h rest hb => hbr ⟨h, rest, hb⟩
    rcases colon_cases host with hnone | ⟨a, b, hone⟩ | ⟨a, b, heq, ha, hmore⟩
    · exact ⟨_, lookup_none hb hnone⟩
    · exact ⟨_, lookup_one hnul hb hone⟩
    · exact ⟨_, lookup_more hnul hb heq ha hmore⟩

theorem splits_iff_of_not (hnul : (0 : UInt8) ∉ host) (hb : ∀ h rest, ¬Bracketed host h rest)
    {r : Bytes × Option Bytes} (hr : lookup host = .ok r) :
    Splits host r ↔ (58 : UInt8) ∉ host ∨ ∃ a b, OneColon host a b ∧ a ≠ [] := by
  rcases colon_cases host with hnone | ⟨a, b, hone⟩ | ⟨a, b, heq, ha, hmore⟩
  · have hnot (a b : Bytes) (h : OneColon host a b) : False := by
      have hcount := h.count_eq
      rw [List.count_eq_zero.mpr hnone] at hcount
      cases hcount
    cases hr.symm.trans (lookup_none hb hnone)
    exact iff_of_true (splits_of_not hb (fun a b h => (hnot a b h).elim) fun _ => rfl) (Or.inl hnone)
  · have hmem : (58 : UInt8) ∈ host := hone.1 ▸ List.mem_append_right a List.mem_cons_self
    by_cases hempty : a = []
    · have hnil (a' b' : Bytes) (h : OneColon host a' b') : a' = [] := by
        rw [hone.1, hempty] at h
        exact h.eq_nil
      cases hr.symm.trans (lookup_one hnul hb hone)
      refine iff_of_false (fun hsplits => ?_) ?_
      · cases (Prod.mk.inj (hsplits.other hb hnil)).2
      · rintro (hnone | ⟨a', b', h, hne⟩)
        · exact hnone hmem
        · exact hne (hnil a' b' h)
    · refine iff_of_true (splits_of_not hb (fun a' b' h hne => ?_) fun hall => ?_)
        (Or.inr ⟨a, b, hone, hempty⟩)
      · cases hr.symm.trans (lookup_one hnul hb h)
        rw [if_neg hne]
      · exact absurd (hall a b hone) hempty
  · have hnot (a' b' : Bytes) (h : OneColon host a' b') : False := by
      have hcount := h.count_eq
      rw [heq, List.count_append, List.count_cons_self] at hcount
      have hpos := List.count_pos_iff.mpr hmore
      omega
    cases hr.symm.trans (lookup_more hnul hb heq ha hmore)
    refine iff_of_false (fun hsplits => ?_) ?_
    · cases (Prod.mk.inj (hsplits.other hb fun a b h => (hnot a b h).elim)).2
    · rintro (hnone | ⟨a', b', h, -⟩)
      · exact hnone (heq ▸ List.mem_append_right a List.mem_cons_self)
      · exact hnot a' b' h

end Lookup

/-- Without a read behind the terminator, host and service are split right exactly if there is an
address in brackets, or no colon, or a single one with text before it. -/
theorem lookup_splits_iff (host : Bytes) (h : (0 : UInt8) ∉ host) :
    (∃ r, lookup host = .ok r ∧ Splits host r) ↔
      (∃ h rest, Bracketed host h rest) ∨ (58 : UInt8) ∉ host ∨
        ∃ a b, OneColon host a b ∧ a ≠ [] := by
  obtain ⟨r, hr⟩ := lookup_ok h
  have hunique : (∃ r, lookup host = .ok r ∧ Splits host r) ↔ Splits host r := by
    refine ⟨?_, fun hsplits => ⟨r, hr, hsplits⟩⟩
    rintro ⟨r', hr', hsplits⟩
    cases hr.symm.trans hr'
    exact hsplits
  rw [hunique]
  by_cases hbr : ∃ h rest, Bracketed host h rest
  · obtain ⟨h', rest, hb⟩ := hbr
    exact iff_of_true (splits_bracketed h hb hr) (Or.inl ⟨h', rest, hb⟩)
  · rw [or_iff_right hbr]
    exact splits_iff_of_not h (fun h rest hb => hbr ⟨h, rest, hb⟩) hr

theorem lookup_splits_port : ∃ r, lookup (Http.ascii "a:80") = .ok r ∧ Splits (Http.ascii "a:80") r :=
  (lookup_splits_iff (Http.ascii "a:80") (by decide)).mpr
    (Or.inr (Or.inr ⟨Http.ascii "a", Http.ascii "80", ⟨rfl, by decide, by decide⟩, by decide⟩))

/-- A bare address gets itself as its service, and text without a host keeps its colon. -/
theorem lookup_wrong :
    lookup (Http.ascii "::1") = .ok (Http.ascii "::1", some (Http.ascii "::1")) ∧
      ¬Splits (Http.ascii "::1") (Http.ascii "::1", some (Http.ascii "::1")) ∧
      lookup (Http.ascii ":80") = .ok (Http.ascii ":80", some (Http.ascii "80")) := by
  refine ⟨by decide, fun h => ?_, by decide⟩
  have hother := h.other (fun h rest hb => absurd (List.cons.inj hb.1).1 (by decide))
    fun a b hone => hone.eq_nil
  cases (Prod.mk.inj hother).2

end Address

end Saturn
