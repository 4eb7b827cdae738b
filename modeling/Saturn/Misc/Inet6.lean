import Mathlib.Algebra.Group.Int.Defs
import Mathlib.Algebra.Group.Nat.Defs
import Mathlib.Data.List.Induction

/-!
# Text forms of IPv6 addresses

A reader for the text forms: eight groups of one to four hexadecimal digits between colons, of which
`::` may stand for one or more groups that are zero; the last two groups may be written as four
decimal numbers. Joined groups are read back, with or without the `::`.
-/

namespace Saturn

namespace Inet6

/-- A text form, in ASCII. -/
abbrev Text := List UInt8

/-- The value of a hexadecimal digit. -/
def hexDigit (c : UInt8) : Option Nat :=
  if 48 ≤ c ∧ c ≤ 57 then some (c.toNat - 48)
  else if 65 ≤ c ∧ c ≤ 70 then some (c.toNat - 55)
  else if 97 ≤ c ∧ c ≤ 102 then some (c.toNat - 87)
  else none

/-- The number that hexadecimal digits say. -/
def hexNumber (s : Text) : Option Nat :=
  s.foldlM (fun n c => (hexDigit c).map fun d => 16 * n + d) 0

/-- One to four hexadecimal digits. -/
def group (s : Text) : Option Nat := if s ≠ [] ∧ s.length ≤ 4 then hexNumber s else none

/-- A decimal number up to 255 without leading zeros. -/
def octet (s : Text) : Option Nat :=
  if s ≠ [] ∧ s.length ≤ 3 ∧ (s.all fun c => 48 ≤ c ∧ c ≤ 57) ∧ (s.head? = some 48 → s.length = 1) then
    let n := s.foldl (fun n c => 10 * n + (c.toNat - 48)) 0
    if n ≤ 255 then some n else none
  else none

/-- Four decimal numbers, as two groups. -/
def quad (s : Text) : Option (List Nat) :=
  match (s.splitOn 46).map octet with
  | [some a, some b, some c, some d] => some [256 * a + b, 256 * c + d]
  | _ => none

/-- The groups between colons; `last` if the address ends with them. -/
def pieces (last : Bool) : List Text → Option (List Nat)
  | [] => some []
  | [p] =>
    match group p with
    | some g => some [g]
    | none => if last then quad p else none
  | p :: ps => (group p).bind fun g => (pieces last ps).map (g :: ·)

/-- The groups on one side of a `::`, if there are any. -/
def side (last : Bool) (s : Text) : Option (List Nat) :=
  if s = [] then some [] else pieces last (s.splitOn 58)

/-- What stands before and behind the first `::`. -/
def splitDouble : Text → Option (Text × Text)
  | [] => none
  | [_] => none
  | c :: d :: s =>
    if c = 58 ∧ d = 58 then some ([], s) else (splitDouble (d :: s)).map fun t => (c :: t.1, t.2)

/-- The eight groups of an address. -/
def parseGroups (s : Text) : Option (List Nat) :=
  match splitDouble s with
  | none => (side true s).bind fun gs => if gs.length = 8 then some gs else none
  | some (a, b) =>
    (side false a).bind fun gs => (side true b).bind fun hs =>
      if gs.length + hs.length ≤ 7 then
        some (gs ++ List.replicate (8 - gs.length - hs.length) 0 ++ hs)
      else none

/-- The sixteen bytes of an address, the high byte of each group first. -/
def parse (s : Text) : Option (List UInt8) :=
  (parseGroups s).map fun gs => gs.flatMap fun g => [UInt8.ofNat (g / 256), UInt8.ofNat g]

/-- No two places of the text have a `::`. -/
def AtMostOneDouble (s : Text) : Prop :=
  ∀ a b a' b', s = a ++ 58 :: 58 :: b → s = a' ++ 58 :: 58 :: b' → a = a'

/-- What a group may be: not empty, and without a colon. -/
def IsPiece (p : Text) : Prop := p ≠ [] ∧ (58 : UInt8) ∉ p

/-- The groups with colons between them. -/
def join (ps : List Text) : Text := [58].intercalate ps

section Double

theorem join_cons_cons (p q : Text) (ps : List Text) :
    join (p :: q :: ps) = p ++ 58 :: join (q :: ps) := by
  simp [join, List.intercalate]

theorem join_singleton (p : Text) : join [p] = p := List.intercalate_singleton

theorem join_head {p : Text} (hp : IsPiece p) (ps : List Text) :
    ∃ c s, join (p :: ps) = c :: s ∧ c ≠ 58 := by
  obtain ⟨c, p, rfl⟩ := List.exists_cons_of_ne_nil hp.1
  have hc : c ≠ 58 := fun h => hp.2 (h ▸ List.mem_cons_self)
  cases ps with
  | nil => exact ⟨c, p, join_singleton _, hc⟩
  | cons q ps => exact ⟨c, p ++ 58 :: join (q :: ps), by rw [join_cons_cons, List.cons_append], hc⟩

theorem splitDouble_cons {c d : UInt8} (h : c ≠ 58 ∨ d ≠ 58) (s : Text) :
    splitDouble (c :: d :: s) = (splitDouble (d :: s)).map fun t => (c :: t.1, t.2) := by
  rw [splitDouble, if_neg]
  rintro ⟨hc, hd⟩
  exact h.elim (fun h => h hc) fun h => h hd

theorem splitDouble_append {w : Text} (hw : (58 : UInt8) ∉ w) (s : Text) :
    splitDouble (w ++ s) = (splitDouble s).map fun t => (w ++ t.1, t.2) := by
  induction w with
  | nil => simp
  | cons c w ih =>
      obtain ⟨hc, hw⟩ := not_or.mp (mt List.mem_cons.mpr hw)
      have hcons : splitDouble (c :: (w ++ s)) = (splitDouble (w ++ s)).map fun t => (c :: t.1, t.2) := by
        cases h : w ++ s with
        | nil => rfl
        | cons d s' => exact splitDouble_cons (Or.inl (Ne.symm hc)) s'
      rw [List.cons_append, hcons, ih hw, Option.map_map]
      rfl

/-- Behind a colon that ends a group, the next group begins. -/
theorem splitDouble_colon {p : Text} (hp : IsPiece p) (ps : List Text) (s : Text) :
    splitDouble (58 :: (join (p :: ps) ++ s)) =
      (splitDouble (join (p :: ps) ++ s)).map fun t => (58 :: t.1, t.2) := by
  obtain ⟨c, w, hjoin, hc⟩ := join_head hp ps
  rw [hjoin]
  exact splitDouble_cons (Or.inr hc) (w ++ s)

theorem splitDouble_join {ps : List Text} (h : ∀ p ∈ ps, IsPiece p) : splitDouble (join ps) = none := by
  induction ps with
  | nil => rfl
  | cons p ps ih =>
      obtain ⟨hp, hps⟩ := List.forall_mem_cons.mp h
      cases ps with
      | nil =>
          have happend := splitDouble_append hp.2 []
          rw [List.append_nil] at happend
          rw [join_singleton, happend]
          rfl
      | cons q ps =>
          have hcolon := splitDouble_colon (List.forall_mem_cons.mp hps).1 ps []
          rw [List.append_nil, ih hps] at hcolon
          rw [join_cons_cons, splitDouble_append hp.2, hcolon]
          rfl

/-- The `::` between two joined runs is found. -/
theorem splitDouble_join_append {ps : List Text} (h : ∀ p ∈ ps, IsPiece p) (b : Text) :
    splitDouble (join ps ++ 58 :: 58 :: b) = some (join ps, b) := by
  induction ps with
  | nil => rfl
  | cons p ps ih =>
      obtain ⟨hp, hps⟩ := List.forall_mem_cons.mp h
      cases ps with
      | nil =>
          rw [join_singleton, splitDouble_append hp.2]
          simp [splitDouble]
      | cons q ps =>
          rw [join_cons_cons, List.append_assoc, List.cons_append, splitDouble_append hp.2,
            splitDouble_colon (List.forall_mem_cons.mp hps).1, ih hps]
          rfl

theorem ne_of_splitDouble {s : Text} (h : splitDouble s = none) (a b : Text) :
    s ≠ a ++ 58 :: 58 :: b := by
  fun_induction splitDouble s generalizing a with
  | case1 => cases a <;> simp
  | case2 c => cases a <;> simp
  | case3 c d s hdouble => cases h
  | case4 c d s hdouble ih =>
      rintro heq
      cases a with
      | nil =>
          injection heq with hc heq
          injection heq with hd _
          exact hdouble ⟨hc, hd⟩
      | cons c' a =>
          injection heq with _ heq
          exact ih (Option.map_eq_none_iff.mp h) a heq

/-- A second `::` begins behind the first, at its second colon at the earliest. -/
theorem splitDouble_first {s a b : Text} (h : splitDouble s = some (a, b)) (a' b' : Text)
    (heq : s = a' ++ 58 :: 58 :: b') : a = a' ∨ ∃ d, 58 :: b = d ++ 58 :: 58 :: b' := by
  fun_induction splitDouble s generalizing a a' with
  | case1 => cases h
  | case2 c => cases h
  | case3 c d s hdouble =>
      cases h
      cases a' with
      | nil => exact Or.inl rfl
      | cons c' a' =>
          injection heq with _ heq
          exact Or.inr ⟨a', hdouble.2 ▸ heq⟩
  | case4 c d s hdouble ih =>
      obtain ⟨⟨a₁, b₁⟩, hsplit, hab⟩ := Option.map_eq_some_iff.mp h
      cases hab
      cases a' with
      | nil =>
          injection heq with hc heq
          injection heq with hd _
          exact absurd ⟨hc, hd⟩ hdouble
      | cons c' a' =>
          injection heq with hc heq
          rcases ih hsplit a' heq with ha | hd
          · exact Or.inl (by rw [ha, hc])
          · exact Or.inr hd

theorem atMostOneDouble_join {ps : List Text} (h : ∀ p ∈ ps, IsPiece p) : AtMostOneDouble (join ps) :=
  fun a b _ _ heq _ => absurd heq (ne_of_splitDouble (splitDouble_join h) a b)

theorem atMostOneDouble_append {ps qs : List Text} (hps : ∀ p ∈ ps, IsPiece p)
    (hqs : ∀ q ∈ qs, IsPiece q) : AtMostOneDouble (join ps ++ 58 :: 58 :: join qs) := by
  have hnone : splitDouble (58 :: join qs) = none := by
    cases qs with
    | nil => rfl
    | cons q qs =>
        have hcolon := splitDouble_colon (List.forall_mem_cons.mp hqs).1 qs []
        rw [List.append_nil, splitDouble_join hqs] at hcolon
        exact hcolon
  have hfirst (a b : Text) (heq : join ps ++ 58 :: 58 :: join qs = a ++ 58 :: 58 :: b) :
      join ps = a := by
    rcases splitDouble_first (splitDouble_join_append hps _) a b heq with ha | ⟨d, hd⟩
    · exact ha
    · exact absurd hd (ne_of_splitDouble hnone d b)
  intro a b a' b' heq heq'
  rw [← hfirst a b heq, ← hfirst a' b' heq']

end Double

section Groups

theorem hexNumber_append (s : Text) (c : UInt8) :
    hexNumber (s ++ [c]) = (hexNumber s).bind fun n => (hexDigit c).map fun d => 16 * n + d := by
  rw [hexNumber, List.foldlM_append]
  refine congrArg (Option.bind (hexNumber s)) (funext fun n => ?_)
  cases h : hexDigit c <;> simp [h]

/-- What is read as a number has digits only. -/
theorem hexDigit_of_hexNumber {s : Text} {n : Nat} (h : hexNumber s = some n) {c : UInt8}
    (hc : c ∈ s) : (hexDigit c).isSome = true := by
  induction s using List.reverseRecOn generalizing n with
  | nil => cases hc
  | append_singleton s d ih =>
      rw [hexNumber_append, Option.bind_eq_some_iff] at h
      obtain ⟨m, hm, hd⟩ := h
      obtain ⟨v, hv, -⟩ := Option.map_eq_some_iff.mp hd
      rcases List.mem_append.mp hc with hc | hc
      · exact ih hm hc
      · rw [List.mem_singleton.mp hc, hv]
        rfl

theorem hexNumber_of_group {p : Text} {g : Nat} (h : group p = some g) :
    p ≠ [] ∧ hexNumber p = some g := by
  rw [group] at h
  split at h
  · rename_i hshape
    exact ⟨hshape.1, h⟩
  · cases h

theorem hexDigit_of_group {p : Text} {g : Nat} (h : group p = some g) {c : UInt8} (hc : c ∈ p) :
    (hexDigit c).isSome = true := hexDigit_of_hexNumber (hexNumber_of_group h).2 hc

theorem isPiece_of_group {p : Text} {g : Nat} (h : group p = some g) : IsPiece p := by
  refine ⟨(hexNumber_of_group h).1, fun hmem => ?_⟩
  exact absurd (hexDigit_of_group h hmem) (by decide)

theorem exists_group {ps : List Text} {gs : List Nat} (h : ps.map group = gs.map some) {p : Text}
    (hp : p ∈ ps) : ∃ g, group p = some g := by
  have hmem : group p ∈ gs.map some := h ▸ List.mem_map_of_mem hp
  obtain ⟨g, -, hg⟩ := List.mem_map.mp hmem
  exact ⟨g, hg.symm⟩

theorem isPiece_of_map {ps : List Text} {gs : List Nat} (h : ps.map group = gs.map some) :
    ∀ p ∈ ps, IsPiece p := by
  intro p hp
  obtain ⟨g, hg⟩ := exists_group h hp
  exact isPiece_of_group hg

/-- Joined groups have digits and colons only. -/
theorem mem_join {ps : List Text} {gs : List Nat} (h : ps.map group = gs.map some) {c : UInt8}
    (hc : c ∈ join ps) : c = 58 ∨ (hexDigit c).isSome = true := by
  induction ps generalizing gs with
  | nil => cases hc
  | cons p ps ih =>
      obtain ⟨g, hg⟩ := exists_group h List.mem_cons_self
      cases ps with
      | nil =>
          rw [join_singleton] at hc
          exact Or.inr (hexDigit_of_group hg hc)
      | cons q ps =>
          rw [join_cons_cons] at hc
          rcases List.mem_append.mp hc with hc | hc
          · exact Or.inr (hexDigit_of_group hg hc)
          · rcases List.mem_cons.mp hc with hc | hc
            · exact Or.inl hc
            · cases gs with
              | nil => cases h
              | cons g' gs => exact ih (List.cons.inj h).2 hc

theorem pieces_eq (last : Bool) {ps : List Text} {gs : List Nat}
    (h : ps.map group = gs.map some) : pieces last ps = some gs := by
  induction ps generalizing gs with
  | nil =>
      cases gs with
      | nil => rfl
      | cons g gs => cases h
  | cons p ps ih =>
      cases gs with
      | nil => cases h
      | cons g gs =>
          injection h with hp hps
          cases ps with
          | nil =>
              cases gs with
              | nil =>
                  rw [pieces]
                  rw [hp]
              | cons g' gs => cases hps
          | cons q ps =>
              rw [pieces, hp, ih hps]
              · rfl
              · simp

theorem side_join (last : Bool) {ps : List Text} {gs : List Nat}
    (h : ps.map group = gs.map some) : side last (join ps) = some gs := by
  cases ps with
  | nil =>
      cases gs with
      | nil => rfl
      | cons g gs => cases h
  | cons p ps =>
      have hpieces := isPiece_of_map h
      obtain ⟨c, w, hjoin, -⟩ := join_head (hpieces p List.mem_cons_self) ps
      have hsplit : (join (p :: ps)).splitOn 58 = p :: ps :=
        List.splitOn_intercalate 58 (fun q hq => (hpieces q hq).2) (by simp)
      rw [side, if_neg (by rw [hjoin]; simp), hsplit, pieces_eq last h]

theorem parseGroups_join {ps : List Text} {gs : List Nat} (h : ps.map group = gs.map some)
    (hlen : gs.length = 8) : parseGroups (join ps) = some gs := by
  rw [parseGroups, splitDouble_join (isPiece_of_map h)]
  simp only [side_join true h, Option.bind, hlen, if_true]

theorem parseGroups_double {ps qs : List Text} {gs hs : List Nat} (hps : ps.map group = gs.map some)
    (hqs : qs.map group = hs.map some) (hlen : gs.length + hs.length ≤ 7) :
    parseGroups (join ps ++ 58 :: 58 :: join qs) =
      some (gs ++ List.replicate (8 - gs.length - hs.length) 0 ++ hs) := by
  rw [parseGroups, splitDouble_join_append (isPiece_of_map hps)]
  simp only [side_join false hps, side_join true hqs, Option.bind, if_pos hlen]

end Groups

/-- `n` in hexadecimal, without leading zeros. -/
def hexDigits (n : Nat) : Text := (Nat.toDigits 16 n).map fun c => c.toNat.toUInt8

section Digits

theorem hexDigit_digitChar : ∀ d : Fin 16, hexDigit (Nat.digitChar d).toNat.toUInt8 = some d.val := by
  decide

theorem hexNumber_hexDigits (n : Nat) : hexNumber (hexDigits n) = some n := by
  induction n using Nat.strongRecOn with
  | ind n ih =>
      have hdigit (d : Nat) (hd : d < 16) : hexDigit (Nat.digitChar d).toNat.toUInt8 = some d :=
        hexDigit_digitChar ⟨d, hd⟩
      rw [hexDigits, Nat.toDigits_eq_if (by decide)]
      split
      · rename_i hlt
        simp only [List.map_cons, List.map_nil, hexNumber, List.foldlM_cons, hdigit n hlt]
        simp
      · rename_i hge
        rw [List.map_append, List.map_singleton, hexNumber_append]
        change (hexNumber (hexDigits (n / 16))).bind _ = _
        rw [ih (n / 16) (by omega), hdigit (n % 16) (Nat.mod_lt _ (by decide))]
        simp only [Option.bind, Option.map]
        congr 1
        omega

theorem group_hexDigits {n : Nat} (h : n < 16 ^ 4) : group (hexDigits n) = some n := by
  have hlen : (hexDigits n).length ≤ 4 := by
    rw [hexDigits, List.length_map]
    exact (Nat.length_toDigits_le_iff (by decide) (by decide)).mpr h
  have hne : hexDigits n ≠ [] := by
    rw [hexDigits, ne_eq, List.map_eq_nil_iff]
    exact Nat.toDigits_ne_nil
  rw [group, if_pos ⟨hne, hlen⟩, hexNumber_hexDigits]

theorem map_group_hexDigits {gs : List Nat} (h : ∀ g ∈ gs, g < 16 ^ 4) :
    (gs.map hexDigits).map group = gs.map some := by
  rw [List.map_map]
  exact List.map_congr_left fun g hg => group_hexDigits (h g hg)

end Digits

end Inet6

end Saturn
