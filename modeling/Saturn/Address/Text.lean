import Saturn.Address.Defs
import Saturn.Http.MessageLength
import Saturn.Misc.Inet6
import Saturn.Misc.Runs

/-!
# The text of an IPv6 address

`IPv6Address::insert` writes the first run of groups that are zero as `::`, however short it is, and
all other groups in hexadecimal. The text is read back as the address that was written.
-/

namespace Saturn

open Http (ascii digits)

namespace IPv6Address

/-- The array `(uint16_t*)m_addr.sin6_addr.s6_addr`. -/
def loadGroups : List UInt8 → List (BitVec 16)
  | b :: b' :: bytes => loadLe 16 [b, b'] :: loadGroups bytes
  | _ => []

/-- `std::hex << (int)byteswapOnLittleEndian(g) << std::dec` -/
def hex (g : BitVec 16) : List UInt8 := Inet6.hexDigits (bswap g).toNat

/-- The loop of `insert`, from the groups that follow `prev`; there is no `prev` where `i` is 0.
The result is the text and `used_zeros`. -/
def insertLoop (os : List UInt8) (usedZeros : Bool) (prev : Option (BitVec 16)) :
    List (BitVec 16) → List UInt8 × Bool
  | [] => (os, usedZeros)
  | g :: gs =>
    if g = 0 ∧ usedZeros = false then insertLoop os usedZeros (some g) gs
    else
      let zeros := prev == some 0 && !usedZeros
      let os := if zeros then os ++ ascii ":" else os
      let os := if prev.isSome then os ++ ascii ":" else os
      insertLoop (os ++ hex g) (usedZeros || zeros) (some g) gs

/-- `IPv6Address::insert`, on a stream with its default flags. -/
def insert (m_addr : SockaddrIn6) : List UInt8 :=
  let addr := loadGroups m_addr.addr.toList
  let s := insertLoop (ascii "[") false none addr
  let os := if !s.2 && addr[7]? == some 0 then s.1 ++ ascii "::" else s.1
  os ++ ascii "]:" ++ digits (bswap m_addr.port).toNat

section Groups

theorem length_loadGroups (bytes : List UInt8) : (loadGroups bytes).length = bytes.length / 2 := by
  fun_induction loadGroups bytes with
  | case1 b b' bytes ih =>
      rw [List.length_cons, ih, List.length_cons, List.length_cons]
      omega
  | case2 bytes h =>
      rcases bytes with _ | ⟨b, _ | ⟨b', bytes⟩⟩
      · rfl
      · simp
      · exact absurd rfl (h b b' bytes)

theorem toNat_bswap_loadLe (b b' : UInt8) :
    (bswap (loadLe 16 [b, b'])).toNat = 256 * b.toNat + b'.toNat := by
  rw [bswap_loadLe (by decide) rfl, List.reverse_cons, List.reverse_singleton, List.singleton_append,
    loadLe_toNat (by decide) rfl, ofLeBytes, ofLeBytes, ofLeBytes]
  omega

/-- The bytes of the numbers that the groups stand for. -/
theorem bytes_loadGroups {bytes : List UInt8} (h : bytes.length % 2 = 0) :
    ((loadGroups bytes).map fun g => (bswap g).toNat).flatMap
      (fun g => [UInt8.ofNat (g / 256), UInt8.ofNat g]) = bytes := by
  fun_induction loadGroups bytes with
  | case1 b b' bytes ih =>
      have hb := b.toNat_lt
      have hb' := b'.toNat_lt
      have hhigh : UInt8.ofNat ((256 * b.toNat + b'.toNat) / 256) = b := by
        apply UInt8.toNat_inj.mp
        rw [UInt8.toNat_ofNat']
        omega
      have hlow : UInt8.ofNat (256 * b.toNat + b'.toNat) = b' := by
        apply UInt8.toNat_inj.mp
        rw [UInt8.toNat_ofNat']
        omega
      rw [List.length_cons, List.length_cons] at h
      rw [List.map_cons, List.flatMap_cons, ih (by omega), toNat_bswap_loadLe, hhigh, hlow]
      rfl
  | case2 bytes hshape =>
      rcases bytes with _ | ⟨b, _ | ⟨b', bytes⟩⟩
      · rfl
      · cases h
      · exact absurd rfl (hshape b b' bytes)

end Groups

section Loop

/-- Behind the first group, each group has a colon before it. -/
theorem join_cons (p : List UInt8) (ps : List (List UInt8)) :
    Inet6.join (p :: ps) = p ++ ps.flatMap fun q => 58 :: q := by
  induction ps generalizing p with
  | nil => rw [Inet6.join_singleton, List.flatMap_nil, List.append_nil]
  | cons q ps ih => rw [Inet6.join_cons_cons, ih, List.flatMap_cons, List.cons_append]

/-- With `used_zeros` set every group is written. -/
theorem insertLoop_used (os : List UInt8) (prev : BitVec 16) (gs : List (BitVec 16)) :
    insertLoop os true (some prev) gs = (os ++ (gs.map hex).flatMap fun q => 58 :: q, true) := by
  induction gs generalizing os prev with
  | nil => simp [insertLoop]
  | cons g gs ih =>
      rw [insertLoop, if_neg (by simp)]
      simp only [Bool.not_true, Bool.and_false, Bool.false_eq_true, if_false, Option.isSome_some,
        if_true, Bool.true_or]
      rw [ih, List.map_cons, List.flatMap_cons, List.append_assoc, List.append_assoc]
      rfl

/-- Groups that are not zero are written until one is. -/
theorem insertLoop_some {pre : List (BitVec 16)} (h : ∀ g ∈ pre, g ≠ 0) (os : List UInt8)
    {prev : BitVec 16} (hprev : prev ≠ 0) (rest : List (BitVec 16)) : ∃ prev', prev' ≠ 0 ∧
      insertLoop os false (some prev) (pre ++ rest) =
        insertLoop (os ++ (pre.map hex).flatMap fun q => 58 :: q) false (some prev') rest := by
  induction pre generalizing os prev with
  | nil => exact ⟨prev, hprev, by simp⟩
  | cons g pre ih =>
      obtain ⟨hg, hpre⟩ := List.forall_mem_cons.mp h
      obtain ⟨prev', hprev', hloop⟩ := ih hpre (os ++ ascii ":" ++ hex g) hg
      refine ⟨prev', hprev', ?_⟩
      have hzeros : (some prev == some 0) = false := by simpa using hprev
      rw [List.cons_append, insertLoop, if_neg fun h => hg h.1, hzeros]
      simp only [Bool.false_and, Bool.false_eq_true, if_false, Option.isSome_some, if_true,
        Bool.or_false]
      rw [hloop, List.map_cons, List.flatMap_cons, List.append_assoc, List.append_assoc]
      rfl

/-- The same from the first group on. -/
theorem insertLoop_none {pre : List (BitVec 16)} (h : ∀ g ∈ pre, g ≠ 0) (os : List UInt8)
    (rest : List (BitVec 16)) : ∃ prev, prev ≠ some 0 ∧
      insertLoop os false none (pre ++ rest) =
        insertLoop (os ++ Inet6.join (pre.map hex)) false prev rest := by
  cases pre with
  | nil =>
      refine ⟨none, by simp, ?_⟩
      rw [List.map_nil, Inet6.join, List.intercalate_nil, List.append_nil, List.nil_append]
  | cons g pre =>
      obtain ⟨hg, hpre⟩ := List.forall_mem_cons.mp h
      obtain ⟨prev', hprev', hloop⟩ := insertLoop_some hpre (os ++ hex g) hg rest
      refine ⟨some prev', by simpa using hprev', ?_⟩
      rw [List.cons_append, insertLoop, if_neg fun h => hg h.1]
      simp only [Bool.not_false, Bool.and_true]
      rw [if_neg (by simp), if_neg (by simp)]
      change insertLoop (os ++ hex g) false (some g) (pre ++ rest) = _
      rw [hloop, List.map_cons, join_cons, List.append_assoc]

/-- Groups that are zero are passed over. -/
theorem insertLoop_zeros (os : List UInt8) (prev : Option (BitVec 16)) (k : Nat)
    (rest : List (BitVec 16)) :
    insertLoop os false prev (List.replicate (k + 1) 0 ++ rest) =
      insertLoop os false (some 0) rest := by
  induction k generalizing prev with
  | zero => simp [insertLoop]
  | succ k ih =>
      rw [List.replicate_succ, List.cons_append, insertLoop, if_pos ⟨rfl, rfl⟩]
      exact ih (some 0)

/-- Behind them the `::` is written, once. -/
theorem insertLoop_double (os : List UInt8) {g : BitVec 16} (hg : g ≠ 0) (gs : List (BitVec 16)) :
    insertLoop os false (some 0) (g :: gs) =
      (os ++ 58 :: 58 :: Inet6.join ((g :: gs).map hex), true) := by
  rw [insertLoop, if_neg fun h => hg h.1]
  simp only [beq_self_eq_true, Bool.not_false, Bool.and_true, if_true, Option.isSome_some,
    Bool.or_true]
  rw [insertLoop_used, List.map_cons, join_cons]
  simp [ascii]

theorem exists_zeros (gs : List (BitVec 16)) :
    ∃ k post, gs = List.replicate k 0 ++ post ∧ ∀ g ∈ post.head?, g ≠ 0 := by
  induction gs with
  | nil => exact ⟨0, [], rfl, by simp⟩
  | cons g gs ih =>
      by_cases hg : g = 0
      · obtain ⟨k, post, rfl, hpost⟩ := ih
        exact ⟨k + 1, post, by rw [hg]; rfl, hpost⟩
      · exact ⟨0, g :: gs, rfl, by simpa using hg⟩

/-- A list has no zero, or it splits at its first run of zeros. -/
theorem split_zeros (gs : List (BitVec 16)) : (∀ g ∈ gs, g ≠ 0) ∨ ∃ pre k post,
    gs = pre ++ (List.replicate (k + 1) 0 ++ post) ∧ (∀ g ∈ pre, g ≠ 0) ∧
      ∀ g ∈ post.head?, g ≠ 0 := by
  induction gs with
  | nil => exact Or.inl (by simp)
  | cons g gs ih =>
      by_cases hg : g = 0
      · obtain ⟨k, post, rfl, hpost⟩ := exists_zeros gs
        exact Or.inr ⟨[], k, post, by rw [hg]; rfl, by simp, hpost⟩
      · rcases ih with hall | ⟨pre, k, post, rfl, hpre, hpost⟩
        · exact Or.inl (List.forall_mem_cons.mpr ⟨hg, hall⟩)
        · exact Or.inr ⟨g :: pre, k, post, rfl, List.forall_mem_cons.mpr ⟨hg, hpre⟩, hpost⟩

end Loop

section Read

/-- The text between the brackets. -/
def text (addr : List (BitVec 16)) : List UInt8 :=
  let s := insertLoop [] false none addr
  if !s.2 && addr[7]? == some 0 then s.1 ++ ascii "::" else s.1

theorem map_group_hex (gs : List (BitVec 16)) :
    (gs.map hex).map Inet6.group = (gs.map fun g => (bswap g).toNat).map some := by
  have hmap : gs.map hex = (gs.map fun g => (bswap g).toNat).map Inet6.hexDigits := by
    rw [List.map_map]
    rfl
  rw [hmap]
  refine Inet6.map_group_hexDigits fun n hn => ?_
  obtain ⟨g, -, rfl⟩ := List.mem_map.mp hn
  exact (bswap g).isLt

theorem isPiece_hex (gs : List (BitVec 16)) : ∀ p ∈ gs.map hex, Inet6.IsPiece p :=
  Inet6.isPiece_of_map (map_group_hex gs)

/-- Without a zero, the text is the groups with colons between them. -/
theorem text_of_ne {gs : List (BitVec 16)} (h : ∀ g ∈ gs, g ≠ 0) : text gs = Inet6.join (gs.map hex) := by
  obtain ⟨prev, -, hloop⟩ := insertLoop_none h [] []
  rw [List.append_nil] at hloop
  have hlast : (gs[7]? == some 0) = false :=
    beq_eq_false_iff_ne.mpr fun h7 => h 0 (List.mem_of_getElem? h7) rfl
  rw [text, hloop, insertLoop, hlast, Bool.and_false, if_neg Bool.false_ne_true]
  rfl

/-- The first run of zeros is what `::` stands for. -/
theorem text_of_zeros {pre post : List (BitVec 16)} {k : Nat} (hpre : ∀ g ∈ pre, g ≠ 0)
    (hpost : ∀ g ∈ post.head?, g ≠ 0)
    (hlen : (pre ++ (List.replicate (k + 1) 0 ++ post)).length = 8) :
    text (pre ++ (List.replicate (k + 1) 0 ++ post)) =
      Inet6.join (pre.map hex) ++ 58 :: 58 :: Inet6.join (post.map hex) := by
  obtain ⟨prev, -, hloop⟩ := insertLoop_none hpre [] (List.replicate (k + 1) 0 ++ post)
  rw [insertLoop_zeros, List.nil_append] at hloop
  cases post with
  | nil =>
      have hlast : (pre ++ (List.replicate (k + 1) (0 : BitVec 16) ++ []))[7]? = some 0 := by
        rw [List.length_append, List.length_append, List.length_replicate, List.length_nil] at hlen
        rw [List.append_nil, List.getElem?_append_right (by omega), List.getElem?_replicate,
          if_pos (by omega)]
      rw [text, hloop, insertLoop]
      simp only [Bool.not_false, Bool.true_and, hlast, beq_self_eq_true, if_true]
      rfl
  | cons g post =>
      rw [text, hloop, insertLoop_double _ (hpost g rfl)]
      rfl

theorem parseGroups_text {gs : List (BitVec 16)} (hlen : gs.length = 8) :
    Inet6.parseGroups (text gs) = some (gs.map fun g => (bswap g).toNat) ∧
      Inet6.AtMostOneDouble (text gs) := by
  rcases split_zeros gs with hall | ⟨pre, k, post, rfl, hpre, hpost⟩
  · rw [text_of_ne hall]
    exact ⟨Inet6.parseGroups_join (map_group_hex gs) (by rw [List.length_map, hlen]),
      Inet6.atMostOneDouble_join (isPiece_hex gs)⟩
  · rw [text_of_zeros hpre hpost hlen]
    rw [List.length_append, List.length_append, List.length_replicate] at hlen
    refine ⟨?_, Inet6.atMostOneDouble_append (isPiece_hex pre) (isPiece_hex post)⟩
    have hzero : (bswap (0 : BitVec 16)).toNat = 0 := by decide
    rw [Inet6.parseGroups_double (map_group_hex pre) (map_group_hex post)
      (by rw [List.length_map, List.length_map]; omega)]
    rw [List.length_map, List.length_map, show 8 - pre.length - post.length = k + 1 by omega,
      List.map_append, List.map_append, List.map_replicate, hzero, List.append_assoc]

/-- The stream's text stays in front of what the loop writes. -/
theorem insertLoop_append (w os : List UInt8) (usedZeros : Bool) (prev : Option (BitVec 16))
    (gs : List (BitVec 16)) : insertLoop (w ++ os) usedZeros prev gs =
      (w ++ (insertLoop os usedZeros prev gs).1, (insertLoop os usedZeros prev gs).2) := by
  induction gs generalizing os usedZeros prev with
  | nil => rfl
  | cons g gs ih =>
      rw [insertLoop, insertLoop]
      split
      · exact ih os usedZeros (some g)
      · rw [← ih]
        cases (prev == some 0 && !usedZeros) <;> cases prev <;> simp

theorem insert_eq (a : SockaddrIn6) : insert a =
    91 :: (text (loadGroups a.addr.toList) ++ 93 :: 58 :: digits (bswap a.port).toNat) := by
  have hloop := insertLoop_append (ascii "[") [] false none (loadGroups a.addr.toList)
  rw [List.append_nil] at hloop
  rw [insert, hloop, text]
  split
  · simp [ascii]
  · simp [ascii]

/-- The text between the brackets is read back as the sixteen bytes. -/
theorem parse_text (a : SockaddrIn6) :
    Inet6.parse (text (loadGroups a.addr.toList)) = some a.addr.toList := by
  have hlen : a.addr.toList.length = 16 := Vector.length_toList
  have hgroups : (loadGroups a.addr.toList).length = 8 := by rw [length_loadGroups, hlen]
  rw [Inet6.parse, (parseGroups_text hgroups).1, Option.map_some,
    bytes_loadGroups (by rw [hlen])]

theorem bracket_not_mem_join (gs : List (BitVec 16)) : (93 : UInt8) ∉ Inet6.join (gs.map hex) := by
  intro hmem
  rcases Inet6.mem_join (map_group_hex gs) hmem with h | h
  · exact absurd h (by decide)
  · exact absurd h (by decide)

theorem bracket_not_mem_text {gs : List (BitVec 16)} (hlen : gs.length = 8) :
    (93 : UInt8) ∉ text gs := by
  rcases split_zeros gs with hall | ⟨pre, k, post, rfl, hpre, hpost⟩
  · rw [text_of_ne hall]
    exact bracket_not_mem_join gs
  · rw [text_of_zeros hpre hpost hlen]
    simp [bracket_not_mem_join]

end Read

/-- The text is `[`, a form of the address that is read back as it, `]:` and the port in decimal, so
no other address and port have it. -/
theorem insert_faithful (a : SockaddrIn6) :
    ∃ t, insert a = ascii "[" ++ t ++ ascii "]:" ++ digits (bswap a.port).toNat ∧
      Inet6.parse t = some a.addr.toList ∧ Inet6.AtMostOneDouble t ∧
      ∀ a', insert a' = insert a → a'.addr = a.addr ∧ a'.port = a.port := by
  have hgroups (a : SockaddrIn6) : (loadGroups a.addr.toList).length = 8 := by
    rw [length_loadGroups, Vector.length_toList]
  refine ⟨text (loadGroups a.addr.toList), by rw [insert_eq]; simp [ascii], parse_text a,
    (parseGroups_text (hgroups a)).2, fun a' heq => ?_⟩
  rw [insert_eq, insert_eq, List.cons.injEq] at heq
  have htext := congrArg (List.takeWhile (· != 93)) heq.2
  rw [takeWhile_bne_run (bracket_not_mem_text (hgroups a')),
    takeWhile_bne_run (bracket_not_mem_text (hgroups a))] at htext
  have hbytes : a'.addr.toList = a.addr.toList := by
    have hparse := parse_text a'
    rw [htext, parse_text a] at hparse
    exact (Option.some.inj hparse).symm
  refine ⟨Vector.toList_inj.mp hbytes, ?_⟩
  rw [htext, List.append_cancel_left_eq, List.cons.injEq, List.cons.injEq] at heq
  have hport := congrArg Http.decimal heq.2.2.2
  rw [Http.decimal_digits, Http.decimal_digits, Option.some.injEq] at hport
  have hswap := BitVec.eq_of_toNat_eq hport
  rw [← bswap_bswap (by decide) a'.port, hswap, bswap_bswap (by decide)]

end IPv6Address

end Saturn
