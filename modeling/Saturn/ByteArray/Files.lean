import Mathlib.Data.List.Forall2
import Saturn.ByteArray.Views

/-!
# Saving to a file and loading from it

`writeToFile` walks over the nodes from `m_cur` on and passes a piece of each to the stream. The
length of a piece is reckoned from what is left altogether and not from what is left of the node, so
that it is right behind a border of nodes only, or where a whole node's worth of bytes is left.
-/

namespace Saturn

/-- What `ofs.write(node->ptr + diff, len)` writes. -/
def Node.slice (node : Node) (diff len : Int) : Except Fault (List Cell) :=
  if 0 ≤ diff ∧ 0 ≤ len ∧ diff + len ≤ node.ptr.length then
    .ok ((node.ptr.drop diff.toNat).take len.toNat)
  else .error .outOfBounds

namespace ByteArray

/-- The loop of `writeToFile` over the nodes from `cur` on; `diff` is an `int`. -/
def saveLoop (b : Nat) : List Node → Nat → Int → Except Fault (List Cell)
  | [], _, readSize => if 0 < readSize then .error .nullDeref else .ok []
  | node :: rest, pos, readSize =>
      if 0 < readSize then do
        let diff := (BitVec.ofNat 32 (pos % b)).toInt
        let len := (if readSize > b then (b : Int) else readSize) - diff
        let bytes ← node.slice diff len
        let bytes' ← saveLoop b rest (pos + len).toNat (readSize - len)
        pure (bytes ++ bytes')
      else .ok []

/-- The nodes from `m_cur` on. -/
def cursorNodes (ba : ByteArray) : List Node :=
  match ba.cur with
  | none => []
  | some i => ba.nodes.drop i

/-- `writeToFile(name)` to a file that opens: what it writes. -/
def writeToFile (ba : ByteArray) : Except Fault (List Cell) :=
  saveLoop ba.baseSize ba.cursorNodes ba.position ba.getReadSize

section Saving

variable {b : Nat}

/-- An offset in a node of at most 2 GiB fits an `int`. -/
theorem diff_eq {d : Nat} (h : d < 2 ^ 31) : (BitVec.ofNat 32 d).toInt = d := by
  rw [BitVec.toInt_eq_toNat_cond, BitVec.toNat_ofNat, Nat.mod_eq_of_lt (by omega), if_pos (by omega)]

theorem slice_ok {node : Node} {d n : Nat} (h : d + n ≤ node.ptr.length) :
    node.slice d n = .ok ((node.ptr.drop d).take n) := by
  rw [Node.slice, if_pos ⟨by omega, by omega, by omega⟩, Int.toNat_natCast, Int.toNat_natCast]

/-- From a border on, the pieces are whole nodes and the rest. -/
theorem saveLoop_border (hb : 0 < b) : ∀ (ns : List Node) (pos n : Nat), Uniform b ns →
    pos % b = 0 → n ≤ ns.length * b → saveLoop b ns pos n = .ok ((ns.flatMap Node.ptr).take n) := by
  intro ns
  induction ns with
  | nil =>
      intro pos n _ _ hn
      rw [List.length_nil, Nat.zero_mul] at hn
      rw [saveLoop, if_neg (by omega)]
      simp
  | cons node rest ih =>
      intro pos n hu hpos hn
      obtain ⟨⟨-, hptr⟩, hrest⟩ := uniform_cons.mp hu
      rw [saveLoop]
      by_cases hzero : n = 0
      · rw [if_neg (by omega), hzero, List.take_zero]
      rw [if_pos (by omega), hpos, diff_eq (by decide), List.flatMap_cons]
      by_cases hin : n ≤ b
      · have hlen : (if (n : Int) > b then (b : Int) else n) - (0 : Nat) = (n : Nat) := by
          rw [if_neg (by omega)]
          omega
        have hlast : saveLoop b rest ((pos : Int) + (n : Nat)).toNat ((n : Int) - (n : Nat)) = .ok [] := by
          rw [Int.sub_self]
          cases rest <;> rfl
        simp only [hlen, slice_ok (show 0 + n ≤ node.ptr.length by omega), hlast]
        rw [List.take_append_of_le_length (by omega)]
        simp [bind, Except.bind, pure, Except.pure]
      · have hlen : (if (n : Int) > b then (b : Int) else n) - (0 : Nat) = (b : Nat) := by
          rw [if_pos (by omega)]
          omega
        have hleft : (n : Int) - (b : Nat) = (n - b : Nat) := by omega
        have hnext : ((pos : Int) + (b : Nat)).toNat = pos + b := by omega
        rw [List.length_cons, Nat.succ_mul] at hn
        have hloop := ih (pos + b) (n - b) hrest (by rw [Nat.add_mod_right]; exact hpos) (by omega)
        simp only [hlen, slice_ok (show 0 + b ≤ node.ptr.length by omega), hleft, hnext, hloop]
        rw [List.take_append, hptr, List.take_of_length_le (by omega : node.ptr.length ≤ n),
          List.drop_zero, List.take_of_length_le (by omega)]
        rfl

/-- Inside a node, the first piece is right where a whole node's worth of bytes is left. -/
theorem saveLoop_inside (hb : 0 < b) {ns : List Node} {pos n : Nat} (hu : Uniform b ns)
    (hdiff : pos % b < 2 ^ 31) (hn : b ≤ n) (hfit : pos % b + n ≤ ns.length * b) :
    saveLoop b ns pos n = .ok (((ns.flatMap Node.ptr).drop (pos % b)).take n) := by
  have hlt := Nat.mod_lt pos hb
  cases ns with
  | nil =>
      rw [List.length_nil, Nat.zero_mul] at hfit
      omega
  | cons node rest =>
      obtain ⟨⟨-, hptr⟩, hrest⟩ := uniform_cons.mp hu
      rw [List.length_cons, Nat.succ_mul] at hfit
      have hlen : (if (n : Int) > b then (b : Int) else n) - (pos % b : Nat) = (b - pos % b : Nat) := by
        split <;> omega
      have hleft : (n : Int) - (b - pos % b : Nat) = (n - (b - pos % b) : Nat) := by omega
      have hnext : ((pos : Int) + (b - pos % b : Nat)).toNat = pos + (b - pos % b) := by omega
      have hborder : (pos + (b - pos % b)) % b = 0 := by
        have hdm := Nat.div_add_mod' pos b
        have hsum : pos + (b - pos % b) = (pos / b + 1) * b := by
          rw [Nat.succ_mul]
          omega
        rw [hsum, Nat.mul_mod_left]
      have hloop := saveLoop_border hb rest (pos + (b - pos % b)) (n - (b - pos % b)) hrest hborder
        (by omega)
      have hhead : (node.ptr.drop (pos % b)).length = b - pos % b := by rw [List.length_drop, hptr]
      have hwhole : ∀ k, b - pos % b ≤ k → (node.ptr.drop (pos % b)).take k = node.ptr.drop (pos % b) :=
        fun k hk => List.take_of_length_le (by omega)
      rw [saveLoop, if_pos (by omega), diff_eq hdiff]
      simp only [hlen, slice_ok (show pos % b + (b - pos % b) ≤ node.ptr.length by omega), hleft,
        hnext, hloop]
      rw [List.flatMap_cons, List.drop_append_of_le_length (by omega), List.take_append, hhead,
        hwhole _ (Nat.le_refl _), hwhole n (by omega)]
      rfl

/-- Inside a node with less than a node's worth of bytes left, the pieces never come out even: the
first is short by the offset, and what is left is short of the next offset. -/
theorem saveLoop_not_ok (hb : b ≤ 2 ^ 31) : ∀ (ns : List Node) (pos n : Nat), 0 < pos % b →
    0 < n → n < b → ∀ bytes, saveLoop b ns pos n ≠ .ok bytes := by
  intro ns
  induction ns with
  | nil =>
      intro pos n _ hn _ bytes heq
      rw [saveLoop, if_pos (by omega)] at heq
      cases heq
  | cons node rest ih =>
      intro pos n hdiff hn hlt bytes heq
      have hmod := Nat.mod_lt pos (show 0 < b by omega)
      have hlen : (if (n : Int) > b then (b : Int) else n) - (pos % b : Nat) = n - (pos % b : Nat) := by
        rw [if_neg (by omega)]
      rw [saveLoop, if_pos (by omega), diff_eq (by omega)] at heq
      simp only [hlen] at heq
      obtain ⟨piece, hpiece, heq⟩ := except_bind_eq_ok.mp heq
      obtain ⟨others, hothers, -⟩ := except_bind_eq_ok.mp heq
      rw [Node.slice] at hpiece
      split at hpiece
      · rename_i hrange
        have hleft : (n : Int) - (n - (pos % b : Nat)) = (pos % b : Nat) := by omega
        have hnext : ((pos : Int) + (n - (pos % b : Nat))).toNat = pos + (n - pos % b) := by omega
        rw [hleft, hnext] at hothers
        have hoffset : (pos + (n - pos % b)) % b = n := by
          have hdm := Nat.div_add_mod' pos b
          have hsum : pos + (n - pos % b) = n + pos / b * b := by omega
          rw [hsum, Nat.add_mul_mod_self_right, Nat.mod_eq_of_lt hlt]
        exact ih _ _ (by rw [hoffset]; exact hn) hdiff hmod others hothers
      · cases hpiece

end Saving

variable {ba target : ByteArray}

/-- The nodes from `m_cur` on hold the bytes from the position on. -/
theorem Inv.cursorNodes_eq (h : Inv ba) (hlt : ba.position < ba.capacity) :
    ba.cursorNodes = ba.nodes.drop (ba.position / ba.baseSize) := by
  rw [cursorNodes, h.cur_of_lt hlt]

/-- `writeToFile` writes the bytes that `toString` returns. -/
def Saves (ba : ByteArray) : Prop := ∃ str, ba.toString = .ok str ∧ ba.writeToFile = .ok str

/-- There is nothing to save, or the offset in the node fits an `int` and is 0, or there is a whole
node's worth of bytes. -/
def SavesEvenly (ba : ByteArray) : Prop :=
  ba.getReadSize = 0 ∨ (ba.position % ba.baseSize < 2 ^ 31 ∧
    (ba.position % ba.baseSize = 0 ∨ ba.baseSize ≤ ba.getReadSize))

instance (ba : ByteArray) : Decidable (SavesEvenly ba) := inferInstanceAs (Decidable (_ ∨ _))

theorem Reached.saves (h : Reached ba) (hev : SavesEvenly ba) : Saves ba := by
  refine ⟨_, h.toString_eq, ?_⟩
  by_cases hzero : ba.getReadSize = 0
  · have hpos : ba.size ≤ ba.position := by
      rw [getReadSize] at hzero
      omega
    rw [writeToFile, hzero, List.drop_of_length_le (by rw [h.contents_length]; exact hpos)]
    cases ba.cursorNodes <;> rfl
  obtain ⟨hdiff, heven⟩ := hev.resolve_left hzero
  have hinv := h.inv_of_lt (by rw [getReadSize] at hzero; omega)
  have hpos := hinv.position_le
  have hsize := hinv.size_le
  have hread : ba.position + ba.getReadSize = ba.size := by
    rw [getReadSize]
    omega
  have hlt : ba.position < ba.capacity := by omega
  have hfit := hinv.rest_fits (n := ba.getReadSize) (by omega)
  have hbytes : (((ba.nodes.drop (ba.position / ba.baseSize)).flatMap Node.ptr).drop
      (ba.position % ba.baseSize)).take ba.getReadSize = ba.contents.drop ba.position := by
    rw [h.cells_from (Nat.le_of_lt (hinv.position_div_lt.mpr hlt)), Nat.div_add_mod',
      ← contents_slice (by omega), List.take_of_length_le]
    rw [List.length_drop, h.contents_length, getReadSize]
  rw [writeToFile, hinv.cursorNodes_eq hlt, ← hbytes]
  have huniform := uniform_drop hinv.uniform (ba.position / ba.baseSize)
  rcases heven with hborder | hwhole
  · rw [hborder] at hfit ⊢
    rw [saveLoop_border hinv.base_pos _ _ _ huniform hborder (by omega), List.drop_zero]
  · exact saveLoop_inside hinv.base_pos huniform hdiff hwhole hfit

theorem Reached.savesEvenly (h : Reached ba) (hb : ba.baseSize ≤ 2 ^ 31) (hsaves : Saves ba) :
    SavesEvenly ba := by
  have hbase : 0 < ba.baseSize := h.repaired.base_pos
  have hmod := Nat.mod_lt ba.position hbase
  obtain ⟨str, -, hwrite⟩ := hsaves
  rw [SavesEvenly]
  by_contra hno
  push Not at hno
  obtain ⟨hzero, hno⟩ := hno
  obtain ⟨hdiff, hshort⟩ := hno (by omega)
  exact saveLoop_not_ok hb _ _ _ (Nat.pos_of_ne_zero hdiff) (Nat.pos_of_ne_zero hzero) hshort str
    hwrite

theorem fileBlocks_flatten (b : Nat) : ∀ (n : Nat) (file : List UInt8),
    (fileBlocks b n file).flatten = file := by
  intro n
  induction n with
  | zero => intro file; simp [fileBlocks]
  | succ n ih =>
      intro file
      rw [fileBlocks]
      split
      · simp
      · rw [List.flatten_cons, ih, List.take_append_drop]

theorem nodesNeeded_le (hb : 0 < ba.baseSize) (n : Nat) : ba.nodesNeeded n ≤ n := by
  rw [nodesNeeded]
  split
  · exact Nat.zero_le n
  · obtain ⟨x, hx⟩ : ∃ x, n - ba.getCapacity = x + 1 := ⟨n - ba.getCapacity - 1, by omega⟩
    have hmul : x ≤ ba.baseSize * x := Nat.le_mul_of_pos_left x hb
    have hceil : (x + 1 + ba.baseSize - 1) / ba.baseSize ≤ x + 1 := by
      apply Nat.div_le_of_le_mul
      rw [Nat.mul_succ]
      omega
    rw [hx]
    omega

/-- The loop of `readFromFile` puts the blocks one behind the other, with memory for them. -/
theorem writeBlocks_spec : ∀ (blocks : List (List UInt8)) (ba : ByteArray) (avail : Nat), Inv ba →
    blocks.flatten.length ≤ avail →
    ∃ ba', ba.writeBlocks blocks avail = .returns ba' ∧
      ba'.position = ba.position + blocks.flatten.length ∧
      ba'.contents = overlay ba.contents ba.position (blocks.flatten.map some) := by
  intro blocks
  induction blocks with
  | nil => intro ba avail _ _; exact ⟨ba, rfl, rfl, by simp⟩
  | cons block blocks ih =>
      intro ba avail h havail
      rw [List.flatten_cons, List.length_append] at havail
      have hneed := nodesNeeded_le h.base_pos block.length
      obtain ⟨ba₁, hwrite, hinv, -, hposition, hcontents⟩ := write_spec h block
      obtain ⟨ba', hrest, hposition', hcontents'⟩ :=
        ih ba₁ (avail - ba.nodesNeeded block.length) hinv (by omega)
      refine ⟨ba', ?_, ?_, ?_⟩
      · rw [writeBlocks, tryWrite_eq_write block (by omega), hwrite]
        exact hrest
      · rw [hposition', hposition, List.flatten_cons, List.length_append, Nat.add_assoc]
      · have hle : ba.position ≤ ba.contents.length := by
          rw [h.contents_length]
          exact h.position_le
        have hmap : block.length = (block.map some).length := (List.length_map _).symm
        rw [hcontents', hcontents, hposition, hmap, overlay_overlay hle, List.flatten_cons,
          List.map_append]

/-- `readFromFile` puts the bytes of the file at the position, with memory for them. -/
def Loads (target : ByteArray) (file : List UInt8) : Prop :=
  ∀ avail, file.length ≤ avail → ∃ target',
    target.tryReadFromFile (some file) avail = .returns target' ∧
    target'.position = target.position + file.length ∧
    target'.contents = overlay target.contents target.position (file.map some)

theorem Inv.loads (h : Inv target) (file : List UInt8) : Loads target file := by
  intro avail havail
  have hflat := fileBlocks_flatten target.baseSize file.length file
  obtain ⟨target', hblocks, hposition, hcontents⟩ := writeBlocks_spec
    (fileBlocks target.baseSize file.length file) target avail h (by rw [hflat]; exact havail)
  rw [hflat] at hposition hcontents
  exact ⟨target', hblocks, hposition, hcontents⟩

theorem loads_nil : Loads target [] := by
  intro avail _
  exact ⟨target, rfl, rfl, by simp⟩

/-- The null `m_cur` that a failed allocation leaves is dereferenced by the first `write`. -/
theorem not_loads (hcur : target.cur = none) (hlt : target.position < target.capacity)
    (hbase : 0 < target.baseSize) {file : List UInt8} (hfile : file ≠ []) :
    ¬ Loads target file := by
  intro hloads
  obtain ⟨target', hblocks, -⟩ := hloads file.length (Nat.le_refl _)
  have hlen := List.length_pos_of_ne_nil hfile
  obtain ⟨block, blocks, hcons, hblock, hle⟩ : ∃ block blocks,
      fileBlocks target.baseSize file.length file = block :: blocks ∧ 0 < block.length ∧
        block.length ≤ file.length := by
    obtain ⟨n, hn⟩ : ∃ n, file.length = n + 1 := ⟨file.length - 1, by omega⟩
    rw [hn, fileBlocks]
    split
    · exact ⟨file, [], rfl, hlen, by omega⟩
    · refine ⟨_, _, rfl, ?_, ?_⟩ <;> rw [List.length_take] <;> omega
  have hneed := nodesNeeded_le hbase block.length
  rw [tryReadFromFile, hcons, writeBlocks, tryWrite, if_neg (by omega), tryAddCapacity,
    if_pos (by omega)] at hblocks
  dsimp only at hblocks
  rw [writeBytes, addCapacity_cur_none hcur hlt] at hblocks
  cases hblocks

/-- A file that holds what was saved: a byte that was never written to comes out as anything. -/
abbrev FileHolds : List UInt8 → List Cell → Prop :=
  List.Forall₂ fun byte cell => cell = none ∨ cell = some byte

theorem fileHolds_getD (str : List Cell) : FileHolds (str.map fun c => c.getD 0) str := by
  induction str with
  | nil => exact List.Forall₂.nil
  | cons c str ih =>
      refine List.Forall₂.cons ?_ ih
      cases c with
      | none => exact Or.inl rfl
      | some byte => exact Or.inr rfl

/-- Saving writes what `toString` returns, and loading puts it at the position of the target. -/
def SavesAndLoads (ba target : ByteArray) : Prop :=
  ∃ str, ba.toString = .ok str ∧ ba.writeToFile = .ok str ∧
    ∀ file, FileHolds file str → Loads target file

/-- The target has a node to write to, or needs none. -/
def TakesBytes (ba target : ByteArray) : Prop :=
  ba.getReadSize = 0 ∨ target.cur ≠ none ∨ target.position = target.capacity

theorem Reached.loads_iff (h : Reached ba) (ht : Reached target) :
    (∀ file, FileHolds file (ba.contents.drop ba.position) → Loads target file) ↔
      TakesBytes ba target := by
  have hlength : (ba.contents.drop ba.position).length = ba.getReadSize := by
    rw [List.length_drop, h.contents_length, getReadSize]
  rcases ht.inv_or with hinv | ⟨hcur, -, hlt⟩
  · refine iff_of_true (fun file _ => hinv.loads file) ?_
    by_cases hend : target.position = target.capacity
    · exact Or.inr (Or.inr hend)
    · have hpos := hinv.position_le
      have hsize := hinv.size_le
      refine Or.inr (Or.inl ?_)
      rw [hinv.cur_of_lt (by omega)]
      exact Option.some_ne_none _
  · by_cases hzero : ba.getReadSize = 0
    · refine iff_of_true (fun file hfile => ?_) (Or.inl hzero)
      obtain rfl : file = [] := by
        rw [← List.length_eq_zero_iff, hfile.length_eq, hlength, hzero]
      exact loads_nil
    · refine iff_of_false (fun hloads => ?_) ?_
      · apply not_loads hcur hlt ht.repaired.base_pos _ (hloads _ (fileHolds_getD _))
        rw [Ne, List.map_eq_nil_iff, ← List.length_eq_zero_iff, hlength]
        exact hzero
      · rintro (hempty | hnode | hend)
        · exact hzero hempty
        · exact hnode hcur
        · omega

/-- In all states that calls reach, what is saved evenly is saved and loaded into any target that
takes bytes, and with nodes of at most 2 GiB nothing else is. -/
theorem savesAndLoads_iff {b b' : Nat} (hb : 0 < b) (hb' : 0 < b') {calls calls' : List Call}
    (hrun : run callStep (new b) calls = some ba)
    (hrun' : run callStep (new b') calls' = some target) :
    (SavesEvenly ba ∧ TakesBytes ba target → SavesAndLoads ba target) ∧
      (ba.baseSize ≤ 2 ^ 31 → SavesAndLoads ba target → SavesEvenly ba ∧ TakesBytes ba target) := by
  have h := reached_of_run hb hrun
  have ht := reached_of_run hb' hrun'
  constructor
  · rintro ⟨hev, htakes⟩
    obtain ⟨str, hstr, hwrite⟩ := h.saves hev
    have heq : str = ba.contents.drop ba.position := by
      rw [h.toString_eq] at hstr
      exact (Except.ok.inj hstr).symm
    exact ⟨str, hstr, hwrite, heq ▸ (h.loads_iff ht).mpr htakes⟩
  · rintro hsmall ⟨str, hstr, hwrite, hloads⟩
    have heq : str = ba.contents.drop ba.position := by
      rw [h.toString_eq] at hstr
      exact (Except.ok.inj hstr).symm
    exact ⟨h.savesEvenly hsmall ⟨str, hstr, hwrite⟩, (h.loads_iff ht).mp (heq ▸ hloads)⟩

/-- Saved from inside a node with more than a node left, and loaded behind other bytes. -/
theorem savesAndLoads_inside :
    ∃ ba target, run callStep (new 4) [.write [1, 2, 3, 4, 5, 6, 7] 1, .setPosition 1] = some ba ∧
      run callStep (new 3) [.write [9] 0] = some target ∧ SavesAndLoads ba target := by
  refine ⟨_, _, rfl, rfl, ?_⟩
  apply (@savesAndLoads_iff _ _ 4 3 (by decide) (by decide)
    [.write [1, 2, 3, 4, 5, 6, 7] 1, .setPosition 1] [.write [9] 0] rfl rfl).1
  exact ⟨by decide, Or.inr (Or.inl (by decide))⟩

/-- Two bytes left at offset 1 of a node of four: the second piece has length -1. -/
theorem not_saves_inside :
    ∃ ba, run callStep (new 4) [.write [1, 2, 3] 0, .setPosition 1] = some ba ∧
      ba.toString = .ok [some 2, some 3] ∧ ∀ target, ¬ SavesAndLoads ba target := by
  refine ⟨_, rfl, rfl, ?_⟩
  rintro target ⟨str, -, hwrite, -⟩
  cases hwrite

end ByteArray

end Saturn
