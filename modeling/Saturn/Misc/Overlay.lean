import Mathlib.Data.List.Basic

/-!
# Overlaying a block of a list

`overlay dst off src` is `dst` with the elements of `src` put at `off`, as `memcpy` does to a block
of memory, and longer than `dst` when `src` reaches past its end.
-/

namespace Saturn

variable {α : Type*}

/-- `dst` with `src` put at offset `off`. -/
def overlay (dst : List α) (off : Nat) (src : List α) : List α :=
  dst.take off ++ src ++ dst.drop (off + src.length)

theorem overlay_length {dst : List α} {off : Nat} {src : List α} (h : off ≤ dst.length) :
    (overlay dst off src).length = max dst.length (off + src.length) := by
  simp only [overlay, List.length_append, List.length_take, List.length_drop]
  omega

theorem overlay_length_of_le {dst : List α} {off : Nat} {src : List α}
    (h : off + src.length ≤ dst.length) : (overlay dst off src).length = dst.length := by
  rw [overlay_length (by omega)]
  omega

/-- An index inside the block reads the block; every other index reads what was there. -/
theorem overlay_getElem? {dst : List α} {off : Nat} {src : List α} (h : off ≤ dst.length)
    (i : Nat) : (overlay dst off src)[i]? =
      if i < off then dst[i]? else if i < off + src.length then src[i - off]? else dst[i]? := by
  have hlen : (dst.take off).length = off := by
    rw [List.length_take]
    omega
  unfold overlay
  split
  · rename_i hi
    rw [List.append_assoc, List.getElem?_append_left (by omega), List.getElem?_take_of_lt hi]
  · rename_i hi
    rw [List.append_assoc, List.getElem?_append_right (by omega), hlen]
    split
    · rw [List.getElem?_append_left (by omega)]
    · rw [List.getElem?_append_right (by omega), List.getElem?_drop]
      congr 1
      omega

@[simp] theorem overlay_nil (dst : List α) (off : Nat) : overlay dst off [] = dst := by
  simp [overlay]

/-- A block that ends inside the first part leaves the second part alone. -/
theorem overlay_append_left {as bs : List α} {off : Nat} {src : List α}
    (h : off + src.length ≤ as.length) :
    overlay (as ++ bs) off src = overlay as off src ++ bs := by
  unfold overlay
  rw [List.take_append_of_le_length (by omega), List.drop_append_of_le_length h]
  simp only [List.append_assoc]

/-- A block that starts in the second part leaves the first part alone. -/
theorem overlay_append_right {as bs : List α} {off : Nat} {src : List α} :
    overlay (as ++ bs) (as.length + off) src = as ++ overlay bs off src := by
  have hdrop : as.drop (as.length + off + src.length) = [] := List.drop_of_length_le (by omega)
  have hrest : as.length + off + src.length - as.length = off + src.length := by omega
  unfold overlay
  rw [List.take_length_add_append, List.drop_append, hdrop, hrest]
  simp only [List.append_assoc, List.nil_append]

/-- A block that runs over the border is its two pieces put on the two parts. -/
theorem overlay_append_split {as bs : List α} {off : Nat} {src : List α} (h : off ≤ as.length)
    (hs : as.length ≤ off + src.length) :
    overlay (as ++ bs) off src =
      overlay as off (src.take (as.length - off)) ++ overlay bs 0 (src.drop (as.length - off)) := by
  have hdrop : as.drop (off + src.length) = [] := List.drop_of_length_le (by omega)
  have hdrop' : as.drop (off + (src.take (as.length - off)).length) = [] :=
    List.drop_of_length_le (by rw [List.length_take]; omega)
  have hsrc : src.length - (as.length - off) = off + src.length - as.length := by omega
  unfold overlay
  rw [List.take_append_of_le_length h, List.drop_append, hdrop, hdrop']
  simp only [List.append_nil, List.nil_append, List.take_zero, List.length_drop, hsrc, Nat.zero_add,
    List.append_assoc]
  rw [← List.append_assoc (src.take _), List.take_append_drop]

/-- Overlaying the first `m` elements is overlaying them all and keeping the first `m`, or as many
as the block reaches. -/
theorem take_overlay {l : List α} {m off : Nat} {src : List α} (hm : off ≤ m)
    (hoff : m ≤ l.length) :
    (overlay l off src).take (max m (off + src.length)) = overlay (l.take m) off src := by
  have hlen : (l.take m).length = m := by
    rw [List.length_take, Nat.min_eq_left hoff]
  apply List.ext_getElem?
  intro i
  rw [List.getElem?_take, overlay_getElem? (by omega), overlay_getElem? (by omega),
    List.getElem?_take]
  have hsrc : off + src.length ≤ i → src[i - off]? = none := fun h =>
    List.getElem?_eq_none (by omega)
  split_ifs <;> first | rfl | omega

/-- A block put behind another is the two of them put as one. -/
theorem overlay_overlay {l as bs : List α} {off : Nat} (hoff : off ≤ l.length) :
    overlay (overlay l off as) (off + as.length) bs = overlay l off (as ++ bs) := by
  have hlen : (overlay l off as).length = max l.length (off + as.length) := overlay_length hoff
  apply List.ext_getElem?
  intro i
  rw [overlay_getElem? (by omega), overlay_getElem? hoff, overlay_getElem? hoff,
    List.length_append]
  by_cases hbefore : i < off
  · simp only [if_pos hbefore, if_pos (show i < off + as.length by omega)]
  by_cases hfirst : i < off + as.length
  · simp only [if_neg hbefore, if_pos hfirst,
      if_pos (show i < off + (as.length + bs.length) by omega)]
    rw [List.getElem?_append_left (by omega)]
  by_cases hsecond : i < off + as.length + bs.length
  · simp only [if_neg hbefore, if_neg hfirst, if_pos hsecond,
      if_pos (show i < off + (as.length + bs.length) by omega)]
    rw [List.getElem?_append_right (by omega), Nat.sub_sub]
  · simp only [if_neg hbefore, if_neg hfirst, if_neg hsecond,
      if_neg (show ¬ i < off + (as.length + bs.length) by omega)]

end Saturn
