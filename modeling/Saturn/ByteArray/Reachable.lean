import Saturn.ByteArray.Representation

/-!
# The states that calls reach

A failed allocation can leave `m_cur` null with nodes behind the position. `Reached` is what every
state has all the same: it satisfies the invariant but for that `m_cur`, and then there is nothing
left to read.
-/

namespace Saturn

namespace ByteArray

/-- The object with `m_cur` set to the node of the position. -/
def repair (ba : ByteArray) : ByteArray :=
  { ba with cur := ba.nodePtr (ba.position / ba.baseSize) }

/-- What holds in every state that calls leave behind, whether they return or throw. -/
structure Reached (ba : ByteArray) : Prop where
  repaired : Inv ba.repair
  cur_eq : ba.cur = ba.nodePtr (ba.position / ba.baseSize) ∨ (ba.cur = none ∧ ba.position = ba.size)

variable {ba : ByteArray}

theorem repair_of_cur (h : ba.cur = ba.nodePtr (ba.position / ba.baseSize)) : ba.repair = ba := by
  rw [repair, ← h]

theorem Inv.reached (h : Inv ba) : Reached ba :=
  ⟨by rw [repair_of_cur h.cur_eq]; exact h, Or.inl h.cur_eq⟩

/-- The invariant holds, or `m_cur` is null at the end of the data although there are nodes behind
it. -/
theorem Reached.inv_or (h : Reached ba) :
    Inv ba ∨ (ba.cur = none ∧ ba.position = ba.size ∧ ba.position < ba.capacity) := by
  rcases h.cur_eq with hcur | ⟨hcur, hend⟩
  · left
    have hinv := h.repaired
    rwa [repair_of_cur hcur] at hinv
  · by_cases hlt : ba.position < ba.capacity
    · exact Or.inr ⟨hcur, hend, hlt⟩
    · left
      have hinv := h.repaired
      have hnull : ba.nodePtr (ba.position / ba.baseSize) = none :=
        hinv.cur_of_eq (Nat.le_antisymm (Nat.le_trans hinv.position_le hinv.size_le)
          (Nat.not_lt.mp hlt))
      rwa [repair_of_cur (by rw [hcur, hnull])] at hinv

/-- With something left to read, the invariant holds. -/
theorem Reached.inv_of_lt (h : Reached ba) (hlt : ba.position < ba.size) : Inv ba := by
  rcases h.inv_or with hinv | ⟨-, hend, -⟩
  · exact hinv
  · omega

theorem Reached.appendNodes (h : Reached ba) (k : Nat) : Reached (ba.appendNodes k) := by
  have hinv := h.repaired
  have hpos : ba.position ≤ ba.size := hinv.position_le
  have hsize : ba.size ≤ ba.capacity := hinv.size_le
  have hcap : ba.capacity = ba.nodes.length * ba.baseSize := hinv.capacity_eq
  have hlen : (ba.nodes ++ List.replicate k (Node.new ba.baseSize)).length = ba.nodes.length + k := by
    rw [List.length_append, List.length_replicate]
  refine ⟨⟨hinv.base_pos, uniform_append.mpr ⟨hinv.uniform, uniform_replicate _⟩, ?_, ?_, hpos,
    Nat.le_trans hsize (Nat.le_add_right _ _), rfl⟩, ?_⟩
  · change 0 < (ba.nodes ++ List.replicate k (Node.new ba.baseSize)).length
    have := hinv.nodes_pos
    rw [hlen]
    exact Nat.lt_of_lt_of_le this (Nat.le_add_right _ _)
  · change ba.capacity + k * ba.baseSize =
      (ba.nodes ++ List.replicate k (Node.new ba.baseSize)).length * ba.baseSize
    rw [hlen, Nat.add_mul, ← hcap]
  · rcases h.cur_eq with hcur | hbroken
    · by_cases hlt : ba.position / ba.baseSize < ba.nodes.length
      · left
        change ba.cur = if ba.position / ba.baseSize <
          (ba.nodes ++ List.replicate k (Node.new ba.baseSize)).length then _ else _
        rw [hcur, nodePtr, if_pos hlt, hlen, if_pos (Nat.lt_add_right _ hlt)]
        rfl
      · have hend : ¬ ba.position < ba.capacity := fun h' => hlt (hinv.position_div_lt.mpr h')
        rw [nodePtr, if_neg hlt] at hcur
        right
        exact ⟨hcur, by change ba.position = ba.size; omega⟩
    · exact Or.inr hbroken

theorem addCapacity_cur_none (hcur : ba.cur = none) (hlt : ba.position < ba.capacity) (n : Nat) :
    (ba.addCapacity n).cur = none := by
  have hroom : ba.getCapacity ≠ 0 := by
    rw [getCapacity]
    omega
  rw [addCapacity]
  split
  · exact hcur
  · dsimp only
    rw [if_neg hroom]
    split
    · exact hcur
    · exact hcur

theorem tryWrite_reached (h : Reached ba) {buf : List UInt8} {avail : Nat} {ba' : ByteArray}
    (hobj : (ba.tryWrite buf avail).object = some ba') : Reached ba' := by
  rw [tryWrite] at hobj
  by_cases hbuf : buf.length = 0
  · rw [if_pos hbuf] at hobj
    exact Option.some.inj hobj ▸ h
  rw [if_neg hbuf, tryAddCapacity] at hobj
  by_cases hfit : ba.nodesNeeded buf.length ≤ avail
  · rw [if_pos hfit] at hobj
    dsimp only at hobj
    rcases h.inv_or with hinv | ⟨hcur, -, hlt⟩
    · obtain ⟨hgrown, hposition, -, -, hroom, -⟩ := addCapacity_spec hinv buf.length
      obtain ⟨ba₁, hwrite, hinv', -⟩ :=
        writeBytes_spec hgrown (Nat.pos_of_ne_zero hbuf) (by rw [hposition]; exact hroom)
      rw [hwrite] at hobj
      exact Option.some.inj hobj ▸ hinv'.reached
    · rw [writeBytes, addCapacity_cur_none hcur hlt] at hobj
      cases hobj
  · rw [if_neg hfit] at hobj
    exact Option.some.inj hobj ▸ h.appendNodes avail

theorem tryGetWriteBuffers_reached (h : Reached ba) {len avail : Nat} {ba' : ByteArray}
    (hobj : (ba.tryGetWriteBuffers len avail).object = some ba') : Reached ba' := by
  rw [tryGetWriteBuffers] at hobj
  by_cases hlen : len = 0
  · rw [if_pos hlen] at hobj
    exact Option.some.inj hobj ▸ h
  rw [if_neg hlen, tryAddCapacity] at hobj
  by_cases hfit : ba.nodesNeeded len ≤ avail
  · rw [if_pos hfit] at hobj
    dsimp only at hobj
    rcases h.inv_or with hinv | ⟨hcur, -, hlt⟩
    · obtain ⟨hgrown, hposition, -, -, hroom, -⟩ := addCapacity_spec hinv len
      obtain ⟨buffers, hbuffers⟩ :=
        writeBuffers_ok hgrown (Nat.pos_of_ne_zero hlen) (by rw [hposition]; exact hroom)
      rw [hbuffers] at hobj
      exact Option.some.inj hobj ▸ hgrown.reached
    · rw [writeBuffers, addCapacity_cur_none hcur hlt] at hobj
      cases hobj
  · rw [if_neg hfit] at hobj
    exact Option.some.inj hobj ▸ h.appendNodes avail

theorem writeBlocks_reached : ∀ (blocks : List (List UInt8)) (ba : ByteArray) (avail : Nat)
    (ba' : ByteArray), Reached ba → (ba.writeBlocks blocks avail).object = some ba' →
    Reached ba' := by
  intro blocks
  induction blocks with
  | nil => intro ba avail ba' h hobj; exact Option.some.inj hobj ▸ h
  | cons block blocks ih =>
      intro ba avail ba' h hobj
      rw [writeBlocks] at hobj
      cases hwrite : ba.tryWrite block avail with
      | returns ba₁ =>
          rw [hwrite] at hobj
          exact ih ba₁ _ ba' (tryWrite_reached h (by rw [hwrite]; rfl)) hobj
      | throws ba₁ =>
          rw [hwrite] at hobj
          exact Option.some.inj hobj ▸ tryWrite_reached h (by rw [hwrite]; rfl)
      | undefined fault =>
          rw [hwrite] at hobj
          cases hobj

/-- `setPosition` and `clear` do not look at `m_cur`. -/
theorem Reached.setPosition_inv (h : Reached ba) {v : Nat} {ba' : ByteArray}
    (hset : ba.setPosition v = .ok ba') : Inv ba' :=
  ByteArray.setPosition_inv (v := v) h.repaired hset

theorem Reached.clear_inv (h : Reached ba) : Inv ba.clear := by
  have hinv : Inv ba.repair.clear := ByteArray.clear_inv h.repaired
  exact hinv

theorem readInto_reached (h : Reached ba) {size room : Nat} {ba' : ByteArray}
    (hread : ba.readInto size room = .ok ba') : Reached ba' := by
  rcases h.inv_or with hinv | ⟨hcur, -, -⟩
  · exact (readInto_inv hinv hread).reached
  · obtain ⟨r, hok, -⟩ := except_bind_eq_ok.mp hread
    rw [read, hcur] at hok
    split at hok <;> cases hok

theorem callStep_reached (h : Reached ba) {c : Call} {ba' : ByteArray}
    (hstep : ba.callStep c = some ba') : Reached ba' := by
  cases c with
  | write buf avail => exact tryWrite_reached h hstep
  | read size room =>
      rcases object_of hstep with hread | rfl
      · exact readInto_reached h hread
      · exact h
  | setPosition v =>
      rcases object_of hstep with hset | rfl
      · exact (h.setPosition_inv hset).reached
      · exact h
  | clear => exact Option.some.inj hstep ▸ h.clear_inv.reached
  | getReadBuffers len =>
      rcases object_of hstep with hread | rfl
      · obtain ⟨_, -, rfl⟩ := except_map_eq_ok.mp hread
        exact h
      · exact h
  | getReadBuffersAt len position =>
      rcases object_of hstep with hread | rfl
      · obtain ⟨_, -, rfl⟩ := except_map_eq_ok.mp hread
        exact h
      · exact h
  | getWriteBuffers len avail => exact tryGetWriteBuffers_reached h hstep
  | readFromFile file avail =>
      cases file with
      | none => exact Option.some.inj hstep ▸ h
      | some bytes => exact writeBlocks_reached _ ba avail ba' h hstep

theorem reached_of_run {b : Nat} (hb : 0 < b) {calls : List Call}
    (hrun : run callStep (new b) calls = some ba) : Reached ba :=
  run_invariant (C := fun _ _ => True) (fun _ _ _ h _ hstep => callStep_reached h hstep) calls
    (new b) ba (inv_new hb).reached (stepsMeet_true calls (new b)) hrun

end ByteArray

end Saturn
