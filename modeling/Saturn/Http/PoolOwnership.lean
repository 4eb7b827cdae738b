import Mathlib.Algebra.Order.BigOperators.Group.List
import Mathlib.Algebra.Order.Ring.Nat
import Saturn.Http.ConnectionPool

/-!
# Ownership and accounting in the pool

Every connection is in one place: idle in `m_conns`, handed out, in the hands of an operation, or
deleted. What `m_total` counts is what the operations leave behind and what they still owe it.
-/

namespace Saturn

namespace Http

namespace Pool

/-- The connections in the hands of the operation. -/
def Pc.holds : Pc → List Nat
  | .discard todo _ ptr => todo ++ ptr.toList
  | .count c | .give c | .release c | .delete c | .push c => [c]
  | _ => []

/-- The connections that `m_total` counts on behalf of the operation. -/
def Pc.counted : Pc → Nat
  | .discard _ n ptr => n + ptr.toList.length
  | .give _ | .release _ | .delete _ | .uncount | .push _ => 1
  | _ => 0

/-- The connections that the next step of the operation touches. -/
def Pc.touches (s : State) : Pc → List Nat
  | .take _ => s.conns
  | .discard (c :: _) _ _ => [c]
  | .give c | .release c | .delete c | .push c => [c]
  | _ => []

/-- The connections that a step reads or writes. -/
def touches (s : State) : Label → List Nat
  | .move tid _ => (s.threads[tid]?.map (Pc.touches s)).getD []
  | .use c => [c]
  | _ => []

/-- A step touches connections that have been made and not deleted. -/
def TouchesLive (lim : Limits) (s : State) (l : Label) : Prop :=
  (step lim s l).isSome → ∀ c ∈ touches s l, c < s.made ∧ c ∉ s.deleted

/-- How often connection `c` stands in one of the places. -/
def State.places (s : State) (c : Nat) : Nat :=
  s.conns.count c + s.handed.count c + (s.threads.flatMap Pc.holds).count c + s.deleted.count c

/-- Every connection is in one place, at most `max(1, m_maxRequest)` times handed out, and counted:
`m_total` is the number of idle and handed out connections while no operation is in progress. -/
structure Accounted (lim : Limits) (s : State) : Prop where
  one_place : ∀ c, s.places c = if c < s.made then 1 else 0
  handouts : ∀ c, (s.heap c).handouts ≤ max 1 lim.maxRequest.toNat
  total : (∀ pc ∈ s.threads, pc = .out) → s.total = Int32.ofNat (s.conns.length + s.handed.length)
  total_toInt : (∀ pc ∈ s.threads, pc = .out) → s.conns.length + s.handed.length < 2 ^ 31 →
    s.total.toInt = s.conns.length + s.handed.length

/-! ## One place -/

/-- What the operations hold and owe, as sums over the threads. -/
structure Counted (s : State) : Prop where
  one_place : ∀ c, s.conns.count c + s.handed.count c +
    (s.threads.map fun pc => pc.holds.count c).sum + s.deleted.count c =
      if c < s.made then 1 else 0
  total : s.total =
    Int32.ofNat (s.conns.length + s.handed.length + (s.threads.map Pc.counted).sum)

theorem counted_init (threads : Nat) (now : UInt64) : Counted (init threads now) := by
  constructor
  · intro c
    simp [init, Pc.holds]
  · simp [init, Pc.counted]

variable {lim : Limits} {s t : State} {tid : Nat} {pc : Pc}

/-- A thread goes on; what it holds and owes changes. -/
theorem holds_goto (h : s.threads[tid]? = some pc) (pc' : Pc) (c : Nat) :
    ((s.goto tid pc').threads.map fun pc => pc.holds.count c).sum + pc.holds.count c =
      (s.threads.map fun pc => pc.holds.count c).sum + pc'.holds.count c :=
  sum_map_set_add (fun pc => pc.holds.count c) pc' h

theorem counted_goto (h : s.threads[tid]? = some pc) (pc' : Pc) :
    ((s.goto tid pc').threads.map Pc.counted).sum + pc.counted =
      (s.threads.map Pc.counted).sum + pc'.counted :=
  sum_map_set_add Pc.counted pc' h

theorem ofNat_sub {n a b : Nat} (h : a = b + n) :
    Int32.ofNat a - Int32.ofNat n = Int32.ofNat b := by
  rw [h, Int32.ofNat_add, Int32.add_sub_cancel]

theorem ofNat_add_one {a b : Nat} (h : b = a + 1) : Int32.ofNat a + 1 = Int32.ofNat b := by
  rw [h, Int32.ofNat_add]
  rfl

/-- A step of a thread that moves connections between the places keeps the count of each, and keeps
what `m_total` is made of, keeps the invariant. -/
theorem Counted.move {conns handed deleted : List Nat} {made : Nat} {total : Int32}
    {heap : Nat → HttpConnection} {pc' : Pc} (h : Counted s) (hpc : s.threads[tid]? = some pc)
    (hplaces : ∀ c, conns.count c + handed.count c + pc'.holds.count c + deleted.count c +
      (if c < s.made then 1 else 0) = s.conns.count c + s.handed.count c + pc.holds.count c +
        s.deleted.count c + if c < made then 1 else 0)
    (htotal : ∀ n : Nat,
      s.total = Int32.ofNat (s.conns.length + s.handed.length + pc.counted + n) →
      total = Int32.ofNat (conns.length + handed.length + pc'.counted + n)) :
    Counted ({ s with
      conns := conns, handed := handed, deleted := deleted, made := made, total := total,
      heap := heap }.goto tid pc') := by
  constructor
  · intro c
    have hsum := holds_goto hpc pc' c
    have hold := h.one_place c
    have hnew := hplaces c
    change _ = if c < made then 1 else 0
    simp only [State.goto] at hsum ⊢
    omega
  · have hsum := counted_goto hpc pc'
    have hle : pc.counted ≤ (s.threads.map Pc.counted).sum := by
      apply List.le_sum_of_mem
      exact List.mem_map_of_mem (List.mem_of_getElem? hpc)
    have hnew := htotal ((s.threads.map Pc.counted).sum - pc.counted) (by
      rw [h.total]
      congr 1
      omega)
    simp only [State.goto] at hsum ⊢
    rw [hnew]
    congr 1
    omega

theorem Counted.moves (h : Counted s) (hpc : s.threads[tid]? = some pc) {made : Bool}
    (hstep : s.moves lim tid made pc = some t) : Counted t := by
  cases pc with
  | out => cases hstep
  | take now =>
      cases htake : takeIdle lim now s.heap s.conns with
      | mk invalid more =>
          obtain ⟨ptr, left⟩ := more
          have hsplit := takeIdle_spec lim now s.heap htake
          simp only [State.moves, htake] at hstep
          cases hstep
          refine h.move hpc ?_ ?_
          · intro c
            simp only [hsplit, Pc.holds, List.count_append, List.count_nil]
            omega
          · intro n htotal
            rw [htotal]
            simp only [hsplit, Pc.counted, List.length_append]
            congr 1
            omega
  | discard todo n ptr =>
      cases todo with
      | nil =>
          cases hstep
          refine h.move hpc ?_ ?_
          · intro c
            cases ptr <;> rfl
          · intro k htotal
            rw [htotal]
            cases ptr with
            | none => exact ofNat_sub (by simp only [Pc.counted, Option.toList, List.length]; omega)
            | some c => exact ofNat_sub (by simp only [Pc.counted, Option.toList, List.length]; omega)
      | cons c todo =>
          cases hstep
          refine h.move hpc ?_ ?_
          · intro c'
            simp only [Pc.holds, List.cons_append, List.count_cons]
            omega
          · intro n htotal
            rw [htotal]
            rfl
  | connect =>
      cases made with
      | false =>
          cases hstep
          exact h.move hpc (fun c => rfl) (fun n htotal => htotal)
      | true =>
          cases hstep
          refine h.move hpc ?_ (fun n htotal => htotal)
          intro c
          simp only [Pc.holds, List.count_singleton, List.count_nil, beq_iff_eq]
          split <;> split <;> split <;> omega
  | count c =>
      cases hstep
      refine h.move hpc (fun c => rfl) ?_
      intro n htotal
      rw [htotal]
      exact ofNat_add_one (by simp only [Pc.counted]; omega)
  | give c =>
      cases hstep
      refine h.move hpc ?_ (fun n htotal => htotal)
      intro c'
      simp only [Pc.holds, List.count_cons, List.count_nil]
      omega
  | release c =>
      cases hstep
      refine h.move hpc ?_ ?_
      · intro c'
        split <;> rfl
      · intro n htotal
        rw [htotal]
        split <;> rfl
  | delete c =>
      cases hstep
      refine h.move hpc ?_ (fun n htotal => htotal)
      intro c'
      simp only [Pc.holds, List.count_cons, List.count_nil]
      omega
  | uncount =>
      cases hstep
      refine h.move hpc (fun c => rfl) ?_
      intro n htotal
      rw [htotal]
      exact ofNat_sub (by simp only [Pc.counted]; omega)
  | push c =>
      cases hstep
      refine h.move hpc ?_ ?_
      · intro c'
        simp only [Pc.holds, List.count_append, List.count_nil]
        omega
      · intro n htotal
        rw [htotal]
        simp only [Pc.counted, List.length_append, List.length_singleton]
        congr 1
        omega

theorem Counted.heap (h : Counted s) (heap : Nat → HttpConnection) :
    Counted { s with heap := heap } := ⟨h.one_place, h.total⟩

theorem counted_step {l : Label} (h : Counted s) (hstep : step lim s l = some t) : Counted t := by
  cases l with
  | getConnection tid =>
      simp only [step] at hstep
      split at hstep
      · rename_i hpc
        cases hstep
        exact h.move hpc (fun c => rfl) (fun n htotal => htotal)
      · cases hstep
  | drop tid c =>
      simp only [step] at hstep
      split at hstep
      · rename_i hpc
        split at hstep
        · rename_i hc
          cases hstep
          have hlen := List.length_erase_add_one hc
          refine h.move hpc ?_ ?_
          · intro c'
            have hpos : 0 < s.handed.count c := List.count_pos_iff.mpr hc
            simp only [Pc.holds, List.count_erase, List.count_singleton, List.count_nil]
            by_cases heq : c' = c
            · subst heq
              simp only [beq_self_eq_true, if_true]
              omega
            · have hne : (c == c') = false := by simpa using Ne.symm heq
              simp only [hne, Bool.false_eq_true, if_false]
              omega
          · intro n htotal
            rw [htotal]
            simp only [Pc.counted]
            congr 1
            omega
        · cases hstep
      · cases hstep
  | move tid made =>
      obtain ⟨pc, hpc, hmoves⟩ := Option.bind_eq_some_iff.mp hstep
      exact h.moves hpc hmoves
  | use c =>
      simp only [step] at hstep
      split at hstep
      · cases hstep
        exact h
      · cases hstep
  | close c =>
      simp only [step] at hstep
      split at hstep
      · cases hstep
        exact h.heap _
      · cases hstep
  | tick now =>
      simp only [step] at hstep
      split at hstep
      · cases hstep
        exact ⟨h.one_place, h.total⟩
      · cases hstep

/-! ## Where a connection is not -/

theorem count_le_holds {c : Nat} (hpc : s.threads[tid]? = some pc) :
    pc.holds.count c ≤ (s.threads.map fun pc => pc.holds.count c).sum := by
  apply List.le_sum_of_mem
  exact List.mem_map_of_mem (List.mem_of_getElem? hpc)

/-- A connection in the hands of an operation is nowhere else. -/
theorem Counted.held (h : Counted s) (hpc : s.threads[tid]? = some pc) {c : Nat}
    (hc : c ∈ pc.holds) : c < s.made ∧ c ∉ s.conns ∧ c ∉ s.handed ∧ c ∉ s.deleted := by
  have hle := count_le_holds (c := c) hpc
  have hpos : 0 < pc.holds.count c := List.count_pos_iff.mpr hc
  have hone := h.one_place c
  simp only [← List.count_eq_zero]
  split at hone <;> omega

theorem Counted.idle (h : Counted s) {c : Nat} (hc : c ∈ s.conns) :
    c < s.made ∧ c ∉ s.handed ∧ c ∉ s.deleted := by
  have hpos : 0 < s.conns.count c := List.count_pos_iff.mpr hc
  have hone := h.one_place c
  simp only [← List.count_eq_zero]
  split at hone <;> omega

theorem Counted.lent (h : Counted s) {c : Nat} (hc : c ∈ s.handed) :
    c < s.made ∧ c ∉ s.conns ∧ c ∉ s.deleted := by
  have hpos : 0 < s.handed.count c := List.count_pos_iff.mpr hc
  have hone := h.one_place c
  simp only [← List.count_eq_zero]
  split at hone <;> omega

theorem touchesLive_of_counted {l : Label} (h : Counted s) : TouchesLive lim s l := by
  intro henabled c hc
  cases l with
  | getConnection tid => cases hc
  | drop tid c => cases hc
  | close c => cases hc
  | tick now => cases hc
  | use c' =>
      obtain rfl := List.mem_singleton.mp hc
      simp only [step] at henabled
      split at henabled
      · rename_i hmem
        exact ⟨(h.lent hmem).1, (h.lent hmem).2.2⟩
      · cases henabled
  | move tid made =>
      cases hpc : s.threads[tid]? with
      | none => simp [touches, hpc] at hc
      | some pc =>
          simp only [touches, hpc, Option.map_some, Option.getD_some] at hc
          have hheld : c ∈ pc.holds → c < s.made ∧ c ∉ s.deleted := by
            intro hmem
            have hplace := h.held hpc hmem
            exact ⟨hplace.1, hplace.2.2.2⟩
          cases pc with
          | take now => exact ⟨(h.idle hc).1, (h.idle hc).2.2⟩
          | discard todo n ptr =>
              cases todo with
              | nil => cases hc
              | cons c' todo =>
                  apply hheld
                  obtain rfl := List.mem_singleton.mp hc
                  exact List.mem_cons_self
          | give c' | release c' | delete c' | push c' => exact hheld hc
          | out | connect | count c' | uncount => cases hc

/-! ## How often a connection is handed out -/

/-- The connection has served all its holders but `k`, and may still be handed out or has been. -/
def Pending (lim : Limits) (k : Nat) (conn : HttpConnection) : Prop :=
  conn.handouts = conn.request.toNat + k ∧ conn.request.toNat < max 1 lim.maxRequest.toNat

/-- The connection may be put back. -/
def Rested (lim : Limits) (conn : HttpConnection) : Prop :=
  conn.handouts = conn.request.toNat ∧ conn.request.toNat < lim.maxRequest.toNat

theorem Rested.pending {conn : HttpConnection} (h : Rested lim conn) : Pending lim 0 conn :=
  ⟨h.1, lt_max_of_lt_right h.2⟩

theorem Pending.handout {conn : HttpConnection} (h : Pending lim 0 conn) :
    Pending lim 1 { conn with handouts := conn.handouts + 1 } :=
  ⟨congrArg (· + 1) h.1, h.2⟩

theorem Pending.handouts_le {conn : HttpConnection} (h : Pending lim 1 conn) :
    conn.handouts ≤ max 1 lim.maxRequest.toNat := by
  have heq := h.1
  have hlt := h.2
  omega

/-- What an operation knows of the connection in its hands. -/
def Pc.Knows (lim : Limits) (heap : Nat → HttpConnection) : Pc → Prop
  | .discard _ _ ptr => ∀ c ∈ ptr, Pending lim 0 (heap c)
  | .count c | .give c => Pending lim 0 (heap c)
  | .release c => Pending lim 1 (heap c)
  | .push c => Rested lim (heap c)
  | _ => True

/-- How often connections have been handed out. -/
structure Served (lim : Limits) (s : State) : Prop where
  idle : ∀ c ∈ s.conns, Rested lim (s.heap c)
  lent : ∀ c ∈ s.handed, Pending lim 1 (s.heap c)
  knows : ∀ pc ∈ s.threads, pc.Knows lim s.heap
  handouts : ∀ c, (s.heap c).handouts ≤ max 1 lim.maxRequest.toNat

theorem served_init (threads : Nat) (now : UInt64) : Served lim (init threads now) := by
  constructor
  · intro c hc
    cases hc
  · intro c hc
    cases hc
  · intro pc hpc
    obtain rfl := List.eq_of_mem_replicate hpc
    trivial
  · intro c
    exact Nat.zero_le _

/-- What an operation knows is about the connections in its hands. -/
theorem Pc.Knows.congr {heap heap' : Nat → HttpConnection} (h : pc.Knows lim heap)
    (hsame : ∀ c ∈ pc.holds, (heap' c).handouts = (heap c).handouts ∧
      (heap' c).request = (heap c).request) : pc.Knows lim heap' := by
  cases pc with
  | out | take now | connect | delete c | uncount => trivial
  | discard todo n ptr =>
      intro c hc
      obtain ⟨hhandouts, hrequest⟩ := hsame c (by simp [Pc.holds, Option.mem_def.mp hc])
      have hold := h c hc
      rw [Pending] at hold ⊢
      rwa [hhandouts, hrequest]
  | count c | give c | release c =>
      obtain ⟨hhandouts, hrequest⟩ := hsame c (List.mem_singleton.mpr rfl)
      simp only [Pc.Knows, Pending] at h ⊢
      rwa [hhandouts, hrequest]
  | push c =>
      obtain ⟨hhandouts, hrequest⟩ := hsame c (List.mem_singleton.mpr rfl)
      simp only [Pc.Knows, Rested] at h ⊢
      rwa [hhandouts, hrequest]

/-- An operation that leaves the connections themselves alone. -/
theorem Served.move {conns handed deleted : List Nat} {total : Int32} {pc' : Pc}
    (h : Served lim s) (hidle : ∀ c ∈ conns, Rested lim (s.heap c))
    (hlent : ∀ c ∈ handed, Pending lim 1 (s.heap c)) (hpc : pc'.Knows lim s.heap) :
    Served lim ({ s with
      conns := conns, handed := handed, deleted := deleted, total := total }.goto tid pc') where
  idle := hidle
  lent := hlent
  knows := forall_mem_set hpc h.knows
  handouts := h.handouts

/-- Two operations have no connection in common. -/
theorem Counted.held_once (h : Counted s) (hpc : s.threads[tid]? = some pc) {c : Nat}
    (hc : c ∈ pc.holds) {i : Nat} {pc' : Pc} (hi : i ≠ tid) (hpc' : s.threads[i]? = some pc') :
    c ∉ pc'.holds := by
  have hpos : 0 < pc.holds.count c := List.count_pos_iff.mpr hc
  have hsum := holds_goto hpc .out c
  have hother : (s.goto tid .out).threads[i]? = some pc' := by
    rw [State.goto, List.getElem?_set_ne (Ne.symm hi)]
    exact hpc'
  have hle := count_le_holds (c := c) hother
  have hone := h.one_place c
  have hout : Pc.out.holds.count c = 0 := rfl
  rw [← List.count_eq_zero]
  split at hone <;> omega

/-- Nobody but thread `tid` has the connection. -/
structure Sole (s : State) (tid c : Nat) : Prop where
  idle : c ∉ s.conns
  lent : c ∉ s.handed
  held : ∀ {i : Nat} {pc : Pc}, i ≠ tid → s.threads[i]? = some pc → c ∉ pc.holds

theorem Counted.sole_of_held (h : Counted s) (hpc : s.threads[tid]? = some pc) {c : Nat}
    (hc : c ∈ pc.holds) : Sole s tid c := by
  obtain ⟨-, hidle, hlent, -⟩ := h.held hpc hc
  exact ⟨hidle, hlent, fun hi hpc' => h.held_once hpc hc hi hpc'⟩

theorem Counted.sole_made (h : Counted s) : Sole s tid s.made := by
  refine ⟨fun hc => ?_, fun hc => ?_, fun _ hpc hc => ?_⟩
  · exact Nat.lt_irrefl _ (h.idle hc).1
  · exact Nat.lt_irrefl _ (h.lent hc).1
  · exact Nat.lt_irrefl _ (h.held hpc hc).1

/-- An operation that changes a connection of its own disturbs nobody. -/
theorem Served.setConn (h : Served lim s) (hpc : s.threads[tid]? = some pc) {c : Nat}
    (hc : Sole s tid c) {conn : HttpConnection} {pc' : Pc}
    (hhandouts : conn.handouts ≤ max 1 lim.maxRequest.toNat)
    (hknows : pc'.Knows lim (Function.update s.heap c conn)) :
    Served lim ((s.setConn c conn).goto tid pc') := by
  have hother {c' : Nat} (hne : c' ≠ c) : Function.update s.heap c conn c' = s.heap c' :=
    Function.update_of_ne hne _ _
  constructor
  · intro c' hc'
    change Rested lim (Function.update s.heap c conn c')
    rw [hother fun heq => hc.idle (heq ▸ hc')]
    exact h.idle c' hc'
  · intro c' hc'
    change Pending lim 1 (Function.update s.heap c conn c')
    rw [hother fun heq => hc.lent (heq ▸ hc')]
    exact h.lent c' hc'
  · intro pc'' hmem
    obtain ⟨i, hi⟩ := List.mem_iff_getElem?.mp hmem
    change (s.threads.set tid pc')[i]? = some pc'' at hi
    rw [getElem?_set_of_some hpc] at hi
    split at hi
    · cases hi
      exact hknows
    · rename_i hne
      have hnot := hc.held hne hi
      refine (h.knows pc'' (List.mem_of_getElem? hi)).congr ?_
      intro c' hc'
      change _ ∧ (Function.update s.heap c conn c').request = _
      rw [hother fun heq => hnot (heq ▸ hc')]
      exact ⟨congrArg _ (hother fun heq => hnot (heq ▸ hc')), rfl⟩
  · intro c'
    change (Function.update s.heap c conn c').handouts ≤ _
    by_cases heq : c' = c
    · rw [heq, Function.update_self]
      exact hhandouts
    · rw [hother heq]
      exact h.handouts c'

/-- `++ptr->m_request` does not overflow. -/
theorem served_request {conn : HttpConnection} (h : Pending lim 1 conn) :
    conn.served.request.toNat = conn.request.toNat + 1 := by
  have hlt := h.2
  have hmax := lim.maxRequest.toNat_lt
  rw [HttpConnection.served, UInt64.toNat_add]
  apply Nat.mod_eq_of_lt
  change conn.request.toNat + 1 < 2 ^ 64
  omega

theorem request_lt_of_not_expires {now : UInt64} {conn : HttpConnection}
    (h : ¬ expires lim now conn = true) : conn.request.toNat < lim.maxRequest.toNat := by
  simp only [expires, Bool.or_eq_true, decide_eq_true_eq, not_or] at h
  have hlt := UInt64.not_le.mp h.2
  rwa [UInt64.lt_iff_toNat_lt, UInt32.toNat_toUInt64] at hlt

theorem Served.moves (h : Served lim s) (hs : Counted s) (hpc : s.threads[tid]? = some pc)
    {made : Bool} (hstep : s.moves lim tid made pc = some t) : Served lim t := by
  have hknows := h.knows pc (List.mem_of_getElem? hpc)
  cases pc with
  | out => cases hstep
  | take now =>
      cases htake : takeIdle lim now s.heap s.conns with
      | mk invalid more =>
          obtain ⟨ptr, left⟩ := more
          have hsplit := takeIdle_spec lim now s.heap htake
          simp only [State.moves, htake] at hstep
          cases hstep
          have hfrom : ∀ c ∈ ptr.toList ++ left, Rested lim (s.heap c) := by
            intro c hc
            apply h.idle
            rw [hsplit]
            exact List.mem_append_right _ hc
          refine h.move ?_ h.lent ?_
          · intro c hc
            exact hfrom c (List.mem_append_right _ hc)
          · intro c hc
            exact (hfrom c (List.mem_append_left _ (Option.mem_toList.mpr hc))).pending
  | discard todo n ptr =>
      cases todo with
      | nil =>
          cases hstep
          refine h.move h.idle h.lent ?_
          cases ptr with
          | none => trivial
          | some c => exact hknows c rfl
      | cons c todo =>
          cases hstep
          exact h.move h.idle h.lent hknows
  | connect =>
      cases made with
      | false =>
          cases hstep
          exact h.move h.idle h.lent trivial
      | true =>
          cases hstep
          have hset : Served lim ((s.setConn s.made (.new s.clock)).goto tid (.count s.made)) := by
            apply h.setConn hpc hs.sole_made (Nat.zero_le _)
            rw [Pc.Knows, Function.update_self]
            exact ⟨rfl, lt_max_of_lt_left Nat.zero_lt_one⟩
          exact ⟨hset.idle, hset.lent, hset.knows, hset.handouts⟩
  | count c =>
      cases hstep
      exact h.move h.idle h.lent hknows
  | give c =>
      cases hstep
      have hlent := Pending.handout hknows
      have hsole := hs.sole_of_held hpc (List.mem_singleton.mpr rfl)
      have hset : Served lim ((s.setConn c { s.heap c with
          handouts := (s.heap c).handouts + 1 }).goto tid .out) :=
        h.setConn hpc hsole hlent.handouts_le trivial
      refine ⟨hset.idle, ?_, hset.knows, hset.handouts⟩
      intro c' hc'
      rcases List.mem_cons.mp hc' with rfl | hc'
      · change Pending lim 1 (Function.update s.heap c' _ c')
        rw [Function.update_self]
        exact hlent
      · exact hset.lent c' hc'
  | release c =>
      cases hstep
      have hrequest := served_request hknows
      refine h.setConn hpc (hs.sole_of_held hpc (List.mem_singleton.mpr rfl)) ?_ ?_
      · exact hknows.handouts_le
      · split
        · trivial
        · rename_i hkeep
          rw [Pc.Knows, Function.update_self]
          refine ⟨?_, ?_⟩
          · rw [hrequest]
            exact hknows.1
          · exact request_lt_of_not_expires hkeep
  | delete c =>
      cases hstep
      exact h.move h.idle h.lent trivial
  | uncount =>
      cases hstep
      exact h.move h.idle h.lent trivial
  | push c =>
      cases hstep
      refine h.move ?_ h.lent trivial
      intro c' hc'
      rcases List.mem_append.mp hc' with hc' | hc'
      · exact h.idle c' hc'
      · obtain rfl := List.mem_singleton.mp hc'
        exact hknows

/-- Closing a connection changes nothing that the pool counts by. -/
theorem Served.close (h : Served lim s) (c : Nat) :
    Served lim (s.setConn c { s.heap c with isConnected := false }) := by
  have hsame (c' : Nat) :
      ((s.setConn c { s.heap c with isConnected := false }).heap c').handouts =
        (s.heap c').handouts ∧
      ((s.setConn c { s.heap c with isConnected := false }).heap c').request =
        (s.heap c').request := by
    by_cases heq : c' = c
    · rw [heq, State.setConn]
      simp
    · rw [State.setConn]
      simp [heq]
  constructor
  · intro c' hc'
    have hold := h.idle c' hc'
    rw [Rested] at hold ⊢
    rwa [(hsame c').1, (hsame c').2]
  · intro c' hc'
    have hold := h.lent c' hc'
    rw [Pending] at hold ⊢
    rwa [(hsame c').1, (hsame c').2]
  · intro pc hpc
    exact (h.knows pc hpc).congr fun c' _ => hsame c'
  · intro c'
    rw [(hsame c').1]
    exact h.handouts c'

theorem served_step {l : Label} (h : Served lim s) (hs : Counted s)
    (hstep : step lim s l = some t) : Served lim t := by
  cases l with
  | getConnection tid =>
      simp only [step] at hstep
      split at hstep
      · cases hstep
        exact h.move h.idle h.lent trivial
      · cases hstep
  | drop tid c =>
      simp only [step] at hstep
      split at hstep
      · split at hstep
        · rename_i hc
          cases hstep
          exact h.move h.idle (fun c' hc' => h.lent c' (List.mem_of_mem_erase hc')) (h.lent c hc)
        · cases hstep
      · cases hstep
  | move tid made =>
      obtain ⟨pc, hpc, hmoves⟩ := Option.bind_eq_some_iff.mp hstep
      exact h.moves hs hpc hmoves
  | use c =>
      simp only [step] at hstep
      split at hstep
      · cases hstep
        exact h
      · cases hstep
  | close c =>
      simp only [step] at hstep
      split at hstep
      · cases hstep
        exact h.close c
      · cases hstep
  | tick now =>
      simp only [step] at hstep
      split at hstep
      · cases hstep
        exact ⟨h.idle, h.lent, h.knows, h.handouts⟩
      · cases hstep

/-! ## Every run -/

theorem accounted_of_counted (h : Counted s) (hserved : Served lim s) : Accounted lim s := by
  have htotal (hout : ∀ pc ∈ s.threads, pc = .out) :
      s.total = Int32.ofNat (s.conns.length + s.handed.length) := by
    have hsum : (s.threads.map Pc.counted).sum = 0 := by
      apply List.sum_eq_zero
      intro n hn
      obtain ⟨pc, hpc, rfl⟩ := List.mem_map.mp hn
      rw [hout pc hpc]
      rfl
    rw [h.total, hsum, Nat.add_zero]
  refine ⟨fun c => ?_, hserved.handouts, htotal, fun hout hlt => ?_⟩
  · rw [State.places, List.count_flatMap]
    exact h.one_place c
  · rw [htotal hout, Int32.toInt_ofNat_of_lt hlt]
    rfl

/-- In every run of `getConnection` and `ReleasePtr` every connection is in one place and deleted at
most once, nothing touches it afterwards, and the handles and `m_total` are accounted for. -/
theorem accounted_of_run (lim : Limits) (threads : Nat) (now : UInt64) (ls : List Label) :
    StatesMeet (step lim) (Accounted lim) (init threads now) ls ∧
      StepsMeet (step lim) (TouchesLive lim) (init threads now) ls := by
  have hinit : Counted (init threads now) ∧ Served lim (init threads now) :=
    ⟨counted_init threads now, served_init threads now⟩
  have hstep : ∀ s l t, Counted s ∧ Served lim s → True → step lim s l = some t →
      Counted t ∧ Served lim t := fun s l t h _ ht =>
    ⟨counted_step h.1 ht, served_step h.2 h.1 ht⟩
  exact ⟨statesMeet_of_invariant (fun s h => accounted_of_counted h.1 h.2) hstep ls _ hinit
      (stepsMeet_true ls _),
    stepsMeet_of_invariant (fun s l h _ => touchesLive_of_counted h.1) hstep ls _ hinit
      (stepsMeet_true ls _)⟩

end Pool

end Http

end Saturn
