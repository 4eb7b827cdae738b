import Mathlib.Algebra.Order.BigOperators.Group.List
import Saturn.Http.PoolOwnership

/-!
# The limits of the pool

What `m_maxSize` and `m_maxAliveTime` come to. Nothing reads `m_maxSize`. Nothing sets
`m_createTime`, and both tests of the age discard the connections that are still to live.
-/

namespace Saturn

namespace Http

namespace Pool

/-! ## The size -/

/-- The connections that are idle or handed out, or that an operation may hand out or put back. -/
def Pc.keeps : Pc → Nat
  | .discard _ _ ptr => ptr.toList.length
  | .count _ | .give _ | .release _ | .push _ => 1
  | _ => 0

/-- The connections that the next step of the operation makes. -/
def Pc.makes (made : Bool) : Pc → Nat
  | .connect => made.toNat
  | _ => 0

/-- The number of current connections. -/
def State.current (s : State) : Nat :=
  s.conns.length + s.handed.length + (s.threads.map Pc.keeps).sum

/-- The bound that `m_maxSize` stands for. -/
def WithinSize (lim : Limits) (s : State) : Prop :=
  s.conns.length + s.handed.length ≤ lim.maxSize.toNat

instance (lim : Limits) (s : State) : Decidable (WithinSize lim s) :=
  inferInstanceAs (Decidable (_ ≤ _))

/-- A connection is made only while the pool has fewer than `m_maxSize`. -/
def MakesBelowSize (lim : Limits) (s : State) : Label → Prop
  | .move tid true => s.threads[tid]? = some .connect → s.current < lim.maxSize.toNat
  | _ => True

instance (lim : Limits) (s : State) (l : Label) : Decidable (MakesBelowSize lim s l) :=
  match l with
  | .move _ true => inferInstanceAs (Decidable (_ → _))
  | .move _ false | .getConnection _ | .drop _ _ | .use _ | .close _ | .tick _ => isTrue trivial

variable {lim : Limits} {s t : State} {tid : Nat} {pc : Pc}

/-- A thread's step changes the number of current connections by what it moves. -/
theorem current_move {conns handed deleted : List Nat} {made k : Nat} {total : Int32}
    {heap : Nat → HttpConnection} (hpc : s.threads[tid]? = some pc) {pc' : Pc}
    (hlen : conns.length + handed.length + pc'.keeps ≤
      s.conns.length + s.handed.length + pc.keeps + k) :
    ({ s with
      conns := conns, handed := handed, deleted := deleted, made := made, total := total,
      heap := heap }.goto tid pc').current ≤ s.current + k := by
  have hsum := sum_map_set_add Pc.keeps pc' hpc
  simp only [State.current, State.goto]
  omega

/-- Only a thread that makes a connection adds one. -/
theorem current_moves (hpc : s.threads[tid]? = some pc) {made : Bool}
    (hstep : s.moves lim tid made pc = some t) :
    t.current ≤ s.current + pc.makes made := by
  cases pc with
  | out => cases hstep
  | take now =>
      cases htake : takeIdle lim now s.heap s.conns with
      | mk invalid more =>
          obtain ⟨ptr, left⟩ := more
          have hsplit := congrArg List.length (takeIdle_spec lim now s.heap htake)
          simp only [State.moves, htake] at hstep
          cases hstep
          apply current_move hpc
          simp only [List.length_append] at hsplit
          simp only [Pc.keeps]
          omega
  | discard todo n ptr =>
      cases todo with
      | nil =>
          cases hstep
          apply current_move hpc
          cases ptr <;> exact Nat.le_refl _
      | cons c todo =>
          cases hstep
          exact current_move hpc (Nat.le_refl _)
  | connect =>
      cases made <;> cases hstep <;> exact current_move hpc (Nat.le_refl _)
  | count c | uncount =>
      cases hstep
      exact current_move hpc (Nat.le_refl _)
  | give c =>
      cases hstep
      apply current_move hpc
      simp only [List.length_cons, Pc.keeps, Pc.makes]
      omega
  | release c =>
      cases hstep
      apply current_move hpc
      split
      · exact Nat.le_add_right _ _
      · exact Nat.le_refl _
  | delete c =>
      cases hstep
      exact current_move hpc (Nat.le_refl _)
  | push c =>
      cases hstep
      apply current_move hpc
      simp only [List.length_append, List.length_singleton, Pc.keeps, Pc.makes]
      omega

theorem current_step {l : Label} (h : s.current ≤ lim.maxSize.toNat) (hl : MakesBelowSize lim s l)
    (hstep : step lim s l = some t) : t.current ≤ lim.maxSize.toNat := by
  cases l with
  | getConnection tid =>
      simp only [step] at hstep
      split at hstep
      · rename_i hpc
        cases hstep
        exact Nat.le_trans (current_move hpc (Nat.le_refl _)) h
      · cases hstep
  | drop tid c =>
      simp only [step] at hstep
      split at hstep
      · rename_i hpc
        split at hstep
        · rename_i hc
          cases hstep
          have hlen := List.length_erase_add_one hc
          refine Nat.le_trans (current_move hpc (k := 0) ?_) h
          simp only [Pc.keeps]
          omega
        · cases hstep
      · cases hstep
  | move tid made =>
      obtain ⟨pc, hpc, hmoves⟩ := Option.bind_eq_some_iff.mp hstep
      have hle := current_moves hpc hmoves
      by_cases hmakes : made = true ∧ pc = .connect
      · obtain ⟨rfl, rfl⟩ := hmakes
        have hlt := hl hpc
        simp only [Pc.makes, Bool.toNat_true] at hle
        omega
      · have hzero : pc.makes made = 0 := by
          cases pc <;> cases made <;> simp_all [Pc.makes]
        omega
  | use c =>
      simp only [step] at hstep
      split at hstep
      · cases hstep
        exact h
      · cases hstep
  | close c =>
      simp only [step] at hstep
      split at hstep
      · cases hstep
        exact h
      · cases hstep
  | tick now =>
      simp only [step] at hstep
      split at hstep
      · cases hstep
        exact h
      · cases hstep

/-- The pool stays within `m_maxSize` in every run that makes connections only while it has fewer. -/
theorem withinSize_of_makesBelowSize (lim : Limits) (threads : Nat) (now : UInt64)
    (ls : List Label) (h : StepsMeet (step lim) (MakesBelowSize lim) (init threads now) ls) :
    StatesMeet (step lim) (WithinSize lim) (init threads now) ls := by
  refine statesMeet_of_invariant (I := fun s => s.current ≤ lim.maxSize.toNat)
    (fun s hs => ?_) (fun s l t hs hl ht => current_step hs hl ht) ls _ ?_ h
  · exact Nat.le_trans (Nat.le_add_right _ _) hs
  · have hzero : (init threads now).current = 0 := by
      simp [State.current, init, Pc.keeps]
    rw [hzero]
    exact Nat.zero_le _

/-! What meets the condition: `getConnection` makes a connection only if no idle one is left, so a pool
with few users at a time makes few. -/

/-- A connection that the operation is on its way to make. -/
def Pc.wants : Pc → Nat
  | .discard _ _ none | .connect => 1
  | _ => 0

/-- The thread is inside `getConnection` or `ReleasePtr`. -/
def Pc.busy : Pc → Nat
  | .out => 0
  | _ => 1

/-- The outstanding handles and the calls under way. -/
def State.users (s : State) : Nat := s.handed.length + (s.threads.map Pc.busy).sum

/-- The current connections, with those that calls are on their way to make. -/
def State.claimed (s : State) : Nat := s.current + (s.threads.map Pc.wants).sum

/-- No more handles and calls at a time than `m_maxSize`. -/
def UsersWithin (lim : Limits) (s : State) : Prop := s.users ≤ lim.maxSize.toNat

theorem keeps_add_wants_le (pc : Pc) : pc.keeps + pc.wants ≤ pc.busy := by
  cases pc with
  | discard todo n ptr => cases ptr <;> exact Nat.le_refl _
  | out | take | connect | count | give | release | delete | uncount | push =>
      simp [Pc.keeps, Pc.wants, Pc.busy]

/-- With no idle connection, each that is claimed has a user. -/
theorem claimed_le_users (h : s.conns = []) : s.claimed ≤ s.users := by
  have hsum : (s.threads.map Pc.keeps).sum + (s.threads.map Pc.wants).sum ≤
      (s.threads.map Pc.busy).sum := by
    rw [← List.sum_map_add]
    exact List.sum_le_sum fun pc _ => keeps_add_wants_le pc
  rw [State.claimed, State.current, State.users, h, List.length_nil]
  omega

/-- A thread's step that claims no more than the thread did. -/
theorem claimed_move {conns handed deleted : List Nat} {made : Nat} {total : Int32}
    {heap : Nat → HttpConnection} (hpc : s.threads[tid]? = some pc) {pc' : Pc}
    (hlen : conns.length + handed.length + (pc'.keeps + pc'.wants) ≤
      s.conns.length + s.handed.length + (pc.keeps + pc.wants)) :
    ({ s with
      conns := conns, handed := handed, deleted := deleted, made := made, total := total,
      heap := heap }.goto tid pc').claimed ≤ s.claimed := by
  have hkeeps := sum_map_set_add Pc.keeps pc' hpc
  have hwants := sum_map_set_add Pc.wants pc' hpc
  simp only [State.claimed, State.current, State.goto]
  omega

/-- The loop over `m_conns` that finds nothing leaves nothing. -/
theorem takeIdle_none {now : UInt64} {heap : Nat → HttpConnection} : ∀ {conns invalid left : List Nat},
    takeIdle lim now heap conns = (invalid, none, left) → left = [] := by
  intro conns
  induction conns with
  | nil =>
      intro invalid left h
      cases h
      rfl
  | cons conn rest ih =>
      intro invalid left h
      cases hrest : takeIdle lim now heap rest with
      | mk invalid' more =>
          obtain ⟨ptr, left'⟩ := more
          simp only [takeIdle, hrest] at h
          split at h
          · cases h
            exact ih hrest
          · split at h
            · cases h
              exact ih hrest
            · cases h

theorem claimed_moves (hpc : s.threads[tid]? = some pc) {made : Bool}
    (h : s.claimed ≤ lim.maxSize.toNat) (husers : UsersWithin lim s)
    (hstep : s.moves lim tid made pc = some t) : t.claimed ≤ lim.maxSize.toNat := by
  cases pc with
  | out => cases hstep
  | take now =>
      cases htake : takeIdle lim now s.heap s.conns with
      | mk invalid more =>
          obtain ⟨ptr, left⟩ := more
          have hsplit := congrArg List.length (takeIdle_spec lim now s.heap htake)
          simp only [State.moves, htake] at hstep
          cases hstep
          cases ptr with
          | some c =>
              refine Nat.le_trans (claimed_move hpc ?_) h
              simp only [List.length_append, Option.toList_some, List.length_singleton] at hsplit
              simp only [Pc.keeps, Pc.wants, Option.toList_some, List.length_singleton]
              omega
          | none =>
              -- nothing is idle any more, and the number of users is as before
              refine (claimed_le_users (takeIdle_none htake)).trans ?_
              have hbusy := sum_map_set_add Pc.busy (.discard invalid invalid.length none) hpc
              simp only [UsersWithin, State.users] at husers
              simp only [State.users, State.goto]
              simp only [Pc.busy] at hbusy
              omega
  | discard todo n ptr =>
      cases todo with
      | nil =>
          cases hstep
          refine Nat.le_trans (claimed_move hpc ?_) h
          cases ptr <;> exact Nat.le_refl _
      | cons c todo =>
          cases hstep
          refine Nat.le_trans (claimed_move hpc ?_) h
          cases ptr <;> exact Nat.le_refl _
  | connect =>
      cases made with
      | false =>
          cases hstep
          exact Nat.le_trans (claimed_move hpc (Nat.le_add_right _ _)) h
      | true =>
          cases hstep
          exact Nat.le_trans (claimed_move hpc (Nat.le_refl _)) h
  | count c | uncount | delete c =>
      cases hstep
      exact Nat.le_trans (claimed_move hpc (Nat.le_refl _)) h
  | give c =>
      cases hstep
      refine Nat.le_trans (claimed_move hpc ?_) h
      simp only [List.length_cons, Pc.keeps, Pc.wants]
      omega
  | release c =>
      cases hstep
      refine Nat.le_trans (claimed_move hpc ?_) h
      split
      · exact Nat.le_add_right _ _
      · exact Nat.le_refl _
  | push c =>
      cases hstep
      refine Nat.le_trans (claimed_move hpc ?_) h
      simp only [List.length_append, List.length_singleton, Pc.keeps, Pc.wants]
      omega

theorem claimed_step {l : Label} (h : s.claimed ≤ lim.maxSize.toNat) (husers : UsersWithin lim s)
    (hstep : step lim s l = some t) : t.claimed ≤ lim.maxSize.toNat := by
  cases l with
  | getConnection tid =>
      simp only [step] at hstep
      split at hstep
      · rename_i hpc
        cases hstep
        exact Nat.le_trans (claimed_move hpc (Nat.le_refl _)) h
      · cases hstep
  | drop tid c =>
      simp only [step] at hstep
      split at hstep
      · rename_i hpc
        split at hstep
        · rename_i hc
          cases hstep
          have hlen := List.length_erase_add_one hc
          refine Nat.le_trans (claimed_move hpc ?_) h
          simp only [Pc.keeps, Pc.wants]
          omega
        · cases hstep
      · cases hstep
  | move tid made =>
      obtain ⟨pc, hpc, hmoves⟩ := Option.bind_eq_some_iff.mp hstep
      exact claimed_moves hpc h husers hmoves
  | use c | close c | tick now =>
      simp only [step] at hstep
      split at hstep
      · cases hstep
        exact h
      · cases hstep

/-- With at most `m_maxSize` handles and calls at a time, connections are made only below `m_maxSize`. -/
theorem makesBelowSize_of_users (lim : Limits) (threads : Nat) (now : UInt64) (ls : List Label)
    (h : StatesMeet (step lim) (UsersWithin lim) (init threads now) ls) :
    StepsMeet (step lim) (MakesBelowSize lim) (init threads now) ls := by
  refine stepsMeet_of_invariant (I := fun s => s.claimed ≤ lim.maxSize.toNat)
    (fun s l hs _ => ?_) (fun s l t hs husers ht => claimed_step hs husers ht) ls _ ?_
    (stepsMeet_of_states ls _ h)
  · cases l with
    | move tid made =>
        cases made with
        | false => trivial
        | true =>
            intro hpc
            have hwants : 1 ≤ (s.threads.map Pc.wants).sum :=
              List.single_le_sum (fun _ _ => Nat.zero_le _) 1
                (List.mem_map.mpr ⟨.connect, List.mem_of_getElem? hpc, rfl⟩)
            simp only [State.claimed] at hs
            omega
    | getConnection | drop | use | close | tick => trivial
  · have hzero : (init threads now).claimed = 0 := by
      simp [State.claimed, State.current, init, Pc.keeps, Pc.wants]
    rw [hzero]
    exact Nat.zero_le _

/-- One thread takes a connection and gives it back, and takes it again. -/
theorem withinSize_oneAtATime :
    StatesMeet (step ⟨1, 1000, 10⟩) (WithinSize ⟨1, 1000, 10⟩) (init 1 1000000)
      [.getConnection 0, .move 0 true, .move 0 true, .move 0 true, .move 0 true, .move 0 true,
        .drop 0 0, .move 0 true, .move 0 true,
        .getConnection 0, .move 0 true, .move 0 true, .move 0 true] :=
  withinSize_of_makesBelowSize _ _ _ _ (by decide)

/-- Two threads at once have two connections of a pool of one. -/
theorem size_exceeded :
    ¬ StatesMeet (step ⟨1, 1000, 10⟩) (WithinSize ⟨1, 1000, 10⟩) (init 2 1000000)
      [.getConnection 0, .move 0 true, .move 0 true, .move 0 true, .move 0 true, .move 0 true,
        .getConnection 1, .move 1 true, .move 1 true, .move 1 true, .move 1 true, .move 1 true] := by
  decide

/-! ## The age -/

/-- The connection was made more than `m_maxAliveTime` before `now`. -/
def Old (lim : Limits) (now : UInt64) (conn : HttpConnection) : Prop :=
  conn.born.toNat + lim.maxAliveTime.toNat < now.toNat

instance (lim : Limits) (now : UInt64) (conn : HttpConnection) : Decidable (Old lim now conn) :=
  inferInstanceAs (Decidable (_ < _))

/-- The connection is connected, younger than `m_maxAliveTime` at `now`, and has served fewer than
`m_maxRequest` requests. -/
def MayStay (lim : Limits) (now : UInt64) (conn : HttpConnection) : Prop :=
  conn.isConnected = true ∧ now.toNat < conn.born.toNat + lim.maxAliveTime.toNat ∧
    conn.request.toNat < lim.maxRequest.toNat

instance (lim : Limits) (now : UInt64) (conn : HttpConnection) : Decidable (MayStay lim now conn) :=
  inferInstanceAs (Decidable (_ ∧ _ ∧ _))

/-- What an operation decides about ages, by the time it has read: `getConnection` takes no old
connection to hand out, and neither operation discards one that may stay. -/
def Pc.JudgesByAge (lim : Limits) (s : State) : Pc → Prop
  | .take now =>
      (∀ c ∈ (takeIdle lim now s.heap s.conns).2.1, ¬ Old lim now (s.heap c)) ∧
      ∀ c ∈ (takeIdle lim now s.heap s.conns).1, ¬ MayStay lim now (s.heap c)
  | .release c =>
      expires lim s.clock (s.heap c).served = true → ¬ MayStay lim s.clock (s.heap c).served
  | _ => True

instance (lim : Limits) (s : State) (pc : Pc) : Decidable (pc.JudgesByAge lim s) :=
  match pc with
  | .take _ => inferInstanceAs (Decidable (_ ∧ _))
  | .release _ => inferInstanceAs (Decidable (_ → _))
  | .out | .discard _ _ _ | .connect | .count _ | .give _ | .delete _ | .uncount | .push _ =>
      isTrue trivial

/-- Each step of an operation judges by age. -/
def JudgesByAge (lim : Limits) (s : State) : Label → Prop
  | .move tid _ => ∀ pc ∈ s.threads[tid]?, pc.JudgesByAge lim s
  | _ => True

instance (lim : Limits) (s : State) (l : Label) : Decidable (JudgesByAge lim s l) :=
  match l with
  | .move _ _ => inferInstanceAs (Decidable (∀ pc ∈ _, Pc.JudgesByAge lim s pc))
  | .getConnection _ | .drop _ _ | .use _ | .close _ | .tick _ => isTrue trivial

/-- The first idle connection that is still connected was made at most `m_maxAliveTime` before
`now`, which is no earlier than `m_maxAliveTime`; a connection that comes back connected, with
requests left to serve, was made at least `m_maxAliveTime` ago, or the clock is past
`m_maxAliveTime`. -/
def Pc.AgesFit (lim : Limits) (s : State) : Pc → Prop
  | .take now =>
      ∀ c ∈ s.conns.find? (fun c => (s.heap c).isConnected),
        lim.maxAliveTime.toNat ≤ now.toNat ∧ ¬ Old lim now (s.heap c)
  | .release c =>
      (s.heap c).isConnected = true → (s.heap c).request.toNat + 1 < lim.maxRequest.toNat →
        lim.maxAliveTime.toNat < s.clock.toNat ∨
          (s.heap c).born.toNat + lim.maxAliveTime.toNat ≤ s.clock.toNat
  | _ => True

/-- The condition on a step. -/
def AgesFit (lim : Limits) (s : State) : Label → Prop
  | .move tid _ => ∀ pc ∈ s.threads[tid]?, pc.AgesFit lim s
  | _ => True

/-- Nothing sets `m_createTime`. -/
def Undated (s : State) : Prop := ∀ c, (s.heap c).createTime = 0

theorem undated_setConn {c : Nat} {conn : HttpConnection} (h : Undated s)
    (hconn : conn.createTime = 0) : Undated (s.setConn c conn) := by
  intro c'
  by_cases heq : c' = c
  · rw [State.setConn, heq]
    simpa using hconn
  · rw [State.setConn]
    simpa [heq] using h c'

theorem undated_moves (h : Undated s) {made : Bool} (hstep : s.moves lim tid made pc = some t) :
    Undated t := by
  cases pc with
  | out => cases hstep
  | discard todo n ptr =>
      cases todo <;> cases hstep <;> exact h
  | connect =>
      cases made with
      | false => cases hstep; exact h
      | true => cases hstep; exact undated_setConn h rfl
  | give c | release c =>
      cases hstep
      exact undated_setConn h (h c)
  | take now | count c | delete c | uncount | push c =>
      cases hstep
      exact h

theorem undated_step {l : Label} (h : Undated s) (hstep : step lim s l = some t) : Undated t := by
  cases l with
  | getConnection tid =>
      simp only [step] at hstep
      split at hstep <;> cases hstep
      exact h
  | drop tid c =>
      simp only [step] at hstep
      split at hstep
      · split at hstep <;> cases hstep
        exact h
      · cases hstep
  | move tid made =>
      obtain ⟨pc, -, hmoves⟩ := Option.bind_eq_some_iff.mp hstep
      exact undated_moves h hmoves
  | use c =>
      simp only [step] at hstep
      split at hstep <;> cases hstep
      exact h
  | close c =>
      simp only [step] at hstep
      split at hstep <;> cases hstep
      exact undated_setConn h (h c)
  | tick now =>
      simp only [step] at hstep
      split at hstep <;> cases hstep
      exact h

/-- The test of `getConnection`: with no date it is about the clock alone. -/
theorem createTime_add_gt_iff {conn : HttpConnection} (h : conn.createTime = 0) (now : UInt64) :
    conn.createTime + lim.maxAliveTime.toUInt64 > now ↔ now.toNat < lim.maxAliveTime.toNat := by
  rw [h, UInt64.zero_add, gt_iff_lt, UInt64.lt_iff_toNat_lt, UInt32.toNat_toUInt64]

/-- Past `m_maxAliveTime` the loop discards what is not connected and takes the first that is. -/
theorem takeIdle_of_late {now : UInt64} (h : Undated s)
    (hlate : lim.maxAliveTime.toNat ≤ now.toNat) : ∀ conns : List Nat,
    (∀ c ∈ (takeIdle lim now s.heap conns).1, (s.heap c).isConnected = false) ∧
    (takeIdle lim now s.heap conns).2.1 = conns.find? fun c => (s.heap c).isConnected := by
  intro conns
  induction conns with
  | nil => simp [takeIdle]
  | cons conn rest ih =>
      have hage : ¬ (s.heap conn).createTime + lim.maxAliveTime.toUInt64 > now := by
        rw [createTime_add_gt_iff (h conn)]
        omega
      cases hconnected : (s.heap conn).isConnected with
      | false => simpa [takeIdle, hconnected] using ih
      | true =>
          rw [takeIdle, hconnected, if_neg (by simp), if_neg hage]
          simp [hconnected]

/-- Before that it discards everything. -/
theorem takeIdle_of_early {now : UInt64} (h : Undated s)
    (hearly : now.toNat < lim.maxAliveTime.toNat) : ∀ conns : List Nat,
    takeIdle lim now s.heap conns = (conns, none, []) := by
  intro conns
  induction conns with
  | nil => rfl
  | cons conn rest ih =>
      have hage : (s.heap conn).createTime + lim.maxAliveTime.toUInt64 > now :=
        (createTime_add_gt_iff (h conn) now).mpr hearly
      simp [takeIdle, ih, hage]

theorem judges_take_iff {now : UInt64} (h : Undated s) (hserved : Served lim s) :
    ((∀ c ∈ (takeIdle lim now s.heap s.conns).2.1, ¬ Old lim now (s.heap c)) ∧
      ∀ c ∈ (takeIdle lim now s.heap s.conns).1, ¬ MayStay lim now (s.heap c)) ↔
    ∀ c ∈ s.conns.find? (fun c => (s.heap c).isConnected),
      lim.maxAliveTime.toNat ≤ now.toNat ∧ ¬ Old lim now (s.heap c) := by
  by_cases hlate : lim.maxAliveTime.toNat ≤ now.toNat
  · obtain ⟨hinvalid, hptr⟩ := takeIdle_of_late h hlate s.conns
    rw [hptr]
    constructor
    · intro hjudges c hc
      exact ⟨hlate, hjudges.1 c hc⟩
    · intro hfit
      refine ⟨fun c hc => (hfit c hc).2, fun c hc hstay => ?_⟩
      have hconnected := hinvalid c hc
      rw [hstay.1] at hconnected
      cases hconnected
  · rw [takeIdle_of_early h (by omega)]
    constructor
    · intro hjudges c hc
      have hmem := List.mem_of_find?_eq_some hc
      have hconnected : (s.heap c).isConnected = true := by
        simpa using List.find?_some (Option.mem_def.mp hc)
      refine absurd ⟨hconnected, ?_, (hserved.idle c hmem).2⟩ (hjudges.2 c hmem)
      omega
    · intro hfit
      refine ⟨nofun, fun c hc hstay => ?_⟩
      cases hfind : s.conns.find? fun c => (s.heap c).isConnected with
      | none => simpa [hstay.1] using List.find?_eq_none.mp hfind c hc
      | some c' => exact hlate (hfit c' hfind).1

theorem judges_release_iff {c : Nat} (h : Undated s) (hserved : Pending lim 1 (s.heap c)) :
    (expires lim s.clock (s.heap c).served = true → ¬ MayStay lim s.clock (s.heap c).served) ↔
    ((s.heap c).isConnected = true → (s.heap c).request.toNat + 1 < lim.maxRequest.toNat →
      lim.maxAliveTime.toNat < s.clock.toNat ∨
        (s.heap c).born.toNat + lim.maxAliveTime.toNat ≤ s.clock.toNat) := by
  have hrequest := served_request hserved
  have hage : (s.heap c).served.createTime + lim.maxAliveTime.toUInt64 ≥ s.clock ↔
      s.clock.toNat ≤ lim.maxAliveTime.toNat := by
    have hzero : (s.heap c).served.createTime = 0 := h c
    rw [hzero, UInt64.zero_add, ge_iff_le, UInt64.le_iff_toNat_le, UInt32.toNat_toUInt64]
  have hcount : (s.heap c).served.request ≥ lim.maxRequest.toUInt64 ↔
      lim.maxRequest.toNat ≤ (s.heap c).request.toNat + 1 := by
    rw [ge_iff_le, UInt64.le_iff_toNat_le, UInt32.toNat_toUInt64, hrequest]
  have hconnected : (s.heap c).served.isConnected = (s.heap c).isConnected := rfl
  have hborn : (s.heap c).served.born = (s.heap c).born := rfl
  simp only [expires, MayStay, Bool.or_eq_true, Bool.not_eq_true', decide_eq_true_eq, hage, hcount,
    hrequest, hconnected, hborn]
  constructor
  · intro hjudges hup hleft
    by_contra hnot
    rw [not_or] at hnot
    exact hjudges (Or.inl (Or.inr (by omega))) ⟨hup, by omega, hleft⟩
  · rintro hfit ((hdown | hearly) | hdone) ⟨hup, hyoung, hleft⟩
    · rw [hup] at hdown
      cases hdown
    · rcases hfit hup hleft with hlate | hold <;> omega
    · omega

theorem judges_iff {l : Label} (h : Undated s) (hserved : Served lim s) :
    JudgesByAge lim s l ↔ AgesFit lim s l := by
  cases l with
  | getConnection tid | drop tid c | use c | close c | tick now => exact Iff.rfl
  | move tid made =>
      refine forall_congr' fun pc => forall_congr' fun hpc => ?_
      cases pc with
      | take now => exact judges_take_iff h hserved
      | release c => exact judges_release_iff h (hserved.knows _ (List.mem_of_getElem? hpc))
      | out | discard todo n ptr | connect | count c | give c | delete c | uncount | push c =>
          exact Iff.rfl

/-- In every run the connections live as configured exactly as long as the ages fit. -/
theorem judgesByAge_iff_agesFit (lim : Limits) (threads : Nat) (now : UInt64) (ls : List Label) :
    StepsMeet (step lim) (JudgesByAge lim) (init threads now) ls ↔
      StepsMeet (step lim) (AgesFit lim) (init threads now) ls := by
  refine stepsMeet_congr_of_invariant (I := fun s => Counted s ∧ Served lim s ∧ Undated s)
    (fun s l t h _ ht => ?_) (fun s l h => judges_iff h.2.2 h.2.1) ls _ ?_
  · exact ⟨counted_step h.1 ht, served_step h.2.1 h.1 ht, undated_step h.2.2 ht⟩
  · exact ⟨counted_init threads now, served_init threads now, fun c => rfl⟩

/-- A connection is handed out again 5000 ms after it was made, where 1000 ms are allowed. -/
theorem old_connection_handed_out :
    ¬ StepsMeet (step ⟨10, 1000, 10⟩) (JudgesByAge ⟨10, 1000, 10⟩) (init 1 1000000)
      [.getConnection 0, .move 0 true, .move 0 true, .move 0 true, .move 0 true, .move 0 true,
        .drop 0 0, .move 0 true, .move 0 true, .tick 1005000,
        .getConnection 0, .move 0 true] := by
  decide

end Pool

end Http

end Saturn
