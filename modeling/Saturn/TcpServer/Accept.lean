import Mathlib.Data.List.Perm.Basic
import Mathlib.Data.List.Range
import Saturn.Misc.Run
import Saturn.TcpServer.Bind

/-!
# The accept loops of `TcpServer`

`start` and `stop` schedule tasks on the accept worker: a loop of `startAccept` for each listener, and
the task that closes the listeners. The threads of the workers run the tasks and the loops in any
order; `m_isStop` is all that the loops look at. A call of `bind` that fails drops all listeners, but
the loops have references to theirs and go on.
-/

namespace Saturn

namespace TcpServer

/-- A server with its tasks. Listeners are numbered, and clients in the order in which `accept` returns
them. -/
structure Server where
  /-- `m_socks` -/
  socks : List Nat
  /-- `m_isStop` -/
  isStop : Bool
  /-- The listeners that `stop` has closed. -/
  closed : List Nat
  /-- The tasks `startAccept` and `stop` that the accept worker has not begun. -/
  starts : List Nat
  stops : Nat
  /-- The loops of `startAccept` in front of `while(!m_isStop)`, those in `accept`, and those that have
  a client in hand. -/
  heads : List Nat
  waiting : List Nat
  holding : List (Nat × Nat)
  /-- How many clients `accept` has returned, the tasks `handleClient` in the queue of the worker, and
  the clients of those that it has begun. -/
  accepted : Nat
  scheduled : List Nat
  handled : List Nat
  deriving Repr, DecidableEq

namespace Server

/-- The steps of the callers and of the threads of both workers. -/
inductive Label
  /-- `bind(addrs, fails)` -/
  | bind (addrs : List (Attempt Nat Nat)) (fails : List Nat)
  | start
  | stop
  | runStart (sock : Nat)
  | runStop
  /-- `while(!m_isStop)` -/
  | check (sock : Nat)
  /-- `sock->accept()` returns, with a client or without one. -/
  | accept (sock : Nat) (client : Bool)
  /-- `m_worker->schedule`, by the loop at this place of those with a client. -/
  | schedule (place : Nat)
  /-- The worker takes the task at this place of its queue. -/
  | handle (place : Nat)
  deriving Repr, DecidableEq

/-- `TcpServer::TcpServer` -/
def new : Server := ⟨[], true, [], [], 0, [], [], [], 0, [], []⟩

/-- The loops and those to come. -/
def loops (s : Server) : List Nat :=
  s.starts ++ (s.heads ++ (s.waiting ++ s.holding.map Prod.fst))

/-- The sockets that `bind` creates are new. -/
def Fresh (s : Server) (addrs : List (Attempt Nat Nat)) : Prop :=
  ∀ t ∈ addrs, t.sock ∉ s.socks ++ (s.closed ++ s.loops)

instance (s : Server) (addrs : List (Attempt Nat Nat)) : Decidable (s.Fresh addrs) :=
  inferInstanceAs (Decidable (∀ t ∈ addrs, t.sock ∉ s.socks ++ (s.closed ++ s.loops)))

/-- One step of a caller or of a worker's thread. -/
def step (s : Server) : Label → Option Server
  | .bind addrs fails =>
    if s.Fresh addrs then some { s with socks := (TcpServer.bind s.socks addrs fails).socks }
    else none
  | .start =>
    if !s.isStop then some s else some { s with isStop := false, starts := s.starts ++ s.socks }
  | .stop => some { s with isStop := true, stops := s.stops + 1 }
  | .runStart sock =>
    if sock ∈ s.starts then
      some { s with starts := s.starts.erase sock, heads := sock :: s.heads }
    else none
  | .runStop =>
    if s.stops = 0 then none
    else some { s with stops := s.stops - 1, closed := s.closed ++ s.socks, socks := [] }
  | .check sock =>
    if sock ∈ s.heads then
      if s.isStop then some { s with heads := s.heads.erase sock }
      else some { s with heads := s.heads.erase sock, waiting := sock :: s.waiting }
    else none
  | .accept sock client =>
    if sock ∈ s.waiting then
      let s := { s with waiting := s.waiting.erase sock }
      if client then
        some { s with accepted := s.accepted + 1, holding := s.holding ++ [(sock, s.accepted)] }
      else some { s with heads := sock :: s.heads }
    else none
  | .schedule place =>
    match s.holding[place]? with
    | some (sock, client) =>
      some { s with holding := s.holding.eraseIdx place, heads := sock :: s.heads
                    scheduled := s.scheduled ++ [client] }
    | none => none
  | .handle place =>
    match s.scheduled[place]? with
    | some client =>
      some { s with scheduled := s.scheduled.eraseIdx place, handled := s.handled ++ [client] }
    | none => none

/-- Every client that is accepted is once in the hand of a loop, in a task of the worker, or in one
that the worker has begun. -/
def EachOnce (s : Server) : Prop :=
  (s.holding.map Prod.snd ++ (s.scheduled ++ s.handled)).Perm (List.range s.accepted)

/-- The clients that are accepted, with those that the loops in `accept` may still get. -/
def taken (s : Server) : Nat := s.accepted + s.waiting.length

/-- While the server is not stopped, no loop, begun or to come, is on a closed listener. -/
def NoSpin (s : Server) : Prop := s.isStop = false → ∀ k ∈ s.loops, k ∉ s.closed

/-- `start` is not called while there is a loop on a closed listener, and the task of `stop` does not
run in a server that has been started again and has loops on its listeners. -/
def NoRace (s : Server) : Label → Prop
  | .start => s.isStop = true → ∀ k ∈ s.loops, k ∉ s.closed
  | .runStop => s.isStop = false → ∀ k ∈ s.loops, k ∉ s.socks
  | _ => True

instance (s : Server) : (l : Label) → Decidable (s.NoRace l)
  | .start => inferInstanceAs (Decidable (_ → _))
  | .runStop => inferInstanceAs (Decidable (_ → _))
  | .bind .. | .stop | .runStart _ | .check _ | .accept .. | .schedule _ | .handle _ => isTrue trivial

/-- The listeners of the server are open. -/
def Listens (s : Server) : Prop := ∀ k ∈ s.socks, k ∉ s.closed

/-- A loop on listener `k` that goes round once: `accept` returns without a client. -/
def round (k : Nat) : List Label := [.check k, .accept k false]

/-- A loop on a closed listener can go round any number of times, and nobody stops the server. -/
def Spins (s : Server) : Prop :=
  ∃ k ∈ s.closed, ∃ before, ∀ n, ∃ t,
    run step s (before ++ (List.replicate n (round k)).flatten) = some t ∧ t.isStop = false

section Steps

variable {s t : Server} {l : Label}

/-- The listeners behind a call of `bind` are old or new ones. -/
theorem mem_bind {k : Nat} {addrs : List (Attempt Nat Nat)} {fails : List Nat}
    (h : k ∈ (TcpServer.bind s.socks addrs fails).socks) :
    k ∈ s.socks ∨ ∃ t ∈ addrs, t.sock = k := by
  rw [bind_eq] at h
  split at h
  · refine (List.mem_append.mp h).imp_right fun hmem => ?_
    obtain ⟨t, ht, rfl⟩ := List.mem_map.mp hmem
    exact ⟨t, (List.mem_filter.mp ht).1, rfl⟩
  · exact absurd h List.not_mem_nil

/-- What a step does to the loops and the listeners. -/
theorem step_cases (h : step s l = some t) :
    (∃ addrs fails, l = .bind addrs fails ∧ s.Fresh addrs ∧
      t = { s with socks := (TcpServer.bind s.socks addrs fails).socks }) ∨
    (l = .start ∧ s.isStop = false ∧ t = s) ∨
    (l = .start ∧ s.isStop = true ∧ t = { s with isStop := false, starts := s.starts ++ s.socks }) ∨
    (l = .stop ∧ t = { s with isStop := true, stops := s.stops + 1 }) ∨
    (l = .runStop ∧
      t = { s with stops := s.stops - 1, closed := s.closed ++ s.socks, socks := [] }) ∨
    (l ≠ .start ∧ l ≠ .stop ∧ l ≠ .runStop ∧ t.isStop = s.isStop ∧ t.closed = s.closed ∧
      t.socks = s.socks ∧ ∀ k ∈ t.loops, k ∈ s.loops) := by
  cases l with
  | bind addrs fails =>
      simp only [step, Option.ite_none_right_eq_some, Option.some.injEq] at h
      exact Or.inl ⟨addrs, fails, rfl, h.1, h.2.symm⟩
  | start =>
      simp only [step] at h
      cases hs : s.isStop with
      | false => simp_all
      | true => simp_all
  | stop =>
      simp only [step, Option.some.injEq] at h
      simp [h.symm]
  | runStop =>
      simp only [step, Option.ite_none_left_eq_some, Option.some.injEq] at h
      simp [h.2.symm]
  | runStart sock =>
      simp only [step, Option.ite_none_right_eq_some, Option.some.injEq] at h
      obtain ⟨hmem, rfl⟩ := h
      simp only [loops, List.mem_append, List.mem_cons]
      have herase : ∀ k ∈ s.starts.erase sock, k ∈ s.starts := fun k => List.mem_of_mem_erase
      grind
  | check sock =>
      simp only [step, Option.ite_none_right_eq_some] at h
      obtain ⟨hmem, h⟩ := h
      have herase : ∀ k ∈ s.heads.erase sock, k ∈ s.heads := fun k => List.mem_of_mem_erase
      split at h <;> cases h <;> simp only [loops, List.mem_append, List.mem_cons] <;> grind
  | accept sock client =>
      simp only [step, Option.ite_none_right_eq_some] at h
      obtain ⟨hmem, h⟩ := h
      have herase : ∀ k ∈ s.waiting.erase sock, k ∈ s.waiting := fun k => List.mem_of_mem_erase
      split at h <;> cases h <;> simp only [loops, List.mem_append, List.mem_cons] <;> grind
  | schedule place =>
      simp only [step] at h
      split at h
      · rename_i sock client hclient
        cases h
        have hsock : sock ∈ s.holding.map Prod.fst :=
          List.mem_map.mpr ⟨(sock, client), List.mem_of_getElem? hclient, rfl⟩
        have herase : ∀ k ∈ (s.holding.eraseIdx place).map Prod.fst, k ∈ s.holding.map Prod.fst :=
          fun k hk => ((List.eraseIdx_sublist _ _).map Prod.fst).subset hk
        simp only [loops, List.mem_append, List.mem_cons]
        grind
      · cases h
  | handle place =>
      simp only [step] at h
      split at h <;> cases h
      simp only [loops]
      grind

/-- The entry at a place of a list, and the rest. -/
theorem perm_eraseIdx {α : Type} {xs : List α} {place : Nat} {x : α} (h : xs[place]? = some x) :
    xs.Perm (x :: xs.eraseIdx place) := by
  obtain ⟨hlt, rfl⟩ := List.getElem?_eq_some_iff.mp h
  exact (List.getElem_cons_eraseIdx_perm hlt).symm

theorem eachOnce_step (h : EachOnce s) (hstep : step s l = some t) : EachOnce t := by
  cases l with
  | accept sock client =>
      simp only [step, Option.ite_none_right_eq_some] at hstep
      obtain ⟨-, hstep⟩ := hstep
      split at hstep <;> cases hstep
      · -- the new client is the last of those in hand
        simp only [EachOnce, List.map_append, List.map_cons, List.map_nil, List.range_succ]
        refine (List.perm_append_comm.append_right _).trans ?_
        rw [List.append_assoc]
        exact List.perm_append_comm.trans (h.append_right _)
      · exact h
  | schedule place =>
      simp only [step] at hstep
      split at hstep
      · rename_i sock client hclient
        cases hstep
        have hheld : (s.holding.map Prod.snd).Perm
            (client :: (s.holding.eraseIdx place).map Prod.snd) :=
          (perm_eraseIdx hclient).map Prod.snd
        refine List.Perm.trans ?_ ((hheld.append_right _).symm.trans h)
        rw [List.append_assoc, List.singleton_append, List.cons_append]
        rw [← List.append_assoc, ← List.append_assoc]
        exact List.perm_middle
      · cases hstep
  | handle place =>
      simp only [step] at hstep
      split at hstep
      · rename_i client hclient
        cases hstep
        refine List.Perm.trans (List.Perm.append_left _ ?_) h
        rw [← List.append_assoc]
        refine List.perm_append_comm.trans ?_
        exact (perm_eraseIdx hclient).symm.append_right s.handled
      · cases hstep
  | start =>
      simp only [step] at hstep
      split at hstep <;> cases hstep <;> exact h
  | stop =>
      cases hstep
      exact h
  | runStop =>
      simp only [step, Option.ite_none_left_eq_some, Option.some.injEq] at hstep
      obtain ⟨-, rfl⟩ := hstep
      exact h
  | bind | runStart =>
      simp only [step, Option.ite_none_right_eq_some, Option.some.injEq] at hstep
      obtain ⟨-, rfl⟩ := hstep
      exact h
  | check =>
      simp only [step, Option.ite_none_right_eq_some] at hstep
      obtain ⟨-, hstep⟩ := hstep
      split at hstep <;> cases hstep <;> exact h

/-- In a server that is stopped no loop comes to `accept`. -/
theorem taken_step (hstop : s.isStop = true) (hl : l ≠ .start) (hstep : step s l = some t) :
    t.isStop = true ∧ t.taken ≤ s.taken := by
  cases l with
  | start => exact absurd rfl hl
  | accept sock client =>
      simp only [step, Option.ite_none_right_eq_some] at hstep
      obtain ⟨hmem, hstep⟩ := hstep
      have hlength : (s.waiting.erase sock).length + 1 = s.waiting.length := by
        rw [List.length_erase_of_mem hmem]
        have := List.length_pos_of_mem hmem
        omega
      split at hstep <;> cases hstep
      · exact ⟨hstop, by simp only [taken]; omega⟩
      · exact ⟨hstop, by simp only [taken]; omega⟩
  | check =>
      simp only [step, Option.ite_none_right_eq_some] at hstep
      obtain ⟨-, hstep⟩ := hstep
      rw [if_pos hstop] at hstep
      cases hstep
      exact ⟨hstop, le_refl _⟩
  | stop =>
      cases hstep
      exact ⟨rfl, le_refl _⟩
  | runStop =>
      simp only [step, Option.ite_none_left_eq_some, Option.some.injEq] at hstep
      obtain ⟨-, rfl⟩ := hstep
      exact ⟨hstop, le_refl _⟩
  | bind | runStart =>
      simp only [step, Option.ite_none_right_eq_some, Option.some.injEq] at hstep
      obtain ⟨-, rfl⟩ := hstep
      exact ⟨hstop, le_refl _⟩
  | schedule | handle =>
      simp only [step] at hstep
      split at hstep <;> cases hstep
      exact ⟨hstop, le_refl _⟩

theorem listens_step (h : Listens s) (hstep : step s l = some t) : Listens t := by
  obtain ⟨addrs, fails, -, hfresh, rfl⟩ | ⟨-, -, rfl⟩ | ⟨-, -, rfl⟩ | ⟨-, rfl⟩ | ⟨-, rfl⟩ |
    ⟨-, -, -, -, hclosed, hsocks, -⟩ := step_cases hstep
  · intro k hk
    rcases mem_bind hk with hk | ⟨t, ht, rfl⟩
    · exact h k hk
    · exact fun hmem => hfresh t ht (List.mem_append_right _ (List.mem_append_left _ hmem))
  · exact h
  · exact h
  · exact h
  · exact fun k hk => absurd hk List.not_mem_nil
  · intro k hk
    rw [hclosed]
    exact h k (hsocks ▸ hk)

theorem noSpin_step (hlistens : Listens s) (h : NoSpin s) (hl : s.NoRace l)
    (hstep : step s l = some t) : NoSpin t := by
  obtain ⟨addrs, fails, -, -, rfl⟩ | ⟨-, -, rfl⟩ | ⟨rfl, hs, rfl⟩ | ⟨-, rfl⟩ | ⟨rfl, rfl⟩ |
    ⟨-, -, -, hstop, hclosed, -, hloops⟩ := step_cases hstep
  · exact h
  · exact h
  · intro _ k hk
    simp only [loops, List.mem_append] at hk
    rcases hk with (hk | hk) | hk
    · exact hl hs k (List.mem_append_left _ hk)
    · exact hlistens k hk
    · exact hl hs k (List.mem_append_right _ (by simpa only [List.mem_append] using hk))
  · intro hs
    cases hs
  · intro hs k hk hmem
    rcases List.mem_append.mp hmem with hmem | hmem
    · exact h hs k hk hmem
    · exact hl hs k hk hmem
  · intro hs k hk
    rw [hclosed]
    exact h (hstop ▸ hs) k (hloops k hk)

theorem not_noSpin_step (hl : ¬s.NoRace l) (hstep : step s l = some t) : ¬NoSpin t := by
  intro h
  cases l with
  | start =>
      refine hl fun hs k hk => ?_
      simp only [step, hs, Bool.not_true, Bool.false_eq_true, ↓reduceIte, Option.some.injEq] at hstep
      subst hstep
      refine h rfl k ?_
      simp only [loops, List.mem_append] at hk ⊢
      exact hk.imp_left Or.inl
  | runStop =>
      refine hl fun hs k hk hmem => ?_
      simp only [step, Option.ite_none_left_eq_some, Option.some.injEq] at hstep
      obtain ⟨-, rfl⟩ := hstep
      exact h hs k hk (List.mem_append_right _ hmem)
  | bind | stop | runStart | check | accept | schedule | handle => exact hl trivial

/-- A loop goes round as often as the server is not stopped. -/
theorem run_rounds {k : Nat} (hs : s.isStop = false) (n : Nat) (hk : k ∈ s.heads) :
    ∃ t, run step s (List.replicate n (round k)).flatten = some t ∧ t.isStop = false := by
  induction n generalizing s with
  | zero => exact ⟨s, rfl, hs⟩
  | succ n ih =>
      have hround : run step s (round k) = some { s with heads := k :: s.heads.erase k } := by
        simp [round, run_cons, step, hk, hs]
      obtain ⟨t, ht, hstop⟩ := ih (s := { s with heads := k :: s.heads.erase k }) hs
        List.mem_cons_self
      refine ⟨t, ?_, hstop⟩
      rw [List.replicate_succ, List.flatten_cons, run_append, hround]
      exact ht

/-- A loop that is not in front of `while(!m_isStop)` comes there. -/
theorem exists_head {k : Nat} (hk : k ∈ s.loops) :
    ∃ before t, run step s before = some t ∧ t.isStop = s.isStop ∧ k ∈ t.heads := by
  simp only [loops, List.mem_append] at hk
  rcases hk with hk | hk | hk | hk
  · refine ⟨[.runStart k], { s with starts := s.starts.erase k, heads := k :: s.heads }, ?_, rfl,
      List.mem_cons_self⟩
    simp [run_cons, step, hk]
  · exact ⟨[], s, rfl, rfl, hk⟩
  · refine ⟨[.accept k false], { s with waiting := s.waiting.erase k, heads := k :: s.heads }, ?_,
      rfl, List.mem_cons_self⟩
    simp [run_cons, step, hk]
  · obtain ⟨⟨sock, client⟩, hmem, rfl⟩ := List.mem_map.mp hk
    obtain ⟨place, hlt, hplace⟩ := List.mem_iff_getElem.mp hmem
    refine ⟨[.schedule place], { s with
      holding := s.holding.eraseIdx place, heads := sock :: s.heads
      scheduled := s.scheduled ++ [client] }, ?_, rfl, List.mem_cons_self⟩
    simp [run_cons, step, List.getElem?_eq_getElem hlt, hplace]

theorem spins_of_not_noSpin (h : ¬NoSpin s) : Spins s := by
  simp only [NoSpin, not_forall, not_not] at h
  obtain ⟨hs, k, hk, hclosed⟩ := h
  obtain ⟨before, t, hbefore, hstop, hhead⟩ := exists_head hk
  refine ⟨k, hclosed, before, fun n => ?_⟩
  obtain ⟨u, hu, hustop⟩ := run_rounds (hstop.trans hs) n hhead
  exact ⟨u, by rw [run_append, hbefore]; exact hu, hustop⟩

end Steps

/-- In every interleaving each client is with its loop, scheduled or handled, once. From a state in
which the server is stopped, up to the next `start`, the loops in `accept` take one client each at
most. -/
theorem accepted_once (labels : List Label) :
    StatesMeet step EachOnce new labels ∧
      ∀ (s t : Server) (later : List Label), run step new labels = some s → s.isStop = true →
        Label.start ∉ later → run step s later = some t →
        t.accepted ≤ s.accepted + s.waiting.length := by
  constructor
  · exact statesMeet_of_invariant (I := EachOnce) (fun _ h => h)
      (fun s l t hs _ hstep => eachOnce_step hs hstep) labels new (List.Perm.refl _)
      (stepsMeet_true _ _)
  · intro s t later _ hstop hlater ht
    have hinv : t.isStop = true ∧ t.taken ≤ s.taken :=
      run_invariant (I := fun u => u.isStop = true ∧ u.taken ≤ s.taken) (C := fun _ l => l ≠ .start)
        (fun u l v hu hl hstep =>
          (taken_step hu.1 hl hstep).imp_right fun hle => hle.trans hu.2)
        later s t ⟨hstop, le_refl _⟩
        (stepsMeet_of_forall_mem s fun l hl _ hstart => hlater (hstart ▸ hl)) ht
    exact (Nat.le_add_right _ _).trans hinv.2

/-- A server with one listener whose loop is in `accept` when `stop` is called. -/
def stopping : List Label :=
  [.bind [⟨80, 1, true, true⟩] [], .start, .runStart 1, .check 1, .stop]

/-- The loop gets a client, schedules it and ends, and the worker takes the client. -/
def lastClient : List Label :=
  [.accept 1 true, .schedule 0, .runStop, .check 1, .handle 0]

theorem accepted_once_stopping :
    StatesMeet step EachOnce new (stopping ++ lastClient) ∧
      ∃ s t, run step new stopping = some s ∧ run step s lastClient = some t ∧ t.handled = [0] ∧
        t.accepted ≤ s.accepted + s.waiting.length := by
  refine ⟨(accepted_once _).1, ⟨[1], true, [], [], 1, [], [1], [], 0, [], []⟩,
    ⟨[], true, [1], [], 0, [], [], [], 1, [], [0]⟩, by decide, by decide, rfl, ?_⟩
  exact (accepted_once stopping).2 _ _ lastClient (by decide) rfl (by decide) (by decide)

/-- While the server is not stopped its loops, begun or to come, are on open listeners, in every state
of a run, if and only if the run is without the two races. A loop that a race leaves on a closed
listener can go round for ever. -/
theorem noSpin_run_iff (labels : List Label) (hrun : (run step new labels).isSome) :
    (StatesMeet step NoSpin new labels ↔ StepsMeet step NoRace new labels) ∧
      StatesMeet step (fun s => NoSpin s ∨ Spins s) new labels := by
  have hlistens : Listens new := fun k hk => absurd hk List.not_mem_nil
  have hnoSpin : NoSpin new := fun hs => nomatch hs
  refine ⟨⟨fun h => ?_, fun h => ?_⟩, ?_⟩
  · exact stepsMeet_of_statesMeet (I := fun _ => True) (fun _ _ _ _ _ _ => trivial)
      (fun _ _ _ _ hl hstep => not_noSpin_step hl hstep) labels new trivial hrun h
  · exact statesMeet_of_invariant (I := fun s => Listens s ∧ NoSpin s) (fun _ hs => hs.2)
      (fun _ _ _ hs hl hstep => ⟨listens_step hs.1 hstep, noSpin_step hs.1 hs.2 hl hstep⟩) labels new
      ⟨hlistens, hnoSpin⟩ h
  · refine statesMeet_of_invariant (I := fun _ => True) (fun s _ => ?_) (fun _ _ _ _ _ _ => trivial)
      labels new trivial (stepsMeet_true _ _)
    exact (em (NoSpin s)).imp_right spins_of_not_noSpin

/-- The task of the first `stop` runs behind the second `start`. -/
def hastyRestart : List Label := stopping ++ [.start, .runStop]

/-- The second `start` waits for the task of `stop` and for the loop to end. -/
def restart : List Label :=
  stopping ++ [.runStop, .accept 1 false, .check 1, .bind [⟨80, 2, true, true⟩] [], .start, .runStart 2]

theorem noSpin_run_iff_restart :
    ¬StatesMeet step NoSpin new hastyRestart ∧ StatesMeet step NoSpin new restart := by
  constructor
  · exact fun h => absurd ((noSpin_run_iff hastyRestart (by decide)).1.mp h) (by decide)
  · exact (noSpin_run_iff restart (by decide)).1.mpr (by decide)

end Server

end TcpServer

end Saturn
