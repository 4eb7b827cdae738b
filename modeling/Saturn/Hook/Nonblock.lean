import Saturn.Hook.Contexts

/-!
# `O_NONBLOCK` underneath the hooks

The kernel's `O_NONBLOCK` of a socket with a context stays set, while the program is shown what it
asked for. `F_SETFL` and `F_GETFL` translate between the two; `FIONBIO` passes the program's value on
to the kernel, and zero clears the flag there.
-/

namespace Saturn

namespace Hook

/-- For every descriptor with a context the kernel has `O_NONBLOCK` set, and `F_GETFL` reports the
kernel's flags with `O_NONBLOCK` as the program last asked for it. -/
def StaysNonblock (s : Process) : Prop :=
  ∀ fd ctx, s.get fd = some ctx →
    isNonblock (s.kernelGetfl fd) = true ∧
      s.getfl fd = if s.asked fd then s.kernelGetfl fd ||| O_NONBLOCK
        else s.kernelGetfl fd &&& ~~~O_NONBLOCK

/-- No `FIONBIO` with value zero succeeds on a descriptor that has a context. -/
def KeepsNonblock (s : Process) : Call → Prop
  | .fionbio d value ok => value = 0 → ok = true → s.get d = none
  | _ => True

variable {s : Process}

instance (s : Process) : (c : Call) → Decidable (KeepsNonblock s c)
  | .fionbio d value ok => inferInstanceAs (Decidable (value = 0 → ok = true → s.get d = none))
  | .socket .. | .accept .. | .close .. | .setsockopt .. | .setfl .. | .getfl .. => isTrue trivial

/-- What `F_GETFL` reports is right whatever the kernel's flags are. -/
theorem Tracked.getfl_eq (h : Tracked s) {fd : Int} {ctx : FdContext} (hget : s.get fd = some ctx) :
    s.getfl fd = if s.asked fd then s.kernelGetfl fd ||| O_NONBLOCK
      else s.kernelGetfl fd &&& ~~~O_NONBLOCK := by
  rw [Process.getfl, h.hasSocketContext, hget, ← (h.tracked fd ctx hget).2]

theorem kernelGetfl_of_some {fd : Int} {file : File} (h : s.kernel fd = some file) :
    s.kernelGetfl fd = file.flags := by
  rw [Process.kernelGetfl, h]

theorem kernelGetfl_congr {t : Process} {fd : Int} (h : t.kernel fd = s.kernel fd) :
    t.kernelGetfl fd = s.kernelGetfl fd := by
  rw [Process.kernelGetfl, Process.kernelGetfl, h]

/-- What `F_SETFL` passes on for a descriptor with a context has `O_NONBLOCK`. -/
theorem isNonblock_setfl (h : HasSockets s) {fd : Int} {ctx : FdContext}
    (hget : s.get fd = some ctx) (old : File) (arg others : Flags) :
    isNonblock (old.setfl (s.setflArg fd arg) others).flags = true := by
  obtain ⟨-, -, hsys, -⟩ := h.context fd ctx hget
  rw [Process.setflArg, h.hasSocketContext, hget]
  dsimp only
  rw [if_pos hsys, File.setfl, isNonblock_or, if_pos rfl]
  exact isNonblock_or others

theorem isNonblock_fionbio (old : File) {value : Int} (hvalue : value ≠ 0) :
    isNonblock (old.fionbio value).flags = true := by
  rw [File.fionbio, if_pos hvalue]
  exact isNonblock_or _

theorem kernel_requested (fd : Int) (nonblock : Bool) (file : Option File) (fd' : Int) :
    (s.requested fd nonblock file).kernel fd' =
      if fd' = fd ∧ file.isSome = true then file else s.kernel fd' := by
  cases file with
  | none =>
      rw [Process.requested, Process.kernel_ask, Process.kernel_setContext, if_neg (by simp)]
  | some file =>
      rw [Process.requested, Process.kernel_setFile, Process.kernel_ask, Process.kernel_setContext]
      by_cases heq : fd' = fd
      · rw [if_pos heq, if_pos ⟨heq, rfl⟩]
      · rw [if_neg heq, if_neg (fun hand => heq hand.1)]

/-- A request that leaves `O_NONBLOCK` set on its own descriptor leaves it set on all. -/
theorem isNonblock_requested (hset : ∀ fd ctx, s.get fd = some ctx → isNonblock (s.kernelGetfl fd) = true)
    (hsize : 0 < s.manager.datas.length) {fd : Int} {nonblock : Bool} {file : Option File}
    (hfile : ∀ ctx, s.get fd = some ctx → ∀ new ∈ file, isNonblock new.flags = true)
    {fd' : Int} {ctx : FdContext} (hget : (s.requested fd nonblock file).get fd' = some ctx) :
    isNonblock ((s.requested fd nonblock file).kernelGetfl fd') = true := by
  obtain ⟨old, hold⟩ : ∃ old, s.get fd' = some old := by
    rw [get_requested, Process.get_setContext hsize] at hget
    split at hget
    · rename_i heq
      subst heq
      obtain ⟨old, hold, -⟩ := Option.map_eq_some_iff.mp hget
      exact ⟨old, hold⟩
    · exact ⟨ctx, hget⟩
  have hkernel := kernel_requested (s := s) fd nonblock file fd'
  by_cases hnew : fd' = fd ∧ file.isSome = true
  · obtain ⟨rfl, hsome⟩ := hnew
    obtain ⟨new, rfl⟩ := Option.isSome_iff_exists.mp hsome
    rw [if_pos ⟨rfl, rfl⟩] at hkernel
    rw [kernelGetfl_of_some hkernel]
    exact hfile old hold new rfl
  · rw [if_neg hnew] at hkernel
    rw [kernelGetfl_congr hkernel]
    exact hset fd' old hold

/-- A call within the condition leaves `O_NONBLOCK` set. -/
theorem isNonblock_step {c : Call} {t : Process} (h : Tracked s) (hset : StaysNonblock s)
    (hclose : ClosesHooked s c) (hkeep : KeepsNonblock s c) (hstep : step s c = some t) {fd' : Int}
    {ctx : FdContext} (hget : t.get fd' = some ctx) : isNonblock (t.kernelGetfl fd') = true := by
  have hset : ∀ fd ctx, s.get fd = some ctx → isNonblock (s.kernelGetfl fd) = true :=
    fun fd ctx hctx => (hset fd ctx hctx).1
  have hopen : (t.kernel fd').isSome = true := ((h.step hclose hstep).tracked fd' ctx hget).1
  cases stepCase_of_step h.toHasSockets hstep with
  | quiet c => exact hset fd' ctx hget
  | opened fd flags _ hclosed =>
      have hne : fd' ≠ fd := by
        rintro rfl
        have hold := (h.tracked fd' ctx hget).1
        rw [hclosed] at hold
        cases hold
      rw [kernelGetfl_congr (s := s)]
      · exact hset fd' ctx hget
      · rw [Process.opened, Process.kernel_ask, Process.kernel_setFile, if_neg hne]
  | created c fd flags hfd hclosed _ =>
      have hnone : (s.opened fd flags).get fd = none := h.get_eq_none hclosed
      rw [Process.getOrCreate_of_none hfd hnone (kernel_opened_self fd flags)] at hget ⊢
      have hget := (Process.get_insert (s := s.opened fd flags) h.size_pos hfd _ fd').symm.trans hget
      by_cases heq : fd' = fd
      · subst heq
        rw [kernelGetfl_of_some (Function.update_self ..)]
        exact isNonblock_or flags
      · rw [if_neg heq] at hget
        rw [kernelGetfl_congr (s := s)]
        · exact hset fd' ctx hget
        · dsimp only
          rw [Function.update_of_ne heq, Process.opened, Process.kernel_ask, Process.kernel_setFile,
            if_neg heq]
  | closed hook fd _ =>
      have hne : fd' ≠ fd := by
        rintro rfl
        rw [Process.kernel_setFile, if_pos rfl] at hopen
        cases hopen
      rw [kernelGetfl_congr (s := s)]
      · exact hset fd' ctx hget
      · rw [Process.kernel_setFile, if_neg hne]
  | deleted fd =>
      rw [Process.get_setFile, get_del] at hget
      split at hget
      · cases hget
      · rename_i hne
        rw [kernelGetfl_congr (s := s)]
        · exact hset fd' ctx hget
        · rw [Process.kernel_setFile, if_neg (Ne.symm hne)]
  | timeout fd level optname sec usec =>
      rw [Process.get_setContext h.size_pos] at hget
      rw [kernelGetfl_congr (s := s) (by rw [Process.kernel_setContext])]
      split at hget
      · rename_i heq
        subst heq
        obtain ⟨old, hold, -⟩ := Option.map_eq_some_iff.mp hget
        exact hset fd' old hold
      · exact hset fd' ctx hget
  | setfl fd arg others ok file hfile =>
      refine isNonblock_requested hset h.size_pos ?_ hget
      intro old hold new hnew
      obtain ⟨file, -, rfl⟩ := hfile new hnew
      exact isNonblock_setfl h.toHasSockets hold file arg others
  | fionbio d value ok file hfile =>
      refine isNonblock_requested hset h.size_pos ?_ hget
      intro old hold new hnew
      obtain ⟨hok, file, -, rfl⟩ := hfile new hnew
      refine isNonblock_fionbio file fun hzero => ?_
      rw [hkeep hzero hok] at hold
      cases hold

/-- `FIONBIO` with value zero on a descriptor that has a context clears the kernel's flag. -/
theorem not_staysNonblock_of_fionbio {c : Call} (h : Tracked s) (hkeep : ¬ KeepsNonblock s c) :
    ∃ t, step s c = some t ∧ ¬ StaysNonblock t := by
  cases c with
  | fionbio d value ok =>
      simp only [KeepsNonblock, not_forall] at hkeep
      obtain ⟨rfl, rfl, hget⟩ := hkeep
      obtain ⟨ctx, hctx⟩ := Option.ne_none_iff_exists'.mp hget
      obtain ⟨file, hopen⟩ := Option.isSome_iff_exists.mp (h.tracked d ctx hctx).1
      refine ⟨s.requested d false (some (file.fionbio 0)), ?_, fun hstay => ?_⟩
      · simp only [step, h.toHasSockets.setContext_if, hopen]
        rfl
      · have hget' : (s.requested d false (some (file.fionbio 0))).get d =
            some (ctx.setUserNonblock false) := by
          rw [get_requested, Process.get_setContext h.size_pos, if_pos rfl, hctx]
          rfl
        have hnb := (hstay d _ hget').1
        rw [kernelGetfl_of_some (by rw [kernel_requested, if_pos ⟨rfl, rfl⟩]), File.fionbio] at hnb
        simp at hnb
  | _ => exact absurd trivial hkeep

/-- The kernel's `O_NONBLOCK` stays set and `F_GETFL` reports what was asked for, in exactly the runs
in which no `FIONBIO` with value zero succeeds on a descriptor with a context. The calls may include
`close`, as long as a descriptor with a context is closed with the hook enabled. -/
theorem staysNonblock_iff_keepsNonblock (kernel : Int → Option File) (calls : List Call)
    (h : StepsMeet step ClosesHooked (initProcess kernel) calls) :
    StatesMeet step StaysNonblock (initProcess kernel) calls ↔
      StepsMeet step KeepsNonblock (initProcess kernel) calls := by
  refine statesMeet_iff_stepsMeet (I := Tracked) (D := ClosesHooked) ?_ ?_ ?_ calls _
    (tracked_init kernel) ?_ h
  · intro s c t hs hc hstep
    exact hs.step hc hstep
  · intro s c t hs hc hset hkeep hstep fd ctx hget
    exact ⟨isNonblock_step hs hset hc hkeep hstep hget, (hs.step hc hstep).getfl_eq hget⟩
  · intro s c hs _ _ hkeep
    exact not_staysNonblock_of_fionbio hs hkeep
  · intro fd ctx hget
    rw [Process.get] at hget
    split at hget
    · cases hget
    · rw [initProcess, FdManager.slot_init] at hget
      cases hget

/-- A socket made blocking again, by `F_SETFL` and by a `FIONBIO` that the kernel refuses. -/
theorem staysNonblock_of_setfl :
    StatesMeet step StaysNonblock (initProcess fun _ => none)
      [.socket true (some (5, 2#32)), .setfl 5 0x802#32 2#32 true, .getfl 5, .setfl 5 2#32 2#32 true,
        .fionbio 5 0 false, .fionbio 5 1 true, .accept true (some (6, 2#32)), .close true 5] :=
  (staysNonblock_iff_keepsNonblock (fun _ => none) _ (by decide)).mpr (by decide)

/-- `FIONBIO` with value zero on a new socket: the kernel's flag is gone. -/
def blockingAgain : List Call := [.socket true (some (5, 2#32)), .fionbio 5 0 true]

theorem blockingAgain_clears :
    ¬ StatesMeet step StaysNonblock (initProcess fun _ => none) blockingAgain := by
  intro h
  have hlast := statesMeet_run _ _
    ((run step (initProcess fun _ => none) blockingAgain).get (by decide)) h
    (Option.some_get _).symm
  have hnb := (hlast 5 ⟨true, true, true, false, false, 5, -1, -1⟩ (by decide)).1
  revert hnb
  decide

end Hook

end Saturn
