import Saturn.Hook.Descriptors

/-!
# What the descriptor hooks do to the table of contexts

Frame lemmas for the updates of a `Process`, the cases of one call, and the invariant of every run:
whatever is called, each context in the table is one that was made for a socket. Where no thread
without the hook closes a descriptor that has a context, each context moreover belongs to an open
descriptor and knows what the program last asked of `O_NONBLOCK`.
-/

namespace Saturn

namespace Hook

namespace Process

variable {s : Process}

@[simp] theorem get_setFile (fd : Int) (file : Option File) (fd' : Int) :
    (s.setFile fd file).get fd' = s.get fd' := rfl

@[simp] theorem get_ask (fd : Int) (b : Bool) (fd' : Int) : (s.ask fd b).get fd' = s.get fd' := rfl

@[simp] theorem get_opened (fd : Int) (flags : Flags) (fd' : Int) :
    (s.opened fd flags).get fd' = s.get fd' := rfl

@[simp] theorem kernel_ask (fd : Int) (b : Bool) : (s.ask fd b).kernel = s.kernel := rfl

@[simp] theorem asked_setFile (fd : Int) (file : Option File) : (s.setFile fd file).asked = s.asked :=
  rfl

theorem kernel_setFile (fd : Int) (file : Option File) (fd' : Int) :
    (s.setFile fd file).kernel fd' = if fd' = fd then file else s.kernel fd' :=
  Function.update_apply ..

theorem asked_ask (fd : Int) (b : Bool) (fd' : Int) :
    (s.ask fd b).asked fd' = if fd' = fd then b else s.asked fd' :=
  Function.update_apply ..

theorem get_insert (h : 0 < s.manager.datas.length) {fd : Int} (hfd : 0 ≤ fd) (ctx : FdContext)
    (fd' : Int) :
    Process.get { s with manager := s.manager.insert fd.toNat ctx } fd' =
      if fd' = fd then some ctx else s.get fd' := by
  rw [Process.get, Process.get]
  by_cases hneg : fd' < 0
  · rw [if_pos hneg, if_pos hneg, if_neg (by omega)]
  · rw [if_neg hneg, if_neg hneg, FdManager.slot_insert h]
    by_cases heq : fd' = fd
    · rw [if_pos heq, if_pos (by omega)]
    · rw [if_neg heq, if_neg (by omega)]

theorem nonneg_of_get {fd : Int} {ctx : FdContext} (h : s.get fd = some ctx) : 0 ≤ fd := by
  by_contra hneg
  rw [get, if_pos (by omega)] at h
  cases h

theorem get_setContext (h : 0 < s.manager.datas.length) (fd : Int) (f : FdContext → FdContext)
    (fd' : Int) :
    (s.setContext fd f).get fd' = if fd' = fd then (s.get fd).map f else s.get fd' := by
  rw [setContext]
  cases hget : s.get fd with
  | none =>
      dsimp only
      split
      · rename_i heq
        rw [heq, hget]
        rfl
      · rfl
  | some ctx => exact get_insert h (nonneg_of_get hget) (f ctx) fd'

theorem kernel_setContext (fd : Int) (f : FdContext → FdContext) :
    (s.setContext fd f).kernel = s.kernel := by
  rw [setContext]
  split <;> rfl

theorem asked_setContext (fd : Int) (f : FdContext → FdContext) :
    (s.setContext fd f).asked = s.asked := by
  rw [setContext]
  split <;> rfl

theorem size_setContext (h : 0 < s.manager.datas.length) (fd : Int) (f : FdContext → FdContext) :
    0 < (s.setContext fd f).manager.datas.length := by
  rw [setContext]
  split
  · exact Nat.lt_of_lt_of_le h (FdManager.insert_size ..)
  · exact h

theorem or_nonblock_eq_self {flags : Flags} (h : isNonblock flags = true) :
    flags ||| O_NONBLOCK = flags := by
  rw [isNonblock_eq] at h
  refine BitVec.eq_of_getLsbD_eq fun i hi => ?_
  rw [BitVec.getLsbD_or, O_NONBLOCK, BitVec.getLsbD_twoPow]
  by_cases heq : 11 = i
  · subst heq
    rw [h]
    rfl
  · simp [heq]

theorem getOrCreate_of_some {fd : Int} {ctx : FdContext} (h : s.get fd = some ctx) :
    s.getOrCreate fd = s := by
  have hneg : ¬ fd < 0 := by
    have := nonneg_of_get h
    omega
  rw [get, if_neg hneg] at h
  rw [getOrCreate, if_neg hneg, FdManager.lookup_eq, h, if_neg (by simp)]

/-- For an open socket without a context, `get(fd, true)` makes one and sets `O_NONBLOCK`. -/
theorem getOrCreate_of_none {fd : Int} {flags : Flags} (hfd : 0 ≤ fd) (h : s.get fd = none)
    (hopen : s.kernel fd = some ⟨true, flags⟩) :
    s.getOrCreate fd =
      { s with
        manager := s.manager.insert fd.toNat (.new fd (some true))
        kernel := Function.update s.kernel fd (some ⟨true, flags ||| O_NONBLOCK⟩) } := by
  have hneg : ¬ fd < 0 := by omega
  rw [get, if_neg hneg] at h
  rw [getOrCreate, if_neg hneg, FdManager.lookup_eq, h, if_pos ⟨rfl, rfl⟩]
  simp only [hopen, Option.map_some]
  by_cases hnb : isNonblock flags = true
  · rw [if_neg (by simp [hnb]), or_nonblock_eq_self hnb, ← hopen, Function.update_eq_self]
  · rw [if_pos ⟨trivial, hnb⟩, setFile, File.setfl, isNonblock_or, if_pos rfl]

theorem hasSocketContext_eq {fd : Int} {ctx : FdContext} :
    s.hasSocketContext fd = some ctx ↔
      s.get fd = some ctx ∧ ctx.isClosed = false ∧ ctx.isSocket = true := by
  rw [hasSocketContext, Option.filter_eq_some_iff]
  simp

end Process

/-- What holds of the table after any calls: its contexts are those of sockets. -/
structure HasSockets (s : Process) : Prop where
  size_pos : 0 < s.manager.datas.length
  context : ∀ fd ctx, s.get fd = some ctx →
    ctx.isInit = true ∧ ctx.isSocket = true ∧ ctx.sysNonblock = true ∧ ctx.isClosed = false

theorem hasSockets_init (kernel : Int → Option File) : HasSockets (initProcess kernel) where
  size_pos := by simp [initProcess]
  context := fun fd ctx h => by
    rw [Process.get] at h
    split at h
    · cases h
    · rw [initProcess, FdManager.slot_init] at h
      cases h

variable {s : Process}

/-- The tests of `fcntl` and `ioctl` ask only for a context. -/
theorem HasSockets.hasSocketContext (h : HasSockets s) (fd : Int) :
    s.hasSocketContext fd = s.get fd := by
  cases hget : s.get fd with
  | none => rw [Process.hasSocketContext, hget, Option.filter_none]
  | some ctx =>
      obtain ⟨-, hsocket, -, hclosed⟩ := h.context fd ctx hget
      exact Process.hasSocketContext_eq.mpr ⟨hget, hclosed, hsocket⟩

theorem HasSockets.of_get {t : Process} (h : HasSockets s) (hsize : 0 < t.manager.datas.length)
    (hget : ∀ fd ctx, t.get fd = some ctx → s.get fd = some ctx) : HasSockets t :=
  ⟨hsize, fun fd ctx hctx => h.context fd ctx (hget fd ctx hctx)⟩

theorem HasSockets.setContext (h : HasSockets s) (fd : Int) {f : FdContext → FdContext}
    (hf : ∀ ctx, (f ctx).isInit = ctx.isInit ∧ (f ctx).isSocket = ctx.isSocket ∧
      (f ctx).sysNonblock = ctx.sysNonblock ∧ (f ctx).isClosed = ctx.isClosed) :
    HasSockets (s.setContext fd f) := by
  refine ⟨Process.size_setContext h.size_pos fd f, fun fd' ctx hget => ?_⟩
  rw [Process.get_setContext h.size_pos] at hget
  split at hget
  · obtain ⟨old, hold, rfl⟩ := Option.map_eq_some_iff.mp hget
    obtain ⟨hinit, hsocket, hsys, hclosed⟩ := hf old
    rw [hinit, hsocket, hsys, hclosed]
    exact h.context fd old hold
  · exact h.context fd' ctx hget

theorem HasSockets.getOrCreate (h : HasSockets s) {fd : Int} {flags : Flags} (hfd : 0 ≤ fd)
    (hopen : s.kernel fd = some ⟨true, flags⟩) : HasSockets (s.getOrCreate fd) := by
  cases hget : s.get fd with
  | some ctx =>
      rw [Process.getOrCreate_of_some hget]
      exact h
  | none =>
      rw [Process.getOrCreate_of_none hfd hget hopen]
      refine ⟨Nat.lt_of_lt_of_le h.size_pos (FdManager.insert_size ..), fun fd' ctx hctx => ?_⟩
      have hctx : Process.get { s with manager := s.manager.insert fd.toNat (.new fd (some true)) }
        fd' = some ctx := hctx
      rw [Process.get_insert h.size_pos hfd] at hctx
      split at hctx
      · obtain rfl := Option.some.inj hctx
        exact ⟨rfl, rfl, rfl, rfl⟩
      · exact h.context fd' ctx hctx

theorem setTimeout_frame (type : Int) (v : UInt64) (ctx : FdContext) :
    (ctx.setTimeout type v).isInit = ctx.isInit ∧ (ctx.setTimeout type v).isSocket = ctx.isSocket ∧
      (ctx.setTimeout type v).sysNonblock = ctx.sysNonblock ∧
      (ctx.setTimeout type v).isClosed = ctx.isClosed := by
  rw [FdContext.setTimeout]
  split
  · exact ⟨rfl, rfl, rfl, rfl⟩
  · exact ⟨rfl, rfl, rfl, rfl⟩

/-- `F_SETFL` or `FIONBIO` asks for `nonblock`; a call that succeeds leaves `file` in the kernel. -/
def Process.requested (s : Process) (fd : Int) (nonblock : Bool) (file : Option File) : Process :=
  match file with
  | some file =>
      ((s.setContext fd (·.setUserNonblock nonblock)).ask fd nonblock).setFile fd (some file)
  | none => (s.setContext fd (·.setUserNonblock nonblock)).ask fd nonblock

theorem kernel_opened_self (fd : Int) (flags : Flags) :
    (s.opened fd flags).kernel fd = some ⟨true, flags⟩ := by
  rw [Process.opened, Process.kernel_ask, Process.kernel_setFile, if_pos rfl]

/-- What one call can be. -/
inductive StepCase (s : Process) : Call → Process → Prop where
  | quiet (c : Call) : (∀ hook fd flags, c ≠ .socket hook (some (fd, flags))) →
      (∀ hook fd flags, c ≠ .accept hook (some (fd, flags))) → StepCase s c s
  /-- `socket` on a thread without the hook. -/
  | opened (fd : Int) (flags : Flags) : 0 ≤ fd → s.kernel fd = none →
      StepCase s (.socket false (some (fd, flags))) (s.opened fd flags)
  | created (c : Call) (fd : Int) (flags : Flags) : 0 ≤ fd → s.kernel fd = none →
      (c = .socket true (some (fd, flags)) ∨ ∃ hook, c = .accept hook (some (fd, flags))) →
      StepCase s c ((s.opened fd flags).getOrCreate fd)
  | closed (hook : Bool) (fd : Int) : (hook = false ∨ s.get fd = none) →
      StepCase s (.close hook fd) (s.setFile fd none)
  | deleted (fd : Int) :
      StepCase s (.close true fd) (Process.setFile { s with manager := s.manager.del fd } fd none)
  | timeout (fd level optname sec usec : Int) :
      StepCase s (.setsockopt true fd level optname sec usec)
        (s.setContext fd (·.setTimeout optname (timevalMs sec usec)))
  | setfl (fd : Int) (arg others : Flags) (ok : Bool) (file : Option File) :
      (∀ new ∈ file, ∃ old, s.kernel fd = some old ∧ new = old.setfl (s.setflArg fd arg) others) →
      StepCase s (.setfl fd arg others ok) (s.requested fd (isNonblock arg) file)
  | fionbio (d value : Int) (ok : Bool) (file : Option File) :
      (∀ new ∈ file, ok = true ∧ ∃ old, s.kernel d = some old ∧ new = old.fionbio value) →
      StepCase s (.fionbio d value ok) (s.requested d (value ≠ 0) file)

theorem setContext_of_none {fd : Int} (h : s.get fd = none) (f : FdContext → FdContext) :
    s.setContext fd f = s := by
  rw [Process.setContext, h]

/-- The contexts are those of sockets, so `fcntl` and `ioctl` reach the one that they find. -/
theorem HasSockets.setContext_if (h : HasSockets s) (fd : Int) (f : FdContext → FdContext) :
    (if (s.hasSocketContext fd).isSome then s.setContext fd f else s) = s.setContext fd f := by
  rw [h.hasSocketContext]
  cases hget : s.get fd with
  | none => exact (setContext_of_none hget f).symm
  | some ctx => rfl

theorem stepCase_of_step {c : Call} {t : Process} (h : HasSockets s) (hstep : step s c = some t) :
    StepCase s c t := by
  cases c with
  | socket hook ret =>
      cases ret with
      | none =>
          obtain rfl : s = t := Option.some.inj hstep
          exact .quiet _ (by simp) (by simp)
      | some ret =>
          obtain ⟨fd, flags⟩ := ret
          simp only [step] at hstep
          split at hstep
          · cases hstep
          · rename_i hnew
            have hfd : 0 ≤ fd := by omega
            have hclosed : s.kernel fd = none := by
              rw [← Option.not_isSome_iff_eq_none]
              exact fun hopen => hnew (Or.inr hopen)
            split at hstep
            · rename_i hhook
              subst hhook
              obtain rfl := Option.some.inj hstep
              exact .created _ fd flags hfd hclosed (Or.inl rfl)
            · rename_i hhook
              obtain rfl : hook = false := by simpa using hhook
              obtain rfl := Option.some.inj hstep
              exact .opened fd flags hfd hclosed
  | accept hook ret =>
      cases ret with
      | none =>
          obtain rfl : s = t := Option.some.inj hstep
          exact .quiet _ (by simp) (by simp)
      | some ret =>
          obtain ⟨fd, flags⟩ := ret
          simp only [step] at hstep
          split at hstep
          · cases hstep
          · rename_i hnew
            have hclosed : s.kernel fd = none := by
              rw [← Option.not_isSome_iff_eq_none]
              exact fun hopen => hnew (Or.inr hopen)
            obtain rfl := Option.some.inj hstep
            exact .created _ fd flags (by omega) hclosed (Or.inr ⟨hook, rfl⟩)
  | close hook fd =>
      simp only [step, Option.some.injEq] at hstep
      subst hstep
      split
      · rename_i hdel
        obtain rfl := hdel.1
        exact .deleted fd
      · rename_i hkeep
        refine .closed hook fd ?_
        cases hook with
        | false => exact Or.inl rfl
        | true =>
            refine Or.inr ?_
            rw [← Option.not_isSome_iff_eq_none]
            exact fun hsome => hkeep ⟨rfl, hsome⟩
  | setsockopt hook fd level optname sec usec =>
      simp only [step] at hstep
      split at hstep
      · rename_i hcond
        obtain rfl := hcond.1
        obtain rfl := Option.some.inj hstep
        exact .timeout fd level optname sec usec
      · obtain rfl : s = t := Option.some.inj hstep
        exact .quiet _ (by simp) (by simp)
  | setfl fd arg others ok =>
      simp only [step, h.setContext_if] at hstep
      cases hopen : s.kernel fd with
      | none =>
          rw [hopen] at hstep
          obtain rfl := Option.some.inj hstep
          exact .setfl fd arg others ok none (by simp)
      | some file =>
          rw [hopen] at hstep
          cases ok with
          | false =>
              obtain rfl := Option.some.inj hstep
              exact .setfl fd arg others false none (by simp)
          | true =>
              obtain rfl := Option.some.inj hstep
              refine .setfl fd arg others true (some _) fun new hnew => ?_
              exact ⟨file, hopen, (Option.some.inj hnew).symm⟩
  | getfl fd =>
      obtain rfl : s = t := Option.some.inj hstep
      exact .quiet _ (by simp) (by simp)
  | fionbio d value ok =>
      simp only [step, h.setContext_if] at hstep
      cases hopen : s.kernel d with
      | none =>
          rw [hopen] at hstep
          obtain rfl := Option.some.inj hstep
          exact .fionbio d value ok none (by simp)
      | some file =>
          rw [hopen] at hstep
          cases ok with
          | false =>
              obtain rfl := Option.some.inj hstep
              exact .fionbio d value false none (by simp)
          | true =>
              obtain rfl := Option.some.inj hstep
              refine .fionbio d value true (some _) fun new hnew => ?_
              exact ⟨rfl, file, hopen, (Option.some.inj hnew).symm⟩

theorem get_requested (fd : Int) (nonblock : Bool) (file : Option File) (fd' : Int) :
    (s.requested fd nonblock file).get fd' =
      (s.setContext fd (·.setUserNonblock nonblock)).get fd' := by
  cases file <;> rfl

theorem size_requested (fd : Int) (nonblock : Bool) (file : Option File) :
    (s.requested fd nonblock file).manager =
      (s.setContext fd (·.setUserNonblock nonblock)).manager := by
  cases file <;> rfl

theorem HasSockets.requested (h : HasSockets s) (fd : Int) (nonblock : Bool) (file : Option File) :
    HasSockets (s.requested fd nonblock file) := by
  have hset := h.setContext fd (f := (·.setUserNonblock nonblock)) fun ctx => ⟨rfl, rfl, rfl, rfl⟩
  refine hset.of_get ?_ fun fd' ctx hctx => ?_
  · rw [size_requested]
    exact hset.size_pos
  · rwa [get_requested] at hctx

theorem get_del (fd fd' : Int) :
    Process.get { s with manager := s.manager.del fd } fd' =
      if fd = fd' then none else s.get fd' := by
  rw [Process.get, Process.get]
  by_cases hneg : fd' < 0
  · rw [if_pos hneg, if_pos hneg]
    split <;> rfl
  · rw [if_neg hneg, if_neg hneg, FdManager.slot_del]
    by_cases heq : fd = fd'
    · rw [if_pos heq, if_pos (by omega)]
    · rw [if_neg heq, if_neg (by omega)]

/-- Every call keeps the table one of sockets. -/
theorem HasSockets.step {c : Call} {t : Process} (h : HasSockets s) (hstep : step s c = some t) :
    HasSockets t := by
  cases stepCase_of_step h hstep with
  | quiet c => exact h
  | opened fd flags _ _ => exact h.of_get h.size_pos fun fd' ctx hctx => hctx
  | created c fd flags hfd _ _ =>
      have hopened : HasSockets (s.opened fd flags) := h.of_get h.size_pos fun fd' ctx hctx => hctx
      exact hopened.getOrCreate hfd (kernel_opened_self fd flags)
  | closed hook fd _ => exact h.of_get h.size_pos fun fd' ctx hctx => hctx
  | deleted fd =>
      refine h.of_get ?_ fun fd' ctx hctx => ?_
      · change 0 < (s.manager.del fd).datas.length
        rw [FdManager.del_size]
        exact h.size_pos
      · rw [Process.get_setFile, get_del] at hctx
        split at hctx
        · cases hctx
        · exact hctx
  | timeout fd level optname sec usec => exact h.setContext fd fun ctx => setTimeout_frame _ _ ctx
  | setfl fd arg others ok file _ => exact h.requested fd _ file
  | fionbio d value ok file _ => exact h.requested d _ file

/-- A descriptor that has a context is closed with the hook enabled. -/
def ClosesHooked (s : Process) : Call → Prop
  | .close hook fd => hook = true ∨ s.get fd = none
  | _ => True

instance (s : Process) : (c : Call) → Decidable (ClosesHooked s c)
  | .close hook fd => inferInstanceAs (Decidable (hook = true ∨ s.get fd = none))
  | .socket .. | .accept .. | .setsockopt .. | .setfl .. | .getfl .. | .fionbio .. =>
      isTrue trivial

/-- What holds in addition while descriptors with a context are closed with the hook. -/
structure Tracked (s : Process) : Prop extends HasSockets s where
  tracked : ∀ fd ctx, s.get fd = some ctx →
    (s.kernel fd).isSome = true ∧ ctx.userNonblock = s.asked fd

theorem tracked_init (kernel : Int → Option File) : Tracked (initProcess kernel) where
  toHasSockets := hasSockets_init kernel
  tracked := fun fd ctx h => by
    rw [Process.get] at h
    split at h
    · cases h
    · rw [initProcess, FdManager.slot_init] at h
      cases h

theorem Tracked.get_eq_none (h : Tracked s) {fd : Int} (hclosed : s.kernel fd = none) :
    s.get fd = none := by
  cases hget : s.get fd with
  | none => rfl
  | some ctx =>
      have hopen := (h.tracked fd ctx hget).1
      rw [hclosed] at hopen
      cases hopen

/-- The calls that change the context of `fd` alone, and leave its descriptor open. -/
theorem tracked_setContext (h : Tracked s) (fd : Int) (asked : Int → Bool)
    {f : FdContext → FdContext} (hother : ∀ fd', fd' ≠ fd → asked fd' = s.asked fd')
    (hself : ∀ ctx, ctx.userNonblock = s.asked fd → (f ctx).userNonblock = asked fd)
    {fd' : Int} {ctx : FdContext} (hget : (s.setContext fd f).get fd' = some ctx) :
    (s.kernel fd').isSome = true ∧ ctx.userNonblock = asked fd' := by
  rw [Process.get_setContext h.size_pos] at hget
  split at hget
  · rename_i heq
    subst heq
    obtain ⟨old, hold, rfl⟩ := Option.map_eq_some_iff.mp hget
    obtain ⟨hopen, huser⟩ := h.tracked fd' old hold
    exact ⟨hopen, hself old huser⟩
  · rename_i hne
    rw [hother fd' hne]
    exact h.tracked fd' ctx hget

theorem isSome_kernel_requested (fd : Int) (nonblock : Bool) (file : Option File) {fd' : Int}
    (h : (s.kernel fd').isSome = true) :
    ((s.requested fd nonblock file).kernel fd').isSome = true := by
  cases file with
  | none =>
      rw [Process.requested, Process.kernel_ask, Process.kernel_setContext]
      exact h
  | some file =>
      rw [Process.requested, Process.kernel_setFile]
      split
      · rfl
      · rw [Process.kernel_ask, Process.kernel_setContext]
        exact h

theorem asked_requested (fd : Int) (nonblock : Bool) (file : Option File) (fd' : Int) :
    (s.requested fd nonblock file).asked fd' = if fd' = fd then nonblock else s.asked fd' := by
  cases file with
  | none => rw [Process.requested, Process.asked_ask, Process.asked_setContext]
  | some file =>
      rw [Process.requested, Process.asked_setFile, Process.asked_ask, Process.asked_setContext]

theorem Tracked.requested (h : Tracked s) (fd : Int) (nonblock : Bool) (file : Option File) :
    Tracked (s.requested fd nonblock file) where
  toHasSockets := h.toHasSockets.requested fd nonblock file
  tracked := fun fd' ctx hget => by
    rw [get_requested] at hget
    obtain ⟨hopen, huser⟩ := tracked_setContext h fd (s.requested fd nonblock file).asked
      (fun fd'' hne => by rw [asked_requested, if_neg hne])
      (fun old _ => by rw [asked_requested, if_pos rfl]; rfl) hget
    exact ⟨isSome_kernel_requested fd nonblock file hopen, huser⟩

theorem userNonblock_setTimeout (type : Int) (v : UInt64) (ctx : FdContext) :
    (ctx.setTimeout type v).userNonblock = ctx.userNonblock := by
  rw [FdContext.setTimeout]
  split <;> rfl

theorem Tracked.step {c : Call} {t : Process} (h : Tracked s) (hc : ClosesHooked s c)
    (hstep : step s c = some t) : Tracked t := by
  refine ⟨h.toHasSockets.step hstep, fun fd' ctx hget => ?_⟩
  cases stepCase_of_step h.toHasSockets hstep with
  | quiet c => exact h.tracked fd' ctx hget
  | opened fd flags _ hclosed =>
      obtain ⟨hopen, huser⟩ := h.tracked fd' ctx hget
      have hne : fd' ≠ fd := by
        rintro rfl
        rw [hclosed] at hopen
        cases hopen
      rw [Process.opened, Process.kernel_ask, Process.kernel_setFile, if_neg hne, Process.asked_ask,
        if_neg hne]
      exact ⟨hopen, huser⟩
  | created c fd flags hfd hclosed _ =>
      have hnone : (s.opened fd flags).get fd = none := h.get_eq_none hclosed
      rw [Process.getOrCreate_of_none hfd hnone (kernel_opened_self fd flags)] at hget ⊢
      have hget := (Process.get_insert (s := s.opened fd flags) h.size_pos hfd _ fd').symm.trans hget
      dsimp only
      rw [Function.update_apply, Process.opened, Process.asked_ask]
      by_cases heq : fd' = fd
      · rw [if_pos heq] at hget
        rw [if_pos heq, if_pos heq, ← Option.some.inj hget]
        exact ⟨rfl, rfl⟩
      · rw [if_neg heq] at hget
        rw [if_neg heq, if_neg heq, Process.kernel_ask, Process.kernel_setFile, if_neg heq]
        exact h.tracked fd' ctx hget
  | closed hook fd hwhy =>
      have hnone : s.get fd = none := by
        rcases hwhy with rfl | hnone
        · rcases hc with hc | hnone
          · cases hc
          · exact hnone
        · exact hnone
      have hne : fd' ≠ fd := by
        rintro rfl
        rw [Process.get_setFile, hnone] at hget
        cases hget
      rw [Process.kernel_setFile, if_neg hne]
      exact h.tracked fd' ctx hget
  | deleted fd =>
      rw [Process.get_setFile, get_del] at hget
      split at hget
      · cases hget
      · rename_i hne
        rw [Process.kernel_setFile, if_neg (Ne.symm hne)]
        exact h.tracked fd' ctx hget
  | timeout fd level optname sec usec =>
      rw [Process.kernel_setContext, Process.asked_setContext]
      exact tracked_setContext h fd _ (fun _ _ => rfl)
        (fun old hold => by rw [userNonblock_setTimeout]; exact hold) hget
  | setfl fd arg others ok file _ => exact (h.requested fd _ file).tracked fd' ctx hget
  | fionbio d value ok file _ => exact (h.requested d _ file).tracked fd' ctx hget

end Hook

end Saturn
