import Saturn.Config.Defs
import Saturn.Misc.ListUpdate

/-!
# Registered variables

Threads call `add` and `loadFromYaml`. `add` returns what it has created whether or not `emplace` has
stored it, and it looks a name up by the string that begins at its first character, while it
registers the characters of the view.
-/

namespace Saturn

namespace Config

open Http (Bytes ascii)

variable {τ : Type*} {emit : Node → Bytes} {s t : State τ} {tid : Nat}

namespace State

/-- The types of all variables. -/
def types (s : State τ) : List τ := s.heap.map ConfigVar.type

end State

/-- What holds in every state, however the threads interleave. -/
structure Wf (s : State τ) : Prop where
  valid : ∀ key var, s.vars.lookup key = some var → var < s.types.length
  one_key : ∀ key key' var, s.vars.lookup key = some var → s.vars.lookup key' = some var →
    key = key'
  typed : ∀ r ∈ s.results, s.types[r.var]? = some r.type

theorem wf_init (threads : Nat) : Wf (init threads : State τ) where
  valid := by simp [init]
  one_key := by simp [init]
  typed := by simp [init]

theorem types_fromString (var : Nat) (text : Bytes) : (s.fromString var text).types = s.types := by
  refine List.ext_getElem? fun i => ?_
  simp only [State.types, State.fromString, List.getElem?_map, List.getElem?_modify]
  cases s.heap[i]? with
  | none => rfl
  | some v => by_cases hi : var = i <;> simp [hi, ConfigVar.fromString]

theorem types_emplace (key : Bytes) (var : Nat) : (s.emplace key var).types = s.types := by
  unfold State.emplace
  split <;> rfl

theorem results_emplace (key : Bytes) (var : Nat) : (s.emplace key var).results = s.results := by
  unfold State.emplace
  split <;> rfl

theorem lookup_emplace (key : Bytes) (var : Nat) (key' : Bytes) :
    (s.emplace key var).vars.lookup key' =
      if key' = key ∧ s.vars.lookup key = none then some var else s.vars.lookup key' := by
  unfold State.emplace
  split
  · rename_i old hold
    rw [if_neg fun h => Option.some_ne_none old (hold.symm.trans h.2)]
  · rename_i hnone
    rw [List.lookup_append]
    by_cases hkey : key' = key
    · subst hkey
      simp [hnone]
    · rw [if_neg fun h => hkey h.1, List.lookup_cons, beq_false_of_ne hkey]
      exact Option.or_none

theorem types_insert (name : StringView) (type : τ) (description : Bytes) :
    (s.insert name type description).types = s.types ++ [type] := by
  rw [State.insert, types_emplace, State.types, List.map_append]
  rfl

theorem results_insert (name : StringView) (type : τ) (description : Bytes) :
    (s.insert name type description).results = s.results := by
  rw [State.insert, results_emplace]

theorem lookup_insert (name : StringView) (type : τ) (description key : Bytes) :
    (s.insert name type description).vars.lookup key =
      if key = name.text ∧ s.vars.lookup name.text = none then some s.heap.length
      else s.vars.lookup key := by
  rw [State.insert, lookup_emplace]

/-- An entry stays as it is. -/
theorem lookup_insert_of_some {name : StringView} {type : τ} {description key : Bytes} {var : Nat}
    (h : s.vars.lookup key = some var) :
    (s.insert name type description).vars.lookup key = some var := by
  rw [lookup_insert, if_neg, h]
  rintro ⟨rfl, hnone⟩
  rw [h] at hnone
  cases hnone

theorem length_types : s.types.length = s.heap.length := List.length_map _

/-- No name leads to the next variable. -/
theorem Wf.fresh (h : Wf s) (key : Bytes) : s.vars.lookup key ≠ some s.heap.length := by
  intro hvar
  have := h.valid key _ hvar
  rw [length_types] at this
  omega

theorem Wf.hand (h : Wf s) {r : Result τ} (hr : s.types[r.var]? = some r.type) :
    Wf (s.hand r) where
  valid := h.valid
  one_key := h.one_key
  typed := by
    intro q hq
    rcases List.mem_cons.mp hq with rfl | hq
    · exact hr
    · exact h.typed q hq

theorem Wf.insert (h : Wf s) (name : StringView) (type : τ) (description : Bytes) :
    Wf (s.insert name type description) where
  valid := by
    intro key var hvar
    rw [lookup_insert] at hvar
    rw [types_insert, List.length_append, List.length_singleton]
    split at hvar
    · cases hvar
      rw [length_types]
      omega
    · have := h.valid key var hvar
      omega
  one_key := by
    intro key key' var hkey hkey'
    rw [lookup_insert] at hkey hkey'
    split at hkey
    · rename_i hnew
      cases hkey
      split at hkey'
      · rename_i hnew'
        exact hnew.1.trans hnew'.1.symm
      · exact absurd hkey' (h.fresh key')
    · split at hkey'
      · cases hkey'
        exact absurd hkey (h.fresh key)
      · exact h.one_key key key' var hkey hkey'
  typed := by
    intro r hr
    rw [results_insert] at hr
    have hold := h.typed r hr
    rw [types_insert, List.getElem?_append_left, hold]
    exact (List.getElem?_eq_some_iff.mp hold).1

theorem types_insert_last (name : StringView) (type : τ) (description : Bytes) :
    (s.insert name type description).types[s.heap.length]? = some type := by
  rw [types_insert, ← length_types, List.getElem?_concat_length]

/-- The lookups of the name of a result return it. -/
def Finds (s : State τ) (r : Result τ) : Prop :=
  s.lookUp r.name = some r.var ∧ s.lookUp (.ofString r.name.text) = some r.var

theorem Finds.mono {r : Result τ} (h : Finds s r)
    (hvars : ∀ key var, s.vars.lookup key = some var → t.vars.lookup key = some var) :
    Finds t r := ⟨hvars _ _ h.1, hvars _ _ h.2⟩

variable [DecidableEq τ]

/-- Every variable that `add` has returned is the registered one. -/
structure Registered (emit : Node → Bytes) (s : State τ) : Prop where
  /-- It is what `lookUp` returns for the name, also when that is a `std::string`. -/
  lookUp : ∀ r ∈ s.results, s.lookUp r.name = some r.var ∧
    s.lookUp (.ofString r.name.text) = some r.var
  lookUpAs : ∀ r ∈ s.results, s.lookUpAs r.type r.name = some r.var
  same : ∀ r ∈ s.results, ∀ q ∈ s.results, r.name.text = q.name.text → r.type = q.type →
    r.var = q.var
  /-- A load that comes to a node with this path passes the node to its `fromString`. -/
  load : ∀ r ∈ s.results, r.name.text ≠ [] → ∀ (tid : Nat) node nodes,
    s.threads[tid]? = some (.load ((r.name.text, node) :: nodes)) →
    ∃ v t, s.heap[r.var]? = some v ∧ run (step emit) s [.move tid, .move tid] = some t ∧
      t.heap[r.var]? = some (v.fromString (node.print emit))

/-- A section that finds a variable reads the characters of the name up to a NUL, and one that
registers a variable has a name that is read as its characters and is not registered. -/
def Registers (s : State τ) : Label τ → Prop
  | .call .. => True
  | .move tid =>
      match s.threads[tid]? with
      | some (.lookUp name type _) =>
          (s.lookUpAs type name).isSome → (StringView.ofString name.text).data = name.data
      | some (.insert name _ _) => name.data = name.text ∧ s.lookUp name = none
      | _ => True

theorem cast_eq_some_iff {type : τ} {var var' : Nat} :
    s.cast type var = some var' ↔ var' = var ∧ s.types[var]? = some type := by
  rw [State.cast, State.types, List.getElem?_map]
  cases s.heap[var]? with
  | none => simp
  | some v =>
      simp only [Option.map_some, Option.some.injEq, Option.ite_none_right_eq_some]
      rw [and_comm, eq_comm (a := var)]

theorem lookUpAs_eq_some_iff {type : τ} {name : StringView} {var : Nat} :
    s.lookUpAs type name = some var ↔ s.lookUp name = some var ∧ s.types[var]? = some type := by
  rw [State.lookUpAs, Option.bind_eq_some_iff]
  constructor
  · rintro ⟨var', hvar, hcast⟩
    obtain ⟨rfl, htype⟩ := cast_eq_some_iff.mp hcast
    exact ⟨hvar, htype⟩
  · rintro ⟨hvar, htype⟩
    exact ⟨var, hvar, cast_eq_some_iff.mpr ⟨rfl, htype⟩⟩

/-- The two steps of a load at a path that is registered. -/
theorem run_load (emit : Node → Bytes) {path : Bytes} {node : Node} {nodes : List (Bytes × Node)} {var : Nat}
    (hpath : path ≠ []) (hvar : s.lookUp (.ofString path) = some var)
    (hpc : s.threads[tid]? = some (.load ((path, node) :: nodes))) :
    ∃ t, run (step emit) s [.move tid, .move tid] = some t ∧
      t.heap = s.heap.modify var (·.fromString (node.print emit)) := by
  have hempty : path.isEmpty = false := by simpa using hpath
  have hfirst : step emit s (.move tid) =
      some (s.setPc tid (.fromString var (node.print emit) nodes)) := by
    simp only [step, hpc, State.move, hempty, hvar]
    rfl
  have hnext : (s.setPc tid (.fromString var (node.print emit) nodes)).threads[tid]? =
      some (.fromString var (node.print emit) nodes) := by
    rw [State.setPc, getElem?_set_of_some hpc, if_pos rfl]
  refine ⟨((s.setPc tid (.fromString var (node.print emit) nodes)).fromString var
    (node.print emit)).setPc tid (.load nodes), ?_, rfl⟩
  rw [run_cons, hfirst, Option.bind_some, run_cons]
  simp only [step, hnext]
  rfl

/-- What is returned is registered where the lookups return it. -/
theorem registered_iff_finds (h : Wf s) :
    Registered emit s ↔ ∀ r ∈ s.results, Finds s r := by
  refine ⟨fun hreg => hreg.lookUp, fun hfinds => ⟨hfinds, ?_, ?_, ?_⟩⟩
  · intro r hr
    exact lookUpAs_eq_some_iff.mpr ⟨(hfinds r hr).1, h.typed r hr⟩
  · intro r hr q hq hname _
    have hfound := (hfinds r hr).2
    rw [hname, (hfinds q hq).2] at hfound
    exact (Option.some.inj hfound).symm
  · intro r hr hname tid node nodes hpc
    obtain ⟨t, hrun, hheap⟩ := run_load emit hname (hfinds r hr).2 hpc
    have hvalid : r.var < s.heap.length := by
      rw [← length_types]
      exact h.valid _ _ (hfinds r hr).1
    refine ⟨s.heap[r.var], t, List.getElem?_eq_getElem hvalid, hrun, ?_⟩
    rw [hheap, List.getElem?_modify_eq, List.getElem?_eq_getElem hvalid]
    rfl

/-- What one step can be, by what it does to the registry. -/
inductive StepCase (s : State τ) : Label τ → State τ → Prop where
  /-- Nothing is registered and nothing returned. -/
  | quiet (l : Label τ) (t : State τ) : t.vars = s.vars → t.types = s.types →
      t.results = s.results → StepCase s l t
  /-- `add` finds a variable. -/
  | found (tid : Nat) (name : StringView) (type : τ) (description : Bytes) (var : Nat) :
      s.threads[tid]? = some (.lookUp name type description) → s.lookUpAs type name = some var →
      StepCase s (.move tid) ((s.hand ⟨name, type, var⟩).setPc tid .out)
  /-- `add` creates a variable. -/
  | insert (tid : Nat) (name : StringView) (type : τ) (description : Bytes) :
      s.threads[tid]? = some (.insert name type description) →
      StepCase s (.move tid)
        (((s.insert name type description).hand ⟨name, type, s.heap.length⟩).setPc tid .out)

theorem stepCase_move {pc : Pc τ} (hpc : s.threads[tid]? = some pc)
    (h : s.move emit tid pc = some t) : StepCase s (.move tid) t := by
  cases pc with
  | out => cases h
  | lookUp name type description =>
      simp only [State.move] at h
      split at h
      · rename_i var hvar
        cases h
        exact .found tid name type description var hpc hvar
      · cases h
        exact .quiet _ _ rfl rfl rfl
  | insert name type description =>
      cases h
      exact .insert tid name type description hpc
  | load nodes =>
      cases nodes with
      | nil =>
          cases h
          exact .quiet _ _ rfl rfl rfl
      | cons entry nodes =>
          obtain ⟨path, node⟩ := entry
          simp only [State.move] at h
          split at h
          · cases h
            exact .quiet _ _ rfl rfl rfl
          · split at h <;>
              · cases h
                exact .quiet _ _ rfl rfl rfl
  | fromString var text nodes =>
      cases h
      exact .quiet _ _ rfl (types_fromString var text) rfl

theorem step_cases {l : Label τ} (h : step emit s l = some t) : StepCase s l t := by
  cases l with
  | call tid c =>
      simp only [step] at h
      split at h
      · cases h
        exact .quiet _ _ rfl rfl rfl
      · cases h
  | move tid =>
      simp only [step] at h
      split at h
      · rename_i pc hpc
        exact stepCase_move hpc h
      · cases h

theorem Wf.step {l : Label τ} (h : Wf s) (hstep : step emit s l = some t) : Wf t := by
  cases step_cases hstep with
  | quiet _ _ hvars htypes hresults =>
      refine ⟨?_, ?_, ?_⟩
      · rw [hvars, htypes]
        exact h.valid
      · rw [hvars]
        exact h.one_key
      · rw [hresults, htypes]
        exact h.typed
  | found tid name type description var hpc hvar =>
      have hr := (lookUpAs_eq_some_iff.mp hvar).2
      have hwf : Wf (s.hand ⟨name, type, var⟩) := h.hand hr
      exact ⟨hwf.valid, hwf.one_key, hwf.typed⟩
  | insert tid name type description hpc =>
      have hwf : Wf ((s.insert name type description).hand ⟨name, type, s.heap.length⟩) :=
        (h.insert name type description).hand (types_insert_last name type description)
      exact ⟨hwf.valid, hwf.one_key, hwf.typed⟩

/-- What a section of `add` returns is registered if the step is within the condition, and only
then. -/
theorem finds_found_iff {name : StringView} {type : τ} {description : Bytes} {var : Nat} (h : Wf s)
    (hpc : s.threads[tid]? = some (.lookUp name type description))
    (hvar : s.lookUpAs type name = some var) :
    Finds s ⟨name, type, var⟩ ↔ Registers s (.move tid) := by
  have hfound := (lookUpAs_eq_some_iff.mp hvar).1
  simp only [Registers, hpc, hvar, Option.isSome_some, forall_const]
  constructor
  · rintro ⟨-, htext⟩
    exact h.one_key _ _ var htext hfound
  · intro hdata
    refine ⟨hfound, ?_⟩
    change s.vars.lookup (StringView.ofString name.text).data = some var
    rw [hdata]
    exact hfound

theorem finds_insert_iff {name : StringView} {type : τ} {description : Bytes} (h : Wf s)
    (hpc : s.threads[tid]? = some (.insert name type description)) :
    Finds (s.insert name type description) ⟨name, type, s.heap.length⟩ ↔
      Registers s (.move tid) := by
  have hnew : ∀ key, (s.insert name type description).vars.lookup key = some s.heap.length ↔
      key = name.text ∧ s.vars.lookup name.text = none := by
    intro key
    rw [lookup_insert]
    split
    · rename_i hkey
      exact ⟨fun _ => hkey, fun _ => rfl⟩
    · rename_i hkey
      exact ⟨fun hvar => absurd hvar (h.fresh key), fun hkey' => absurd hkey' hkey⟩
  simp only [Registers, hpc]
  constructor
  · rintro ⟨hdata, -⟩
    obtain ⟨hdata, hnone⟩ := (hnew _).mp hdata
    refine ⟨hdata, ?_⟩
    rw [State.lookUp, hdata]
    exact hnone
  · rintro ⟨hdata, hnone⟩
    rw [State.lookUp, hdata] at hnone
    exact ⟨(hnew _).mpr ⟨hdata, hnone⟩,
      (hnew _).mpr ⟨StringView.data_ofString_text hdata, hnone⟩⟩

theorem registered_step {l : Label τ} (h : Wf s) (hreg : Registered emit s) (hl : Registers s l)
    (hstep : step emit s l = some t) : Registered emit t := by
  rw [registered_iff_finds (h.step hstep)]
  rw [registered_iff_finds h] at hreg
  cases step_cases hstep with
  | quiet _ _ hvars _ hresults =>
      intro r hr
      rw [hresults] at hr
      refine (hreg r hr).mono fun key var hvar => ?_
      rw [hvars]
      exact hvar
  | found tid name type description var hpc hvar =>
      intro r hr
      rcases List.mem_cons.mp hr with rfl | hr
      · exact (finds_found_iff h hpc hvar).mpr hl
      · exact hreg r hr
  | insert tid name type description hpc =>
      intro r hr
      rcases List.mem_cons.mp hr with rfl | hr
      · exact (finds_insert_iff h hpc).mpr hl
      · rw [results_insert] at hr
        exact (hreg r hr).mono fun key var hvar => lookup_insert_of_some hvar

theorem not_registered_step {l : Label τ} (h : Wf s) (hl : ¬ Registers s l) :
    ∃ t, step emit s l = some t ∧ ¬ Registered emit t := by
  cases l with
  | call tid c => exact absurd trivial hl
  | move tid =>
      cases hpc : s.threads[tid]? with
      | none => simp [Registers, hpc] at hl
      | some pc =>
          cases pc with
          | lookUp name type description =>
              cases hvar : s.lookUpAs type name with
              | none => simp [Registers, hpc, hvar] at hl
              | some var =>
                  refine ⟨(s.hand ⟨name, type, var⟩).setPc tid .out, ?_, fun hreg => hl ?_⟩
                  · simp only [step, hpc, State.move, hvar]
                  · exact (finds_found_iff h hpc hvar).mp (hreg.lookUp _ List.mem_cons_self)
          | insert name type description =>
              refine ⟨_, by simp only [step, hpc]; rfl, fun hreg => hl ?_⟩
              exact (finds_insert_iff h hpc).mp (hreg.lookUp _ List.mem_cons_self)
          | _ => simp [Registers, hpc] at hl

/-- Every variable that `add` has returned is the registered one, in exactly the runs in which every
section of `add` is within the condition. -/
theorem registered_iff_registers (emit : Node → Bytes) (threads : Nat) (ls : List (Label τ)) :
    StatesMeet (step emit) (Registered emit) (init threads) ls ↔
      StepsMeet (step emit) Registers (init threads) ls := by
  refine statesMeet_iff_stepsMeet (I := Wf) (D := fun _ _ => True) ?_ ?_ ?_ ls _ (wf_init threads)
    ?_ (stepsMeet_true ls _)
  · intro s l t h _ hstep
    exact h.step hstep
  · intro s l t h _ hreg hl hstep
    exact registered_step h hreg hl hstep
  · intro s l h _ _ hl
    exact not_registered_step h hl
  · refine (registered_iff_finds (wf_init threads)).mpr fun r hr => ?_
    exact absurd hr List.not_mem_nil

/-- The view of a literal, of which `count` characters are the name. -/
def literal (s : String) (count : Nat) : StringView :=
  ⟨(ascii s).take count, (ascii s).drop count ++ [0]⟩

/-- Two threads add the same variable: both find the name unregistered, and each creates its own. -/
def twoThreadsAdd : List (Label Nat) :=
  [.call 0 (.add (literal "int" 3) 0 []), .call 1 (.add (literal "int" 3) 0 []), .move 0, .move 1,
    .move 0, .move 1]

/-- One thread adds variables of two types under one name. -/
def twoTypesAdd : List (Label Nat) :=
  [.call 0 (.add (literal "int" 3) 0 []), .move 0, .move 0,
    .call 0 (.add (literal "int" 3) 1 []), .move 0, .move 0]

/-- The name of the second variable is the beginning of the first one's. -/
def partOfName : List (Label Nat) :=
  [.call 0 (.add (literal "int" 3) 0 []), .move 0, .move 0,
    .call 0 (.add (literal "int" 2) 0 []), .move 0]

theorem not_registered :
    ¬ StatesMeet (step fun _ => []) (Registered fun _ => []) (init 2) twoThreadsAdd ∧
      ¬ StatesMeet (step fun _ => []) (Registered fun _ => []) (init 1) twoTypesAdd ∧
      ¬ StatesMeet (step fun _ => []) (Registered fun _ => []) (init 1) partOfName := by
  have hlast : ∀ {threads : Nat} {ls : List (Label Nat)} (r : Result Nat) (t : State Nat),
      run (step fun _ => []) (init threads) ls = some t → r ∈ t.results →
      t.lookUp (.ofString r.name.text) ≠ some r.var →
      ¬ StatesMeet (step fun _ => []) (Registered fun _ => []) (init threads) ls := by
    intro threads ls r t hrun hr hne h
    exact hne ((statesMeet_run _ _ _ h hrun).lookUp r hr).2
  refine ⟨?_, ?_, ?_⟩
  · exact hlast ⟨literal "int" 3, 0, 1⟩ _ rfl (by decide) (by decide)
  · exact hlast ⟨literal "int" 3, 1, 1⟩ _ rfl (by decide) (by decide)
  · exact hlast ⟨literal "int" 2, 0, 0⟩ _ rfl (by decide) (by decide)

end Config

end Saturn
