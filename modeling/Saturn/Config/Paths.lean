import Mathlib.Data.List.Nodup
import Saturn.Config.Registered

/-!
# The paths of a document

`iterateNodes` writes the keys that lead to a node into one string, and `loadFromYaml` looks variables
up by these strings. Where no key has a dot in it the string can be taken apart again, so that a
variable gets the text of the node that its name leads to, and gets it once.
-/

namespace Saturn

namespace Config

open Http (Bytes cstr ascii)

/-- The node that the keys lead to. -/
def Node.at : List Bytes → Node → Option Node
  | [], node => some node
  | key :: keys, .map entries => (entries.lookup key).bind (Node.at keys)
  | _ :: _, _ => none

mutual

/-- All nodes of a document, each with the keys that lead to it, in the order of `iterateNodes`. -/
def positions : Node → List (List Bytes × Node)
  | .map entries => ([], .map entries) :: entryPositions entries
  | .null => [([], .null)]
  | .scalar text => [([], .scalar text)]
  | .sequence items => [([], .sequence items)]

/-- The nodes of the entries of a map. -/
def entryPositions : List (Bytes × Node) → List (List Bytes × Node)
  | [] => []
  | (key, value) :: entries =>
    (positions value).map (fun p => (key :: p.1, p.2)) ++ entryPositions entries

end

/-- A key that stays whole in a path. -/
def Plain (key : Bytes) : Prop := key ≠ [] ∧ 0 ∉ key ∧ 46 ∉ key

instance (key : Bytes) : Decidable (Plain key) := inferInstanceAs (Decidable (_ ∧ _))

mutual

/-- The keys are plain, and no map has one of them twice. -/
def Node.Proper : Node → Prop
  | .map entries => ProperEntries entries
  | _ => True

/-- The same for the entries of a map. -/
def ProperEntries : List (Bytes × Node) → Prop
  | [] => True
  | (key, value) :: entries =>
    Plain key ∧ key ∉ entries.map Prod.fst ∧ value.Proper ∧ ProperEntries entries

end

/-- The path of a node. -/
def dotted (keys : List Bytes) : Bytes := (ascii ".").intercalate keys

section Dotted

variable {keys : List Bytes}

theorem dotted_concat (h : keys ≠ []) (key : Bytes) :
    dotted (keys ++ [key]) = dotted keys ++ ascii "." ++ key := by
  induction keys with
  | nil => exact absurd rfl h
  | cons k keys ih =>
      cases keys with
      | nil => simp [dotted]
      | cons k' keys =>
          have htail : dotted (k' :: keys ++ [key]) = dotted (k' :: keys) ++ ascii "." ++ key :=
            ih (List.cons_ne_nil _ _)
          simp only [dotted, List.cons_append, List.intercalate_cons_cons] at htail ⊢
          rw [htail]
          simp

theorem dotted_isEmpty (h : ∀ key ∈ keys, Plain key) : (dotted keys).isEmpty = keys.isEmpty := by
  cases keys with
  | nil => rfl
  | cons key keys =>
      obtain ⟨hne, -⟩ := h key List.mem_cons_self
      cases keys with
      | nil => simpa [dotted] using hne
      | cons key' keys => simp [dotted, hne]

theorem zero_not_mem_dotted (h : ∀ key ∈ keys, Plain key) : 0 ∉ dotted keys := by
  induction keys with
  | nil => exact List.not_mem_nil
  | cons key keys ih =>
      have hkey := (h key List.mem_cons_self).2.1
      have hkeys := ih fun k hk => h k (List.mem_cons_of_mem _ hk)
      cases keys with
      | nil => simpa [dotted] using hkey
      | cons key' keys =>
          have hdot : (0 : UInt8) ∉ ascii "." := by decide
          simp only [dotted, List.intercalate_cons_cons, List.mem_append, not_or] at hkeys ⊢
          exact ⟨⟨hkey, hdot⟩, hkeys⟩

theorem cstr_of_zero_not_mem {path : Bytes} (h : 0 ∉ path) : cstr path = path := by
  rw [cstr, List.takeWhile_eq_self_iff]
  intro c hc
  simpa using fun hzero : c = 0 => h (hzero ▸ hc)

/-- The keys are read back from the path. -/
theorem splitOn_dotted (h : ∀ key ∈ keys, Plain key) (hne : keys ≠ []) :
    (dotted keys).splitOn 46 = keys :=
  List.splitOn_intercalate 46 (fun key hkey => (h key hkey).2.2) hne

theorem dotted_splitOn (name : Bytes) : dotted (name.splitOn 46) = name :=
  List.intercalate_splitOn 46

end Dotted

section Positions

mutual

/-- `iterateNodes` visits the positions. -/
theorem iterateNodes_eq : ∀ (node : Node) (keys : List Bytes), node.Proper →
    (∀ key ∈ keys, Plain key) → iterateNodes (dotted keys) node =
      (positions node).map fun p => (dotted (keys ++ p.1), p.2)
  | .map entries, keys, hproper, hkeys => by
      rw [iterateNodes, positions, List.map_cons, List.append_nil,
        cstr_of_zero_not_mem (zero_not_mem_dotted hkeys), iterateEntries_eq entries keys hproper hkeys]
  | .null, keys, _, hkeys => by
      simp [iterateNodes, positions, cstr_of_zero_not_mem (zero_not_mem_dotted hkeys)]
  | .scalar _, keys, _, hkeys => by
      simp [iterateNodes, positions, cstr_of_zero_not_mem (zero_not_mem_dotted hkeys)]
  | .sequence _, keys, _, hkeys => by
      simp [iterateNodes, positions, cstr_of_zero_not_mem (zero_not_mem_dotted hkeys)]

theorem iterateEntries_eq : ∀ (entries : List (Bytes × Node)) (keys : List Bytes),
    ProperEntries entries → (∀ key ∈ keys, Plain key) → iterateEntries (dotted keys) entries =
      (entryPositions entries).map fun p => (dotted (keys ++ p.1), p.2)
  | [], _, _, _ => rfl
  | (key, value) :: entries, keys, hproper, hkeys => by
      obtain ⟨hkey, -, hvalue, hentries⟩ := hproper
      have hnext : ∀ k ∈ keys ++ [key], Plain k := by
        intro k hk
        rcases List.mem_append.mp hk with hk | hk
        · exact hkeys k hk
        · exact List.mem_singleton.mp hk ▸ hkey
      have hpath : (if (dotted keys).isEmpty then key else dotted keys ++ ascii "." ++ key) =
          dotted (keys ++ [key]) := by
        rw [dotted_isEmpty hkeys]
        cases keys with
        | nil => simp [dotted]
        | cons k keys => exact (dotted_concat (List.cons_ne_nil _ _) key).symm
      rw [iterateEntries, hpath, iterateNodes_eq value (keys ++ [key]) hvalue hnext,
        iterateEntries_eq entries keys hentries hkeys, entryPositions, List.map_append, List.map_map]
      simp [Function.comp_def]

end

theorem head_mem_of_entryPositions {entries : List (Bytes × Node)} {p : List Bytes × Node}
    (h : p ∈ entryPositions entries) : ∃ key keys, p.1 = key :: keys ∧ key ∈ entries.map Prod.fst := by
  induction entries with
  | nil => exact absurd h List.not_mem_nil
  | cons entry entries ih =>
      rcases List.mem_append.mp h with h | h
      · obtain ⟨q, -, rfl⟩ := List.mem_map.mp h
        exact ⟨entry.1, q.1, rfl, List.mem_cons_self⟩
      · obtain ⟨key, keys, hp, hkey⟩ := ih h
        exact ⟨key, keys, hp, List.mem_cons_of_mem _ hkey⟩

mutual

theorem plain_of_positions : ∀ {node : Node} {p : List Bytes × Node}, node.Proper →
    p ∈ positions node → ∀ key ∈ p.1, Plain key
  | .map entries, p, hproper, hp => by
      rcases List.mem_cons.mp hp with rfl | hp
      · exact fun key hkey => absurd hkey List.not_mem_nil
      · exact plain_of_entryPositions hproper hp
  | .null, p, _, hp | .scalar _, p, _, hp | .sequence _, p, _, hp => by
      rw [List.mem_singleton.mp hp]
      exact fun key hkey => absurd hkey List.not_mem_nil

theorem plain_of_entryPositions : ∀ {entries : List (Bytes × Node)} {p : List Bytes × Node},
    ProperEntries entries → p ∈ entryPositions entries → ∀ key ∈ p.1, Plain key
  | [], _, _, hp => absurd hp List.not_mem_nil
  | (key, value) :: entries, p, hproper, hp => by
      obtain ⟨hkey, -, hvalue, hentries⟩ := hproper
      rcases List.mem_append.mp hp with hp | hp
      · obtain ⟨q, hq, rfl⟩ := List.mem_map.mp hp
        intro k hk
        rcases List.mem_cons.mp hk with rfl | hk
        · exact hkey
        · exact plain_of_positions hvalue hq k hk
      · exact plain_of_entryPositions hentries hp

end

mutual

/-- No two nodes are at one place. -/
theorem nodup_positions : ∀ {node : Node}, node.Proper → ((positions node).map Prod.fst).Nodup
  | .map entries, hproper => by
      rw [positions, List.map_cons, List.nodup_cons]
      refine ⟨fun hnil => ?_, nodup_entryPositions hproper⟩
      obtain ⟨p, hp, hfst⟩ := List.mem_map.mp hnil
      obtain ⟨key, keys, hcons, -⟩ := head_mem_of_entryPositions hp
      cases hfst.symm.trans hcons
  | .null, _ | .scalar _, _ | .sequence _, _ => by simp [positions]

theorem nodup_entryPositions : ∀ {entries : List (Bytes × Node)}, ProperEntries entries →
    ((entryPositions entries).map Prod.fst).Nodup
  | [], _ => List.nodup_nil
  | (key, value) :: entries, hproper => by
      obtain ⟨-, hfresh, hvalue, hentries⟩ := hproper
      rw [entryPositions, List.map_append, List.map_map, List.nodup_append]
      refine ⟨?_, nodup_entryPositions hentries, ?_⟩
      · have hcons := List.Nodup.map (List.cons_injective (a := key)) (nodup_positions hvalue)
        rwa [List.map_map] at hcons
      · rintro keys hkeys _ hrest rfl
        obtain ⟨p, -, rfl⟩ := List.mem_map.mp hkeys
        obtain ⟨q, hq, hfst⟩ := List.mem_map.mp hrest
        obtain ⟨k, ks, hcons, hk⟩ := head_mem_of_entryPositions hq
        obtain ⟨rfl, -⟩ := List.cons.inj (hcons.symm.trans hfst)
        exact hfresh hk

end

mutual

/-- The positions are what the keys lead to. -/
theorem mem_positions : ∀ {node : Node}, node.Proper → ∀ (keys : List Bytes) (n : Node),
    (keys, n) ∈ positions node ↔ node.at keys = some n
  | .map entries, hproper, [], n => by
      simp only [positions, Node.at, List.mem_cons, Prod.mk.injEq, true_and, Option.some.injEq,
        eq_comm (a := n), or_iff_left_iff_imp]
      intro hmem
      obtain ⟨key, keys, hcons, -⟩ := head_mem_of_entryPositions hmem
      cases hcons
  | .map entries, hproper, key :: keys, n => by
      rw [Node.at, ← mem_entryPositions hproper key keys n, positions, List.mem_cons]
      simp
  | .null, _, [], n | .scalar _, _, [], n | .sequence _, _, [], n => by
      simp [positions, Node.at, eq_comm (a := n)]
  | .null, _, key :: keys, n | .scalar _, _, key :: keys, n | .sequence _, _, key :: keys, n => by
      simp [positions, Node.at]

theorem mem_entryPositions : ∀ {entries : List (Bytes × Node)}, ProperEntries entries →
    ∀ (key : Bytes) (keys : List Bytes) (n : Node), (key :: keys, n) ∈ entryPositions entries ↔
      (entries.lookup key).bind (Node.at keys) = some n
  | [], _, key, keys, n => by simp [entryPositions]
  | (k, value) :: entries, hproper, key, keys, n => by
      obtain ⟨-, hfresh, hvalue, hentries⟩ := hproper
      rw [entryPositions, List.mem_append, List.lookup_cons]
      by_cases hkey : key = k
      · subst hkey
        have hrest : (key :: keys, n) ∉ entryPositions entries := by
          intro hmem
          obtain ⟨k, ks, hcons, hk⟩ := head_mem_of_entryPositions hmem
          obtain ⟨rfl, -⟩ := List.cons.inj hcons
          exact hfresh hk
        simp [hrest, mem_positions hvalue]
      · have hhead : (key :: keys, n) ∉ (positions value).map fun p => (k :: p.1, p.2) := by
          intro hmem
          obtain ⟨q, -, hq⟩ := List.mem_map.mp hmem
          exact hkey (List.cons.inj (Prod.mk.inj hq).1).1.symm
        have hbeq : (key == k) = false := by simpa using hkey
        rw [hbeq]
        simp only [hhead, false_or]
        exact mem_entryPositions hentries key keys n

end

end Positions

section Load

variable {τ : Type*} {emit : Node → Bytes} {s : State τ} {tid : Nat}

/-- The variable after calls of `fromString` with these texts, the last one first. -/
def ConfigVar.fromStrings (texts : List Bytes) (var : ConfigVar τ) : ConfigVar τ :=
  { var with texts := texts ++ var.texts }

/-- What a variable is given by a load of these nodes, the last text first. -/
def State.given (emit : Node → Bytes) (s : State τ) (nodes : List (Bytes × Node)) (var : Nat) :
    List Bytes :=
  ((nodes.filter fun p => decide (p.1 ≠ [] ∧ s.lookUp (.ofString p.1) = some var)).map
    fun p => p.2.print emit).reverse

theorem fromStrings_nil : (ConfigVar.fromStrings [] : ConfigVar τ → ConfigVar τ) = id := rfl

theorem fromStrings_comp (texts texts' : List Bytes) :
    (ConfigVar.fromStrings texts ∘ ConfigVar.fromStrings texts' : ConfigVar τ → ConfigVar τ) =
      ConfigVar.fromStrings (texts ++ texts') := by
  funext var
  simp [ConfigVar.fromStrings]

theorem given_cons (p : Bytes × Node) (nodes : List (Bytes × Node)) (var : Nat) :
    s.given emit (p :: nodes) var = s.given emit nodes var ++ s.given emit [p] var := by
  rw [← List.singleton_append, State.given, List.filter_append, List.map_append, List.reverse_append]
  rfl

/-- Of a table with distinct keys one entry at most has the key. -/
theorem filter_key {κ ν : Type*} [DecidableEq κ] {table : List (κ × ν)} {k : κ} {o : Option ν}
    (hnodup : (table.map Prod.fst).Nodup) (hmem : ∀ v, (k, v) ∈ table ↔ o = some v) :
    (table.filter fun e => decide (e.1 = k)).map Prod.snd = o.toList := by
  induction table generalizing o with
  | nil =>
      cases o with
      | none => rfl
      | some v => exact absurd ((hmem v).mpr rfl) List.not_mem_nil
  | cons e table ih =>
      obtain ⟨hfresh, hnodup⟩ := List.nodup_cons.mp hnodup
      by_cases hkey : e.1 = k
      · obtain rfl : o = some e.2 := (hmem e.2).mp (by rw [← hkey]; exact List.mem_cons_self)
        have hrest : ∀ e' ∈ table, ¬ e'.1 = k := by
          rintro e' he' heq
          exact hfresh (by rw [hkey, ← heq]; exact List.mem_map_of_mem he')
        have hnil : table.filter (fun e => decide (e.1 = k)) = [] := by
          simpa [List.filter_eq_nil_iff] using hrest
        simp [hkey, hnil]
      · have hhead : ∀ v, (k, v) ≠ e := fun v heq => hkey (by rw [← heq])
        rw [List.filter_cons_of_neg (by simpa using hkey)]
        exact ih hnodup fun v => by rw [← hmem v, List.mem_cons, or_iff_right (hhead v)]

/-- Of the paths of a document, those that are a name belong to the node that the name leads to. -/
theorem filter_iterateNodes {root : Node} (hroot : root.Proper) (name : Bytes) :
    ((iterateNodes [] root).filter fun p =>
      decide (p.1 ≠ [] ∧ (StringView.ofString p.1).data = name)).map Prod.snd =
      (root.at (name.splitOn 46)).toList := by
  have hpaths : iterateNodes [] root = (positions root).map fun p => (dotted p.1, p.2) :=
    iterateNodes_eq root [] hroot fun key hkey => absurd hkey List.not_mem_nil
  have hreaches : ∀ p ∈ positions root,
      decide (dotted p.1 ≠ [] ∧ (StringView.ofString (dotted p.1)).data = name) =
        decide (p.1 = name.splitOn 46) := by
    intro p hp
    have hplain := plain_of_positions hroot hp
    have hzero := zero_not_mem_dotted hplain
    have hempty := dotted_isEmpty hplain
    rw [decide_eq_decide, StringView.data_ofString, cstr_of_zero_not_mem hzero]
    constructor
    · rintro ⟨hne, rfl⟩
      have hkeys : p.1 ≠ [] := fun hnil => hne (by rw [hnil]; rfl)
      rw [splitOn_dotted hplain hkeys]
    · intro hkeys
      rw [hkeys, dotted_splitOn]
      refine ⟨fun hnil => ?_, rfl⟩
      rw [hkeys, dotted_splitOn, hnil] at hempty
      exact List.splitOn_ne_nil 46 [] (List.isEmpty_iff.mp hempty.symm)
  have hfilter : ((positions root).filter ((fun p : Bytes × Node =>
      decide (p.1 ≠ [] ∧ (StringView.ofString p.1).data = name)) ∘ fun p => (dotted p.1, p.2))) =
      (positions root).filter fun p => decide (p.1 = name.splitOn 46) :=
    List.filter_congr fun p hp => hreaches p hp
  rw [hpaths, List.filter_map, List.map_map, hfilter]
  exact filter_key (nodup_positions hroot) (mem_positions hroot (name.splitOn 46))

/-- What a variable is given by a document: the text of the node that its name leads to. -/
theorem given_iterateNodes (h : Wf s) {root : Node} (hroot : root.Proper) {name : Bytes} {var : Nat}
    (hname : s.vars.lookup name = some var) : s.given emit (iterateNodes [] root) var =
      ((root.at (name.splitOn 46)).map (Node.print emit)).toList := by
  have hvar : ∀ path, s.lookUp (.ofString path) = some var ↔ (StringView.ofString path).data = name :=
    fun path => ⟨fun hpath => h.one_key _ _ _ hpath hname, fun hpath => by rw [State.lookUp, hpath, hname]⟩
  have hprint : (fun p : Bytes × Node => p.2.print emit) = Node.print emit ∘ Prod.snd := rfl
  simp only [State.given, hvar]
  rw [hprint, ← List.map_map, filter_iterateNodes hroot name]
  cases root.at (name.splitOn 46) <;> rfl

/-- A variable that is not registered is given nothing. -/
theorem given_of_unregistered {var : Nat} (h : ∀ name, s.vars.lookup name ≠ some var)
    (nodes : List (Bytes × Node)) : s.given emit nodes var = [] := by
  have hnever : ∀ path, s.lookUp (.ofString path) ≠ some var := fun path => h _
  simp [State.given, hnever]

variable [DecidableEq τ]

/-- One move of a load: past the first node, or to `fromString` of the variable and then past it. -/
theorem run_load_cons (emit : Node → Bytes) {path : Bytes} {node : Node} {nodes : List (Bytes × Node)}
    (hpc : s.threads[tid]? = some (.load ((path, node) :: nodes))) :
    ∃ (n : Nat) (t : State τ), run (step emit) s (List.replicate n (.move tid)) = some t ∧ t.vars = s.vars ∧
      t.threads = s.threads.set tid (.load nodes) ∧ ∀ var : Nat, t.heap[var]? =
        s.heap[var]?.map (ConfigVar.fromStrings (s.given emit [(path, node)] var)) := by
  by_cases hempty : path = []
  · subst hempty
    refine ⟨1, s.setPc tid (.load nodes), ?_, rfl, rfl, fun var => ?_⟩
    · simp [run_cons, step, hpc, State.move]
    · change s.heap[var]? = s.heap[var]?.map (ConfigVar.fromStrings [])
      rw [fromStrings_nil, Option.map_id, id]
  · have hpath : path.isEmpty = false := by simpa using hempty
    cases hvar : s.lookUp (.ofString path) with
    | none =>
        refine ⟨1, s.setPc tid (.load nodes), ?_, rfl, rfl, fun var => ?_⟩
        · simp [run_cons, step, hpc, State.move, hpath, hvar]
        · have hgiven : s.given emit [(path, node)] var = [] := by simp [State.given, hvar]
          rw [hgiven, fromStrings_nil, Option.map_id]
          rfl
    | some var =>
        have hnext : (s.setPc tid (.fromString var (node.print emit) nodes)).threads[tid]? =
            some (.fromString var (node.print emit) nodes) := by
          rw [State.setPc, getElem?_set_of_some hpc, if_pos rfl]
        refine ⟨2, ((s.setPc tid (.fromString var (node.print emit) nodes)).fromString var
          (node.print emit)).setPc tid (.load nodes), ?_, rfl, ?_, fun var' => ?_⟩
        · simp [List.replicate, run_cons, step, hpc, State.move, hpath, hvar, hnext]
        · exact List.set_set ..
        · change (s.heap.modify var _)[var']? = _
          rw [List.getElem?_modify]
          by_cases heq : var = var'
          · subst heq
            have hgiven : s.given emit [(path, node)] var = [node.print emit] := by
              simp [State.given, hvar, hempty]
            rw [hgiven]
            cases s.heap[var]? <;> simp [ConfigVar.fromString, ConfigVar.fromStrings]
          · have hgiven : s.given emit [(path, node)] var' = [] := by simp [State.given, hvar, heq]
            rw [hgiven, fromStrings_nil, Option.map_id]
            simp [heq]

/-- A load that no other thread interrupts. -/
theorem run_load_all (emit : Node → Bytes) : ∀ (nodes : List (Bytes × Node)) (s : State τ),
    s.threads[tid]? = some (.load nodes) →
    ∃ (n : Nat) (t : State τ), run (step emit) s (List.replicate n (.move tid)) = some t ∧ t.vars = s.vars ∧
      t.threads = s.threads.set tid .out ∧ ∀ var : Nat, t.heap[var]? =
        s.heap[var]?.map (ConfigVar.fromStrings (s.given emit nodes var)) := by
  intro nodes
  induction nodes with
  | nil =>
      intro s hpc
      refine ⟨1, s.setPc tid .out, ?_, rfl, rfl, fun var => ?_⟩
      · simp [run_cons, step, hpc, State.move]
      · cases hv : s.heap[var]? <;> simp [State.setPc, State.given, ConfigVar.fromStrings, hv]
  | cons p nodes ih =>
      intro s hpc
      obtain ⟨n, t, hrun, hvars, hthreads, hheap⟩ := run_load_cons emit hpc
      have hnext : t.threads[tid]? = some (.load nodes) := by
        rw [hthreads, getElem?_set_of_some hpc, if_pos rfl]
      obtain ⟨m, u, hrest, hvars', hthreads', hheap'⟩ := ih t hnext
      have hgiven : ∀ var, t.given emit nodes var = s.given emit nodes var := by
        intro var
        unfold State.given State.lookUp
        rw [hvars]
      refine ⟨n + m, u, ?_, hvars'.trans hvars, ?_, fun var => ?_⟩
      · rw [List.replicate_add, run_append, hrun, Option.bind_some]
        exact hrest
      · rw [hthreads', hthreads, List.set_set]
      · rw [hheap', hheap, hgiven, given_cons p nodes, Option.map_map, fromStrings_comp]

/-- A document that a thread loads in any reachable state, with no other thread in between: every
registered variable gets the text of the node that the keys of its name lead to, once, and no other
text, and the variables that are not registered get none. -/
theorem loadFromYaml_delivers (emit : Node → Bytes) (threads : Nat) (ls : List (Label τ)) {s : State τ}
    (hrun : run (step emit) (init threads) ls = some s) {tid : Nat} (hout : s.threads[tid]? = some .out)
    {root : Node} (hroot : root.Proper) :
    ∃ (n : Nat) (t : State τ),
      run (step emit) s (.call tid (.loadFromYaml root) :: List.replicate n (.move tid)) = some t ∧
      t.vars = s.vars ∧ t.threads = s.threads ∧
      (∀ name var, s.vars.lookup name = some var → t.heap[var]? = s.heap[var]?.map
        (ConfigVar.fromStrings ((root.at (name.splitOn 46)).map (Node.print emit)).toList)) ∧
      ∀ var : Nat, (∀ name, s.vars.lookup name ≠ some var) → t.heap[var]? = s.heap[var]? := by
  have hwf : Wf s := run_invariant (C := fun _ _ => True) (fun _ _ _ h _ hstep => h.step hstep) ls _ s
    (wf_init threads) (stepsMeet_true ls _) hrun
  have hcall : step emit s (.call tid (.loadFromYaml root)) =
      some (s.setPc tid (.load (iterateNodes [] root))) := by
    simp only [step, hout]
    rfl
  have hpc : (s.setPc tid (.load (iterateNodes [] root))).threads[tid]? =
      some (.load (iterateNodes [] root)) := by
    rw [State.setPc, getElem?_set_of_some hout, if_pos rfl]
  obtain ⟨n, t, hload, hvars, hthreads, hheap⟩ := run_load_all emit _ _ hpc
  refine ⟨n, t, ?_, hvars, ?_, fun name var hname => ?_, fun var hvar => ?_⟩
  · rw [run_cons, hcall, Option.bind_some]
    exact hload
  · rw [hthreads]
    exact (List.set_set ..).trans (set_of_getElem? hout)
  · rw [hheap var, ← given_iterateNodes hwf hroot hname]
    rfl
  · have hnone : ∀ name, (s.setPc tid (.load (iterateNodes [] root))).vars.lookup name ≠ some var := hvar
    rw [hheap var, given_of_unregistered hnone, fromStrings_nil, Option.map_id]
    rfl

/-- A variable, and a document with a node for it two maps deep. -/
def addSize : List (Label Nat) :=
  [.call 0 (.add (literal "http.size" 9) 0 []), .move 0, .move 0]

/-- The node of the variable is under two keys. -/
def sizes : Node :=
  .map [(ascii "name", .scalar (ascii "saturn")),
    (ascii "http", .map [(ascii "kinds", .sequence []), (ascii "size", .scalar (ascii "8"))])]

theorem loadFromYaml_delivers_sizes :
    ∃ (s : State Nat) (n : Nat) (t : State Nat), run (step fun _ => []) (init 1) addSize = some s ∧
      run (step fun _ => []) s (.call 0 (.loadFromYaml sizes) :: List.replicate n (.move 0)) = some t ∧
      t.heap[0]?.map ConfigVar.texts = some [ascii "8"] := by
  have hproper : sizes.Proper := by
    simp only [sizes, Node.Proper, ProperEntries]
    decide
  have hadded : ∃ s : State Nat, run (step fun _ => []) (init 1) addSize = some s ∧
      s.threads[0]? = some .out ∧ s.vars.lookup (ascii "http.size") = some 0 ∧
      s.heap[0]?.map ConfigVar.texts = some [] := ⟨_, rfl, rfl, by decide, rfl⟩
  obtain ⟨s, hrun, hout, hname, htexts⟩ := hadded
  obtain ⟨n, t, hload, -, -, hheap, -⟩ := loadFromYaml_delivers (fun _ => []) 1 addSize hrun hout hproper
  refine ⟨s, n, t, hrun, hload, ?_⟩
  obtain ⟨v, hv, hnil⟩ := Option.map_eq_some_iff.mp htexts
  rw [hheap _ 0 hname, hv, Option.map_some, Option.map_some, ConfigVar.fromStrings, hnil]
  rfl

end Load

end Config

end Saturn
