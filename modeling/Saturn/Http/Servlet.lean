import Mathlib.Data.List.Induction
import Mathlib.Logic.Function.Basic
import Saturn.Http.Message
import Saturn.Misc.Ordered

/-!
# `ServletDispatch`

The dispatcher keeps servlets by exact uri and by pattern. Both are ordered tables of the calls that
changed them: the order of the patterns decides which of them serves a uri.
-/

namespace Saturn

namespace Http

/-- What a `Servlet::ptr` holds. -/
inductive Servlet (α κ : Type*)
  | null
  | notFound
  | function (cb : κ)
  | other (slt : α)
  deriving Repr, DecidableEq

/-- The members of `ServletDispatch`. -/
structure ServletDispatch (α κ : Type*) where
  datas : Bytes → Option (Servlet α κ)
  globs : List (Bytes × Servlet α κ)
  default : Servlet α κ

namespace ServletDispatch

variable {α κ : Type*} (s : ServletDispatch α κ)

/-- `ServletDispatch::ServletDispatch` -/
def new : ServletDispatch α κ := ⟨fun _ => none, [], .notFound⟩

/-- `m_datas[uri] = slt` -/
def addServlet (uri : Bytes) (slt : Servlet α κ) : ServletDispatch α κ :=
  { s with datas := Function.update s.datas uri (some slt) }

/-- `addServlet` with a callback. -/
def addServletCb (uri : Bytes) (cb : κ) : ServletDispatch α κ := s.addServlet uri (.function cb)

/-- The entry of the pattern goes, and a new one comes behind the others. -/
def addGlobServlet (uri : Bytes) (slt : Servlet α κ) : ServletDispatch α κ :=
  { s with globs := (s.globs.eraseP fun it => it.1 = uri) ++ [(uri, slt)] }

/-- `addGlobServlet` with a callback. -/
def addGlobServletCb (uri : Bytes) (cb : κ) : ServletDispatch α κ :=
  s.addGlobServlet uri (.function cb)

/-- `m_datas.erase(uri)` -/
def delServlet (uri : Bytes) : ServletDispatch α κ :=
  { s with datas := Function.update s.datas uri none }

/-- The first entry of the pattern goes. -/
def delGlobServlet (uri : Bytes) : ServletDispatch α κ :=
  { s with globs := s.globs.eraseP fun it => it.1 = uri }

/-- `m_default = v` -/
def setDefault (v : Servlet α κ) : ServletDispatch α κ := { s with default := v }

/-- What is registered for the very uri. -/
def getServlet (uri : Bytes) : Servlet α κ := (s.datas uri).getD .null

/-- What is registered for the very pattern. -/
def getGlobServlet (uri : Bytes) : Servlet α κ :=
  match s.globs.find? fun it => it.1 = uri with
  | some it => it.2
  | none => .null

section Matching

variable (fnmatch : Bytes → Bytes → Int)

/-- The first entry of the patterns that `fnmatch` finds to match. -/
def matchGlob (uri : Bytes) : Option (Bytes × Servlet α κ) :=
  s.globs.find? fun it => fnmatch (cstr it.1) (cstr uri) = 0

/-- The exact entry before the patterns, and these before the default. -/
def getMatchedServlet (uri : Bytes) : Servlet α κ :=
  match s.datas uri with
  | some slt => slt
  | none =>
    match s.matchGlob fnmatch uri with
    | some it => it.2
    | none => s.default

/-- The servlet that `handle` passes the request on to. -/
def handle (path : Bytes) : Option (Servlet α κ) :=
  match s.getMatchedServlet fnmatch path with
  | .null => none
  | slt => some slt

end Matching

/-- A call that changes the dispatcher. -/
inductive Call (α κ : Type*)
  | addServlet (uri : Bytes) (slt : Servlet α κ)
  | addServletCb (uri : Bytes) (cb : κ)
  | addGlobServlet (uri : Bytes) (slt : Servlet α κ)
  | addGlobServletCb (uri : Bytes) (cb : κ)
  | delServlet (uri : Bytes)
  | delGlobServlet (uri : Bytes)
  | setDefault (v : Servlet α κ)

/-- What a call does. -/
def call : Call α κ → ServletDispatch α κ
  | .addServlet uri slt => s.addServlet uri slt
  | .addServletCb uri cb => s.addServletCb uri cb
  | .addGlobServlet uri slt => s.addGlobServlet uri slt
  | .addGlobServletCb uri cb => s.addGlobServletCb uri cb
  | .delServlet uri => s.delServlet uri
  | .delGlobServlet uri => s.delGlobServlet uri
  | .setDefault v => s.setDefault v

/-- The dispatcher behind the calls. -/
def after (calls : List (Call α κ)) : ServletDispatch α κ := calls.foldl call new

namespace Call

/-- What a call changes in the table of the exact uris. -/
def exact : Call α κ → Option (Ordered.Op Bytes (Servlet α κ))
  | addServlet uri slt => some (.put uri slt)
  | addServletCb uri cb => some (.put uri (.function cb))
  | delServlet uri => some (.drop uri)
  | _ => none

/-- What a call changes in the table of the patterns. -/
def glob : Call α κ → Option (Ordered.Op Bytes (Servlet α κ))
  | addGlobServlet uri slt => some (.put uri slt)
  | addGlobServletCb uri cb => some (.put uri (.function cb))
  | delGlobServlet uri => some (.drop uri)
  | _ => none

/-- The default that a call sets. -/
def default : Call α κ → Option (Servlet α κ)
  | setDefault v => some v
  | _ => none

end Call

section History

variable (calls : List (Call α κ))

/-- The servlets registered for exact uris and not deleted since. -/
def exactTable : List (Bytes × Servlet α κ) := Ordered.live (calls.filterMap Call.exact)

/-- The servlets registered for patterns and not deleted since, by the time of registration. -/
def globTable : List (Bytes × Servlet α κ) := Ordered.live (calls.filterMap Call.glob)

/-- The default set last. -/
def lastDefault : Servlet α κ := ((calls.filterMap Call.default).getLast?).getD .notFound

/-- The dispatcher that two ordered tables make. -/
def Tables : Prop :=
  (∀ uri, (after calls).datas uri = Ordered.get uri (exactTable calls)) ∧
    (after calls).globs = globTable calls ∧ (after calls).default = lastDefault calls

end History

theorem after_concat (calls : List (Call α κ)) (c : Call α κ) :
    after (calls ++ [c]) = (after calls).call c := by
  simp [after]

theorem datas_call (c : Call α κ) (uri : Bytes) : (s.call c).datas uri =
    c.exact.elim (s.datas uri) fun op => if uri = op.key then op.value else s.datas uri := by
  cases c with
  | addServlet uri' slt => exact Function.update_apply s.datas uri' (some slt) uri
  | addServletCb uri' cb => exact Function.update_apply s.datas uri' (some (.function cb)) uri
  | delServlet uri' => exact Function.update_apply s.datas uri' none uri
  | _ => rfl

theorem globs_call (c : Call α κ) :
    (s.call c).globs = c.glob.elim s.globs (Ordered.apply s.globs) := by
  cases c with
  | delGlobServlet uri => exact (List.append_nil _).symm
  | _ => rfl

theorem default_call (c : Call α κ) : (s.call c).default = c.default.getD s.default := by
  cases c <;> rfl

theorem get_exactTable_concat (calls : List (Call α κ)) (c : Call α κ) (uri : Bytes) :
    Ordered.get uri (exactTable (calls ++ [c])) =
      c.exact.elim (Ordered.get uri (exactTable calls)) fun op =>
        if uri = op.key then op.value else Ordered.get uri (exactTable calls) := by
  unfold exactTable
  rw [List.filterMap_append]
  cases hc : c.exact with
  | none => simp [hc]
  | some op => simp [hc, Ordered.get_live_concat]

theorem globTable_concat (calls : List (Call α κ)) (c : Call α κ) : globTable (calls ++ [c]) =
    c.glob.elim (globTable calls) (Ordered.apply (globTable calls)) := by
  unfold globTable
  rw [List.filterMap_append]
  cases hc : c.glob with
  | none => simp [hc]
  | some op => simp [hc, Ordered.live_concat]

theorem lastDefault_concat (calls : List (Call α κ)) (c : Call α κ) :
    lastDefault (calls ++ [c]) = c.default.getD (lastDefault calls) := by
  unfold lastDefault
  rw [List.filterMap_append]
  cases hc : c.default with
  | none => simp [hc]
  | some v => simp [hc]

/-- Every call changes the dispatcher as it changes the two tables. -/
theorem tables (calls : List (Call α κ)) : Tables calls := by
  induction calls using List.reverseRecOn with
  | nil => exact ⟨fun _ => rfl, rfl, rfl⟩
  | append_singleton calls c ih =>
      obtain ⟨hdatas, hglobs, hdefault⟩ := ih
      unfold Tables
      rw [after_concat]
      refine ⟨fun uri => ?_, ?_, ?_⟩
      · rw [datas_call, get_exactTable_concat, hdatas]
      · rw [globs_call, globTable_concat, hglobs]
      · rw [default_call, lastDefault_concat, hdefault]

/-- The lookups by uri and by pattern read the tables. -/
theorem lookups_eq (calls : List (Call α κ)) (uri : Bytes) :
    (after calls).getServlet uri = (Ordered.get uri (exactTable calls)).getD .null ∧
    (after calls).getGlobServlet uri = (Ordered.get uri (globTable calls)).getD .null := by
  obtain ⟨hdatas, hglobs, -⟩ := tables calls
  refine ⟨by rw [getServlet, hdatas], ?_⟩
  rw [getGlobServlet, hglobs]
  change _ = (((globTable calls).find? fun it => it.1 = uri).map Prod.snd).getD .null
  cases (globTable calls).find? fun it => it.1 = uri with
  | none => rfl
  | some it => rfl

/-- An entry of one of the two tables. -/
inductive Entry
  | exact (uri : Bytes)
  | glob (pattern : Bytes)

/-- The call that takes an entry away. -/
def delete : Entry → ServletDispatch α κ
  | .exact uri => s.delServlet uri
  | .glob pattern => s.delGlobServlet pattern

section Matching

variable (fnmatch : Bytes → Bytes → Int)

/-- The entry that serves the uri, if it is not left to the default. -/
def server (uri : Bytes) : Option Entry :=
  if (s.datas uri).isSome then some (.exact uri)
  else (s.matchGlob fnmatch uri).map fun it => .glob it.1

theorem server_of_registered {uri : Bytes} {slt : Servlet α κ} (h : s.datas uri = some slt) :
    s.server fnmatch uri = some (.exact uri) := by
  simp [server, h]

theorem server_of_unregistered {uri : Bytes} (h : s.datas uri = none) :
    s.server fnmatch uri = (s.matchGlob fnmatch uri).map fun it => .glob it.1 := by
  simp [server, h]

theorem getMatchedServlet_eq (uri : Bytes) : s.getMatchedServlet fnmatch uri =
    ((s.datas uri).or ((s.matchGlob fnmatch uri).map Prod.snd)).getD s.default := by
  unfold getMatchedServlet
  cases s.datas uri with
  | some slt => rfl
  | none => cases s.matchGlob fnmatch uri <;> rfl

/-- A uri that an entry does not serve does not notice that the entry is deleted. -/
theorem getMatchedServlet_delete {e : Entry} {uri : Bytes} (h : s.server fnmatch uri ≠ some e) :
    (s.delete e).getMatchedServlet fnmatch uri = s.getMatchedServlet fnmatch uri := by
  rw [getMatchedServlet_eq, getMatchedServlet_eq]
  cases hdata : s.datas uri with
  | some slt =>
      rw [server_of_registered s fnmatch hdata] at h
      cases e with
      | exact uri' =>
          have hne : uri ≠ uri' := fun heq => h (heq ▸ rfl)
          simp [delete, delServlet, hne, hdata]
      | glob pattern => simp [delete, delGlobServlet, hdata]
  | none =>
      rw [server_of_unregistered s fnmatch hdata] at h
      cases e with
      | exact uri' => simp [delete, delServlet, matchGlob, Function.update_apply, hdata]
      | glob pattern =>
          have hmatch : (s.delGlobServlet pattern).matchGlob fnmatch uri = s.matchGlob fnmatch uri := by
            apply Ordered.find?_erase
            intro it hit heq
            exact h (by rw [matchGlob, hit, Option.map_some, heq])
          change ((s.datas uri).or (((s.delGlobServlet pattern).matchGlob fnmatch uri).map
            Prod.snd)).getD s.default = _
          rw [hmatch, hdata]

/-- Behind any calls, the patterns are the registered ones, each once and by its last registration; a
uri is served by the servlet registered for it, else by that of the first pattern that matches, else
by the default; and without one of the entries the uris it does not serve are served as before. -/
theorem dispatch_spec (calls : List (Call α κ)) (uri : Bytes) :
    ((after calls).globs.map Prod.fst).Nodup ∧ (after calls).globs = globTable calls ∧
    (after calls).getMatchedServlet fnmatch uri =
      ((Ordered.get uri (exactTable calls)).or
        (((globTable calls).find? fun it => fnmatch (cstr it.1) (cstr uri) = 0).map Prod.snd)).getD
          (lastDefault calls) ∧
    ∀ e, (after calls).server fnmatch uri ≠ some e →
      ((after calls).delete e).getMatchedServlet fnmatch uri =
        (after calls).getMatchedServlet fnmatch uri := by
  obtain ⟨hdatas, hglobs, hdefault⟩ := tables calls
  refine ⟨?_, hglobs, ?_, fun e he => getMatchedServlet_delete _ fnmatch he⟩
  · rw [hglobs]
    exact Ordered.nodup_live _
  · rw [getMatchedServlet_eq, matchGlob, hdatas, hglobs, hdefault]

/-- Every pointer that the dispatcher holds is to a servlet. -/
structure Filled : Prop where
  datas : ∀ uri, s.datas uri ≠ some .null
  globs : ∀ it ∈ s.globs, it.2 ≠ .null
  default : s.default ≠ .null

/-- A call that passes no null pointer. -/
def Call.Fills : Call α κ → Prop
  | .addServlet _ slt | .addGlobServlet _ slt | .setDefault slt => slt ≠ .null
  | _ => True

variable {s}

theorem Filled.addServlet (h : s.Filled) (uri : Bytes) {slt : Servlet α κ} (hslt : slt ≠ .null) :
    (s.addServlet uri slt).Filled := by
  refine ⟨fun uri' => ?_, h.globs, h.default⟩
  change Function.update s.datas uri (some slt) uri' ≠ _
  rw [Function.update_apply]
  split
  · simpa using hslt
  · exact h.datas uri'

theorem Filled.addGlobServlet (h : s.Filled) (uri : Bytes) {slt : Servlet α κ} (hslt : slt ≠ .null) :
    (s.addGlobServlet uri slt).Filled := by
  refine ⟨h.datas, fun it hit => ?_, h.default⟩
  rcases List.mem_append.mp hit with hit | hit
  · exact h.globs it (List.mem_of_mem_eraseP hit)
  · rw [List.mem_singleton.mp hit]
    exact hslt

theorem Filled.call (h : s.Filled) {c : Call α κ} (hc : c.Fills) : (s.call c).Filled := by
  cases c with
  | addServlet uri slt => exact h.addServlet uri hc
  | addServletCb uri cb => exact h.addServlet uri (by simp)
  | addGlobServlet uri slt => exact h.addGlobServlet uri hc
  | addGlobServletCb uri cb => exact h.addGlobServlet uri (by simp)
  | delServlet uri =>
      refine ⟨fun uri' => ?_, h.globs, h.default⟩
      change Function.update s.datas uri none uri' ≠ _
      rw [Function.update_apply]
      split
      · simp
      · exact h.datas uri'
  | delGlobServlet uri =>
      exact ⟨h.datas, fun it hit => h.globs it (List.mem_of_mem_eraseP hit), h.default⟩
  | setDefault v => exact ⟨h.datas, h.globs, hc⟩

theorem filled_after (calls : List (Call α κ)) (h : ∀ c ∈ calls, c.Fills) : (after calls).Filled := by
  induction calls using List.reverseRecOn with
  | nil => exact ⟨by simp [after, new], by simp [after, new], by simp [after, new]⟩
  | append_singleton calls c ih =>
      rw [after_concat]
      refine (ih fun c' hc' => h c' (List.mem_append_left _ hc')).call (h c ?_)
      simp

theorem Filled.getMatchedServlet (h : s.Filled) (uri : Bytes) :
    s.getMatchedServlet fnmatch uri ≠ .null := by
  unfold ServletDispatch.getMatchedServlet
  split
  · rename_i slt hdata
    intro hnull
    exact h.datas uri (hnull ▸ hdata)
  · split
    · rename_i it hit
      exact h.globs it (List.mem_of_find?_eq_some hit)
    · exact h.default

/-- Where no null pointer was registered, every request is passed on to a servlet. -/
theorem handle_after (calls : List (Call α κ)) (h : ∀ c ∈ calls, c.Fills) (path : Bytes) :
    (after calls).handle fnmatch path = some ((after calls).getMatchedServlet fnmatch path) := by
  have hfilled := (filled_after calls h).getMatchedServlet fnmatch path
  unfold handle
  split
  · rename_i hnull
    exact absurd hnull hfilled
  · rfl

end Matching

end ServletDispatch

end Http

end Saturn
