import Saturn.Http.Message

/-!
# Listeners of a configuration variable

`setValue` calls the listeners, in the order of their registration, before it stores the value. They
get both values by reference and may throw; `fromString` turns a `std::exception` into `false`. So a
value that is refused may have been acted on, unless it is the first listener that refuses it.
-/

namespace Saturn

namespace Listeners

open Http (Bytes)

/-- The exceptions that `fromString` tells apart. -/
inductive Exception
  | std
  | other
  deriving Repr, DecidableEq

/-- How a call of a listener ends. One that throws may have acted on the new value before. -/
inductive Outcome
  | returned
  | threw (e : Exception) (acted : Bool)
  deriving Repr, DecidableEq

/-- The listener has acted on the new value. -/
def Outcome.acted : Outcome → Bool
  | returned => true
  | threw _ acted => acted

/-- What a listener leaves in `old_value` and `new_value`, and how it ends. -/
structure Response (T : Type*) where
  old : T
  new : T
  outcome : Outcome

/-- A call of `fromString` calls a listener at most once, so what the listener does there is a function
of the two values. -/
abbrev Listener (T : Type*) := T → T → Response T

/-- A call of the listener `id`. -/
structure Call (T : Type*) where
  id : Nat
  old : T
  new : T
  acted : Bool

/-- What the loop of `setValue` leaves in `m_value` and `value`. -/
structure Visit (T : Type*) where
  stored : T
  value : T
  calls : List (Call T)
  thrown : Option Exception

/-- The members of `ConfigVar` that its calls use. -/
structure ConfigVar (T : Type*) where
  value : T
  cbMaps : List (Nat × Listener T)

/-- What a call of `fromString` leaves, and what it returns or throws. -/
structure Attempt (T : Type*) where
  var : ConfigVar T
  calls : List (Call T)
  result : Except Exception Bool

variable {T : Type*}

/-- The loop of `setValue`. -/
def notify : List (Nat × Listener T) → T → T → Visit T
  | [], stored, value => ⟨stored, value, [], none⟩
  | (id, cb) :: rest, stored, value =>
    let r := cb stored value
    let call : Call T := ⟨id, stored, value, r.outcome.acted⟩
    match r.outcome with
    | .returned =>
      let v := notify rest r.old r.new
      { v with calls := call :: v.calls }
    | .threw e _ => ⟨r.old, r.new, [call], some e⟩

/-- `cb_maps.emplace(id, cb)` -/
def emplace (id : Nat) (cb : Listener T) : List (Nat × Listener T) → List (Nat × Listener T)
  | [] => [(id, cb)]
  | l :: rest =>
    if l.1 < id then l :: emplace id cb rest
    else if l.1 = id then l :: rest
    else (id, cb) :: l :: rest

namespace ConfigVar

variable (var : ConfigVar T)

/-- `setValue`: the variable, the calls of the listeners, and the exception of one of them. -/
def setValue (value : T) : ConfigVar T × List (Call T) × Option Exception :=
  let v := notify var.cbMaps var.value value
  match v.thrown with
  | none => ({ var with value := v.value }, v.calls, none)
  | some e => ({ var with value := v.stored }, v.calls, some e)

/-- `fromString`, with `FromStr` for `fromStr`. -/
def fromString (fromStr : Bytes → Except Exception T) (text : Bytes) : Attempt T :=
  match fromStr text with
  | .error .std => ⟨var, [], .ok false⟩
  | .error .other => ⟨var, [], .error .other⟩
  | .ok value =>
    match var.setValue value with
    | (var', calls, none) => ⟨var', calls, .ok true⟩
    | (var', calls, some .std) => ⟨var', calls, .ok false⟩
    | (var', calls, some .other) => ⟨var', calls, .error .other⟩

/-- `addListener`, where `s_fun_id` is `funId`. -/
def addListener (funId : Nat) (cb : Listener T) : ConfigVar T :=
  { var with cbMaps := emplace funId cb var.cbMaps }

/-- `cb_maps.erase(hash_v)` -/
def delListener (id : Nat) : ConfigVar T :=
  { var with cbMaps := var.cbMaps.filter fun l => l.1 ≠ id }

/-- `cb_maps.clear()` -/
def clearListener : ConfigVar T := { var with cbMaps := [] }

/-- A refused value leaves the variable and was not acted on; an accepted one is stored, and every
listener was called once, in order, with the old and the new value. -/
def AllOrNothing (fromStr : Bytes → Except Exception T) (text : Bytes) : Prop :=
  let a := var.fromString fromStr text
  (a.result = .ok false → a.var.value = var.value ∧ ∀ c ∈ a.calls, c.acted = false) ∧
  (a.result = .ok true → ∃ value, fromStr text = .ok value ∧ a.var.value = value ∧
    a.calls = var.cbMaps.map fun l => ⟨l.1, var.value, value, true⟩)

end ConfigVar

/-- Every listener returns, and the next one finds the values as they were; the last one may change
the old value. -/
def Comply (old new : T) : List (Nat × Listener T) → Prop
  | [] => True
  | [l] => (l.2 old new).outcome = .returned ∧ (l.2 old new).new = new
  | l :: rest => l.2 old new = ⟨old, new, .returned⟩ ∧ Comply old new rest

/-- The first listener refuses the value at once, with a `std::exception`. -/
def Refused (old new : T) (cbMaps : List (Nat × Listener T)) : Prop :=
  ∃ l ∈ cbMaps.head?, (l.2 old new).outcome = .threw .std false ∧ (l.2 old new).old = old

/-- A listener of `_RequestSizeIniter`: it takes both values by `const` reference and copies the new
one. -/
def sizeListener : Listener T := fun ov nv => ⟨ov, nv, .returned⟩

/-- A listener that throws before it does anything. -/
def refusing : Listener T := fun ov nv => ⟨ov, nv, .threw .std false⟩

/-- A listener that puts a value of its own in the place of the new one. -/
def replacing (v : T) : Listener T := fun ov _ => ⟨ov, v, .returned⟩

theorem notify_returned {l : Nat × Listener T} {stored value : T}
    (h : (l.2 stored value).outcome = .returned) (rest : List (Nat × Listener T)) :
    notify (l :: rest) stored value =
      { notify rest (l.2 stored value).old (l.2 stored value).new with
        calls := ⟨l.1, stored, value, true⟩ ::
          (notify rest (l.2 stored value).old (l.2 stored value).new).calls } := by
  simp [notify, h, Outcome.acted]

theorem notify_threw {l : Nat × Listener T} {stored value : T} {e : Exception} {acted : Bool}
    (h : (l.2 stored value).outcome = .threw e acted) (rest : List (Nat × Listener T)) :
    notify (l :: rest) stored value =
      ⟨(l.2 stored value).old, (l.2 stored value).new, [⟨l.1, stored, value, acted⟩], some e⟩ := by
  simp [notify, h, Outcome.acted]

theorem notify_of_comply {old new : T} {cbMaps : List (Nat × Listener T)} (h : Comply old new cbMaps) :
    (notify cbMaps old new).thrown = none ∧ (notify cbMaps old new).value = new ∧
    (notify cbMaps old new).calls = cbMaps.map fun l => ⟨l.1, old, new, true⟩ := by
  induction cbMaps with
  | nil => exact ⟨rfl, rfl, rfl⟩
  | cons l rest ih =>
      cases rest with
      | nil =>
          obtain ⟨hreturned, hnew⟩ := h
          rw [notify_returned hreturned]
          exact ⟨rfl, hnew, rfl⟩
      | cons l' rest =>
          obtain ⟨hquiet, hrest⟩ := h
          obtain ⟨hthrown, hvalue, hcalls⟩ := ih hrest
          rw [notify_returned (by rw [hquiet]), hquiet]
          exact ⟨hthrown, hvalue, by rw [hcalls]; rfl⟩

/-- The calls tell what the listeners left: each but the last left the values to the next. -/
theorem comply_of_notify {old new : T} {cbMaps : List (Nat × Listener T)}
    (hthrown : (notify cbMaps old new).thrown = none) (hvalue : (notify cbMaps old new).value = new)
    (hcalls : (notify cbMaps old new).calls = cbMaps.map fun l => ⟨l.1, old, new, true⟩) :
    Comply old new cbMaps := by
  induction cbMaps with
  | nil => trivial
  | cons l rest ih =>
      cases hout : (l.2 old new).outcome with
      | threw e acted =>
          rw [notify_threw hout] at hthrown
          cases hthrown
      | returned =>
          rw [notify_returned hout] at hthrown hvalue hcalls
          cases rest with
          | nil => exact ⟨hout, hvalue⟩
          | cons l' rest =>
              have hrest := List.tail_eq_of_cons_eq hcalls
              have hfirst : (l.2 old new).old = old ∧ (l.2 old new).new = new := by
                have hhead := congrArg List.head? hrest
                cases hout' : (l'.2 (l.2 old new).old (l.2 old new).new).outcome with
                | returned =>
                    rw [notify_returned hout'] at hhead
                    simpa using hhead
                | threw e acted =>
                    rw [notify_threw hout'] at hhead
                    obtain ⟨-, hold, hnew, -⟩ : l'.1 = l'.1 ∧ (l.2 old new).old = old ∧
                      (l.2 old new).new = new ∧ acted = true := by simpa using hhead
                    exact ⟨hold, hnew⟩
              rw [hfirst.1, hfirst.2] at hthrown hvalue hrest
              refine ⟨?_, ih hthrown hvalue hrest⟩
              calc l.2 old new
                  = ⟨(l.2 old new).old, (l.2 old new).new, (l.2 old new).outcome⟩ := rfl
                _ = ⟨old, new, .returned⟩ := by rw [hfirst.1, hfirst.2, hout]

namespace ConfigVar

variable (var : ConfigVar T) {fromStr : Bytes → Except Exception T} {text : Bytes}

theorem fromString_error {e : Exception} (h : fromStr text = .error e) :
    (var.fromString fromStr text).var = var ∧ (var.fromString fromStr text).calls = [] ∧
    (var.fromString fromStr text).result ≠ .ok true := by
  cases e <;> simp [fromString, h]

theorem fromString_accepted {value : T} (h : fromStr text = .ok value)
    (hthrown : (notify var.cbMaps var.value value).thrown = none) : var.fromString fromStr text =
      ⟨{ var with value := (notify var.cbMaps var.value value).value },
        (notify var.cbMaps var.value value).calls, .ok true⟩ := by
  simp [fromString, setValue, h, hthrown]

theorem fromString_refused {value : T} (h : fromStr text = .ok value)
    (hthrown : (notify var.cbMaps var.value value).thrown = some .std) : var.fromString fromStr text =
      ⟨{ var with value := (notify var.cbMaps var.value value).stored },
        (notify var.cbMaps var.value value).calls, .ok false⟩ := by
  simp [fromString, setValue, h, hthrown]

theorem fromString_other {value : T} (h : fromStr text = .ok value)
    (hthrown : (notify var.cbMaps var.value value).thrown = some .other) :
    (var.fromString fromStr text).result = .error .other := by
  simp [fromString, setValue, h, hthrown]

theorem allOrNothing_of_comply {value : T} (h : fromStr text = .ok value)
    (hcomply : Comply var.value value var.cbMaps) : var.AllOrNothing fromStr text := by
  obtain ⟨hthrown, hvalue, hcalls⟩ := notify_of_comply hcomply
  unfold AllOrNothing
  rw [fromString_accepted var h hthrown]
  refine ⟨fun hfalse => by simp at hfalse, fun _ => ⟨value, h, hvalue, hcalls⟩⟩

theorem allOrNothing_of_refused {value : T} (h : fromStr text = .ok value)
    (hrefused : Refused var.value value var.cbMaps) : var.AllOrNothing fromStr text := by
  obtain ⟨l, hl, hout, hold⟩ := hrefused
  obtain ⟨rest, hcb⟩ : ∃ rest, var.cbMaps = l :: rest := List.head?_eq_some_iff.mp hl
  have hnotify := notify_threw hout rest
  rw [← hcb] at hnotify
  unfold AllOrNothing
  rw [fromString_refused var h (by rw [hnotify]), hnotify]
  refine ⟨fun _ => ⟨hold, by simp⟩, fun htrue => by simp at htrue⟩

/-- Where the call returns at all: nothing or everything happens if the text is no value, if the
listeners leave the values alone, or if the first one refuses the value before it acts on it; and
only then. -/
theorem fromString_allOrNothing_iff {b : Bool} (h : (var.fromString fromStr text).result = .ok b) :
    var.AllOrNothing fromStr text ↔ ∀ value, fromStr text = .ok value →
      Comply var.value value var.cbMaps ∨ Refused var.value value var.cbMaps := by
  constructor
  · rintro ⟨hfalse, htrue⟩ value hvalue
    cases hthrown : (notify var.cbMaps var.value value).thrown with
    | none =>
        rw [fromString_accepted var hvalue hthrown] at htrue
        obtain ⟨value', hvalue', hstored, hcalls⟩ := htrue rfl
        rw [hvalue] at hvalue'
        cases hvalue'
        exact Or.inl (comply_of_notify hthrown hstored hcalls)
    | some e =>
        cases e with
        | other =>
            rw [fromString_other var hvalue hthrown] at h
            cases h
        | std =>
            rw [fromString_refused var hvalue hthrown] at hfalse
            obtain ⟨hstored, hacted⟩ := hfalse rfl
            refine Or.inr ?_
            cases hcb : var.cbMaps with
            | nil =>
                rw [hcb] at hthrown
                cases hthrown
            | cons l rest =>
                rw [hcb] at hthrown hstored hacted
                refine ⟨l, rfl, ?_⟩
                cases hout : (l.2 var.value value).outcome with
                | returned =>
                    -- the first listener acted on a value that was refused
                    rw [notify_returned hout] at hacted
                    exact absurd (hacted _ List.mem_cons_self) (by simp)
                | threw e acted =>
                    rw [notify_threw hout] at hthrown hstored hacted
                    cases hthrown
                    have hnot := hacted _ List.mem_cons_self
                    exact ⟨congrArg _ hnot, hstored⟩
  · intro hcond
    cases hvalue : fromStr text with
    | error e =>
        obtain ⟨hvar, hcalls, hresult⟩ := var.fromString_error hvalue
        refine ⟨fun _ => ⟨by rw [hvar], by simp [hcalls]⟩, fun htrue => absurd htrue hresult⟩
    | ok value =>
        rcases hcond value hvalue with hcomply | hrefused
        · exact var.allOrNothing_of_comply hvalue hcomply
        · exact var.allOrNothing_of_refused hvalue hrefused

end ConfigVar

theorem allOrNothing_two_listeners :
    (⟨Http.ascii "old", [(0, sizeListener), (1, sizeListener)]⟩ : ConfigVar Bytes).AllOrNothing .ok
      (Http.ascii "new") :=
  (ConfigVar.fromString_allOrNothing_iff _ (b := true) rfl).mpr fun value hvalue => Or.inl (by
    cases hvalue
    exact ⟨rfl, rfl, rfl⟩)

/-- The first listener has acted on a value that the second one refuses; and a value that a listener
replaces is not the one that is stored. -/
theorem not_allOrNothing :
    ¬ (⟨Http.ascii "old", [(0, sizeListener), (1, refusing)]⟩ : ConfigVar Bytes).AllOrNothing .ok
      (Http.ascii "new") ∧
    ¬ (⟨Http.ascii "old", [(0, replacing (Http.ascii "mine"))]⟩ : ConfigVar Bytes).AllOrNothing .ok
      (Http.ascii "new") := by
  constructor
  · rintro ⟨hfalse, -⟩
    obtain ⟨-, hacted⟩ := hfalse rfl
    have hfirst : true = false := hacted _ List.mem_cons_self
    cases hfirst
  · rintro ⟨-, htrue⟩
    obtain ⟨value, hvalue, hstored, -⟩ := htrue rfl
    cases hvalue
    exact absurd hstored (by decide)

/-- What a listener of `_RequestSizeIniter` has copied behind the calls. -/
def copied (size : T) (calls : List (Call T)) : T := calls.foldl (fun _ c => c.new) size

/-- The copy of a variable that has the one listener follows the variable, whatever the texts. -/
theorem copied_eq (var : ConfigVar T) (fromStr : Bytes → Except Exception T) (text : Bytes) {id : Nat}
    (h : var.cbMaps = [(id, sizeListener)]) :
    copied var.value (var.fromString fromStr text).calls = (var.fromString fromStr text).var.value := by
  cases hvalue : fromStr text with
  | error e =>
      obtain ⟨hvar, hcalls, -⟩ := var.fromString_error hvalue
      rw [hvar, hcalls]
      rfl
  | ok value =>
      have hout : (sizeListener var.value value).outcome = .returned := rfl
      have hnotify := notify_returned (l := (id, sizeListener)) hout []
      rw [← h] at hnotify
      rw [var.fromString_accepted hvalue (by rw [hnotify]; rfl), hnotify]
      rfl

/-- A variable, and the counter that it shares with the other variables of its type. -/
structure Registry (T : Type*) where
  funId : Nat
  var : ConfigVar T

/-- A call on the variable, or one of `addListener` on another variable. -/
inductive Change (T : Type*)
  | addListener (cb : Listener T)
  | addElsewhere
  | delListener (id : Nat)
  | clearListener
  | fromString (text : Bytes)

namespace Registry

/-- What a change does. -/
def change (fromStr : Bytes → Except Exception T) (s : Registry T) : Change T → Registry T
  | .addListener cb => ⟨s.funId + 1, s.var.addListener s.funId cb⟩
  | .addElsewhere => { s with funId := s.funId + 1 }
  | .delListener id => { s with var := s.var.delListener id }
  | .clearListener => { s with var := s.var.clearListener }
  | .fromString text => { s with var := (s.var.fromString fromStr text).var }

/-- The listeners stand in the order of their registration. -/
structure Ordered (s : Registry T) : Prop where
  ascending : s.var.cbMaps.Pairwise fun l l' => l.1 < l'.1
  below : ∀ l ∈ s.var.cbMaps, l.1 < s.funId

end Registry

theorem emplace_of_below {id : Nat} (cb : Listener T) {cbMaps : List (Nat × Listener T)}
    (h : ∀ l ∈ cbMaps, l.1 < id) : emplace id cb cbMaps = cbMaps ++ [(id, cb)] := by
  induction cbMaps with
  | nil => rfl
  | cons l rest ih =>
      rw [emplace, if_pos (h l List.mem_cons_self), ih fun l' hl' => h l' (List.mem_cons_of_mem _ hl')]
      rfl

theorem ConfigVar.fromString_cbMaps (var : ConfigVar T) (fromStr : Bytes → Except Exception T)
    (text : Bytes) : (var.fromString fromStr text).var.cbMaps = var.cbMaps := by
  unfold fromString setValue
  cases fromStr text with
  | error e => cases e <;> rfl
  | ok value =>
      cases hthrown : (notify var.cbMaps var.value value).thrown with
      | none => simp [hthrown]
      | some e => cases e <;> simp [hthrown]

namespace Registry

variable {fromStr : Bytes → Except Exception T}

theorem ordered_change {s : Registry T} (h : s.Ordered) (c : Change T) :
    (s.change fromStr c).Ordered := by
  cases c with
  | addListener cb =>
      have hcb : (s.change fromStr (.addListener cb)).var.cbMaps = s.var.cbMaps ++ [(s.funId, cb)] :=
        emplace_of_below cb h.below
      refine ⟨?_, ?_⟩
      · rw [hcb, List.pairwise_append]
        refine ⟨h.ascending, List.pairwise_singleton _ _, fun l hl l' hl' => ?_⟩
        rw [List.mem_singleton.mp hl']
        exact h.below l hl
      · rw [hcb]
        intro l hl
        rcases List.mem_append.mp hl with hl | hl
        · exact Nat.lt_succ_of_lt (h.below l hl)
        · rw [List.mem_singleton.mp hl]
          exact Nat.lt_succ_self _
  | addElsewhere => exact ⟨h.ascending, fun l hl => Nat.lt_succ_of_lt (h.below l hl)⟩
  | delListener id =>
      exact ⟨h.ascending.filter _, fun l hl => h.below l (List.mem_filter.mp hl).1⟩
  | clearListener => exact ⟨List.Pairwise.nil, by simp [change, ConfigVar.clearListener]⟩
  | fromString text =>
      refine ⟨?_, ?_⟩
      · change List.Pairwise _ (s.var.fromString fromStr text).var.cbMaps
        rw [s.var.fromString_cbMaps]
        exact h.ascending
      · change ∀ l ∈ (s.var.fromString fromStr text).var.cbMaps, l.1 < s.funId
        rw [s.var.fromString_cbMaps]
        exact h.below

/-- From a new variable on, listeners are called in the order of their registration, and a listener
that is added will be the last. -/
theorem ordered_run (funId : Nat) (value : T) (changes : List (Change T)) (cb : Listener T) :
    let s := changes.foldl (change fromStr) ⟨funId, value, []⟩
    s.Ordered ∧ (s.var.addListener s.funId cb).cbMaps = s.var.cbMaps ++ [(s.funId, cb)] := by
  intro s
  have hordered : ∀ (changes : List (Change T)) (s : Registry T), s.Ordered →
      (changes.foldl (change fromStr) s).Ordered := by
    intro changes
    induction changes with
    | nil => exact fun _ h => h
    | cons c changes ih => exact fun s h => ih _ (ordered_change h c)
  have h : s.Ordered := hordered changes ⟨funId, value, []⟩ ⟨List.Pairwise.nil, by simp⟩
  exact ⟨h, emplace_of_below cb h.below⟩

end Registry

end Listeners

end Saturn
