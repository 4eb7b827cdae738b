import Saturn.Uri.Components

/-!
# The authority under the machine

Until an `@` is or is not found the machine cannot know whether it reads a userinfo or a host, and it
carries out the actions of both. A place says what has been read of each; a move says what the next
byte does, in the text and in the actions.
-/

namespace Saturn

open Http (Bytes isDigit)

namespace Uri

/-- The text behind the first colon. -/
def afterColon (x : Bytes) : Bytes := (x.dropWhile (· != 58)).tail

/-- The first byte is a digit. -/
def startsWithDigit : Bytes → Bool
  | [] => false
  | c :: _ => isDigit c

/-- The case in which the mark of a port is still there when the userinfo ends. -/
def digitBehindColon (x : Bytes) : Bool := startsWithDigit (afterColon x)

/-- What the machine saves of a userinfo. -/
def kept (x : Bytes) : Bytes := if digitBehindColon x then afterColon x else x

/-- What has been read of an authority. -/
inductive Place
  /-- A host, behind a userinfo if there is one. -/
  | host (x : Option Bytes) (h : Bytes)
  /-- A name, a colon and digits: the beginning of a userinfo, or a host and its port. -/
  | colon (n d : Bytes)
  /-- A name and a colon with what only a userinfo has behind it. -/
  | user (n v : Bytes)
  | port (x : Option Bytes) (h d : Bytes)

namespace Place

/-- The bytes of an authority that has come to this place. -/
def text : Place → Bytes
  | .host x h => lead x ++ h
  | .colon n d => n ++ 58 :: d
  | .user n v => n ++ 58 :: v
  | .port x h d => lead x ++ h ++ 58 :: d

/-- Where `mark` stands in the text. -/
def mark : Place → Option Nat
  | .host x h => if h = [] then none else some (lead x).length
  | .colon n d => some (if d = [] then 0 else n.length + 1)
  | .user n v => some (if startsWithDigit v then n.length + 1 else 0)
  | .port x h d => some (if d = [] then (lead x).length else (lead x ++ h).length + 1)

/-- The userinfo saved. -/
def userinfo : Place → Bytes
  | .host x _ | .port x _ _ => (x.map kept).getD []
  | _ => []

/-- The host saved, where it will not be saved again. -/
def savedHost : Place → Option Bytes
  | .colon n _ => some n
  | .port _ h _ => some h
  | _ => none

end Place

/-- What a byte does at a place. -/
inductive Moves : Place → UInt8 → List Action → Place → Prop
  | first {x c} : Moves (.host x []) c [.mark] (.host x [c])
  | host {x h c} : h ≠ [] → Moves (.host x h) c [] (.host x (h ++ [c]))
  | colonFirst : Moves (.host none []) 58 [.mark, .saveHost] (.colon [] [])
  | colon {h} : h ≠ [] → Moves (.host none h) 58 [.saveHost] (.colon h [])
  | digit {n c} : Moves (.colon n []) c [.mark] (.colon n [c])
  | digits {n d c} : d ≠ [] → Moves (.colon n d) c [] (.colon n (d ++ [c]))
  | userFirst {n c} : isDigit c = false → Moves (.colon n []) c [] (.user n [c])
  | userDigits {n d c} : d ≠ [] → d.all isDigit = true → Moves (.colon n d) c [] (.user n (d ++ [c]))
  | user {n v c} : v ≠ [] → Moves (.user n v) c [] (.user n (v ++ [c]))
  | atFirst : Moves (.host none []) 64 [.mark, .saveUserinfo] (.host (some []) [])
  | atName {h} : h ≠ [] → 58 ∉ h → Moves (.host none h) 64 [.saveUserinfo] (.host (some h) [])
  | atColon {n d} : 58 ∉ n → d.all isDigit = true →
      Moves (.colon n d) 64 [.saveUserinfo] (.host (some (n ++ 58 :: d)) [])
  | atUser {n v} : 58 ∉ n → Moves (.user n v) 64 [.saveUserinfo] (.host (some (n ++ 58 :: v)) [])
  | portFirst {x} : Moves (.host x []) 58 [.mark, .saveHost] (.port x [] [])
  | port {x h} : h ≠ [] → Moves (.host x h) 58 [.saveHost] (.port x h [])
  | portDigit {x h c} : Moves (.port x h []) c [.mark] (.port x h [c])
  | portDigits {x h d c} : d ≠ [] → Moves (.port x h d) c [] (.port x h (d ++ [c]))

theorem Moves.text {place place' : Place} {c : UInt8} {actions : List Action}
    (h : Moves place c actions place') : place'.text = place.text ++ [c] := by
  cases h <;> simp [Place.text, lead]

/-! ## The actions -/

section Actions

variable {buffer w tail : Bytes} {base k p : Nat} {r : Parser}

theorem marked_of_mark (hbuf : buffer.drop base = w ++ tail) (hmark : r.mark = some (base + k))
    (hk : k ≤ w.length) : marked buffer (base + w.length) r = .ok (w.drop k) := by
  rw [marked, hmark]
  simp only
  rw [← List.drop_drop, hbuf, List.drop_append_of_le_length hk, Nat.add_sub_add_left,
    ← List.length_drop, List.take_left']
  rfl

theorem run_saveHost (hbuf : buffer.drop base = w ++ tail) (hmark : r.mark = some (base + k))
    (hk : k ≤ w.length) :
    runActions buffer (base + w.length) r [.saveHost] = .ok { r with uri.host := w.drop k } := by
  rw [runActions, Action.run, if_neg (by simp [hmark]), marked_of_mark hbuf hmark hk]
  rfl

theorem run_saveUserinfo (hbuf : buffer.drop base = w ++ tail) (hmark : r.mark = some (base + k))
    (hk : k ≤ w.length) :
    runActions buffer (base + w.length) r [.saveUserinfo] =
      .ok ⟨none, { r.uri with userinfo := w.drop k }⟩ := by
  rw [runActions, Action.run, if_neg (by simp [hmark]), marked_of_mark hbuf hmark hk]
  rfl

theorem run_mark_saveHost :
    runActions buffer p r [.mark, .saveHost] = .ok ⟨some p, { r.uri with host := [] }⟩ := by
  simp [runActions, Action.run, marked, Except.bind, Except.map]

theorem run_mark_saveUserinfo :
    runActions buffer p r [.mark, .saveUserinfo] = .ok ⟨none, { r.uri with userinfo := [] }⟩ := by
  simp [runActions, Action.run, marked, Except.bind, Except.map]

end Actions

theorem kept_of_notMem {x : Bytes} (h : 58 ∉ x) : kept x = x := by
  have hnil : x.dropWhile (· != 58) = [] :=
    List.dropWhile_eq_nil_iff.mpr fun c hc => bne_iff_ne.mpr fun heq => h (heq ▸ hc)
  simp [kept, digitBehindColon, afterColon, hnil, startsWithDigit]

theorem afterColon_append {n : Bytes} (hn : 58 ∉ n) (v : Bytes) : afterColon (n ++ 58 :: v) = v := by
  rw [afterColon, dropWhile_bne_run hn, List.tail_cons]

theorem kept_append {n : Bytes} (hn : 58 ∉ n) (v : Bytes) :
    kept (n ++ 58 :: v) =
      (n ++ 58 :: v).drop (if startsWithDigit v then n.length + 1 else 0) := by
  rw [kept, digitBehindColon, afterColon_append hn]
  split
  · simp
  · rfl

theorem startsWithDigit_append {v w : Bytes} (h : v ≠ []) :
    startsWithDigit (v ++ w) = startsWithDigit v := by
  obtain ⟨c, v, rfl⟩ := List.exists_cons_of_ne_nil h
  rfl

theorem startsWithDigit_of_all {d : Bytes} (hd : d.all isDigit = true) :
    startsWithDigit d = true ↔ d ≠ [] := by
  cases d with
  | nil => simp [startsWithDigit]
  | cons c d =>
      rw [List.all_cons, Bool.and_eq_true] at hd
      simp [startsWithDigit, hd.1]

/-- A URI of which only the authority has been saved. -/
def saved (scheme userinfo host : Bytes) : Uri :=
  { Uri.new with scheme := scheme, userinfo := userinfo, host := host }

/-- The local variables of the machine at a place of the authority, whose first byte is at `base`. -/
def Holds (scheme : Bytes) (base : Nat) (place : Place) (r : Parser) : Prop :=
  ∃ host, (∀ h ∈ place.savedHost, host = h) ∧
    r = ⟨place.mark.map (base + ·), saved scheme place.userinfo host⟩

theorem forall_mem_none {P : Bytes → Prop} : ∀ h ∈ (none : Option Bytes), P h :=
  fun h hh => absurd hh (Option.not_mem_none h)

theorem Moves.holds {scheme buffer tail : Bytes} {base : Nat} {place place' : Place} {c : UInt8}
    {actions : List Action} {r : Parser} (hm : Moves place c actions place')
    (h : Holds scheme base place r) (hbuf : buffer.drop base = place.text ++ tail) :
    ∃ r', runActions buffer (base + place.text.length) r actions = .ok r' ∧
      Holds scheme base place' r' := by
  obtain ⟨host, hhost, rfl⟩ := h
  cases hm with
  | @first x c =>
      refine ⟨_, rfl, host, forall_mem_none, ?_⟩
      simp [Place.text, Place.mark, Place.userinfo]
  | @host x h c hne =>
      refine ⟨_, rfl, host, forall_mem_none, ?_⟩
      simp [Place.mark, Place.userinfo, hne]
  | colonFirst => exact ⟨_, run_mark_saveHost, [], by rintro _ ⟨⟩; rfl, rfl⟩
  | @colon h hne =>
      refine ⟨_, run_saveHost (k := 0) hbuf ?_ (Nat.zero_le _), h, by rintro _ ⟨⟩; rfl, ?_⟩
      · simp [Place.mark, hne, lead]
      · simp [Place.text, Place.mark, Place.userinfo, hne, lead, saved]
  | @digit n c =>
      refine ⟨_, rfl, host, hhost, ?_⟩
      simp [Place.text, Place.mark, Place.userinfo]
  | @digits n d c hne =>
      refine ⟨_, rfl, host, hhost, ?_⟩
      simp [Place.mark, Place.userinfo, hne]
  | @userFirst n c hc =>
      refine ⟨_, rfl, host, forall_mem_none, ?_⟩
      simp [Place.mark, Place.userinfo, startsWithDigit, hc]
  | @userDigits n d c hne hd =>
      refine ⟨_, rfl, host, forall_mem_none, ?_⟩
      have hdigit := (startsWithDigit_of_all hd).mpr hne
      simp [Place.mark, Place.userinfo, startsWithDigit_append hne, hne, hdigit]
  | @user n v c hne =>
      refine ⟨_, rfl, host, forall_mem_none, ?_⟩
      simp [Place.mark, Place.userinfo, startsWithDigit_append hne]
  | atFirst =>
      exact ⟨_, run_mark_saveUserinfo, host, forall_mem_none, rfl⟩
  | @atName h hne hcolon =>
      refine ⟨_, run_saveUserinfo (k := 0) hbuf ?_ (Nat.zero_le _), host, forall_mem_none, ?_⟩
      · simp [Place.mark, hne, lead]
      · simp [Place.text, Place.mark, Place.userinfo, lead, saved, kept_of_notMem hcolon]
  | @atColon n d hn hd =>
      refine ⟨_, run_saveUserinfo (k := if d = [] then 0 else n.length + 1) hbuf rfl ?_, host, forall_mem_none, ?_⟩
      · simp only [Place.text, List.length_append, List.length_cons]
        split <;> omega
      · simp [Place.text, Place.mark, Place.userinfo, saved, kept_append hn, startsWithDigit_of_all hd]
  | @atUser n v hn =>
      refine ⟨_, run_saveUserinfo (k := if startsWithDigit v then n.length + 1 else 0) hbuf rfl ?_, host,
        forall_mem_none, ?_⟩
      · simp only [Place.text, List.length_append, List.length_cons]
        split <;> omega
      · simp [Place.text, Place.mark, Place.userinfo, saved, kept_append hn]
  | @portFirst x =>
      refine ⟨_, run_mark_saveHost, [], by rintro _ ⟨⟩; rfl, ?_⟩
      simp [Place.text, Place.mark, Place.userinfo, saved]
  | @port x h hne =>
      refine ⟨_, run_saveHost (k := (lead x).length) hbuf ?_ ?_, h, by rintro _ ⟨⟩; rfl, ?_⟩
      · simp [Place.mark, hne]
      · simp [Place.text]
      · simp [Place.text, Place.mark, Place.userinfo, saved, hne]
  | @portDigit x h c =>
      refine ⟨_, rfl, host, hhost, ?_⟩
      simp [Place.text, Place.mark, Place.userinfo, Nat.add_assoc]
  | @portDigits x h d c hne =>
      refine ⟨_, rfl, host, hhost, ?_⟩
      simp [Place.mark, Place.userinfo, hne]

/-! ## The states -/

/-- No byte of the name has a meaning of its own. -/
def Simple (h : Bytes) : Prop := ∀ c ∈ h, c ∉ special

/-- The states that the machine can be in at a place, and what the text is like there. -/
inductive Reads : Place → Nat → Prop
  | start : Reads (.host none []) 511
  | behindAt {x} : 64 ∉ x → Reads (.host (some x) []) 522
  | name {h cs} : phase cs = .name → Simple h → h ≠ [] → Reads (.host none h) cs
  | host {x h cs} : (∀ u ∈ x, 64 ∉ u) → phase cs = .host ∨ phase cs = .ipv4 → Simple h → h ≠ [] →
      Reads (.host x h) cs
  | literal {x h cs} : (∀ u ∈ x, 64 ∉ u) → phase cs = .literal → 64 ∉ h → h ≠ [] →
      Reads (.host x h) cs
  | closed {x h cs} : (∀ u ∈ x, 64 ∉ u) → phase cs = .closed → IsHost h → h ≠ [] →
      Reads (.host x h) cs
  | colon {n} : Simple n → Reads (.colon n []) 521
  | digits {n d} : Simple n → d ≠ [] → d.all isDigit = true → Reads (.colon n d) 542
  | user {n v cs} : phase cs = .user → Simple n → 64 ∉ v → v ≠ [] → Reads (.user n v) cs
  | port {x h} : (∀ u ∈ x, 64 ∉ u) → IsHost h → Reads (.port x h []) 514
  | portDigits {x h d} : (∀ u ∈ x, 64 ∉ u) → IsHost h → d ≠ [] → d.all isDigit = true →
      Reads (.port x h d) 515

theorem simple_nil : Simple [] := nofun

theorem Simple.concat {h : Bytes} {c : UInt8} (hh : Simple h) (hc : c ∉ special) :
    Simple (h ++ [c]) := by
  intro b hb
  rcases List.mem_append.mp hb with hb | hb
  · exact hh b hb
  · exact List.mem_singleton.mp hb ▸ hc

theorem Simple.notMem {h : Bytes} {c : UInt8} (hh : Simple h) (hc : c ∈ special) : c ∉ h :=
  fun hmem => hh c hmem hc

theorem Simple.isHost {h : Bytes} (hh : Simple h) : IsHost h := by
  refine ⟨hh.notMem (by decide), Or.inl fun c hc => ?_⟩
  rw [isColonOrBracket, Bool.or_eq_false_iff, beq_eq_false_iff_ne, beq_eq_false_iff_ne]
  constructor <;> (rintro rfl; exact hh _ hc (by decide))

theorem notMem_concat {h : Bytes} {b c : UInt8} (hh : b ∉ h) (hc : c ≠ b) : b ∉ h ++ [c] := by
  simp [hh, hc.symm]

theorem all_concat {d : Bytes} {c : UInt8} (hd : d.all isDigit = true) (hc : isDigit c = true) :
    (d ++ [c]).all isDigit = true := by
  simp [hd, hc]

theorem at_notMem_digits {d : Bytes} (hd : d.all isDigit = true) : 64 ∉ d :=
  fun hmem => absurd (List.all_eq_true.mp hd 64 hmem) (by decide)

theorem at_notMem {n v : Bytes} (hn : Simple n) (hv : 64 ∉ v) : 64 ∉ n ++ 58 :: v := by
  simp [hn.notMem (by decide : (64 : UInt8) ∈ special), hv]

theorem ne_at_of_class {k : CharClass} {c : UInt8} (hk : k ∈ Phase.user.classes ++ Phase.literal.classes)
    (h : k.has c = true) : c ≠ 64 := by
  have hcheck : ∀ k ∈ Phase.user.classes ++ Phase.literal.classes, k.has 64 = false := by
    decide
  rintro rfl
  rw [hcheck k hk] at h
  cases h

section Step

variable {rest : Rest} {place : Place} {cs t : Nat} {c : UInt8} {actions : List Action}

theorem Reads.step (h : Reads place cs) (hc : isDelim c = false)
    (hnext : next rest cs c = some (actions, t)) :
    ∃ place', Moves place c actions place' ∧ Reads place' t := by
  cases h with
  | start =>
      rcases phase_next (φ := .start) rfl (by decide) hc hnext with
        ⟨k, hk, hhas⟩ | ⟨rfl, ht, k, hk, hhas⟩
      · simp only [Phase.fixed, List.mem_cons, Prod.mk.injEq, List.not_mem_nil, or_false] at hk
        rcases hk with ⟨rfl, rfl, rfl⟩ | ⟨rfl, rfl, rfl⟩ | ⟨rfl, rfl, rfl⟩ <;>
          obtain rfl := beq_iff_eq.mp hhas
        · exact ⟨_, .colonFirst, .colon simple_nil⟩
        · exact ⟨_, .atFirst, .behindAt (by simp)⟩
        · exact ⟨_, .first, .literal forall_mem_none rfl (by decide) (by simp)⟩
      · have hplain := simple_nil.concat (not_special_of_class hk hhas)
        simp only [Phase.others, List.mem_cons, List.not_mem_nil, or_false] at ht
        rcases ht with ht | ht
        · exact ⟨_, .first, .name ht hplain (by simp)⟩
        · exact ⟨_, .first, .host forall_mem_none (Or.inr ht) hplain (by simp)⟩
  | behindAt hx =>
      rcases phase_next (φ := .behindAt) rfl (by decide) hc hnext with
        ⟨k, hk, hhas⟩ | ⟨rfl, ht, k, hk, hhas⟩
      · simp only [Phase.fixed, List.mem_cons, Prod.mk.injEq, List.not_mem_nil, or_false] at hk
        rcases hk with ⟨rfl, rfl, rfl⟩ | ⟨rfl, rfl, rfl⟩ <;> obtain rfl := beq_iff_eq.mp hhas
        · exact ⟨_, .portFirst, .port (by simpa using hx) simple_nil.isHost⟩
        · exact ⟨_, .first, .literal (by simpa using hx) rfl (by decide) (by simp)⟩
      · have hplain := simple_nil.concat (not_special_of_class hk hhas)
        simp only [Phase.others, List.mem_cons, List.not_mem_nil, or_false] at ht
        exact ⟨_, .first, .host (by simpa using hx) ht hplain (by simp)⟩
  | name hcs hh hne =>
      rcases phase_next hcs (by decide) hc hnext with ⟨k, hk, hhas⟩ | ⟨rfl, ht, k, hk, hhas⟩
      · simp only [Phase.fixed, List.mem_cons, Prod.mk.injEq, List.not_mem_nil, or_false] at hk
        rcases hk with ⟨rfl, rfl, rfl⟩ | ⟨rfl, rfl, rfl⟩ <;> obtain rfl := beq_iff_eq.mp hhas
        · exact ⟨_, .colon hne, .colon hh⟩
        · exact ⟨_, .atName hne (hh.notMem (by decide)), .behindAt (hh.notMem (by decide))⟩
      · have hplain := hh.concat (not_special_of_class hk hhas)
        simp only [Phase.others, List.mem_cons, List.not_mem_nil, or_false] at ht
        rcases ht with ht | ht
        · exact ⟨_, .host hne, .name ht hplain (by simp)⟩
        · exact ⟨_, .host hne, .host forall_mem_none (Or.inr ht) hplain (by simp)⟩
  | host hx hcs hh hne =>
      rcases hcs with hcs | hcs <;>
        rcases phase_next hcs (by decide) hc hnext with ⟨k, hk, hhas⟩ | ⟨rfl, ht, k, hk, hhas⟩
      · simp only [Phase.fixed, List.mem_singleton, Prod.mk.injEq] at hk
        obtain ⟨rfl, rfl, rfl⟩ := hk
        obtain rfl := beq_iff_eq.mp hhas
        exact ⟨_, .port hne, .port hx hh.isHost⟩
      · have hplain := hh.concat (not_special_of_class hk hhas)
        simp only [Phase.others, List.mem_cons, List.not_mem_nil, or_false] at ht
        exact ⟨_, .host hne, .host hx ht hplain (by simp)⟩
      · simp only [Phase.fixed, List.mem_singleton, Prod.mk.injEq] at hk
        obtain ⟨rfl, rfl, rfl⟩ := hk
        obtain rfl := beq_iff_eq.mp hhas
        exact ⟨_, .port hne, .port hx hh.isHost⟩
      · have hplain := hh.concat (not_special_of_class hk hhas)
        simp only [Phase.others, List.mem_cons, List.not_mem_nil, or_false] at ht
        rcases ht with ht | ht
        · exact ⟨_, .host hne, .host hx (Or.inr ht) hplain (by simp)⟩
        · exact ⟨_, .host hne, .closed hx ht hplain.isHost (by simp)⟩
  | literal hx hcs hh hne =>
      rcases phase_next hcs (by decide) hc hnext with ⟨k, hk, hhas⟩ | ⟨rfl, ht, k, hk, hhas⟩
      · simp only [Phase.fixed, List.mem_singleton, Prod.mk.injEq] at hk
        obtain ⟨rfl, rfl, rfl⟩ := hk
        obtain rfl := beq_iff_eq.mp hhas
        exact ⟨_, .host hne, .closed hx rfl ⟨notMem_concat hh (by decide), Or.inr (by simp)⟩ (by simp)⟩
      · simp only [Phase.others, List.mem_singleton] at ht
        have hat := ne_at_of_class (List.mem_append_right _ hk) hhas
        exact ⟨_, .host hne, .literal hx ht (notMem_concat hh hat) (by simp)⟩
  | closed hx hcs hh hne =>
      rcases phase_next hcs (by decide) hc hnext with ⟨k, hk, hhas⟩ | ⟨rfl, ht, k, hk, hhas⟩
      · simp only [Phase.fixed, List.mem_singleton, Prod.mk.injEq] at hk
        obtain ⟨rfl, rfl, rfl⟩ := hk
        obtain rfl := beq_iff_eq.mp hhas
        exact ⟨_, .port hne, .port hx hh⟩
      · exact absurd hk List.not_mem_nil
  | colon hn =>
      rcases next_colon hc hnext with ⟨rfl, rfl, rfl⟩ | ⟨hdigit, rfl, rfl⟩ | ⟨hdigit, hat, rfl, ht⟩
      · exact ⟨_, .atColon (hn.notMem (by decide)) rfl, .behindAt (at_notMem hn List.not_mem_nil)⟩
      · exact ⟨_, .digit, .digits hn (by simp) (by simp [hdigit])⟩
      · exact ⟨_, .userFirst hdigit, .user ht hn (by simp [hat.symm]) (by simp)⟩
  | digits hn hne hd =>
      rcases next_digits hc hnext with ⟨rfl, rfl, rfl⟩ | ⟨hdigit, rfl, rfl⟩ | ⟨hdigit, hat, rfl, ht⟩
      · exact ⟨_, .atColon (hn.notMem (by decide)) hd, .behindAt (at_notMem hn (at_notMem_digits hd))⟩
      · exact ⟨_, .digits hne, .digits hn (by simp) (all_concat hd hdigit)⟩
      · exact ⟨_, .userDigits hne hd,
          .user ht hn (notMem_concat (at_notMem_digits hd) hat) (by simp)⟩
  | user hcs hn hv hne =>
      rcases phase_next hcs (by decide) hc hnext with ⟨k, hk, hhas⟩ | ⟨rfl, ht, k, hk, hhas⟩
      · simp only [Phase.fixed, List.mem_singleton, Prod.mk.injEq] at hk
        obtain ⟨rfl, rfl, rfl⟩ := hk
        obtain rfl := beq_iff_eq.mp hhas
        exact ⟨_, .atUser (hn.notMem (by decide)), .behindAt (at_notMem hn hv)⟩
      · simp only [Phase.others, List.mem_singleton] at ht
        have hat := ne_at_of_class (List.mem_append_left _ hk) hhas
        exact ⟨_, .user hne, .user ht hn (notMem_concat hv hat) (by simp)⟩
  | port hx hh =>
      obtain ⟨hdigit, rfl, rfl⟩ := next_port hc hnext
      exact ⟨_, .portDigit, .portDigits hx hh (by simp) (by simp [hdigit])⟩
  | portDigits hx hh hne hd =>
      obtain ⟨hdigit, rfl, rfl⟩ := next_portDigits hc hnext
      exact ⟨_, .portDigits hne, .portDigits hx hh (by simp) (all_concat hd hdigit)⟩

end Step

end Uri

end Saturn
