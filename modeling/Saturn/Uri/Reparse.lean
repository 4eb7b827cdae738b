import Saturn.Http.MessageLength
import Saturn.Misc.Runs
import Saturn.Uri.Decompose

/-!
# Printing a URI and reading it again

`Uri::dump` prints the userinfo as it was kept, leaves out an `@` behind an empty userinfo and prints
the port as the `int` it was made. So the machine has to read the kept part of a userinfo from the
beginning, and a host from the beginning where an `@` was in front of it.
-/

namespace Saturn

open Http (Bytes ascii digits digitsValue isDigit isXdigit longToInt)

namespace Uri

section Reparse

variable {rest : Rest} {place place' : Place} {cs t : Nat} {c : UInt8} {actions : List Action}
  {x : Option Bytes} {h d w : Bytes} {parts : Components} {u : Uri}

theorem run_concat {s : Nat} (hrun : run rest cs w = some s) (hnext : next rest s c = some (actions, t)) :
    run rest cs (w ++ [c]) = some t :=
  run_append_eq_some.mpr ⟨s, hrun, run_cons_eq_some.mpr ⟨_, _, hnext, rfl⟩⟩

/-! ## Where the userinfo and the host of an authority were read -/

/-- The states in which a host is complete. -/
def hostDone (cs : Nat) : Bool :=
  Nat.ble 451 cs && [Phase.start, .name, .behindAt, .host, .closed, .ipv4].contains (phase cs)

theorem table_saveHost : ∀ row ∈ table, phase row.1 ≠ .none → ∀ e ∈ row.2,
    e.2.1 = [.saveHost] ∨ e.2.1 = [.mark, .saveHost] → hostDone row.1 = true := by
  decide +kernel

theorem table_saveUserinfo : ∀ row ∈ table, ∀ e ∈ row.2,
    e.2.1 = [.saveUserinfo] ∨ e.2.1 = [.mark, .saveUserinfo] → e.2.2 = 522 := by
  decide +kernel

/-- The state at the first byte of a host. -/
def hostBegin (x : Option Bytes) : Nat := if x.isSome then 522 else 511

/-- The machine has read a host, behind a userinfo or without one. -/
structure HostRead (rest : Rest) (x : Option Bytes) (h : Bytes) (cs : Nat) : Prop where
  userinfo : ∀ u ∈ x, run rest 511 (u ++ [64]) = some 522
  host : run rest (hostBegin x) h = some cs

/-- What stands behind the first colon of a userinfo is read from that colon to the `@`. -/
def BehindColon (rest : Rest) (x : Option Bytes) : Prop :=
  ∀ u ∈ x, 58 ∈ u → run rest 521 (afterColon u ++ [64]) = some 522

/-- What the machine went through to get to a place. -/
def Traced (rest : Rest) : Place → Nat → Prop
  | .host x h, cs => BehindColon rest x ∧ HostRead rest x h cs
  | .colon n d, cs => (∃ s, HostRead rest none n s ∧ hostDone s = true) ∧ run rest 521 d = some cs
  | .user _ v, cs => run rest 521 v = some cs
  | .port x h _, _ => BehindColon rest x ∧ ∃ s, HostRead rest x h s ∧ hostDone s = true

theorem HostRead.concat (hread : HostRead rest x h cs) (hnext : next rest cs c = some (actions, t)) :
    HostRead rest x (h ++ [c]) t :=
  ⟨hread.userinfo, run_concat hread.host hnext⟩

theorem hostDone_of_next (hphase : phase cs ≠ .none) (hnext : next rest cs c = some (actions, t))
    (hactions : actions = [.saveHost] ∨ actions = [.mark, .saveHost]) : hostDone cs = true := by
  obtain ⟨row, k, hrow, he, -⟩ := next_cases hphase hnext
  exact table_saveHost _ hrow hphase _ he hactions

theorem eq_of_next_at (hphase : phase cs ≠ .none) (hnext : next rest cs c = some (actions, t))
    (hactions : actions = [.saveUserinfo] ∨ actions = [.mark, .saveUserinfo]) : t = 522 := by
  obtain ⟨row, k, hrow, he, -⟩ := next_cases hphase hnext
  exact table_saveUserinfo _ hrow _ he hactions

theorem Traced.step (h : Traced rest place cs) (hrun : run rest 511 place.text = some cs)
    (hphase : phase cs ≠ .none) (hm : Moves place c actions place')
    (hnext : next rest cs c = some (actions, t)) (hread : Reads place' t) : Traced rest place' t := by
  have hat (hc : c = 64) (hactions : actions = [.saveUserinfo] ∨ actions = [.mark, .saveUserinfo]) :
      HostRead rest (some place.text) [] t ∧ next rest cs 64 = some (actions, 522) := by
    subst hc
    obtain rfl := eq_of_next_at hphase hnext hactions
    refine ⟨⟨?_, rfl⟩, hnext⟩
    rintro _ ⟨⟩
    exact run_concat hrun hnext
  cases hm with
  | first => exact ⟨h.1, h.2.concat hnext⟩
  | host => exact ⟨h.1, h.2.concat hnext⟩
  | colonFirst =>
      cases hread with
      | colon => exact ⟨⟨cs, h.2, hostDone_of_next hphase hnext (Or.inr rfl)⟩, rfl⟩
      | digits hn hnil => exact absurd rfl hnil
  | colon =>
      cases hread with
      | colon => exact ⟨⟨cs, h.2, hostDone_of_next hphase hnext (Or.inl rfl)⟩, rfl⟩
      | digits hn hnil => exact absurd rfl hnil
  | digit => exact ⟨h.1, run_concat h.2 hnext⟩
  | digits => exact ⟨h.1, run_concat h.2 hnext⟩
  | userFirst => exact run_concat h.2 hnext
  | userDigits => exact run_concat h.2 hnext
  | user => exact run_concat h hnext
  | atFirst =>
      refine ⟨?_, (hat rfl (Or.inr rfl)).1⟩
      rintro _ ⟨⟩ hmem
      cases hmem
  | atName _ hcolon =>
      refine ⟨?_, (hat rfl (Or.inl rfl)).1⟩
      rintro _ ⟨⟩ hmem
      exact absurd hmem hcolon
  | atColon hn =>
      obtain ⟨hhost, hnext⟩ := hat rfl (Or.inl rfl)
      refine ⟨?_, hhost⟩
      rintro _ ⟨⟩ -
      rw [afterColon_append hn]
      exact run_concat h.2 hnext
  | atUser hn =>
      obtain ⟨hhost, hnext⟩ := hat rfl (Or.inl rfl)
      refine ⟨?_, hhost⟩
      rintro _ ⟨⟩ -
      rw [afterColon_append hn]
      exact run_concat h hnext
  | portFirst => exact ⟨h.1, cs, h.2, hostDone_of_next hphase hnext (Or.inr rfl)⟩
  | port => exact ⟨h.1, cs, h.2, hostDone_of_next hphase hnext (Or.inl rfl)⟩
  | portDigit => exact h
  | portDigits => exact h

theorem exists_traced (hw : ∀ c ∈ w, isDelim c = false) : ∀ {cs : Nat}, run rest 511 w = some cs →
    ∃ place, place.text = w ∧ Reads place cs ∧ Traced rest place cs := by
  induction w using List.reverseRecOn with
  | nil =>
      rintro cs ⟨⟩
      exact ⟨_, rfl, .start, nofun, nofun, rfl⟩
  | append_singleton w c ih =>
      intro cs hrun
      obtain ⟨s, hrunw, hlast⟩ := run_append_eq_some.mp hrun
      obtain ⟨actions, t, hnext, hnil⟩ := run_cons_eq_some.mp hlast
      cases hnil
      obtain ⟨place, rfl, hread, htraced⟩ := ih (fun b hb => hw b (List.mem_append_left _ hb)) hrunw
      obtain ⟨place', hmove, hread'⟩ := hread.step (hw c (by simp)) hnext
      exact ⟨place', hmove.text, hread', htraced.step hrunw hread.phase_ne_none hmove hnext hread'⟩

/-! ## The parts of an authority that is accepted -/

/-- The parts of an authority, and the states behind its userinfo and its host. -/
structure AuthorityRead (rest : Rest) (authority : Bytes) (x : Option Bytes) (h d : Bytes) (s : Nat) :
    Prop where
  text : authority = lead x ++ (h ++ portText d)
  userinfo : ∀ u ∈ x, 64 ∉ u
  isHost : IsHost h
  digits : d.all isDigit = true
  host : HostRead rest x h s
  done : hostDone s = true
  behindColon : BehindColon rest x

theorem hostDone_of_phase (hcs : 451 ≤ cs)
    (hphase : phase cs ∈ [Phase.start, .name, .behindAt, .host, .closed, .ipv4]) :
    hostDone cs = true := by
  rw [hostDone, Bool.and_eq_true, Nat.ble_eq, List.contains_iff_mem]
  exact ⟨hcs, hphase⟩

theorem exists_authorityRead (hw : ∀ c ∈ w, isDelim c = false) (hrun : run rest 511 w = some cs)
    (hcs : 451 ≤ cs) (hne : cs ≠ 514 ∧ cs ≠ 521) : ∃ x h d s, AuthorityRead rest w x h d s := by
  obtain ⟨place, rfl, hread, htraced⟩ := exists_traced hw hrun
  have hhost {x h} (hx : ∀ u ∈ x, 64 ∉ u) (hh : IsHost h) (hplace : place = .host x h)
      (hphase : phase cs ∈ [Phase.start, .name, .behindAt, .host, .closed, .ipv4]) :
      ∃ x h d s, AuthorityRead rest place.text x h d s := by
    subst hplace
    exact ⟨x, h, [], cs, by simp [Place.text, portText], hx, hh, rfl, htraced.2,
      hostDone_of_phase hcs hphase, htraced.1⟩
  cases hread with
  | start => exact hhost (by simp) simple_nil.isHost rfl (by decide)
  | @behindAt x hx => exact hhost (by simpa using hx) simple_nil.isHost rfl (by decide)
  | name hphase hh hnil => exact hhost (by simp) hh.isHost rfl (by simp [hphase])
  | host hx hphase hh hnil =>
      exact hhost hx hh.isHost rfl (by rcases hphase with hphase | hphase <;> simp [hphase])
  | literal hx hphase hh hnil => exact absurd (literal_lt hphase) (by omega)
  | closed hx hphase hh hnil => exact hhost hx hh rfl (by simp [hphase])
  | colon hn => exact absurd rfl hne.2
  | @digits n d hn hnil hd =>
      obtain ⟨⟨s, hs, hdone⟩, -⟩ := htraced
      exact ⟨none, n, d, s, by simp [Place.text, portText, hnil, lead], by simp, hn.isHost, hd, hs,
        hdone, forall_mem_none⟩
  | user hphase hn hv hnil => exact absurd (user_lt hphase) (by omega)
  | port hx hh => exact absurd rfl hne.1
  | @portDigits x h d hx hh hnil hd =>
      obtain ⟨hbehind, s, hs, hdone⟩ := htraced
      exact ⟨x, h, d, s, by simp [Place.text, portText, hnil], hx, hh, hd, hs, hdone, hbehind⟩

theorem of_hostDone (h : hostDone cs = true) :
    451 ≤ cs ∧ phase cs ∈ [Phase.start, .name, .behindAt, .host, .closed, .ipv4] := by
  rwa [hostDone, Bool.and_eq_true, Nat.ble_eq, List.contains_iff_mem] at h

theorem phase_ne_of_hostDone {φ : Phase} (h : hostDone cs = true)
    (hφ : φ ∉ [Phase.start, .name, .behindAt, .host, .closed, .ipv4]) : phase cs ≠ φ :=
  fun heq => hφ (heq ▸ (of_hostDone h).2)

theorem table_colon : ∀ row ∈ table, hostDone row.1 = true →
    ∃ t ∈ [514, 521], ∃ actions ∈ [[Action.saveHost], [.mark, .saveHost]],
      (row.2.drop 3).head? = some (.byte 58, actions, t) := by
  decide +kernel

/-- The states behind the colon of a port. -/
theorem next_58 (rest : Rest) (hdone : hostDone cs = true) :
    ∃ actions t, next rest cs 58 = some (actions, t) ∧ (t = 514 ∨ t = 521) := by
  have hphase := phase_ne_of_hostDone (φ := .none) hdone (by decide)
  obtain ⟨row, hrow⟩ := lookup_of_phase hphase
  obtain ⟨t, ht, actions, -, hhead⟩ := table_colon _ (Http.lookup_mem hrow) hdone
  obtain ⟨tail, htail⟩ := List.head?_eq_some_iff.mp hhead
  have hsplit : row = delimiters (leaveActions cs) ++ (.byte 58, actions, t) :: tail := by
    rw [← table_leave _ (Http.lookup_mem hrow) hphase (of_hostDone hdone).1, ← htail,
      List.take_append_drop]
  refine ⟨actions, t, ?_, by simpa using ht⟩
  rw [next_of_lookup hrow, hsplit, rowNext_delimiters (by decide)]
  exact rowNext_cons_eq_some.mpr (Or.inl ⟨by decide, rfl⟩)

theorem run_digits {first loop : Nat} (as : List Action)
    (hfirst : ∀ c, isDigit c = true → next rest first c = some (as, loop))
    (hloop : ∀ c, isDigit c = true → next rest loop c = some ([], loop))
    (hd : d.all isDigit = true) (hne : d ≠ []) : run rest first d = some loop := by
  have hrest {e : Bytes} (he : e.all isDigit = true) : run rest loop e = some loop := by
    induction e with
    | nil => rfl
    | cons c e ih =>
        rw [List.all_cons, Bool.and_eq_true] at he
        exact run_cons_eq_some.mpr ⟨_, _, hloop c he.1, ih he.2⟩
  obtain ⟨c, d, rfl⟩ := List.exists_cons_of_ne_nil hne
  rw [List.all_cons, Bool.and_eq_true] at hd
  exact run_cons_eq_some.mpr ⟨_, _, hfirst c hd.1, hrest hd.2⟩

theorem not_delim_of_isDigit (hc : isDigit c = true) : isDelim c = false ∧ c ≠ 64 := by
  rw [isDelim_eq_false_iff]
  refine ⟨⟨?_, ?_, ?_⟩, ?_⟩ <;> (rintro rfl; revert hc; decide)

theorem run_port (hd : d.all isDigit = true) (hne : d ≠ []) : run rest 514 d = some 515 := by
  refine run_digits [.mark] ?_ ?_ hd hne
  · intro c hc
    rw [next_of_lookup rfl, rowNext_delimiters (not_delim_of_isDigit hc).1]
    exact rowNext_cons_eq_some.mpr (Or.inl ⟨hc, rfl⟩)
  · intro c hc
    rw [next_of_lookup rfl, rowNext_delimiters (not_delim_of_isDigit hc).1]
    exact rowNext_cons_eq_some.mpr (Or.inl ⟨hc, rfl⟩)

theorem run_colonDigits (hd : d.all isDigit = true) (hne : d ≠ []) : run rest 521 d = some 542 := by
  have hat {c : UInt8} (hc : isDigit c = true) : CharClass.has (.byte 64) c = false :=
    beq_eq_false_iff_ne.mpr (not_delim_of_isDigit hc).2
  refine run_digits [.mark] ?_ ?_ hd hne
  · intro c hc
    rw [next_of_lookup rfl, rowNext_delimiters (not_delim_of_isDigit hc).1]
    exact rowNext_cons_eq_some.mpr (Or.inr ⟨hat hc, rowNext_cons_eq_some.mpr (Or.inl ⟨hc, rfl⟩)⟩)
  · intro c hc
    rw [next_of_lookup rfl, rowNext_delimiters (not_delim_of_isDigit hc).1]
    exact rowNext_cons_eq_some.mpr (Or.inr ⟨hat hc, rowNext_cons_eq_some.mpr (Or.inl ⟨hc, rfl⟩)⟩)

theorem HostRead.run_lead (h : HostRead rest x w cs) : run rest 511 (lead x) = some (hostBegin x) := by
  cases x with
  | none => rfl
  | some u => exact h.userinfo u rfl

/-- An authority is accepted when its userinfo and its host are. -/
theorem run_authority {s : Nat} (hread : HostRead rest x h s) (hdone : hostDone s = true)
    (hd : d.all isDigit = true) :
    ∃ cs, run rest 511 (lead x ++ (h ++ portText d)) = some cs ∧ 451 ≤ cs ∧ cs ≠ 514 ∧ cs ≠ 521 := by
  by_cases hnil : d = []
  · refine ⟨s, ?_, ?_⟩
    · rw [hnil, portText, if_pos rfl, List.append_nil]
      exact run_append_eq_some.mpr ⟨_, hread.run_lead, hread.host⟩
    · refine ⟨(of_hostDone hdone).1, ?_, ?_⟩ <;> rintro rfl
      · exact phase_ne_of_hostDone (φ := .port) hdone (by decide) rfl
      · exact phase_ne_of_hostDone (φ := .colon) hdone (by decide) rfl
  · obtain ⟨actions, t, hnext, ht⟩ := next_58 rest hdone
    rw [portText, if_neg hnil]
    have hrun {u : Nat} (hu : run rest t d = some u) :
        run rest 511 (lead x ++ (h ++ 58 :: d)) = some u :=
      run_append_eq_some.mpr ⟨_, hread.run_lead, run_append_eq_some.mpr
        ⟨s, hread.host, run_cons_eq_some.mpr ⟨_, _, hnext, hu⟩⟩⟩
    rcases ht with rfl | rfl
    · exact ⟨515, hrun (run_port hd hnil), by decide⟩
    · exact ⟨542, hrun (run_colonDigits hd hnil), by decide⟩

/-! ## Userinfos -/

/-- The states in which a userinfo can go on, by the hexadecimal digits that are missing. -/
def userKind (cs : Nat) : Option Nat :=
  if cs == 511 || cs == 520 || within 543 560 cs || cs == 521 || cs == 542 || cs == 255 then some 0
  else if cs == 254 || cs == 257 then some 1
  else if cs == 253 || cs == 256 then some 2
  else none

/-- `(unreserved | pct_encoded | sub_delims | ":")*`, behind a percent sign and some of its digits. -/
def isUser : Nat → Bytes → Bool
  | 0, [] => true
  | 0, c :: w => if c = 37 then isUser 2 w else (isName c || c == 58) && isUser 0 w
  | _ + 1, [] => false
  | k + 1, c :: w => isXdigit c && isUser k w

/-- The states behind the first colon. -/
def behindColon : List Nat := [521, 542, 255, 256, 257]

/-- The transition is one behind a colon. -/
def behindColonAllows (cs : Nat) (e : Entry) : Bool :=
  delimClasses.contains e.1 || e.1 == .byte 64 ||
    (behindColon.contains e.2.2 &&
      ((userKind cs == some 0 && e.1 == .byte 37 && userKind e.2.2 == some 2) ||
        (userKind cs == some 0 && [CharClass.digit, .user].contains e.1 && userKind e.2.2 == some 0) ||
        (e.1 == .xdigit && (userKind e.2.2).map (· + 1) == userKind cs)))

theorem table_behindColon : ∀ row ∈ table, row.1 ∈ behindColon →
    ∀ e ∈ row.2, behindColonAllows row.1 e = true := by
  decide +kernel

theorem isName_of_isDigit (h : isDigit c = true) : isName c = true := by
  simp [isName, Http.isSegment, h]

/-- What a state behind the first colon does with a byte of a userinfo. -/
theorem next_behindColon (hcs : cs ∈ behindColon) (hc : isDelim c = false ∧ c ≠ 64)
    (hnext : next rest cs c = some (actions, t)) :
    t ∈ behindColon ∧
      ((userKind cs = some 0 ∧ c = 37 ∧ userKind t = some 2) ∨
        (userKind cs = some 0 ∧ c ≠ 37 ∧ (isName c || c == 58) = true ∧ userKind t = some 0) ∨
        (isXdigit c = true ∧ (userKind t).map (· + 1) = userKind cs)) := by
  obtain ⟨row, hrow⟩ : ∃ row, table.lookup cs = some row := by
    simp only [behindColon, List.mem_cons, List.not_mem_nil, or_false] at hcs
    rcases hcs with rfl | rfl | rfl | rfl | rfl <;> exact ⟨_, rfl⟩
  obtain ⟨k, he, hhas⟩ := next_cases_of_mem hrow hnext
  have hallows := table_behindColon _ (Http.lookup_mem hrow) hcs _ he
  simp only [behindColonAllows, Bool.or_eq_true, Bool.and_eq_true, beq_iff_eq,
    List.contains_iff_mem] at hallows
  rcases hallows with (hdelim | rfl) | ⟨ht, (⟨⟨hkind, rfl⟩, hkind'⟩ | ⟨⟨hkind, hk⟩, hkind'⟩) | ⟨rfl, hkind⟩⟩
  · rw [isDelim_of_class hdelim hhas] at hc
    cases hc.1
  · exact absurd (beq_iff_eq.mp hhas) hc.2
  · exact ⟨ht, Or.inl ⟨hkind, beq_iff_eq.mp hhas, hkind'⟩⟩
  · have hname : (isName c || c == 58) = true := by
      simp only [List.mem_cons, List.not_mem_nil, or_false] at hk
      rcases hk with rfl | rfl
      · exact Bool.or_eq_true _ _ |>.mpr (Or.inl (isName_of_isDigit hhas))
      · exact hhas
    refine ⟨ht, Or.inr (Or.inl ⟨hkind, ?_, hname, hkind'⟩)⟩
    rintro rfl
    exact absurd hname (by decide)
  · exact ⟨ht, Or.inr (Or.inr ⟨hhas, hkind⟩)⟩

theorem isUser_of_run : ∀ {w : Bytes} {cs k : Nat}, cs ∈ behindColon → userKind cs = some k →
    (∀ c ∈ w, isDelim c = false ∧ c ≠ 64) → run rest cs (w ++ [64]) = some 522 →
    isUser k w = true := by
  intro w
  induction w with
  | nil =>
      intro cs k hcs hkind _ hrun
      obtain ⟨actions, t, hnext, -⟩ := run_cons_eq_some.mp hrun
      simp only [behindColon, List.mem_cons, List.not_mem_nil, or_false] at hcs
      rcases hcs with rfl | rfl | rfl | rfl | rfl
      · cases hkind; rfl
      · cases hkind; rfl
      · cases hkind; rfl
      · rw [next_of_lookup rfl] at hnext; cases hnext
      · rw [next_of_lookup rfl] at hnext; cases hnext
  | cons c w ih =>
      intro cs k hcs hkind hw hrun
      obtain ⟨actions, t, hnext, hrest⟩ := run_cons_eq_some.mp hrun
      obtain ⟨ht, hcases⟩ := next_behindColon hcs (hw c List.mem_cons_self) hnext
      have hw' := fun b hb => hw b (List.mem_cons_of_mem _ hb)
      rcases hcases with ⟨hkind', rfl, htkind⟩ | ⟨hkind', hne, hname, htkind⟩ | ⟨hdigit, htkind⟩
      · obtain rfl : k = 0 := Option.some.inj (hkind.symm.trans hkind')
        rw [isUser, if_pos rfl]
        exact ih ht htkind hw' hrest
      · obtain rfl : k = 0 := Option.some.inj (hkind.symm.trans hkind')
        rw [isUser, if_neg hne, hname]
        exact ih ht htkind hw' hrest
      · rw [hkind, Option.map_eq_some_iff] at htkind
        obtain ⟨j, hj, rfl⟩ := htkind
        rw [isUser, hdigit]
        exact ih ht hj hw' hrest

/-- The bytes of a name have no transitions of their own in these states, but perhaps to others that
are like them. -/
def nameAllows (row : Row) : Bool :=
  row.any (fun e => e.1 == .name || e.1 == .user) && row.all fun e =>
    [CharClass.byte 47, .byte 63, .byte 35, .byte 58, .byte 64, .byte 91, .byte 37, .byte 2].contains e.1
      || userKind e.2.2 == some 0

theorem table_user : ∀ row ∈ table, userKind row.1 = some 0 → nameAllows row.2 = true ∧
    (rowNext row.2 58).map (fun e => userKind e.2) = some (some 0) ∧
    (rowNext row.2 37).map (fun e => userKind e.2) = some (some 2) ∧
    (rowNext row.2 64).map Prod.snd = some 522 := by
  decide +kernel

theorem table_userDigits : ∀ row ∈ table, ∀ k ∈ [0, 1], userKind row.1 = some (k + 1) →
    ∃ t ∈ [254, 520, 257, 255], userKind t = some k ∧ row.2 = silent [(.xdigit, t)] := by
  decide +kernel

theorem lookup_of_userKind {k : Nat} (h : userKind cs = some k) :
    ∃ row, table.lookup cs = some row := by
  have hcheck : ∀ cs < 561, (userKind cs).isSome = true → phase cs ≠ .none := by decide +kernel
  have hlt : cs < 561 := by
    by_contra hge
    have hne {n : Nat} (hn : n < 561) : (cs == n) = false := by
      rw [beq_eq_false_iff_ne]
      omega
    have hout : within 543 560 cs = false := by
      rw [within, Bool.and_eq_false_iff]
      right
      rw [← Bool.not_eq_true, Nat.ble_eq]
      omega
    simp [userKind, hne, hout] at h
  exact lookup_of_phase (hcheck cs hlt (by rw [h]; rfl))

theorem userKind_le {k : Nat} (h : userKind cs = some k) : k ≤ 2 := by
  rw [userKind] at h
  split_ifs at h <;> cases h <;> decide

theorem exists_rowNext {row : Row} {k : CharClass} {e : List Action × Nat} (he : (k, e) ∈ row)
    (hhas : k.has c = true) : ∃ k' e', rowNext row c = some e' ∧ (k', e') ∈ row ∧ k'.has c = true := by
  obtain ⟨e', hfind⟩ : ∃ e', row.find? (fun e : Entry => e.1.has c) = some e' :=
    Option.isSome_iff_exists.mp (List.find?_isSome.mpr ⟨_, he, hhas⟩)
  exact ⟨e'.1, e'.2, by rw [rowNext, hfind]; rfl, List.mem_of_find?_eq_some hfind,
    List.find?_some (p := fun e : Entry => e.1.has c) hfind⟩

theorem rowNext_name {row : Row} (hrow : nameAllows row = true) (hc : isName c = true) :
    ∃ actions t, rowNext row c = some (actions, t) ∧ userKind t = some 0 := by
  rw [nameAllows, Bool.and_eq_true, List.any_eq_true, List.all_eq_true] at hrow
  obtain ⟨⟨e, he, hclass⟩, hall⟩ := hrow
  have hhas : e.1.has c = true := by
    rw [Bool.or_eq_true, beq_iff_eq, beq_iff_eq] at hclass
    rcases hclass with hclass | hclass <;> rw [hclass, CharClass.has, hc]
    rfl
  obtain ⟨k, ⟨actions, t⟩, hnext, hmem, hhas'⟩ := exists_rowNext (e := e.2) he hhas
  refine ⟨actions, t, hnext, ?_⟩
  have hk := hall _ hmem
  rw [Bool.or_eq_true, beq_iff_eq, List.contains_iff_mem] at hk
  rcases hk with hk | hk
  · simp only [List.mem_cons, List.not_mem_nil, or_false] at hk
    rcases hk with rfl | rfl | rfl | rfl | rfl | rfl | rfl | rfl <;>
      (obtain rfl := beq_iff_eq.mp hhas'; exact absurd hc (by decide))
  · exact hk

theorem run_of_isUser : ∀ {w : Bytes} {cs k : Nat}, userKind cs = some k → isUser k w = true →
    run rest cs (w ++ [64]) = some 522 := by
  intro w
  induction w with
  | nil =>
      intro cs k hkind hw
      obtain rfl : k = 0 := by
        cases k with
        | zero => rfl
        | succ k => cases hw
      obtain ⟨row, hrow⟩ := lookup_of_userKind hkind
      obtain ⟨-, -, -, hat⟩ := table_user _ (Http.lookup_mem hrow) hkind
      obtain ⟨⟨actions, t⟩, hnext, rfl⟩ := Option.map_eq_some_iff.mp hat
      exact run_cons_eq_some.mpr ⟨actions, _, (next_of_lookup hrow).trans hnext, rfl⟩
  | cons c w ih =>
      intro cs k hkind hw
      obtain ⟨row, hrow⟩ := lookup_of_userKind hkind
      have hmem := Http.lookup_mem hrow
      have hgo (actions : List Action) {t j : Nat} (hnext : rowNext row c = some (actions, t))
          (ht : userKind t = some j) (hj : isUser j w = true) :
          run rest cs (c :: w ++ [64]) = some 522 :=
        run_cons_eq_some.mpr ⟨actions, t, (next_of_lookup hrow).trans hnext, ih ht hj⟩
      have hgoMap {j : Nat} (hnext : (rowNext row c).map (fun e => userKind e.2) = some (some j))
          (hj : isUser j w = true) : run rest cs (c :: w ++ [64]) = some 522 := by
        obtain ⟨⟨actions, t⟩, hnext, ht⟩ := Option.map_eq_some_iff.mp hnext
        exact hgo _ hnext ht hj
      cases k with
      | zero =>
          obtain ⟨hname, hcolon, hpct, -⟩ := table_user _ hmem hkind
          rw [isUser] at hw
          by_cases hc : c = 37
          · subst hc
            exact hgoMap hpct hw
          rw [if_neg hc, Bool.and_eq_true, Bool.or_eq_true, beq_iff_eq] at hw
          obtain ⟨hc | rfl, hw⟩ := hw
          · obtain ⟨actions, t, hnext, ht⟩ := rowNext_name hname hc
            exact hgo _ hnext ht hw
          · exact hgoMap hcolon hw
      | succ k =>
          rw [isUser, Bool.and_eq_true] at hw
          have hk : k ∈ [0, 1] := by
            have := userKind_le hkind
            simp only [List.mem_cons, List.not_mem_nil, or_false]
            omega
          obtain ⟨t, -, ht, hrow'⟩ := table_userDigits _ hmem k hk hkind
          refine hgo [] ?_ ht hw.2
          rw [show row = _ from hrow']
          exact rowNext_cons_eq_some.mpr (Or.inl ⟨hw.1, rfl⟩)

theorem mem_of_digitBehindColon {u : Bytes} (h : digitBehindColon u = true) : 58 ∈ u := by
  by_contra hmem
  have hkept := kept_eq_self_iff.mp (kept_of_notMem hmem)
  rw [hkept] at h
  cases h

theorem mem_of_mem_afterColon {u : Bytes} (h : c ∈ afterColon u) : c ∈ u :=
  (List.dropWhile_sublist _).subset (List.mem_of_mem_tail h)

/-- The machine reads what it has kept of a userinfo. -/
theorem run_kept {u : Bytes} (hrun : run rest 511 (u ++ [64]) = some 522)
    (hbehind : BehindColon rest (some u)) (hu : ∀ c ∈ u, isDelim c = false ∧ c ≠ 64) :
    run rest 511 (kept u ++ [64]) = some 522 := by
  rw [kept]
  split
  next hdigit =>
    have hafter := hbehind u rfl (mem_of_digitBehindColon hdigit)
    have hstart : 521 ∈ behindColon := by decide
    have huser := isUser_of_run hstart rfl
      (fun c hc => hu c (mem_of_mem_afterColon hc)) hafter
    exact run_of_isUser rfl huser
  next => exact hrun

/-! ## A host without an `@` in front of it -/

/-- The state from the beginning for a state behind the `@`. -/
def fromBegin (cs : Nat) : Nat :=
  if cs == 522 then 511 else if cs == 523 then 520 else if within 524 541 cs then cs + 19
  else if cs == 258 then 253 else if cs == 259 then 254 else cs

/-- The phases of a host. -/
def hostPhases : List Phase := [.behindAt, .host, .ipv4, .literal, .closed]

/-- A row without what it does with a colon or an `@`. -/
def hostRow (row : Row) : Row := row.filter fun e => e.1 != .byte 58 && e.1 != .byte 64

theorem table_fromBegin : ∀ row ∈ table, phase row.1 ∈ [Phase.behindAt, .host] →
    (table.lookup (fromBegin row.1)).map hostRow =
      some ((hostRow row.2).map fun e => (e.1, e.2.1, fromBegin e.2.2)) := by
  decide +kernel

theorem rowNext_hostRow {row : Row} (hcolon : c ≠ 58) (hat : c ≠ 64) :
    rowNext (hostRow row) c = rowNext row c := by
  have hpred : (fun e : Entry => (e.1 != .byte 58 && e.1 != .byte 64) && e.1.has c) =
      fun e => e.1.has c := by
    funext e
    by_cases hhas : e.1.has c = true
    · have hne : e.1 ≠ .byte 58 ∧ e.1 ≠ .byte 64 := by
        constructor <;> intro heq <;> rw [heq] at hhas
        · exact hcolon (beq_iff_eq.mp hhas)
        · exact hat (beq_iff_eq.mp hhas)
      simp [hhas, hne]
    · simp [hhas]
  rw [rowNext, hostRow, List.find?_filter]
  simp only [← Bool.and_eq_true, Bool.decide_eq_true, hpred]
  rfl

theorem rowNext_map {row : Row} {f : Nat → Nat} :
    rowNext (row.map fun e => (e.1, e.2.1, f e.2.2)) c =
      (rowNext row c).map fun e => (e.1, f e.2) := by
  rw [rowNext, List.find?_map, rowNext, Option.map_map, Option.map_map]
  rfl

/-- The classes of the bytes of a host. -/
def hostClasses : List CharClass := [.byte 58, .byte 91, .byte 93, .byte 118, .user] ++ plainClasses

theorem table_host : ∀ row ∈ table, phase row.1 ∈ hostPhases → ∀ e ∈ row.2,
    e.1 ∈ delimClasses ∨ e.2.2 = 514 ∨ e.1 ∈ hostClasses ∧ phase e.2.2 ∈ hostPhases ∧
      (phase row.1 ∈ [Phase.behindAt, .host] → e.1 ≠ .byte 58 ∧ e.1 ≠ .user) ∧
      (phase row.1 ∉ [Phase.behindAt, .host] → phase e.2.2 ∉ [Phase.behindAt, .host]) := by
  decide +kernel

theorem fromBegin_of_phase (hphase : phase cs ∈ hostPhases)
    (hnot : phase cs ∉ [Phase.behindAt, .host]) : fromBegin cs = cs := by
  have hcheck : ∀ cs < 561, phase cs ∈ hostPhases → phase cs ∉ [Phase.behindAt, .host] →
      fromBegin cs = cs := by
    decide +kernel
  by_cases hlt : cs < 561
  · exact hcheck cs hlt hphase hnot
  · rw [phase_of_ge (by omega)] at hphase
    exact absurd hphase (by decide)

theorem next_fromBegin (hphase : phase cs ∈ hostPhases) (hc : isDelim c = false)
    (hnext : next rest cs c = some (actions, t)) (ht : t ≠ 514) :
    next rest (fromBegin cs) c = some (actions, fromBegin t) ∧ phase t ∈ hostPhases := by
  have hne : phase cs ≠ .none := fun heq => by
    rw [heq] at hphase
    exact absurd hphase (by decide)
  obtain ⟨row, hrow⟩ := lookup_of_phase hne
  obtain ⟨k, he, hhas⟩ := next_cases_of_mem hrow hnext
  rcases table_host _ (Http.lookup_mem hrow) hphase _ he with
    hdelim | h514 | ⟨hclass, htphase, hwithin, hother⟩
  · rw [isDelim_of_class hdelim hhas] at hc
    cases hc
  · exact absurd h514 ht
  refine ⟨?_, htphase⟩
  by_cases hlocal : phase cs ∈ [Phase.behindAt, .host]
  · have hcolon : c ≠ 58 := by
      rintro rfl
      have hcheck : ∀ k ∈ hostClasses, k ≠ .byte 58 → k ≠ .user → k.has 58 = false := by decide
      rw [hcheck k hclass (hwithin hlocal).1 (hwithin hlocal).2] at hhas
      cases hhas
    have hat : c ≠ 64 := by
      rintro rfl
      have hcheck : ∀ k ∈ hostClasses, k.has 64 = false := by decide
      rw [hcheck k hclass] at hhas
      cases hhas
    obtain ⟨row', hrow', hmap⟩ :=
      Option.map_eq_some_iff.mp (table_fromBegin _ (Http.lookup_mem hrow) hlocal)
    rw [next_of_lookup hrow, ← rowNext_hostRow hcolon hat] at hnext
    rw [next_of_lookup hrow', ← rowNext_hostRow hcolon hat, hmap, rowNext_map]
    exact Option.map_eq_some_iff.mpr ⟨_, hnext, rfl⟩
  · rw [fromBegin_of_phase hphase hlocal, fromBegin_of_phase htphase (hother hlocal)]
    exact hnext

/-- Behind the colon of a port only a port is read. -/
theorem run_behindColon : ∀ {w : Bytes} {cs : Nat}, cs = 514 ∨ cs = 515 →
    (∀ c ∈ w, isDelim c = false) → run rest cs w = some t → t = 514 ∨ t = 515 := by
  intro w
  induction w with
  | nil =>
      rintro cs hcs - hrun
      cases hrun
      exact hcs
  | cons c w ih =>
      intro cs hcs hw hrun
      obtain ⟨actions, s, hnext, hrun⟩ := run_cons_eq_some.mp hrun
      refine ih (Or.inr ?_) (fun b hb => hw b (List.mem_cons_of_mem _ hb)) hrun
      rcases hcs with rfl | rfl
      · exact (next_port (hw c List.mem_cons_self) hnext).2.2
      · exact (next_portDigits (hw c List.mem_cons_self) hnext).2.2

theorem run_fromBegin (hdone : hostDone t = true) : ∀ {w : Bytes} {cs : Nat}, phase cs ∈ hostPhases →
    (∀ c ∈ w, isDelim c = false) → run rest cs w = some t →
    run rest (fromBegin cs) w = some (fromBegin t) := by
  intro w
  induction w with
  | nil =>
      rintro cs - - hrun
      cases hrun
      rfl
  | cons c w ih =>
      intro cs hphase hw hrun
      obtain ⟨actions, s, hnext, hrun⟩ := run_cons_eq_some.mp hrun
      have hw' := fun b hb => hw b (List.mem_cons_of_mem _ hb)
      have hs : s ≠ 514 := by
        intro hs
        rcases run_behindColon (Or.inl hs) hw' hrun with rfl | rfl
        · exact phase_ne_of_hostDone (φ := .port) hdone (by decide) rfl
        · exact phase_ne_of_hostDone (φ := .portDigits) hdone (by decide) rfl
      obtain ⟨hnext', hphase'⟩ := next_fromBegin hphase (hw c List.mem_cons_self) hnext hs
      exact run_cons_eq_some.mpr ⟨_, _, hnext', ih hphase' hw' hrun⟩

theorem hostDone_fromBegin (hdone : hostDone cs = true) : hostDone (fromBegin cs) = true := by
  have hcheck : ∀ cs < 561, hostDone cs = true → hostDone (fromBegin cs) = true := by decide +kernel
  by_cases hlt : cs < 561
  · exact hcheck cs hlt hdone
  · exact absurd (phase_of_ge (by omega)) (phase_ne_of_hostDone hdone (by decide))

/-! ## What `Uri::dump` prints -/

/-- The userinfo that is printed. -/
def dumpedUserinfo (authority : Bytes) : Option Bytes :=
  if kept (userinfoOf authority) = [] then none else some (kept (userinfoOf authority))

/-- The port that is printed. -/
def dumpedPort (u : Uri) : Bytes := if u.isDefaultPort then [] else toString u.port

theorem notDelim_of_toString {n : Int} (hc : c ∈ toString n) : isDelim c = false ∧ c ≠ 64 := by
  have hdigits {m : Nat} (hc : c ∈ digits m) : isDelim c = false ∧ c ≠ 64 :=
    not_delim_of_isDigit (List.all_eq_true.mp (Http.all_isDigit_digits m) c hc)
  rw [toString] at hc
  split at hc
  · rcases List.mem_append.mp hc with hc | hc
    · obtain rfl := List.mem_singleton.mp (show c ∈ [45] from hc)
      decide
    · exact hdigits hc
  · exact hdigits hc

theorem toString_ne_nil (n : Int) : toString n ≠ [] := by
  rw [toString]
  split
  · exact List.append_ne_nil_of_right_ne_nil _ (Http.digits_ne_nil _)
  · exact Http.digits_ne_nil _

theorem mem_of_mem_userinfoOf {authority : Bytes} (hc : c ∈ userinfoOf authority) : c ∈ authority := by
  rw [userinfoOf] at hc
  split at hc
  · exact (List.takeWhile_sublist _).subset hc
  · cases hc

theorem mem_of_mem_kept {u : Bytes} (hc : c ∈ kept u) : c ∈ u := by
  rw [kept] at hc
  split at hc
  · exact mem_of_mem_afterColon hc
  · exact hc

theorem mem_of_mem_hostOf {authority : Bytes} (hc : c ∈ hostOf authority) : c ∈ authority := by
  have hhostport {b : UInt8} (hb : b ∈ hostportOf authority) : b ∈ authority := by
    rw [hostportOf] at hb
    split at hb
    · exact (List.dropWhile_sublist _).subset (List.mem_of_mem_tail hb)
    · exact hb
  rw [hostOf] at hc
  split at hc
  · exact hhostport ((List.rdropWhile_prefix _ _).subset (List.dropLast_subset _ hc))
  · exact hhostport hc

theorem dumped_authority_valid (parts : Components) : ∀ c ∈ lead (dumpedUserinfo parts.authority) ++
    (hostOf parts.authority ++ portText (dumpedPort parts.decoded)), isDelim c = false := by
  intro c hc
  rcases List.mem_append.mp hc with hc | hc
  · rw [dumpedUserinfo] at hc
    split at hc
    · cases hc
    · rcases List.mem_append.mp hc with hc | hc
      · exact parts.authority_valid c (mem_of_mem_userinfoOf (mem_of_mem_kept hc))
      · obtain rfl := List.mem_singleton.mp hc
        decide
  rcases List.mem_append.mp hc with hc | hc
  · exact parts.authority_valid c (mem_of_mem_hostOf hc)
  · rw [portText] at hc
    split at hc
    · cases hc
    · rcases List.mem_cons.mp hc with rfl | hc
      · decide
      · rw [dumpedPort] at hc
        split at hc
        · cases hc
        · exact (notDelim_of_toString hc).1

/-- A component that is printed only if there is something to print. -/
def nonempty (w : Bytes) : Option Bytes := if w = [] then none else some w

theorem mem_nonempty {v : Bytes} (h : v ∈ nonempty w) : v = w ∧ w ≠ [] := by
  rw [nonempty] at h
  split at h
  next => cases h
  next hne => exact ⟨(Option.some.inj h).symm, hne⟩

theorem getD_nonempty : (nonempty w).getD [] = w := by
  rw [nonempty]
  split
  next h => rw [h]; rfl
  next => rfl

/-- The components of what is printed. -/
def Components.dumped (parts : Components) : Components where
  scheme := parts.scheme
  authority := lead (dumpedUserinfo parts.authority) ++
    (hostOf parts.authority ++ portText (dumpedPort parts.decoded))
  path := parts.decoded.getPath
  query := nonempty (parts.query.getD [])
  fragment := nonempty (parts.fragment.getD [])
  scheme_valid := parts.scheme_valid
  authority_valid := dumped_authority_valid parts
  path_valid := by
    rw [getPath]
    split
    next => exact Or.inr rfl
    next hne => exact Or.inr (parts.path_valid.resolve_left hne)
  path_end := by
    rw [getPath]
    split
    next => decide
    next => exact parts.path_end
  query_end := by
    intro w hw
    obtain ⟨rfl, hne⟩ := mem_nonempty hw
    cases hq : parts.query with
    | none => simp [hq] at hne
    | some q => exact parts.query_end q hq

theorem Components.dumped_authority (parts : Components) : parts.dumped.authority =
    lead (dumpedUserinfo parts.authority) ++
      (hostOf parts.authority ++ portText (dumpedPort parts.decoded)) := rfl

theorem Components.dumped_text (parts : Components) : parts.dumped.text = parts.decoded.dump := by
  have huser : lead (dumpedUserinfo parts.authority) =
      parts.decoded.userinfo ++ if parts.decoded.userinfo = [] then [] else ascii "@" := by
    rw [dumpedUserinfo, Components.decoded]
    simp only
    split
    next h => simp [h, lead]
    next => rfl
  have hport : portText (dumpedPort parts.decoded) =
      if parts.decoded.isDefaultPort then [] else ascii ":" ++ toString parts.decoded.port := by
    rw [dumpedPort]
    split
    next => rfl
    next => rw [portText, if_neg (toString_ne_nil _)]; rfl
  have hannounced (c : UInt8) (w : Bytes) :
      announced c (nonempty w) = (if w = [] then [] else [c]) ++ w := by
    rw [nonempty]
    split
    next h => simp [h, announced]
    next => rfl
  simp only [Components.text, dump, Components.dumped, hannounced, huser, hport, List.append_assoc]
  rfl

/-! ## Reading it again -/

theorem digitBehindColon_kept {u : Bytes} : digitBehindColon (kept u) =
    (digitBehindColon u && digitBehindColon (afterColon u)) := by
  rw [kept]
  split
  next h => rw [h, Bool.true_and]
  next h => rw [Bool.not_eq_true] at h; rw [h, Bool.false_and]

theorem portNumber_nonneg_iff {d : Bytes} :
    0 ≤ portNumber d ↔ min (digitsValue 10 d) (2 ^ 63 - 1) % 2 ^ 32 < 2 ^ 31 := by
  have hcast : min (digitsValue 10 d : Int) (2 ^ 63 - 1) = (min (digitsValue 10 d) (2 ^ 63 - 1) : Nat) := by
    omega
  rw [portNumber, hcast, longToInt, Int.bmod_def]
  split <;> omega

theorem portNumber_lt {d : Bytes} : portNumber d < 2 ^ 31 := Int.bmod_lt (by decide)

theorem digitsValue_digits (n : Nat) : digitsValue 10 (digits n) = n := by
  rw [digitsValue, List.foldl_ext _ (fun m c => 10 * m + (c.toNat - 48)), Http.foldl_digits]
  intro m c hc
  rw [Http.digitValue, if_pos (List.all_eq_true.mp (Http.all_isDigit_digits n) c hc)]

theorem portNumber_toString {n : Int} (h : 0 ≤ n) (hlt : n < 2 ^ 31) : portNumber (toString n) = n := by
  have hvalue : digitsValue 10 (toString n) = n.natAbs := by
    rw [toString, if_neg (by omega), digitsValue_digits]
  rw [portNumber_eq_iff.mpr (by rw [hvalue]; omega), hvalue]
  omega

theorem all_isDigit_toString {n : Int} (h : 0 ≤ n) : (toString n).all isDigit = true := by
  rw [toString, if_neg (by omega)]
  exact Http.all_isDigit_digits _

/-- The colon in front of a port without brackets and colons is found. -/
theorem portOf_append {v e : Bytes} (hat : 64 ∉ e) (he : ∀ c ∈ e, isColonOrBracket c = false) :
    portOf (v ++ 58 :: e) = e := by
  obtain ⟨v', hv'⟩ : ∃ v', hostportOf (v ++ 58 :: e) = v' ++ 58 :: e := by
    by_cases hmem : 64 ∈ v
    · obtain ⟨a, b, rfl, ha⟩ := List.eq_append_cons_of_mem hmem
      refine ⟨b, ?_⟩
      rw [hostportOf, if_pos (by simp), List.append_assoc, List.cons_append, dropWhile_bne_run ha,
        List.tail_cons]
    · exact ⟨v, by rw [hostportOf, if_neg (by simp [hmem, hat])]⟩
  rw [portOf, hv', portLead_append_colon he, if_pos (by simp), rtakeWhile_append_colon he]

/-- What the getters of a `Uri` return. -/
structure SameGetters (u u' : Uri) : Prop where
  scheme : u'.scheme = u.scheme
  userinfo : u'.userinfo = u.userinfo
  host : u'.host = u.host
  port : u'.getPort = u.getPort
  path : u'.getPath = u.getPath
  query : u'.query = u.query
  fragment : u'.fragment = u.fragment

theorem exists_read (h : Accepts rest parts) : ∃ x h d s, AuthorityRead rest parts.authority x h d s := by
  obtain ⟨cs, hrun, hcs, hne⟩ := h.authority
  exact exists_authorityRead parts.authority_valid hrun hcs hne

theorem AuthorityRead.parts_eq {a : Bytes} {s : Nat} (h : AuthorityRead rest a x w d s) :
    userinfoOf a = x.getD [] ∧ hostOf a = w ∧ portOf a = d := by
  rw [h.text]
  exact parts_of_authority h.userinfo h.isHost h.digits

/-- A port that is printed with a minus sign is refused. -/
theorem portNumber_nonneg (h : Accepts rest parts.dumped) : 0 ≤ parts.decoded.port := by
  obtain ⟨x, w, d, s, hread⟩ := exists_read h
  by_contra hneg
  have hdump : dumpedPort parts.decoded = 45 :: digits parts.decoded.port.natAbs := by
    rw [dumpedPort, if_neg, toString, if_pos (by omega)]
    · rfl
    · rw [isDefaultPort]
      split_ifs <;> simp <;> omega
  have hmem (c : UInt8) (hc : c ∈ digits parts.decoded.port.natAbs) : isDigit c = true :=
    List.all_eq_true.mp (Http.all_isDigit_digits _) c hc
  have hport : portOf parts.dumped.authority = 45 :: digits parts.decoded.port.natAbs := by
    have htext : parts.dumped.authority = lead (dumpedUserinfo parts.authority) ++
        hostOf parts.authority ++ 58 :: 45 :: digits parts.decoded.port.natAbs := by
      rw [Components.dumped_authority, hdump, portText, if_neg (by simp), List.append_assoc]
    rw [htext, portOf_append]
    · rintro (_ | ⟨_, hat⟩)
      exact absurd (hmem 64 hat) (by decide)
    · intro c hc
      rcases List.mem_cons.mp hc with rfl | hc
      · decide
      · exact isColonOrBracket_of_isDigit (hmem c hc)
  have hdigits := hread.digits
  rw [← hread.parts_eq.2.2, hport] at hdigits
  cases hdigits

theorem all_isDigit_dumpedPort {u : Uri} (h : 0 ≤ u.port) : (dumpedPort u).all isDigit = true := by
  rw [dumpedPort]
  split
  · rfl
  · exact all_isDigit_toString h

theorem dumpedUserinfo_getD {a : Bytes} : (dumpedUserinfo a).getD [] = kept (userinfoOf a) := by
  rw [dumpedUserinfo]
  split
  next h => rw [h]; rfl
  next => rfl

/-- The authority that is printed has the parts that were saved. -/
theorem dumped_parts {s : Nat} (hread : AuthorityRead rest parts.authority x w d s)
    (hport : 0 ≤ parts.decoded.port) :
    userinfoOf parts.dumped.authority = kept (userinfoOf parts.authority) ∧
      hostOf parts.dumped.authority = hostOf parts.authority ∧
      portOf parts.dumped.authority = dumpedPort parts.decoded := by
  obtain ⟨huser, hhost, -⟩ := hread.parts_eq
  have hx : ∀ u ∈ dumpedUserinfo parts.authority, 64 ∉ u := by
    intro u hu hat
    rw [dumpedUserinfo, huser] at hu
    split at hu
    · cases hu
    · obtain rfl := Option.some.inj hu
      cases x with
      | none => exact absurd (mem_of_mem_kept hat) List.not_mem_nil
      | some v => exact hread.userinfo v rfl (mem_of_mem_kept hat)
  have hw : IsHost (hostOf parts.authority) := by
    rw [hhost]
    exact hread.isHost
  obtain ⟨huser', hhost', hport'⟩ := parts_of_authority hx hw (all_isDigit_dumpedPort hport)
  rw [dumpedUserinfo_getD] at huser'
  exact ⟨huser', hhost', hport'⟩

theorem dumped_hostRead {s : Nat} (hread : AuthorityRead rest parts.authority x w d s) :
    ∃ s, HostRead rest (dumpedUserinfo parts.authority) (hostOf parts.authority) s ∧
      hostDone s = true := by
  obtain ⟨huser, hhost, -⟩ := hread.parts_eq
  have hdelim : ∀ c ∈ hostOf parts.authority, isDelim c = false := fun c hc =>
    parts.authority_valid c (mem_of_mem_hostOf hc)
  have hhostRead := hread.host
  rw [← hhost] at hhostRead
  rw [dumpedUserinfo, huser]
  cases x with
  | none => exact ⟨s, hhostRead, hread.done⟩
  | some v =>
      rw [Option.getD_some]
      by_cases hnil : kept v = []
      · rw [if_pos hnil]
        -- the `@` behind an empty userinfo is not printed
        have hbegin : phase 522 ∈ hostPhases := by decide
        have hrun := run_fromBegin hread.done hbegin hdelim hhostRead.host
        exact ⟨fromBegin s, ⟨nofun, hrun⟩, hostDone_fromBegin hread.done⟩
      · rw [if_neg hnil]
        refine ⟨s, ⟨?_, hhostRead.host⟩, hread.done⟩
        rintro _ ⟨⟩
        refine run_kept (hhostRead.userinfo v rfl) hread.behindColon fun c hc => ⟨?_, ?_⟩
        · rw [← Option.getD_some (a := v) (b := []), ← huser] at hc
          exact parts.authority_valid c (mem_of_mem_userinfoOf hc)
        · rintro rfl
          exact hread.userinfo v rfl hc

theorem dumped_accepts (h : Accepts rest parts) (hport : 0 ≤ parts.decoded.port) :
    Accepts rest parts.dumped := by
  obtain ⟨x, w, d, s, hread⟩ := exists_read h
  obtain ⟨s, hhost, hdone⟩ := dumped_hostRead hread
  refine ⟨run_authority hhost hdone (all_isDigit_dumpedPort hport), ?_, ?_, ?_⟩
  · intro w hw
    change parts.decoded.getPath = 47 :: w at hw
    rw [getPath] at hw
    split at hw
    · cases hw
      rfl
    · exact h.path w hw
  · intro w hw
    obtain ⟨rfl, hne⟩ := mem_nonempty hw
    cases hq : parts.query with
    | none => simp [hq] at hne
    | some q => exact h.query q hq
  · intro w hw
    obtain ⟨rfl, hne⟩ := mem_nonempty hw
    cases hf : parts.fragment with
    | none => simp [hf] at hne
    | some f => exact h.fragment f hf

theorem getPath_dumped (parts : Components) :
    parts.dumped.decoded.getPath = parts.decoded.getPath := by
  change (if parts.decoded.getPath = [] then ascii "/" else parts.decoded.getPath) = _
  rw [getPath]
  split_ifs <;> rfl

theorem getPort_dumped {u u' : Uri} (hscheme : u'.scheme = u.scheme) (hport : 0 ≤ u.port)
    (hlt : u.port < 2 ^ 31) (h : u'.port = portNumber (dumpedPort u)) : u'.getPort = u.getPort := by
  rw [dumpedPort] at h
  split at h
  next hdefault =>
    rw [portNumber_nil] at h
    rw [getPort, getPort, h, hscheme]
    rw [isDefaultPort] at hdefault
    split_ifs at hdefault ⊢ <;> simp_all
  next =>
    rw [portNumber_toString hport hlt] at h
    rw [getPort, getPort, h, hscheme]

theorem reparses_iff (h : create rest parts.text = .ok (some u)) :
    (∃ u', create rest u.dump = .ok (some u') ∧ u.SameGetters u') ↔
      ¬ (digitBehindColon (userinfoOf parts.authority) = true ∧
        digitBehindColon (afterColon (userinfoOf parts.authority)) = true) ∧
      min (portValue parts.authority) (2 ^ 63 - 1) % 2 ^ 32 < 2 ^ 31 := by
  obtain ⟨haccepts, rfl⟩ := create_eq_some_iff.mp h
  obtain ⟨x, w, d, s, hread⟩ := exists_read haccepts
  have huser : ¬ (digitBehindColon (userinfoOf parts.authority) = true ∧
      digitBehindColon (afterColon (userinfoOf parts.authority)) = true) ↔
      kept (kept (userinfoOf parts.authority)) = kept (userinfoOf parts.authority) := by
    rw [kept_eq_self_iff, digitBehindColon_kept, ← Bool.and_eq_true, Bool.not_eq_true]
  have hport : min (portValue parts.authority) (2 ^ 63 - 1) % 2 ^ 32 < 2 ^ 31 ↔
      0 ≤ parts.decoded.port := portNumber_nonneg_iff.symm
  rw [← Components.dumped_text, huser, hport]
  constructor
  · rintro ⟨u', hcreate, hsame⟩
    obtain ⟨haccepts', rfl⟩ := create_eq_some_iff.mp hcreate
    have hnonneg := portNumber_nonneg haccepts'
    refine ⟨?_, hnonneg⟩
    rw [← (dumped_parts hread hnonneg).1]
    exact hsame.userinfo.trans (dumped_parts hread hnonneg).1.symm
  · rintro ⟨hkept, hnonneg⟩
    obtain ⟨huser', hhost', hport'⟩ := dumped_parts hread hnonneg
    refine ⟨_, create_of_accepts (dumped_accepts haccepts hnonneg), rfl, ?_, hhost', ?_, ?_, ?_, ?_⟩
    · exact (congrArg kept huser').trans hkept
    · exact getPort_dumped rfl hnonneg portNumber_lt (congrArg portNumber hport')
    · exact getPath_dumped parts
    · exact getD_nonempty
    · exact getD_nonempty

end Reparse

theorem reparses_full : ∃ u, create .refuse fullComponents.text = .ok (some u) ∧
    ((∃ u', create .refuse u.dump = .ok (some u') ∧ u.SameGetters u') ↔
      ¬ (digitBehindColon (userinfoOf fullComponents.authority) = true ∧
        digitBehindColon (afterColon (userinfoOf fullComponents.authority)) = true) ∧
      min (portValue fullComponents.authority) (2 ^ 63 - 1) % 2 ^ 32 < 2 ^ 31) :=
  have h : create .refuse fullComponents.text = .ok (some fullComponents.decoded) := by decide +kernel
  ⟨_, h, reparses_iff h⟩

/-- `http://host:4294967295/` -/
def wrappedComponents : Components where
  scheme := ascii "http"
  authority := ascii "host:4294967295"
  path := ascii "/"
  query := none
  fragment := none
  scheme_valid := fullComponents.scheme_valid
  authority_valid := by decide +kernel
  path_valid := digitComponents.path_valid
  path_end := digitComponents.path_end
  query_end := digitComponents.query_end

/-- What `Uri::Create` makes of it. -/
def wrappedUri : Uri where
  scheme := ascii "http"
  userinfo := []
  host := ascii "host"
  path := ascii "/"
  query := []
  fragment := []
  port := -1

/-- It prints as `http://host:-1/`, which `Uri::Create` refuses. -/
theorem not_reparses_wrapped : ¬ ∀ (rest : Rest) (parts : Components) (u : Uri),
    create rest parts.text = .ok (some u) →
      ∃ u', create rest u.dump = .ok (some u') ∧ u.SameGetters u' := by
  intro h
  have hcreate : create .refuse wrappedComponents.text = .ok (some wrappedUri) := by decide +kernel
  obtain ⟨u', hreparse, -⟩ := h _ _ _ hcreate
  have hrefused : create .refuse wrappedUri.dump = .ok none := by decide +kernel
  rw [hrefused] at hreparse
  cases hreparse

end Uri

end Saturn
