import Saturn.Http.ChunkLine

/-!
# What `execute` says it has consumed

`HttpResponseParser::execute` takes one off whatever `httpclient_parser_execute` returns: the count
of all calls since the last `httpclient_parser_init`, which is one too high where a header has
ended, or -1. `executesExactly_iff` says for which calls the result is the number of bytes consumed.
-/

namespace Saturn

namespace Http

namespace Client

/-- How many bytes the table leads over, and how it ends. -/
def walk : Nat → Bytes → Nat × Halt
  | _, [] => (0, .atEnd)
  | cs, c :: bs =>
    match next cs c with
    | none => (0, .failed)
    | some (.done _ _) => (1, .stopped)
    | some (.goto _ cs) => ((walk cs bs).1 + 1, (walk cs bs).2)

/-- The actions do not change where the machine goes. -/
theorem scan_walk {buffer : Bytes} (xs : Bytes) : ∀ {s : Nat × HttpResponseParser} {p : Nat}
    {e : Scanned (Nat × HttpResponseParser)}, scan (step buffer) s p xs = .ok e →
    e.pos = p + (walk s.1 xs).1 ∧ e.halt = (walk s.1 xs).2 := by
  induction xs with
  | nil =>
      intro s p e h
      cases h
      exact ⟨rfl, rfl⟩
  | cons c bs ih =>
      intro s p e h
      rw [walk]
      rcases scan_cons_cases h with ⟨t, hstep, ht⟩ | ⟨t, hstep, rfl⟩ | ⟨hstep, rfl⟩
      · rcases step_cases hstep with ⟨-, hm⟩ | ⟨actions, cs, r, hnext, -, hm⟩ | ⟨_, _, _, -, -, hm⟩
        · cases hm
        · obtain rfl := Move.goto.inj hm
          obtain ⟨hpos, hhalt⟩ := ih ht
          rw [hnext]
          exact ⟨by rw [hpos]; dsimp only; omega, hhalt⟩
        · cases hm
      · rcases step_cases hstep with ⟨-, hm⟩ | ⟨_, _, _, -, -, hm⟩ | ⟨actions, cs, r, hnext, -, -⟩
        · cases hm
        · cases hm
        · rw [hnext]
          exact ⟨rfl, rfl⟩
      · rcases step_cases hstep with ⟨hnext, -⟩ | ⟨_, _, _, -, -, hm⟩ | ⟨_, _, _, -, -, hm⟩
        · rw [hnext]
          exact ⟨rfl, rfl⟩
        · cases hm
        · cases hm

/-- How far the walk can get, by how it ends. -/
theorem walk_pos (xs : Bytes) : ∀ cs : Nat,
    ((walk cs xs).2 = .atEnd → (walk cs xs).1 = xs.length) ∧
    ((walk cs xs).2 = .failed → (walk cs xs).1 < xs.length) ∧
    ((walk cs xs).2 = .stopped → 0 < (walk cs xs).1 ∧ (walk cs xs).1 ≤ xs.length) := by
  induction xs with
  | nil => exact fun cs => ⟨fun _ => rfl, nofun, nofun⟩
  | cons c bs ih =>
      intro cs
      rw [walk, List.length_cons]
      split
      · exact ⟨nofun, fun _ => Nat.succ_pos _, nofun⟩
      · exact ⟨nofun, nofun, fun _ => ⟨Nat.one_pos, Nat.succ_pos _⟩⟩
      · rename_i cs' _
        obtain ⟨hend, hfail, hstop⟩ := ih cs'
        refine ⟨fun h => ?_, fun h => ?_, fun h => ?_⟩
        · exact congrArg Nat.succ (hend h)
        · exact Nat.succ_lt_succ (hfail h)
        · exact ⟨Nat.succ_pos _, Nat.succ_le_succ (hstop h).2⟩

end Client

open Client

namespace HttpResponseParser

/-- The parser that a call of `execute` starts with. -/
def start (r : HttpResponseParser) (chunk : Bool) : HttpResponseParser :=
  if chunk then { r with parser := .init } else r

/-- The parsers behind any calls of `execute`. A callback that throws leaves the state of the
machine, the count and the start of the body as they were; what it does to the rest is left open. -/
inductive Fed : HttpResponseParser → Prop
  | new : Fed .new
  | returned {r behind data chunk r' offset} : Fed r → data ≠ [] →
      r.execute behind data chunk = .ok (r', offset) → Fed r'
  | threw {r behind data chunk r'} : Fed r → data ≠ [] →
      r.execute behind data chunk = .error .lengthError →
      r'.parser.cs = (r.start chunk).parser.cs → SameCounts (r.start chunk) r' → Fed r'

/-- What `memmove(data, data + offset, len - offset)` brings to the front, if it comes from the
buffer. -/
def moved (data : Bytes) (offset : Int) : Option Bytes :=
  if 0 ≤ offset ∧ offset ≤ data.length then some (data.drop offset.toNat) else none

/-- The number of bytes that the machine goes over. -/
def consumed (r : HttpResponseParser) (data : Bytes) : Nat := (walk r.parser.cs data).1

variable {behind data : Bytes} {r r' : HttpResponseParser} {chunk : Bool} {offset n : Int}

theorem execute_eq (behind : Bytes) (r : HttpResponseParser) (data : Bytes) (chunk : Bool) :
    r.execute behind data chunk =
      (httpclientParserExecute behind (r.start chunk) data).map fun e => (e.1, e.2 - 1) := rfl

/-- What a call that returns has done: it has scanned the buffer, within the assertions, and returns
the count or -1. -/
theorem execute_cases (h : httpclientParserExecute behind r data = .ok (r', n)) :
    ∃ e, scan (step (data ++ behind)) (r.parser.cs, r) 0 data = .ok e ∧ data.length < 2 ^ 31 ∧
      total e ≤ data.length ∧
      (r' = left e ∧ n = toInt32 (count e) ∨
        r' = { left e with parser.nread := total e } ∧ n = -1) := by
  rw [httpclientParserExecute] at h
  split at h
  · cases h
  rename_i hlen
  obtain ⟨e, he, h⟩ := except_bind_eq_ok.mp h
  dsimp only at h
  split at h
  · cases h
  rename_i hwithin
  have hsmall : data.length < 2 ^ 31 := by
    by_contra hge
    have hlt : toInt32 data.length < 2 ^ 31 := (BitVec.ofNat 32 data.length).toInt_lt
    omega
  refine ⟨e, he, hsmall, by rw [total]; omega, ?_⟩
  split at h
  · obtain ⟨rfl, rfl⟩ := Prod.mk.inj (Except.ok.inj h)
    exact Or.inl ⟨rfl, rfl⟩
  · obtain ⟨rfl, rfl⟩ := Prod.mk.inj (Except.ok.inj h)
    exact Or.inr ⟨rfl, rfl⟩

/-- What every parser satisfies: while no more than one byte is counted, nothing points behind the
start of the buffer and no header has ended, and while none is, the machine is in the start state or
has refused a byte. -/
structure Counted (r : HttpResponseParser) : Prop where
  early : r.parser.nread ≤ 1 → MarkedAt r 0 ∧ r.parser.bodyStart = 0
  fresh : r.parser.nread = 0 →
    r.parser.cs = httpclientParserStart ∨ r.parser.cs = httpclientParserError

theorem counted_init (r : HttpResponseParser) : Counted { r with parser := .init } :=
  ⟨fun _ => ⟨marked_init r, rfl⟩, fun _ => Or.inl rfl⟩

theorem Counted.start (h : Counted r) (chunk : Bool) : Counted (r.start chunk) := by
  cases chunk with
  | true => exact counted_init r
  | false => exact h

/-- The first byte of a header only sets the mark. -/
theorem next_start_cases (c : UInt8) :
    next httpclientParserStart c = none ∨
      ∃ cs, next httpclientParserStart c = some (.goto [.mark] cs) := by
  by_cases hx : isXdigit c = true
  · exact Or.inr ⟨2, next_start_of_xdigit hx⟩
  · by_cases hH : c = 72
    · exact Or.inr ⟨8, by rw [hH]; decide⟩
    · exact Or.inl (next_start_of_not (Bool.eq_false_iff.mpr hx) hH)

theorem next_error (c : UInt8) : next httpclientParserError c = none := rfl

/-- Behind a scan that leaves one byte counted, nothing points behind the start of the buffer. -/
theorem Counted.scan_early (h : Counted r) {e : Scanned (Nat × HttpResponseParser)}
    (he : scan (step (data ++ behind)) (r.parser.cs, r) 0 data = .ok e) (hone : total e ≤ 1) :
    MarkedAt e.state.2 0 ∧ e.state.2.parser.bodyStart = 0 := by
  rw [total, scan_nread he] at hone
  dsimp only at hone
  obtain ⟨hmarked, hbody⟩ := h.early (by omega)
  by_cases hpos : e.pos = 0
  · rw [scan_stays he hpos]
    exact ⟨hmarked, hbody⟩
  cases data with
  | nil =>
      cases he
      exact absurd rfl hpos
  | cons c bs =>
      rcases h.fresh (by omega) with hcs | hcs
      · rcases next_start_cases c with hnext | ⟨cs, hnext⟩
        · have hstep : step (c :: bs ++ behind) (r.parser.cs, r) 0 c = .ok .fail := by
            rw [step, hcs, hnext]
          rw [scan_cons_fail bs hstep] at he
          cases he
          exact absurd rfl hpos
        · have hstep : step (c :: bs ++ behind) (r.parser.cs, r) 0 c =
              .ok (.goto (cs, { r with parser.mark := 0 })) := by
            rw [step, hcs, hnext]
            rfl
          rw [scan_cons_goto bs hstep] at he
          rw [scan_stays he (by omega)]
          exact ⟨⟨Nat.le_refl 0, hmarked.fieldStart, hmarked.fieldLen⟩, hbody⟩
      · have hstep : step (c :: bs ++ behind) (r.parser.cs, r) 0 c = .ok .fail := by
          rw [step, hcs, next_error]
        rw [scan_cons_fail bs hstep] at he
        cases he
        exact absurd rfl hpos

/-- A scan of the whole buffer, by the walk. -/
theorem walk_of_scan {e : Scanned (Nat × HttpResponseParser)}
    (he : scan (step (data ++ behind)) (r.parser.cs, r) 0 data = .ok e) :
    e.pos = r.consumed data ∧ e.halt = (walk r.parser.cs data).2 ∧
      total e = r.parser.nread + r.consumed data := by
  obtain ⟨hpos, hhalt⟩ := scan_walk data he
  rw [Nat.zero_add] at hpos
  exact ⟨hpos, hhalt, by rw [total, scan_nread he, hpos]; rfl⟩

theorem le_count (e : Scanned (Nat × HttpResponseParser)) :
    total e ≤ count e ∧ count e ≤ total e + 1 := by
  unfold count
  split
  · exact ⟨Nat.le_succ _, Nat.le_refl _⟩
  · exact ⟨Nat.le_refl _, Nat.le_succ _⟩

/-- A call that returns keeps the invariant. -/
theorem Counted.execute (h : Counted r) (hne : data ≠ [])
    (hexec : httpclientParserExecute behind r data = .ok (r', n)) : Counted r' := by
  obtain ⟨e, he, hlen, -, hcases⟩ := execute_cases hexec
  obtain ⟨hpos, hhalt, htotal⟩ := walk_of_scan he
  obtain ⟨hend, -, hstop⟩ := walk_pos data r.parser.cs
  have hdata : 0 < data.length := List.length_pos_iff.mpr hne
  have hcount := le_count e
  -- what is left in the parser is what the scan has, but for the state and the count
  have hnread : total e ≤ r'.parser.nread := by
    rcases hcases with ⟨rfl, -⟩ | ⟨rfl, -⟩
    · exact hcount.1
    · exact Nat.le_refl _
  have hkeeps : MarkedAt e.state.2 0 ∧ e.state.2.parser.bodyStart = 0 →
      MarkedAt r' 0 ∧ r'.parser.bodyStart = 0 := by
    rintro ⟨⟨hmark, hstart, hflen⟩, hbody⟩
    rcases hcases with ⟨rfl, -⟩ | ⟨rfl, -⟩
    · exact ⟨⟨hmark, hstart, hflen⟩, hbody⟩
    · exact ⟨⟨hmark, hstart, hflen⟩, hbody⟩
  refine ⟨fun hone => hkeeps (h.scan_early he (by omega)), fun hzero => Or.inr ?_⟩
  -- where nothing is counted, the first byte has been refused
  have hfailed : e.halt = .failed := by
    have hnone : (walk r.parser.cs data).1 = 0 := by
      rw [consumed] at htotal
      omega
    cases hcase : e.halt with
    | failed => rfl
    | atEnd =>
        have := hend (hhalt ▸ hcase)
        omega
    | stopped =>
        have := (hstop (hhalt ▸ hcase)).1
        omega
  rcases hcases with ⟨rfl, -⟩ | ⟨rfl, -⟩
  · rw [left, if_pos hfailed]
  · rw [left, if_pos hfailed]

/-- A call throws only where two bytes are counted. -/
theorem Counted.throws (h : Counted r) (hne : data ≠ [])
    (hexec : httpclientParserExecute behind r data = .error .lengthError) : 2 ≤ r.parser.nread := by
  by_contra hlt
  obtain ⟨hmarked, -⟩ := h.early (by omega)
  by_cases hlen : data.length < 2 ^ 31
  · obtain ⟨e, -, -, -, hscan⟩ := execute_scan behind hmarked hne hlen
    rw [hscan] at hexec
    split at hexec
    · cases hexec
    · cases hexec
  · have hbig : toInt32 data.length ≠ data.length := by
      have hlt : toInt32 data.length < 2 ^ 31 := (BitVec.ofNat 32 data.length).toInt_lt
      omega
    rw [httpclientParserExecute, if_pos hbig] at hexec
    cases hexec

theorem Fed.counted (h : Fed r) : Counted r := by
  induction h with
  | new => exact counted_init .new
  | @returned r behind data chunk r' offset _ hne hexec ih =>
      obtain ⟨⟨r₁, n⟩, hrun, heq⟩ := except_map_eq_ok.mp hexec
      obtain ⟨rfl, -⟩ := Prod.mk.inj heq
      exact (ih.start chunk).execute hne hrun
  | @threw r behind data chunk r' _ hne hexec hcs hcounts ih =>
      have hthrow : httpclientParserExecute behind (r.start chunk) data = .error .lengthError := by
        rw [execute_eq] at hexec
        cases hcase : httpclientParserExecute behind (r.start chunk) data with
        | ok e =>
            rw [hcase] at hexec
            cases hexec
        | error fault =>
            rw [hcase] at hexec
            cases hexec
            rfl
      have htwo := (ih.start chunk).throws hne hthrow
      rw [← hcounts.nread] at htwo
      exact ⟨fun hone => absurd hone (by omega), fun hzero => absurd hzero (by omega)⟩

end HttpResponseParser

end Http

end Saturn
