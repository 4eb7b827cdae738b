import Saturn.Http.ClientParser
import Saturn.Misc.Runs

/-!
# The header of a chunk

What the parser does with the size of a chunk, whole or in parts: behind a part of it `execute`
leaves the last byte in the buffer and drops the others, and the next call starts afresh on that
byte.
-/

namespace Saturn

namespace Http

open Client Logged

theorem next_start_of_xdigit {c : UInt8} (h : isXdigit c = true) :
    next 1 c = some (.goto [.mark] 2) := by
  revert h
  exact forall_byte (P := fun c => isXdigit c = true → next 1 c = some (.goto [.mark] 2))
    (by decide +kernel) c

theorem next_size_of_xdigit {c : UInt8} (h : isXdigit c = true) : next 2 c = some (.goto [] 2) := by
  revert h
  exact forall_byte (P := fun c => isXdigit c = true → next 2 c = some (.goto [] 2))
    (by decide +kernel) c

theorem next_start_of_not {c : UInt8} (h : isXdigit c = false) (hH : c ≠ 72) : next 1 c = none := by
  revert h hH
  exact forall_byte (P := fun c => isXdigit c = false → c ≠ 72 → next 1 c = none)
    (by decide +kernel) c

theorem digitValue_of_xdigit {c : UInt8} (h : isXdigit c = true) : digitValue c < 16 := by
  revert h
  exact forall_byte (P := fun c => isXdigit c = true → digitValue c < 16) (by decide +kernel) c

theorem ne_of_xdigit {c : UInt8} (h : isXdigit c = true) :
    isSpace c = false ∧ c ≠ 45 ∧ c ≠ 43 ∧ c ≠ 120 ∧ c ≠ 88 := by
  revert h
  exact forall_byte (P := fun c => isXdigit c = true →
    isSpace c = false ∧ c ≠ 45 ∧ c ≠ 43 ∧ c ≠ 120 ∧ c ≠ 88) (by decide +kernel) c

theorem skipHexPrefix_of_ne {c x : UInt8} (s : Bytes) (h : x ≠ 120) (h' : x ≠ 88) :
    skipHexPrefix (c :: x :: s) = c :: x :: s := by
  unfold skipHexPrefix
  split
  next heq =>
    obtain ⟨-, hx, -⟩ : _ ∧ _ ∧ _ := by simpa using heq
    rw [if_neg]
    · rw [heq]
    · rintro ⟨hx' | hx', -⟩ <;> simp_all
  next => rfl

/-- `strtol` on the size of a chunk. -/
theorem strtol_size {digits : Bytes} (hne : digits ≠ []) (hx : digits.all isXdigit = true)
    (rest : Bytes) :
    strtol 16 (digits ++ 13 :: rest) = min (digitsValue 16 digits : Int) (2 ^ 63 - 1) := by
  obtain ⟨c, ds, rfl⟩ := List.exists_cons_of_ne_nil hne
  rw [List.all_cons, Bool.and_eq_true] at hx
  obtain ⟨hspace, hminus, hplus, -, -⟩ := ne_of_xdigit hx.1
  -- the byte behind the first is no `x`
  have hskip : skipHexPrefix (c :: (ds ++ 13 :: rest)) = c :: (ds ++ 13 :: rest) := by
    cases ds with
    | nil => exact skipHexPrefix_of_ne _ (by decide) (by decide)
    | cons d ds =>
        rw [List.all_cons, Bool.and_eq_true] at hx
        obtain ⟨-, -, -, hlower, hupper⟩ := ne_of_xdigit hx.2.1
        exact skipHexPrefix_of_ne _ hlower hupper
  have htake : (c :: (ds ++ 13 :: rest)).takeWhile (fun c => digitValue c < 16) = c :: ds := by
    rw [← List.cons_append]
    refine takeWhile_run (fun a ha => ?_) (by decide) rest
    have hall : (c :: ds).all isXdigit = true := by rw [List.all_cons, hx.1, hx.2]; rfl
    simpa using digitValue_of_xdigit (List.all_eq_true.mp hall a ha)
  rw [strtol, List.cons_append, List.dropWhile_cons_of_neg (by simp [hspace])]
  simp [hminus, hplus, hskip, htake]

section Scan

variable {buffer : Bytes} {r : HttpResponseParser}

theorem scan_sizeDigits {ds : Bytes} (hx : ds.all isXdigit = true) (p : Nat) (tail : Bytes) :
    scan (step buffer) (2, r) p (ds ++ tail) = scan (step buffer) (2, r) (p + ds.length) tail := by
  induction ds generalizing p with
  | nil => rfl
  | cons c ds ih =>
      rw [List.all_cons, Bool.and_eq_true] at hx
      have hstep : step buffer (2, r) p c = .ok (.goto (2, r)) := by
        rw [step, next_size_of_xdigit hx.1]
        rfl
      rw [List.cons_append, scan_cons_goto _ hstep, ih hx.2, List.length_cons]
      congr 1
      omega

/-- The scan passes the digits of a size; the mark is at the first. -/
theorem scan_size {digits : Bytes} (hne : digits ≠ []) (hx : digits.all isXdigit = true)
    (tail : Bytes) :
    scan (step buffer) (1, { r with parser := .init }) 0 (digits ++ tail) =
      scan (step buffer) (2, { r with parser := .init }) digits.length tail := by
  obtain ⟨c, ds, rfl⟩ := List.exists_cons_of_ne_nil hne
  rw [List.all_cons, Bool.and_eq_true] at hx
  have hstep : step buffer (1, { r with parser := .init }) 0 c =
      .ok (.goto (2, { r with parser := .init })) := by
    rw [step, next_start_of_xdigit hx.1]
    rfl
  rw [List.cons_append, scan_cons_goto _ hstep, scan_sizeDigits hx.2, List.length_cons]
  congr 1
  omega

end Scan

section Execute

variable {r : HttpResponseParser} {digits : Bytes}

/-- `execute` behind a scan, on a buffer that starts with the header of a chunk. -/
theorem execute_chunk {data : Bytes} (hlen : data.length ≤ maxTransfer) (hne : data ≠ [])
    {e : Scanned (Nat × HttpResponseParser)}
    (h : scan (step data) (1, { r with parser := .init }) 0 data = .ok e) {n : Int}
    (hn : (if e.state.2.parser.bodyStart ≠ 0 then (e.pos : Int) else e.pos - 1) = n) :
    r.execute [] data true = .ok (left e, n) := by
  have hmax : maxTransfer < 2 ^ 31 - 1 := by decide
  obtain ⟨e', he, hle, -, htotal, -, -, hexec⟩ :=
    execute_init [] r hne (by omega : data.length < 2 ^ 31)
  rw [List.append_nil] at he
  obtain rfl := Except.ok.inj (h.symm.trans he)
  rw [HttpResponseParser.execute, if_pos rfl, hexec, ← hn, count, htotal]
  by_cases hbody : e.state.2.parser.bodyStart ≠ 0
  · rw [if_pos hbody, if_pos hbody, toInt32_of_lt (by omega)]
    simp [Except.map]
  · rw [if_neg hbody, if_neg hbody, toInt32_of_lt (by omega)]
    rfl

/-- The parser has read the size `digits` of a chunk. -/
structure SizeRead (r : HttpResponseParser) (digits : Bytes) : Prop where
  error : r.error = 0
  cs : r.parser.cs = httpclientParserFirstFinal
  contentLen : r.parser.contentLen = longToInt (min (digitsValue 16 digits : Int) (2 ^ 63 - 1))
  chunksDone : r.parser.chunksDone = decide (r.parser.contentLen ≤ 0)

/-- The header of a chunk is taken whole. -/
theorem execute_size (herr : r.error = 0) (hne : digits ≠ []) (hx : digits.all isXdigit = true)
    (rest : Bytes) (hlen : (digits ++ 13 :: 10 :: rest).length ≤ maxTransfer) :
    ∃ r', r.execute [] (digits ++ 13 :: 10 :: rest) true = .ok (r', ((digits.length + 2 : Nat) : Int)) ∧
      SizeRead r' digits := by
  have hcr : ∀ (s : HttpResponseParser) (p : Nat), step (digits ++ 13 :: 10 :: rest) (2, s) p 13 =
      .ok (.goto (3, onChunkSize s (digits ++ 13 :: 10 :: rest) s.parser.mark)) := by
    intro s p
    rw [step, show next 2 13 = some (.goto [.chunkSize] 3) by decide]
    rfl
  have hlf : ∀ (s : HttpResponseParser) (p : Nat), step (digits ++ 13 :: 10 :: rest) (3, s) p 10 =
      .ok (.stop (120, { s with parser.bodyStart := p + 1 })) := by
    intro s p
    rw [step, show next 3 10 = some (.done [] 120) by decide]
    rfl
  have hscan : scan (step (digits ++ 13 :: 10 :: rest)) (1, { r with parser := .init }) 0
      (digits ++ 13 :: 10 :: rest) = _ := scan_size hne hx (13 :: 10 :: rest)
  rw [scan_cons_goto _ (hcr _ _), scan_cons_stop _ (hlf _ _)] at hscan
  refine ⟨_, execute_chunk hlen (by simp) hscan ?_, ?_⟩
  · rw [if_pos (Nat.succ_ne_zero _)]
  refine ⟨herr, rfl, ?_, rfl⟩
  show longToInt (strtol 16 (digits ++ 13 :: 10 :: rest)) = _
  rw [strtol_size hne hx]

/-- A part of the size, perhaps with the CR: all but the last byte is dropped. -/
theorem execute_partial (herr : r.error = 0) (hne : digits ≠ []) (hx : digits.all isXdigit = true)
    {cr : Bytes} (hcr : cr = [] ∨ cr = [13]) (hlen : (digits ++ cr).length ≤ maxTransfer) :
    ∃ r', r.execute [] (digits ++ cr) true = .ok (r', ((digits ++ cr).length : Int) - 1) ∧
      r'.error = 0 ∧ r'.hasError = false ∧ r'.isFinished = false := by
  have hscan : scan (step (digits ++ cr)) (1, { r with parser := .init }) 0 (digits ++ cr) = _ :=
    scan_size hne hx cr
  rcases hcr with rfl | rfl
  · rw [scan_nil] at hscan
    refine ⟨_, execute_chunk hlen (by simpa using hne) hscan ?_, ?_⟩
    · simp [HttpclientParser.init]
    refine ⟨herr, ?_, rfl⟩
    · rw [HttpResponseParser.hasError, left, herr]
      rfl
  · have hstep : step (digits ++ [13]) (2, { r with parser := .init }) digits.length 13 =
        .ok (.goto (3, onChunkSize { r with parser := .init } (digits ++ [13]) 0)) := by
      rw [step, show next 2 13 = some (.goto [.chunkSize] 3) by decide]
      rfl
    rw [scan_cons_goto _ hstep, scan_nil] at hscan
    refine ⟨_, execute_chunk hlen (by simp) hscan ?_, ?_⟩
    · simp [onChunkSize, HttpclientParser.init]
    refine ⟨herr, ?_, rfl⟩
    · rw [HttpResponseParser.hasError, left, onChunkSize, herr]
      rfl

/-- The parser refuses a byte that no header of a chunk starts with. -/
theorem execute_bad {c : UInt8} (hx : isXdigit c = false) (hH : c ≠ 72) (rest : Bytes)
    (hlen : (c :: rest).length ≤ maxTransfer) :
    ∃ r' n, r.execute [] (c :: rest) true = .ok (r', n) ∧ r'.hasError = true := by
  have hstep : step (c :: rest) (1, { r with parser := .init }) 0 c = .ok .fail := by
    rw [step, next_start_of_not hx hH]
  refine ⟨_, _, execute_chunk hlen (List.cons_ne_nil c rest) (scan_cons_fail rest hstep) rfl, ?_⟩
  rw [HttpResponseParser.hasError, left, if_pos rfl]
  simp

end Execute

/-- The reads of a size with its CRLF, in lengths: `n` bytes are in the buffer, `left` unread. The
result is the digits that the parser has at last, the number of bytes in the buffer behind the CRLF,
and the cuts for the reads to come. `none`: a read ends behind the CR, or nothing comes. -/
def sizeLine (bufferSize : Nat) : Nat → Bytes → Nat → Nat → List Nat → Option (Bytes × Nat × List Nat)
  | 0, _, _, _, _ => none
  | fuel + 1, digits, n, left, cuts =>
    let k := ready left cuts (bufferSize - n)
    if k = 0 then none
    else if digits.length + 2 ≤ n + k then some (digits, n + k - (digits.length + 2), cuts.tail)
    else if n + k ≤ digits.length then
      sizeLine bufferSize fuel (digits.drop (n + k - 1)) 1 (left - k) cuts.tail
    else none

section Reads

variable {lexicalCast : LexicalCast} {bufferSize : Nat} {r r' : HttpResponseParser}
  {data bytes : Bytes} {s t : Stream} {fuel : Nat}

theorem parseLoop_read {chunk : Bool} {n : Int}
    (hread : s.read (bufferSize - data.length) = some (bytes, t))
    (hexec : r.execute [] (data ++ bytes) chunk = .ok (r', n))
    (hn : r'.hasError = false → 0 ≤ n ∧ n ≤ (data ++ bytes).length) :
    (parseLoop (responseParser lexicalCast) bufferSize chunk (fuel + 1) r data s).outcome =
      if r'.hasError then .gaveUp
      else if ((data ++ bytes).drop n.toNat).length = bufferSize then .gaveUp
      else if r'.isFinished then .returned (r', (data ++ bytes).drop n.toNat, t)
      else (parseLoop (responseParser lexicalCast) bufferSize chunk fuel r'
        ((data ++ bytes).drop n.toNat) t).outcome := by
  have hexec' : (responseParser lexicalCast).execute r (data ++ bytes) chunk = .ok (r', n) := hexec
  rw [parseLoop, outcome_tell, hread]
  simp only [outcome_tell, hexec', ofExcept_ok, ret_bind]
  show (if r'.hasError then _ else if _ then _ else if _ then _ else if r'.isFinished then _ else _ :
    ClientCall (HttpResponseParser × Bytes × Stream)).outcome = _
  by_cases herr : r'.hasError = true
  · rw [if_pos herr, if_pos herr]
    rfl
  obtain ⟨hlow, hhigh⟩ := hn (Bool.eq_false_iff.mpr herr)
  rw [if_neg herr, if_neg herr, if_neg (by omega)]
  split
  · rfl
  split <;> rfl

theorem parseLoop_dry (hread : s.read (bufferSize - data.length) = none) :
    (parseLoop (responseParser lexicalCast) bufferSize true (fuel + 1) r data s).outcome = .gaveUp := by
  rw [parseLoop, outcome_tell, hread]
  rfl

/-- Nothing comes of bytes that no header of a chunk starts with. -/
theorem parseLoop_bad {c : UInt8} (hbuf : bufferSize ≤ maxTransfer) {rest : Bytes}
    (hall : data ++ s.unread = c :: rest) (hx : isXdigit c = false) (hH : c ≠ 72)
    (hdata : data.length ≤ bufferSize) :
    (parseLoop (responseParser lexicalCast) bufferSize true (fuel + 1) r data s).outcome = .gaveUp := by
  cases hread : s.read (bufferSize - data.length) with
  | none => exact parseLoop_dry hread
  | some e =>
      obtain ⟨bytes, t⟩ := e
      obtain ⟨hsplit, -, hpos, hle⟩ := Stream.read_conserves hread
      have hlen : (data ++ bytes).length = data.length + bytes.length := List.length_append
      obtain ⟨d, ds, hcons⟩ := List.exists_cons_of_ne_nil
        (l := data ++ bytes) (by rw [← List.length_pos_iff]; omega)
      obtain rfl : d = c := by
        rw [hsplit, ← List.append_assoc, hcons, List.cons_append] at hall
        exact (List.cons.inj hall).1
      obtain ⟨r', n, hexec, herr⟩ := execute_bad (r := r) hx hH ds (by rw [← hcons]; omega)
      rw [parseLoop_read hread (by rw [hcons]; exact hexec) (by simp [herr]), if_pos herr]

theorem sizeLine_of_full {digits : Bytes} {n left : Nat} {cuts : List Nat} (h : bufferSize ≤ n) :
    sizeLine bufferSize fuel digits n left cuts = none := by
  cases fuel with
  | zero => rfl
  | succ fuel =>
      have hready : ready left cuts (bufferSize - n) = 0 := by
        have := ready_le left cuts (bufferSize - n)
        omega
      rw [sizeLine]
      simp only [hready, if_true]

theorem SizeRead.hasError {digits : Bytes} (h : SizeRead r digits) : r.hasError = false := by
  rw [HttpResponseParser.hasError, h.error, h.cs]
  rfl

theorem SizeRead.isFinished {digits : Bytes} (h : SizeRead r digits) : r.isFinished = true := by
  rw [HttpResponseParser.isFinished, h.cs]
  rfl

/-- A turn of the loop whose read brings the size and its CRLF. -/
theorem parseLoop_whole (lexicalCast : LexicalCast) (fuel : Nat) {digits back : Bytes}
    (herr : r.error = 0) (hne : digits ≠ []) (hx : digits.all isXdigit = true)
    (hread : s.read (bufferSize - data.length) = some (bytes, t))
    (hbytes : data ++ bytes = digits ++ 13 :: 10 :: back) (hlen : (data ++ bytes).length ≤ maxTransfer)
    (hback : back.length ≠ bufferSize) :
    ∃ r', (parseLoop (responseParser lexicalCast) bufferSize true (fuel + 1) r data s).outcome =
      .returned (r', back, t) ∧ SizeRead r' digits := by
  obtain ⟨r', hexec, hsize⟩ := execute_size herr hne hx back (hbytes ▸ hlen)
  have hrest : (data ++ bytes).drop ((digits.length + 2 : Nat) : Int).toNat = back := by
    rw [hbytes, Int.toNat_natCast, List.drop_length_add_append]
    rfl
  refine ⟨r', ?_, hsize⟩
  rw [parseLoop_read hread (by rw [hbytes]; exact hexec) (fun _ => by rw [hbytes]; simp; omega),
    hrest, hsize.hasError, hsize.isFinished, if_neg (by decide), if_neg hback, if_pos rfl]

/-- A turn of the loop whose read ends before the LF: the last byte is kept. -/
theorem parseLoop_part (lexicalCast : LexicalCast) (fuel : Nat) {digits cr : Bytes} {m : Nat}
    (herr : r.error = 0) (hne : digits ≠ []) (hx : digits.all isXdigit = true) (hcr : cr = [] ∨ cr = [13])
    (hread : s.read (bufferSize - data.length) = some (bytes, t))
    (hbytes : data ++ bytes = digits ++ cr) (hlen : (digits ++ cr).length = m + 1)
    (hmax : m < maxTransfer) : ∃ r', r'.error = 0 ∧
      (parseLoop (responseParser lexicalCast) bufferSize true (fuel + 1) r data s).outcome =
        if 1 = bufferSize then .gaveUp
        else (parseLoop (responseParser lexicalCast) bufferSize true fuel r'
          ((digits ++ cr).drop m) t).outcome := by
  obtain ⟨r', hexec, herr', hno, hunf⟩ := execute_partial (r := r) herr hne hx hcr (by omega)
  have hlast : (((digits ++ cr).length : Int) - 1).toNat = m := by omega
  have hone : ((digits ++ cr).drop m).length = 1 := by
    rw [List.length_drop]
    omega
  refine ⟨r', herr', ?_⟩
  rw [parseLoop_read hread (by rw [hbytes]; exact hexec) (fun _ => by rw [hbytes]; omega), hbytes,
    hlast, hone, hno, hunf, if_neg (by decide)]
  split
  · rfl
  rw [if_neg (by decide)]

/-- The loop over the header of a chunk, from a buffer and a stream that hold a size, its CRLF and
`rest`. -/
theorem parseLoop_sizeLine (hbuf : bufferSize ≤ maxTransfer) :
    ∀ {fuel : Nat} {r : HttpResponseParser} {digits data rest : Bytes} {s : Stream},
    r.error = 0 → digits ≠ [] → digits.all isXdigit = true →
    data ++ s.unread = digits ++ 13 :: 10 :: rest → data.length ≤ bufferSize →
    s.unread.length < fuel →
    match sizeLine bufferSize fuel digits data.length s.unread.length s.cuts with
    | none =>
        (parseLoop (responseParser lexicalCast) bufferSize true fuel r data s).outcome = .gaveUp
    | some (digits', l, cuts) =>
        (∃ j, digits' = digits.drop j) ∧ l ≤ rest.length ∧ ∃ r',
          (parseLoop (responseParser lexicalCast) bufferSize true fuel r data s).outcome =
            .returned (r', rest.take l, ⟨rest.drop l, cuts⟩) ∧ SizeRead r' digits' := by
  intro fuel
  induction fuel with
  | zero => intro r digits data rest s _ _ _ _ _ hfuel; omega
  | succ fuel ih =>
      intro r digits data rest s herr hne hx hall hdata hfuel
      have hlens : data.length + s.unread.length = digits.length + (rest.length + 2) := by
        simpa using congrArg List.length hall
      rw [sizeLine]
      generalize hk : ready s.unread.length s.cuts (bufferSize - data.length) = k
      by_cases hzero : k = 0
      · rw [if_pos hzero]
        refine parseLoop_dry ?_
        rw [Stream.read, Stream.ready, hk, if_pos hzero]
      rw [if_neg hzero]
      have hread : s.read (bufferSize - data.length) =
          some (s.unread.take k, ⟨s.unread.drop k, s.cuts.tail⟩) := by
        rw [Stream.read, Stream.ready, hk, if_neg hzero]
      have hkle : k ≤ bufferSize - data.length := hk ▸ ready_le ..
      have hkleft : k ≤ s.unread.length := hk ▸ ready_le_left ..
      -- what is in the buffer after the read, and what is not
      have htake : data ++ s.unread.take k = (digits ++ 13 :: 10 :: rest).take (data.length + k) := by
        rw [← hall, List.take_length_add_append]
      have hdrop : s.unread.drop k = (digits ++ 13 :: 10 :: rest).drop (data.length + k) := by
        rw [← hall, List.drop_length_add_append]
      by_cases hwhole : digits.length + 2 ≤ data.length + k
      · rw [if_pos hwhole]
        obtain ⟨l, hl⟩ : ∃ l, data.length + k = digits.length + (l + 2) :=
          ⟨data.length + k - (digits.length + 2), by omega⟩
        have hbytes : data ++ s.unread.take k = digits ++ 13 :: 10 :: rest.take l := by
          rw [htake, hl, List.take_length_add_append]
          rfl
        have hleft : s.unread.drop k = rest.drop l := by
          rw [hdrop, hl, List.drop_length_add_append]
          rfl
        obtain ⟨r', hloop, hsize⟩ := parseLoop_whole lexicalCast fuel herr hne hx hread hbytes
          (by rw [List.length_append, List.length_take]; omega) (by rw [List.length_take]; omega)
        rw [show data.length + k - (digits.length + 2) = l by omega]
        exact ⟨⟨0, rfl⟩, by omega, r', by rw [hloop, hleft], hsize⟩
      rw [if_neg hwhole]
      by_cases hpart : data.length + k ≤ digits.length
      · rw [if_pos hpart]
        obtain ⟨m, hm⟩ : ∃ m, data.length + k = m + 1 := ⟨data.length + k - 1, by omega⟩
        have hbytes : data ++ s.unread.take k = digits.take (m + 1) ++ [] := by
          rw [htake, hm, List.take_append_of_le_length (by omega), List.append_nil]
        have hxt : (digits.take (m + 1)).all isXdigit = true := by
          rw [List.all_eq_true] at hx ⊢
          exact fun c hc => hx c (List.mem_of_mem_take hc)
        obtain ⟨r', herr', hloop⟩ := parseLoop_part (m := m) lexicalCast fuel herr
          (by simpa using hne) hxt (Or.inl rfl) hread hbytes (by rw [List.append_nil, List.length_take]; omega) (by omega)
        have hback : (digits.take (m + 1) ++ []).drop m = (digits.drop m).take 1 := by
          rw [List.append_nil, List.drop_take, Nat.add_sub_cancel_left]
        rw [hloop, hback, show data.length + k - 1 = m by omega]
        by_cases hfull : 1 = bufferSize
        · rw [sizeLine_of_full (by omega), if_pos hfull]
        rw [if_neg hfull]
        have hne' : digits.drop m ≠ [] := by
          rw [ne_eq, List.drop_eq_nil_iff]
          omega
        have hx' : (digits.drop m).all isXdigit = true := by
          rw [List.all_eq_true] at hx ⊢
          exact fun c hc => hx c (List.mem_of_mem_drop hc)
        have hall' : (digits.drop m).take 1 ++ (⟨s.unread.drop k, s.cuts.tail⟩ : Stream).unread =
            digits.drop m ++ 13 :: 10 :: rest := by
          show (digits.drop m).take 1 ++ s.unread.drop k = _
          rw [hdrop, hm, List.drop_append_of_le_length (by omega), ← List.append_assoc,
            ← List.drop_drop, List.take_append_drop]
        have hone : ((digits.drop m).take 1).length = 1 := by
          rw [List.length_take, List.length_drop]
          omega
        have hih := ih herr' hne' hx' hall' (by omega) (by simp only [List.length_drop]; omega)
        simp only [hone, List.length_drop] at hih
        revert hih
        cases sizeLine bufferSize fuel (digits.drop m) 1 (s.unread.length - k) s.cuts.tail with
        | none => exact id
        | some e =>
            rintro ⟨⟨j, hj⟩, hl, hrun⟩
            exact ⟨⟨m + j, by rw [hj, List.drop_drop]⟩, hl, hrun⟩
      · rw [if_neg hpart]
        have hcr : data.length + k = digits.length + 1 := by omega
        have hbytes : data ++ s.unread.take k = digits ++ [13] := by
          rw [htake, hcr, List.take_length_add_append]
          rfl
        obtain ⟨r', -, hloop⟩ := parseLoop_part lexicalCast fuel herr hne hx (Or.inr rfl) hread
          hbytes List.length_append (by omega)
        show (parseLoop _ _ _ _ _ _ _).outcome = _
        rw [hloop, List.drop_left]
        split
        · rfl
        obtain ⟨fuel, rfl⟩ : ∃ f, fuel = f + 1 := ⟨fuel - 1, by omega⟩
        refine parseLoop_bad hbuf (List.singleton_append ..) (by decide) (by decide) ?_
        simp only [List.length_singleton]
        omega

end Reads

end Http

end Saturn
