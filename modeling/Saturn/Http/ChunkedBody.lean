import Saturn.Http.ChunkLine
import Saturn.Http.ChunkSafety

/-!
# Chunked bodies

A chunked body comes out right when the read that brings the end of a chunk's size also brings the
chunk and its CRLF, and nothing behind it: the two bytes that `recvResponse` takes off the buffer are
then the CRLF. Every other way to cut the stream spoils the body.
-/

namespace Saturn

namespace Http

open Logged

/-- The size of a chunk in hexadecimal, of at least one byte and less than 2^31. -/
structure ChunkSize where
  digits : Bytes
  digits_ne : digits ≠ []
  digits_hex : digits.all isXdigit = true
  pos : 0 < digitsValue 16 digits
  lt : digitsValue 16 digits < 2 ^ 31

/-- The size that the digits say. -/
def ChunkSize.value (c : ChunkSize) : Nat := digitsValue 16 c.digits

/-- `hex-size CRLF data CRLF` for every chunk, and `0 CRLF CRLF`. -/
def encode : List ChunkSize → List Bytes → Bytes
  | c :: cs, d :: ds => c.digits ++ 13 :: 10 :: (d ++ 13 :: 10 :: encode cs ds)
  | _, _ => [48, 13, 10, 13, 10]

/-- The length of the encoded body, with the chunk that ends it. -/
def encodedLength : List ChunkSize → Nat
  | [] => 5
  | c :: cs => c.digits.length + 2 + (c.value + 2) + encodedLength cs

/-- The reads are as the loop over the chunks needs them, when the buffer holds the first `n` bytes
and the rest is unread: each size, as the parser has it at last, is that of the chunk, and behind its
CRLF the buffer then holds the chunk with its CRLF and no more. -/
def ChunksArrive (bufferSize : Nat) : List ChunkSize → Nat → List Nat → Prop
  | [], n, cuts =>
    match sizeLine bufferSize (5 - n + 1) [48] n (5 - n) cuts with
    | some (_, l, _) => l = 2
    | none => False
  | c :: cs, n, cuts =>
    let left := encodedLength (c :: cs) - n
    match sizeLine bufferSize (left + 1) c.digits n left cuts with
    | some (digits, l, cuts) =>
        digitsValue 16 digits = c.value ∧ l = c.value + 2 ∧ ChunksArrive bufferSize cs 0 cuts
    | none => False

instance instDecidableChunksArrive (bufferSize : Nat) : (sizes : List ChunkSize) → (n : Nat) → (cuts : List Nat) →
    Decidable (ChunksArrive bufferSize sizes n cuts)
  | [], n, cuts =>
    match h : sizeLine bufferSize (5 - n + 1) [48] n (5 - n) cuts with
    | some (_, l, _) => decidable_of_iff (l = 2) (by rw [ChunksArrive, h])
    | none => isFalse (by rw [ChunksArrive, h]; exact id)
  | c :: cs, n, cuts =>
    match h : sizeLine bufferSize (encodedLength (c :: cs) - n + 1) c.digits n
        (encodedLength (c :: cs) - n) cuts with
    | some (digits, l, cuts') =>
      have := instDecidableChunksArrive bufferSize cs 0 cuts'
      decidable_of_iff (digitsValue 16 digits = c.value ∧ l = c.value + 2 ∧
        ChunksArrive bufferSize cs 0 cuts') (by rw [ChunksArrive, h])
    | none => isFalse (by rw [ChunksArrive, h]; exact id)

theorem encode_length : ∀ {sizes : List ChunkSize} {datas : List Bytes},
    datas.map List.length = sizes.map ChunkSize.value →
    (encode sizes datas).length = encodedLength sizes := by
  intro sizes
  induction sizes with
  | nil => intro datas _; rfl
  | cons c cs ih =>
      intro datas h
      cases datas with
      | nil => cases h
      | cons d ds =>
          obtain ⟨hd, hds⟩ := List.cons.inj h
          simp only [encode, encodedLength, List.length_append, List.length_cons, ih hds, hd]
          omega

theorem foldl_digits_mono (digits : Bytes) : ∀ {m n : Nat}, m ≤ n →
    digits.foldl (fun n c => 16 * n + digitValue c) m ≤
      digits.foldl (fun n c => 16 * n + digitValue c) n := by
  induction digits with
  | nil => exact fun {m n} h => h
  | cons c cs ih =>
      intro m n h
      exact ih (Nat.add_le_add_right (Nat.mul_le_mul_left 16 h) _)

/-- A part of the digits denotes no greater number. -/
theorem digitsValue_drop_le (digits : Bytes) (j : Nat) :
    digitsValue 16 (digits.drop j) ≤ digitsValue 16 digits := by
  calc digitsValue 16 (digits.drop j)
      ≤ (digits.drop j).foldl (fun n c => 16 * n + digitValue c) (digitsValue 16 (digits.take j)) :=
        foldl_digits_mono _ (Nat.zero_le _)
    _ = digitsValue 16 (digits.take j ++ digits.drop j) := by
        rw [digitsValue, digitsValue, List.foldl_append]
    _ = digitsValue 16 digits := by rw [List.take_append_drop]

theorem longToInt_of_lt {n : Nat} (h : n < 2 ^ 31) :
    longToInt (min (n : Int) (2 ^ 63 - 1)) = n := by
  rw [min_eq_left (by omega), longToInt, Int.bmod_eq_of_le] <;> omega

/-- The length that the parser reports for the digits of a size. -/
theorem SizeRead.contentLen_eq {r : HttpResponseParser} {digits : Bytes} (h : SizeRead r digits)
    (hlt : digitsValue 16 digits < 2 ^ 31) : r.parser.contentLen = digitsValue 16 digits := by
  rw [h.contentLen, longToInt_of_lt hlt]

section Data

variable {bufferSize : Nat} {data data' body body' rest : Bytes} {s s' : Stream}

theorem readLeft_body : ∀ {fuel : Nat} {s s' : Stream} {body body' : Bytes} {left : Int},
    (readLeft bufferSize fuel s body left).outcome = .returned (body', s') →
    body' = body ++ s.unread.take left.toNat ∧ s'.unread = s.unread.drop left.toNat ∧
      left.toNat ≤ s.unread.length := by
  intro fuel
  induction fuel with
  | zero => intro s s' body body' left h; cases h
  | succ fuel ih =>
      intro s s' body body' left h
      rw [readLeft] at h
      by_cases hleft : 0 < left
      · rw [if_pos hleft] at h
        simp only [outcome_tell] at h
        split at h
        · cases h
        · rename_i bytes t hread
          obtain ⟨hsplit, -, -, hle⟩ := Stream.read_conserves hread
          obtain ⟨body₁, happ, h⟩ := outcome_bind_eq_returned.mp h
          obtain ⟨-, -, rfl⟩ := append_returned happ
          rw [Int.toNat_natCast, List.take_length] at h
          obtain ⟨rfl, hs, hlen⟩ := ih h
          have hn : left.toNat = bytes.length + (left - bytes.length).toNat := by
            split at hle <;> omega
          rw [hn, hsplit]
          refine ⟨?_, ?_, ?_⟩
          · rw [List.take_length_add_append, List.append_assoc]
          · rw [List.drop_length_add_append, hs]
          · rw [List.length_append]
            omega
      · rw [if_neg hleft] at h
        obtain ⟨rfl, rfl⟩ : _ ∧ _ := by simpa using h
        rw [Int.toNat_of_nonpos (by omega)]
        simp

/-- What comes of a chunk of `n` bytes by its header, when the buffer holds the first `l` bytes of
`rest` and the others are unread. Two bytes get lost, and those behind the first `n + 2` in the
buffer as well. -/
theorem chunkData_cases {n l : Nat} (hl : l ≤ rest.length) (hs : s.unread = rest.drop l)
    (h : (chunkData bufferSize n (rest.take l) s body).outcome = .returned (data', s', body')) :
    (n + 2 ≤ l ∧ body' = body ++ rest.take n ∧
      data' ++ s'.unread = (rest.drop n).take (l - 2 - n) ++ rest.drop l) ∨
    (2 ≤ l ∧ l < n + 2 ∧ n + 2 ≤ rest.length ∧ data' = [] ∧ s'.unread = rest.drop (n + 2) ∧
      body' = body ++ rest.take (l - 2) ++ (rest.drop l).take (n + 2 - l)) := by
  have htake : (rest.take l).length = l := by
    rw [List.length_take]
    omega
  unfold chunkData at h
  simp only [htake] at h
  split at h
  · rename_i hle
    obtain ⟨body₁, happ, h⟩ := outcome_bind_eq_returned.mp h
    obtain ⟨-, -, rfl⟩ := append_returned happ
    simp only [outcome_tell] at h
    obtain ⟨rfl, rfl, rfl⟩ : _ ∧ _ ∧ _ := by simpa using h
    refine .inl ⟨by omega, ?_, ?_⟩
    · rw [List.take_take, min_eq_left (by omega)]
    · rw [hs, List.drop_take, List.take_take, min_eq_left (by omega)]
      congr 2
      omega
  · rename_i hgt
    obtain ⟨body₁, happ, h⟩ := outcome_bind_eq_returned.mp h
    obtain ⟨hpos, -, rfl⟩ := append_returned happ
    obtain ⟨⟨body₂, t⟩, hleft, h⟩ := outcome_bind_eq_returned.mp h
    obtain ⟨rfl, rfl, rfl⟩ : _ ∧ _ ∧ _ := by simpa using h
    obtain ⟨rfl, ht, hlen⟩ := readLeft_body hleft
    have hn : ((n : Int) - ((l : Int) - 2)).toNat = n + 2 - l := by omega
    have hl2 : ((l : Int) - 2).toNat = l - 2 := by omega
    rw [hn, hs, List.length_drop] at hlen
    refine .inr ⟨by omega, by omega, by omega, rfl, ?_, ?_⟩
    · rw [ht, hs, hn, List.drop_drop]
      congr 1
      omega
    · rw [hn, hl2, hs, List.take_take, min_eq_left (by omega)]

/-- The buffer holds the chunk with its CRLF and no more. -/
theorem chunkData_exact (bufferSize : Nat) (s : Stream) {n : Nat} (hl : n + 2 ≤ rest.length)
    (hbody : body.length + n ≤ stringMaxSize) :
    (chunkData bufferSize n (rest.take (n + 2)) s body).outcome =
      .returned ([], s, body ++ rest.take n) := by
  have htake : (rest.take (n + 2)).length = n + 2 := by
    rw [List.length_take]
    omega
  have happ : (append body (rest.take (n + 2)) n).outcome = .returned (body ++ rest.take n) := by
    rw [append, outcome_tell, Int.toNat_natCast, if_neg (by omega), List.take_take,
      min_eq_left (by omega)]
    rfl
  unfold chunkData
  simp only [htake]
  rw [if_pos (by omega), outcome_bind_returned happ]
  simp

theorem chunkData_extends {contentLen : Int}
    (h : (chunkData bufferSize contentLen data s body).outcome = .returned (data', s', body')) :
    body <+: body' := by
  unfold chunkData at h
  simp only at h
  split at h
  · obtain ⟨body₁, happ, h⟩ := outcome_bind_eq_returned.mp h
    obtain ⟨-, -, rfl⟩ := append_returned happ
    simp only [outcome_tell] at h
    obtain ⟨-, -, rfl⟩ : _ ∧ _ ∧ _ := by simpa using h
    exact List.prefix_append ..
  · obtain ⟨body₁, happ, h⟩ := outcome_bind_eq_returned.mp h
    obtain ⟨-, -, rfl⟩ := append_returned happ
    obtain ⟨⟨body₂, t⟩, hleft, h⟩ := outcome_bind_eq_returned.mp h
    obtain ⟨-, -, rfl⟩ : _ ∧ _ ∧ _ := by simpa using h
    obtain ⟨rfl, -, -⟩ := readLeft_body hleft
    rw [List.append_assoc]
    exact List.prefix_append ..

end Data

section Loop

variable {σ : Type} {parser : ResponseParser σ} {lexicalCast : LexicalCast} {bufferSize : Nat}

/-- The body only grows. -/
theorem chunkLoop_extends : ∀ {fuel : Nat} {p p' : σ} {data body body' : Bytes} {s s' : Stream},
    (chunkLoop parser bufferSize fuel p data s body).outcome = .returned (p', s', body') →
    body <+: body' := by
  intro fuel
  induction fuel with
  | zero => intro p p' data body body' s s' h; cases h
  | succ fuel ih =>
      intro p p' data body body' s s' h
      rw [chunkLoop] at h
      obtain ⟨⟨p₁, data₁, s₁⟩, -, h⟩ := outcome_bind_eq_returned.mp h
      obtain ⟨⟨data₂, s₂, body₂⟩, hdata, h⟩ := outcome_bind_eq_returned.mp h
      simp only at h
      split at h
      · obtain ⟨-, -, rfl⟩ : _ ∧ _ ∧ _ := by simpa using h
        exact chunkData_extends hdata
      · exact (chunkData_extends hdata).trans (ih h)

theorem chunkLoop_body_le : ∀ {fuel : Nat} {p p' : σ} {data body body' : Bytes} {s s' : Stream},
    data.length ≤ bufferSize →
    (chunkLoop parser bufferSize fuel p data s body).outcome = .returned (p', s', body') →
    body'.length ≤ stringMaxSize := by
  intro fuel
  induction fuel with
  | zero => intro p p' data body body' s s' _ h; cases h
  | succ fuel ih =>
      intro p p' data body body' s s' hlen h
      rw [chunkLoop] at h
      obtain ⟨⟨p₁, data₁, s₁⟩, hheader, h⟩ := outcome_bind_eq_returned.mp h
      obtain ⟨⟨data₂, s₂, body₂⟩, hdata, h⟩ := outcome_bind_eq_returned.mp h
      obtain ⟨hlen₂, -, hbody₂⟩ := chunkData_bounds (parseLoop_bounds hlen hheader).1 hdata
      simp only at h
      split at h
      · obtain ⟨-, -, rfl⟩ : _ ∧ _ ∧ _ := by simpa using h
        exact hbody₂
      · exact ih hlen₂ h

/-- The loop over the chunks behind the header of one of them, whose size is `digits`. -/
theorem chunkLoop_header {fuel l : Nat} {r r' : HttpResponseParser}
    {digits data rest body : Bytes} {s : Stream} {cuts : List Nat}
    (hlt : digitsValue 16 digits < 2 ^ 31)
    (hheader : (chunkHeader (responseParser lexicalCast) bufferSize r data s).outcome =
      .returned (r', rest.take l, ⟨rest.drop l, cuts⟩)) (hread : SizeRead r' digits) :
    (chunkLoop (responseParser lexicalCast) bufferSize (fuel + 1) r data s body).outcome =
      ((chunkData bufferSize (digitsValue 16 digits) (rest.take l) ⟨rest.drop l, cuts⟩ body).bind
        fun (data, s, body) =>
          if digitsValue 16 digits = 0 then ret (r', s, body)
          else chunkLoop (responseParser lexicalCast) bufferSize fuel r' data s body).outcome := by
  have hlen : (responseParser lexicalCast).contentLen r' = digitsValue 16 digits :=
    hread.contentLen_eq hlt
  have hdone : (responseParser lexicalCast).chunksDone r' =
      decide (digitsValue 16 digits = 0) := by
    refine hread.chunksDone.trans (decide_eq_decide.mpr ?_)
    rw [hread.contentLen_eq hlt]
    omega
  rw [chunkLoop, outcome_bind_returned hheader]
  simp only [hlen, hdone, decide_eq_true_eq]

/-- The header of a chunk, in a buffer and a stream that hold its size and `rest`. -/
theorem chunkHeader_sizeLine (lexicalCast : LexicalCast) (hbuf : bufferSize ≤ maxTransfer)
    {r : HttpResponseParser}
    {digits data rest : Bytes} {s : Stream} (herr : r.error = 0) (hne : digits ≠ [])
    (hx : digits.all isXdigit = true) (hall : data ++ s.unread = digits ++ 13 :: 10 :: rest)
    (hdata : data.length ≤ bufferSize) :
    match sizeLine bufferSize (s.unread.length + 1) digits data.length s.unread.length s.cuts with
    | none => (chunkHeader (responseParser lexicalCast) bufferSize r data s).outcome = .gaveUp
    | some (digits', l, cuts) =>
        (∃ j, digits' = digits.drop j) ∧ l ≤ rest.length ∧ ∃ r',
          (chunkHeader (responseParser lexicalCast) bufferSize r data s).outcome =
            .returned (r', rest.take l, ⟨rest.drop l, cuts⟩) ∧ SizeRead r' digits' :=
  parseLoop_sizeLine hbuf herr hne hx hall hdata (Nat.lt_succ_self _)

theorem encode_cons (c : ChunkSize) (cs : List ChunkSize) (d : Bytes) (ds : List Bytes) :
    encode (c :: cs) (d :: ds) = c.digits ++ 13 :: 10 :: (d ++ 13 :: 10 :: encode cs ds) := rfl

/-- The chunks come out right when the reads are as they should be. -/
theorem chunkLoop_of_arrives (lexicalCast : LexicalCast) (hbuf : bufferSize ≤ maxTransfer) :
    ∀ {sizes : List ChunkSize} {datas : List Bytes} {fuel : Nat} {r : HttpResponseParser}
      {data body : Bytes} {s : Stream},
    datas.map List.length = sizes.map ChunkSize.value → r.error = 0 →
    data ++ s.unread = encode sizes datas → data.length ≤ bufferSize → s.unread.length < fuel →
    body.length + (sizes.map ChunkSize.value).sum ≤ stringMaxSize →
    ChunksArrive bufferSize sizes data.length s.cuts →
    ∃ r' s', (chunkLoop (responseParser lexicalCast) bufferSize fuel r data s body).outcome =
      .returned (r', s', body ++ datas.flatten) := by
  intro sizes
  induction sizes with
  | nil =>
      intro datas fuel r data body s hlens herr hall hdata hfuel hbody harrive
      obtain ⟨fuel, rfl⟩ : ∃ f, fuel = f + 1 := ⟨fuel - 1, by omega⟩
      obtain rfl : datas = [] := by simpa using hlens
      have hunread : 5 - data.length = s.unread.length := by
        have : data.length + s.unread.length = 5 := by
          rw [← List.length_append, hall]
          rfl
        omega
      have hall : data ++ s.unread = [48] ++ 13 :: 10 :: [13, 10] := hall
      have hheader := chunkHeader_sizeLine lexicalCast hbuf herr (List.cons_ne_nil 48 [])
        (by decide) hall hdata
      rw [ChunksArrive, hunread] at harrive
      split at harrive
      next digits' l cuts hline =>
        rw [hline] at hheader
        obtain ⟨⟨j, rfl⟩, -, r', hret, hread⟩ := hheader
        have hzero : digitsValue 16 ([48].drop j) = 0 :=
          Nat.le_zero.mp (digitsValue_drop_le [48] j)
        subst harrive
        have hchunk : (chunkData bufferSize (0 : Nat) ([13, 10].take 2) ⟨[13, 10].drop 2, cuts⟩
            body).outcome = _ :=
          chunkData_exact bufferSize _ (n := 0) (by decide) (by simpa using hbody)
        refine ⟨r', ⟨[13, 10].drop 2, cuts⟩, ?_⟩
        rw [chunkLoop_header (by omega) hret hread, hzero, outcome_bind_returned hchunk]
        simp
      next => exact harrive.elim
  | cons c cs ih =>
      intro datas fuel r data body s hlens herr hall hdata hfuel hbody harrive
      obtain ⟨fuel, rfl⟩ : ∃ f, fuel = f + 1 := ⟨fuel - 1, by omega⟩
      obtain ⟨d, ds, rfl⟩ : ∃ d ds, datas = d :: ds := by
        cases datas with
        | nil => cases hlens
        | cons d ds => exact ⟨d, ds, rfl⟩
      have hunread : encodedLength (c :: cs) - data.length = s.unread.length := by
        have : data.length + s.unread.length = encodedLength (c :: cs) := by
          rw [← List.length_append, hall, encode_length hlens]
        omega
      obtain ⟨hd, hds⟩ := List.cons.inj hlens
      rw [List.map_cons, List.sum_cons] at hbody
      rw [encode_cons] at hall
      have hheader := chunkHeader_sizeLine lexicalCast hbuf herr c.digits_ne c.digits_hex hall hdata
      rw [ChunksArrive, hunread] at harrive
      split at harrive
      next digits' l cuts hline =>
        rw [hline] at hheader
        obtain ⟨-, hl, r', hret, hread⟩ := hheader
        obtain ⟨hvalue, rfl, harrive⟩ := harrive
        have hless := (parseLoop_bounds hdata hret).2
        have htake : (d ++ 13 :: 10 :: encode cs ds).take c.value = d := List.take_left' hd
        have hnext : [] ++ (⟨(d ++ 13 :: 10 :: encode cs ds).drop (c.value + 2), cuts⟩ :
            Stream).unread = encode cs ds := by
          show (d ++ 13 :: 10 :: encode cs ds).drop (c.value + 2) = _
          rw [← hd, List.drop_length_add_append]
          rfl
        have hchunk := chunkData_exact bufferSize
          ⟨(d ++ 13 :: 10 :: encode cs ds).drop (c.value + 2), cuts⟩ hl
          (show body.length + c.value ≤ stringMaxSize by omega)
        have hbody' : (body ++ d).length + (cs.map ChunkSize.value).sum ≤ stringMaxSize := by
          rw [List.length_append]
          omega
        have hpos := c.pos
        rw [chunkLoop_header (by rw [hvalue]; exact c.lt) hret hread, hvalue,
          outcome_bind_returned hchunk]
        simp only [if_neg (show c.value ≠ 0 from Nat.ne_of_gt hpos), htake]
        obtain ⟨r'', s'', hrest⟩ := ih hds hread.error hnext (Nat.zero_le _)
          (Nat.lt_of_lt_of_le hless (Nat.le_of_lt_succ hfuel)) hbody' harrive
        exact ⟨r'', s'', by rw [hrest, List.flatten_cons, List.append_assoc]⟩
      next => exact harrive.elim

/-- Chunks whose bytes are all zero. -/
def zeros (sizes : List ChunkSize) : List Bytes := sizes.map fun c => List.replicate c.value 0

/-- No header of a chunk starts inside a chunk of zeros or its CRLF. -/
theorem zeros_getElem? (v : Nat) (tail : Bytes) {i : Nat} (hi : i < v + 2) :
    ∃ b, (List.replicate v 0 ++ 13 :: 10 :: tail)[i]? = some b ∧ isXdigit b = false ∧ b ≠ 72 := by
  by_cases hlt : i < v
  · refine ⟨0, ?_, by decide, by decide⟩
    rw [List.getElem?_append_left (by rwa [List.length_replicate]), List.getElem?_replicate,
      if_pos hlt]
  · have hright : (List.replicate v (0 : UInt8) ++ 13 :: 10 :: tail)[i]? =
        (13 :: 10 :: tail)[i - v]? := by
      rw [List.getElem?_append_right (by rw [List.length_replicate]; omega), List.length_replicate]
    rcases (show i = v ∨ i = v + 1 by omega) with rfl | rfl
    · exact ⟨13, by rw [hright, Nat.sub_self]; rfl, by decide, by decide⟩
    · exact ⟨10, by rw [hright, Nat.add_sub_cancel_left]; rfl, by decide, by decide⟩

/-- Where the loop goes on inside a chunk of zeros or its CRLF, the next header is refused. -/
theorem chunkHeader_inside (hbuf : bufferSize ≤ maxTransfer) {r : HttpResponseParser} {v i : Nat}
    {data tail : Bytes} {s : Stream} (hdata : data.length ≤ bufferSize)
    (hall : (data ++ s.unread)[0]? = (List.replicate v 0 ++ 13 :: 10 :: tail)[i]?)
    (hi : i < v + 2) :
    (chunkHeader (responseParser lexicalCast) bufferSize r data s).outcome = .gaveUp := by
  obtain ⟨b, hb, hx, hH⟩ := zeros_getElem? v tail hi
  rw [hb] at hall
  cases hlist : data ++ s.unread with
  | nil =>
      rw [hlist] at hall
      cases hall
  | cons c rest =>
      rw [hlist] at hall
      obtain rfl : c = b := by simpa using hall
      exact parseLoop_bad hbuf hlist hx hH hdata

theorem chunkLoop_gaveUp {fuel : Nat} {r r' : HttpResponseParser} {data body body' : Bytes}
    {s s' : Stream}
    (hheader : (chunkHeader (responseParser lexicalCast) bufferSize r data s).outcome = .gaveUp) :
    (chunkLoop (responseParser lexicalCast) bufferSize fuel r data s body).outcome ≠
      .returned (r', s', body') := by
  cases fuel with
  | zero => rintro ⟨⟩
  | succ fuel =>
      rw [chunkLoop, outcome_bind_gaveUp hheader]
      rintro ⟨⟩

/-- A chunk of `v` zeros whose size was taken for `n`, with `l` bytes of it and of what follows in the
buffer: the body comes out right only if `n` and `l` are as they should be. -/
theorem exact_of_chunkData (hbuf : bufferSize ≤ maxTransfer) {v n l fuel : Nat}
    {r₁ r' : HttpResponseParser} {tail body more : Bytes} {cuts : List Nat} {s' : Stream} (hv : 0 < v)
    (hn : n ≤ v) (hl : l ≤ (List.replicate v (0 : UInt8) ++ 13 :: 10 :: tail).length)
    (hlbuf : l ≤ bufferSize) (hmore : ∀ b ∈ more, b = 0)
    (hret : ((chunkData bufferSize n ((List.replicate v 0 ++ 13 :: 10 :: tail).take l)
        ⟨(List.replicate v 0 ++ 13 :: 10 :: tail).drop l, cuts⟩ body).bind fun (data, s, body) =>
          if n = 0 then ret (r₁, s, body)
          else chunkLoop (responseParser lexicalCast) bufferSize fuel r₁ data s body).outcome =
      .returned (r', s', body ++ (List.replicate v 0 ++ more))) :
    n = v ∧ l = v + 2 ∧
      (chunkLoop (responseParser lexicalCast) bufferSize fuel r₁ [] ⟨tail, cuts⟩
        (body ++ List.replicate v 0)).outcome =
      .returned (r', s', body ++ (List.replicate v 0 ++ more)) := by
  generalize hrest : List.replicate v (0 : UInt8) ++ 13 :: 10 :: tail = rest at hl hret
  obtain ⟨⟨data₂, s₂, body₂⟩, hdata₂, hret⟩ := outcome_bind_eq_returned.mp hret
  have htake : (rest.take l).length = l := by
    rw [List.length_take]
    omega
  obtain ⟨hlen₂, -, hbody₂⟩ := chunkData_bounds (by omega) hdata₂
  simp only at hret
  have hinside : ∀ {i : Nat}, n ≠ 0 → i < v + 2 → (data₂ ++ s₂.unread)[0]? = rest[i]? → False := by
    intro i hn hi hhead
    rw [if_neg hn] at hret
    rw [← hrest] at hhead
    exact chunkLoop_gaveUp (chunkHeader_inside hbuf hlen₂ hhead hi) hret
  rcases chunkData_cases hl rfl hdata₂ with ⟨hle, rfl, hleft⟩ | ⟨htwo, hlt, hlong, rfl, hs₂, rfl⟩
  · by_cases hzero : n = 0
    · -- the chunk is taken for the last one
      rw [if_pos hzero] at hret
      obtain ⟨-, -, hbody⟩ : _ ∧ _ ∧ _ := by simpa using hret
      rw [hzero, List.take_zero] at hbody
      simp only [List.nil_eq, List.append_eq_nil_iff, List.replicate_eq_nil_iff] at hbody
      omega
    by_cases hbehind : n + 2 < l
    · -- bytes behind the chunk are in the buffer
      refine (hinside (i := n) hzero (by omega) ?_).elim
      rw [hleft, List.getElem?_append_left, List.getElem?_take, if_pos (by omega),
        List.getElem?_drop, Nat.add_zero]
      rw [List.length_take, List.length_drop]
      omega
    obtain rfl : l = n + 2 := by omega
    by_cases hless : n < v
    · refine (hinside (i := n + 2) hzero (by omega) ?_).elim
      rw [hleft, show n + 2 - 2 - n = 0 by omega, List.take_zero, List.nil_append,
        List.getElem?_drop, Nat.add_zero]
    obtain rfl : n = v := by omega
    have htaken : rest.take n = List.replicate n 0 := by
      rw [← hrest]
      exact List.take_left' List.length_replicate
    have hdropped : rest.drop (n + 2) = tail := by
      rw [← hrest]
      conv_lhs => rw [show n + 2 = (List.replicate n (0 : UInt8)).length + 2 by simp]
      rw [List.drop_length_add_append]
      rfl
    have hfits : body.length + n ≤ stringMaxSize := by
      rw [htaken, List.length_append, List.length_replicate] at hbody₂
      exact hbody₂
    rw [chunkData_exact bufferSize _ hl hfits] at hdata₂
    obtain ⟨rfl, rfl⟩ : _ ∧ _ := by simpa using hdata₂
    rw [if_neg hzero, htaken, hdropped] at hret
    exact ⟨rfl, rfl, hret⟩
  · have hzero : n ≠ 0 := by omega
    by_cases hless : n < v
    · refine (hinside (i := n + 2) hzero (by omega) ?_).elim
      rw [List.nil_append, hs₂, List.getElem?_drop, Nat.add_zero]
    · -- the bytes of the CRLF are in the body
      obtain rfl : n = v := by omega
      rw [if_neg hzero] at hret
      have hextends := chunkLoop_extends hret
      rw [List.append_assoc, List.prefix_append_right_inj] at hextends
      have hlf : rest[n + 1]? = some 10 := by
        rw [← hrest, List.getElem?_append_right (by simp)]
        simp
      have hmem : (10 : UInt8) ∈ (rest.drop l).take (n + 2 - l) := by
        refine List.mem_of_getElem? (i := n + 1 - l) ?_
        rw [List.getElem?_take, if_pos (by omega), List.getElem?_drop,
          show l + (n + 1 - l) = n + 1 by omega, hlf]
      rcases List.mem_append.mp (hextends.subset (List.mem_append_right _ hmem)) with h | h
      · exact absurd (List.eq_of_mem_replicate h) (by decide)
      · exact absurd (hmore _ h) (by decide)

/-- When chunks of zeros come out right, the reads were as they should be. -/
theorem arrives_of_chunkLoop (hbuf : bufferSize ≤ maxTransfer) :
    ∀ {sizes : List ChunkSize} {fuel : Nat} {r r' : HttpResponseParser} {data body : Bytes}
      {s s' : Stream},
    r.error = 0 → data ++ s.unread = encode sizes (zeros sizes) → data.length ≤ bufferSize →
    (chunkLoop (responseParser lexicalCast) bufferSize fuel r data s body).outcome =
      .returned (r', s', body ++ (zeros sizes).flatten) →
    ChunksArrive bufferSize sizes data.length s.cuts := by
  intro sizes
  induction sizes with
  | nil =>
      intro fuel r r' data body s s' herr hall hdata hret
      have hunread : 5 - data.length = s.unread.length := by
        have : data.length + s.unread.length = 5 := by
          rw [← List.length_append, hall]
          rfl
        omega
      have hall : data ++ s.unread = [48] ++ 13 :: 10 :: [13, 10] := hall
      have hheader := chunkHeader_sizeLine lexicalCast hbuf herr (List.cons_ne_nil 48 [])
        (by decide) hall hdata
      rw [ChunksArrive, hunread]
      split
      next digits' l cuts hline =>
        rw [hline] at hheader
        obtain ⟨⟨j, rfl⟩, hl, r₁, hheader, hread⟩ := hheader
        have hzero : digitsValue 16 ([48].drop j) = 0 :=
          Nat.le_zero.mp (digitsValue_drop_le [48] j)
        cases fuel with
        | zero => cases hret
        | succ fuel =>
            rw [chunkLoop_header (by omega) hheader hread] at hret
            obtain ⟨⟨data₂, s₂, body₂⟩, hdata₂, -⟩ := outcome_bind_eq_returned.mp hret
            have hl : l ≤ 2 := hl
            rcases chunkData_cases hl rfl hdata₂ with ⟨hle, -, -⟩ | ⟨hle, -⟩
            · omega
            · omega
      next hline =>
        rw [hline] at hheader
        exact chunkLoop_gaveUp hheader hret
  | cons c cs ih =>
      intro fuel r r' data body s s' herr hall hdata hret
      have hlens : (zeros (c :: cs)).map List.length = (c :: cs).map ChunkSize.value := by
        rw [zeros, List.map_map]
        exact List.map_congr_left fun c _ => List.length_replicate
      have hunread : encodedLength (c :: cs) - data.length = s.unread.length := by
        have : data.length + s.unread.length = encodedLength (c :: cs) := by
          rw [← List.length_append, hall, encode_length hlens]
        omega
      have hall : data ++ s.unread = c.digits ++ 13 :: 10 ::
          (List.replicate c.value 0 ++ 13 :: 10 :: encode cs (zeros cs)) := hall
      have hheader := chunkHeader_sizeLine lexicalCast hbuf herr c.digits_ne c.digits_hex hall hdata
      rw [ChunksArrive, hunread]
      split
      next digits' l cuts hline =>
        rw [hline] at hheader
        obtain ⟨⟨j, rfl⟩, hl, r₁, hheader, hread⟩ := hheader
        have hvalue : digitsValue 16 (c.digits.drop j) ≤ c.value := digitsValue_drop_le _ j
        have hlbuf := (parseLoop_bounds hdata hheader).1
        rw [List.length_take, min_eq_left hl] at hlbuf
        have hmore : ∀ b ∈ (zeros cs).flatten, b = 0 := by
          intro b hb
          obtain ⟨d, hd, hb⟩ := List.mem_flatten.mp hb
          obtain ⟨c', -, rfl⟩ := List.mem_map.mp hd
          exact List.eq_of_mem_replicate hb
        cases fuel with
        | zero => cases hret
        | succ fuel =>
            rw [chunkLoop_header (Nat.lt_of_le_of_lt hvalue c.lt) hheader hread] at hret
            obtain ⟨hn, rfl, hloop⟩ := exact_of_chunkData hbuf c.pos hvalue hl hlbuf hmore hret
            have hnext : [] ++ (⟨encode cs (zeros cs), cuts⟩ : Stream).unread =
                encode cs (zeros cs) := rfl
            rw [← List.append_assoc] at hloop
            exact ⟨hn, rfl, ih hread.error hnext (Nat.zero_le _) hloop⟩
      next hline =>
        rw [hline] at hheader
        exact chunkLoop_gaveUp hheader hret

end Loop

/-- The first read brings the response header, and `recvResponse` goes on behind it. -/
theorem responseHeader_returned (lexicalCast : LexicalCast) {bufferSize : Nat}
    (hbuf : bufferSize ≤ maxTransfer) {header rest : Bytes} (hheader : chunkedHeader header = true)
    {cuts : List Nat} {k : Nat}
    (hk : ready (header.length + rest.length) cuts bufferSize = header.length + k) :
    ∃ r, (responseHeader (responseParser lexicalCast) bufferSize ⟨header ++ rest, cuts⟩).outcome =
        .returned (r, rest.take k, ⟨rest.drop k, cuts.tail⟩) ∧
      k ≤ rest.length ∧ k ≤ bufferSize ∧ r.error = 0 ∧ r.parser.chunked = true := by
  have hlen : header.length + k ≤ bufferSize := hk ▸ ready_le ..
  have hleft : header.length + k ≤ header.length + rest.length := hk ▸ ready_le_left ..
  have hne : header ≠ [] := by
    rintro rfl
    revert hheader
    decide
  have hpos : 0 < header.length := List.length_pos_iff.mpr hne
  have hread : (⟨header ++ rest, cuts⟩ : Stream).read (bufferSize - ([] : Bytes).length) =
      some (header ++ rest.take k, ⟨rest.drop k, cuts.tail⟩) := Stream.read_past hne hk
  have htake : (header ++ rest.take k).length = header.length + k := by
    rw [List.length_append, List.length_take]
    omega
  obtain ⟨r, hexec, herr, hno, hfin, hchunked⟩ := execute_header hheader (rest.take k) (by omega)
  refine ⟨r, ?_, by omega, by omega, herr, hchunked⟩
  have hloop : (responseHeader (responseParser lexicalCast) bufferSize
      ⟨header ++ rest, cuts⟩).outcome = _ :=
    parseLoop_read hread hexec fun _ => ⟨Int.natCast_nonneg _, by simp⟩
  rw [List.nil_append, Int.toNat_natCast, List.drop_left, hno, hfin, if_neg (by decide),
    if_neg (by rw [List.length_take]; omega), if_pos rfl] at hloop
  exact hloop

/-- For a response header that arrives in the first read, chunk sizes and cuts: whatever the bytes of
the chunks are, `recvResponse` returns them, just where the body fits into a `std::string` and the
reads are as the loop over the chunks needs them. -/
theorem recvResponse_chunked_iff (env : Env) (header : Bytes) (hheader : chunkedHeader header = true)
    (sizes : List ChunkSize) (cuts : List Nat)
    (hfirst : header.length ≤ ready (header.length + encodedLength sizes) cuts env.bufferSize) :
    (∀ datas : List Bytes, datas.map List.length = sizes.map ChunkSize.value →
      ∃ response s, (recvResponse (responseParser env.lexicalCast) env.bufferSize
          ⟨header ++ encode sizes datas, cuts⟩).outcome = .returned (response, s) ∧
        response.body = datas.flatten) ↔
    (sizes.map ChunkSize.value).sum ≤ stringMaxSize ∧
      ChunksArrive env.bufferSize sizes
        (ready (header.length + encodedLength sizes) cuts env.bufferSize - header.length)
        cuts.tail := by
  obtain ⟨k, hk⟩ := Nat.exists_eq_add_of_le hfirst
  rw [hk, Nat.add_sub_cancel_left]
  have hstart : ∀ datas : List Bytes, datas.map List.length = sizes.map ChunkSize.value →
      ∃ r, (responseHeader (responseParser env.lexicalCast) env.bufferSize
          ⟨header ++ encode sizes datas, cuts⟩).outcome =
          .returned (r, (encode sizes datas).take k, ⟨(encode sizes datas).drop k, cuts.tail⟩) ∧
        ((encode sizes datas).take k).length = k ∧ k ≤ env.bufferSize ∧ r.error = 0 ∧
        r.parser.chunked = true := by
    intro datas hlens
    have hk' := hk
    rw [← encode_length hlens] at hk'
    obtain ⟨r, hret, hle, hbuf, herr, hchunked⟩ :=
      responseHeader_returned env.lexicalCast env.bufferSize_le hheader hk'
    exact ⟨r, hret, by rw [List.length_take]; omega, hbuf, herr, hchunked⟩
  constructor
  · intro hall
    have hlens : (zeros sizes).map List.length = sizes.map ChunkSize.value := by
      rw [zeros, List.map_map]
      exact List.map_congr_left fun c _ => List.length_replicate
    obtain ⟨r, hret, hlen, hbuf, herr, hchunked⟩ := hstart _ hlens
    obtain ⟨response, s, hrun, hbody⟩ := hall _ hlens
    rw [recvResponse, outcome_bind_returned hret] at hrun
    have hchunked' : (responseParser env.lexicalCast).chunked r = true := hchunked
    simp only [recvBehindHeader, hchunked', if_true] at hrun
    obtain ⟨⟨r', s', body⟩, hloop, hrun⟩ := outcome_bind_eq_returned.mp hrun
    obtain ⟨rfl, rfl⟩ := Prod.mk.inj (CallEnd.returned.inj hrun)
    have hbody : body = (zeros sizes).flatten := hbody
    subst hbody
    refine ⟨?_, ?_⟩
    · have hle := chunkLoop_body_le (by omega) hloop
      rwa [List.length_flatten, hlens] at hle
    · have hsplit : (encode sizes (zeros sizes)).take k ++
          (⟨(encode sizes (zeros sizes)).drop k, cuts.tail⟩ : Stream).unread =
          encode sizes (zeros sizes) := List.take_append_drop ..
      have harrive := arrives_of_chunkLoop env.bufferSize_le herr hsplit (by omega) hloop
      rwa [hlen] at harrive
  · rintro ⟨hsum, harrive⟩ datas hlens
    obtain ⟨r, hret, hlen, hbuf, herr, hchunked⟩ := hstart datas hlens
    have hchunked' : (responseParser env.lexicalCast).chunked r = true := hchunked
    rw [← hlen] at harrive
    have hsplit : (encode sizes datas).take k ++
        (⟨(encode sizes datas).drop k, cuts.tail⟩ : Stream).unread = encode sizes datas :=
      List.take_append_drop ..
    have hbody : ([] : Bytes).length + (sizes.map ChunkSize.value).sum ≤ stringMaxSize := by
      simpa using hsum
    obtain ⟨r', s', hloop⟩ := chunkLoop_of_arrives env.lexicalCast env.bufferSize_le hlens herr
      hsplit (by omega) (Nat.lt_succ_self _) hbody harrive
    refine ⟨{ r'.data with body := datas.flatten }, s', ?_, rfl⟩
    rw [recvResponse, outcome_bind_returned hret]
    simp only [recvBehindHeader, hchunked', if_true]
    rw [outcome_bind_returned hloop]
    rfl

section Hello

/-- A chunk of five bytes and one of ten. -/
def helloSizes : List ChunkSize :=
  [⟨ascii "5", by decide, by decide, by decide, by decide⟩,
    ⟨ascii "0a", by decide, by decide, by decide, by decide⟩]

/-- Two chunks. The reads end behind each, and once behind the leading zero of a size. -/
theorem recvResponse_chunked_hello :
    ∃ response s, (recvResponse (responseParser .plain) clientEnv.bufferSize
        ⟨okHeader ++ encode helloSizes [ascii "hello", ascii "0123456789"],
          [47, 10, 1, 15, 5]⟩).outcome =
        .returned (response, s) ∧ response.body = [ascii "hello", ascii "0123456789"].flatten :=
  (recvResponse_chunked_iff clientEnv okHeader (by decide) helloSizes [47, 10, 1, 15, 5]
    (by decide)).mpr ⟨by decide, by decide⟩ [ascii "hello", ascii "0123456789"] (by decide)

/-- All chunks in one read: the CRLF of the first is taken for the header of the second. -/
theorem chunks_in_one_read_refused :
    chunkedHeader okHeader = true ∧
    okHeader.length ≤ ready (okHeader.length + encodedLength helloSizes) [47] clientEnv.bufferSize ∧
    ¬ ∃ response s, (recvResponse (responseParser .plain) clientEnv.bufferSize
        ⟨okHeader ++ encode helloSizes [ascii "hello", ascii "0123456789"], [47]⟩).outcome =
        .returned (response, s) ∧ response.body = ascii "hello0123456789" := by
  refine ⟨by decide, by decide, ?_⟩
  rintro ⟨response, s, hret, -⟩
  have hgaveUp : (recvResponse (responseParser .plain) clientEnv.bufferSize
      ⟨okHeader ++ encode helloSizes [ascii "hello", ascii "0123456789"], [47]⟩).outcome =
      .gaveUp := by decide
  rw [hgaveUp] at hret
  cases hret

end Hello

end Http

end Saturn
