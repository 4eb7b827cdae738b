import Saturn.Http.ClientParser
import Saturn.Http.Session

/-!
# Memory safety of `recvResponse`

Behind the header of a chunk `recvResponse` takes two bytes off the length of the buffer without a
test, and `content_len` is whatever `strtol` made of the digits. Both become lengths of memory
operations.
-/

namespace Saturn

namespace Http

variable {σ : Type} {parser : ResponseParser σ} {bufferSize : Nat}

open Logged

/-- From a buffer that holds `data` before the header of a chunk, a stream and a `body` so far,
`recvResponse` comes behind the header of that chunk or of a later one. -/
inductive AtChunk (parser : ResponseParser σ) (bufferSize : Nat) :
    σ → Bytes → Stream → Bytes → σ → Bytes → Stream → Bytes → Prop
  | here {p data s body p' data' s'} :
      (chunkHeader parser bufferSize p data s).outcome = .returned (p', data', s') →
      AtChunk parser bufferSize p data s body p' data' s' body
  | later {p data s body p₁ data₁ s₁ data₂ s₂ body₂ p' data' s' body'} :
      (chunkHeader parser bufferSize p data s).outcome = .returned (p₁, data₁, s₁) →
      (chunkData bufferSize (parser.contentLen p₁) data₁ s₁ body).outcome =
        .returned (data₂, s₂, body₂) →
      parser.chunksDone p₁ = false →
      AtChunk parser bufferSize p₁ data₂ s₂ body₂ p' data' s' body' →
      AtChunk parser bufferSize p data s body p' data' s' body'

/-- There are two bytes to take off, the chunk has a length, and what comes of it goes into a
`std::string`. -/
def ChunkFits (contentLen : Int) (data : Bytes) (s : Stream) (body : Bytes) : Prop :=
  2 ≤ data.length ∧ 0 ≤ contentLen ∧
    body.length + min contentLen.toNat (data.length - 2 + s.unread.length) ≤ stringMaxSize

section Headers

variable {chunk : Bool}

/-- A loop over headers keeps to the buffer; that over chunk headers always ends. -/
theorem parseLoop_safe (hbuf : bufferSize ≤ maxTransfer) :
    ∀ {fuel : Nat} {p : σ} {data : Bytes} {s : Stream},
    s.unread.length < fuel → data.length ≤ bufferSize →
    (chunk = true ∨ ∃ r, (parseLoop parser bufferSize chunk fuel p data s).outcome = .returned r) →
    (parseLoop parser bufferSize chunk fuel p data s).Safe (Access.Inside bufferSize) := by
  intro fuel
  induction fuel with
  | zero => intro p data s hfuel; omega
  | succ fuel ih =>
      intro p data s hfuel hdata hret
      rw [parseLoop] at hret ⊢
      rw [safe_tell_iff]
      refine ⟨⟨by simp only; omega, by simp only; omega, by simp only; omega⟩, ?_⟩
      cases hread : s.read (bufferSize - data.length) with
      | none => exact safe_giveUp
      | some r =>
          obtain ⟨bytes, t⟩ := r
          obtain ⟨-, -, hpos, hle⟩ := Stream.read_conserves hread
          have hless := Stream.read_unread_length hread
          have hlen : (data ++ bytes).length = data.length + bytes.length := List.length_append
          have hne : data ++ bytes ≠ [] := by
            rw [← List.length_pos_iff]
            omega
          simp only [hread, outcome_tell] at hret
          rw [safe_tell_iff]
          refine ⟨⟨by simp only; omega, by simp only; omega, by simp only; omega⟩, ?_⟩
          cases hexec : parser.execute p (data ++ bytes) chunk with
          | error e =>
              rcases hret with rfl | ⟨r, hr⟩
              · obtain ⟨r, hr⟩ := parser.execute_returns p _ hne (by omega)
                rw [hexec] at hr
                cases hr
              · rw [hexec] at hr
                cases hr
          | ok r =>
              obtain ⟨p', nparse⟩ := r
              have hrest : ((data ++ bytes).drop nparse.toNat).length ≤ bufferSize := by
                rw [List.length_drop]
                omega
              simp only [hexec, ofExcept_ok, ret_bind] at hret ⊢
              split_ifs with herr hmove hfull hfin
              · exact safe_giveUp
              · rcases hret with rfl | ⟨r, hr⟩
                · have := parser.execute_count hne (by omega) hexec (Bool.eq_false_iff.mpr herr)
                  omega
                · rw [if_neg herr, if_pos hmove] at hr
                  cases hr
              · exact safe_giveUp
              · exact safe_ret _
              · rw [if_neg herr, if_neg hmove, if_neg hfull, if_neg hfin] at hret
                exact ih (by omega) hrest hret

theorem parseLoop_bounds : ∀ {fuel : Nat} {p p' : σ} {data data' : Bytes} {s s' : Stream},
    data.length ≤ bufferSize →
    (parseLoop parser bufferSize chunk fuel p data s).outcome = .returned (p', data', s') →
    data'.length ≤ bufferSize ∧ s'.unread.length < s.unread.length := by
  intro fuel
  induction fuel with
  | zero => intro p p' data data' s s' _ h; cases h
  | succ fuel ih =>
      intro p p' data data' s s' hdata h
      rw [parseLoop, outcome_tell] at h
      cases hread : s.read (bufferSize - data.length) with
      | none =>
          rw [hread] at h
          cases h
      | some r =>
          obtain ⟨bytes, t⟩ := r
          obtain ⟨-, -, -, hle⟩ := Stream.read_conserves hread
          have hless := Stream.read_unread_length hread
          rw [hread] at h
          simp only [outcome_tell] at h
          obtain ⟨⟨p₁, nparse⟩, -, h⟩ := outcome_bind_eq_returned.mp h
          have hrest : ((data ++ bytes).drop nparse.toNat).length ≤ bufferSize := by
            rw [List.length_drop, List.length_append]
            omega
          simp only at h
          split_ifs at h
          · cases h
          · cases h
          · cases h
          · obtain ⟨rfl, rfl, rfl⟩ : _ ∧ _ ∧ _ := by simpa using h
            exact ⟨hrest, hless⟩
          · obtain ⟨hd, hs⟩ := ih hrest h
            exact ⟨hd, by omega⟩

end Headers

section Data

variable {body data : Bytes} {s : Stream}

theorem append_safe_iff {n : Int} (hn : n ≤ bufferSize + 1) :
    (append body data n).Safe (Access.Inside bufferSize) ↔
      0 ≤ n ∧ body.length + n.toNat ≤ stringMaxSize := by
  rw [append, safe_tell_iff]
  split
  · rename_i hbad
    refine iff_of_false (fun h => not_safe_throwing _ h.2) ?_
    omega
  · rename_i hgood
    refine iff_of_true ⟨⟨le_refl _, ?_, ?_⟩, safe_ret _⟩ ?_
    · simp only; omega
    · simp only; omega
    · omega

theorem append_returned {n : Int} {body' : Bytes}
    (h : (append body data n).outcome = .returned body') :
    0 ≤ n ∧ body.length + n.toNat ≤ stringMaxSize ∧ body' = body ++ data.take n.toNat := by
  rw [append, outcome_tell] at h
  split at h
  · cases h
  · rename_i hgood
    obtain rfl : body ++ data.take n.toNat = body' := by simpa using h
    exact ⟨by omega, by omega, rfl⟩

/-- The loop that reads the rest of a chunk fails only where the body becomes too long. -/
theorem readLeft_safe_iff (hbuf : 0 < bufferSize) : ∀ {fuel : Nat} {s : Stream} {body : Bytes}
    {left : Int}, s.unread.length < fuel → body.length ≤ stringMaxSize →
    ((readLeft bufferSize fuel s body left).Safe (Access.Inside bufferSize) ↔
      body.length + min left.toNat s.unread.length ≤ stringMaxSize) := by
  intro fuel
  induction fuel with
  | zero => intro s body left hfuel; omega
  | succ fuel ih =>
      intro s body left hfuel hbody
      rw [readLeft]
      by_cases hleft : 0 < left
      · rw [if_pos hleft]
        simp only [safe_tell_iff]
        generalize hn : (if (bufferSize : Int) < left then (bufferSize : Int) else left) = n
        have hnpos : 0 < n ∧ n ≤ bufferSize ∧ n ≤ left := by
          split at hn <;> omega
        have hinside : Access.Inside bufferSize ⟨0, n⟩ :=
          ⟨le_refl _, by simp only; omega, by simp only; omega⟩
        cases hread : s.read n.toNat with
        | none =>
            -- nothing is left to be read
            have hnil : s.unread.length = 0 := by
              by_contra hne
              have hready : 0 < s.ready n.toNat := ready_pos _ (by omega) (by omega)
              rw [Stream.read_of_pos hready] at hread
              cases hread
            refine iff_of_true ⟨hinside, safe_giveUp⟩ ?_
            rw [hnil]
            omega
        | some r =>
            obtain ⟨bytes, t⟩ := r
            obtain ⟨heq, -, hpos, hle⟩ := Stream.read_conserves hread
            have hlen : s.unread.length = bytes.length + t.unread.length := by
              rw [heq, List.length_append]
            simp only [safe_bind_iff]
            rw [append_safe_iff (by omega)]
            constructor
            · rintro ⟨-, ⟨-, hfits⟩, hrest⟩
              have happ : (append body bytes bytes.length).outcome = .returned (body ++ bytes) := by
                rw [append, outcome_tell, if_neg (by omega), Int.toNat_natCast, List.take_length]
                rfl
              have := (ih (by omega) (by rw [List.length_append]; omega)).mp (hrest _ happ)
              rw [List.length_append] at this
              omega
            · intro hfits
              refine ⟨hinside, ⟨by omega, by omega⟩, fun body' happ => ?_⟩
              obtain ⟨-, -, rfl⟩ := append_returned happ
              rw [Int.toNat_natCast, List.take_length]
              refine (ih (by omega) (by rw [List.length_append]; omega)).mpr ?_
              rw [List.length_append]
              omega
      · rw [if_neg hleft]
        refine iff_of_true (safe_ret _) ?_
        omega

theorem readLeft_bounds : ∀ {fuel : Nat} {s s' : Stream} {body body' : Bytes} {left : Int},
    (readLeft bufferSize fuel s body left).outcome = .returned (body', s') →
    s'.unread.length ≤ s.unread.length := by
  intro fuel
  induction fuel with
  | zero => intro s s' body body' left h; cases h
  | succ fuel ih =>
      intro s s' body body' left h
      rw [readLeft] at h
      split at h
      · simp only [outcome_tell] at h
        split at h
        · cases h
        · rename_i bytes t hread
          have hless := Stream.read_unread_length hread
          obtain ⟨body₁, -, h⟩ := outcome_bind_eq_returned.mp h
          have := ih h
          omega
      · obtain ⟨-, rfl⟩ : _ ∧ _ := by simpa using h
        exact le_refl _

/-- The step behind a chunk header. -/
theorem chunkData_safe_iff (hdata : data.length ≤ bufferSize) (hbody : body.length ≤ stringMaxSize)
    (contentLen : Int) :
    (chunkData bufferSize contentLen data s body).Safe (Access.Inside bufferSize) ↔
      ChunkFits contentLen data s body := by
  unfold chunkData ChunkFits
  simp only
  by_cases hle : contentLen ≤ (data.length : Int) - 2
  · rw [if_pos hle, safe_bind_iff, append_safe_iff (by omega)]
    constructor
    · rintro ⟨⟨hpos, hfits⟩, -⟩
      refine ⟨by omega, hpos, ?_⟩
      omega
    · rintro ⟨htwo, hpos, hfits⟩
      refine ⟨⟨hpos, by omega⟩, fun body' _ => ?_⟩
      rw [safe_tell_iff, safe_tell_iff]
      refine ⟨⟨hpos, ?_, ?_⟩, ⟨le_refl _, ?_, ?_⟩, safe_ret _⟩ <;> simp only <;> omega
  · rw [if_neg hle, safe_bind_iff, append_safe_iff (by omega)]
    have hret : 0 ≤ (data.length : Int) - 2 → body.length + (data.length - 2) ≤ stringMaxSize →
        (append body data ((data.length : Int) - 2)).outcome =
          .returned (body ++ data.take (data.length - 2)) := by
      intro h₁ h₂
      have htoNat : ((data.length : Int) - 2).toNat = data.length - 2 := by omega
      rw [append, outcome_tell, htoNat, if_neg (by omega)]
      rfl
    have hlen : (body ++ data.take (data.length - 2)).length = body.length + (data.length - 2) := by
      rw [List.length_append, List.length_take]
      omega
    constructor
    · rintro ⟨⟨hpos, hfits⟩, hrest⟩
      have hleft := (safe_bind_iff.mp (hrest _ (hret hpos (by omega)))).1
      rw [readLeft_safe_iff (by omega) (by omega) (by omega), hlen] at hleft
      refine ⟨by omega, by omega, by omega⟩
    · rintro ⟨htwo, hpos, hfits⟩
      refine ⟨⟨by omega, by omega⟩, fun body' happ => ?_⟩
      obtain ⟨-, -, rfl⟩ := append_returned happ
      have htoNat : ((data.length : Int) - 2).toNat = data.length - 2 := by omega
      rw [htoNat, safe_bind_iff, readLeft_safe_iff (by omega) (by omega) (by omega), hlen]
      exact ⟨by omega, fun r _ => safe_ret _⟩

theorem readLeft_body_le : ∀ {fuel : Nat} {s s' : Stream} {body body' : Bytes} {left : Int},
    body.length ≤ stringMaxSize →
    (readLeft bufferSize fuel s body left).outcome = .returned (body', s') →
    body'.length ≤ stringMaxSize := by
  intro fuel
  induction fuel with
  | zero => intro s s' body body' left _ h; cases h
  | succ fuel ih =>
      intro s s' body body' left hbody h
      rw [readLeft] at h
      split at h
      · simp only [outcome_tell] at h
        split at h
        · cases h
        · rename_i bytes t hread
          obtain ⟨body₁, happ, h⟩ := outcome_bind_eq_returned.mp h
          obtain ⟨-, hfits, rfl⟩ := append_returned happ
          refine ih ?_ h
          rw [List.length_append, List.length_take]
          omega
      · obtain ⟨rfl, -⟩ : _ ∧ _ := by simpa using h
        exact hbody

theorem chunkData_bounds (hdata : data.length ≤ bufferSize)
    {contentLen : Int} {data' body' : Bytes} {s' : Stream}
    (h : (chunkData bufferSize contentLen data s body).outcome = .returned (data', s', body')) :
    data'.length ≤ bufferSize ∧ s'.unread.length ≤ s.unread.length ∧
      body'.length ≤ stringMaxSize := by
  unfold chunkData at h
  simp only at h
  split at h
  · obtain ⟨body₁, happ, h⟩ := outcome_bind_eq_returned.mp h
    obtain ⟨-, hfits, rfl⟩ := append_returned happ
    simp only [outcome_tell] at h
    obtain ⟨rfl, rfl, rfl⟩ : _ ∧ _ ∧ _ := by simpa using h
    refine ⟨?_, le_refl _, ?_⟩
    · rw [List.length_take, List.length_drop]
      omega
    · rw [List.length_append, List.length_take]
      omega
  · obtain ⟨body₁, happ, h⟩ := outcome_bind_eq_returned.mp h
    obtain ⟨-, hfits, rfl⟩ := append_returned happ
    obtain ⟨⟨body₂, t⟩, hleft, h⟩ := outcome_bind_eq_returned.mp h
    obtain ⟨rfl, rfl, rfl⟩ : _ ∧ _ ∧ _ := by simpa using h
    refine ⟨Nat.zero_le _, readLeft_bounds hleft, readLeft_body_le ?_ hleft⟩
    rw [List.length_append, List.length_take]
    omega

end Data

section Chunks

theorem chunkLoop_safe_iff (hbuf : bufferSize ≤ maxTransfer) : ∀ {fuel : Nat} {p : σ} {data : Bytes} {s : Stream} {body : Bytes},
    s.unread.length < fuel → data.length ≤ bufferSize → body.length ≤ stringMaxSize →
    ((chunkLoop parser bufferSize fuel p data s body).Safe (Access.Inside bufferSize) ↔
      ∀ p' data' s' body', AtChunk parser bufferSize p data s body p' data' s' body' →
        ChunkFits (parser.contentLen p') data' s' body') := by
  intro fuel
  induction fuel with
  | zero => intro p data s body hfuel; omega
  | succ fuel ih =>
      intro p data s body hfuel hlen hbody
      rw [chunkLoop, safe_bind_iff]
      constructor
      · rintro ⟨-, hrest⟩ p' data' s' body' hat
        cases hat with
        | here h₁ =>
            have hlen₁ := (parseLoop_bounds hlen h₁).1
            exact (chunkData_safe_iff hlen₁ hbody _).mp (safe_bind_iff.mp (hrest _ h₁)).1
        | later h₁ h₂ hmore hat =>
            obtain ⟨hlen₁, hless₁⟩ := parseLoop_bounds hlen h₁
            obtain ⟨hlen₂, hless₂, hbody₂⟩ := chunkData_bounds hlen₁ h₂
            have hloop := (safe_bind_iff.mp (hrest _ h₁)).2 _ h₂
            simp only [hmore, Bool.false_eq_true, if_false] at hloop
            exact (ih (by omega) hlen₂ hbody₂).mp hloop _ _ _ _ hat
      · intro hall
        refine ⟨parseLoop_safe hbuf (by omega) hlen (Or.inl rfl), ?_⟩
        rintro ⟨p₁, data₁, s₁⟩ h₁
        obtain ⟨hlen₁, hless₁⟩ := parseLoop_bounds hlen h₁
        rw [safe_bind_iff]
        refine ⟨(chunkData_safe_iff hlen₁ hbody _).mpr (hall _ _ _ _ (.here h₁)), ?_⟩
        rintro ⟨data₂, s₂, body₂⟩ h₂
        obtain ⟨hlen₂, hless₂, hbody₂⟩ := chunkData_bounds hlen₁ h₂
        simp only
        split
        · exact safe_ret _
        · rename_i hmore
          exact (ih (by omega) hlen₂ hbody₂).mpr fun p' data' s' body' hat =>
            hall _ _ _ _ (.later h₁ h₂ (by simpa using hmore) hat)

end Chunks

/-- Behind a chunked response header, `recvResponse` keeps to its buffer and returns or closes just
where every chunk header that it completes leaves two bytes behind it in the buffer and a length
that is not negative. -/
theorem recvResponse_safe_iff (env : Env) (parser : ResponseParser σ) (s : Stream)
    {p : σ} {data : Bytes} {t : Stream}
    (hheader : (responseHeader parser env.bufferSize s).outcome = .returned (p, data, t))
    (hchunked : parser.chunked p = true) :
    (recvResponse parser env.bufferSize s).Safe (Access.Inside env.bufferSize) ↔
      ∀ p' data' s' body, AtChunk parser env.bufferSize p data t [] p' data' s' body →
        ChunkFits (parser.contentLen p') data' s' body := by
  have hlen : data.length ≤ env.bufferSize := (parseLoop_bounds (Nat.zero_le _) hheader).1
  have hloop : (chunkLoop parser env.bufferSize (t.unread.length + 1) p data t []).Safe
      (Access.Inside env.bufferSize) ↔ ∀ p' data' s' body,
      AtChunk parser env.bufferSize p data t [] p' data' s' body →
        ChunkFits (parser.contentLen p') data' s' body :=
    chunkLoop_safe_iff env.bufferSize_le (Nat.lt_succ_self _) hlen (Nat.zero_le _)
  rw [recvResponse, safe_bind_iff]
  constructor
  · rintro ⟨-, hrest⟩
    have hbehind := hrest _ hheader
    simp only [recvBehindHeader, hchunked, if_true] at hbehind
    exact hloop.mp (safe_bind_iff.mp hbehind).1
  · intro hfits
    refine ⟨parseLoop_safe env.bufferSize_le (Nat.lt_succ_self _) (Nat.zero_le _)
      (Or.inr ⟨_, hheader⟩), fun r hr => ?_⟩
    obtain rfl := CallEnd.returned.inj (hheader.symm.trans hr)
    simp only [recvBehindHeader, hchunked, if_true, safe_bind_iff]
    exact ⟨hloop.mpr hfits, fun r _ => safe_ret _⟩

/-- `ok` holds of what the call returns, if it does. -/
def endsAll {α : Type} (ok : α → Bool) : CallEnd Fault α → Bool
  | .returned a => ok a
  | _ => true

theorem of_endsAll {α : Type} {ok : α → Bool} {a : α} {x : CallEnd Fault α}
    (h : endsAll ok x = true) (hx : x = .returned a) : ok a = true := by
  rw [hx] at h
  exact h

instance (contentLen : Int) (data : Bytes) (s : Stream) (body : Bytes) :
    Decidable (ChunkFits contentLen data s body) := inferInstanceAs (Decidable (_ ∧ _))

/-- The first chunks fit, and the last of them is the one that ends the body. -/
def chunksFit (parser : ResponseParser σ) (bufferSize : Nat) : Nat → σ → Bytes → Stream → Bytes → Bool
  | 0, _, _, _, _ => false
  | fuel + 1, p, data, s, body =>
    (chunkHeader parser bufferSize p data s).outcome |> endsAll fun (p, data, s) =>
      decide (ChunkFits (parser.contentLen p) data s body) &&
        ((chunkData bufferSize (parser.contentLen p) data s body).outcome |> endsAll fun (data, s, body) =>
          parser.chunksDone p || chunksFit parser bufferSize fuel p data s body)

/-- The condition is checked by reading the chunks. -/
theorem chunkFits_of_chunksFit {parser : ResponseParser σ} {bufferSize fuel : Nat} {p p' : σ}
    {data data' : Bytes} {s s' : Stream} {body body' : Bytes}
    (hat : AtChunk parser bufferSize p data s body p' data' s' body')
    (hfits : chunksFit parser bufferSize fuel p data s body = true) :
    ChunkFits (parser.contentLen p') data' s' body' := by
  induction hat generalizing fuel with
  | here hheader =>
      cases fuel with
      | zero => cases hfits
      | succ fuel =>
          have hchunk := of_endsAll hfits hheader
          exact of_decide_eq_true (Bool.and_eq_true_iff.mp hchunk).1
  | later hheader hdata hmore _ ih =>
      cases fuel with
      | zero => cases hfits
      | succ fuel =>
          have hchunk := of_endsAll hfits hheader
          have hnext := of_endsAll (Bool.and_eq_true_iff.mp hchunk).2 hdata
          simp only [hmore, Bool.false_or] at hnext
          exact ih hnext

section Closing

/-- The client with a buffer of 4096 bytes. -/
def clientEnv : Env := .plain 4096 plainSize_le

/-- The parser behind `okHeader`. -/
def okParser : HttpResponseParser where
  parser := {
    cs := 120, bodyStart := 47, contentLen := -1, chunked := true, chunksDone := false,
    close := false, nread := 48, mark := 36, fieldStart := 17, fieldLen := 17 }
  data := { HttpResponse.new with
    reason := ascii "OK"
    headers := [(ascii "Transfer-Encoding", ascii "chunked")] }
  error := 0

/-- `okHeader` in one read, and then the bytes of each piece. -/
def chunkPieces (pieces : List Bytes) : Stream := .ofPieces (okHeader :: pieces)

/-- A chunk in one read and the end of the body in another. -/
theorem recvResponse_safe_iff_hello :
    (recvResponse (responseParser .plain) clientEnv.bufferSize
        (chunkPieces [ascii "5\r\nhello\r\n", ascii "0\r\n\r\n"])).Safe
      (Access.Inside clientEnv.bufferSize) := by
  have hfits : chunksFit (responseParser .plain) clientEnv.bufferSize 2 okParser []
      (.ofPieces [ascii "5\r\nhello\r\n", ascii "0\r\n\r\n"]) [] = true := by
    decide
  exact (recvResponse_safe_iff clientEnv (responseParser .plain) _ (by decide) rfl).mpr
    fun _ _ _ _ hat => chunkFits_of_chunksFit hat hfits

theorem not_safe_of_threw {α : Type} {P : Access → Prop} {x : ClientCall α} {e : Fault}
    (h : x.outcome = .threw e) : ¬ x.Safe P := by
  rintro ⟨-, ⟨a, ha⟩ | hnull⟩
  · rw [h] at ha
    cases ha
  · rw [h] at hnull
    cases hnull

/-- The last CRLF comes in a read of its own, and the length of the buffer drops below zero; or the
size is beyond `INT_MAX`, and `content_len` is negative. -/
theorem closing_chunk_not_safe :
    (responseHeader (responseParser .plain) clientEnv.bufferSize
        (chunkPieces [ascii "0\r\n", ascii "\r\n"])).outcome =
      .returned (okParser, [], .ofPieces [ascii "0\r\n", ascii "\r\n"]) ∧
    okParser.parser.chunked = true ∧
    ¬ (recvResponse (responseParser .plain) clientEnv.bufferSize
        (chunkPieces [ascii "0\r\n", ascii "\r\n"])).Safe
      (Access.Inside clientEnv.bufferSize) ∧
    ¬ (recvResponse (responseParser .plain) clientEnv.bufferSize
        (chunkPieces [ascii "80000000\r\nhello\r\n"])).Safe
      (Access.Inside clientEnv.bufferSize) :=
  ⟨by decide, rfl, not_safe_of_threw (e := .lengthError) (by decide),
    not_safe_of_threw (e := .lengthError) (by decide)⟩

end Closing

end Http

end Saturn
