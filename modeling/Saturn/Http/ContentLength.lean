import Saturn.Http.HeaderLoop

/-!
# The `content-length` header

`getAs` turns a value that `boost::lexical_cast` rejects into 0, the length is compared as
`int64_t`, and `http.request.max_body_size` is never looked at.
-/

namespace Saturn

namespace Http

/-- `length` in `recvRequest`, for a header with value `v`. -/
def bodyLength (lexicalCast : LexicalCast) (v : Bytes) : Int :=
  toInt64 ((lexicalCast.cast v).getD 0).toNat

/-- A decimal number within the limit. -/
def Acceptable (maxBodySize : UInt64) (v : Bytes) : Prop :=
  ∃ n, decimal v = some n ∧ n ≤ maxBodySize.toNat

/-- What becomes of a request whose header says `v`: it is returned with a body of just that size,
and not unless the value is acceptable; otherwise the connection is closed. No body above the limit
is allocated. -/
structure Honoured (maxBodySize : UInt64) (v : Bytes) (out : Except Fault Reply) : Prop where
  returns : ∀ reply req s, out = .ok reply → reply.request = some (req, s) →
    ∃ n, decimal v = some n ∧ n ≤ maxBodySize.toNat ∧ req.body.length = n
  refuses : ¬ Acceptable maxBodySize v → ∃ reply, out = .ok reply ∧ reply.request = none
  allocates : ∀ reply, out = .ok reply → reply.allocated ≤ maxBodySize.toNat

/-- When the code honours the header: the value is acceptable and does not turn negative; or the
size that `recvRequest` takes it for is within the limit and the body does not arrive. -/
def HonouredWhen (lexicalCast : LexicalCast) (maxBodySize : UInt64) (v : Bytes)
    (buffered unread : Nat) : Prop :=
  (∃ n, decimal v = some n ∧ n ≤ maxBodySize.toNat ∧ n < 2 ^ 63) ∨
  (¬ Acceptable maxBodySize v ∧ ∃ n : Nat, bodyLength lexicalCast v = n ∧ n ≤ maxBodySize.toNat ∧
    n ≤ stringMaxSize ∧ buffered < n ∧ (buffered + unread < n ∨ toInt32 (n - buffered) ≤ 0))

@[simp] theorem init_body (r : HttpRequest) : r.init.body = r.body := by
  unfold HttpRequest.init
  split <;> rfl

section Body

variable {env : Env} {r : Received}

theorem recvBody_of_nonpos
    (h : toInt64 (r.parser.getContentLength env.lexicalCast).toNat ≤ 0) :
    recvBody env r = .ok ⟨some (r.parser.data.init, r.stream), 0⟩ := by
  rw [recvBody, if_neg (by omega)]

variable {n : Nat} (hn : toInt64 (r.parser.getContentLength env.lexicalCast).toNat = n)
  (hpos : 0 < n)

include hn hpos

theorem recvBody_of_gt (hmax : stringMaxSize < n) : recvBody env r = .error .lengthError := by
  rw [recvBody, if_pos (by omega), if_pos (by omega)]

variable (hmax : n ≤ stringMaxSize)

include hmax

/-- The buffer holds the whole body. -/
theorem recvBody_of_le (hle : n ≤ r.data.length) : recvBody env r =
    .ok ⟨some (({ r.parser.data with body := r.data.take n }).init, r.stream), n⟩ := by
  have hcopied : (if (r.data.length : Int) ≤ n then r.data else r.data.take n) = r.data.take n := by
    split
    · rw [List.take_of_length_le (by omega)]
    · rfl
  rw [recvBody, hn, if_pos (by omega), if_neg (by omega), if_neg (by omega)]
  simp only [Int.toNat_natCast, hcopied]

/-- A part of the body is still to be read, and comes. -/
theorem recvBody_of_arrives (hlt : r.data.length < n)
    (hrest : n - r.data.length ≤ r.stream.unread.length) : ∃ cuts,
    recvBody env r = .ok ⟨if toInt32 (n - r.data.length) ≤ 0 then none
      else some (({ r.parser.data with
          body := r.data ++ r.stream.unread.take (n - r.data.length) }).init,
        ⟨r.stream.unread.drop (n - r.data.length), cuts⟩), n⟩ := by
  obtain ⟨cuts, hread⟩ := Stream.readFixSize_of_le hrest
  have hleft : ((n : Int) - r.data.length).toNat = n - r.data.length := by omega
  have hcopied : (if (r.data.length : Int) ≤ n then r.data else r.data.take n) = r.data :=
    if_pos (by omega)
  refine ⟨cuts, ?_⟩
  rw [recvBody, hn, if_pos (by omega), if_neg (by omega), if_pos (by omega), hleft, hread]
  simp only [Int.toNat_natCast, hcopied]
  split <;> rfl

/-- A part of the body is still to be read, and does not come. -/
theorem recvBody_of_missing (hrest : r.stream.unread.length < n - r.data.length) :
    recvBody env r = .ok ⟨none, n⟩ := by
  have hleft : ((n : Int) - r.data.length).toNat = n - r.data.length := by omega
  rw [recvBody, hn, if_pos (by omega), if_neg (by omega), if_pos (by omega), hleft,
    Stream.readFixSize_of_lt hrest]
  simp only [Int.toNat_natCast]

end Body

section Honoured

variable {maxBodySize : UInt64} {v : Bytes} {r : HttpRequest} {s : Stream} {n : Nat}

theorem honoured_ok_some_iff :
    Honoured maxBodySize v (.ok ⟨some (r, s), n⟩) ↔
      (∃ k, decimal v = some k ∧ k ≤ maxBodySize.toNat ∧ r.body.length = k) ∧
        n ≤ maxBodySize.toNat := by
  constructor
  · intro h
    exact ⟨h.returns _ r s rfl rfl, h.allocates _ rfl⟩
  · rintro ⟨⟨k, hk, hle, hlen⟩, hn⟩
    refine ⟨fun reply req t hout hreq => ?_, fun hbad => absurd ⟨k, hk, hle⟩ hbad, fun reply hout => ?_⟩
    · cases hout
      cases hreq
      exact ⟨k, hk, hle, hlen⟩
    · cases hout
      exact hn

theorem honoured_ok_none_iff : Honoured maxBodySize v (.ok ⟨none, n⟩) ↔ n ≤ maxBodySize.toNat := by
  constructor
  · intro h
    exact h.allocates _ rfl
  · intro hn
    refine ⟨fun reply req t hout hreq => ?_, fun _ => ⟨_, rfl, rfl⟩, fun reply hout => ?_⟩
    · cases hout
      cases hreq
    · cases hout
      exact hn

theorem honoured_error_iff {fault : Fault} :
    Honoured maxBodySize v (.error fault) ↔ Acceptable maxBodySize v := by
  constructor
  · intro h
    by_contra hbad
    obtain ⟨reply, hout, -⟩ := h.refuses hbad
    cases hout
  · intro h
    refine ⟨fun reply req t hout _ => ?_, fun hbad => absurd h hbad, fun reply hout => ?_⟩
    · cases hout
    · cases hout

end Honoured

theorem getContentLength_of_lookup (lexicalCast : LexicalCast) {r : HttpRequestParser} {v : Bytes}
    (h : MapType.lookup r.data.headers (ascii "content-length") = some v) :
    toInt64 (r.getContentLength lexicalCast).toNat = bodyLength lexicalCast v := by
  unfold HttpRequestParser.getContentLength getAs bodyLength
  simp only [h]

/-- An acceptable value is read as the number it denotes, modulo the turn of the sign. -/
theorem bodyLength_of_decimal (lexicalCast : LexicalCast) {v : Bytes} {n : Nat}
    (h : decimal v = some n) (hn : n < 2 ^ 64) : bodyLength lexicalCast v = toInt64 n := by
  rw [bodyLength, lexicalCast.cast_decimal h hn, Option.getD_some, UInt64.toNat_ofNat_of_lt' hn]

section Read

variable {env : Env} {r : Received} {maxBodySize : UInt64} {v : Bytes} {n : Nat}

/-- An acceptable number is honoured whether or not the body arrives. -/
theorem honoured_of_acceptable
    (hn : toInt64 (r.parser.getContentLength env.lexicalCast).toNat = n) (hpos : 0 < n)
    (hv : decimal v = some n) (hle : n ≤ maxBodySize.toNat) :
    Honoured maxBodySize v (recvBody env r) := by
  by_cases hmax : n ≤ stringMaxSize
  · by_cases hbuf : n ≤ r.data.length
    · rw [recvBody_of_le hn hpos hmax hbuf, honoured_ok_some_iff]
      refine ⟨⟨n, hv, hle, ?_⟩, hle⟩
      rw [init_body, List.length_take]
      omega
    by_cases hrest : n - r.data.length ≤ r.stream.unread.length
    · obtain ⟨cuts, heq⟩ := recvBody_of_arrives hn hpos hmax (by omega) hrest
      rw [heq]
      split
      · exact honoured_ok_none_iff.mpr hle
      · rw [honoured_ok_some_iff]
        refine ⟨⟨n, hv, hle, ?_⟩, hle⟩
        rw [init_body, List.length_append, List.length_take]
        omega
    · rw [recvBody_of_missing hn hpos hmax (by omega)]
      exact honoured_ok_none_iff.mpr hle
  · rw [recvBody_of_gt hn hpos (by omega)]
    exact honoured_error_iff.mpr ⟨n, hv, hle⟩

/-- Any other value is to be refused: the body must not arrive, and be small enough. -/
theorem honoured_unacceptable_iff
    (hn : toInt64 (r.parser.getContentLength env.lexicalCast).toNat = n) (hpos : 0 < n)
    (hacc : ¬ Acceptable maxBodySize v) :
    Honoured maxBodySize v (recvBody env r) ↔
      n ≤ maxBodySize.toNat ∧ n ≤ stringMaxSize ∧ r.data.length < n ∧
        (r.data.length + r.stream.unread.length < n ∨ toInt32 (n - r.data.length) ≤ 0) := by
  have hsome : ∀ {q t m}, ¬ Honoured maxBodySize v (.ok ⟨some (q, t), m⟩) := fun h => by
    obtain ⟨⟨k, hk, hle, -⟩, -⟩ := honoured_ok_some_iff.mp h
    exact hacc ⟨k, hk, hle⟩
  by_cases hmax : n ≤ stringMaxSize
  · by_cases hbuf : n ≤ r.data.length
    · rw [recvBody_of_le hn hpos hmax hbuf]
      exact iff_of_false hsome (by omega)
    by_cases hrest : n - r.data.length ≤ r.stream.unread.length
    · obtain ⟨cuts, heq⟩ := recvBody_of_arrives hn hpos hmax (by omega) hrest
      rw [heq]
      split
      next hrt =>
        rw [honoured_ok_none_iff]
        exact ⟨fun hle => ⟨hle, hmax, by omega, .inr hrt⟩, fun h => h.1⟩
      next hrt => exact iff_of_false hsome (by omega)
    · rw [recvBody_of_missing hn hpos hmax (by omega), honoured_ok_none_iff]
      exact ⟨fun hle => ⟨hle, hmax, by omega, .inl (by omega)⟩, fun h => h.1⟩
  · rw [recvBody_of_gt hn hpos (by omega), honoured_error_iff]
    exact iff_of_false hacc (by omega)

end Read

/-- The header is honoured exactly under `HonouredWhen`. -/
theorem recvRequest_honoured_iff (env : Env) (junk : Junk) (s : Stream) (r : Received)
    (maxBodySize : UInt64) (v : Bytes) (hrecv : recvHeader env junk s = .ok (some r))
    (hv : MapType.lookup r.parser.data.headers (ascii "content-length") = some v) :
    Honoured maxBodySize v (recvRequest env junk s) ↔
      HonouredWhen env.lexicalCast maxBodySize v r.data.length r.stream.unread.length := by
  have hout : recvRequest env junk s = recvBody env r := by rw [recvRequest, hrecv]; rfl
  have hbody : r.parser.data.body = [] := headerLoop_body hrecv
  have hlength := getContentLength_of_lookup env.lexicalCast hv
  have hmaxlt : maxBodySize.toNat < 2 ^ 64 := maxBodySize.toNat_lt
  rw [hout, HonouredWhen]
  by_cases hpos : 0 < bodyLength env.lexicalCast v
  · obtain ⟨n, hn⟩ := Int.eq_ofNat_of_zero_le hpos.le
    rw [hn] at hlength
    have hnpos : 0 < n := by omega
    by_cases hacc : Acceptable maxBodySize v
    · -- the size is the number that the header says
      obtain ⟨k, hk, hle⟩ := hacc
      have hkn := bodyLength_of_decimal env.lexicalCast hk (by omega)
      have hk63 : k < 2 ^ 63 := by
        by_contra hge
        have := toInt64_of_ge (by omega) (lt_of_le_of_lt hle hmaxlt)
        omega
      rw [hn, toInt64_of_lt hk63] at hkn
      obtain rfl : n = k := by omega
      exact iff_of_true (honoured_of_acceptable hlength hnpos hk hle) (.inl ⟨n, hk, hle, hk63⟩)
    · have hnot : ¬ ∃ k, decimal v = some k ∧ k ≤ maxBodySize.toNat ∧ k < 2 ^ 63 :=
        fun ⟨k, hk, hle, _⟩ => hacc ⟨k, hk, hle⟩
      rw [honoured_unacceptable_iff hlength hnpos hacc, or_iff_right hnot, and_iff_right hacc, hn]
      refine ⟨fun h => ⟨n, rfl, h⟩, fun ⟨m, hm, h⟩ => ?_⟩
      obtain rfl : n = m := by omega
      exact h
  · -- no body is read: right for the number 0 only
    rw [recvBody_of_nonpos (by omega), honoured_ok_some_iff, init_body, hbody]
    constructor
    · rintro ⟨⟨k, hk, hle, hlen⟩, -⟩
      exact .inl ⟨k, hk, hle, by rw [← hlen]; decide⟩
    · rintro (⟨k, hk, hle, hlt⟩ | ⟨-, k, hk, -, -, hbuf, -⟩)
      · have hzero := bodyLength_of_decimal env.lexicalCast hk (by omega)
        rw [toInt64_of_lt hlt] at hzero
        exact ⟨⟨k, hk, hle, by rw [List.length_nil]; omega⟩, Nat.zero_le _⟩
      · omega

section Posts

/-- A buffer of 4096 bytes. -/
def postEnv : Env := .plain 4096 plainSize_le

/-- A request whose header says `v`, with `body` behind it. -/
def postStream (v body : String) : Stream :=
  .ofPieces [ascii "POST / HTTP/1.1\r\ncontent-length: " ++ ascii v ++ ascii "\r\n\r\n", ascii body]

/-- Where the loop over the header block of `postStream v body` ends. -/
def postReceived (v body : String) (h : (recvHeader postEnv ⟨0, false⟩
    (postStream v body)).toOption.join.isSome = true) : Received :=
  (recvHeader postEnv ⟨0, false⟩ (postStream v body)).toOption.join.get h

/-- `abc` counts as 0: the request is returned, and its body is left in the stream. -/
theorem malformed_length_not_honoured :
    recvHeader postEnv ⟨0, false⟩ (postStream "abc" "GET /") =
      .ok (some (postReceived "abc" "GET /" (by decide))) ∧
    MapType.lookup (postReceived "abc" "GET /" (by decide)).parser.data.headers
      (ascii "content-length") = some (ascii "abc") ∧
    ¬ Honoured (64 * 1024 * 1024) (ascii "abc")
      (recvRequest postEnv ⟨0, false⟩ (postStream "abc" "GET /")) := by
  have hret : (recvRequest postEnv ⟨0, false⟩ (postStream "abc" "GET /")).map
      (fun reply => reply.request.map fun e => e.2.unread) = .ok (some (ascii "GET /")) := by
    decide
  refine ⟨by decide, by decide, fun h => ?_⟩
  obtain ⟨reply, hout, hnone⟩ := h.refuses (by
    rintro ⟨n, hn, -⟩
    rw [show decimal (ascii "abc") = none by decide] at hn
    cases hn)
  rw [hout, Except.map, hnone] at hret
  cases hret

theorem postStream_honoured : Honoured (64 * 1024 * 1024) (ascii "3")
    (recvRequest postEnv ⟨0, false⟩ (postStream "3" "abc")) :=
  (recvRequest_honoured_iff postEnv ⟨0, false⟩ (postStream "3" "abc")
    (postReceived "3" "abc" (by decide)) (64 * 1024 * 1024) (ascii "3")
    (by decide) (by decide)).mpr (.inl ⟨3, by decide, by decide, by decide⟩)

end Posts

end Http

end Saturn
