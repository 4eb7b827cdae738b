import Saturn.Http.Message
import Saturn.Http.Stream
import Saturn.Misc.Logged

/-!
# The client's side of a connection

`HttpConnection::recvResponse`, over whatever parser fills in the response. A call logs what it reads
into the buffer, writes there, and takes out of it; giving up stands for `close(); return nullptr`.
-/

namespace Saturn

namespace Http

/-- What `recvResponse` uses of `HttpResponseParser`, where `execute` returns the number of bytes
that `memmove` has taken out of the front of the buffer. Relied on is that a call that starts on the
header of a chunk returns, and that this is then a number of bytes that are there, unless
`hasError()` is true behind the call. -/
structure ResponseParser (σ : Type) where
  new : σ
  execute : σ → Bytes → Bool → Except Fault (σ × Int)
  hasError : σ → Bool
  isFinished : σ → Bool
  chunked : σ → Bool
  contentLen : σ → Int
  chunksDone : σ → Bool
  getContentLength : σ → UInt64
  getData : σ → HttpResponse
  execute_count : ∀ {parser data parser' nparse}, data ≠ [] → data.length ≤ maxTransfer →
    execute parser data true = .ok (parser', nparse) → hasError parser' = false →
    0 ≤ nparse ∧ nparse ≤ data.length
  execute_returns : ∀ parser data, data ≠ [] → data.length ≤ maxTransfer →
    ∃ r, execute parser data true = .ok r

/-- Bytes of the buffer that the code reads or writes, by their first position and their number. -/
structure Access where
  start : Int
  length : Int
  deriving Repr, DecidableEq

/-- The access stays inside the `buff_size + 1` bytes that are allocated. -/
def Access.Inside (bufferSize : Nat) (a : Access) : Prop :=
  0 ≤ a.start ∧ 0 ≤ a.length ∧ a.start + a.length ≤ bufferSize + 1

/-- A call that reads and writes the buffer. -/
abbrev ClientCall := Logged Access Fault

section RecvResponse

variable {σ : Type} (parser : ResponseParser σ) (bufferSize : Nat)

open Logged

/-- `read(data + len, buff_size - len)` and `parser->execute(data, len, chunk)`, until a header is
complete; the buffer holds `data`. -/
def parseLoop (chunk : Bool) : Nat → σ → Bytes → Stream → ClientCall (σ × Bytes × Stream)
  | 0, _, _, _ => outOfFuel
  | fuel + 1, p, data, s =>
    tell ⟨data.length, bufferSize - data.length⟩ <|
      match s.read (bufferSize - data.length) with
      | none => giveUp
      | some (bytes, s) =>
        -- `data[len] = '\0'`
        tell ⟨data.length + bytes.length, 1⟩ <|
          (ofExcept (parser.execute p (data ++ bytes) chunk)).bind fun (p, nparse) =>
            let rest := (data ++ bytes).drop nparse.toNat
            if parser.hasError p then giveUp
            -- `memmove` has moved bytes from outside of the buffer
            else if nparse < 0 ∨ (data ++ bytes).length < nparse then throwing .outOfBounds
            else if rest.length = bufferSize then giveUp
            else if parser.isFinished p then ret (p, rest, s)
            else parseLoop chunk fuel p rest s

/-- The loop over the response header. -/
def responseHeader (s : Stream) : ClientCall (σ × Bytes × Stream) :=
  parseLoop parser bufferSize false (s.unread.length + 1) parser.new [] s

/-- The loop over the header of a chunk. -/
def chunkHeader (p : σ) (data : Bytes) (s : Stream) : ClientCall (σ × Bytes × Stream) :=
  parseLoop parser bufferSize true (s.unread.length + 1) p data s

/-- `body.append(data, n)`: a negative `n` is a `size_t` beyond `max_size()`. -/
def append (body data : Bytes) (n : Int) : ClientCall Bytes :=
  tell ⟨0, n⟩ <|
    if n < 0 ∨ stringMaxSize < body.length + n.toNat then throwing .lengthError
    else ret (body ++ data.take n.toNat)

/-- The loop that reads the `left` bytes of a chunk that are not in the buffer. -/
def readLeft : Nat → Stream → Bytes → Int → ClientCall (Bytes × Stream)
  | 0, _, _, _ => outOfFuel
  | fuel + 1, s, body, left =>
    if 0 < left then
      let n : Int := if (bufferSize : Int) < left then bufferSize else left
      tell ⟨0, n⟩ <|
        match s.read n.toNat with
        | none => giveUp
        | some (bytes, s) =>
          (append body bytes bytes.length).bind fun body =>
            readLeft fuel s body (left - bytes.length)
    else ret (body, s)

/-- The bytes of a chunk, behind its header, in a buffer that holds `data`. -/
def chunkData (contentLen : Int) (data : Bytes) (s : Stream) (body : Bytes) :
    ClientCall (Bytes × Stream × Bytes) :=
  let len : Int := data.length - 2
  if contentLen ≤ len then
    (append body data contentLen).bind fun body =>
      -- `memmove(data, data + content_len, len - content_len)`
      tell ⟨contentLen, len - contentLen⟩ <| tell ⟨0, len - contentLen⟩ <|
        ret ((data.drop contentLen.toNat).take (len - contentLen).toNat, s, body)
  else
    (append body data len).bind fun body =>
      (readLeft bufferSize (s.unread.length + 1) s body (contentLen - len)).bind fun (body, s) =>
        ret ([], s, body)

/-- The loop over the chunks. -/
def chunkLoop : Nat → σ → Bytes → Stream → Bytes → ClientCall (σ × Stream × Bytes)
  | 0, _, _, _, _ => outOfFuel
  | fuel + 1, p, data, s, body =>
    (chunkHeader parser bufferSize p data s).bind fun (p, data, s) =>
      (chunkData bufferSize (parser.contentLen p) data s body).bind fun (data, s, body) =>
        if parser.chunksDone p then ret (p, s, body) else chunkLoop fuel p data s body

/-- The body of a response that is not chunked: `length` bytes, of which the buffer has the first. -/
def plainBody (length : Int) (data : Bytes) (s : Stream) (response : HttpResponse) :
    ClientCall (HttpResponse × Stream) :=
  if 0 < length then
    if stringMaxSize < length.toNat then throwing .lengthError
    else
      let copied : Int := if (data.length : Int) ≤ length then data.length else length
      tell ⟨0, copied⟩ <|
        if 0 < length - data.length then
          match s.readFixSize (length - data.length).toNat with
          | none => giveUp
          | some (rt, bytes, s) =>
            if rt ≤ 0 then giveUp
            else ret ({ response with body := data.take copied.toNat ++ bytes }, s)
        else ret ({ response with body := data.take copied.toNat }, s)
  else ret (response, s)

/-- `recvResponse` behind the response header. -/
def recvBehindHeader (p : σ) (data : Bytes) (s : Stream) : ClientCall (HttpResponse × Stream) :=
  if parser.chunked p then
    (chunkLoop parser bufferSize (s.unread.length + 1) p data s []).bind fun (p, s, body) =>
      ret ({ parser.getData p with body := body }, s)
  else plainBody (toInt64 (parser.getContentLength p).toNat) data s (parser.getData p)

/-- `HttpConnection::recvResponse`. -/
def recvResponse (s : Stream) : ClientCall (HttpResponse × Stream) :=
  (responseHeader parser bufferSize s).bind fun (p, data, s) =>
    recvBehindHeader parser bufferSize p data s

end RecvResponse

end Http

end Saturn
