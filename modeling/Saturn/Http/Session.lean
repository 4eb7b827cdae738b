import Saturn.Http.Http11
import Saturn.Http.Stream

/-!
# The server's side of a connection

`HttpSession::recvRequest` and the loop of `HttpServer::handleClient` that calls it. A result
`none` stands for `close(); return nullptr`.
-/

namespace Saturn

namespace Http

/-- What a session runs with. Positions in the buffer are `int`s in the code. -/
structure Env where
  rest : Http11Rest
  lexicalCast : LexicalCast
  /-- `http.request.buffer_size` -/
  bufferSize : Nat
  bufferSize_le : bufferSize ≤ maxTransfer

/-- An environment for runs that stay within `http11Table` and send plain decimal lengths. -/
def Env.plain (bufferSize : Nat) (h : bufferSize ≤ maxTransfer) : Env where
  rest := .refuse
  lexicalCast := .plain
  bufferSize := bufferSize
  bufferSize_le := h

theorem plainSize_le : 4096 ≤ maxTransfer := by decide

/-- Where the loop over the header block ends. -/
structure Received where
  parser : HttpRequestParser
  /-- The first `offset` bytes of the buffer. -/
  data : Bytes
  stream : Stream
  /-- The values of `offset` and `len` that the iterations computed. -/
  offsets : List (Int × Nat)
  deriving Repr, DecidableEq

/-- One iteration of the loop over the header block, behind its `read`. -/
def headerStep (env : Env) (parser : HttpRequestParser) (data : Bytes) :
    Except Fault (HttpRequestParser × Int × Bytes) :=
  (parser.execute env.rest data).map fun e => (e.1, (data.length : Int) - e.2.1, e.2.2)

/-- The loop of `recvRequest` over the header block. -/
def headerLoop (env : Env) : Nat → Received → Except Fault (Option Received)
  | 0, _ => .ok none
  | fuel + 1, r =>
    match r.stream.read (env.bufferSize - r.data.length) with
    | none => .ok none
    | some (bytes, stream) =>
      (headerStep env r.parser (r.data ++ bytes)).bind fun (parser, offset, data) =>
        if parser.hasError then .ok none
        else if offset = env.bufferSize then .ok none
        else
          let r' : Received :=
            ⟨parser, data, stream, r.offsets ++ [(offset, (r.data ++ bytes).length)]⟩
          if parser.isFinished then .ok (some r') else headerLoop env fuel r'

/-- The loop over the header block; it reads a byte at least each time. -/
def recvHeader (env : Env) (junk : Junk) (s : Stream) : Except Fault (Option Received) :=
  headerLoop env (s.unread.length + 1) ⟨.new junk, [], s, []⟩

/-- What `recvRequest` returns, and the size it resizes the body to. -/
structure Reply where
  request : Option (HttpRequest × Stream)
  allocated : Nat
  deriving Repr, DecidableEq

/-- `recvRequest` behind the loop. -/
def recvBody (env : Env) (r : Received) : Except Fault Reply :=
  let length := toInt64 (r.parser.getContentLength env.lexicalCast).toNat
  if 0 < length then
    if stringMaxSize < length.toNat then .error .lengthError
    else
      let copied := if (r.data.length : Int) ≤ length then r.data else r.data.take length.toNat
      let left := length - r.data.length
      if 0 < left then
        match r.stream.readFixSize left.toNat with
        | none => .ok ⟨none, length.toNat⟩
        | some (rt, bytes, stream) =>
          if rt ≤ 0 then .ok ⟨none, length.toNat⟩
          else
            .ok ⟨some (({ r.parser.data with body := copied ++ bytes }).init, stream), length.toNat⟩
      else .ok ⟨some (({ r.parser.data with body := copied }).init, r.stream), length.toNat⟩
  else .ok ⟨some (r.parser.data.init, r.stream), 0⟩

/-- `HttpSession::recvRequest`. -/
def recvRequest (env : Env) (junk : Junk) (s : Stream) : Except Fault Reply :=
  (recvHeader env junk s).bind fun
    | none => .ok ⟨none, 0⟩
    | some r => recvBody env r

/-- The requests that `HttpServer::handleClient` dispatches on one connection. The `n`th call of
`recvRequest` allocates its parser over `junk n`. -/
def handleClient (env : Env) (keepalive : Bool) (junk : Nat → Junk) :
    Nat → Nat → Stream → Except Fault (List HttpRequest)
  | 0, _, _ => .ok []
  | fuel + 1, n, s =>
    (recvRequest env (junk n) s).bind fun reply =>
      match reply.request with
      | none => .ok []
      | some (req, t) =>
        if !keepalive || req.close then .ok [req]
        else (handleClient env keepalive junk fuel (n + 1) t).map (req :: ·)

end Http

end Saturn
