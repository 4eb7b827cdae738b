import Mathlib.Algebra.Group.Int.Defs
import Mathlib.Algebra.Group.Nat.Defs
import Mathlib.Data.List.Basic

/-!
# Requests and responses

The data that the parsers fill in: methods, header maps and the two message types.
-/

namespace Saturn

namespace Http

/-- A `std::string`. -/
abbrev Bytes := List UInt8

theorem forall_byte {P : UInt8 → Prop} (h : ∀ n : Fin 256, P (UInt8.ofNat n)) (c : UInt8) : P c := by
  have := h ⟨c.toNat, c.toNat_lt⟩
  rwa [UInt8.ofNat_toNat] at this

/-- The bytes of an ASCII literal. -/
def ascii (s : String) : Bytes := s.toList.map fun c => c.toNat.toUInt8

/-- What ends a call that does not return. -/
inductive Fault
  | assertion
  | lengthError
  | outOfBounds
  deriving Repr, DecidableEq

/-- `std::string::max_size()` of libstdc++. -/
def stringMaxSize : Nat := 2 ^ 62 - 1

/-- `std::string(buffer + pos, length)`. -/
def makeString (buffer : Bytes) (pos length : Nat) : Except Fault Bytes :=
  if stringMaxSize < length then .error .lengthError else .ok ((buffer.drop pos).take length)

/-- The bytes of a C string. -/
def cstr (s : Bytes) : Bytes := s.takeWhile (· ≠ 0)

/-- `strncmp(s, t, n) == 0`. -/
def strncmpEq (s t : Bytes) (n : Nat) : Bool := (cstr s ++ [0]).take n == (cstr t ++ [0]).take n

/-- `tolower` of the C locale. -/
def toLower (c : UInt8) : UInt8 := if 65 ≤ c ∧ c ≤ 90 then c + 32 else c

/-- What `strcasecmp` compares. -/
def caseFold (s : Bytes) : Bytes := (cstr s).map toLower

/-- `enum class HttpMethod` -/
inductive HttpMethod
  | delete | get | head | post | put
  | connect | options | trace
  | copy | lock | mkcol | move | propfind | proppatch | search | unlock | bind | rebind | unbind | acl
  | report | mkactivity | checkout | merge
  | msearch | notify | subscribe | unsubscribe
  | patch | purge
  | mkcalendar
  | link | unlink
  | source
  | invalidMethod
  deriving Repr, DecidableEq

/-- `HTTP_METHOD_MAP`. -/
def httpMethodMap : List (HttpMethod × String) :=
  [(.delete, "DELETE"), (.get, "GET"), (.head, "HEAD"), (.post, "POST"), (.put, "PUT"),
   (.connect, "CONNECT"), (.options, "OPTIONS"), (.trace, "TRACE"),
   (.copy, "COPY"), (.lock, "LOCK"), (.mkcol, "MKCOL"), (.move, "MOVE"), (.propfind, "PROPFIND"),
   (.proppatch, "PROPPATCH"), (.search, "SEARCH"), (.unlock, "UNLOCK"), (.bind, "BIND"),
   (.rebind, "REBIND"), (.unbind, "UNBIND"), (.acl, "ACL"),
   (.report, "REPORT"), (.mkactivity, "MKACTIVITY"), (.checkout, "CHECKOUT"), (.merge, "MERGE"),
   (.msearch, "M-SEARCH"), (.notify, "NOTIFY"), (.subscribe, "SUBSCRIBE"),
   (.unsubscribe, "UNSUBSCRIBE"), (.patch, "PATCH"), (.purge, "PURGE"),
   (.mkcalendar, "MKCALENDAR"), (.link, "LINK"), (.unlink, "UNLINK"), (.source, "SOURCE")]

/-- The first method whose name `m` begins with. -/
def charsToHttpMethod (m : Bytes) : HttpMethod :=
  ((httpMethodMap.find? fun e => (ascii e.2).isPrefixOf m).map Prod.fst).getD .invalidMethod

/-- `CaseInsensitiveLess` -/
def caseInsensitiveLess (lhs rhs : Bytes) : Bool := (caseFold lhs).lex (caseFold rhs)

/-- `std::map<std::string, std::string, CaseInsensitiveLess>`, in key order. -/
abbrev MapType := List (Bytes × Bytes)

namespace MapType

/-- `m[key] = val`: an equivalent key that is there keeps its spelling. -/
def set : MapType → Bytes → Bytes → MapType
  | [], key, val => [(key, val)]
  | (k, v) :: m, key, val =>
    if caseInsensitiveLess k key then (k, v) :: set m key val
    else if caseInsensitiveLess key k then (key, val) :: (k, v) :: m
    else (k, val) :: m

/-- `m.find(key)` -/
def lookup (m : MapType) (key : Bytes) : Option Bytes :=
  (m.find? fun e => !caseInsensitiveLess e.1 key && !caseInsensitiveLess key e.1).map Prod.snd

end MapType

/-- `isdigit` -/
def isDigit (c : UInt8) : Bool := 48 ≤ c && c ≤ 57

/-- The number a nonempty string of decimal digits denotes. -/
def decimal (v : Bytes) : Option Nat :=
  if v ≠ [] ∧ v.all isDigit then some (v.foldl (fun n c => 10 * n + (c.toNat - 48)) 0) else none

/-- `boost::lexical_cast<uint64_t>`; `none` where it throws. The one thing relied on is that it
reads decimal numbers that fit. -/
structure LexicalCast where
  cast : Bytes → Option UInt64
  cast_decimal : ∀ {v n}, decimal v = some n → n < 2 ^ 64 → cast v = some (UInt64.ofNat n)

/-- A decimal of a `uint64_t`. -/
def decimal64 (v : Bytes) : Option UInt64 :=
  (decimal v).bind fun n => if n < 2 ^ 64 then some (UInt64.ofNat n) else none

/-- Reads decimal numbers, and those behind a minus sign modulo `2^64`. -/
def LexicalCast.plain : LexicalCast where
  cast v := match v with
    | 45 :: digits => (decimal64 digits).map fun n => 0 - n
    | _ => decimal64 v
  cast_decimal {v n} h hn := by
    split
    next digits =>
      rw [decimal, if_neg (by simp [isDigit])] at h
      cases h
    next => rw [decimal64, h, Option.bind_some, if_pos hn]

/-- `getAs<MapType, uint64_t>`. -/
def getAs (lexicalCast : LexicalCast) (m : MapType) (key : Bytes) (default : UInt64) : UInt64 :=
  match m.lookup key with
  | none => default
  | some v => (lexicalCast.cast v).getD default

/-- The members of `HttpRequest`. -/
structure HttpRequest where
  method : HttpMethod
  version : UInt8
  close : Bool
  path : Bytes
  query : Bytes
  fragment : Bytes
  body : Bytes
  headers : MapType
  deriving Repr, DecidableEq

/-- `HttpRequest::HttpRequest` with its default arguments. -/
def HttpRequest.new : HttpRequest where
  method := .get
  version := 0x11
  close := true
  path := ascii "/"
  query := []
  fragment := []
  body := []
  headers := []

/-- `HttpRequest::getHeader` -/
def HttpRequest.getHeader (r : HttpRequest) (key : Bytes) : Bytes := (r.headers.lookup key).getD []

/-- `HttpRequest::init`: only a `connection` header changes the default. -/
def HttpRequest.init (r : HttpRequest) : HttpRequest :=
  if r.getHeader (ascii "connection") = [] then r
  else { r with
    close := caseFold (r.getHeader (ascii "connection")) != caseFold (ascii "keep-alive") }

/-- The members of `HttpResponse`. -/
structure HttpResponse where
  status : Int
  version : UInt8
  close : Bool
  body : Bytes
  reason : Bytes
  headers : MapType
  deriving Repr, DecidableEq

/-- `HttpResponse::HttpResponse` with its default arguments. -/
def HttpResponse.new : HttpResponse where
  status := 200
  version := 0x11
  close := true
  body := []
  reason := []
  headers := []

end Http

end Saturn
