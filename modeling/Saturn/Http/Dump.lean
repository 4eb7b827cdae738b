import Saturn.Http.Message

/-!
# Writing messages

`HttpRequest::dump` and `HttpResponse::dump`, piece by piece: the first line, the block of header
fields, the empty line and the body.
-/

namespace Saturn

namespace Http

/-- `HTTP_STATUS_MAP`. -/
def httpStatusMap : List (Int × String) :=
  [(100, "Continue"), (101, "Switching Protocols"), (102, "Processing"), (200, "OK"),
   (201, "Created"), (202, "Accepted"), (203, "Non-Authoritative Information"), (204, "No Content"),
   (205, "Reset Content"), (206, "Partial Content"), (207, "Multi-Status"),
   (208, "Already Reported"), (226, "IM Used"), (300, "Multiple Choices"),
   (301, "Moved Permanently"), (302, "Found"), (303, "See Other"), (304, "Not Modified"),
   (305, "Use Proxy"), (307, "Temporary Redirect"), (308, "Permanent Redirect"),
   (400, "Bad Request"), (401, "Unauthorized"), (402, "Payment Required"), (403, "Forbidden"),
   (404, "Not Found"), (405, "Method Not Allowed"), (406, "Not Acceptable"),
   (407, "Proxy Authentication Required"), (408, "Request Timeout"), (409, "Conflict"),
   (410, "Gone"), (411, "Length Required"), (412, "Precondition Failed"),
   (413, "Payload Too Large"), (414, "URI Too Long"), (415, "Unsupported Media Type"),
   (416, "Range Not Satisfiable"), (417, "Expectation Failed"), (421, "Misdirected Request"),
   (422, "Unprocessable Entity"), (423, "Locked"), (424, "Failed Dependency"),
   (426, "Upgrade Required"), (428, "Precondition Required"), (429, "Too Many Requests"),
   (431, "Request Header Fields Too Large"), (451, "Unavailable For Legal Reasons"),
   (500, "Internal Server Error"), (501, "Not Implemented"), (502, "Bad Gateway"),
   (503, "Service Unavailable"), (504, "Gateway Timeout"), (505, "HTTP Version Not Supported"),
   (506, "Variant Also Negotiates"), (507, "Insufficient Storage"), (508, "Loop Detected"),
   (510, "Not Extended"), (511, "Network Authentication Required")]

/-- `HttpMethodToString` -/
def httpMethodToString (m : HttpMethod) : Bytes :=
  ascii ((httpMethodMap.lookup m).getD "<unknown>")

/-- `HttpStatusToString` -/
def httpStatusToString (s : Int) : Bytes := ascii ((httpStatusMap.lookup s).getD "<unknown>")

/-- `os << n`, in decimal. -/
def digits (n : Nat) : Bytes := (Nat.toDigits 10 n).map fun c => c.toNat.toUInt8

/-- The end of a line. -/
def crlf : Bytes := [13, 10]

/-- `"HTTP/" << (uint32_t)(m_version >> 4) << "." << (uint32_t)(m_version & 0x0F)` -/
def httpVersion (version : UInt8) : Bytes :=
  ascii "HTTP/" ++ digits (version >>> 4).toNat ++ ascii "." ++ digits (version &&& 0x0F).toNat

/-- `"connection: " << (m_close ? "close" : "keep-alive") << "\r\n"` -/
def connectionField (close : Bool) : Bytes :=
  ascii "connection: " ++ ascii (if close then "close" else "keep-alive") ++ crlf

/-- The fields of the map but `connection`, with `sep` between name and value. -/
def mapFields (sep : Bytes) (headers : MapType) : Bytes :=
  headers.flatMap fun i =>
    if caseFold i.1 = caseFold (ascii "connection") then [] else i.1 ++ sep ++ i.2 ++ crlf

/-- `"content-length: " << m_body.size() << "\r\n"`, if there is a body. -/
def lengthField (body : Bytes) : Bytes :=
  if body = [] then [] else ascii "content-length: " ++ digits body.length ++ crlf

namespace HttpRequest

/-- `m_path`, and `m_query` and `m_fragment` behind `?` and `#` if they are not empty. -/
def target (r : HttpRequest) : Bytes :=
  r.path ++ (if r.query = [] then [] else ascii "?") ++ r.query ++
    (if r.fragment = [] then [] else ascii "#") ++ r.fragment

/-- The request line. -/
def startLine (r : HttpRequest) : Bytes :=
  httpMethodToString r.method ++ ascii " " ++ r.target ++ ascii " " ++ httpVersion r.version ++ crlf

/-- The lines between the first line and the empty one. -/
def headerBlock (r : HttpRequest) : Bytes :=
  connectionField r.close ++ mapFields (ascii ":") r.headers ++ lengthField r.body

/-- What stands before the body. -/
def head (r : HttpRequest) : Bytes := r.startLine ++ r.headerBlock ++ crlf

/-- `HttpRequest::dump`. -/
def dump (r : HttpRequest) : Bytes := r.head ++ r.body

end HttpRequest

namespace HttpResponse

/-- The request line. -/
def startLine (r : HttpResponse) : Bytes :=
  httpVersion r.version ++ ascii " " ++ digits (r.status % 2 ^ 32).toNat ++ ascii " " ++
    (if r.reason = [] then httpStatusToString r.status else r.reason) ++ crlf

/-- The lines between the first line and the empty one. -/
def headerBlock (r : HttpResponse) : Bytes :=
  mapFields (ascii ": ") r.headers ++ connectionField r.close ++ lengthField r.body

/-- `HttpResponse::dump`. -/
def dump (r : HttpResponse) : Bytes := r.startLine ++ r.headerBlock ++ crlf ++ r.body

end HttpResponse

end Http

end Saturn
