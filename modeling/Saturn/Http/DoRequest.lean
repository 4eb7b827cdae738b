import Saturn.Http.HeaderMap
import Saturn.Uri.Defs

/-!
# Requests on behalf of a caller

`HttpConnection::DoRequest` and `HttpConnectionPool::doRequest` make a request from a method, a
`Uri`, the caller's headers and a body. Both fold the caller's map, which tells the spellings of a
name apart, into one that does not. The last spelling of a name is the one that stays.
-/

namespace Saturn

namespace Http

/-- `std::map<std::string, std::string>`: its entries in the order of their keys. -/
structure StringMap where
  entries : List (Bytes × Bytes)
  sorted : entries.Pairwise fun a b => a.1.lex b.1 = true

/-- `strcasecmp(i.first.c_str(), name) == 0` -/
def isName (name : String) (i : Bytes × Bytes) : Bool := caseFold i.1 = caseFold (ascii name)

/-- `strcasecmp(i.second.c_str(), value) == 0` -/
def isValue (value : String) (i : Bytes × Bytes) : Bool := caseFold i.2 = caseFold (ascii value)

/-- `HttpRequest::setHeader` -/
def HttpRequest.setHeader (req : HttpRequest) (key val : Bytes) : HttpRequest :=
  { req with headers := req.headers.set key val }

/-- The loop over the caller's headers, on the request and `has_host`. -/
def addHeader (s : HttpRequest × Bool) (i : Bytes × Bytes) : HttpRequest × Bool :=
  if isName "connection" i then
    (if isValue "keep-alive" i then { s.1 with close := false } else s.1, s.2)
  else (s.1.setHeader i.1 i.2, if !s.2 && isName "host" i then !i.2.isEmpty else s.2)

/-- What both functions do with a request that has its target and its method. -/
def fillRequest (req : HttpRequest) (host : Bytes) (headers : StringMap) (body : Bytes) :
    HttpRequest :=
  let s := headers.entries.foldl addHeader (req, false)
  { (if !s.2 then s.1.setHeader (ascii "Host") host else s.1) with body }

/-- `HttpConnection::DoRequest(method, uri, ...)`, up to the request that it sends. -/
def HttpConnection.doRequest (method : HttpMethod) (uri : Uri) (headers : StringMap)
    (body : Bytes) : HttpRequest :=
  fillRequest
    { HttpRequest.new with
      path := uri.getPath, query := uri.query, fragment := uri.fragment, method }
    uri.host headers body

/-- The hosts of an `HttpConnectionPool`. -/
structure HttpConnectionPool where
  host : Bytes
  vhost : Bytes

namespace HttpConnectionPool

variable (pool : HttpConnectionPool)

/-- The `Host` of a request whose caller gives none. -/
def defaultHost : Bytes := if pool.vhost = [] then pool.host else pool.vhost

/-- `HttpConnectionPool::doRequest(method, url, ...)`, up to the request that it sends. -/
def doRequestUrl (method : HttpMethod) (url : Bytes) (headers : StringMap) (body : Bytes) :
    HttpRequest :=
  fillRequest { HttpRequest.new with path := url, method, close := false } pool.defaultHost headers
    body

/-- `HttpConnectionPool::doRequest(method, uri, ...)` -/
def doRequest (method : HttpMethod) (uri : Uri) (headers : StringMap) (body : Bytes) : HttpRequest :=
  pool.doRequestUrl method
    (uri.getPath ++ (if uri.query = [] then [] else ascii "?") ++ uri.query ++
      (if uri.fragment = [] then [] else ascii "#") ++ uri.fragment)
    headers body

end HttpConnectionPool

/-- The caller passes `Connection: value`. -/
def StringMap.Passes (headers : StringMap) (value : String) : Prop :=
  ∃ i ∈ headers.entries, isName "connection" i = true ∧ isValue value i = true

/-- The caller gives a `Host` that is not empty. -/
def StringMap.GivesHost (headers : StringMap) : Prop :=
  ∃ i ∈ headers.entries, isName "host" i = true ∧ i.2 ≠ []

/-- The `connection` line of the request that is written. -/
def HttpRequest.Announces (req : HttpRequest) (value : String) : Prop :=
  ascii "connection: " ++ ascii value ++ crlf <+: req.headerBlock

/-- The request has what the caller asked for, and the default where the caller did not ask. -/
structure RespectsCaller (host : Bytes) (headers : StringMap) (req : HttpRequest) : Prop where
  oneHost : ∃ e, req.headers.filter (isName "host") = [e] ∧ e.2 ≠ [] ∧
    (headers.GivesHost → ∃ i ∈ headers.entries, isName "host" i = true ∧ i.2 = e.2) ∧
    (¬headers.GivesHost → e.2 = host)
  close : headers.Passes "close" → req.Announces "close"
  keepAlive : headers.Passes "keep-alive" → req.Announces "keep-alive"

/-- The `Host` that the caller's map has last. -/
def StringMap.lastHost (headers : StringMap) : Option (Bytes × Bytes) :=
  (headers.entries.filter (isName "host")).getLast?

section Loop

theorem isName_host_of_connection {i : Bytes × Bytes} (h : isName "connection" i = true) :
    isName "host" i = false := by
  rw [isName, decide_eq_true_eq] at h
  rw [isName, h]
  decide

/-- The loop, field by field of what it is on. -/
theorem foldl_addHeader (es : List (Bytes × Bytes)) (req : HttpRequest) (hasHost : Bool) :
    es.foldl addHeader (req, hasHost) =
      ({ req with
          close := req.close && !es.any fun i => isName "connection" i && isValue "keep-alive" i
          headers := req.headers.setAll (es.filter fun i => !isName "connection" i) },
        hasHost || es.any fun i => isName "host" i && !i.2.isEmpty) := by
  induction es generalizing req hasHost with
  | nil => simp
  | cons i es ih =>
      rw [List.foldl_cons, addHeader]
      by_cases hconn : isName "connection" i = true
      · rw [if_pos hconn, ih]
        cases hvalue : isValue "keep-alive" i <;>
          simp [hconn, hvalue, isName_host_of_connection hconn]
      · rw [if_neg hconn, ih]
        cases hhost : isName "host" i <;> cases hasHost <;>
          simp [hconn, hhost, HttpRequest.setHeader]

variable {req : HttpRequest} {host : Bytes} {headers : StringMap} {body : Bytes}

theorem any_givesHost :
    (headers.entries.any fun i => isName "host" i && !i.2.isEmpty) = true ↔ headers.GivesHost := by
  simp [StringMap.GivesHost]

theorem any_keepAlive :
    (headers.entries.any fun i => isName "connection" i && isValue "keep-alive" i) = true ↔
      headers.Passes "keep-alive" := by
  simp [StringMap.Passes]

theorem fillRequest_startLine (req : HttpRequest) (host : Bytes) (headers : StringMap)
    (body : Bytes) : (fillRequest req host headers body).startLine = req.startLine := by
  rw [fillRequest, foldl_addHeader]
  cases (headers.entries.any fun i => isName "host" i && !i.2.isEmpty) <;> rfl

theorem fillRequest_close : (fillRequest req host headers body).close = true ↔
    req.close = true ∧ ¬headers.Passes "keep-alive" := by
  rw [← any_keepAlive, fillRequest, foldl_addHeader]
  cases (headers.entries.any fun i => isName "host" i && !i.2.isEmpty) <;>
    simp [HttpRequest.setHeader]

theorem fillRequest_headers (hreq : req.headers = []) :
    (fillRequest req host headers body).headers =
      MapType.setAll [] ((headers.entries.filter fun i => !isName "connection" i) ++
        if headers.entries.any fun i => isName "host" i && !i.2.isEmpty then []
        else [(ascii "Host", host)]) := by
  rw [fillRequest, foldl_addHeader, hreq]
  cases (headers.entries.any fun i => isName "host" i && !i.2.isEmpty) with
  | false => simp [HttpRequest.setHeader, MapType.setAll_append]
  | true => simp

theorem filter_isName_host (es : List (Bytes × Bytes)) :
    (es.filter fun i => !isName "connection" i).filter (isName "host") =
      es.filter (isName "host") := by
  rw [List.filter_filter]
  refine List.filter_congr fun i _ => ?_
  cases hconn : isName "connection" i with
  | false => simp
  | true => simp [isName_host_of_connection hconn]

variable (host headers body) in
/-- The caller's last `Host` is written, if one of them is not empty. -/
theorem lookup_host (hreq : req.headers = []) :
    ((fillRequest req host headers body).headers.lookup (ascii "host")) =
      if headers.entries.any fun i => isName "host" i && !i.2.isEmpty then
        headers.lastHost.map Prod.snd
      else some host := by
  have hfilter := filter_isName_host headers.entries
  rw [fillRequest_headers hreq, MapType.lookup_setAll]
  change ((List.filter (isName "host") _).getLast?.map Prod.snd).or none = _
  rw [Option.or_none, List.filter_append, hfilter]
  cases (headers.entries.any fun i => isName "host" i && !i.2.isEmpty) with
  | true => simp [StringMap.lastHost]
  | false =>
      have hfold : caseFold (ascii "Host") = caseFold (ascii "host") := by decide
      have hdefault : isName "host" (ascii "Host", host) = true := decide_eq_true hfold
      simp [hdefault]

end Loop

section Respects

variable {req : HttpRequest} {host : Bytes} {headers : StringMap} {body : Bytes}

theorem announces_close_iff (req : HttpRequest) : req.Announces "close" ↔ req.close = true := by
  rw [HttpRequest.Announces, HttpRequest.headerBlock, connectionField]
  cases req.close <;> simp [ascii, crlf]

theorem announces_keepAlive_iff (req : HttpRequest) :
    req.Announces "keep-alive" ↔ req.close = false := by
  rw [HttpRequest.Announces, HttpRequest.headerBlock, connectionField]
  cases req.close <;> simp [ascii, crlf]

/-- A map has one field of a name, the one that is found. -/
theorem filter_isName_eq {m : MapType} (h : m.Sorted) {name : String} {v : Bytes}
    (hv : m.lookup (ascii name) = some v) : ∃ e, m.filter (isName name) = [e] ∧ e.2 = v := by
  rw [MapType.lookup_eq_find, Option.map_eq_some_iff] at hv
  obtain ⟨e, he, rfl⟩ := hv
  refine ⟨e, ?_, rfl⟩
  have hfilter := h.filter_eq (ascii name)
  rw [he] at hfilter
  exact hfilter

theorem lookup_of_filter_isName {m : MapType} {name : String} {e : Bytes × Bytes}
    (h : m.filter (isName name) = [e]) : m.lookup (ascii name) = some e.2 := by
  have hfind : m.find? (isName name) = some e := by
    rw [← List.head?_filter, h]
    rfl
  rw [MapType.lookup_eq_find]
  exact congrArg (Option.map Prod.snd) hfind

theorem lastHost_of_givesHost (h : headers.GivesHost) :
    ∃ e ∈ headers.entries, headers.lastHost = some e ∧ isName "host" e = true := by
  obtain ⟨i, hi, hname, -⟩ := h
  have hne : headers.entries.filter (isName "host") ≠ [] :=
    List.ne_nil_of_mem (List.mem_filter.mpr ⟨hi, hname⟩)
  obtain ⟨hmem, hlast⟩ := List.mem_filter.mp (List.getLast_mem hne)
  exact ⟨_, hmem, List.getLast?_eq_some_getLast hne, hlast⟩

variable (host headers body) in
/-- What a request that is filled in has of the caller's headers. -/
theorem respectsCaller_fillRequest_iff (hreq : req.headers = []) :
    RespectsCaller host headers (fillRequest req host headers body) ↔
      (headers.GivesHost → ∃ e, headers.lastHost = some e ∧ e.2 ≠ []) ∧
        (¬headers.GivesHost → host ≠ []) ∧
        (headers.Passes "close" → req.close = true ∧ ¬headers.Passes "keep-alive") := by
  have hlookup := lookup_host host headers body hreq
  constructor
  · intro h
    obtain ⟨e, hfilter, hne, -, hdefault⟩ := h.oneHost
    rw [lookup_of_filter_isName hfilter] at hlookup
    refine ⟨fun hgives => ?_, fun hnot => hdefault hnot ▸ hne, fun hclose => ?_⟩
    · rw [if_pos (any_givesHost.mpr hgives)] at hlookup
      obtain ⟨last, hlast, heq⟩ := Option.map_eq_some_iff.mp hlookup.symm
      exact ⟨last, hlast, heq ▸ hne⟩
    · exact fillRequest_close.mp ((announces_close_iff _).mp (h.close hclose))
  · rintro ⟨hgiven, hdefault, hclose⟩
    have hsorted : (fillRequest req host headers body).headers.Sorted := by
      rw [fillRequest_headers hreq]
      exact MapType.Sorted.setAll List.Pairwise.nil _
    refine ⟨?_, fun hc => (announces_close_iff _).mpr (fillRequest_close.mpr (hclose hc)),
      fun hkeep => (announces_keepAlive_iff _).mpr ?_⟩
    · by_cases hgives : headers.GivesHost
      · obtain ⟨last, hmem, hlast, hname⟩ := lastHost_of_givesHost hgives
        obtain ⟨_, hlast', hne⟩ := hgiven hgives
        cases hlast.symm.trans hlast'
        rw [if_pos (any_givesHost.mpr hgives), hlast] at hlookup
        obtain ⟨e, hfilter, heq⟩ := filter_isName_eq hsorted hlookup
        exact ⟨e, hfilter, heq ▸ hne, fun _ => ⟨last, hmem, hname, heq.symm⟩,
          fun hnot => absurd hgives hnot⟩
      · rw [if_neg (mt any_givesHost.mp hgives)] at hlookup
        obtain ⟨e, hfilter, heq⟩ := filter_isName_eq hsorted hlookup
        exact ⟨e, hfilter, heq ▸ hdefault hgives, fun h => absurd h hgives, fun _ => heq⟩
    · rw [Bool.eq_false_iff]
      exact fun htrue => (fillRequest_close.mp htrue).2 hkeep

/-- Both functions write the target of the `Uri`. -/
theorem startLine_doRequest (method : HttpMethod) (uri : Uri) (pool : HttpConnectionPool)
    (headers : StringMap) (body : Bytes) :
    (HttpConnection.doRequest method uri headers body).startLine =
      (pool.doRequest method uri headers body).startLine := by
  rw [HttpConnection.doRequest, HttpConnectionPool.doRequest, HttpConnectionPool.doRequestUrl,
    fillRequest_startLine, fillRequest_startLine]
  simp [HttpRequest.startLine, HttpRequest.target, HttpRequest.new]

/-- Both requests respect the caller exactly if the caller does not ask to close the connection, a
`Host` that is not empty has no empty spelling of it last, and without one the pool has a host. -/
theorem respectsCaller_iff (method : HttpMethod) (uri : Uri) (pool : HttpConnectionPool)
    (headers : StringMap) (body : Bytes) (h : uri.host ≠ []) :
    (RespectsCaller uri.host headers (HttpConnection.doRequest method uri headers body) ∧
        RespectsCaller pool.defaultHost headers (pool.doRequest method uri headers body) ∧
        (HttpConnection.doRequest method uri headers body).startLine =
          (pool.doRequest method uri headers body).startLine) ↔
      ¬headers.Passes "close" ∧
        (headers.GivesHost → ∃ e, headers.lastHost = some e ∧ e.2 ≠ []) ∧
        (¬headers.GivesHost → pool.defaultHost ≠ []) := by
  rw [HttpConnection.doRequest, HttpConnectionPool.doRequest, HttpConnectionPool.doRequestUrl,
    respectsCaller_fillRequest_iff uri.host headers body rfl,
    respectsCaller_fillRequest_iff pool.defaultHost headers body rfl]
  constructor
  · rintro ⟨-, ⟨hlast, hdefault, hclose⟩, -⟩
    exact ⟨fun hpass => Bool.false_ne_true (hclose hpass).1, hlast, hdefault⟩
  · rintro ⟨hclose, hlast, hdefault⟩
    exact ⟨⟨hlast, fun _ => h, fun hpass => absurd hpass hclose⟩,
      ⟨hlast, hdefault, fun hpass => absurd hpass hclose⟩,
      startLine_doRequest method uri pool headers body⟩

/-- A `Uri` with a host, and a pool for that host. -/
def hostUri : Uri := { Uri.new with host := ascii "a" }

/-- The pool. -/
def hostPool : HttpConnectionPool := ⟨ascii "a", []⟩

/-- A caller with a host of its own that asks to keep the connection. -/
def keepingHeaders : StringMap :=
  ⟨[(ascii "Connection", ascii "keep-alive"), (ascii "Host", ascii "b")],
    .cons (by simp; decide) (.cons (by simp) .nil)⟩

theorem respectsCaller_noHeaders :
    RespectsCaller hostUri.host keepingHeaders
        (HttpConnection.doRequest .get hostUri keepingHeaders []) ∧
      RespectsCaller hostPool.defaultHost keepingHeaders
        (hostPool.doRequest .get hostUri keepingHeaders []) ∧
      (HttpConnection.doRequest .get hostUri keepingHeaders []).startLine =
        (hostPool.doRequest .get hostUri keepingHeaders []).startLine :=
  (respectsCaller_iff .get hostUri hostPool keepingHeaders [] (by decide)).mpr
    ⟨by unfold StringMap.Passes; decide,
      fun _ => ⟨(ascii "Host", ascii "b"), rfl, by decide⟩, fun _ => by decide⟩

/-- A caller that asks to close the connection. -/
def closingHeaders : StringMap := ⟨[(ascii "Connection", ascii "close")], .cons (by simp) .nil⟩

/-- Two spellings of one name. -/
def twoHosts : StringMap :=
  ⟨[(ascii "Host", ascii "b"), (ascii "host", [])], .cons (by simp; decide) (.cons (by simp) .nil)⟩

/-- The pool announces to keep a connection that the caller wants closed, and an empty `host` takes
the place of a `Host` that is not. -/
theorem not_respectsCaller :
    ¬RespectsCaller hostPool.defaultHost closingHeaders
        (hostPool.doRequest .get hostUri closingHeaders []) ∧
      ¬RespectsCaller hostUri.host twoHosts (HttpConnection.doRequest .get hostUri twoHosts []) ∧
      ¬RespectsCaller hostPool.defaultHost twoHosts (hostPool.doRequest .get hostUri twoHosts []) := by
  have hmem : (ascii "Connection", ascii "close") ∈ closingHeaders.entries := List.mem_singleton_self _
  refine ⟨fun h => ?_, fun h => ?_, fun h => ?_⟩
  · have hclose := (announces_close_iff _).mp (h.close ⟨_, hmem, by decide, by decide⟩)
    exact absurd hclose (by decide)
  · obtain ⟨e, hfilter, hne, -⟩ := h.oneHost
    have hempty := (lookup_of_filter_isName hfilter).symm.trans
      (show _ = some [] by decide)
    exact hne (Option.some.inj hempty)
  · obtain ⟨e, hfilter, hne, -⟩ := h.oneHost
    have hempty := (lookup_of_filter_isName hfilter).symm.trans
      (show _ = some [] by decide)
    exact hne (Option.some.inj hempty)

end Respects

end Http

end Saturn
