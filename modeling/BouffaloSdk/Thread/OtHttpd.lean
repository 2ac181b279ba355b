import BouffaloSdk.Kit.Search

/-!
# The parser of the REST server

`http_parse_request`, `http_recv` and `http_eof` of
`components/wireless/thread/openthread_rest/openthread_httpd.c`. A pointer into the buffer is the
rest of the buffer from it on, which ends before the terminator; the distance of two pointers is
the difference of their lengths.
-/

namespace BouffaloSdk.OtHttpd

open Kit.Search

abbrev Bytes := List UInt8

def ascii (s : String) : Bytes := s.toList.map fun c => c.toNat.toUInt8

def crlf : Bytes := [13, 10]
def minReqLen : Nat := 7
def httpContentLen : Bytes := ascii "Content-Length: "
def httpHdrAcceptJson : Bytes := ascii "Accept: application/json"
def httpHdrAcceptTxt : Bytes := ascii "Accept: text/plain"
def http11ConnectionKeepalive : Bytes := ascii "Connection: keep-alive"
def http11ConnectionKeepalive2 : Bytes := ascii "Connection: Keep-Alive"

inductive HttpMethod where
  | get
  | put
  | delete
  deriving DecidableEq

def HttpMethod.name : HttpMethod → Bytes
  | .get => ascii "GET"
  | .put => ascii "PUT"
  | .delete => ascii "DELETE"

def httpMethodList : List HttpMethod := [.get, .put, .delete]

inductive HttpAccept where
  | txt
  | json
  deriving DecidableEq

inductive RespState where
  | badRequest
  | internalServerError
  | notImplemented
  deriving DecidableEq

/-- A call of `openthread_rest_request`. -/
structure RestRequest where
  method : HttpMethod
  accept : HttpAccept
  uri : Bytes
  body : Option Bytes
  deriving DecidableEq

/-- What the call makes: a response, true without one, or false. -/
inductive Served where
  | response
  | nothing
  | failed
  deriving DecidableEq

def lwipStrnstr (buffer token : Bytes) (n : Nat) : Option Bytes := search 0 token buffer n

/-- What a pointer shows as a string. -/
def cString (p : Bytes) : Bytes := p.takeWhile (· ≠ 0)

def isDigit (b : UInt8) : Bool := 48 ≤ b ∧ b ≤ 57
def isSpace (b : UInt8) : Bool := b = 32 ∨ (9 ≤ b ∧ b ≤ 13)

def decimal (digits : Bytes) : Nat := digits.foldl (fun n d => 10 * n + (d.toNat - 48)) 0

def atoi (s : Bytes) : Int :=
  match s.dropWhile isSpace with
  | 45 :: t => -(decimal (t.takeWhile isDigit) : Int)
  | 43 :: t => decimal (t.takeWhile isDigit)
  | t => decimal (t.takeWhile isDigit)

/-! ## The length of the body -/

/-- The distance from a pointer to the end of the head, with its first line break. -/
def toHeaderEnd (p headerEnd : Bytes) : Nat := p.length + 2 - headerEnd.length

/-- The loop that looks for lengths: the last one counts. -/
def contentLength (headerEnd : Bytes) : (fuel : Nat) → (sp1 : Bytes) → (bodyLen : UInt32) →
    Except RespState UInt32
  | 0, _, bodyLen => .ok bodyLen
  | fuel + 1, sp1, bodyLen =>
    match lwipStrnstr sp1 httpContentLen (toHeaderEnd sp1 headerEnd) with
    | none => .ok bodyLen
    | some found =>
      let value := found.drop httpContentLen.length
      match lwipStrnstr value crlf (toHeaderEnd value headerEnd) with
      | none => .error .badRequest
      | some sp2 =>
        if value.length - sp2.length < 8 then
          contentLength headerEnd fuel (sp2.drop 2)
            (UInt32.ofInt (atoi (value.take (value.length - sp2.length))))
        else .error .badRequest

/-! ## The request line -/

/-- What the loop over the lines keeps; `sp1` is left by the last line. -/
structure LineState where
  method : Option HttpMethod
  uri : Option Bytes
  httpHeaderStart : Option Nat
  sp1 : Option Bytes
  deriving DecidableEq

def lineStart : LineState := ⟨none, none, none, none⟩

/-- One line, at the end of which a zero stands by now, and what comes after it. Gives the line
as it is left. -/
def parseLine (line after : Bytes) (st : LineState) : LineState × Bytes :=
  let ptr := line ++ 0 :: after
  match lwipStrnstr ptr [32] line.length with
  | none => ({ st with sp1 := none }, line)
  | some sp1 =>
    let method := (httpMethodList.find? fun m => m.name.isPrefixOf ptr).or st.method
    let uri := sp1.drop 1
    if uri.head? = some 47 then
      let toEnd := uri.length - (0 :: after).length
      let sp1 := (lwipStrnstr uri [32] toEnd).getD (0 :: after)
      let uriLen := uri.length - sp1.length
      if 1 < uriLen then
        ({ method
           uri := some (cString (uri.take uriLen))
           httpHeaderStart := if method.isSome then some (after.length - 1) else st.httpHeaderStart
           sp1 := some (0 :: sp1.drop 1) },
          line.set (ptr.length - sp1.length) 0)
      else ({ st with method, uri := none, sp1 := some sp1 }, line)
    else ({ st with method, sp1 := some sp1 }, line)

/-- The loop over the lines of the head, with the buffer as it is left. -/
def parseLines (headerEnd : Bytes) : (fuel : Nat) → (ptr : Bytes) → LineState →
    Except RespState (LineState × Bytes)
  | 0, _, _ => .error .badRequest
  | fuel + 1, ptr, st =>
    match lwipStrnstr ptr crlf (toHeaderEnd ptr headerEnd) with
    | none => .error .badRequest
    | some sp2 =>
      let (st, line) := parseLine (ptr.take (ptr.length - sp2.length)) (sp2.drop 1) st
      if headerEnd.length < (sp2.drop 2).length then
        match parseLines headerEnd fuel (sp2.drop 2) st with
        | .error e => .error e
        | .ok (st, rest) => .ok (st, line ++ 0 :: 10 :: rest)
      else .ok (st, line ++ 0 :: sp2.drop 1)

/-! ## The other lines -/

/-- The loop over the strings of the head. Without `sp1` the search reads from NULL. -/
def parseHeaders (headerEnd : Bytes) (sp1 : Option Bytes) : (fuel : Nat) → (ptr : Bytes) →
    (keepalive : Bool) → HttpAccept → Option (Bool × HttpAccept)
  | 0, _, keepalive, accept => some (keepalive, accept)
  | fuel + 1, ptr, _, accept =>
    let lineLen := (cString ptr).length
    let keepalive := (lwipStrnstr ptr http11ConnectionKeepalive lineLen).isSome ∨
      (lwipStrnstr ptr http11ConnectionKeepalive2 lineLen).isSome
    let accept :=
      if (lwipStrnstr ptr httpHdrAcceptJson lineLen).isSome then some .json
      else sp1.map fun sp1 =>
        if (lwipStrnstr sp1 httpHdrAcceptTxt lineLen).isSome then .txt else accept
    match accept with
    | none => none
    | some accept =>
      if headerEnd.length < (ptr.drop (lineLen + 2)).length then
        parseHeaders headerEnd sp1 fuel (ptr.drop (lineLen + 2)) keepalive accept
      else some (keepalive, accept)

/-! ## The whole buffer -/

/-- What the buffer is found to hold. -/
inductive Parsed where
  | request (call : RestRequest) (reqLen : UInt16) (keepalive : Bool)
  | inProgress (reqLen : UInt16)
  | error (state : RespState)
  | nullRead
  deriving DecidableEq

/-- Without the end of the head the error state is still a bad request. -/
def parseBuffer (data : Bytes) : Parsed :=
  if data.length < minReqLen then .error .badRequest
  else match lwipStrnstr data (crlf ++ crlf) data.length with
    | none => .error .badRequest
    | some headerEnd =>
      match contentLength headerEnd data.length (data.drop 2) 0 with
      | .error e => .error e
      | .ok bodyLen =>
        let reqLen := UInt16.ofNat (bodyLen.toNat + (data.length - headerEnd.length) + 4)
        if data.length < reqLen.toNat then .inProgress reqLen
        else match parseLines headerEnd data.length data lineStart with
          | .error e => .error e
          | .ok (st, buffer) =>
            match st.uri, st.httpHeaderStart, st.method with
            | some uri, some headerStart, some method =>
              match parseHeaders headerEnd st.sp1 data.length
                  (buffer.drop (buffer.length - headerStart)) false .json with
              | none => .nullRead
              | some (keepalive, accept) =>
                .request
                  { method
                    accept
                    uri
                    body := if bodyLen = 0 then none else some (cString (headerEnd.drop 4)) }
                  reqLen keepalive
            | some _, some _, none => .error .notImplemented
            | _, _, _ => .error .badRequest

/-! ## The connection -/

/-- The state of a connection: the chain of buffers, empty for NULL, whether a response is being
sent, and whether its text is there. -/
structure HttpState where
  req : List Bytes
  reqLen : UInt16
  keepalive : Bool
  handle : Bool
  fileData : Bool
  deriving DecidableEq

def httpStateInit : HttpState := ⟨[], 0, false, false, false⟩

/-- `err_t`; `http_init_error_file` gives 1 where it has made a response. -/
inductive Err where
  | ok
  | inProgress
  | use
  | one
  deriving DecidableEq

/-- The loop that takes a request from the chain. A buffer that is freed does not count, and the
move takes as many bytes as the request had. -/
def consume (reqLen : Nat) : List Bytes → List Bytes
  | [] => []
  | p :: chain =>
    if reqLen < p.length then
      (((p.drop reqLen).take reqLen ++ p.drop reqLen).take (p.length - reqLen)) :: chain
    else consume reqLen chain

/-- `http_parse_request`, with the call it makes. Nothing is left of a NULL that is read. -/
def httpParseRequest (served : Served) (inp : List Bytes) (hs : HttpState) :
    Option (HttpState × Err × Option RestRequest) :=
  if hs.handle then
    -- a chain is not put behind NULL
    some ({ hs with req := if hs.req = [] then [] else hs.req ++ inp }, .use, none)
  else
    let hs := { hs with req := hs.req ++ inp }
    match parseBuffer hs.req.flatten with
    | .nullRead => none
    | .inProgress reqLen => some ({ hs with reqLen }, .inProgress, none)
    | .error _ => some ({ hs with req := [], fileData := true }, .one, none)
    | .request call reqLen keepalive =>
      let hs := { hs with reqLen, keepalive }
      if served = .failed then some ({ hs with req := [], fileData := true }, .one, some call)
      else
        some ({ hs with
          req := consume reqLen.toNat hs.req
          handle := true
          fileData := hs.fileData ∨ served = .response }, .ok, some call)

/-- `http_recv`: while a response is being sent what comes is freed. -/
def httpRecv (served : Served) (inp : List Bytes) (hs : HttpState) :
    Option (HttpState × Err × Option RestRequest) :=
  if hs.handle then some (hs, .use, none) else httpParseRequest served inp hs

/-- `http_eof`, once the response is sent: the state of the connection, unless it is closed. -/
def httpEof (served : Served) (hs : HttpState) :
    Option (Option HttpState × Option RestRequest) :=
  let parsed :=
    if hs.fileData ∧ hs.req ≠ [] then
      (httpParseRequest served [] { hs with fileData := false }).map fun result =>
        ({ result.1 with keepalive := true }, result.2.2)
    else some ({ hs with fileData := false }, none)
  parsed.map fun (hs, call) =>
    (if hs.keepalive then some { httpStateInit with keepalive := true } else none, call)

end BouffaloSdk.OtHttpd
