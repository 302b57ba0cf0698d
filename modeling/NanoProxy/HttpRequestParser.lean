import NanoProxy.StringBuffer

/-!
# The HTTP request parser (include/http.h)

`httpParserFeed` follows the source state by state. Searches run over the whole
buffer, as in the source, and the two lengths that can wrap are computed with
`usub`. `PARSE_ERROR` is `parseError`. The limits are a parameter because the
build may override them; `Limits.default` holds the values of the header.

The header table is a clean map here. The one of stb_ds.h can rename an entry when
a known key is put again (`StbDsRuns.shputs_exact`); the parser over that table is
`HeaderTable`, and `KeptHeaders.feedReads_kept` says when the two agree.
-/

namespace HttpRequestParser

open CLib StringBuffer

structure Limits where
  maxHeaders : Nat
  maxBodySize : Nat
  maxChunkSize : Nat
  maxUrlSize : Nat
  maxMethodSize : Nat
  maxHttpVersionSize : Nat
  maxHeaderNameSize : Nat
  maxHeaderValueSize : Nat
  maxHeaderLineSize : Nat

def Limits.default : Limits where
  maxHeaders := 128
  maxBodySize := 64 * 2 ^ 20
  maxChunkSize := 2 ^ 20
  maxUrlSize := 4096
  maxMethodSize := 16
  maxHttpVersionSize := 8
  maxHeaderNameSize := 256
  maxHeaderValueSize := 4096
  maxHeaderLineSize := 8192

/-- The entries of a table that keeps its keys: in insertion order, one per key. -/
abbrev Headers := List (Bytes × Bytes)

/-- `shputs` as far as the table keeps its keys: an entry of the same key keeps
its place and gets the new value. -/
def shputs : Headers → Bytes → Bytes → Headers
  | [], key, value => [(key, value)]
  | (k, v) :: rest, key, value =>
    if k = key then (k, value) :: rest else (k, v) :: shputs rest key value

/-- `shgeti` followed by the access to the value. -/
def shget (hs : Headers) (key : Bytes) : Option Bytes :=
  (hs.find? fun h => h.1 == key).map Prod.snd

/-- `method`, `uri` and `version` are `none` while their pointers are NULL. -/
structure HttpRequest where
  method : Option Bytes
  uri : Option Bytes
  version : Option Bytes
  headers : Headers
  body : Bytes
  deriving DecidableEq

inductive HttpParserState where
  | requestLine
  | headers
  | body
  | done
  | error
  deriving DecidableEq

structure HttpParser where
  state : HttpParserState
  buffer : StringBuf
  pos : Nat
  req : HttpRequest
  contentLength : Nat
  chunked : Bool
  streamingBody : Bool
  fd : Nat
  deriving DecidableEq

def HttpRequest.empty : HttpRequest where
  method := none
  uri := none
  version := none
  headers := []
  body := []

def httpParserInit (fd : Nat) : HttpParser where
  state := .requestLine
  buffer := stringbufInit 0
  pos := 0
  req := .empty
  contentLength := 0
  chunked := false
  streamingBody := false
  fd := fd

def httpParserReset (p : HttpParser) : HttpParser := httpParserInit p.fd

/-- One pass through the `switch`: go round the loop again, or return. -/
inductive Flow where
  | next (p : HttpParser)
  | ret (p : HttpParser) (code : Int)

def parseError (p : HttpParser) : Flow := .ret { p with state := .error } (-1)

/-- `line_len` after `if (line_end_pos > 0 && buf[line_end_pos - 1] == '\r') line_len--;` -/
def chompedLength (buf : Bytes) (lineEnd lineLen : Nat) : Nat :=
  if 0 < lineEnd ∧ buf[lineEnd - 1]? = some CR then usub lineLen 1 else lineLen

def feedRequestLine (lim : Limits) (p : HttpParser) : Flow :=
  let buf := p.buffer.data
  match stringbufMemchr p.buffer LF p.pos with
  | none => .ret p 0
  | some lineEnd =>
    let lineLen := lineEnd - p.pos
    if lim.maxHeaderLineSize < lineLen then parseError p else
    let lineLen := chompedLength buf lineEnd lineLen
    match stringbufFind p.buffer p.pos [SP] with
    | none => parseError p
    | some space1 =>
      let methodLen := space1 - p.pos
      if methodLen = 0 ∨ lim.maxMethodSize < methodLen then parseError p else
      let p := { p with req := { p.req with method := some (strndup buf p.pos methodLen) } }
      match stringbufFind p.buffer (space1 + 1) [SP] with
      | none => parseError p
      | some space2 =>
        let uriLen := space2 - (space1 + 1)
        if uriLen = 0 ∨ lim.maxUrlSize < uriLen then parseError p else
        let p := { p with req := { p.req with uri := some (strndup buf (space1 + 1) uriLen) } }
        let versionLen := usub (p.pos + lineLen) (space2 + 1)
        if versionLen = 0 ∨ lim.maxHttpVersionSize < versionLen then parseError p else
        .next { p with
          req := { p.req with version := some (strndup buf (space2 + 1) versionLen) }
          pos := lineEnd + 1
          state := .headers }

/-- The blank line: the framing of the body is read from the header table. -/
def feedEndOfHeaders (lim : Limits) (p : HttpParser) (lineEnd : Nat) : Flow :=
  let p := { p with pos := lineEnd + 1 }
  let framed : Option HttpParser :=
    match shget p.req.headers (ascii "content-length") with
    | some value =>
      let cl := strtoull value 10
      if cl.erange ∨ cl.rest ≠ [] ∨ lim.maxBodySize < cl.value then none
      else some { p with contentLength := cl.value, chunked := false }
    | none =>
      match shget p.req.headers (ascii "transfer-encoding") with
      | some value =>
        if strcaseeq value (ascii "chunked")
          then some { p with chunked := true, contentLength := 0 }
          else some { p with contentLength := 0 }
      | none => some { p with contentLength := 0 }
  match framed with
  | none => parseError p
  | some p =>
    if 0 < p.contentLength ∨ p.chunked then
      let p := { p with state := .body }
      if p.streamingBody then .ret p 2 else .next p
    else .next { p with state := .done }

def feedHeaderLine (lim : Limits) (p : HttpParser) : Flow :=
  let buf := p.buffer.data
  match stringbufMemchr p.buffer LF p.pos with
  | none => .ret p 0
  | some lineEnd =>
    let lineLen := lineEnd - p.pos
    if lim.maxHeaderLineSize < lineLen then parseError p else
    let lineLen := chompedLength buf lineEnd lineLen
    if lineLen = 0 then feedEndOfHeaders lim p lineEnd else
    match stringbufMemchr p.buffer COLON p.pos with
    | none => parseError p
    | some colon =>
      let nameStart := skipSpaces buf p.pos colon
      let nameEnd := dropSpaces buf nameStart colon
      let valueStart := skipSpaces buf (colon + 1) lineEnd
      let valueEnd := dropSpaces buf valueStart lineEnd
      let nameLen := nameEnd - nameStart
      if nameLen = 0 ∨ lim.maxHeaderNameSize < nameLen then parseError p else
      let key := lower (strndup buf nameStart nameLen)
      let valueLen := usub valueEnd valueStart
      if lim.maxHeaderValueSize < valueLen then parseError p else
      let value := strndup buf valueStart valueLen
      let p := { p with req := { p.req with headers := shputs p.req.headers key value } }
      if lim.maxHeaders < p.req.headers.length then parseError p else
      .next { p with pos := lineEnd + 1 }

def feedCountedBody (lim : Limits) (buflen : Nat) (p : HttpParser) : Flow :=
  let remaining := p.contentLength - p.req.body.length
  let avail := buflen - p.pos
  if avail = 0 then .ret p 0 else
  let consume := if remaining < avail then remaining else avail
  if lim.maxBodySize < consume ∨ lim.maxBodySize - consume < p.req.body.length then
    parseError p else
  let p := { p with
    req := { p.req with body := p.req.body ++ (p.buffer.data.drop p.pos).take consume }
    pos := p.pos + consume }
  .next (if p.req.body.length = p.contentLength then { p with state := .done } else p)

/-- The chunk-size line: hex digits up to an optional extension, in at most 31 bytes. -/
def feedChunkSize (lim : Limits) (p : HttpParser) : Flow :=
  let buf := p.buffer.data
  match stringbufMemchr p.buffer LF p.pos with
  | none => .ret p 0
  | some lineEnd =>
    let lineLen := chompedLength buf lineEnd (lineEnd - p.pos)
    if lineLen = 0 ∨ 32 ≤ lineLen then parseError p else
    let line := ((buf.drop p.pos).take lineLen).takeWhile (· != 0)
    let line := line.takeWhile (· != SEMI)
    if line.any fun b => !isxdigit b then parseError p else
    let size := strtoull line 16
    if size.erange ∨ size.rest ≠ [] ∨ lim.maxChunkSize < size.value ∨
        lim.maxBodySize - size.value < p.req.body.length then parseError p else
    let p := { p with contentLength := size.value, pos := lineEnd + 1 }
    .next (if p.contentLength = 0 then { p with state := .done } else p)

def feedChunkData (buflen : Nat) (p : HttpParser) : Flow :=
  let buf := p.buffer.data
  let avail := buflen - p.pos
  if avail < p.contentLength + 2 then .ret p 0 else
  if (buf.drop (p.pos + p.contentLength)).take 2 ≠ CRLF then parseError p else
  let toCopy := if p.contentLength < avail - 2 then p.contentLength else avail - 2
  .next { p with
    req := { p.req with body := p.req.body ++ (buf.drop p.pos).take toCopy }
    pos := p.pos + toCopy + 2
    contentLength := 0 }

/-- The inner loop over chunks; it ends at the last chunk or with the buffer. -/
def feedChunks (lim : Limits) (buflen : Nat) : Nat → HttpParser → Flow
  | 0, p => .next p
  | fuel + 1, p =>
    if p.pos < buflen then
      match (if p.contentLength = 0 then feedChunkSize lim p else feedChunkData buflen p) with
      | .ret p code => .ret p code
      | .next p => if p.state = .done then .next p else feedChunks lim buflen fuel p
    else .next p

/-- `HP_BODY`, with the shift of what is left behind the body. -/
def feedBody (lim : Limits) (buflen : Nat) (p : HttpParser) : Flow :=
  match (if !p.chunked then feedCountedBody lim buflen p else feedChunks lim buflen buflen p) with
  | .ret p code => .ret p code
  | .next p =>
    if 0 < p.pos ∧ p.pos < buflen
      then .next { p with buffer := stringbufConsume p.buffer p.pos, pos := 0 }
      else .next p

def feedLoop (lim : Limits) (buflen : Nat) : Nat → HttpParser → HttpParser × Int
  | 0, p => (p, 0)
  | fuel + 1, p =>
    if p.state ≠ .done ∧ p.state ≠ .error ∧ p.pos < buflen then
      let flow := match p.state with
        | .requestLine => feedRequestLine lim p
        | .headers => feedHeaderLine lim p
        | _ => feedBody lim buflen p
      match flow with
      | .ret p code => (p, code)
      | .next p => feedLoop lim buflen fuel p
    else (p, match p.state with
      | .done => 1
      | .error => -1
      | _ => 0)

/-- Every pass of the loop consumes input or ends the message, so `buflen + 1`
rounds are enough (`ParserRefinement.feedLoop_sim`). -/
def httpParserFeed (lim : Limits) (p : HttpParser) (data : Bytes) : HttpParser × Int :=
  match stringbufAppend p.buffer data with
  | none => ({ p with state := .error }, -1)
  | some buffer =>
    let p := { p with buffer := buffer }
    feedLoop lim p.buffer.size (p.buffer.size + 1) p

def httpShouldKeepAlive (req : HttpRequest) : Bool :=
  let conn := shget req.headers (ascii "connection")
  if req.version = some (ascii "HTTP/1.1") then
    match conn with
    | some value => !strcaseeq value (ascii "close")
    | none => true
  else
    match conn with
    | some value => strcaseeq value (ascii "keep-alive")
    | none => false

/-- Feed the reads of a connection one after the other until the first return
value that is not 0. -/
def feedReads (lim : Limits) (p : HttpParser) : List Bytes → HttpParser × Int
  | [] => (p, 0)
  | data :: reads =>
    match httpParserFeed lim p data with
    | (p, 0) => feedReads lim p reads
    | result => result

end HttpRequestParser
