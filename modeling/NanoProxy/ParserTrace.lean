import NanoProxy.HttpRequestParser
import NanoProxy.Lib.Traced

/-!
# http_parser_feed with its size_t arithmetic (include/http.h)

The passes of the parser once more, with an event for each subtraction that could wrap, each
byte of the scratch buffer of the chunk-size line, each header name that is copied, and each
use of `buf` and `buflen`. These are read once for a call of `http_parser_feed`; `shifted`
tells whether `stringbuf_consume` has moved the buffer since then.
-/

namespace ParserTrace

open CLib StringBuffer HttpRequestParser Traced Traced.Run

inductive Event where
  /-- `line_len--` -/
  | decrement (lineLen : Nat)
  /-- `parser->content_length - parser->req.body_len` -/
  | remaining (contentLength bodyLen : Nat)
  /-- `buflen - parser->pos` -/
  | avail (buflen pos : Nat)
  /-- `MAX_BODY_SIZE - n` -/
  | bodyRoom (n : Nat)
  /-- a write to `line[i]` -/
  | scratch (i : Nat)
  | cached (shifted : Bool)
  /-- the bytes from `name_start` to `name_end` -/
  | headerName (name : Bytes)
  deriving DecidableEq

def useBuf (shifted : Bool) : Run Event Unit := step (.cached shifted) ()

def chompedLength (shifted : Bool) (buf : Bytes) (lineEnd lineLen : Nat) : Run Event Nat :=
  if lineEnd = 0 then pure lineLen else do
  useBuf shifted
  if buf[lineEnd - 1]? = some CR then step (.decrement lineLen) (usub lineLen 1) else pure lineLen

def feedRequestLine (lim : Limits) (shifted : Bool) (p : HttpParser) : Run Event Flow :=
  let buf := p.buffer.data
  match stringbufMemchr p.buffer LF p.pos with
  | none => pure (.ret p 0)
  | some lineEnd =>
    let lineLen := lineEnd - p.pos
    if lim.maxHeaderLineSize < lineLen then pure (parseError p) else do
    useBuf shifted
    let lineLen ← chompedLength shifted buf lineEnd lineLen
    match stringbufFind p.buffer p.pos [SP] with
    | none => pure (parseError p)
    | some space1 =>
      let methodLen := space1 - p.pos
      if methodLen = 0 ∨ lim.maxMethodSize < methodLen then pure (parseError p) else do
      useBuf shifted
      let p := { p with req := { p.req with method := some (strndup buf p.pos methodLen) } }
      match stringbufFind p.buffer (space1 + 1) [SP] with
      | none => pure (parseError p)
      | some space2 =>
        let uriLen := space2 - (space1 + 1)
        if uriLen = 0 ∨ lim.maxUrlSize < uriLen then pure (parseError p) else do
        useBuf shifted
        let p := { p with req := { p.req with uri := some (strndup buf (space1 + 1) uriLen) } }
        let versionLen := usub (p.pos + lineLen) (space2 + 1)
        if versionLen = 0 ∨ lim.maxHttpVersionSize < versionLen then pure (parseError p) else do
        useBuf shifted
        pure (.next { p with
          req := { p.req with version := some (strndup buf (space2 + 1) versionLen) }
          pos := lineEnd + 1
          state := .headers })

def feedHeaderLine (lim : Limits) (shifted : Bool) (p : HttpParser) : Run Event Flow :=
  let buf := p.buffer.data
  match stringbufMemchr p.buffer LF p.pos with
  | none => pure (.ret p 0)
  | some lineEnd =>
    let lineLen := lineEnd - p.pos
    if lim.maxHeaderLineSize < lineLen then pure (parseError p) else do
    useBuf shifted
    let lineLen ← chompedLength shifted buf lineEnd lineLen
    if lineLen = 0 then pure (feedEndOfHeaders lim p lineEnd) else
    match stringbufMemchr p.buffer COLON p.pos with
    | none => pure (parseError p)
    | some colon => do
      useBuf shifted
      let nameStart := skipSpaces buf p.pos colon
      let nameEnd := dropSpaces buf nameStart colon
      let valueStart := skipSpaces buf (colon + 1) lineEnd
      let valueEnd := dropSpaces buf valueStart lineEnd
      let nameLen := nameEnd - nameStart
      if nameLen = 0 ∨ lim.maxHeaderNameSize < nameLen then pure (parseError p) else do
      useBuf shifted
      let key ← step (.headerName ((buf.drop nameStart).take nameLen))
        (lower (strndup buf nameStart nameLen))
      let valueLen := usub valueEnd valueStart
      if lim.maxHeaderValueSize < valueLen then pure (parseError p) else do
      useBuf shifted
      let value := strndup buf valueStart valueLen
      let p := { p with req := { p.req with headers := shputs p.req.headers key value } }
      if lim.maxHeaders < p.req.headers.length then pure (parseError p) else
      pure (.next { p with pos := lineEnd + 1 })

def feedCountedBody (lim : Limits) (shifted : Bool) (buflen : Nat) (p : HttpParser) :
    Run Event Flow := do
  let remaining ← step (.remaining p.contentLength p.req.body.length)
    (p.contentLength - p.req.body.length)
  useBuf shifted
  let avail ← step (.avail buflen p.pos) (buflen - p.pos)
  if avail = 0 then pure (.ret p 0) else
  let consume := if remaining < avail then remaining else avail
  if lim.maxBodySize < consume then pure (parseError p) else do
  let room ← step (.bodyRoom consume) (lim.maxBodySize - consume)
  if room < p.req.body.length then pure (parseError p) else do
  useBuf shifted
  let p := { p with
    req := { p.req with body := p.req.body ++ (p.buffer.data.drop p.pos).take consume }
    pos := p.pos + consume }
  pure (.next (if p.req.body.length = p.contentLength then { p with state := .done } else p))

/-- The writes to `line`, with the NUL. -/
def copyLine : (left i : Nat) → Run Event Unit
  | 0, i => step (.scratch i) ()
  | left + 1, i => do
    step (.scratch i) ()
    copyLine left (i + 1)

def feedChunkSize (lim : Limits) (shifted : Bool) (p : HttpParser) : Run Event Flow :=
  let buf := p.buffer.data
  match stringbufMemchr p.buffer LF p.pos with
  | none => pure (.ret p 0)
  | some lineEnd => do
    let lineLen ← chompedLength shifted buf lineEnd (lineEnd - p.pos)
    if lineLen = 0 ∨ 32 ≤ lineLen then pure (parseError p) else do
    useBuf shifted
    copyLine lineLen 0
    let line := ((buf.drop p.pos).take lineLen).takeWhile (· != 0)
    let line := line.takeWhile (· != SEMI)
    if line.any fun b => !isxdigit b then pure (parseError p) else
    let size := strtoull line 16
    if size.erange ∨ size.rest ≠ [] ∨ lim.maxChunkSize < size.value then pure (parseError p) else do
    let room ← step (.bodyRoom size.value) (lim.maxBodySize - size.value)
    if room < p.req.body.length then pure (parseError p) else
    let p := { p with contentLength := size.value, pos := lineEnd + 1 }
    pure (.next (if p.contentLength = 0 then { p with state := .done } else p))

def feedChunkData (shifted : Bool) (buflen : Nat) (p : HttpParser) : Run Event Flow := do
  let buf := p.buffer.data
  useBuf shifted
  let avail ← step (.avail buflen p.pos) (buflen - p.pos)
  if avail < p.contentLength + 2 then pure (.ret p 0) else do
  useBuf shifted
  if (buf.drop (p.pos + p.contentLength)).take 2 ≠ CRLF then pure (parseError p) else do
  let toCopy := if p.contentLength < avail - 2 then p.contentLength else avail - 2
  useBuf shifted
  pure (.next { p with
    req := { p.req with body := p.req.body ++ (buf.drop p.pos).take toCopy }
    pos := p.pos + toCopy + 2
    contentLength := 0 })

def feedChunks (lim : Limits) (shifted : Bool) (buflen : Nat) : Nat → HttpParser → Run Event Flow
  | 0, _ => outOfFuel
  | fuel + 1, p => do
    useBuf shifted
    if p.pos < buflen then do
      match ← (if p.contentLength = 0 then feedChunkSize lim shifted p
          else feedChunkData shifted buflen p) with
      | .ret p code => pure (.ret p code)
      | .next p =>
        if p.state = .done then pure (.next p) else feedChunks lim shifted buflen fuel p
    else pure (.next p)

/-- With the pass, whether the buffer has been shifted. -/
def feedBody (lim : Limits) (shifted : Bool) (buflen : Nat) (p : HttpParser) :
    Run Event (Flow × Bool) := do
  match ← (if !p.chunked then feedCountedBody lim shifted buflen p
      else feedChunks lim shifted buflen (buflen + 1) p) with
  | .ret p code => pure (.ret p code, shifted)
  | .next p =>
    if p.pos = 0 then pure (.next p, shifted) else do
    useBuf shifted
    if p.pos < buflen then
      pure (.next { p with buffer := stringbufConsume p.buffer p.pos, pos := 0 }, true)
    else pure (.next p, shifted)

def pass (lim : Limits) (shifted : Bool) (buflen : Nat) (p : HttpParser) :
    Run Event (Flow × Bool) :=
  match p.state with
  | .requestLine => do
    let flow ← feedRequestLine lim shifted p
    pure (flow, shifted)
  | .headers => do
    let flow ← feedHeaderLine lim shifted p
    pure (flow, shifted)
  | _ => feedBody lim shifted buflen p

/-- `buflen` is looked at only while the message is neither done nor refused. -/
def feedLoop (lim : Limits) (buflen : Nat) : Nat → Bool → HttpParser → Run Event (HttpParser × Int)
  | 0, _, _ => outOfFuel
  | fuel + 1, shifted, p =>
    match p.state with
    | .done => pure (p, 1)
    | .error => pure (p, -1)
    | _ => do
      useBuf shifted
      if p.pos < buflen then do
        match ← pass lim shifted buflen p with
        | (.ret p code, _) => pure (p, code)
        | (.next p, shifted) => feedLoop lim buflen fuel shifted p
      else pure (p, 0)

def httpParserFeed (lim : Limits) (p : HttpParser) (data : Bytes) :
    Run Event (HttpParser × Int) :=
  match stringbufAppend p.buffer data with
  | none => pure ({ p with state := .error }, -1)
  | some buffer =>
    let p := { p with buffer := buffer }
    feedLoop lim p.buffer.size (p.buffer.size + 2) false p

/-- Reads one after the other, whatever the parser returns. -/
def feedAll (lim : Limits) (p : HttpParser) : List Bytes → Run Event HttpParser
  | [] => pure p
  | data :: reads => do
    let (p, _) ← httpParserFeed lim p data
    feedAll lim p reads

end ParserTrace
