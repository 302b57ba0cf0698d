import NanoProxy.HttpRequestParser
import NanoProxy.StbDsRuns

/-!
# The request parser and its header table (include/http.h, include/stb_ds.h)

`HttpRequestParser` keeps the headers in a map. In the source they are a table of stb_ds: its index
gets the seed of its time, and `shputs` may store a value under the key of another entry. The passes
over the request line and over the body do not touch the table and are those of
`HttpRequestParser`. `none` stands for a use of the uninitialised `temp_key`.
-/

namespace HeaderTable

open CLib StringBuffer HttpRequestParser StbDs

/-- `parser.req.headers` are the entries of the table. -/
structure TableParser where
  parser : HttpParser
  table : Table Bytes Bytes

def httpParserInit (fd : Nat) : TableParser := ⟨HttpRequestParser.httpParserInit fd, none⟩

def entries (table : Table Bytes Bytes) : Headers := (table.getD newHeader).entries

/-- `shgeti` followed by the access to the value. -/
def shget (table : Table Bytes Bytes) (key : Bytes) : Option (Table Bytes Bytes × Option Bytes) :=
  match hmgeti hashString table key with
  | none => none
  | some (table, i) =>
    some (table, if 0 ≤ i then ((entries table)[i.toNat]?).map Prod.snd else none)

/-- A pass of the `switch`, with the table that it leaves. -/
abbrev Pass := Option (Flow × Table Bytes Bytes)

/-- What follows the reading of the framing. -/
def enterBody (p : HttpParser) : Flow :=
  if 0 < p.contentLength ∨ p.chunked then
    let p := { p with state := .body }
    if p.streamingBody then .ret p 2 else .next p
  else .next { p with state := .done }

def feedEndOfHeaders (lim : Limits) (p : TableParser) (lineEnd : Nat) : Pass :=
  let q := { p.parser with pos := lineEnd + 1 }
  match shget p.table (ascii "content-length") with
  | none => none
  | some (table, some value) =>
    let cl := strtoull value 10
    if cl.erange ∨ cl.rest ≠ [] ∨ lim.maxBodySize < cl.value then some (parseError q, table)
    else some (enterBody { q with contentLength := cl.value, chunked := false }, table)
  | some (table, none) =>
    match shget table (ascii "transfer-encoding") with
    | none => none
    | some (table, some value) =>
      if strcaseeq value (ascii "chunked")
        then some (enterBody { q with chunked := true, contentLength := 0 }, table)
        else some (enterBody { q with contentLength := 0 }, table)
    | some (table, none) => some (enterBody { q with contentLength := 0 }, table)

/-- `shputs`, the check of the number of headers and the step behind the line. -/
def storeHeader (σ : UInt64) (lim : Limits) (p : TableParser) (lineEnd : Nat)
    (key value : Bytes) : Pass :=
  match shputs hashString σ p.table key value with
  | none => none
  | some table =>
    let q := { p.parser with req := { p.parser.req with headers := entries table } }
    if lim.maxHeaders < (entries table).length then some (parseError q, table)
    else some (.next { q with pos := lineEnd + 1 }, table)

def feedHeaderLine (σ : UInt64) (lim : Limits) (p : TableParser) : Pass :=
  let q := p.parser
  let buf := q.buffer.data
  match stringbufMemchr q.buffer LF q.pos with
  | none => some (.ret q 0, p.table)
  | some lineEnd =>
    let lineLen := lineEnd - q.pos
    if lim.maxHeaderLineSize < lineLen then some (parseError q, p.table) else
    let lineLen := chompedLength buf lineEnd lineLen
    if lineLen = 0 then feedEndOfHeaders lim p lineEnd else
    match stringbufMemchr q.buffer COLON q.pos with
    | none => some (parseError q, p.table)
    | some colon =>
      let nameStart := skipSpaces buf q.pos colon
      let nameEnd := dropSpaces buf nameStart colon
      let valueStart := skipSpaces buf (colon + 1) lineEnd
      let valueEnd := dropSpaces buf valueStart lineEnd
      let nameLen := nameEnd - nameStart
      if nameLen = 0 ∨ lim.maxHeaderNameSize < nameLen then some (parseError q, p.table) else
      let key := lower (strndup buf nameStart nameLen)
      let valueLen := usub valueEnd valueStart
      if lim.maxHeaderValueSize < valueLen then some (parseError q, p.table) else
      storeHeader σ lim p lineEnd key (strndup buf valueStart valueLen)

def feedPass (σ : UInt64) (lim : Limits) (buflen : Nat) (p : TableParser) : Pass :=
  match p.parser.state with
  | .requestLine => some (feedRequestLine lim p.parser, p.table)
  | .headers => feedHeaderLine σ lim p
  | _ => some (feedBody lim buflen p.parser, p.table)

def feedLoop (σ : UInt64) (lim : Limits) (buflen : Nat) :
    Nat → TableParser → Option (TableParser × Int)
  | 0, p => some (p, 0)
  | fuel + 1, p =>
    if p.parser.state ≠ .done ∧ p.parser.state ≠ .error ∧ p.parser.pos < buflen then
      match feedPass σ lim buflen p with
      | none => none
      | some (.ret q code, table) => some (⟨q, table⟩, code)
      | some (.next q, table) => feedLoop σ lim buflen fuel ⟨q, table⟩
    else some (p, match p.parser.state with
      | .done => 1
      | .error => -1
      | _ => 0)

def httpParserFeed (σ : UInt64) (lim : Limits) (p : TableParser) (data : Bytes) :
    Option (TableParser × Int) :=
  match stringbufAppend p.parser.buffer data with
  | none => some (⟨{ p.parser with state := .error }, p.table⟩, -1)
  | some buffer =>
    feedLoop σ lim buffer.size (buffer.size + 1) ⟨{ p.parser with buffer := buffer }, p.table⟩

/-- Feed the reads of a connection one after the other until the first return value that is
not 0. `σ` is the seed at the time of the first header. -/
def feedReads (σ : UInt64) (lim : Limits) (p : TableParser) :
    List Bytes → Option (TableParser × Int)
  | [] => some (p, 0)
  | data :: reads =>
    match httpParserFeed σ lim p data with
    | none => none
    | some (p, 0) => feedReads σ lim p reads
    | some result => some result

/-- The calls of `shputs` for the fields of a request. -/
def puts (σ : UInt64) (fields : Headers) : List (UInt64 × Bytes × Bytes) :=
  fields.map fun h => (σ, h.1, h.2)

/-- Every `shputs` of these fields stores the key that it is given. -/
def Keeps (σ : UInt64) (fields : Headers) : Prop := keepsKeys hashString none (puts σ fields) = true

instance (σ : UInt64) (fields : Headers) : Decidable (Keeps σ fields) :=
  inferInstanceAs (Decidable (_ = true))

variable {σ : UInt64} {table : Table Bytes Bytes} {fields more : Headers}

/-- Where no name is repeated, every seed will do. -/
theorem keeps_distinct (distinct : (fields.map Prod.fst).Nodup) : Keeps σ fields := by
  refine keepsKeys_distinct sane_newHeader ?_
  rw [puts, List.map_map]
  exact distinct

theorem Keeps.append_left (keeps : Keeps σ (fields ++ more)) : Keeps σ fields := by
  rw [Keeps, puts, List.map_append] at keeps
  exact (keepsKeys_append keeps).1

theorem shputs_eq_put (hs : Headers) (key value : Bytes) :
    HttpRequestParser.shputs hs key value = StringMap.put key value hs := by
  induction hs with
  | nil => rfl
  | cons h hs ih =>
    obtain ⟨k, v⟩ := h
    rw [HttpRequestParser.shputs, StringMap.put, ih]

theorem shget_eq_get (hs : Headers) (key : Bytes) :
    HttpRequestParser.shget hs key = StringMap.get key hs := by
  rw [HttpRequestParser.shget, StringMap.get]
  congr 2
  funext h
  exact beq_eq_decide h.1 key

/-- In a table with its keys the search finds what the map holds. -/
theorem shget_sane (sane : (table.getD newHeader).Sane hashString) (key : Bytes) :
    shget table key =
      some (some (table.getD newHeader), HttpRequestParser.shget (entries table) key) := by
  cases table with
  | none => rfl
  | some h =>
    have known : hmgeti hashString (some h) key = _ := hmgeti_spec sane key
    rw [shget, known, shget_eq_get, StringMap.get_eq_findIdx?]
    dsimp only [entries, Option.getD_some]
    cases h.entries.findIdx? (·.1 = key) with
    | none => rfl
    | some i =>
      rw [Option.elim_some, if_pos (show 0 ≤ Int.ofNat i from Int.natCast_nonneg i),
        Option.bind_some]
      rfl

end HeaderTable
