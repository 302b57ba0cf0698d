import NanoProxy.StringBuffer
import NanoProxy.JsonWriter

/-!
# The JSON nodes of the JIT backend (jit_backend/cejson.h, jit_backend/stringbuf.h)

A tree lies in one array: a node, then what is below it, with the keys of an object among its
children. A pointer to a node is its index, and `none` is NULL. `nodes` is the part of the array
that has been written, so that an index behind it is an invalid access, as is one through NULL;
a function that makes one gives `none`. Allocation succeeds.
-/

namespace CeJson

open CLib JsonGrammar JsonWriter
open StringBuffer (StringBuf SSIZE_MAX stringbufInit)

def STRINGBUF_MAX_CAP : Nat := 1024 * 1024

def stringbufReserve (sb : StringBuf) (need : Nat) : Option StringBuf :=
  if SSIZE_MAX - 1 < need then none
  else
    let need := need + 1
    if need ≤ sb.capacity then some sb
    else if !sb.owned then none
    else if SSIZE_MAX / 2 < sb.capacity then none
    else
      let newcap := sb.capacity * 2
      let newcap := if newcap < need then need else newcap
      let newcap := if newcap < 128 then 128 else newcap
      if STRINGBUF_MAX_CAP < newcap then none
      else some { sb with capacity := newcap }

/-- No caller looks at what the append functions return: a text that does not fit is left out. -/
def stringbufAppend (src : Bytes) (sb : StringBuf) : StringBuf :=
  if src.length = 0 then sb
  else if SSIZE_MAX - src.length < sb.size then sb
  else match stringbufReserve sb (sb.size + src.length) with
    | none => sb
    | some sb =>
      if sb.capacity ≤ sb.size + src.length then sb else { sb with data := sb.data ++ src }

def stringbufAppendChar (c : UInt8) (sb : StringBuf) : StringBuf :=
  match stringbufReserve sb (sb.size + 1) with
  | none => sb
  | some sb => { sb with data := sb.data ++ [c] }

/-- `stringbuf_appendf` with the text its format produces. -/
def stringbufAppendf (text : Bytes) (sb : StringBuf) : StringBuf :=
  if SSIZE_MAX - text.length < sb.size then sb
  else match stringbufReserve sb (sb.size + text.length) with
    | none => sb
    | some sb => { sb with data := sb.data ++ text }

inductive JsonType where
  | null
  | true
  | false
  | numberInt
  | numberFloat
  | string
  | array
  | object
  deriving DecidableEq

/-- `hash` has 28 bits, `offset`, `len` and `children` have 32. -/
structure JsonNode where
  type : JsonType
  hash : Nat := 0
  offset : Nat := 0
  len : Nat := 0
  children : Nat := 0
  strval : Option Bytes := none
  deriving DecidableEq

/-- What the builder and the dump use of the parser; its other fields belong to `json_feed`,
which the backend does not call. -/
structure JsonParser where
  bufLen : Nat := 0
  nodes : List JsonNode := []
  nodesCap : Nat
  nodesLen : Nat := 0
  skipStringHash : Bool := false
  deriving DecidableEq

def jsonInit (nodesCap : Nat) : JsonParser := { nodesCap := nodesCap }

/-- `nodes[nodes_len++] = node`; the index is counted even where the array is full. -/
def pushNode (node : JsonNode) (p : JsonParser) : Option Nat × JsonParser :=
  let idx := p.nodesLen
  if p.nodesCap ≤ idx then (none, { p with nodesLen := idx + 1 })
  else (some idx, { p with nodesLen := idx + 1, nodes := p.nodes ++ [node] })

def setNode (idx : Nat) (node : JsonNode) (p : JsonParser) : JsonParser :=
  { p with nodes := p.nodes.set idx node }

def JsonNode.isContainer (node : JsonNode) : Bool := node.type = .object || node.type = .array

def jsonNodeSpan (node : JsonNode) : Nat := if node.isContainer then 1 + node.hash else 1

def jsonFirstChild (p : JsonParser) (parent : Nat) : Option (Option Nat) :=
  p.nodes[parent]?.map fun node =>
    if !node.isContainer || node.children = 0 then none else some (parent + 1)

def jsonNextSibling (p : JsonParser) : Option Nat → Option (Option Nat)
  | none => some none
  | some idx => p.nodes[idx]?.map fun node =>
    let next := if node.isContainer then idx + 1 + node.hash else idx + 1
    if p.nodesLen ≤ next then none else some next

def jsonCreateNull (p : JsonParser) : Option Nat × JsonParser := pushNode { type := .null } p

def jsonCreateBool (value : Bool) (p : JsonParser) : Option Nat × JsonParser :=
  pushNode { type := if value then .true else .false } p

def jsonCreateInt (value : Int64) (p : JsonParser) : Option Nat × JsonParser :=
  let text := formatInt value
  pushNode { type := .numberInt, len := text.length, strval := some text } p

/-- `h = h * 33 ^ c` for every byte. -/
def hashBytes (h : UInt32) (str : Bytes) : UInt32 :=
  str.foldl (fun h c => h * 33 ^^^ c.toUInt32) h

/-- The bytes of a C string. -/
def cstring (s : Bytes) : Bytes := s.takeWhile (· != 0)

def jsonCreateString (s : Bytes) (p : JsonParser) : Option Nat × JsonParser :=
  let str := cstring s
  let h := if p.skipStringHash then 0 else hashBytes 0 str
  pushNode { type := .string, len := str.length % 2 ^ 32, hash := h.toNat % 2 ^ 28,
             strval := some str } p

def jsonCreateArray (p : JsonParser) : Option Nat × JsonParser := pushNode { type := .array } p

def jsonCreateObject (p : JsonParser) : Option Nat × JsonParser := pushNode { type := .object } p

/-- A container that gets a further child or pair of `span` nodes. -/
def JsonNode.grow (node : JsonNode) (span : Nat) : JsonNode :=
  { node with children := (node.children + 1) % 2 ^ 32, hash := (node.hash + span) % 2 ^ 28 }

def jsonArrayAppend (array element : Option Nat) (p : JsonParser) : Option JsonParser :=
  match array with
  | none => some p
  | some a => p.nodes[a]?.bind fun node =>
    if node.type ≠ .array then some p
    else element.bind fun e => p.nodes[e]?.map fun child =>
      setNode a (node.grow (jsonNodeSpan child)) p

def jsonObjectSet (obj key value : Option Nat) (p : JsonParser) : Option JsonParser :=
  match obj with
  | none => some p
  | some o => p.nodes[o]?.bind fun node =>
    if node.type ≠ .object then some p
    else match key with
      | none => some p
      | some k => p.nodes[k]?.bind fun keyNode =>
        if keyNode.type ≠ .string then some p
        else value.bind fun v => p.nodes[v]?.map fun valueNode =>
          setNode o (node.grow (jsonNodeSpan keyNode + jsonNodeSpan valueNode)) p

/-- No byte of the text has to be escaped. -/
def plain (c : UInt8) : Bool := !(c == 34 || c == 92 || c < 0x20)

/-- The fast path writes the whole string, with room made for it once. -/
def dumpPlain (s : Bytes) (sb : StringBuf) : StringBuf :=
  match stringbufReserve sb (sb.size + s.length + 2) with
  | none => sb
  | some sb => { sb with data := sb.data ++ (34 :: (s ++ [34])) }

/-- `s + run_start` up to here. -/
def flushRun (run : Bytes) (sb : StringBuf) : StringBuf :=
  if run = [] then sb else stringbufAppend run sb

def dumpEscape (c : UInt8) (sb : StringBuf) : Option StringBuf :=
  if c = 34 then some (stringbufAppend [92, 34] sb)
  else if c = 92 then some (stringbufAppend [92, 92] sb)
  else if c = 8 then some (stringbufAppend [92, 98] sb)
  else if c = 12 then some (stringbufAppend [92, 102] sb)
  else if c = 10 then some (stringbufAppend [92, 110] sb)
  else if c = 13 then some (stringbufAppend [92, 114] sb)
  else if c = 9 then some (stringbufAppend [92, 116] sb)
  else if c < 0x20 then some (stringbufAppendf (unicodeEscape c) sb)
  else none

/-- The loop over the bytes, with the run that has not been written yet. -/
def dumpRuns (run : Bytes) : Bytes → StringBuf → StringBuf
  | [], sb => flushRun run sb
  | c :: rest, sb =>
    match dumpEscape c (flushRun run sb) with
    | none => dumpRuns (run ++ [c]) rest sb
    | some sb => dumpRuns [] rest sb

def jsonDumpEscapeBuf (s : Bytes) (sb : StringBuf) : StringBuf :=
  if s.all plain then dumpPlain s sb
  else stringbufAppendChar 34 (dumpRuns [] s (stringbufAppendChar 34 sb))

/-- `n` spaces, 64 at a time. -/
def jsonDumpIndentBuf (n : Nat) (sb : StringBuf) : StringBuf :=
  if n = 0 then sb
  else jsonDumpIndentBuf (n - min n 64) (stringbufAppend (List.replicate (min n 64) SP) sb)
termination_by n

/-- The text of a leaf: what it was created with, or a part of the last buffer that was fed. -/
def sourceText (buffer : Bytes) (node : JsonNode) : Option Bytes :=
  match node.strval with
  | some s => some (s.take node.len)
  | none =>
    if buffer.length < node.offset + node.len then none
    else some ((buffer.drop node.offset).take node.len)

section Dump

variable (p : JsonParser) (buffer : Bytes) (pretty : Bool)

/-- A bracket or comma, and in pretty mode the end of the line. -/
def dumpMark (c : UInt8) (sb : StringBuf) : StringBuf :=
  stringbufAppend (if pretty then [c, LF] else [c]) sb

def dumpIndent (indent : Nat) (sb : StringBuf) : StringBuf :=
  if pretty then jsonDumpIndentBuf indent sb else sb

/-- The closing bracket. -/
def dumpClose (c : UInt8) (indent : Nat) (sb : StringBuf) : StringBuf :=
  stringbufAppendChar c
    (if pretty then jsonDumpIndentBuf indent (stringbufAppendChar LF sb) else sb)

/-- The loop over the elements, `n` of which are left. -/
def dumpElements (dump : Option Nat → StringBuf → Option StringBuf) (indent : Nat) :
    Nat → Option Nat → StringBuf → Option StringBuf
  | 0, _, sb => some sb
  | n + 1, child, sb =>
    (dump child (dumpIndent pretty (indent + 2) sb)).bind fun sb =>
    (jsonNextSibling p child).bind fun next =>
    dumpElements dump indent n next (if 0 < n then dumpMark pretty 44 sb else sb)

/-- The loop over the pairs. -/
def dumpPairs (dump : Option Nat → StringBuf → Option StringBuf) (indent : Nat) :
    Nat → Option Nat → StringBuf → Option StringBuf
  | 0, _, sb => some sb
  | n + 1, key, sb =>
    (jsonNextSibling p key).bind fun value =>
    (key.bind fun k => p.nodes[k]?).bind fun keyNode =>
    (sourceText buffer keyNode).bind fun text =>
    let sb := jsonDumpEscapeBuf text (dumpIndent pretty (indent + 2) sb)
    let sb := if pretty then stringbufAppend [58, SP] sb else stringbufAppendChar 58 sb
    (dump value sb).bind fun sb =>
    (jsonNextSibling p value).bind fun next =>
    dumpPairs dump indent n next (if 0 < n then dumpMark pretty 44 sb else sb)

/-- `fuel` bounds the depth. -/
def jsonDumpNodeBuf : Nat → Nat → Option Nat → StringBuf → Option StringBuf
  | 0, _, _, _ => none
  | _ + 1, _, none, sb => some (stringbufAppend nullText sb)
  | fuel + 1, indent, some idx, sb => p.nodes[idx]?.bind fun node =>
    if p.bufLen < node.offset then some sb
    else match node.type with
      | .null => some (stringbufAppend nullText sb)
      | .true => some (stringbufAppend (boolText true) sb)
      | .false => some (stringbufAppend (boolText false) sb)
      | .numberInt | .numberFloat => (sourceText buffer node).map (stringbufAppend · sb)
      | .string => (sourceText buffer node).map (jsonDumpEscapeBuf · sb)
      | .array =>
        if node.children = 0 then some (stringbufAppend [91, 93] sb)
        else (jsonFirstChild p idx).bind fun child =>
          (dumpElements p pretty (jsonDumpNodeBuf fuel (indent + 2)) indent node.children child
            (dumpMark pretty 91 sb)).map (dumpClose pretty 93 indent)
      | .object =>
        if node.children = 0 then some (stringbufAppend [123, 125] sb)
        else (jsonFirstChild p idx).bind fun child =>
          (dumpPairs p buffer pretty (jsonDumpNodeBuf fuel (indent + 2)) indent node.children child
            (dumpMark pretty 123 sb)).map (dumpClose pretty 125 indent)

end Dump

def jbCreate (maxNodes : Nat) : JsonParser :=
  { jsonInit (if maxNodes < 1 then 1 else maxNodes) with skipStringHash := true }

/-- A call of the builder; `none` is an invalid access. -/
abbrev Building := StateT JsonParser Option

def jbObject : Building (Option Nat) := fun p => some (jsonCreateObject p)

def jbArray : Building (Option Nat) := fun p => some (jsonCreateArray p)

/-- `s ? s : ""` -/
def jbString (s : Option Bytes) : Building (Option Nat) :=
  fun p => some (jsonCreateString (s.getD []) p)

def jbInt (v : Int64) : Building (Option Nat) := fun p => some (jsonCreateInt v p)

def jbBool (v : Bool) : Building (Option Nat) := fun p => some (jsonCreateBool v p)

def jbNull : Building (Option Nat) := fun p => some (jsonCreateNull p)

def jbKey (key : Bytes) : Building (Option Nat) := fun p => some (jsonCreateString key p)

def jbAttach (obj key value : Option Nat) : Building Unit :=
  fun p => (jsonObjectSet obj key value p).map fun p => ((), p)

def jbAppend (arr value : Option Nat) : Building Unit :=
  fun p => (jsonArrayAppend arr value p).map fun p => ((), p)

/-- The text that `jb_finish` returns. -/
def jbFinish (root : Option Nat) (p : JsonParser) : Option Bytes :=
  (jsonDumpNodeBuf p [] false (p.nodes.length + 1) 0 root (stringbufInit 256)).map (·.data)

/-- The buffers of the nodes that `jb_destroy` frees; it looks at `nodes_len` nodes. -/
def jbDestroy (p : JsonParser) : Option (List Bytes) :=
  ((List.range p.nodesLen).mapM fun i => p.nodes[i]?).map fun nodes => nodes.filterMap (·.strval)

end CeJson
