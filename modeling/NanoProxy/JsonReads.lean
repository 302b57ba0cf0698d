import NanoProxy.JsonReading
import NanoProxy.Lib.Traced

/-!
# The reads of the JSON reader (include/dict.h)

The buffer is a memory that goes on behind the content, which has `len` bytes. The events
are the reads, the assignments to `p->pos`, and the calls of `dict_parse_value` that succeed,
with `p->pos` before and after. A result stands with the value of `p->pos`. `errorLen` is 0
where the caller has no room for an error.
-/

namespace JsonReads

open CLib Dict JsonParser Traced Traced.Run

inductive Event where
  | read (i : Nat)
  | move (old new : Nat)
  | value (old new : Nat)
  deriving DecidableEq

abbrev Outcome (α : Type) := Except (Option String) α × Nat

variable (mem : Nat → UInt8) (len errorLen : Nat)

def readByte (i : Nat) : Run Event UInt8 := step (.read i) (mem i)

/-- `p->pos = new` -/
def setPos (old new : Nat) : Run Event Nat := step (.move old new) new

/-- Line and column, and the beginnings of the last five lines. -/
structure Place where
  line : Nat
  col : Nat
  starts : List Nat

def Place.next (p : Place) (i : Nat) (c : UInt8) : Place :=
  if c = LF then
    { line := p.line + 1
      col := 1
      starts := if p.starts.length < 5 then p.starts ++ [i + 1] else p.starts.drop 1 ++ [i + 1] }
  else { p with col := p.col + 1 }

def findPlace : (left i : Nat) → Place → Run Event Place
  | 0, _, p => pure p
  | left + 1, i, p => do
    let c ← readByte mem i
    findPlace left (i + 1) (p.next i c)

/-- `while (i < blen && b[i] != '\n') i++;` with `left` for `blen - i`. -/
def endOfLine : (left i : Nat) → Run Event Nat
  | 0, i => pure i
  | left + 1, i => do
    let c ← readByte mem i
    if c = LF then pure i else endOfLine left (i + 1)

/-- On to the line end after the next `after` of them. -/
def skipLines : (left i after : Nat) → Run Event Nat
  | 0, i, _ => pure i
  | left + 1, i, after =>
    if after = 0 then pure i
    else if left = 0 then pure (i + 1)
    else do
      let c ← readByte mem (i + 1)
      skipLines left (i + 1) (if c = LF then after - 1 else after)

/-- What `%.*s` prints: at most `n` bytes, up to a NUL. -/
def printed (i : Nat) : Nat → Run Event Nat
  | 0 => pure 0
  | n + 1 => do
    let c ← readByte mem i
    if c = 0 then pure 0 else do
    let more ← printed (i + 1) n
    pure (more + 1)

/-- The room that `snprintf` leaves: all of it, where the text of `w` bytes does not fit. -/
def room (w rem : Nat) : Nat := if 0 < w ∧ w < rem then rem - w else rem

/-- `show_len` before it is cut to 120: without a CR at the end of the line. -/
def shownLength (i lineLen : Nat) : Run Event Nat :=
  if lineLen = 0 then pure lineLen else do
  let last ← readByte mem (i + lineLen - 1)
  pure (if last = CR then lineLen - 1 else lineLen)

def showLines (errorLine errorCol gw ctxEnd : Nat) : (fuel curLine i rem : Nat) → Run Event Unit
  | 0, _, _, _ => outOfFuel
  | fuel + 1, curLine, i, rem =>
    if ¬(i < ctxEnd ∧ i < len ∧ 1 < rem) then pure () else do
    let le ← endOfLine mem (len - i) i
    let showLen ← shownLength mem i (le - i)
    let shown ← printed mem i (min showLen 120)
    let rem := room (max gw (decimal curLine).length + shown + 5) rem
    let rem := if curLine = errorLine ∧ 1 < rem then room (gw + min (errorCol - 1) 120 + 6) rem
      else rem
    showLines errorLine errorCol gw ctxEnd fuel (curLine + 1) (if le < len then le + 1 else len) rem

/-- What `dict_parser_error` reads of the content while it writes its context. -/
def dictParserError (pos : Nat) : Run Event Unit :=
  if errorLen = 0 then pure () else do
  let epos := if pos < len then pos else if 0 < len then len - 1 else 0
  let p ← findPlace mem epos 0 ⟨1, 1, [0]⟩
  let ctxBefore := min (p.starts.length - 1) 2
  let firstStart := p.starts.getD (p.starts.length - 1 - ctxBefore) 0
  let lineEnd ← endOfLine mem (len - epos) epos
  let ctxEnd ← skipLines mem (len - lineEnd) lineEnd 2
  let ctxEnd := if ctxEnd < len then ctxEnd + 1 else ctxEnd
  let rem := room ((decimal p.line).length + (decimal p.col).length + 14) errorLen
  showLines mem len p.line p.col (decimal (p.line + 2)).length ctxEnd (len + 1)
    (p.line - ctxBefore) firstStart rem

def failAt {α : Type} (pos : Nat) (msg : String) : Run Event (Outcome α) := do
  dictParserError mem len errorLen pos
  pure (.error (some msg), pos)

def skipLine : (left pos : Nat) → Run Event Nat
  | 0, pos => pure pos
  | left + 1, pos => do
    let c ← readByte mem pos
    if c != LF && c != CR then do
      let pos ← setPos pos (pos + 1)
      skipLine left pos
    else pure pos

/-- Whether the marks that close a comment stand at `pos`. -/
def closes (pos : Nat) : Run Event Bool := do
  let c ← readByte mem pos
  if c = 42 then do
    let d ← readByte mem (pos + 1)
    pure (decide (d = 47))
  else pure false

/-- `left` is what is left behind the byte at `pos`. -/
def skipBlock : (left pos : Nat) → Run Event Nat
  | 0, pos => pure pos
  | left + 1, pos => do
    if ← closes mem pos then pure pos else do
    let pos ← setPos pos (pos + 1)
    skipBlock left pos

/-- The marks are passed over, where they are there. -/
def skipMarks (pos : Nat) : Run Event Nat :=
  if pos + 1 < len then setPos pos (pos + 2) else pure pos

def skipLoop : (fuel pos : Nat) → Run Event Nat
  | 0, _ => outOfFuel
  | fuel + 1, pos =>
    if len ≤ pos then pure pos else do
    let c ← readByte mem pos
    if isspace c then do
      let pos ← setPos pos (pos + 1)
      skipLoop fuel pos
    else if c = 47 ∧ pos + 1 < len then do
      let d ← readByte mem (pos + 1)
      if d = 47 then do
        let pos ← setPos pos (pos + 2)
        let pos ← skipLine mem (len - pos) pos
        skipLoop fuel pos
      else if d = 42 then do
        let pos ← setPos pos (pos + 2)
        let pos ← skipBlock mem (len - (pos + 1)) pos
        let pos ← skipMarks len pos
        skipLoop fuel pos
      else pure pos
    else pure pos

def dictParserSkipWhitespace (pos : Nat) : Run Event Nat := skipLoop mem len (len - pos + 1) pos

/-- `dict_parser_peek`; `none` at the end. -/
def dictParserPeek (pos : Nat) : Run Event (Option UInt8) :=
  if len ≤ pos then pure none else do
  let c ← readByte mem pos
  pure (some c)

/-- `dict_parser_consume`: the new `p->pos`, where the byte is the expected one. -/
def dictParserConsume (expect : UInt8) (pos : Nat) : Run Event (Option Nat) :=
  if len ≤ pos then pure none else do
  let c ← readByte mem pos
  if c ≠ expect then pure none else do
  let pos ← setPos pos (pos + 1)
  pure (some pos)

/-- `strncmp` with a literal. -/
def startsWith : Bytes → Nat → Run Event Bool
  | [], _ => pure true
  | c :: cs, i => do
    let b ← readByte mem i
    if b = c then startsWith cs (i + 1) else pure false

def dictParseLiteral (literal : Bytes) (pos : Nat) : Run Event (Option Nat) :=
  if len < pos + literal.length then pure none else do
  if ← startsWith mem literal pos then do
    let pos ← setPos pos (pos + literal.length)
    pure (some pos)
  else pure none

/-- The hex digits of an escape; `none` at a byte that is not one. -/
def readHex : (left pos codepoint : Nat) → Run Event (Option Nat × Nat)
  | 0, pos, codepoint => pure (some codepoint, pos)
  | left + 1, pos, codepoint => do
    let h ← readByte mem pos
    let pos ← setPos pos (pos + 1)
    if isxdigit h then readHex left pos (codepoint * 16 + digitVal h) else pure (none, pos)

def stringLoop : (fuel pos : Nat) → Bytes → Run Event (Outcome Bytes)
  | 0, _, _ => outOfFuel
  | fuel + 1, pos, out =>
    if len ≤ pos then failAt mem len errorLen pos "Unterminated string" else do
    let c ← readByte mem pos
    let pos ← setPos pos (pos + 1)
    if c = 34 then pure (.ok out, pos)
    else if c = 92 then
      if len ≤ pos then failAt mem len errorLen pos "Unexpected end of input in escape sequence"
      else do
      let esc ← readByte mem pos
      let pos ← setPos pos (pos + 1)
      if esc = 117 then
        if len < pos + 4 then failAt mem len errorLen pos "Incomplete unicode escape" else do
        let (codepoint, pos) ← readHex mem 4 pos 0
        match codepoint with
        | none => failAt mem len errorLen pos "Invalid hex digit in unicode escape"
        | some codepoint =>
          stringLoop fuel pos (out ++ [if codepoint ≤ 0x7F then UInt8.ofNat codepoint else 63])
      else match decodeEscape esc with
        | none => failAt mem len errorLen pos "Invalid escape sequence"
        | some decoded => stringLoop fuel pos (out ++ [decoded])
    else if c < 0x20 then failAt mem len errorLen pos "Unescaped control character in string"
    else stringLoop fuel pos (out ++ [c])

def dictParseJsonString (pos : Nat) : Run Event (Outcome Bytes) := do
  match ← dictParserConsume mem len 34 pos with
  | none => failAt mem len errorLen pos "Expected opening quote for string"
  | some pos => stringLoop mem len errorLen (len - pos + 1) pos []

/-- `while (i < p->buffer_len && isdigit(p->buffer[i])) i++;` -/
def skipDigits : (left i : Nat) → Run Event Nat
  | 0, i => pure i
  | left + 1, i => do
    let c ← readByte mem i
    if isdigit c then skipDigits left (i + 1) else pure i

/-- Digits, of which there has to be one. -/
def someDigits (i : Nat) : Run Event (Option Nat) :=
  if len ≤ i then pure none else do
  let c ← readByte mem i
  if isdigit c then do
    let i ← skipDigits mem (len - i) i
    pure (some i)
  else pure none

def scanExponent (i : Nat) : Run Event (Option Nat) :=
  if len ≤ i then pure (some i) else do
  let c ← readByte mem i
  if c = 101 ∨ c = 69 then
    if len ≤ i + 1 then pure none else do
    let sign ← readByte mem (i + 1)
    someDigits mem len (if sign = 43 ∨ sign = 45 then i + 2 else i + 1)
  else pure (some i)

def scanFraction (i : Nat) : Run Event (Option Nat) :=
  if len ≤ i then pure (some i) else do
  let c ← readByte mem i
  if c = 46 then do
    match ← someDigits mem len (i + 1) with
    | none => pure none
    | some i => scanExponent mem len i
  else scanExponent mem len i

def scanInteger (i : Nat) : Run Event (Option Nat) :=
  if len ≤ i then pure none else do
  let c ← readByte mem i
  if c = 48 then scanFraction mem len (i + 1)
  else if isdigit c then do
    let i ← skipDigits mem (len - i) i
    scanFraction mem len i
  else pure none

def scanNumber (pos : Nat) : Run Event (Option Nat) :=
  if len ≤ pos then pure none else do
  let c ← readByte mem pos
  scanInteger mem len (if c = 45 then pos + 1 else pos)

/-- `memcpy` from the content -/
def readBytes (i : Nat) : Nat → Run Event Bytes
  | 0 => pure []
  | n + 1 => do
    let b ← readByte mem i
    let bs ← readBytes (i + 1) n
    pure (b :: bs)

variable (strtod : Strtod)

def dictParseNumber (pos : Nat) : Run Event (Outcome UInt64) := do
  match ← scanNumber mem len pos with
  | none => pure (.error none, pos)
  | some i =>
    if i - pos = 0 then pure (.error none, pos)
    else if 64 ≤ i - pos then failAt mem len errorLen pos "Number too long"
    else do
    let token ← readBytes mem pos (i - pos)
    if strtod.length token ≠ token.length then failAt mem len errorLen pos "Invalid number format"
    else do
    let pos ← setPos pos i
    pure (.ok (strtod.value token), pos)

def parseStringValue (pos : Nat) : Run Event (Outcome DictValue) := do
  match ← dictParseJsonString mem len errorLen pos with
  | (.error e, pos) => pure (.error e, pos)
  | (.ok str, pos) => match dictCreateString str with
    | none => pure (.error none, pos)
    | some v => pure (.ok v, pos)

def parseNumberValue (pos : Nat) : Run Event (Outcome DictValue) := do
  match ← dictParseNumber mem len errorLen strtod pos with
  | (.error e, pos) => pure (.error e, pos)
  | (.ok num, pos) => pure (.ok (.number num), pos)

def parseLiteralValue (pos : Nat) : Run Event (Outcome DictValue) := do
  match ← dictParseLiteral mem len (ascii "true") pos with
  | some pos => pure (.ok (.bool true), pos)
  | none => match ← dictParseLiteral mem len (ascii "false") pos with
    | some pos => pure (.ok (.bool false), pos)
    | none => match ← dictParseLiteral mem len (ascii "null") pos with
      | some pos => pure (.ok .null, pos)
      | none => failAt mem len errorLen pos "Invalid value"

/-- The return of `dict_parse_value`, called at `start`. -/
def returned (start : Nat) (r : Outcome DictValue) : Run Event (Outcome DictValue) :=
  match r with
  | (.ok v, pos) => step (.value start pos) (.ok v, pos)
  | (.error e, pos) => pure (.error e, pos)

mutual

def dictParseValue : Nat → Nat → Run Event (Outcome DictValue)
  | 0, _ => outOfFuel
  | fuel + 1, start => do
    let pos ← dictParserSkipWhitespace mem len start
    match ← dictParserPeek mem len pos with
    | none => failAt mem len errorLen pos "Unexpected end of input"
    | some c =>
      (if c = 34 then parseStringValue mem len errorLen pos
      else if c = 123 then dictParseObject fuel pos
      else if c = 91 then dictParseArray fuel pos
      else if c = 45 ∨ 48 ≤ c ∧ c ≤ 57 then parseNumberValue mem len errorLen strtod pos
      else parseLiteralValue mem len errorLen pos) >>= returned start

def dictParseArray : Nat → Nat → Run Event (Outcome DictValue)
  | 0, _ => outOfFuel
  | fuel + 1, pos => do
    match ← dictParserConsume mem len 91 pos with
    | none => failAt mem len errorLen pos "Expected '[' for array"
    | some pos => do
      let pos ← dictParserSkipWhitespace mem len pos
      let pos ← dictParserSkipWhitespace mem len pos
      if (← dictParserPeek mem len pos) = some 93 then do
        let pos ← setPos pos (pos + 1)
        pure (.ok (.array []), pos)
      else arrayLoop fuel pos []

def arrayLoop : Nat → Nat → List DictValue → Run Event (Outcome DictValue)
  | 0, _, _ => outOfFuel
  | fuel + 1, pos, items => do
    match ← dictParseValue fuel pos with
    | (.error e, pos) => pure (.error e, pos)
    | (.ok item, pos) => do
      let pos ← dictParserSkipWhitespace mem len pos
      match ← dictParserPeek mem len pos with
      | none => failAt mem len errorLen pos "Unexpected end of input in array"
      | some c =>
        if c = 44 then do
          let pos ← setPos pos (pos + 1)
          let pos ← dictParserSkipWhitespace mem len pos
          arrayLoop fuel pos (items ++ [item])
        else if c = 93 then do
          let pos ← setPos pos (pos + 1)
          pure (.ok (.array (items ++ [item])), pos)
        else failAt mem len errorLen pos "Expected ',' or ']' in array"

def dictParseObject : Nat → Nat → Run Event (Outcome DictValue)
  | 0, _ => outOfFuel
  | fuel + 1, pos => do
    match ← dictParserConsume mem len 123 pos with
    | none => failAt mem len errorLen pos "Expected '\x7b' for object"
    | some pos => do
      let pos ← dictParserSkipWhitespace mem len pos
      let pos ← dictParserSkipWhitespace mem len pos
      if (← dictParserPeek mem len pos) = some 125 then do
        let pos ← setPos pos (pos + 1)
        pure (.ok (.object []), pos)
      else objectLoop fuel pos (.object [])

def objectLoop : Nat → Nat → DictValue → Run Event (Outcome DictValue)
  | 0, _, _ => outOfFuel
  | fuel + 1, pos, obj => do
    let pos ← dictParserSkipWhitespace mem len pos
    if (← dictParserPeek mem len pos) ≠ some 34 then
      failAt mem len errorLen pos "Expected string quote \" in object"
    else do
    match ← dictParseJsonString mem len errorLen pos with
    | (.error e, pos) => pure (.error e, pos)
    | (.ok key, pos) => do
      let pos ← dictParserSkipWhitespace mem len pos
      match ← dictParserConsume mem len 58 pos with
      | none => failAt mem len errorLen pos "Expected ':' after key in object"
      | some pos => do
        let pos ← dictParserSkipWhitespace mem len pos
        match ← dictParseValue fuel pos with
        | (.error e, pos) => pure (.error e, pos)
        | (.ok value, pos) => match dictObjectSet obj key value with
          | none => failAt mem len errorLen pos "Failed to insert key-value pair in object"
          | some obj => do
            let pos ← dictParserSkipWhitespace mem len pos
            match ← dictParserPeek mem len pos with
            | none => failAt mem len errorLen pos "Unexpected end of input in object"
            | some c =>
              if c = 44 then do
                let pos ← setPos pos (pos + 1)
                objectLoop fuel pos obj
              else if c = 125 then do
                let pos ← setPos pos (pos + 1)
                pure (.ok obj, pos)
              else failAt mem len errorLen pos "Expected ',' or '\x7d' in object"

end

/-- The content is the first `contentLen` bytes of the buffer. -/
def dictDeserializeJson (bufferLen contentLen : Nat) :
    Run Event (Except (Option String) DictValue) :=
  if bufferLen < contentLen ∨ contentLen = 0 then
    pure (.error (some "Invalid input buffer or content length"))
  else do
    let pos ← dictParserSkipWhitespace mem contentLen 0
    match ← dictParseValue mem contentLen errorLen strtod (3 * contentLen + 1) pos with
    | (.error e, _) => pure (.error e)
    | (.ok result, pos) => do
      let pos ← dictParserSkipWhitespace mem contentLen pos
      if pos ≠ contentLen then
        pure (.error (some ("Extra trailing data after JSON value at pos " ++ toString pos)))
      else pure (.ok result)

/-- Reads inside the content, an assignment to `p->pos` that does not go back nor behind the
content, and a value with a byte at least. -/
def Bounded : Event → Prop
  | .read i => i < len
  | .move old new => old ≤ new ∧ new ≤ len
  | .value old new => old < new ∧ new ≤ len

end JsonReads
