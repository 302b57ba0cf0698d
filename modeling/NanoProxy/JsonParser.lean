import NanoProxy.DictValue

/-!
# The JSON reader (include/dict.h)

The parser state is what is left of the content. An error is its text, and there is none
where the source sets none. `strtod` is the C library's: the value of a number, and how many
bytes of it are read.
-/

namespace JsonParser

open CLib Dict

abbrev Result (α : Type) := Except (Option String) (α × Bytes)

structure Strtod where
  value : Bytes → UInt64
  length : Bytes → Nat

def fail {α : Type} (msg : String) : Result α := .error (some msg)

/-- To the end of the line. -/
def skipLine (s : Bytes) : Bytes := s.dropWhile fun c => c != LF && c != CR

/-- Behind the next `*/`; where there is none one byte is left. -/
def skipBlock : Bytes → Bytes
  | [] => []
  | [c] => [c]
  | c :: d :: s => if c = 42 ∧ d = 47 then s else skipBlock (d :: s)

def skipLoop : Nat → Bytes → Bytes
  | 0, s => s
  | _, [] => []
  | fuel + 1, c :: s =>
    if isspace c then skipLoop fuel s
    else if c = 47 then match s with
      | [] => [c]
      | d :: rest =>
        if d = 47 then skipLoop fuel (skipLine rest)
        else if d = 42 then skipLoop fuel (skipBlock rest)
        else c :: d :: rest
    else c :: s

/-- Every turn of the loop takes a byte at least. -/
def dictParserSkipWhitespace (s : Bytes) : Bytes := skipLoop s.length s

def dictParseLiteral (literal s : Bytes) : Option Bytes :=
  if literal <+: s then some (s.drop literal.length) else none

def decodeEscape (esc : UInt8) : Option UInt8 :=
  if esc = 34 then some 34
  else if esc = 92 then some 92
  else if esc = 47 then some 47
  else if esc = 98 then some 8
  else if esc = 102 then some 12
  else if esc = 110 then some 10
  else if esc = 114 then some 13
  else if esc = 116 then some 9
  else none

/-- Four hex digits; other characters than ASCII become a question mark. -/
def decodeUnicode (a b c d : UInt8) : Option UInt8 :=
  if isxdigit a && isxdigit b && isxdigit c && isxdigit d then
    let codepoint := ofDigits 16 [a, b, c, d]
    some (if codepoint ≤ 0x7F then UInt8.ofNat codepoint else 63)
  else none

def stringLoop : Bytes → Bytes → Result Bytes
  | [], _ => fail "Unterminated string"
  | 34 :: s, out => .ok (out, s)
  | [92], _ => fail "Unexpected end of input in escape sequence"
  | 92 :: 117 :: a :: b :: c :: d :: s, out =>
    match decodeUnicode a b c d with
    | none => fail "Invalid hex digit in unicode escape"
    | some decoded => stringLoop s (out ++ [decoded])
  | 92 :: esc :: s, out =>
    if esc = 117 then fail "Incomplete unicode escape"
    else match decodeEscape esc with
      | none => fail "Invalid escape sequence"
      | some decoded => stringLoop s (out ++ [decoded])
  | c :: s, out =>
    if c < 0x20 then fail "Unescaped control character in string" else stringLoop s (out ++ [c])

def dictParseJsonString : Bytes → Result Bytes
  | 34 :: s => stringLoop s []
  | _ => fail "Expected opening quote for string"

def skipMinus : Bytes → Bytes
  | [] => []
  | c :: s => if c = 45 then s else c :: s

def skipSign : Bytes → Bytes
  | [] => []
  | c :: s => if c = 43 ∨ c = 45 then s else c :: s

def startsWithDigit : Bytes → Bool
  | [] => false
  | c :: _ => isdigit c

def scanExponent : Bytes → Option Bytes
  | [] => some []
  | c :: s =>
    if c = 101 ∨ c = 69 then
      if startsWithDigit (skipSign s) then some ((skipSign s).dropWhile isdigit) else none
    else some (c :: s)

def scanFraction : Bytes → Option Bytes
  | [] => some []
  | c :: s =>
    if c = 46 then
      if startsWithDigit s then scanExponent (s.dropWhile isdigit) else none
    else scanExponent (c :: s)

def scanInteger : Bytes → Option Bytes
  | [] => none
  | c :: s =>
    if c = 48 then scanFraction s
    else if isdigit c then scanFraction (s.dropWhile isdigit)
    else none

def scanNumber (s : Bytes) : Option Bytes := scanInteger (skipMinus s)

variable (strtod : Strtod)

def dictParseNumber (s : Bytes) : Result UInt64 :=
  match scanNumber s with
  | none => .error none
  | some rest =>
    let token := s.take (s.length - rest.length)
    if token.length = 0 then .error none
    else if 64 ≤ token.length then fail "Number too long"
    else if strtod.length token ≠ token.length then fail "Invalid number format"
    else .ok (strtod.value token, rest)

def parseStringValue (s : Bytes) : Result DictValue :=
  match dictParseJsonString s with
  | .error e => .error e
  | .ok (str, rest) => match dictCreateString str with
    | none => .error none
    | some v => .ok (v, rest)

def parseNumberValue (s : Bytes) : Result DictValue :=
  match dictParseNumber strtod s with
  | .error e => .error e
  | .ok (num, rest) => .ok (.number num, rest)

def parseLiteralValue (s : Bytes) : Result DictValue :=
  match dictParseLiteral (ascii "true") s with
  | some rest => .ok (.bool true, rest)
  | none => match dictParseLiteral (ascii "false") s with
    | some rest => .ok (.bool false, rest)
    | none => match dictParseLiteral (ascii "null") s with
      | some rest => .ok (.null, rest)
      | none => fail "Invalid value"

mutual

def dictParseValue : Nat → Bytes → Result DictValue
  | 0, _ => .error none
  | fuel + 1, s =>
    match dictParserSkipWhitespace s with
    | [] => fail "Unexpected end of input"
    | c :: s =>
      if c = 34 then parseStringValue (c :: s)
      else if c = 123 then dictParseObject fuel (c :: s)
      else if c = 91 then dictParseArray fuel (c :: s)
      else if c = 45 ∨ 48 ≤ c ∧ c ≤ 57 then parseNumberValue strtod (c :: s)
      else parseLiteralValue (c :: s)

def dictParseArray : Nat → Bytes → Result DictValue
  | fuel + 1, 91 :: s =>
    match dictParserSkipWhitespace (dictParserSkipWhitespace s) with
    | 93 :: rest => .ok (.array [], rest)
    | s => arrayLoop fuel s []
  | _, _ => fail "Expected '[' for array"

def arrayLoop : Nat → Bytes → List DictValue → Result DictValue
  | 0, _, _ => .error none
  | fuel + 1, s, items =>
    match dictParseValue fuel s with
    | .error e => .error e
    | .ok (item, s) => match dictParserSkipWhitespace s with
      | [] => fail "Unexpected end of input in array"
      | c :: s =>
        if c = 44 then arrayLoop fuel (dictParserSkipWhitespace s) (items ++ [item])
        else if c = 93 then .ok (.array (items ++ [item]), s)
        else fail "Expected ',' or ']' in array"

def dictParseObject : Nat → Bytes → Result DictValue
  | fuel + 1, 123 :: s =>
    match dictParserSkipWhitespace (dictParserSkipWhitespace s) with
    | 125 :: rest => .ok (.object [], rest)
    | s => objectLoop fuel s (.object [])
  | _, _ => fail "Expected '\x7b' for object"

def objectLoop : Nat → Bytes → DictValue → Result DictValue
  | 0, _, _ => .error none
  | fuel + 1, s, obj =>
    match dictParserSkipWhitespace s with
    | [] => fail "Expected string quote \" in object"
    | c :: s =>
      if c ≠ 34 then fail "Expected string quote \" in object" else
      match dictParseJsonString (c :: s) with
      | .error e => .error e
      | .ok (key, s) => match dictParserSkipWhitespace s with
        | [] => fail "Expected ':' after key in object"
        | c :: s =>
          if c ≠ 58 then fail "Expected ':' after key in object" else
          match dictParseValue fuel (dictParserSkipWhitespace s) with
          | .error e => .error e
          | .ok (value, s) => match dictObjectSet obj key value with
            | none => fail "Failed to insert key-value pair in object"
            | some obj => match dictParserSkipWhitespace s with
              | [] => fail "Unexpected end of input in object"
              | c :: s =>
                if c = 44 then objectLoop fuel s obj
                else if c = 125 then .ok (obj, s)
                else fail "Expected ',' or '\x7d' in object"

end

/-- A value in a value in a value takes three calls for each byte at most. -/
def parseFuel (s : Bytes) : Nat := 3 * s.length + 1

/-- The content is the first `contentLen` bytes of the buffer. -/
def dictDeserializeJson (buffer : Bytes) (contentLen : Nat) : Except (Option String) DictValue :=
  if buffer.length < contentLen ∨ contentLen = 0 then
    .error (some "Invalid input buffer or content length")
  else
    let content := buffer.take contentLen
    match dictParseValue strtod (parseFuel content) (dictParserSkipWhitespace content) with
    | .error e => .error e
    | .ok (result, rest) =>
      let rest := dictParserSkipWhitespace rest
      if rest ≠ [] then
        .error (some ("Extra trailing data after JSON value at pos " ++
          toString (contentLen - rest.length)))
      else .ok result

end JsonParser
