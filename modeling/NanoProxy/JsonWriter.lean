import NanoProxy.DictValue
import NanoProxy.Lib.JsonGrammar

/-!
# The JSON writer (include/dict.h)

The writer stops where one byte is left, for the NUL. `jsonText` is the text that it writes.
`formatDouble` is `snprintf` with `"%.17g"`.
-/

namespace JsonWriter

open CLib Dict JsonGrammar

/-- `cursor` and `remaining`. -/
structure Writer where
  out : Bytes
  remaining : Nat

def dictAppendChar (c : UInt8) (w : Writer) : Option Writer :=
  if w.remaining ≤ 1 then none else some ⟨w.out ++ [c], w.remaining - 1⟩

def dictAppendToBuffer : Bytes → Writer → Option Writer
  | [], w => some w
  | c :: src, w =>
    if w.remaining ≤ 1 then none else dictAppendToBuffer src ⟨w.out ++ [c], w.remaining - 1⟩

def hexDigit (n : Nat) : UInt8 := UInt8.ofNat (if n < 10 then 48 + n else 87 + n)

/-- `"\\u%04x"` of a byte. -/
def unicodeEscape (c : UInt8) : Bytes :=
  [92, 117, 48, 48, hexDigit (c.toNat / 16), hexDigit (c.toNat % 16)]

def appendEscaped (c : UInt8) (w : Writer) : Option Writer :=
  if c = 34 ∨ c = 92 then (dictAppendChar 92 w).bind (dictAppendChar c)
  else if c = 8 then dictAppendToBuffer [92, 98] w
  else if c = 12 then dictAppendToBuffer [92, 102] w
  else if c = 10 then dictAppendToBuffer [92, 110] w
  else if c = 13 then dictAppendToBuffer [92, 114] w
  else if c = 9 then dictAppendToBuffer [92, 116] w
  else if c < 0x20 then dictAppendToBuffer (unicodeEscape c) w
  else dictAppendChar c w

def appendEscapedLoop : Bytes → Writer → Option Writer
  | [], w => some w
  | c :: str, w => (appendEscaped c w).bind (appendEscapedLoop str)

def dictAppendEscapedString (str : Bytes) (w : Writer) : Option Writer :=
  ((dictAppendChar 34 w).bind (appendEscapedLoop str)).bind (dictAppendChar 34)

def indentTimes : Nat → Writer → Option Writer
  | 0, w => some w
  | n + 1, w => (dictAppendToBuffer [SP, SP] w).bind (indentTimes n)

def appendNewlineAndIndent (pretty : Bool) (level : Nat) (w : Writer) : Option Writer :=
  if pretty then (dictAppendChar LF w).bind (indentTimes level) else some w

/-- `"%" PRId64` -/
def formatInt (n : Int64) : Bytes :=
  if n < 0 then 45 :: decimal n.toInt.natAbs else decimal n.toInt.natAbs

variable (formatDouble : UInt64 → Bytes) (pretty : Bool)

mutual

def dictSerializeValuePretty (level : Nat) : DictValue → Writer → Option Writer
  | .null, w => dictAppendToBuffer nullText w
  | .bool b, w => dictAppendToBuffer (boolText b) w
  | .number bits, w =>
    if 64 ≤ (formatDouble bits).length then none else dictAppendToBuffer (formatDouble bits) w
  | .int64 n, w =>
    if n ≤ 9007199254740991 ∧ -9007199254740991 ≤ n then dictAppendToBuffer (formatInt n) w
    else dictAppendEscapedString (formatInt n) w
  | .string s, w => dictAppendEscapedString s.bytes w
  | .array items, w =>
    ((((dictAppendChar 91 w).bind fun w =>
      if items.length ≠ 0 then appendNewlineAndIndent pretty level w else some w).bind
      (serializeItems level 0 items)).bind fun w =>
      if items.length ≠ 0 then appendNewlineAndIndent pretty level w else some w).bind
      (dictAppendChar 93)
  | .object pairs, w =>
    ((((dictAppendChar 123 w).bind fun w =>
      if pairs.length ≠ 0 then appendNewlineAndIndent pretty level w else some w).bind
      (serializePairs level 0 pairs)).bind fun w =>
      if pairs.length ≠ 0 then appendNewlineAndIndent pretty level w else some w).bind
      (dictAppendChar 125)

def serializeItems (level i : Nat) : List DictValue → Writer → Option Writer
  | [], w => some w
  | v :: items, w =>
    ((if 0 < i then (dictAppendChar 44 w).bind (appendNewlineAndIndent pretty level)
      else some w).bind (dictSerializeValuePretty (level + 1) v)).bind
      (serializeItems level (i + 1) items)

def serializePairs (level i : Nat) : List (Key × DictValue) → Writer → Option Writer
  | [], w => some w
  | (key, v) :: pairs, w =>
    (((((if 0 < i then (dictAppendChar 44 w).bind (appendNewlineAndIndent pretty level)
      else some w).bind (dictAppendEscapedString key.bytes)).bind (dictAppendChar 58)).bind fun w =>
      if pretty then dictAppendChar SP w else some w).bind
      (dictSerializeValuePretty (level + 1) v)).bind (serializePairs level (i + 1) pairs)

end

/-- The text in front of the NUL. -/
def dictSerializeJson (v : DictValue) (bufLen : Nat) : Option Bytes :=
  if bufLen = 0 then none
  else match dictSerializeValuePretty formatDouble pretty 0 v ⟨[], bufLen⟩ with
    | none => none
    | some w => if w.remaining = 0 then none else some w.out

end JsonWriter
