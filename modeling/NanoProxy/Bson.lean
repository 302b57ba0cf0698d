import NanoProxy.DictValue
import NanoProxy.Lib.LittleEndian

/-!
# BSON (include/dict.h)

The writer's `out` is the buffer up to `pos`. The reader's `left` is what is left of the
document. A double is written in the byte order of the machine, which is little-endian.
-/

namespace Bson

open CLib Dict LittleEndian

def BSON_TYPE_DOUBLE : UInt8 := 0x01
def BSON_TYPE_STRING : UInt8 := 0x02
def BSON_TYPE_DOCUMENT : UInt8 := 0x03
def BSON_TYPE_ARRAY : UInt8 := 0x04
def BSON_TYPE_BOOL : UInt8 := 0x08
def BSON_TYPE_NULL : UInt8 := 0x0A
def BSON_TYPE_INT64 : UInt8 := 0x12

def bsonWriteInt32Le (val : BitVec 32) : Bytes :=
  [byteAt val 0, byteAt val 1, byteAt val 2, byteAt val 3]

def bsonReadInt32Le (buf : Bytes) : BitVec 32 :=
  (buf.getD 0 0).toBitVec.setWidth 32 ||| (buf.getD 1 0).toBitVec.setWidth 32 <<< 8 |||
    (buf.getD 2 0).toBitVec.setWidth 32 <<< 16 ||| (buf.getD 3 0).toBitVec.setWidth 32 <<< 24

def bsonWriteInt64Le (val : Int64) : Bytes := toBytes 8 val.toBitVec

def bsonReadInt64Le (buf : Bytes) : Int64 := Int64.ofBitVec (ofBytes 64 (buf.take 8))

/-- The bytes of a double through the union. -/
def doubleBytes (bits : UInt64) : Bytes := toBytes 8 bits.toBitVec

def doubleOfBytes (buf : Bytes) : UInt64 := UInt64.ofBitVec (ofBytes 64 (buf.take 8))

def typeByte : DictValue → UInt8
  | .null => BSON_TYPE_NULL
  | .bool _ => BSON_TYPE_BOOL
  | .number _ => BSON_TYPE_DOUBLE
  | .int64 _ => BSON_TYPE_INT64
  | .string _ => BSON_TYPE_STRING
  | .array _ => BSON_TYPE_ARRAY
  | .object _ => BSON_TYPE_DOCUMENT

/-- One turn of the loop of the document writer. -/
def appendElement (bufLen : Nat) (type : UInt8) (key : Bytes) (value : Nat → Option Bytes)
    (out : Bytes) : Option Bytes :=
  if bufLen ≤ out.length + 1 then none
  else
    let out := out ++ [type]
    if bufLen ≤ out.length + key.length + 1 then none
    else
      let out := out ++ key ++ [0]
      (value (bufLen - out.length)).map (out ++ ·)

/-- The terminator, and the length over the reserved space. -/
def closeDocument (bufLen : Nat) (out : Bytes) : Option Bytes :=
  if bufLen ≤ out.length then none
  else
    let out := out ++ [0]
    some (bsonWriteInt32Le (BitVec.ofNat 32 out.length) ++ out.drop 4)

/-- Space for the length. -/
def reserved : Bytes := [0, 0, 0, 0]

mutual

def bsonSerializeValue : DictValue → Nat → Option Bytes
  | .null, _ => some []
  | .bool b, bufLen => if bufLen < 1 then none else some [if b then 1 else 0]
  | .number bits, bufLen => if bufLen < 8 then none else some (doubleBytes bits)
  | .int64 n, bufLen => if bufLen < 8 then none else some (bsonWriteInt64Le n)
  | .string s, bufLen =>
    let totalLen := 4 + s.bytes.length + 1
    if bufLen < totalLen then none
    else some (bsonWriteInt32Le (BitVec.ofNat 32 (s.bytes.length + 1)) ++ (s.bytes ++ [0]))
  | .array items, bufLen => (serializeItems bufLen 0 items reserved).bind (closeDocument bufLen)
  | .object pairs, bufLen => (serializePairs bufLen pairs reserved).bind (closeDocument bufLen)

def serializeItems (bufLen i : Nat) : List DictValue → Bytes → Option Bytes
  | [], out => some out
  | v :: items, out =>
    (appendElement bufLen (typeByte v) (decimal i) (bsonSerializeValue v) out).bind
      (serializeItems bufLen (i + 1) items)

def serializePairs (bufLen : Nat) : List (Key × DictValue) → Bytes → Option Bytes
  | [], out => some out
  | (key, v) :: pairs, out =>
    (appendElement bufLen (typeByte v) key.bytes (bsonSerializeValue v) out).bind
      (serializePairs bufLen pairs)

end

def bsonSerializeDocument (v : DictValue) (bufLen : Nat) : Option Bytes :=
  match v with
  | .array items => bsonSerializeValue (.array items) bufLen
  | .object pairs => bsonSerializeValue (.object pairs) bufLen
  | _ => none

/-- The result and what is in the buffer up to it. -/
def dictSerializeBson (v : DictValue) (bufLen : Nat) : Nat × Bytes :=
  match bsonSerializeDocument v bufLen with
  | none => (0, [])
  | some out => (out.length, out)

/-- A value and how many bytes of it were read. -/
abbrev Read := Option (DictValue × Nat)

def readString (left : Bytes) : Read :=
  if left.length < 4 then none
  else
    let strLen := (bsonReadInt32Le left).toInt
    if strLen < 1 ∨ (left.length : Int) < 4 + strLen then none
    else (dictCreateString ((left.drop 4).take (strLen.toNat - 1))).map (·, 4 + strLen.toNat)

/-- The switch on the type byte. -/
def readValue (document : Bytes → Bool → Read) (type : UInt8) (left : Bytes) : Read :=
  if type = BSON_TYPE_DOUBLE then
    if left.length < 8 then none else some (.number (doubleOfBytes left), 8)
  else if type = BSON_TYPE_INT64 then
    if left.length < 8 then none else some (.int64 (bsonReadInt64Le left), 8)
  else if type = BSON_TYPE_STRING then readString left
  else if type = BSON_TYPE_BOOL then
    if left.length < 1 then none else some (.bool (left.getD 0 0 ≠ 0), 1)
  else if type = BSON_TYPE_NULL then some (.null, 0)
  else if type = BSON_TYPE_DOCUMENT then document left false
  else if type = BSON_TYPE_ARRAY then document left true
  else none

def putElement (isArray : Bool) (result : DictValue) (key : Bytes) (v : DictValue) :
    Option DictValue :=
  if isArray then dictArrayAppend result v else dictObjectSet result key v

mutual

def bsonDeserializeDocumentInternal : Nat → Bytes → Bool → Read
  | 0, _, _ => none
  | fuel + 1, buf, isArray =>
    if buf.length < 5 then none
    else
      let docLen := (bsonReadInt32Le buf).toInt
      if docLen < 5 ∨ (buf.length : Int) < docLen then none
      else
        (elementLoop fuel ((buf.take docLen.toNat).drop 4) isArray
          (if isArray then .array [] else .object [])).map (·, docLen.toNat)

def elementLoop : Nat → Bytes → Bool → DictValue → Option DictValue
  | 0, _, _, _ => none
  | _, [], _, _ => none
  | _, [_], _, result => some result
  | fuel + 1, type :: left, isArray, result =>
    if type = 0 then if left.length = 1 then some result else none
    else
      let key := left.takeWhile (· ≠ 0)
      if key.length = left.length then none
      else
        let left := left.drop (key.length + 1)
        match readValue (bsonDeserializeDocumentInternal fuel) type left with
        | none => none
        | some (val, valRead) => match putElement isArray result key val with
          | none => none
          | some result => elementLoop fuel (left.drop valRead) isArray result

end

/-- Every call and every turn of a loop takes a byte at least. -/
def dictDeserializeBson (buf : Bytes) : Option DictValue :=
  match bsonDeserializeDocumentInternal (buf.length + 1) buf false with
  | none => none
  | some (val, readBytes) => if readBytes ≠ buf.length then none else some val

/-- A turn of the loop before the final byte. -/
theorem elementLoop_succ (fuel : Nat) (type next : UInt8) (left : Bytes) (isArray : Bool)
    (result : DictValue) :
    elementLoop (fuel + 1) (type :: next :: left) isArray result =
      if type = 0 then if (next :: left).length = 1 then some result else none
      else
        let key := (next :: left).takeWhile (· ≠ 0)
        if key.length = (next :: left).length then none
        else
          let left := (next :: left).drop (key.length + 1)
          match readValue (bsonDeserializeDocumentInternal fuel) type left with
          | none => none
          | some (val, valRead) => match putElement isArray result key val with
            | none => none
            | some result => elementLoop fuel (left.drop valRead) isArray result := rfl

end Bson
