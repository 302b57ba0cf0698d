import Mathlib.Data.FinEnum
import NanoProxy.Bson
import NanoProxy.RequestGrammar

/-!
# What the BSON writer writes is read back

`encode` is the BSON of a value. The writer gives it if and only if it fits, and the reader
goes back.
-/

namespace BsonRoundTrip

open CLib Dict LittleEndian Bson

def element (type : UInt8) (key value : Bytes) : Bytes := type :: (key ++ 0 :: value)

/-- The length of a document counts its own four bytes and the terminator. -/
def document (elements : Bytes) : Bytes :=
  toBytes 4 (BitVec.ofNat 32 (elements.length + 5)) ++ (elements ++ [0])

mutual

def encode : DictValue → Bytes
  | .null => []
  | .bool b => [if b then 1 else 0]
  | .number bits => toBytes 8 bits.toBitVec
  | .int64 n => toBytes 8 n.toBitVec
  | .string s => toBytes 4 (BitVec.ofNat 32 (s.bytes.length + 1)) ++ (s.bytes ++ [0])
  | .array items => document (encodeItems 0 items)
  | .object pairs => document (encodePairs pairs)

def encodeItems (i : Nat) : List DictValue → Bytes
  | [] => []
  | v :: items => element (typeByte v) (decimal i) (encode v) ++ encodeItems (i + 1) items

def encodePairs : List (Key × DictValue) → Bytes
  | [] => []
  | (key, v) :: pairs => element (typeByte v) key.bytes (encode v) ++ encodePairs pairs

end

@[simp] theorem length_element (type : UInt8) (key value : Bytes) :
    (element type key value).length = key.length + value.length + 2 := by
  rw [element, List.length_cons, List.length_append, List.length_cons]
  omega

@[simp] theorem length_document (elements : Bytes) :
    (document elements).length = elements.length + 5 := by
  rw [document, List.length_append, List.length_append, length_toBytes, List.length_singleton]
  omega

section

variable {bufLen : Nat} {f g : Bytes → Option Bytes} {s t : Bytes}

/-- `f` puts `s` behind what is there, if it succeeds at all, and it succeeds if a byte is
left then. -/
def Appends (bufLen : Nat) (f : Bytes → Option Bytes) (s : Bytes) : Prop :=
  ∀ out, (out.length + s.length < bufLen → f out = some (out ++ s)) ∧
    ∀ out', f out = some out' → out' = out ++ s

theorem Appends.nothing : Appends bufLen some [] := by
  intro out
  rw [List.append_nil]
  exact ⟨fun _ => rfl, fun _ same => (Option.some.inj same).symm⟩

theorem Appends.bind (first : Appends bufLen f s) (second : Appends bufLen g t) :
    Appends bufLen (fun out => (f out).bind g) (s ++ t) := by
  intro out
  constructor
  · intro room
    rw [List.length_append] at room
    have one := (first out).1 (by omega)
    have two := (second (out ++ s)).1 (by rw [List.length_append]; omega)
    dsimp only
    rw [one, Option.bind_some, two, List.append_assoc]
  · intro out' same
    obtain ⟨between, one, two⟩ := Option.bind_eq_some_iff.mp same
    rw [(second between).2 out' two, (first out).2 between one, List.append_assoc]

theorem Appends.congr (appends : Appends bufLen f s) (same : ∀ out, g out = f out) :
    Appends bufLen g s := by
  rw [funext same]
  exact appends

/-- `value` gives `s` if and only if there is room. -/
def Fits (value : Nat → Option Bytes) (s : Bytes) : Prop :=
  ∀ bufLen, value bufLen = if s.length ≤ bufLen then some s else none

theorem Fits.appended {value : Nat → Option Bytes} (fits : Fits value s) (bufLen : Nat)
    (type : UInt8) (key : Bytes) :
    Appends bufLen (appendElement bufLen type key value) (element type key s) := by
  intro out
  have whole : out ++ [type] ++ key ++ [0] ++ s = out ++ element type key s := by
    simp [element]
  rw [length_element, appendElement]
  constructor
  · intro room
    rw [if_neg (by omega)]
    dsimp only
    rw [List.length_append, List.length_singleton, if_neg (by omega), fits, if_pos]
    · rw [Option.map_some, whole]
    · simp only [List.length_append, List.length_singleton]
      omega
  · intro out' same
    split at same
    · cases same
    dsimp only at same
    split at same
    · cases same
    rw [fits] at same
    split at same
    · cases same
      exact whole
    · cases same

/-- The length is put over the space for it. -/
theorem Appends.closed (appends : Appends bufLen f s) :
    (f reserved).bind (closeDocument bufLen) =
      if (document s).length ≤ bufLen then some (document s) else none := by
  rw [length_document]
  have close {out : Bytes} (same : out = reserved ++ s) : closeDocument bufLen out =
      if s.length + 5 ≤ bufLen then some (document s) else none := by
    subst same
    have length : (reserved ++ s).length = s.length + 4 := by
      rw [List.length_append, Nat.add_comm]
      rfl
    rw [closeDocument, length]
    by_cases room : s.length + 5 ≤ bufLen
    · rw [if_neg (by omega), if_pos room]
      dsimp only
      rw [List.length_append, length]
      rfl
    · rw [if_pos (by omega), if_neg room]
  by_cases room : s.length + 5 ≤ bufLen
  · have one := (appends reserved).1 (by rw [Nat.add_comm]; exact room)
    rw [one, Option.bind_some, close rfl]
  · cases one : f reserved with
    | none =>
      rw [if_neg room]
      rfl
    | some out => exact close ((appends reserved).2 out one)

end

theorem ite_lt_none {α : Type} {a : Option α} (n m : Nat) :
    (if n < m then none else a) = if m ≤ n then a else none := by
  by_cases room : m ≤ n
  · rw [if_pos room, if_neg (Nat.not_lt.mpr room)]
  · rw [if_neg room, if_pos (Nat.lt_of_not_le room)]

theorem items_append {items : List DictValue} {bufLen : Nat}
    (each : ∀ v ∈ items, Fits (bsonSerializeValue v) (encode v)) (i : Nat) :
    Appends bufLen (serializeItems bufLen i items) (encodeItems i items) := by
  induction items generalizing i with
  | nil =>
    rw [encodeItems]
    exact Appends.nothing.congr fun out => by rw [serializeItems]
  | cons v items ih =>
    obtain ⟨fits, each⟩ := List.forall_mem_cons.mp each
    have whole := (fits.appended bufLen (typeByte v) (decimal i)).bind (ih each (i + 1))
    rw [encodeItems]
    exact whole.congr fun out => by rw [serializeItems]

theorem pairs_append {pairs : Pairs} {bufLen : Nat}
    (each : ∀ p ∈ pairs, Fits (bsonSerializeValue p.2) (encode p.2)) :
    Appends bufLen (serializePairs bufLen pairs) (encodePairs pairs) := by
  induction pairs with
  | nil =>
    rw [encodePairs]
    exact Appends.nothing.congr fun out => by rw [serializePairs]
  | cons p pairs ih =>
    obtain ⟨key, v⟩ := p
    obtain ⟨fits, each⟩ := List.forall_mem_cons.mp each
    have whole := (fits.appended bufLen (typeByte v) key.bytes).bind (ih each)
    rw [encodePairs]
    exact whole.congr fun out => by rw [serializePairs]

/-- The writer gives the BSON of a value if and only if it fits. -/
theorem value_fits {v : DictValue} (proper : Proper v) :
    Fits (bsonSerializeValue v) (encode v) := by
  induction proper with
  | null =>
    intro bufLen
    rw [bsonSerializeValue, encode, List.length_nil, if_pos (Nat.zero_le _)]
  | bool b =>
    intro bufLen
    rw [bsonSerializeValue, encode, List.length_singleton]
    exact ite_lt_none _ _
  | number bits =>
    intro bufLen
    rw [bsonSerializeValue, encode, length_toBytes]
    exact ite_lt_none _ _
  | int64 n =>
    intro bufLen
    rw [bsonSerializeValue, encode, length_toBytes]
    exact ite_lt_none _ _
  | string s =>
    intro bufLen
    rw [bsonSerializeValue, encode, List.length_append, List.length_append, length_toBytes]
    exact ite_lt_none _ _
  | array _ ih =>
    intro bufLen
    rw [bsonSerializeValue, encode]
    exact (items_append ih 0).closed
  | object _ _ ih =>
    intro bufLen
    rw [bsonSerializeValue, encode]
    exact (pairs_append ih).closed

theorem readInt32_eq (b₀ b₁ b₂ b₃ : UInt8) (rest : Bytes) :
    bsonReadInt32Le (b₀ :: b₁ :: b₂ :: b₃ :: rest) = ofBytes 32 [b₀, b₁, b₂, b₃] := by
  simp [bsonReadInt32Le, ofBytes, orBytes]

/-- A length below 2^31 is read back. -/
theorem readInt32_toBytes {n : Nat} (small : n < 2 ^ 31) (rest : Bytes) :
    (bsonReadInt32Le (toBytes 4 (BitVec.ofNat 32 n) ++ rest)).toInt = n := by
  have same : bsonReadInt32Le (toBytes 4 (BitVec.ofNat 32 n) ++ rest) = BitVec.ofNat 32 n :=
    (readInt32_eq _ _ _ _ rest).trans (ofBytes_toBytes (k := 4) (Nat.le_refl 32) _)
  rw [same, BitVec.toInt_eq_toNat_of_msb, BitVec.toNat_ofNat, Nat.mod_eq_of_lt (by omega)]
  rw [BitVec.msb_eq_false_iff_two_mul_lt, BitVec.toNat_ofNat, Nat.mod_eq_of_lt (by omega)]
  omega

theorem readInt64_toBytes (n : Int64) (rest : Bytes) :
    bsonReadInt64Le (toBytes 8 n.toBitVec ++ rest) = n := by
  rw [bsonReadInt64Le, List.take_left' (length_toBytes 8 _), ofBytes_toBytes (by decide)]
  rfl

theorem doubleOfBytes_toBytes (bits : UInt64) (rest : Bytes) :
    doubleOfBytes (toBytes 8 bits.toBitVec ++ rest) = bits := by
  rw [doubleOfBytes, List.take_left' (length_toBytes 8 _), ofBytes_toBytes (by decide)]

/-- The reader comes to `v` on its BSON. -/
def Reads (fuel : Nat) (v : DictValue) : Prop :=
  ∀ rest, readValue (bsonDeserializeDocumentInternal fuel) (typeByte v) (encode v ++ rest) =
    some (v, (encode v).length)

/-- One element. -/
theorem elementLoop_element {fuel : Nat} {v result result' : DictValue} {key : Bytes}
    {isArray : Bool} (reads : Reads fuel v) (text : 0 ∉ key)
    (put : putElement isArray result key v = some result') (rest : Bytes) :
    elementLoop (fuel + 1) (element (typeByte v) key (encode v) ++ rest) isArray result =
      elementLoop fuel rest isArray result' := by
  have nonzero : typeByte v ≠ 0 := by cases v <;> rw [typeByte] <;> decide
  have taken : (key ++ 0 :: (encode v ++ rest)).takeWhile (· ≠ 0) = key := by
    rw [List.takeWhile_append_of_pos]
    · rw [List.takeWhile_cons_of_neg (by decide), List.append_nil]
    · intro b listed
      rw [decide_eq_true_iff]
      rintro rfl
      exact text listed
  have split : element (typeByte v) key (encode v) ++ rest =
      typeByte v :: (key ++ 0 :: (encode v ++ rest)) := by
    rw [element, List.cons_append, List.append_assoc, List.cons_append]
  have behind : (key ++ 0 :: (encode v ++ rest)).drop (key.length + 1) = encode v ++ rest := by
    rw [← List.drop_drop, List.drop_left]
    rfl
  rw [split]
  generalize whole : key ++ 0 :: (encode v ++ rest) = left at taken behind
  have long : key.length ≠ left.length := by
    rw [← whole, List.length_append, List.length_cons]
    omega
  cases left with
  | nil => simp at whole
  | cons next left =>
    rw [elementLoop_succ, if_neg nonzero, taken]
    dsimp only
    rw [if_neg long, behind, reads rest]
    dsimp only
    rw [put]
    dsimp only
    rw [List.drop_left]

theorem elementLoop_last {fuel : Nat} (some_fuel : 0 < fuel) (isArray : Bool) (result : DictValue) :
    elementLoop fuel [0] isArray result = some result := by
  cases fuel with
  | zero => cases some_fuel
  | succ fuel => rfl

theorem decimal_no_nul (i : Nat) : 0 ∉ decimal i := by
  intro nul
  exact absurd (RequestGrammar.decimal_digits nul) (by decide)

theorem items_read {items : List DictValue} {fuel : Nat} (done : List DictValue) (i : Nat)
    (each : ∀ v ∈ items, ∀ fuel, (encode v).length ≤ fuel → Reads fuel v)
    (enough : (encodeItems i items).length < fuel) :
    elementLoop fuel (encodeItems i items ++ [0]) true (.array done) =
      some (.array (done ++ items)) := by
  induction items generalizing i done fuel with
  | nil =>
    rw [encodeItems, List.nil_append, List.append_nil]
    exact elementLoop_last (Nat.zero_lt_of_lt enough) true _
  | cons v items ih =>
    obtain ⟨read, each⟩ := List.forall_mem_cons.mp each
    obtain ⟨fuel, rfl⟩ := Nat.exists_eq_succ_of_ne_zero (Nat.ne_of_gt (Nat.zero_lt_of_lt enough))
    rw [encodeItems, List.length_append, length_element] at enough
    have put : putElement true (.array done) (decimal i) v = some (.array (done ++ [v])) := rfl
    rw [encodeItems, List.append_assoc,
      elementLoop_element (read fuel (by omega)) (decimal_no_nul i) put,
      ih (done ++ [v]) (i + 1) each (by omega),
      List.append_assoc]
    rfl

theorem pairs_read {pairs : Pairs} {fuel : Nat} (done : Pairs)
    (keys : ((done ++ pairs).map Prod.fst).Nodup)
    (each : ∀ p ∈ pairs, ∀ fuel, (encode p.2).length ≤ fuel → Reads fuel p.2)
    (enough : (encodePairs pairs).length < fuel) :
    elementLoop fuel (encodePairs pairs ++ [0]) false (.object done) =
      some (.object (done ++ pairs)) := by
  induction pairs generalizing done fuel with
  | nil =>
    rw [encodePairs, List.nil_append, List.append_nil]
    exact elementLoop_last (Nat.zero_lt_of_lt enough) false _
  | cons p pairs ih =>
    obtain ⟨key, v⟩ := p
    obtain ⟨read, each⟩ := List.forall_mem_cons.mp each
    obtain ⟨fuel, rfl⟩ := Nat.exists_eq_succ_of_ne_zero (Nat.ne_of_gt (Nat.zero_lt_of_lt enough))
    rw [encodePairs, List.length_append, length_element] at enough
    have next : done ++ (key, v) :: pairs = done ++ [(key, v)] ++ pairs := by
      rw [List.append_assoc]
      rfl
    have put : putElement false (.object done) key.bytes v =
        some (.object (done ++ [(key, v)])) := by
      apply dictObjectSet_new
      rw [List.map_append, List.map_cons, List.nodup_append] at keys
      exact fun known => keys.2.2 key known key List.mem_cons_self rfl
    have room : (encode v).length ≤ fuel := by omega
    rw [next] at keys ⊢
    rw [encodePairs, List.append_assoc,
      elementLoop_element (read fuel room) key.no_nul put, ih _ keys each (by omega)]

/-- A document whose elements are read. -/
theorem document_read {elements : Bytes} {result : DictValue} {fuel : Nat} {isArray : Bool}
    (small : (document elements).length < 2 ^ 31)
    (read : elementLoop fuel (elements ++ [0]) isArray (if isArray then .array [] else .object []) =
      some result) (rest : Bytes) :
    bsonDeserializeDocumentInternal (fuel + 1) (document elements ++ rest) isArray =
      some (result, (document elements).length) := by
  rw [length_document] at small ⊢
  have whole : document elements ++ rest =
      toBytes 4 (BitVec.ofNat 32 (elements.length + 5)) ++ (elements ++ [0] ++ rest) := by
    rw [document, List.append_assoc]
  have length : (document elements ++ rest).length = elements.length + 5 + rest.length := by
    rw [List.length_append, length_document]
  have docLen : (bsonReadInt32Le (document elements ++ rest)).toInt =
      ((elements.length + 5 : Nat) : Int) := by
    rw [whole, readInt32_toBytes small]
  have taken : ((document elements ++ rest).take (elements.length + 5)).drop 4 =
      elements ++ [0] := by
    rw [List.take_left' (length_document elements), document,
      List.drop_left' (length_toBytes 4 _)]
  rw [bsonDeserializeDocumentInternal, docLen, length, if_neg (by omega)]
  dsimp only
  rw [if_neg (by omega), Int.toNat_natCast, taken, read]
  rfl

theorem readString_text (s : Str) (small : 4 + s.bytes.length + 1 < 2 ^ 31) (rest : Bytes) :
    readString (encode (.string s) ++ rest) = some (.string s, (encode (.string s)).length) := by
  have whole : encode (.string s) ++ rest =
      toBytes 4 (BitVec.ofNat 32 (s.bytes.length + 1)) ++ (s.bytes ++ ([0] ++ rest)) := by
    rw [encode, List.append_assoc, List.append_assoc]
  have length : (encode (.string s)).length = 4 + (s.bytes.length + 1) := by
    rw [encode, List.length_append, List.length_append, length_toBytes, List.length_singleton]
  have strLen : (bsonReadInt32Le (encode (.string s) ++ rest)).toInt =
      ((s.bytes.length + 1 : Nat) : Int) := by
    rw [whole, readInt32_toBytes (by omega)]
  have text : ((encode (.string s) ++ rest).drop 4).take (s.bytes.length + 1 - 1) = s.bytes := by
    rw [whole, List.drop_left' (length_toBytes 4 _), Nat.add_sub_cancel, List.take_left]
  rw [readString, strLen, List.length_append, length, if_neg (by omega)]
  dsimp only
  rw [if_neg (by omega), Int.toNat_natCast, text, dictCreateString, cText_bytes]
  rfl

theorem encode_item_length {items : List DictValue} {v : DictValue} (listed : v ∈ items) (i : Nat) :
    (encode v).length ≤ (encodeItems i items).length := by
  induction items generalizing i with
  | nil => cases listed
  | cons w items ih =>
    rw [encodeItems, List.length_append, length_element]
    rcases List.mem_cons.mp listed with rfl | listed
    · omega
    · exact Nat.le_add_left_of_le (ih listed (i + 1))

theorem encode_pair_length {pairs : Pairs} {p : Key × DictValue} (listed : p ∈ pairs) :
    (encode p.2).length ≤ (encodePairs pairs).length := by
  induction pairs with
  | nil => cases listed
  | cons q pairs ih =>
    obtain ⟨key, v⟩ := q
    rw [encodePairs, List.length_append, length_element]
    rcases List.mem_cons.mp listed with rfl | listed
    · dsimp only
      omega
    · exact Nat.le_add_left_of_le (ih listed)

/-- The reader goes back from the BSON of a value. -/
theorem value_reads {v : DictValue} (proper : Proper v) (small : (encode v).length < 2 ^ 31)
    {fuel : Nat} (enough : (encode v).length ≤ fuel) : Reads fuel v := by
  induction proper generalizing fuel with
  | null => exact fun rest => rfl
  | bool b =>
    intro rest
    cases b with
    | false => rfl
    | true => rfl
  | number bits =>
    intro rest
    rw [typeByte, encode, readValue, if_pos rfl, doubleOfBytes_toBytes, List.length_append,
      length_toBytes, if_neg (by omega)]
  | int64 n =>
    intro rest
    rw [typeByte, encode, readValue, if_neg (by decide), if_pos rfl, readInt64_toBytes,
      List.length_append, length_toBytes, if_neg (by omega)]
  | string s =>
    intro rest
    rw [encode, List.length_append, List.length_append, length_toBytes, List.length_singleton]
      at small
    exact readString_text s small rest
  | @array items _ ih =>
    intro rest
    rw [encode] at small enough ⊢
    have length := length_document (encodeItems 0 items)
    obtain ⟨fuel, rfl⟩ := Nat.exists_eq_succ_of_ne_zero (show fuel ≠ 0 by omega)
    refine document_read small ?_ rest
    refine items_read [] 0 (fun v listed fuel enough => ?_) (by omega)
    have part := encode_item_length listed 0
    exact ih v listed (by omega) enough
  | @object pairs keys _ ih =>
    intro rest
    rw [encode] at small enough ⊢
    have length := length_document (encodePairs pairs)
    obtain ⟨fuel, rfl⟩ := Nat.exists_eq_succ_of_ne_zero (show fuel ≠ 0 by omega)
    refine document_read small ?_ rest
    refine pairs_read [] keys (fun p listed fuel enough => ?_) (by omega)
    have part := encode_pair_length listed
    exact ih p listed (by omega) enough

/-- The BSON of a tree is written if and only if it fits in the buffer, and it is read back
as the tree. -/
theorem dictSerializeBson_round_trip (v : DictValue) (built : Buildable v)
    (root : ∃ pairs, v = .object pairs) (small : (encode v).length < 2 ^ 31) :
    (∀ bufLen, dictSerializeBson v bufLen =
      if (encode v).length ≤ bufLen then ((encode v).length, encode v) else (0, [])) ∧
    0 < (encode v).length ∧ dictDeserializeBson (encode v) = some v := by
  have proper := buildable_proper built
  obtain ⟨pairs, rfl⟩ := root
  refine ⟨fun bufLen => ?_, ?_, ?_⟩
  · have written : bsonSerializeDocument (.object pairs) bufLen = _ := value_fits proper bufLen
    rw [dictSerializeBson, written]
    by_cases room : (encode (.object pairs)).length ≤ bufLen
    · rw [if_pos room, if_pos room]
    · rw [if_neg room, if_neg room]
  · rw [encode, length_document]
    exact Nat.succ_pos _
  · have read := value_reads proper small (Nat.le_succ _) []
    rw [List.append_nil] at read
    have whole : bsonDeserializeDocumentInternal ((encode (.object pairs)).length + 1)
        (encode (.object pairs)) false = _ := read
    rw [dictDeserializeBson, whole]
    dsimp only
    rw [if_neg (not_not.mpr rfl)]

/-- The tree of `{"b":[-1,true]}` -/
def sampleTree : DictValue :=
  .object [(⟨[98], by decide, by decide, by decide⟩, .array [.int64 (-1), .bool true])]

theorem sampleTree_buildable : Buildable sampleTree :=
  .set .object (.append (.append .array (.int64 (-1)) rfl) (.bool true) rfl)
    (show dictObjectSet (.object []) [98] _ = some sampleTree from rfl)

theorem dictSerializeBson_round_trip_sample :
    dictSerializeBson sampleTree 27 = (0, []) ∧
      (dictSerializeBson sampleTree 28).1 = 28 ∧
      dictDeserializeBson (dictSerializeBson sampleTree 28).2 = some sampleTree := by
  have length : (encode sampleTree).length = 28 := by decide +kernel
  obtain ⟨written, _, read⟩ := dictSerializeBson_round_trip sampleTree sampleTree_buildable
    ⟨_, rfl⟩ (by rw [length]; decide)
  have fits : dictSerializeBson sampleTree 28 = ((encode sampleTree).length, encode sampleTree) :=
    (written 28).trans (if_pos (Nat.le_of_eq length))
  refine ⟨(written 27).trans (if_neg (by rw [length]; decide)), ?_, ?_⟩
  · rw [fits]
    exact length
  · rw [fits]
    exact read

end BsonRoundTrip
