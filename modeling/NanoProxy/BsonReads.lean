import NanoProxy.Bson
import NanoProxy.Lib.Traced

/-!
# The reads of dict_deserialize_bson (include/dict.h)

The buffer is a memory that goes on behind `bufLen`, and every read is an event: the place,
and where the documents around it end by their declared lengths. `base` is the pointer that
a call gets, `pos` counts from there.
-/

namespace BsonReads

open CLib Dict Bson Traced Traced.Run

structure Access where
  index : Nat
  ends : List Nat
  deriving DecidableEq

section Model

variable (mem : Nat → UInt8) (ends : List Nat)

def readByte (i : Nat) : Run Access UInt8 := step ⟨i, ends⟩ (mem i)

def readBytes (i : Nat) : Nat → Run Access Bytes
  | 0 => pure []
  | n + 1 => do
    let b ← readByte mem ends i
    let bs ← readBytes (i + 1) n
    pure (b :: bs)

def readInt32 (i : Nat) : Run Access Int := do
  let buf ← readBytes mem ends i 4
  pure (bsonReadInt32Le buf).toInt

/-- `while (pos < (size_t)doc_len && buf[pos] != 0) pos++;` with `left` for what is left of
the document. -/
def scanKey (base : Nat) : (left pos : Nat) → Run Access Nat
  | 0, pos => pure pos
  | left + 1, pos => do
    let b ← readByte mem ends (base + pos)
    if b = 0 then pure pos else scanKey base left (pos + 1)

def strlen : (fuel i : Nat) → Run Access Nat
  | 0, _ => outOfFuel
  | fuel + 1, i => do
    let b ← readByte mem ends i
    if b = 0 then pure 0 else do
    let n ← strlen fuel (i + 1)
    pure (n + 1)

/-- The copy takes the NUL along. -/
def dictStrdup (fuel i : Nat) : Run Access Bytes := do
  let len ← strlen mem ends fuel i
  let dst ← readBytes mem ends i (len + 1)
  pure (dst.take len)

def readString (base docLen pos : Nat) : Run Access Read :=
  if docLen < pos + 4 then pure none else do
  let strLen ← readInt32 mem ends (base + pos)
  if strLen < 1 ∨ (docLen : Int) < pos + 4 + strLen then pure none else do
  let str ← readBytes mem ends (base + pos + 4) strLen.toNat
  pure ((dictCreateString (str.take (strLen.toNat - 1))).map (·, 4 + strLen.toNat))

/-- The switch on the type byte; `document` takes a pointer and what the parent has left. -/
def readValue (document : (base bufLen : Nat) → Bool → Run Access Read) (type : UInt8)
    (base docLen pos : Nat) : Run Access Read :=
  if type = BSON_TYPE_DOUBLE then
    if docLen < pos + 8 then pure none else do
    let b ← readBytes mem ends (base + pos) 8
    pure (some (.number (doubleOfBytes b), 8))
  else if type = BSON_TYPE_INT64 then
    if docLen < pos + 8 then pure none else do
    let b ← readBytes mem ends (base + pos) 8
    pure (some (.int64 (bsonReadInt64Le b), 8))
  else if type = BSON_TYPE_STRING then readString mem ends base docLen pos
  else if type = BSON_TYPE_BOOL then
    if docLen < pos + 1 then pure none else do
    let b ← readByte mem ends (base + pos)
    pure (some (.bool (b ≠ 0), 1))
  else if type = BSON_TYPE_NULL then pure (some (.null, 0))
  else if type = BSON_TYPE_DOCUMENT then document (base + pos) (docLen - pos) false
  else if type = BSON_TYPE_ARRAY then document (base + pos) (docLen - pos) true
  else pure none

/-- The final byte is passed over, and the end has to be the declared one. -/
def finish (docLen pos : Nat) (result : DictValue) : Option DictValue :=
  if pos + 1 ≠ docLen then none else some result

/-- An array takes no key. -/
def readKey (isArray : Bool) (fuel i : Nat) : Run Access Bytes :=
  if isArray then pure [] else dictStrdup mem ends fuel i

end Model

mutual

def bsonDeserializeDocumentInternal (mem : Nat → UInt8) :
    Nat → List Nat → (base bufLen : Nat) → Bool → Run Access Read
  | 0, _, _, _, _ => outOfFuel
  | fuel + 1, ends, base, bufLen, isArray =>
    if bufLen < 5 then pure none else do
    let docLen ← readInt32 mem ends base
    if docLen < 5 ∨ (bufLen : Int) < docLen then pure none else do
    let result ← elementLoop mem fuel ((base + docLen.toNat) :: ends) base docLen.toNat isArray 4
      (if isArray then .array [] else .object [])
    pure (result.map (·, docLen.toNat))

def elementLoop (mem : Nat → UInt8) :
    Nat → List Nat → (base docLen : Nat) → Bool → (pos : Nat) → DictValue →
      Run Access (Option DictValue)
  | 0, _, _, _, _, _, _ => outOfFuel
  | fuel + 1, ends, base, docLen, isArray, pos, result =>
    if docLen - 1 ≤ pos then pure (finish docLen pos result) else do
    let type ← readByte mem ends (base + pos)
    if type = 0 then pure (finish docLen (pos + 1) result) else do
    let keyEnd ← scanKey mem ends base (docLen - (pos + 1)) (pos + 1)
    if keyEnd = docLen then pure none else do
    match ← readValue mem ends (bsonDeserializeDocumentInternal mem fuel ends) type base docLen
        (keyEnd + 1) with
    | none => pure none
    | some (val, valRead) => do
      let key ← readKey mem ends isArray docLen (base + (pos + 1))
      match putElement isArray result key val with
      | none => pure none
      | some result => elementLoop mem fuel ends base docLen isArray (keyEnd + 1 + valRead) result

end

/-- Every call and every turn of a loop takes a byte at least. -/
def dictDeserializeBson (mem : Nat → UInt8) (bufLen : Nat) : Run Access (Option DictValue) := do
  match ← bsonDeserializeDocumentInternal mem (bufLen + 1) [] 0 bufLen false with
  | none => pure none
  | some (val, readBytes) => pure (if readBytes ≠ bufLen then none else some val)

/-- A read inside the buffer and inside all documents around it. -/
def Inside (bufLen : Nat) (a : Access) : Prop :=
  a.index < bufLen ∧ ∀ e ∈ a.ends, a.index < e

section Parts

variable {mem : Nat → UInt8} {ends : List Nat} {allowed : Access → Prop}

theorem readBytes_meets {i n : Nat} (ok : ∀ j, j < i + n → allowed ⟨j, ends⟩) :
    Meets (readBytes mem ends i n) allowed (· = window mem i n) := by
  induction n generalizing i with
  | zero => exact Meets.pure rfl
  | succ n ih =>
    refine Meets.step_bind (ok i (by omega)) ?_
    refine (ih (i := i + 1) fun j below => ok j (by omega)).bind ?_
    rintro _ rfl
    exact Meets.pure rfl

theorem readInt32_meets {i : Nat} (ok : ∀ j, j < i + 4 → allowed ⟨j, ends⟩) :
    Meets (readInt32 mem ends i) allowed (· = (bsonReadInt32Le (window mem i 4)).toInt) := by
  refine (readBytes_meets ok).bind ?_
  rintro _ rfl
  exact Meets.pure rfl

/-- An integer is read from its own four bytes. -/
theorem int32_window {i n : Nat} (four : 4 ≤ n) :
    bsonReadInt32Le (window mem i n) = bsonReadInt32Le (window mem i 4) := by
  obtain ⟨m, rfl⟩ := Nat.exists_eq_add_of_le' four
  rfl

theorem scanKey_meets {base left pos : Nat}
    (ok : ∀ j, j < base + (pos + left) → allowed ⟨j, ends⟩) :
    Meets (scanKey mem ends base left pos) allowed
      (· = pos + ((window mem (base + pos) left).takeWhile (· ≠ 0)).length) := by
  induction left generalizing pos with
  | zero => exact Meets.pure rfl
  | succ left ih =>
    refine Meets.step_bind (ok (base + pos) (by omega)) ?_
    rw [window, List.takeWhile_cons]
    by_cases nul : mem (base + pos) = 0
    · rw [if_pos nul, if_neg (by simpa using nul)]
      exact Meets.pure rfl
    · rw [if_neg nul, if_pos (by simpa using nul)]
      have rest : ∀ j, j < base + (pos + 1 + left) → allowed ⟨j, ends⟩ :=
        fun j below => ok j (by omega)
      refine (ih rest).imp ?_
      rintro _ rfl
      rw [List.length_cons, Nat.add_assoc base, Nat.add_assoc pos, Nat.add_comm 1]

theorem strlen_meets {fuel i n : Nat} (ok : ∀ j, j < i + n → allowed ⟨j, ends⟩)
    (ended : ((window mem i n).takeWhile (· ≠ 0)).length < n) (enough : n ≤ fuel) :
    Meets (strlen mem ends fuel i) allowed
      (· = ((window mem i n).takeWhile (· ≠ 0)).length) := by
  induction fuel generalizing i n with
  | zero => omega
  | succ fuel ih =>
    obtain ⟨n, rfl⟩ := Nat.exists_eq_add_one_of_ne_zero (Nat.ne_zero_of_lt ended)
    rw [window, List.takeWhile_cons] at ended ⊢
    refine Meets.step_bind (ok i (by omega)) ?_
    by_cases nul : mem i = 0
    · rw [if_pos nul, if_neg (by simpa using nul)]
      exact Meets.pure rfl
    · rw [if_pos (by simpa using nul), List.length_cons] at ended
      rw [if_neg nul, if_pos (by simpa using nul), List.length_cons]
      refine (ih (i := i + 1) (n := n) (fun j below => ok j (by omega)) (by omega) (by omega)).bind ?_
      rintro _ rfl
      exact Meets.pure rfl

theorem dictStrdup_meets {fuel i n : Nat} (ok : ∀ j, j < i + n → allowed ⟨j, ends⟩)
    (ended : ((window mem i n).takeWhile (· ≠ 0)).length < n) (enough : n ≤ fuel) :
    Meets (dictStrdup mem ends fuel i) allowed
      (· = (window mem i n).takeWhile (· ≠ 0)) := by
  refine (strlen_meets ok ended enough).bind ?_
  rintro _ rfl
  refine (readBytes_meets fun j below => ok j (by omega)).bind ?_
  rintro _ rfl
  refine Meets.pure ?_
  rw [window_take i (Nat.le_succ _), ← window_take i (Nat.le_of_lt ended)]
  exact (List.prefix_iff_eq_take.mp (List.takeWhile_prefix _)).symm

/-- What a part of a document at `pos` gives: the value of the reader on lists, and it does
not lead out of the document. -/
def Agrees (docLen pos : Nat) (expected r : Read) : Prop :=
  r = expected ∧ ∀ v k, r = some (v, k) → pos + k ≤ docLen

theorem Agrees.none {docLen pos : Nat} {expected : Read} (h : expected = none) :
    Agrees docLen pos expected none :=
  ⟨h.symm, fun _ _ found => nomatch found⟩

theorem Agrees.some {docLen pos k : Nat} {v : DictValue} {expected : Read}
    (h : expected = some (v, k)) (inside : pos + k ≤ docLen) :
    Agrees docLen pos expected (some (v, k)) := by
  refine ⟨h.symm, ?_⟩
  rintro _ _ ⟨⟩
  exact inside

variable {base docLen pos : Nat}

theorem readString_meets (inside : pos ≤ docLen)
    (ok : ∀ j, j < base + docLen → allowed ⟨j, ends⟩) :
    Meets (readString mem ends base docLen pos) allowed
      (Agrees docLen pos (Bson.readString (window mem (base + pos) (docLen - pos)))) := by
  unfold readString Bson.readString
  rw [window_length]
  by_cases short : docLen < pos + 4
  · rw [if_pos short]
    exact Meets.pure (.none (if_pos (by omega)))
  rw [if_neg short, if_neg (by omega), int32_window (by omega)]
  refine (readInt32_meets fun j below => ok j (by omega)).bind ?_
  rintro _ rfl
  generalize (bsonReadInt32Le (window mem (base + pos) 4)).toInt = strLen
  dsimp only
  by_cases wrong : strLen < 1 ∨ (docLen : Int) < pos + 4 + strLen
  · rw [if_pos wrong]
    exact Meets.pure (.none (if_pos (by omega)))
  rw [if_neg wrong, if_neg (by omega)]
  refine (readBytes_meets fun j below => ok j (by omega)).bind ?_
  rintro _ rfl
  rw [window_take _ (Nat.sub_le _ _), window_drop, window_take _ (by omega)]
  refine Meets.pure ?_
  cases made : dictCreateString (window mem (base + pos + 4) (strLen.toNat - 1)) with
  | none => exact .none rfl
  | some v => exact .some rfl (by omega)

/-- A value of eight bytes. -/
theorem eight_meets {f : Bytes → DictValue} (ok : ∀ j, j < base + docLen → allowed ⟨j, ends⟩)
    (front : ∀ bytes, f (bytes.take 8) = f bytes) :
    Meets (if docLen < pos + 8 then pure none else do
        let b ← readBytes mem ends (base + pos) 8
        pure (some (f b, 8))) allowed
      (Agrees docLen pos (if (window mem (base + pos) (docLen - pos)).length < 8 then none
        else some (f (window mem (base + pos) (docLen - pos)), 8))) := by
  rw [window_length]
  by_cases short : docLen < pos + 8
  · rw [if_pos short]
    exact Meets.pure (.none (if_pos (by omega)))
  rw [if_neg short, if_neg (by omega)]
  refine (readBytes_meets fun j below => ok j (by omega)).bind ?_
  rintro _ rfl
  exact Meets.pure (.some (by rw [← front, window_take _ (by omega)]) (by omega))

theorem readValue_meets {document : Nat → Nat → Bool → Run Access Read}
    (expected : Bytes → Bool → Read) (type : UInt8) (inside : pos ≤ docLen)
    (ok : ∀ j, j < base + docLen → allowed ⟨j, ends⟩)
    (documents : ∀ isArray, Meets (document (base + pos) (docLen - pos) isArray) allowed
      (Agrees docLen pos (expected (window mem (base + pos) (docLen - pos)) isArray))) :
    Meets (readValue mem ends document type base docLen pos) allowed
      (Agrees docLen pos
        (Bson.readValue expected type (window mem (base + pos) (docLen - pos)))) := by
  unfold readValue Bson.readValue
  split
  · exact eight_meets ok fun bytes => by rw [doubleOfBytes, doubleOfBytes, List.take_take, Nat.min_self]
  split
  · exact eight_meets ok fun bytes => by
      rw [bsonReadInt64Le, bsonReadInt64Le, List.take_take, Nat.min_self]
  split
  · exact readString_meets inside ok
  split
  · rw [window_length]
    by_cases short : docLen < pos + 1
    · rw [if_pos short]
      exact Meets.pure (.none (if_pos (by omega)))
    rw [if_neg short, if_neg (by omega)]
    refine Meets.step_bind (ok _ (by omega)) (Meets.pure (.some ?_ (by omega)))
    rw [window_getD _ (by omega), Nat.add_zero]
  split
  · exact Meets.pure (.some rfl inside)
  split
  · exact documents false
  split
  · exact documents true
  · exact Meets.pure (.none rfl)

end Parts

section Documents

variable {mem : Nat → UInt8} {limit : Nat}

/-- What the call of a document does with enough fuel. The last part says that the length
it gives back is the declared one. -/
def DocumentMeets (mem : Nat → UInt8) (limit fuel : Nat) : Prop :=
  ∀ {ends : List Nat} {base bufLen : Nat} (isArray : Bool), bufLen < fuel →
    (∀ j, j < base + bufLen → Inside limit ⟨j, ends⟩) →
    Meets (bsonDeserializeDocumentInternal mem fuel ends base bufLen isArray) (Inside limit)
      fun r => r = Bson.bsonDeserializeDocumentInternal fuel (window mem base bufLen) isArray ∧
        ∀ v k, r = some (v, k) → k ≤ bufLen ∧ (bsonReadInt32Le (window mem base 4)).toInt = k

def LoopMeets (mem : Nat → UInt8) (limit fuel : Nat) : Prop :=
  ∀ {ends : List Nat} {base docLen pos : Nat} (isArray : Bool) (result : DictValue),
    0 < docLen → pos ≤ docLen → docLen - pos < fuel →
    (∀ j, j < base + docLen → Inside limit ⟨j, ends⟩) →
    Meets (elementLoop mem fuel ends base docLen isArray pos result) (Inside limit)
      (· = Bson.elementLoop fuel (window mem (base + pos) (docLen - pos)) isArray result)

theorem documentMeets_succ {fuel : Nat} (loop : LoopMeets mem limit fuel) :
    DocumentMeets mem limit (fuel + 1) := by
  intro ends base bufLen isArray enough ok
  unfold bsonDeserializeDocumentInternal Bson.bsonDeserializeDocumentInternal
  rw [window_length]
  by_cases short : bufLen < 5
  · rw [if_pos short, if_pos short]
    exact Meets.pure ⟨rfl, fun _ _ found => nomatch found⟩
  rw [if_neg short, if_neg short, int32_window (by omega)]
  refine (readInt32_meets fun j below => ok j (by omega)).bind ?_
  rintro docLen rfl
  generalize (bsonReadInt32Le (window mem base 4)).toInt = docLen
  dsimp only
  by_cases wrong : docLen < 5 ∨ (bufLen : Int) < docLen
  · rw [if_pos wrong, if_pos wrong]
    exact Meets.pure ⟨rfl, fun _ _ found => nomatch found⟩
  rw [if_neg wrong, if_neg wrong, window_take _ (by omega), window_drop]
  refine (loop isArray _ (by omega) (by omega) (by omega) fun j below => ?_).bind ?_
  · obtain ⟨inside, parents⟩ := ok j (by omega)
    exact ⟨inside, List.forall_mem_cons.mpr ⟨below, parents⟩⟩
  rintro _ rfl
  refine Meets.pure ⟨rfl, fun v k found => ?_⟩
  obtain ⟨_, _, same⟩ := Option.map_eq_some_iff.mp found
  cases same
  omega

theorem finish_eq {docLen pos : Nat} (result : DictValue) :
    finish docLen (pos + 1) result = if docLen - (pos + 1) = 1 then some result else none := by
  unfold finish
  by_cases last : docLen - (pos + 1) = 1
  · rw [if_pos last, if_neg (by omega)]
  · rw [if_neg last, if_pos (by omega)]

theorem readKey_meets {ends : List Nat} {allowed : Access → Prop} {i n fuel : Nat} (isArray : Bool)
    (ok : ∀ j, j < i + n → allowed ⟨j, ends⟩)
    (ended : ((window mem i n).takeWhile (· ≠ 0)).length < n) (enough : n ≤ fuel) :
    Meets (readKey mem ends isArray fuel i) allowed fun key => ∀ result v,
      putElement isArray result key v =
        putElement isArray result ((window mem i n).takeWhile (· ≠ 0)) v := by
  cases isArray with
  | true => exact Meets.pure fun _ _ => rfl
  | false =>
    refine (dictStrdup_meets ok ended enough).imp ?_
    rintro _ rfl _ _
    rfl

theorem loopMeets_succ {fuel : Nat} (document : DocumentMeets mem limit fuel)
    (loop : LoopMeets mem limit fuel) : LoopMeets mem limit (fuel + 1) := by
  intro ends base docLen pos isArray result nonempty inside enough ok
  unfold elementLoop
  by_cases last : docLen - 1 ≤ pos
  · rw [if_pos last]
    have few : docLen - pos = 0 ∨ docLen - pos = 1 := by omega
    rcases few with none | one
    · rw [none]
      exact Meets.pure (if_pos (by omega))
    · rw [one]
      exact Meets.pure (if_neg (by omega))
  rw [if_neg last]
  have split : docLen - pos = docLen - (pos + 2) + 1 + 1 := by omega
  have tail : mem (base + pos + 1) :: window mem (base + pos + 1 + 1) (docLen - (pos + 2)) =
      window mem (base + (pos + 1)) (docLen - (pos + 1)) := by
    rw [window_cons (by omega : 0 < docLen - (pos + 1))]
    rfl
  rw [split, window, window, elementLoop_succ, tail, window_length]
  refine Meets.step_bind (ok _ (by omega)) ?_
  by_cases ended : mem (base + pos) = 0
  · rw [if_pos ended, if_pos ended]
    exact Meets.pure (finish_eq result)
  rw [if_neg ended, if_neg ended]
  refine (scanKey_meets fun j below => ok j (by omega)).bind ?_
  rintro _ rfl
  have keyLength : ((window mem (base + (pos + 1)) (docLen - (pos + 1))).takeWhile (· ≠ 0)).length ≤
      docLen - (pos + 1) := by
    have shorter := (List.takeWhile_sublist (p := (· ≠ 0))
      (l := window mem (base + (pos + 1)) (docLen - (pos + 1)))).length_le
    rwa [window_length] at shorter
  dsimp only
  generalize key : (window mem (base + (pos + 1)) (docLen - (pos + 1))).takeWhile (· ≠ 0) = name at *
  by_cases unterminated : pos + 1 + name.length = docLen
  · rw [if_pos unterminated, if_pos (by omega)]
    exact Meets.pure rfl
  rw [if_neg unterminated, if_neg (by omega), window_drop]
  have place : base + (pos + 1) + (name.length + 1) = base + (pos + 1 + name.length + 1) := by omega
  have rest : docLen - (pos + 1) - (name.length + 1) = docLen - (pos + 1 + name.length + 1) := by omega
  rw [place, rest]
  refine (readValue_meets (Bson.bsonDeserializeDocumentInternal fuel) _ (by omega) ok
    fun isArray => ?_).bind ?_
  · refine (document isArray (by omega) fun j below => ok j (by omega)).imp ?_
    rintro r ⟨same, bounds⟩
    refine ⟨same, fun v k found => ?_⟩
    have := (bounds v k found).1
    omega
  rintro r ⟨same, bounds⟩
  rw [← same]
  rcases r with _ | ⟨val, valRead⟩
  · exact Meets.pure rfl
  have further := bounds val valRead rfl
  dsimp only
  refine (readKey_meets isArray (fun j below => ok j (by omega))
    (by rw [key]; omega) (by omega : docLen - (pos + 1) ≤ docLen)).bind fun copy put => ?_
  rw [put, key]
  cases putElement isArray result name val with
  | none => exact Meets.pure rfl
  | some result =>
    have behind : (window mem (base + (pos + 1 + name.length + 1))
        (docLen - (pos + 1 + name.length + 1))).drop valRead =
        window mem (base + (pos + 1 + name.length + 1 + valRead))
          (docLen - (pos + 1 + name.length + 1 + valRead)) := by
      rw [window_drop, Nat.add_assoc, Nat.sub_sub]
    dsimp only
    rw [behind]
    exact loop isArray result nonempty (by omega) (by omega) ok

theorem documents_meet (mem : Nat → UInt8) (limit fuel : Nat) :
    DocumentMeets mem limit fuel ∧ LoopMeets mem limit fuel := by
  induction fuel with
  | zero => exact ⟨fun _ enough => by omega, fun _ _ _ _ enough => by omega⟩
  | succ fuel ih => exact ⟨documentMeets_succ ih.2, loopMeets_succ ih.1 ih.2⟩

theorem dictDeserializeBson_meets (mem : Nat → UInt8) (bufLen : Nat) :
    Meets (dictDeserializeBson mem bufLen) (Inside bufLen) fun r =>
      r = Bson.dictDeserializeBson (window mem 0 bufLen) ∧
        (r.isSome → (bsonReadInt32Le (window mem 0 4)).toInt = bufLen) := by
  unfold dictDeserializeBson Bson.dictDeserializeBson
  rw [window_length]
  refine ((documents_meet mem bufLen (bufLen + 1)).1 false (Nat.lt_succ_self bufLen)
    fun j below => ⟨by rwa [Nat.zero_add] at below, List.forall_mem_nil _⟩).bind ?_
  rintro r ⟨same, bounds⟩
  rw [← same]
  rcases r with _ | ⟨val, readBytes⟩
  · exact Meets.pure ⟨rfl, nofun⟩
  obtain ⟨_, declared⟩ := bounds val readBytes rfl
  refine Meets.pure ⟨rfl, fun found => ?_⟩
  by_cases whole : readBytes = bufLen
  · rw [declared, whole]
  · rw [if_pos whole] at found
    cases found

/-- On memory the reader gives what the one on lists gives. -/
theorem dictDeserializeBson_refines (mem : Nat → UInt8) (bufLen : Nat) :
    (dictDeserializeBson mem bufLen).value =
      some (Bson.dictDeserializeBson (window mem 0 bufLen)) := by
  obtain ⟨_, r, found, same, _⟩ := dictDeserializeBson_meets mem bufLen
  rw [found, same]

/-- Decoding ends on every buffer and reads nothing behind it, nor behind the declared end of
a document around; what is accepted declares its own length. -/
theorem dictDeserializeBson_safe (mem : Nat → UInt8) (bufLen : Nat) :
    Meets (dictDeserializeBson mem bufLen) (Inside bufLen) fun r =>
      r.isSome → (bsonReadInt32Le (window mem 0 4)).toInt = bufLen :=
  (dictDeserializeBson_meets mem bufLen).imp fun _ h => h.2

end Documents

end BsonReads
