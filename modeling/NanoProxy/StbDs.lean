import NanoProxy.CLib
import NanoProxy.Lib.OpenAddressing
import NanoProxy.Lib.TriangularProbe
import NanoProxy.Lib.StringMap

/-!
# The hash tables of include/stb_ds.h

A table is an array of entries and an index over it. The index has slots in buckets of eight;
a slot holds a hash value and the number of an entry. The slots of all buckets stand in one
row here, so that slot `z` of the bucket of `pos` has the number `pos / 8 * 8 + z`. A hash
value is a `size_t` of 64 bits; the counts stay far below that.
-/

namespace StbDs

open CLib

universe u v

def BUCKET_LENGTH : Nat := 8
def INDEX_EMPTY : Int := -1
def INDEX_DELETED : Int := -2
def HASH_EMPTY : UInt64 := 0
def HASH_DELETED : UInt64 := 1

/-- `STBDS_HM_BINARY` and `STBDS_HM_STRING`; a table of strings that `shput` makes keeps the
pointer it gets (`STBDS_SH_DEFAULT`). -/
inductive Mode where
  | binary
  | string
  deriving DecidableEq

structure Slot where
  hash : UInt64
  index : Int
  deriving DecidableEq

def Slot.empty : Slot := ⟨HASH_EMPTY, INDEX_EMPTY⟩

def Slot.deleted : Slot := ⟨HASH_DELETED, INDEX_DELETED⟩

/-- `stbds_hash_index` -/
structure HashIndex (κ : Type u) where
  tempKey : Option κ
  slotCount : Nat
  usedCount : Nat
  usedCountThreshold : Nat
  usedCountShrinkThreshold : Nat
  tombstoneCount : Nat
  tombstoneCountThreshold : Nat
  seed : UInt64
  storage : List Slot

/-- The header before the array, the entry of the default value and the entries. -/
structure Header (κ : Type u) (ν : Type v) where
  default : ν
  entries : List (κ × ν)
  hashTable : Option (HashIndex κ)

/-- `none` is the null pointer. -/
abbrev Table (κ : Type u) (ν : Type v) := Option (Header κ ν)

/-- `stbds_hash_seed` before the first table of a process is made. -/
def firstSeed : UInt64 := 0x31415926

/-- `stbds_make_hash_index` leaves the next seed behind. -/
def nextSeed (seed : UInt64) : UInt64 := seed * 2862933555777941757 + 3037000493

/-- The seed of a table when `n` tables have been made before it. -/
def seedAfter : Nat → UInt64
  | 0 => firstSeed
  | n + 1 => nextSeed (seedAfter n)

def rotateLeft (hash n : UInt64) : UInt64 := (hash <<< n) ||| (hash >>> (64 - n))

def rotateRight (hash n : UInt64) : UInt64 := (hash >>> n) ||| (hash <<< (64 - n))

def hashString (str : Bytes) (seed : UInt64) : UInt64 :=
  let hash := str.foldl (fun hash c => rotateLeft hash 9 + c.toUInt64) seed
  let hash := hash ^^^ seed
  let hash := ~~~hash + (hash <<< 18)
  let hash := hash ^^^ (hash ^^^ rotateRight hash 31)
  let hash := hash * 21
  let hash := hash ^^^ (hash ^^^ rotateRight hash 11)
  let hash := hash + (hash <<< 6)
  let hash := hash ^^^ rotateRight hash 22
  hash + seed

variable {κ : Type u} {ν : Type v}

section Index

def HashIndex.slot (t : HashIndex κ) (i : Nat) : Slot := t.storage.getD i Slot.empty

def probePosition (hash : UInt64) (slotCount : Nat) : Nat := hash.toNat &&& (slotCount - 1)

/-- The slots of the bucket of `pos`, from `pos` to the end and from the start to `pos`. -/
def bucketOrder (pos : Nat) : List Nat :=
  List.range' pos (BUCKET_LENGTH - pos % BUCKET_LENGTH) ++
    List.range' (pos / BUCKET_LENGTH * BUCKET_LENGTH) (pos % BUCKET_LENGTH)

inductive Probe where
  | found (slot : Nat)
  | empty (slot : Nat) (tombstone : Option Nat)
  | onward (tombstone : Option Nat)

/-- The body of the loops over one bucket. `equal` is `stbds_is_key_equal` for the key that is
looked up; only `stbds_hmput_key` reads the tombstone. -/
def scan (t : HashIndex κ) (equal : Int → Bool) (hash : UInt64) : Option Nat → List Nat → Probe
  | tombstone, [] => .onward tombstone
  | tombstone, i :: is =>
    if (t.slot i).hash = hash then
      if equal (t.slot i).index then .found i else scan t equal hash tombstone is
    else if (t.slot i).hash = HASH_EMPTY then .empty i tombstone
    else if tombstone = none ∧ (t.slot i).index = INDEX_DELETED then
      scan t equal hash (some i) is
    else scan t equal hash tombstone is

/-- The loop over the buckets. When it has seen every bucket it would go on for ever. -/
def probe (t : HashIndex κ) (equal : Int → Bool) (hash : UInt64) :
    Nat → Nat → Nat → Option Nat → Option Probe
  | 0, _, _, _ => none
  | rounds + 1, pos, step, tombstone =>
    match scan t equal hash tombstone (bucketOrder pos) with
    | .onward tombstone =>
      probe t equal hash rounds ((pos + step) &&& (t.slotCount - 1)) (step + BUCKET_LENGTH)
        tombstone
    | .found i => some (.found i)
    | .empty i tombstone => some (.empty i tombstone)

def lookUp (t : HashIndex κ) (equal : Int → Bool) (hash : UInt64) : Option Probe :=
  probe t equal hash (t.slotCount / BUCKET_LENGTH) (probePosition hash t.slotCount) BUCKET_LENGTH
    none

/-- `stbds_make_hash_index` before the old data is copied. -/
def emptyIndex (slotCount : Nat) (seed : UInt64) : HashIndex κ where
  tempKey := none
  slotCount := slotCount
  usedCount := 0
  usedCountThreshold := slotCount - slotCount / 4
  usedCountShrinkThreshold := if slotCount ≤ BUCKET_LENGTH then 0 else slotCount / 4
  tombstoneCount := 0
  tombstoneCountThreshold := slotCount / 8 + slotCount / 16
  seed := seed
  storage := List.replicate slotCount Slot.empty

/-- A slot in use goes to the first slot on its way whose hash value is zero; no key is
compared. -/
def copySlot (t : HashIndex κ) (s : Slot) : Option (HashIndex κ) :=
  if 0 ≤ s.index then
    match lookUp t (fun _ => false) s.hash with
    | some (.empty i _) => some { t with storage := t.storage.set i s }
    | _ => none
  else some t

/-- `stbds_make_hash_index` with an old index. -/
def rebuild (slotCount : Nat) (ot : HashIndex κ) : Option (HashIndex κ) :=
  ot.storage.foldlM copySlot { emptyIndex slotCount ot.seed with usedCount := ot.usedCount }

end Index

section Operations

variable [DecidableEq κ] [Inhabited ν] (hashKey : κ → UInt64 → UInt64)

/-- The stored values 0 and 1 stand for slots that hold nothing. -/
def keyHash (key : κ) (seed : UInt64) : UInt64 :=
  if hashKey key seed < 2 then hashKey key seed + 2 else hashKey key seed

def isKeyEqual (entries : List (κ × ν)) (key : κ) (index : Int) : Bool :=
  (entries[index.toNat]?).any fun e => e.1 = key

/-- The slot of a key, if there is one; `none` outside if the search does not end. -/
def hmFindSlot (t : HashIndex κ) (entries : List (κ × ν)) (key : κ) : Option (Option Nat) :=
  match lookUp t (isKeyEqual entries key) (keyHash hashKey key t.seed) with
  | some (.found i) => some (some i)
  | some (.empty _ _) => some none
  | _ => none

/-- A table with nothing but the entry of the default value, which is filled with zeros. -/
def newHeader : Header κ ν := ⟨default, [], none⟩

def hmgeti (a : Table κ ν) (key : κ) : Option (Table κ ν × Int) :=
  match a with
  | none => some (some newHeader, INDEX_EMPTY)
  | some h =>
    match h.hashTable with
    | none => some (some h, -1)
    | some t =>
      match hmFindSlot hashKey t h.entries key with
      | none => none
      | some none => some (some h, INDEX_EMPTY)
      | some (some slot) => some (some h, (t.slot slot).index)

/-- The index that an insertion works on: a new one has the seed of that time. -/
def growIndex (seed : UInt64) : Option (HashIndex κ) → Option (HashIndex κ)
  | none => some (emptyIndex BUCKET_LENGTH seed)
  | some t => if t.usedCountThreshold ≤ t.usedCount then rebuild (t.slotCount * 2) t else some t

/-- `temp_key` is set where the slot is found in the first of the two loops over its bucket,
not in the second. -/
def keepKey (mode : Mode) (key : κ) (hash : UInt64) (slot : Nat) (t : HashIndex κ) :
    HashIndex κ :=
  if mode = .string ∧ hash.toNat % BUCKET_LENGTH ≤ slot % BUCKET_LENGTH then
    { t with tempKey := some key }
  else t

/-- The new slot of an insertion, a tombstone where one was seen. -/
def fillSlot (mode : Mode) (key : κ) (slot : Slot) (place : Nat) (tombstone : Option Nat)
    (t : HashIndex κ) : HashIndex κ where
  tempKey := if mode = .string then some key else t.tempKey
  slotCount := t.slotCount
  usedCount := t.usedCount + 1
  usedCountThreshold := t.usedCountThreshold
  usedCountShrinkThreshold := t.usedCountShrinkThreshold
  tombstoneCount := if tombstone.isSome then t.tombstoneCount - 1 else t.tombstoneCount
  tombstoneCountThreshold := t.tombstoneCountThreshold
  seed := t.seed
  storage := t.storage.set (tombstone.getD place) slot

/-- `stbds_hmput_key`: the table and the number of the entry of the key. -/
def hmputKey (mode : Mode) (seed : UInt64) (a : Table κ ν) (key : κ) :
    Option (Header κ ν × Nat) :=
  let h := a.getD newHeader
  match growIndex seed h.hashTable with
  | none => none
  | some t =>
    let hash := keyHash hashKey key t.seed
    match lookUp t (isKeyEqual h.entries key) hash with
    | some (.found i) =>
      some ({ h with hashTable := some (keepKey mode key hash i t) }, (t.slot i).index.toNat)
    | some (.empty i tombstone) =>
      let n := h.entries.length
      some ({ h with
        entries := h.entries ++ [(key, default)]
        hashTable := some (fillSlot mode key ⟨hash, n⟩ i tombstone t) }, n)
    | _ => none

/-- `hmput` assigns the key and the value, `shput` the value. -/
def hmput (mode : Mode) (seed : UInt64) (a : Table κ ν) (key : κ) (value : ν) :
    Option (Table κ ν) :=
  match hmputKey hashKey mode seed a key with
  | none => none
  | some (h, i) =>
    match mode with
    | .binary => some (some { h with entries := h.entries.set i (key, value) })
    | .string => some (some { h with entries := h.entries.modify i fun e => (e.1, value) })

/-- `shputs` assigns the whole entry and then its key, which is `temp_key`. -/
def shputs (seed : UInt64) (a : Table κ ν) (key : κ) (value : ν) : Option (Table κ ν) :=
  match hmputKey hashKey .string seed a key with
  | none => none
  | some (h, i) =>
    match h.hashTable.bind HashIndex.tempKey with
    | none => none
    | some tempKey => some (some { h with entries := h.entries.set i (tempKey, value) })

/-- The last entry takes the place of the deleted one, and its slot gets the new number. -/
def moveLast (t : HashIndex κ) (entries : List (κ × ν)) (oldIndex : Nat) :
    Option (HashIndex κ × List (κ × ν)) :=
  if oldIndex = entries.length - 1 then some (t, entries)
  else
    match entries.getLast? with
    | none => none
    | some last =>
      let entries := entries.set oldIndex last
      match hmFindSlot hashKey t entries last.1 with
      | some (some slot) =>
        some ({ t with storage := t.storage.set slot ⟨(t.slot slot).hash, oldIndex⟩ }, entries)
      | _ => none

/-- A deletion ends with a smaller index or, when there are many tombstones, a new one. -/
def shrinkIndex (t : HashIndex κ) : Option (HashIndex κ) :=
  if t.usedCount < t.usedCountShrinkThreshold ∧ BUCKET_LENGTH < t.slotCount then
    rebuild (t.slotCount / 2) t
  else if t.tombstoneCountThreshold < t.tombstoneCount then rebuild t.slotCount t
  else some t

/-- `stbds_hmdel_key`, with whether the key was there. -/
def hmdel (a : Table κ ν) (key : κ) : Option (Table κ ν × Nat) :=
  match a with
  | none => some (none, 0)
  | some h =>
    match h.hashTable with
    | none => some (some h, 0)
    | some t =>
      match hmFindSlot hashKey t h.entries key with
      | none => none
      | some none => some (some h, 0)
      | some (some slot) =>
        let oldIndex := (t.slot slot).index.toNat
        let t := { t with
          usedCount := t.usedCount - 1
          tombstoneCount := t.tombstoneCount + 1
          storage := t.storage.set slot Slot.deleted }
        match moveLast hashKey t h.entries oldIndex with
        | none => none
        | some (t, entries) =>
          match shrinkIndex t with
          | none => none
          | some t => some (some { h with entries := entries.dropLast, hashTable := some t }, 1)

/-- `hmdefault` -/
def hmdefault (a : Table κ ν) (value : ν) : Table κ ν :=
  some { a.getD newHeader with default := value }

end Operations

end StbDs
