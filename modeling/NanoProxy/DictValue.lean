import NanoProxy.CLib
import Mathlib.Data.List.Nodup
import Mathlib.Data.List.Perm.Basic

/-!
# Dictionary values (include/dict.h)

The tree and the functions that build one. Allocation does not fail here. A string or a
key in a tree has passed the check of the function that put it there.
-/

namespace Dict

open CLib

def MAX_KEY_LEN : Nat := 64 * 1024
def MAX_VALUE_LEN : Nat := 20000000

/-- A C string with a byte at least and fewer than `max`. -/
structure CText (max : Nat) where
  bytes : Bytes
  nonempty : bytes ≠ []
  length_lt : bytes.length < max
  no_nul : 0 ∉ bytes
  deriving DecidableEq

abbrev Key := CText MAX_KEY_LEN
abbrev Str := CText MAX_VALUE_LEN

/-- A double is its bit pattern. -/
inductive DictValue where
  | null
  | bool (b : Bool)
  | number (bits : UInt64)
  | int64 (n : Int64)
  | string (s : Str)
  | array (items : List DictValue)
  | object (pairs : List (Key × DictValue))

abbrev Pairs := List (Key × DictValue)

theorem takeWhile_no_nul (s : Bytes) : 0 ∉ s.takeWhile (· ≠ 0) := by
  intro nul
  have nonzero := List.mem_takeWhile_imp nul
  exact absurd nonzero (by decide)

/-- The C string at the beginning of `s`, when its length passes the check. -/
def cText (max : Nat) (s : Bytes) : Option (CText max) :=
  let text := s.takeWhile (· ≠ 0)
  if h : text = [] ∨ max ≤ text.length then none
  else some ⟨text, (not_or.mp h).1, Nat.lt_of_not_le (not_or.mp h).2, takeWhile_no_nul s⟩

theorem cText_isSome (max : Nat) (s : Bytes) :
    (cText max s).isSome ↔
      s.takeWhile (· ≠ 0) ≠ [] ∧ (s.takeWhile (· ≠ 0)).length < max := by
  unfold cText
  dsimp only
  split
  · rename_i refused
    refine ⟨nofun, fun h => ?_⟩
    rcases refused with empty | long
    · exact absurd empty h.1
    · exact absurd h.2 (Nat.not_lt.mpr long)
  · rename_i taken
    rw [not_or] at taken
    exact ⟨fun _ => ⟨taken.1, Nat.lt_of_not_le taken.2⟩, fun _ => rfl⟩

theorem cText_text {max : Nat} {s : Bytes} {t : CText max} (made : cText max s = some t) :
    t.bytes = s.takeWhile (· ≠ 0) := by
  unfold cText at made
  dsimp only at made
  split at made
  · cases made
  · cases made
    rfl

theorem CText.eq_of_bytes {max : Nat} {t t' : CText max} (same : t.bytes = t'.bytes) : t = t' := by
  cases t
  cases t'
  cases same
  rfl

/-- A text passes its own check. -/
theorem cText_bytes {max : Nat} (t : CText max) : cText max t.bytes = some t := by
  have whole : t.bytes.takeWhile (· ≠ 0) = t.bytes := by
    rw [List.takeWhile_eq_self_iff]
    intro b listed
    rw [decide_eq_true_iff]
    rintro rfl
    exact t.no_nul listed
  have passes : (cText max t.bytes).isSome := by
    rw [cText_isSome, whole]
    exact ⟨t.nonempty, t.length_lt⟩
  obtain ⟨t', same⟩ := Option.isSome_iff_exists.mp passes
  rw [same, CText.eq_of_bytes ((cText_text same).trans whole)]

def dictCreateString (s : Bytes) : Option DictValue := (cText MAX_VALUE_LEN s).map .string

def dictArrayAppend : DictValue → DictValue → Option DictValue
  | .array items, v => some (.array (items ++ [v]))
  | _, _ => none

/-- The pair with the key is replaced in its place, a new one is put at the end. -/
def setPair (key : Key) (v : DictValue) : Pairs → Pairs
  | [] => [(key, v)]
  | (k, old) :: pairs => if k = key then (k, v) :: pairs else (k, old) :: setPair key v pairs

def dictObjectSet : DictValue → Bytes → DictValue → Option DictValue
  | .object pairs, key, v => (cText MAX_KEY_LEN key).map fun key => .object (setPair key v pairs)
  | _, _, _ => none

def dictObjectGet : DictValue → Bytes → Option DictValue
  | .object pairs, key =>
    (pairs.find? fun p => p.1.bytes = key.takeWhile (· ≠ 0)).map Prod.snd
  | _, _ => none

/-- The last pair moves into the gap. -/
def dictObjectRemove : DictValue → Bytes → Option DictValue
  | .object pairs, key =>
    match pairs.findIdx? fun p => p.1.bytes = key.takeWhile (· ≠ 0) with
    | none => none
    | some i => match pairs.getLast? with
      | none => none
      | some last => some (.object (if i = pairs.length - 1 then pairs.dropLast
          else (pairs.set i last).dropLast))
  | _, _ => none

def dictObjectSortKeys : DictValue → DictValue
  | .object pairs => .object (pairs.mergeSort fun p q => p.1.bytes ≤ q.1.bytes)
  | v => v

/-- The trees that the functions above can build. -/
inductive Buildable : DictValue → Prop
  | null : Buildable .null
  | bool (b : Bool) : Buildable (.bool b)
  | number (bits : UInt64) : Buildable (.number bits)
  | int64 (n : Int64) : Buildable (.int64 n)
  | string {s : Bytes} {v : DictValue} (made : dictCreateString s = some v) : Buildable v
  | array : Buildable (.array [])
  | append {a v a' : DictValue} (array : Buildable a) (item : Buildable v)
    (made : dictArrayAppend a v = some a') : Buildable a'
  | object : Buildable (.object [])
  | set {o v o' : DictValue} {key : Bytes} (object : Buildable o) (value : Buildable v)
    (made : dictObjectSet o key v = some o') : Buildable o'
  | remove {o o' : DictValue} {key : Bytes} (object : Buildable o)
    (made : dictObjectRemove o key = some o') : Buildable o'
  | sort {o : DictValue} (object : Buildable o) : Buildable (dictObjectSortKeys o)

/-- No object has a key twice. -/
inductive Proper : DictValue → Prop
  | null : Proper .null
  | bool (b : Bool) : Proper (.bool b)
  | number (bits : UInt64) : Proper (.number bits)
  | int64 (n : Int64) : Proper (.int64 n)
  | string (s : Str) : Proper (.string s)
  | array {items : List DictValue} (each : ∀ v ∈ items, Proper v) : Proper (.array items)
  | object {pairs : Pairs} (keys : (pairs.map Prod.fst).Nodup) (each : ∀ p ∈ pairs, Proper p.2) :
    Proper (.object pairs)

mutual

def same : DictValue → DictValue → Bool
  | .null, .null => true
  | .bool a, .bool b => a = b
  | .number a, .number b => a = b
  | .int64 a, .int64 b => a = b
  | .string s, .string t => s = t
  | .array vs, .array ws => sameItems vs ws
  | .object ps, .object qs => samePairs ps qs
  | _, _ => false

def sameItems : List DictValue → List DictValue → Bool
  | [], [] => true
  | v :: vs, w :: ws => same v w && sameItems vs ws
  | _, _ => false

def samePairs : Pairs → Pairs → Bool
  | [], [] => true
  | (k, v) :: ps, (l, w) :: qs => k = l && same v w && samePairs ps qs
  | _, _ => false

end

mutual

theorem same_iff (v w : DictValue) : same v w = true ↔ v = w := by
  cases v <;> cases w <;> simp [same, sameItems_iff, samePairs_iff]

theorem sameItems_iff (vs ws : List DictValue) : sameItems vs ws = true ↔ vs = ws := by
  match vs, ws with
  | [], [] => simp [sameItems]
  | [], _ :: _ => simp [sameItems]
  | _ :: _, [] => simp [sameItems]
  | v :: vs, w :: ws =>
    rw [sameItems, Bool.and_eq_true, same_iff v w, sameItems_iff vs ws, List.cons.injEq]

theorem samePairs_iff (ps qs : Pairs) : samePairs ps qs = true ↔ ps = qs := by
  match ps, qs with
  | [], [] => simp [samePairs]
  | [], _ :: _ => simp [samePairs]
  | _ :: _, [] => simp [samePairs]
  | (k, v) :: ps, (l, w) :: qs =>
    simp only [samePairs, Bool.and_eq_true, decide_eq_true_eq, same_iff v w, samePairs_iff ps qs,
      List.cons.injEq, Prod.mk.injEq]

end

instance : DecidableEq DictValue := fun v w => decidable_of_iff _ (same_iff v w)

theorem mem_setPair {key : Key} {v : DictValue} {pairs : Pairs} {p : Key × DictValue}
    (listed : p ∈ setPair key v pairs) : p.2 = v ∨ p ∈ pairs := by
  induction pairs with
  | nil =>
    rw [setPair, List.mem_singleton] at listed
    exact Or.inl (by rw [listed])
  | cons q pairs ih =>
    rw [setPair] at listed
    split at listed
    · rcases List.mem_cons.mp listed with rfl | listed
      · exact Or.inl rfl
      · exact Or.inr (List.mem_cons_of_mem _ listed)
    · rcases List.mem_cons.mp listed with rfl | listed
      · exact Or.inr List.mem_cons_self
      · exact (ih listed).imp_right (List.mem_cons_of_mem _)

/-- A new key goes to the end. -/
theorem setPair_new {key : Key} {pairs : Pairs} (fresh : key ∉ pairs.map Prod.fst) (v : DictValue) :
    setPair key v pairs = pairs ++ [(key, v)] := by
  induction pairs with
  | nil => rfl
  | cons q pairs ih =>
    rw [List.map_cons, List.mem_cons, not_or] at fresh
    rw [setPair, if_neg (Ne.symm fresh.1), ih fresh.2]
    rfl

/-- A new pair is put behind the others. -/
theorem dictObjectSet_new {done : Pairs} {key : Key} (fresh : key ∉ done.map Prod.fst)
    (v : DictValue) :
    dictObjectSet (.object done) key.bytes v = some (.object (done ++ [(key, v)])) := by
  rw [dictObjectSet, cText_bytes, Option.map_some, setPair_new fresh]

theorem setPair_keys {key : Key} {pairs : Pairs} (v : DictValue) :
    (setPair key v pairs).map Prod.fst =
      if key ∈ pairs.map Prod.fst then pairs.map Prod.fst else pairs.map Prod.fst ++ [key] := by
  induction pairs with
  | nil => rfl
  | cons q pairs ih =>
    rw [setPair]
    split
    · rename_i same
      rw [List.map_cons, List.map_cons, if_pos (by rw [same]; exact List.mem_cons_self)]
    · rename_i other
      rw [List.map_cons, List.map_cons, ih]
      by_cases known : key ∈ pairs.map Prod.fst
      · rw [if_pos known, if_pos (List.mem_cons_of_mem _ known)]
      · rw [if_neg known, if_neg]
        · rfl
        · rw [List.mem_cons, not_or]
          exact ⟨Ne.symm other, known⟩

theorem setPair_nodup {key : Key} {pairs : Pairs} (keys : (pairs.map Prod.fst).Nodup)
    (v : DictValue) : ((setPair key v pairs).map Prod.fst).Nodup := by
  rw [setPair_keys]
  split
  · exact keys
  · rename_i fresh
    exact List.nodup_append'.mpr ⟨keys, List.nodup_singleton _,
      List.disjoint_singleton.mpr fresh⟩

/-- Removal takes one pair out. -/
theorem remove_perm {α : Type} {pairs : List α} {last : α} {i : Nat} (inside : i < pairs.length)
    (ends : pairs.getLast? = some last) : pairs.Perm
      (pairs[i] :: if i = pairs.length - 1 then pairs.dropLast
        else (pairs.set i last).dropLast) := by
  obtain ⟨init, rfl⟩ := List.getLast?_eq_some_iff.mp ends
  have length : (init ++ [last]).length = init.length + 1 := by simp
  split
  · have final : i = init.length := by omega
    subst final
    rw [List.dropLast_concat, List.getElem_concat_length rfl]
    exact List.perm_append_singleton last init
  · have inside : i < init.length := by omega
    rw [List.set_append_left _ _ inside, List.dropLast_concat, List.getElem_append_left inside]
    calc (init ++ [last]).Perm (last :: init) := List.perm_append_singleton last init
      List.Perm _ (last :: init[i] :: init.eraseIdx i) :=
        (List.getElem_cons_eraseIdx_perm inside).symm.cons last
      List.Perm _ (init[i] :: last :: init.eraseIdx i) := .swap _ _ _
      List.Perm _ (init[i] :: init.set i last) := (List.set_perm_cons_eraseIdx inside last).symm.cons _

theorem buildable_proper {v : DictValue} (h : Buildable v) : Proper v := by
  induction h with
  | null => exact .null
  | bool b => exact .bool b
  | number bits => exact .number bits
  | int64 n => exact .int64 n
  | string made =>
    obtain ⟨s, _, rfl⟩ := Option.map_eq_some_iff.mp made
    exact .string s
  | array => exact .array fun _ listed => nomatch listed
  | @append a v a' _ _ made array item =>
    cases a with
    | array items =>
      cases made
      cases array with
      | array each =>
        refine .array fun v listed => ?_
        rcases List.mem_append.mp listed with listed | listed
        · exact each v listed
        · rw [List.mem_singleton.mp listed]
          exact item
    | _ => cases made
  | object => exact .object List.nodup_nil fun _ listed => nomatch listed
  | @set o v o' key _ _ made object value =>
    cases o with
    | object pairs =>
      obtain ⟨key, _, rfl⟩ := Option.map_eq_some_iff.mp made
      cases object with
      | object keys each =>
        refine .object (setPair_nodup keys v) fun p listed => ?_
        rcases mem_setPair listed with new | old
        · rw [new]
          exact value
        · exact each p old
    | _ => cases made
  | @remove o o' key _ made object =>
    cases o with
    | object pairs =>
      rw [dictObjectRemove] at made
      split at made
      · cases made
      split at made
      · cases made
      rename_i i found _ last ends
      cases made
      cases object with
      | object keys each =>
        obtain ⟨inside, _⟩ := List.findIdx?_eq_some_iff_getElem.mp found
        have same := remove_perm inside ends
        have keys := (same.map Prod.fst).nodup_iff.mp keys
        rw [List.map_cons] at keys
        exact .object keys.of_cons fun q listed =>
          each q (same.symm.subset (List.mem_cons_of_mem _ listed))
    | _ => cases made
  | @sort o _ object =>
    cases o with
    | object pairs =>
      cases object with
      | object keys each =>
        have same := List.mergeSort_perm pairs fun p q => p.1.bytes ≤ q.1.bytes
        exact .object ((same.map Prod.fst).nodup_iff.mpr keys) fun p listed =>
          each p (same.subset listed)
    | _ => exact object

end Dict
