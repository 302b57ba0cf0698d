import NanoProxy.DictValue
import NanoProxy.Lib.StringMap
import NanoProxy.Lib.Traced
import Mathlib.Data.List.Induction

/-!
# The array of a dictionary object (include/dict.h)

`pairs` with its count and its capacity. A slot that is out of use keeps what it had, and
`qsort` is a parameter. Allocation does not fail here. Over any calls the object is a finite
map, and the functions over lists of pairs in `Dict` do the same.
-/

namespace ObjectTable

open CLib Dict StringMap Traced

def SIZE_MAX : Nat := 2 ^ 64 - 1

/-- What the C library sorts with: some permutation, in the order of a comparison that is one. -/
structure Qsort (α : Type) where
  sort : (α → α → Int) → List α → List α
  perm : ∀ cmp l, (sort cmp l).Perm l
  ordered : ∀ cmp l, (∀ a b, cmp a b ≤ 0 ∨ cmp b a ≤ 0) →
    (∀ a b c, cmp a b ≤ 0 → cmp b c ≤ 0 → cmp a c ≤ 0) → (sort cmp l).Pairwise (cmp · · ≤ 0)

theorem mergeSort_ordered {α : Type} (cmp : α → α → Int) (l : List α)
    (total : ∀ a b, cmp a b ≤ 0 ∨ cmp b a ≤ 0)
    (trans : ∀ a b c, cmp a b ≤ 0 → cmp b c ≤ 0 → cmp a c ≤ 0) :
    (l.mergeSort fun a b => cmp a b ≤ 0).Pairwise (cmp · · ≤ 0) := by
  have sorted := @List.pairwise_mergeSort _ (fun a b => decide (cmp a b ≤ 0))
    (by simpa using trans) (by simpa using total) l
  simpa using sorted

/-- Merge sort is one. -/
def Qsort.merge {α : Type} : Qsort α where
  sort cmp l := l.mergeSort fun a b => cmp a b ≤ 0
  perm _ l := List.mergeSort_perm l _
  ordered := mergeSort_ordered

variable {V : Type}

/-- `slots` are those that have been written; the first `count` of them are in use. -/
structure DictObject (V : Type) where
  count : Nat
  capacity : Nat
  slots : List (Bytes × V)

def used (obj : DictObject V) : List (Bytes × V) := obj.slots.take obj.count

def strcmp (a b : Bytes) : Int := if b < a then 1 else if a = b then 0 else -1

def strnlen (s : Bytes) (max : Nat) : Nat := min (s.takeWhile (· ≠ 0)).length max

def dictCreateObject : DictObject V := { count := 0, capacity := 4, slots := [] }

def dictObjectEnsureCapacity (obj : DictObject V) (newCapacity : Nat) : Option (DictObject V) :=
  if newCapacity ≤ obj.capacity then some obj
  else
    let newCap := if SIZE_MAX / 2 < obj.capacity then newCapacity
      else if obj.capacity * 2 < newCapacity then newCapacity else obj.capacity * 2
    if SIZE_MAX / 16 < newCap then none else some { obj with capacity := newCap }

def dictObjectFindKey (obj : DictObject V) (key : Bytes) : Option Nat :=
  (used obj).findIdx? (·.1 = key.takeWhile (· ≠ 0))

/-- `none` is NULL; `key` is the memory from the pointer on. -/
def dictObjectSet (obj : DictObject V) (key : Option Bytes) (newVal : Option V) :
    Bool × DictObject V :=
  match key, newVal with
  | some key, some newVal =>
    let keyLen := strnlen key MAX_KEY_LEN
    if keyLen = 0 ∨ MAX_KEY_LEN ≤ keyLen then (false, obj) else
    match dictObjectFindKey obj key with
    | some idx => (true, { obj with slots := obj.slots.modify idx fun p => (p.1, newVal) })
    | none =>
      match dictObjectEnsureCapacity obj ((obj.count + 1) % 2 ^ 64) with
      | none => (false, obj)
      | some obj => (true, { obj with
          slots := splice obj.slots obj.count [(key.takeWhile (· ≠ 0), newVal)]
          count := obj.count + 1 })
  | _, _ => (false, obj)

def dictObjectGet (obj : DictObject V) (key : Option Bytes) : Option V :=
  match key with
  | none => none
  | some key => (dictObjectFindKey obj key).bind fun idx => obj.slots[idx]?.map (·.2)

def dictObjectRemove (obj : DictObject V) (key : Option Bytes) : Bool × DictObject V :=
  match key with
  | none => (false, obj)
  | some key =>
    match dictObjectFindKey obj key with
    | none => (false, obj)
    | some idx =>
      let slots := if idx = obj.count - 1 then obj.slots
        else match obj.slots[obj.count - 1]? with
          | none => obj.slots
          | some last => obj.slots.set idx last
      (true, { obj with slots := slots, count := obj.count - 1 })

def dictKeyCompare (a b : Bytes × V) : Int := strcmp a.1 b.1

def dictObjectSortKeys (q : Qsort (Bytes × V)) (obj : DictObject V) : DictObject V :=
  { obj with slots := q.sort dictKeyCompare (used obj) ++ obj.slots.drop obj.count }

inductive Op (V : Type) where
  | set (key : Option Bytes) (newVal : Option V)
  | remove (key : Option Bytes)
  | sortKeys

def Op.run (q : Qsort (Bytes × V)) (obj : DictObject V) : Op V → Bool × DictObject V
  | .set key newVal => dictObjectSet obj key newVal
  | .remove key => dictObjectRemove obj key
  | .sortKeys => (true, dictObjectSortKeys q obj)

/-- The object after the calls, and the calls so far with their results. -/
def runOps (q : Qsort (Bytes × V)) (obj : DictObject V) (history : List (Op V × Bool)) :
    List (Op V) → DictObject V × List (Op V × Bool)
  | [] => (obj, history)
  | op :: ops =>
    let result := op.run q obj
    runOps q result.2 (history ++ [(op, result.1)]) ops

/-- What a call means for the value under `k`. -/
def remember (k : Bytes) (value : Option V) : Op V × Bool → Option V
  | (.set (some key) (some newVal), true) =>
    if key.takeWhile (· ≠ 0) = k then some newVal else value
  | (.remove (some key), _) => if key.takeWhile (· ≠ 0) = k then none else value
  | _ => value

/-- The value of the last successful set of `k` that no remove of `k` follows. -/
def recalled (k : Bytes) (history : List (Op V × Bool)) : Option V :=
  history.foldl (remember k) none

structure Valid (obj : DictObject V) : Prop where
  counted : obj.count ≤ obj.slots.length
  room : obj.slots.length ≤ obj.capacity
  limited : obj.capacity ≤ SIZE_MAX / 16
  distinct : ((used obj).map (·.1)).Nodup
  keys : ∀ p ∈ used obj, 1 ≤ p.1.length ∧ p.1.length ≤ MAX_KEY_LEN - 1 ∧ 0 ∉ p.1

section Steps

variable {obj : DictObject V} {key : Bytes} {newVal : V}

theorem strnlen_refused : (strnlen key MAX_KEY_LEN = 0 ∨ MAX_KEY_LEN ≤ strnlen key MAX_KEY_LEN) ↔
    ¬ (1 ≤ (key.takeWhile (· ≠ 0)).length ∧ (key.takeWhile (· ≠ 0)).length ≤ MAX_KEY_LEN - 1) := by
  have some : 0 < MAX_KEY_LEN := by decide
  unfold strnlen
  omega

theorem used_length (valid : Valid obj) : (used obj).length = obj.count :=
  List.length_take_of_le valid.counted

theorem findKey_lt {idx : Nat} (valid : Valid obj) (found : dictObjectFindKey obj key = some idx) :
    idx < obj.count := by
  rw [← used_length valid]
  exact (List.findIdx?_eq_some_iff_getElem.mp found).1

theorem dictObjectGet_eq (valid : Valid obj) (key : Bytes) :
    dictObjectGet obj (some key) = get (key.takeWhile (· ≠ 0)) (used obj) := by
  rw [get_eq_findIdx?]
  change (dictObjectFindKey obj key).bind _ = (dictObjectFindKey obj key).bind _
  cases found : dictObjectFindKey obj key with
  | none => rfl
  | some idx =>
    rw [Option.bind_some, Option.bind_some, used, List.getElem?_take,
      if_pos (findKey_lt valid found)]

theorem ensureCapacity_grows {obj' : DictObject V} {newCapacity : Nat} (valid : Valid obj)
    (grown : dictObjectEnsureCapacity obj newCapacity = some obj') :
    ∃ capacity, obj' = { obj with capacity := capacity } ∧ newCapacity ≤ capacity ∧
      obj.capacity ≤ capacity ∧ capacity ≤ SIZE_MAX / 16 := by
  have limited := valid.limited
  have huge : SIZE_MAX = 18446744073709551615 := by decide
  unfold dictObjectEnsureCapacity at grown
  by_cases enough : newCapacity ≤ obj.capacity
  · rw [if_pos enough, Option.some.injEq] at grown
    exact ⟨obj.capacity, grown.symm, enough, Nat.le_refl _, limited⟩
  have doubled : (if SIZE_MAX / 2 < obj.capacity then newCapacity
      else if obj.capacity * 2 < newCapacity then newCapacity else obj.capacity * 2) =
      max (obj.capacity * 2) newCapacity := by
    rw [if_neg (by omega)]
    split <;> omega
  rw [if_neg enough] at grown
  dsimp only at grown
  rw [doubled, Option.ite_none_left_eq_some, Option.some.injEq] at grown
  obtain ⟨fits, rfl⟩ := grown
  exact ⟨_, rfl, Nat.le_max_right _ _, by omega, Nat.le_of_not_lt fits⟩

theorem put_valid {obj' : DictObject V} (valid : Valid obj)
    (good : 1 ≤ (key.takeWhile (· ≠ 0)).length ∧
      (key.takeWhile (· ≠ 0)).length ≤ MAX_KEY_LEN - 1)
    (same : used obj' = put (key.takeWhile (· ≠ 0)) newVal (used obj))
    (counted : obj'.count ≤ obj'.slots.length) (room : obj'.slots.length ≤ obj'.capacity)
    (limited : obj'.capacity ≤ SIZE_MAX / 16) : Valid obj' := by
  constructor
  · exact counted
  · exact room
  · exact limited
  · rw [same]
    exact put_keys valid.distinct
  · rw [same]
    exact put_forall valid.keys ⟨good.1, good.2, takeWhile_no_nul key⟩

/-- A set is rejected and changes nothing, or puts the value under the key. -/
theorem dictObjectSet_cases (valid : Valid obj) (key : Bytes) (newVal : V) :
    dictObjectSet obj (some key) (some newVal) = (false, obj) ∨
      ∃ obj', dictObjectSet obj (some key) (some newVal) = (true, obj') ∧ Valid obj' ∧
        used obj' = put (key.takeWhile (· ≠ 0)) newVal (used obj) := by
  have counted := valid.counted
  have room := valid.room
  have limited := valid.limited
  unfold dictObjectSet
  dsimp only
  by_cases bad : strnlen key MAX_KEY_LEN = 0 ∨ MAX_KEY_LEN ≤ strnlen key MAX_KEY_LEN
  · rw [if_pos bad]
    exact Or.inl rfl
  rw [if_neg bad]
  rw [strnlen_refused, not_not] at bad
  cases found : dictObjectFindKey obj key with
  | some idx =>
    refine Or.inr ⟨_, rfl, ?_⟩
    have same : used { obj with slots := obj.slots.modify idx fun p => (p.1, newVal) } =
        put (key.takeWhile (· ≠ 0)) newVal (used obj) := by
      rw [put_known found]
      exact List.take_modify _ _ _ _
    refine ⟨put_valid valid bad same ?_ ?_ limited, same⟩
    · rw [List.length_modify]
      exact counted
    · rw [List.length_modify]
      exact room
  | none =>
    have wraps : (obj.count + 1) % 2 ^ 64 = obj.count + 1 := by
      have huge : SIZE_MAX = 18446744073709551615 := by decide
      omega
    dsimp only
    rw [wraps]
    cases grown : dictObjectEnsureCapacity obj (obj.count + 1) with
    | none => exact Or.inl rfl
    | some obj' =>
      obtain ⟨capacity, rfl, enough, larger, limited'⟩ := ensureCapacity_grows valid grown
      refine Or.inr ⟨_, rfl, ?_⟩
      have same : used ⟨obj.count + 1, capacity,
          splice obj.slots obj.count [(key.takeWhile (· ≠ 0), newVal)]⟩ =
          put (key.takeWhile (· ≠ 0)) newVal (used obj) := by
        rw [put_fresh (findIdx?_eq_none_iff_fresh.mp found)]
        exact @splice_take _ obj.slots [(key.takeWhile (· ≠ 0), newVal)] obj.count counted
      have length : (splice obj.slots obj.count [(key.takeWhile (· ≠ 0), newVal)]).length =
          max obj.slots.length (obj.count + 1) := by
        rw [splice, List.length_append, List.length_append, List.length_take, List.length_drop,
          List.length_singleton]
        omega
      refine ⟨put_valid valid bad same ?_ ?_ limited', same⟩
      · rw [length]
        exact Nat.le_max_right _ _
      · rw [length]
        exact Nat.max_le.mpr ⟨Nat.le_trans room larger, enough⟩

/-- The last pair moves into the gap. -/
theorem dictObjectRemove_found {idx : Nat} (valid : Valid obj)
    (found : dictObjectFindKey obj key = some idx) :
    ∃ obj' last, dictObjectRemove obj (some key) = (true, obj') ∧ Valid obj' ∧
      (used obj).getLast? = some last ∧
      used obj' = if idx = (used obj).length - 1 then (used obj).dropLast
        else ((used obj).set idx last).dropLast := by
  have counted := valid.counted
  have length := used_length valid
  have inside := findKey_lt valid found
  have listed : idx < (used obj).length := by omega
  have behind : obj.count - 1 < obj.slots.length := by omega
  have last : (used obj).getLast? = some obj.slots[obj.count - 1] := by
    rw [List.getLast?_eq_getElem?, length, used, List.getElem?_take, if_pos (by omega),
      List.getElem?_eq_getElem behind]
  unfold dictObjectRemove
  dsimp only
  rw [found, List.getElem?_eq_getElem behind]
  dsimp only
  have left : (if idx = (used obj).length - 1 then (used obj).dropLast
      else ((used obj).set idx obj.slots[obj.count - 1]).dropLast) =
      (if idx = obj.count - 1 then obj.slots
        else obj.slots.set idx obj.slots[obj.count - 1]).take (obj.count - 1) := by
    rw [length, List.dropLast_eq_take, List.dropLast_eq_take, List.length_set, length]
    split
    · rw [used, List.take_take, Nat.min_eq_left (Nat.sub_le _ _)]
    · rw [used, ← List.take_set, List.take_take, Nat.min_eq_left (Nat.sub_le _ _)]
  have whole : (if idx = obj.count - 1 then obj.slots
      else obj.slots.set idx obj.slots[obj.count - 1]).length = obj.slots.length := by
    split
    · rfl
    · rw [List.length_set]
  have same := remove_perm listed last
  rw [left] at same
  generalize (if idx = obj.count - 1 then obj.slots
    else obj.slots.set idx obj.slots[obj.count - 1]) = slots at *
  refine ⟨_, _, rfl, ?_, last, left.symm⟩
  constructor
  · change obj.count - 1 ≤ slots.length
    omega
  · change slots.length ≤ obj.capacity
    exact whole ▸ valid.room
  · exact valid.limited
  · exact ((same.map (·.1)).nodup_iff.mp valid.distinct).of_cons
  · exact fun p inside => valid.keys p (same.symm.subset (List.mem_cons_of_mem _ inside))

/-- A remove finds nothing, or takes the pair of the key out. -/
theorem dictObjectRemove_cases (valid : Valid obj) (key : Bytes) :
    (dictObjectRemove obj (some key) = (false, obj) ∧
      get (key.takeWhile (· ≠ 0)) (used obj) = none) ∨
      ∃ obj', dictObjectRemove obj (some key) = (true, obj') ∧ Valid obj' ∧
        ∃ v, (used obj).Perm ((key.takeWhile (· ≠ 0), v) :: used obj') := by
  cases found : dictObjectFindKey obj key with
  | none =>
    refine Or.inl ⟨?_, ?_⟩
    · rw [dictObjectRemove, found]
    · rw [← dictObjectGet_eq valid key, dictObjectGet, found]
      rfl
  | some idx =>
    obtain ⟨obj', last, done, valid', ends, left⟩ := dictObjectRemove_found valid found
    obtain ⟨inside, named, _⟩ := List.findIdx?_eq_some_iff_getElem.mp found
    have same := remove_perm inside ends
    refine Or.inr ⟨obj', done, valid', (used obj)[idx].2, ?_⟩
    rw [left, ← of_decide_eq_true named]
    exact same

theorem dictObjectSortKeys_perm (q : Qsort (Bytes × V)) (valid : Valid obj) :
    Valid (dictObjectSortKeys q obj) ∧ (used (dictObjectSortKeys q obj)).Perm (used obj) := by
  have same := q.perm dictKeyCompare (used obj)
  have length : (q.sort dictKeyCompare (used obj)).length = obj.count := by
    rw [same.length_eq, used_length valid]
  have sorted : used (dictObjectSortKeys q obj) = q.sort dictKeyCompare (used obj) :=
    List.take_left' length
  have whole : (dictObjectSortKeys q obj).slots.length = obj.slots.length := by
    have counted := valid.counted
    change (q.sort dictKeyCompare (used obj) ++ obj.slots.drop obj.count).length = _
    rw [List.length_append, length, List.length_drop]
    omega
  rw [sorted]
  refine ⟨?_, same⟩
  constructor
  · rw [whole]
    exact valid.counted
  · rw [whole]
    exact valid.room
  · exact valid.limited
  · rw [sorted]
    exact (same.map (·.1)).nodup_iff.mpr valid.distinct
  · rw [sorted]
    exact fun p listed => valid.keys p (same.subset listed)

/-- The value under each key after a call. -/
theorem Op.run_recalls (q : Qsort (Bytes × V)) (valid : Valid obj) (op : Op V) :
    Valid (op.run q obj).2 ∧ ((op.run q obj).1 = false → (op.run q obj).2 = obj) ∧
      ∀ k, get k (used (op.run q obj).2) = remember k (get k (used obj)) (op, (op.run q obj).1) := by
  cases op with
  | set key newVal =>
    cases key with
    | none => exact ⟨valid, fun _ => rfl, fun _ => rfl⟩
    | some key =>
      cases newVal with
      | none => exact ⟨valid, fun _ => rfl, fun _ => rfl⟩
      | some newVal =>
        change Valid (dictObjectSet obj (some key) (some newVal)).2 ∧ _
        rcases dictObjectSet_cases valid key newVal with rejected | ⟨obj', done, valid', same⟩
        · rw [Op.run, rejected]
          exact ⟨valid, fun _ => rfl, fun _ => rfl⟩
        · rw [Op.run, done]
          refine ⟨valid', fun failed => absurd failed.symm Bool.false_ne_true, fun k => ?_⟩
          rw [same, get_put]
          rfl
  | remove key =>
    cases key with
    | none => exact ⟨valid, fun _ => rfl, fun _ => rfl⟩
    | some key =>
      rcases dictObjectRemove_cases valid key with ⟨missing, gone⟩ | ⟨obj', done, valid', v, same⟩
      · rw [Op.run, missing]
        refine ⟨valid, fun _ => rfl, fun k => ?_⟩
        rw [remember]
        split
        · rename_i here
          exact here ▸ gone
        · rfl
      · rw [Op.run, done]
        exact ⟨valid', fun failed => absurd failed.symm Bool.false_ne_true,
          fun k => get_rest same valid.distinct⟩
  | sortKeys =>
    obtain ⟨valid', same⟩ := dictObjectSortKeys_perm q valid
    exact ⟨valid', fun failed => absurd failed.symm Bool.false_ne_true,
      fun k => (get_perm same.symm valid.distinct).symm⟩

end Steps

section Runs

variable {k : Bytes} {v : V} {history : List (Op V × Bool)}

theorem dictCreateObject_valid : Valid (dictCreateObject : DictObject V) := by
  constructor
  · exact Nat.le_refl 0
  · exact Nat.zero_le 4
  · exact (by decide : 4 ≤ SIZE_MAX / 16)
  · exact List.nodup_nil
  · exact nofun

theorem runOps_recalls (q : Qsort (Bytes × V)) (ops : List (Op V)) {obj : DictObject V}
    (valid : Valid obj) (known : ∀ k, get k (used obj) = recalled k history) :
    Valid (runOps q obj history ops).1 ∧
      (runOps q obj history ops).2.map (·.1) = history.map (·.1) ++ ops ∧
      ∀ k, get k (used (runOps q obj history ops).1) =
        recalled k (runOps q obj history ops).2 := by
  induction ops generalizing obj history with
  | nil => exact ⟨valid, (List.append_nil _).symm, known⟩
  | cons op ops ih =>
    obtain ⟨valid', _, after⟩ := op.run_recalls q valid
    have known' (k : Bytes) : get k (used (op.run q obj).2) =
        recalled k (history ++ [(op, (op.run q obj).1)]) := by
      rw [after, known, recalled, recalled, List.foldl_append]
      rfl
    obtain ⟨last, calls, values⟩ := ih valid' known'
    refine ⟨last, ?_, values⟩
    rw [runOps, calls, List.map_append, List.append_assoc]
    rfl

/-- The calls that decide about `k`: successful sets and removes. -/
def Touches (k : Bytes) : Op V × Bool → Prop
  | (.set (some key) (some _), true) => key.takeWhile (· ≠ 0) = k
  | (.remove (some key), _) => key.takeWhile (· ≠ 0) = k
  | _ => False

/-- What such a call leaves under `k`. -/
def leaves : Op V × Bool → Option V
  | (.set _ newVal, _) => newVal
  | _ => none

theorem recall_touches {call : Op V × Bool} (value : Option V) (touches : Touches k call) :
    remember k value call = leaves call := by
  obtain ⟨op, ok⟩ := call
  cases op with
  | set key newVal =>
    cases key with
    | none => cases touches
    | some key =>
      cases newVal with
      | none => cases touches
      | some newVal =>
        cases ok with
        | false => cases touches
        | true => exact if_pos touches
  | remove key =>
    cases key with
    | none => cases touches
    | some key => exact if_pos touches
  | sortKeys => cases touches

theorem recall_passes {call : Op V × Bool} (value : Option V) (passes : ¬ Touches k call) :
    remember k value call = value := by
  obtain ⟨op, ok⟩ := call
  cases op with
  | set key newVal =>
    cases key with
    | none => rfl
    | some key =>
      cases newVal with
      | none => rfl
      | some newVal =>
        cases ok with
        | false => rfl
        | true => exact if_neg passes
  | remove key =>
    cases key with
    | none => rfl
    | some key => exact if_neg passes
  | sortKeys => rfl

/-- The last call that decides is a successful set of the value. -/
theorem recalled_eq_some_iff : recalled k history = some v ↔
    ∃ before call after, history = before ++ call :: after ∧ Touches k call ∧
      leaves call = some v ∧ ∀ later ∈ after, ¬ Touches k later := by
  induction history using List.reverseRecOn with
  | nil =>
    refine ⟨nofun, ?_⟩
    rintro ⟨before, call, after, split, _⟩
    exact absurd split.symm (List.append_ne_nil_of_right_ne_nil before (List.cons_ne_nil _ _))
  | append_singleton history call ih =>
    have step : recalled k (history ++ [call]) = remember k (recalled k history) call := by
      rw [recalled, List.foldl_append]
      rfl
    rw [step]
    by_cases touches : Touches k call
    · rw [recall_touches _ touches]
      constructor
      · exact fun left => ⟨history, call, [], rfl, touches, left, nofun⟩
      · rintro ⟨before, call', after, split, touches', left, passed⟩
        rcases List.eq_nil_or_concat' after with rfl | ⟨after, last, rfl⟩
        · have same := List.append_inj_right' split rfl
          rw [List.singleton_inj] at same
          exact same ▸ left
        · have split' : history ++ [call] = (before ++ call' :: after) ++ [last] := by
            rw [split, List.append_assoc]
            rfl
          have same := List.append_inj_right' split' rfl
          rw [List.singleton_inj] at same
          exact absurd touches (same ▸ passed last (by simp))
    · rw [recall_passes _ touches, ih]
      constructor
      · rintro ⟨before, call', after, rfl, touches', left, passed⟩
        refine ⟨before, call', after ++ [call], by simp, touches', left, ?_⟩
        exact List.forall_mem_append.mpr ⟨passed, List.forall_mem_singleton.mpr touches⟩
      · rintro ⟨before, call', after, split, touches', left, passed⟩
        rcases List.eq_nil_or_concat' after with rfl | ⟨after, last, rfl⟩
        · have same := List.append_inj_right' split rfl
          rw [List.singleton_inj] at same
          exact absurd touches' (same ▸ touches)
        · have split' : history ++ [call] = (before ++ call' :: after) ++ [last] := by
            rw [split, List.append_assoc]
            rfl
          exact ⟨before, call', after, List.append_inj_left' split' rfl, touches', left,
            fun later listed => passed later (List.mem_append_left _ listed)⟩

/-- After any calls the object is the finite map that their history describes: distinct keys of
a proper length, at most `capacity` of them, and under each key the value of the last call that
decides. A rejected set changes nothing, and sorting changes no lookup. -/
theorem object_is_map (q : Qsort (Bytes × V)) (ops : List (Op V)) :
    let obj := (runOps q dictCreateObject [] ops).1
    let history := (runOps q dictCreateObject [] ops).2
    Valid obj ∧ obj.count ≤ obj.capacity ∧ history.map (·.1) = ops ∧
      (∀ key, dictObjectGet obj (some key) = recalled (key.takeWhile (· ≠ 0)) history) ∧
      (∀ key newVal, (dictObjectSet obj key newVal).1 = false →
        (dictObjectSet obj key newVal).2 = obj) ∧
      ∀ key, dictObjectGet (dictObjectSortKeys q obj) key = dictObjectGet obj key := by
  have start (k : Bytes) : get k (used (dictCreateObject : DictObject V)) = recalled k [] := rfl
  obtain ⟨valid, calls, values⟩ := runOps_recalls q ops dictCreateObject_valid start
  intro obj history
  refine ⟨valid, Nat.le_trans valid.counted valid.room, calls, ?_, ?_, ?_⟩
  · intro key
    rw [dictObjectGet_eq valid, values]
  · intro key newVal
    exact ((Op.set key newVal).run_recalls q valid).2.1
  · intro key
    cases key with
    | none => rfl
    | some key =>
      obtain ⟨valid', same⟩ := dictObjectSortKeys_perm q valid
      rw [dictObjectGet_eq valid', dictObjectGet_eq valid]
      exact get_perm same valid'.distinct

end Runs

section Lists

variable {obj obj' : DictObject DictValue} {pairs : Pairs} {key : Bytes}

/-- The pairs in use are those of the dictionary value. -/
def Represents (obj : DictObject DictValue) (pairs : Pairs) : Prop :=
  used obj = pairs.map fun p => (p.1.bytes, p.2)

theorem represents_findKey (represents : Represents obj pairs) : dictObjectFindKey obj key =
    pairs.findIdx? fun p => p.1.bytes = key.takeWhile (· ≠ 0) := by
  rw [dictObjectFindKey, represents, List.findIdx?_map]
  rfl

theorem represents_get (valid : Valid obj) (represents : Represents obj pairs) (key : Bytes) :
    dictObjectGet obj (some key) = Dict.dictObjectGet (.object pairs) key := by
  rw [dictObjectGet_eq valid, Dict.dictObjectGet, StringMap.get, represents, List.find?_map,
    Option.map_map]
  rfl

theorem represents_put (k : Key) (v : DictValue) :
    put k.bytes v (pairs.map fun p => (p.1.bytes, p.2)) =
      (setPair k v pairs).map fun p => (p.1.bytes, p.2) := by
  induction pairs with
  | nil => rfl
  | cons p pairs ih =>
    rw [List.map_cons, put, setPair]
    by_cases here : p.1 = k
    · rw [if_pos here, if_pos (congrArg CText.bytes here)]
      rfl
    · rw [if_neg here, if_neg fun same => here (CText.eq_of_bytes same), ih]
      rfl

theorem represents_set {v : DictValue} (valid : Valid obj) (represents : Represents obj pairs)
    (done : dictObjectSet obj (some key) (some v) = (true, obj')) :
    ∃ pairs', Dict.dictObjectSet (.object pairs) key v = some (.object pairs') ∧
      Represents obj' pairs' := by
  rcases dictObjectSet_cases valid key v with rejected | ⟨after, taken, valid', same⟩
  · rw [rejected] at done
    cases done
  rw [taken] at done
  cases done
  have listed : (key.takeWhile (· ≠ 0), v) ∈ used obj' := by
    rw [same]
    exact mem_of_get (by rw [get_put, if_pos rfl])
  obtain ⟨nonempty, short, _⟩ := valid'.keys _ listed
  have accepted : (cText MAX_KEY_LEN key).isSome := by
    have some : 0 < MAX_KEY_LEN := by decide
    rw [cText_isSome]
    exact ⟨List.length_pos_iff.mp nonempty, Nat.lt_of_le_pred some short⟩
  obtain ⟨k, made⟩ := Option.isSome_iff_exists.mp accepted
  refine ⟨setPair k v pairs, ?_, ?_⟩
  · rw [Dict.dictObjectSet, made]
    rfl
  · rw [Represents, same, represents, ← cText_text made, represents_put]

theorem represents_remove (valid : Valid obj) (represents : Represents obj pairs)
    (done : dictObjectRemove obj (some key) = (true, obj')) :
    ∃ pairs', Dict.dictObjectRemove (.object pairs) key = some (.object pairs') ∧
      Represents obj' pairs' := by
  cases found : dictObjectFindKey obj key with
  | none =>
    rw [dictObjectRemove, found] at done
    cases done
  | some idx =>
    obtain ⟨after, last, same, _, ends, left⟩ := dictObjectRemove_found valid found
    rw [done] at same
    cases same
    rw [represents, List.getLast?_map] at ends
    obtain ⟨last', ends', rfl⟩ := Option.map_eq_some_iff.mp ends
    rw [represents_findKey represents] at found
    refine ⟨if idx = pairs.length - 1 then pairs.dropLast else (pairs.set idx last').dropLast, ?_, ?_⟩
    · rw [Dict.dictObjectRemove, found, ends']
    · rw [Represents, left, represents, List.length_map]
      split
      · exact List.map_dropLast.symm
      · rw [List.map_dropLast, List.map_set]

theorem strcmp_nonpos (a b : Bytes) : strcmp a b ≤ 0 ↔ a ≤ b := by
  unfold strcmp
  by_cases above : b < a
  · rw [if_pos above]
    exact ⟨fun h => absurd h (by decide), fun h => absurd above h⟩
  · rw [if_neg above]
    refine ⟨fun _ => above, fun _ => ?_⟩
    split <;> decide

/-- `dict_object_sort_keys` leaves the pairs in the order of their keys, so that it does not
matter how `qsort` works. -/
theorem represents_sort (q : Qsort (Bytes × DictValue)) (valid : Valid obj)
    (represents : Represents obj pairs) : ∃ pairs',
      Dict.dictObjectSortKeys (.object pairs) = .object pairs' ∧
        Represents (dictObjectSortKeys q obj) pairs' := by
  refine ⟨_, rfl, ?_⟩
  have length : (q.sort dictKeyCompare (used obj)).length = obj.count := by
    rw [(q.perm _ _).length_eq, used_length valid]
  have sorted : used (dictObjectSortKeys q obj) = q.sort dictKeyCompare (used obj) :=
    List.take_left' length
  have ordered := q.ordered dictKeyCompare (used obj)
    (fun a b => (List.le_total a.1 b.1).imp (strcmp_nonpos _ _).mpr (strcmp_nonpos _ _).mpr)
    fun a b c ab bc => (strcmp_nonpos _ _).mpr
      (List.le_trans ((strcmp_nonpos _ _).mp ab) ((strcmp_nonpos _ _).mp bc))
  have merged : (pairs.mergeSort fun p q => p.1.bytes ≤ q.1.bytes).Pairwise
      fun p q => p.1.bytes ≤ q.1.bytes := by
    have total (a b : Key × DictValue) :
        (decide (a.1.bytes ≤ b.1.bytes) || decide (b.1.bytes ≤ a.1.bytes)) = true := by
      simpa using List.le_total a.1.bytes b.1.bytes
    have trans (a b c : Key × DictValue) (ab : decide (a.1.bytes ≤ b.1.bytes) = true)
        (bc : decide (b.1.bytes ≤ c.1.bytes) = true) : decide (a.1.bytes ≤ c.1.bytes) = true := by
      rw [decide_eq_true_iff] at ab bc ⊢
      exact List.le_trans ab bc
    simpa using List.pairwise_mergeSort trans total pairs
  have same : (used obj).Perm ((pairs.mergeSort fun p q => p.1.bytes ≤ q.1.bytes).map
      fun p => (p.1.bytes, p.2)) := by
    rw [represents]
    exact (List.mergeSort_perm _ _).symm.map _
  rw [Represents, sorted]
  refine List.Perm.eq_of_pairwise
    (fun a b inside inside' (ab : a.1 ≤ b.1) (ba : b.1 ≤ a.1) => ?_) ?_ ?_ ?_
  · have first := get_of_mem valid.distinct ((q.perm _ _).subset inside)
    have second := get_of_mem valid.distinct (same.symm.subset inside')
    have key : a.1 = b.1 := List.le_antisymm ab ba
    rw [key, second, Option.some.injEq] at first
    exact Prod.ext key first.symm
  · exact ordered.imp (strcmp_nonpos _ _).mp
  · exact List.pairwise_map.mpr merged
  · exact (q.perm _ _).trans same

end Lists

end ObjectTable
