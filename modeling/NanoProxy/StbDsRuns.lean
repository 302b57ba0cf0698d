import NanoProxy.StbDsOperations

/-!
# Runs of a hash table

A table that is used by `hmput`, `hmget`, `hmdel` and `hmdefault` is a list of entries with
different keys: a new key comes to the end, a deleted entry is replaced by the last one.
Neither the hash function nor the seeds change what the caller sees.
-/

namespace StbDs

open OpenAddressing

universe u v

variable {κ : Type u} {ν : Type v}

inductive Op (κ : Type u) (ν : Type v) where
  /-- The seed is that of the time at which the first index is made. -/
  | put (seed : UInt64) (key : κ) (value : ν)
  | get (key : κ)
  | del (key : κ)
  | setDefault (value : ν)

inductive Answer (ν : Type v) where
  | done
  | found (index : Int) (value : ν)
  | removed (count : Nat)

variable [DecidableEq κ] [Inhabited ν]

/-- `(t)[index].value`; the entry before the first one has the default value. -/
def Header.valueAt (h : Header κ ν) (index : Int) : ν :=
  if index < 0 then h.default else (h.entries[index.toNat]?).elim h.default Prod.snd

def step (hashKey : κ → UInt64 → UInt64) (mode : Mode) (a : Table κ ν) :
    Op κ ν → Option (Table κ ν × Answer ν)
  | .put seed key value => (hmput hashKey mode seed a key value).map fun a' => (a', .done)
  | .get key =>
    (hmgeti hashKey a key).bind fun found =>
      found.1.map fun h => (some h, .found found.2 (h.valueAt found.2))
  | .del key => (hmdel hashKey a key).map fun result => (result.1, .removed result.2)
  | .setDefault value => some (hmdefault a value, .done)

def runOps (hashKey : κ → UInt64 → UInt64) (mode : Mode) :
    Table κ ν → List (Op κ ν) → Option (Table κ ν × List (Answer ν))
  | a, [] => some (a, [])
  | a, op :: ops =>
    (step hashKey mode a op).bind fun first =>
      (runOps hashKey mode first.1 ops).map fun rest => (rest.1, first.2 :: rest.2)

/-- The contents of a table, without its index. -/
structure Contents (κ : Type u) (ν : Type v) where
  default : ν
  entries : List (κ × ν)

def contents (a : Table κ ν) : Contents κ ν :=
  ⟨(a.getD newHeader).default, (a.getD newHeader).entries⟩

def Contents.step (c : Contents κ ν) : Op κ ν → Contents κ ν × Answer ν
  | .put _ key value => ({ c with entries := StringMap.put key value c.entries }, .done)
  | .get key =>
    (c, .found ((c.entries.findIdx? (·.1 = key)).elim (-1) Int.ofNat)
      ((StringMap.get key c.entries).getD c.default))
  | .del key =>
    ({ c with entries := StringMap.swapErase key c.entries },
      .removed (if key ∈ c.entries.map Prod.fst then 1 else 0))
  | .setDefault value => ({ c with default := value }, .done)

def Contents.runOps : Contents κ ν → List (Op κ ν) → Contents κ ν × List (Answer ν)
  | c, [] => (c, [])
  | c, op :: ops =>
    ((runOps (c.step op).1 ops).1, (c.step op).2 :: (runOps (c.step op).1 ops).2)

variable {hashKey : κ → UInt64 → UInt64} {mode : Mode} {a a' : Table κ ν} {h : Header κ ν}

omit [Inhabited ν] in
theorem valueAt_found (key : κ) :
    h.valueAt ((h.entries.findIdx? (·.1 = key)).elim (-1) Int.ofNat) =
      (StringMap.get key h.entries).getD h.default := by
  unfold Header.valueAt
  rw [StringMap.get_eq_findIdx?]
  cases h.entries.findIdx? (·.1 = key) with
  | none => rfl
  | some i =>
    rw [Option.elim_some, Option.bind_some,
      if_neg (Int.not_lt.mpr (Int.natCast_nonneg i) : ¬Int.ofNat i < 0)]
    change (h.entries[i]?).elim h.default Prod.snd = _
    cases h.entries[i]? <;> rfl

/-- One operation. -/
theorem step_refines (mode : Mode) (sane : (a.getD newHeader).Sane hashKey) (op : Op κ ν) :
    ∃ a', step hashKey mode a op = some (a', ((contents a).step op).2) ∧
      contents a' = ((contents a).step op).1 ∧ (a'.getD newHeader).Sane hashKey := by
  cases op with
  | put seed key value =>
    obtain ⟨h', result, kept, sane', entries⟩ := hmput_spec sane mode seed key value
    refine ⟨some h', ?_, ?_, sane'⟩
    · rw [step, result]
      rfl
    · unfold contents Contents.step
      rw [Option.getD_some, kept, entries]
  | get key =>
    cases a with
    | none => exact ⟨some newHeader, rfl, rfl, sane_newHeader⟩
    | some h =>
      rw [Option.getD_some] at sane
      refine ⟨some h, ?_, rfl, sane⟩
      have known := hmgeti_spec sane key
      rw [show INDEX_EMPTY = -1 from rfl] at known
      rw [step, known, Option.bind_some, Option.map_some, valueAt_found]
      rfl
  | del key =>
    cases a with
    | none => exact ⟨none, rfl, rfl, sane_newHeader⟩
    | some h =>
      rw [Option.getD_some] at sane
      obtain ⟨h', result, kept, sane', entries⟩ := hmdel_spec sane key
      refine ⟨some h', ?_, ?_, sane'⟩
      · rw [step, result]
        rfl
      · unfold contents Contents.step
        rw [Option.getD_some, kept, entries]
        rfl
  | setDefault value =>
    exact ⟨_, rfl, rfl, ⟨sane.distinct, sane.indexed, sane.bare⟩⟩

theorem run_sane (mode : Mode) (sane : (a.getD newHeader).Sane hashKey) (ops : List (Op κ ν)) :
    ∃ a', runOps hashKey mode a ops = some (a', ((contents a).runOps ops).2) ∧
      contents a' = ((contents a).runOps ops).1 ∧ (a'.getD newHeader).Sane hashKey := by
  induction ops generalizing a with
  | nil => exact ⟨a, rfl, rfl, sane⟩
  | cons op ops ih =>
    obtain ⟨a₁, first, between, sane₁⟩ := step_refines mode sane op
    obtain ⟨a₂, rest, last, sane₂⟩ := ih sane₁
    rw [between] at rest last
    refine ⟨a₂, ?_, last, sane₂⟩
    rw [runOps, first, Option.bind_some, rest]
    rfl

/-- Every run ends, and its answers and its entries are those of the contents alone. -/
theorem run_refines (hashKey : κ → UInt64 → UInt64) (mode : Mode) (ops : List (Op κ ν)) :
    ∃ a, runOps hashKey mode none ops = some (a, (Contents.runOps ⟨default, []⟩ ops).2) ∧
      contents a = (Contents.runOps ⟨default, []⟩ ops).1 := by
  obtain ⟨a, result, entries, -⟩ := run_sane (a := none) mode
    (sane_newHeader : (newHeader : Header κ ν).Sane hashKey) ops
  exact ⟨a, result, entries⟩

structure Loaded (h : Header κ ν) (t : HashIndex κ) : Prop where
  power : ∃ e, t.slotCount = 8 * 2 ^ e
  length : t.storage.length = t.slotCount
  used : t.usedCount = h.entries.length
  tombstones : t.tombstoneCount = t.storage.countP (· = Slot.deleted)
  atMost : 4 * h.entries.length ≤ 3 * t.slotCount
  clean : 16 * t.tombstoneCount ≤ 3 * t.slotCount
  atLeast : 8 < t.slotCount → t.slotCount ≤ 4 * h.entries.length
  empty : ∃ i < t.slotCount, t.slot i = Slot.empty

omit [DecidableEq κ] [Inhabited ν] in
theorem loaded_of_valid {t : HashIndex κ} (valid : Valid hashKey (h.entries.map Prod.fst) t) :
    Loaded h t := by
  obtain ⟨e, count⟩ := valid.wf.buckets
  have load := valid.load
  have tombLoad := valid.tombLoad
  have used := valid.used
  have dense := valid.dense
  have positive := Nat.two_pow_pos e
  rw [valid.wf.growAt] at load
  rw [valid.wf.cleanAt] at tombLoad
  rw [List.length_map] at used
  have marks : tombstones t = t.storage.countP (· = Slot.deleted) := by
    refine List.countP_congr fun s listed => ?_
    unfold isTombstone
    rw [decide_eq_true_eq, decide_eq_true_eq]
    rcases valid.wf.shaped s listed with rfl | rfl | ⟨_, nonneg⟩
    · decide
    · decide
    · constructor
      · intro gone
        rw [gone] at nonneg
        exact absurd nonneg (by decide)
      · rintro rfl
        rfl
  obtain ⟨i, inside, empty⟩ := exists_empty valid.wf valid.room
  refine ⟨⟨e, count⟩, valid.wf.size, used, valid.tombs.trans marks, by omega, by omega, ?_, i,
    inside, ?_⟩
  · intro large
    rw [← used]
    exact dense large
  · rcases valid.wf.shape i with blank | deleted | ⟨stored, nonneg⟩
    · exact blank
    · unfold cells at empty
      rw [deleted, cell_deleted] at empty
      cases empty
    · unfold cells at empty
      rw [cell_full stored nonneg] at empty
      cases empty

/-- In every state the number of slots is a power of two, at most three quarters of them are
used and at most three sixteenths are tombstones, so that a search meets an empty slot; an
index of more than one bucket is used to a quarter. -/
theorem run_load (hashKey : κ → UInt64 → UInt64) (mode : Mode) (ops : List (Op κ ν)) :
    ∃ a answers, runOps hashKey mode none ops = some (a, answers) ∧
      ∀ h t, a = some h → h.hashTable = some t → Loaded h t := by
  obtain ⟨a, result, -, sane⟩ :=
    run_sane (a := none) mode (sane_newHeader : (newHeader : Header κ ν).Sane hashKey) ops
  refine ⟨a, _, result, ?_⟩
  rintro h t rfl index
  exact loaded_of_valid (sane.indexed t index)

/-- `shputs` stores the right key: the key is new, or the search finds it in the first loop
over its bucket, or `temp_key` happens to be the key. -/
def keepsKey (hashKey : κ → UInt64 → UInt64) (seed : UInt64) (a : Table κ ν) (key : κ) : Bool :=
  match growIndex seed (a.getD newHeader).hashTable with
  | none => true
  | some t =>
    match hmFindSlot hashKey t (a.getD newHeader).entries key with
    | some (some i) =>
      (keyHash hashKey key t.seed).toNat % BUCKET_LENGTH ≤ i % BUCKET_LENGTH ||
        t.tempKey = some key
    | _ => true

omit [DecidableEq κ] in
theorem keepKey_tempKey {t : HashIndex κ} {key : κ} {hash : UInt64} {i : Nat} :
    (keepKey .string key hash i t).tempKey =
      if hash.toNat % BUCKET_LENGTH ≤ i % BUCKET_LENGTH then some key else t.tempKey := by
  unfold keepKey
  by_cases first : hash.toNat % BUCKET_LENGTH ≤ i % BUCKET_LENGTH
  · rw [if_pos first, if_pos ⟨rfl, first⟩]
  · rw [if_neg first, if_neg (fun both => first both.2)]

theorem shputs_new {t : HashIndex κ} {seed : UInt64} {key : κ} {value : ν}
    (sane : (a.getD newHeader).Sane hashKey)
    (grown : growIndex seed (a.getD newHeader).hashTable = some t)
    (valid : Valid hashKey ((a.getD newHeader).entries.map Prod.fst) t)
    (fresh : key ∉ (a.getD newHeader).entries.map Prod.fst) :
    ∃ h', shputs hashKey seed a key value = some (some h') ∧ h'.Sane hashKey ∧
      h'.entries = StringMap.put key value (a.getD newHeader).entries ∧
      h'.hashTable.bind HashIndex.tempKey = some key := by
  obtain ⟨h', n, result, -, sane', table, place⟩ := hmputKey_spec sane .string seed key
  obtain ⟨there, entries⟩ := set_eq_put value sane.distinct place
  have kept : h'.hashTable.bind HashIndex.tempKey = some key := by
    obtain ⟨r, looked, ended⟩ := lookUp_spec (isKeyEqual (a.getD newHeader).entries key) valid.wf
      (keyHash_stored hashKey key t.seed) valid.room
    unfold hmputKey at result
    dsimp only at result
    rw [grown] at result
    dsimp only at result
    rw [looked] at result
    cases ended with
    | found full yes => exact absurd (List.mem_of_getElem? (isKeyEqual_iff.mp yes)) fresh
    | empty inside old free absent =>
      cases result
      rfl
  unfold shputs
  rw [result]
  dsimp only
  rw [kept]
  exact ⟨_, rfl, sane'.assign table (set_keys _ there), entries, kept⟩

theorem shputs_known {t : HashIndex κ} {seed : UInt64} {key : κ} {value : ν} {n i : Nat}
    (grown : growIndex seed (a.getD newHeader).hashTable = some t)
    (valid : Valid hashKey ((a.getD newHeader).entries.map Prod.fst) t)
    (full : cells t i = .full (keyHash hashKey key t.seed, n))
    (looked : lookUp t (isKeyEqual (a.getD newHeader).entries key)
      (keyHash hashKey key t.seed) = some (.found i)) :
    shputs hashKey seed a key value =
      (keepKey .string key (keyHash hashKey key t.seed) i t).tempKey.map fun tempKey =>
        some { a.getD newHeader with
          entries := (a.getD newHeader).entries.set n (tempKey, value)
          hashTable := some (keepKey .string key (keyHash hashKey key t.seed) i t) } := by
  have number : (t.slot i).index.toNat = n := by
    rw [index_of_cell valid.wf full, Int.toNat_natCast]
  unfold shputs hmputKey
  dsimp only
  rw [grown]
  dsimp only
  rw [looked]
  dsimp only
  rw [number, Option.bind_some]
  cases (keepKey .string key (keyHash hashKey key t.seed) i t).tempKey <;> rfl

theorem shputs_iff (sane : (a.getD newHeader).Sane hashKey) (seed : UInt64) (key : κ) (value : ν) :
    (keepsKey hashKey seed a key = true → ∃ h', shputs hashKey seed a key value = some (some h') ∧
      h'.Sane hashKey ∧ h'.entries = StringMap.put key value (a.getD newHeader).entries) ∧
    ((∃ h', shputs hashKey seed a key value = some (some h') ∧
      h'.entries = StringMap.put key value (a.getD newHeader).entries) →
        keepsKey hashKey seed a key = true) := by
  obtain ⟨t, grown, valid, -⟩ := growIndex_spec seed sane.indexed
    (fun none => by rw [sane.bare none, List.map_nil])
  unfold keepsKey
  rw [grown]
  dsimp only
  by_cases known : key ∈ (a.getD newHeader).entries.map Prod.fst
  · obtain ⟨n, there⟩ := List.mem_iff_getElem?.mp known
    obtain ⟨i, slot, full⟩ := valid.find_known sane.distinct there
    have looked : lookUp t (isKeyEqual (a.getD newHeader).entries key)
        (keyHash hashKey key t.seed) = some (.found i) := by
      refine lookUp_found valid.wf (keyHash_stored hashKey key t.seed) valid.room full
        (isKeyEqual_iff.mpr there) ?_
      intro j m full' yes
      have same := key_number sane.distinct (isKeyEqual_iff.mp yes) there
      subst same
      exact slot_unique valid.nodup_indices valid.wf full' full
    have entries := (set_eq_put value sane.distinct (Or.inl ⟨rfl, there⟩)).2
    have inside := (List.getElem?_eq_some_iff.mp there).1
    rw [List.length_map] at inside
    rw [slot, shputs_known grown valid full looked, keepKey_tempKey]
    dsimp only
    rw [Bool.or_eq_true, decide_eq_true_eq, decide_eq_true_eq]
    constructor
    · intro safe
      have stored : (if (keyHash hashKey key t.seed).toNat % BUCKET_LENGTH ≤ i % BUCKET_LENGTH
          then some key else t.tempKey) = some key := by
        rcases safe with first | own
        · exact if_pos first
        · rw [own, ite_self]
      rw [stored]
      refine ⟨_, rfl, ⟨?_, ?_, ?_⟩, entries⟩
      · dsimp only
        rw [set_keys _ there]
        exact sane.distinct
      · intro t' same
        cases same
        dsimp only
        rw [set_keys _ there]
        exact valid.keepKey .string key _ i
      · intro none
        cases none
    · rintro ⟨h', result, whole⟩
      by_cases first : (keyHash hashKey key t.seed).toNat % BUCKET_LENGTH ≤ i % BUCKET_LENGTH
      · exact Or.inl first
      · right
        rw [if_neg first] at result
        cases kept : t.tempKey with
        | none =>
          rw [kept] at result
          cases result
        | some tempKey =>
          rw [kept] at result
          cases result
          rw [← entries] at whole
          have here := congrArg (fun l => l[n]?) whole
          dsimp only at here
          rw [List.getElem?_set_self inside, List.getElem?_set_self inside] at here
          rw [(Prod.mk.inj (Option.some.inj here)).1]
  · rw [valid.find_absent known]
    refine ⟨fun _ => ?_, fun _ => rfl⟩
    obtain ⟨h', result, sane', entries, -⟩ := shputs_new sane grown valid known
    exact ⟨h', result, sane', entries⟩

def shputsAll (hashKey : κ → UInt64 → UInt64) :
    Table κ ν → List (UInt64 × κ × ν) → Option (Table κ ν)
  | a, [] => some a
  | a, (seed, key, value) :: puts =>
    (shputs hashKey seed a key value).bind fun a' => shputsAll hashKey a' puts

/-- Every call meets the condition in the table that it finds. -/
def keepsKeys (hashKey : κ → UInt64 → UInt64) : Table κ ν → List (UInt64 × κ × ν) → Bool
  | _, [] => true
  | a, (seed, key, value) :: puts =>
    keepsKey hashKey seed a key &&
      (shputs hashKey seed a key value).all fun a' => keepsKeys hashKey a' puts

theorem shputsAll_append (a : Table κ ν) (puts more : List (UInt64 × κ × ν)) :
    shputsAll hashKey a (puts ++ more) =
      (shputsAll hashKey a puts).bind fun a' => shputsAll hashKey a' more := by
  induction puts generalizing a with
  | nil => rfl
  | cons p puts ih =>
    obtain ⟨seed, key, value⟩ := p
    rw [List.cons_append, shputsAll, shputsAll]
    cases shputs hashKey seed a key value with
    | none => rfl
    | some a₁ => exact ih a₁

theorem shputsAll_sane {puts : List (UInt64 × κ × ν)} (sane : (a.getD newHeader).Sane hashKey)
    (safe : keepsKeys hashKey a puts = true) :
    ∃ a', shputsAll hashKey a puts = some a' ∧ (a'.getD newHeader).Sane hashKey ∧
      (a'.getD newHeader).entries =
        puts.foldl (fun m p => StringMap.put p.2.1 p.2.2 m) (a.getD newHeader).entries := by
  induction puts generalizing a with
  | nil => exact ⟨a, rfl, sane, rfl⟩
  | cons p puts ih =>
    obtain ⟨seed, key, value⟩ := p
    rw [keepsKeys, Bool.and_eq_true] at safe
    obtain ⟨h', result, sane', entries⟩ := (shputs_iff sane seed key value).1 safe.1
    have rest := safe.2
    rw [result] at rest
    obtain ⟨a', done, sane'', all⟩ := ih (a := some h') sane' rest
    refine ⟨a', ?_, sane'', ?_⟩
    · rw [shputsAll, result, Option.bind_some, done]
    · rw [all, Option.getD_some, entries]
      rfl

/-- A key that is not there is kept. -/
theorem keepsKey_fresh {key : κ} (seed : UInt64) (sane : (a.getD newHeader).Sane hashKey)
    (fresh : key ∉ (a.getD newHeader).entries.map Prod.fst) :
    keepsKey hashKey seed a key = true := by
  obtain ⟨t, grown, valid, -⟩ := growIndex_spec seed sane.indexed
    (fun none => by rw [sane.bare none, List.map_nil])
  unfold keepsKey
  rw [grown]
  dsimp only
  rw [valid.find_absent fresh]

/-- Different keys are kept, whatever the seed is. -/
theorem keepsKeys_distinct {puts : List (UInt64 × κ × ν)} (sane : (a.getD newHeader).Sane hashKey)
    (distinct : ((a.getD newHeader).entries.map Prod.fst ++ puts.map fun p => p.2.1).Nodup) :
    keepsKeys hashKey a puts = true := by
  induction puts generalizing a with
  | nil => rfl
  | cons p puts ih =>
    obtain ⟨seed, key, value⟩ := p
    rw [List.map_cons, List.nodup_middle] at distinct
    have fresh : key ∉ (a.getD newHeader).entries.map Prod.fst := fun listed =>
      (List.nodup_cons.mp distinct).1 (List.mem_append_left _ listed)
    have keeps := keepsKey_fresh seed sane fresh
    obtain ⟨h', result, sane', entries⟩ := (shputs_iff sane seed key value).1 keeps
    rw [keepsKeys, keeps, result, Bool.true_and, Option.all_some]
    refine ih sane' ?_
    rw [Option.getD_some, entries, StringMap.put_fresh fresh, List.map_append, List.append_assoc]
    exact List.nodup_middle.mpr distinct

/-- The first key may be given twice in a row. -/
theorem keepsKeys_again (seed : UInt64) (key : κ) (first second : ν)
    {puts : List (UInt64 × κ × ν)} (distinct : (key :: puts.map fun p => p.2.1).Nodup) :
    keepsKeys hashKey none ((seed, key, first) :: (seed, key, second) :: puts) = true := by
  have new : (newHeader : Header κ ν).Sane hashKey := sane_newHeader
  obtain ⟨t, grown, valid, -⟩ := growIndex_spec seed new.indexed fun _ => rfl
  obtain ⟨h, result, sane, entries, last⟩ := @shputs_new _ _ _ _ _ none t seed key first
    new grown valid List.not_mem_nil
  obtain ⟨t', index, tempKey⟩ := Option.bind_eq_some_iff.mp last
  have room : ¬t'.usedCountThreshold ≤ t'.usedCount := by
    have valid' := sane.indexed t' index
    have used := valid'.used
    obtain ⟨e, slots⟩ := valid'.wf.buckets
    have positive := Nat.two_pow_pos e
    rw [entries] at used
    change _ = 1 at used
    rw [valid'.wf.growAt, used]
    omega
  have again : keepsKey hashKey seed (some h) key = true := by
    unfold keepsKey
    rw [Option.getD_some, index, growIndex, if_neg room]
    dsimp only
    split
    · rw [tempKey, decide_eq_true rfl, Bool.or_true]
    · rfl
  obtain ⟨h', result', sane', entries'⟩ :=
    (shputs_iff (a := some h) sane seed key second).1 again
  have fresh : keepsKey hashKey seed (none : Table κ ν) key = true :=
    keepsKey_fresh (a := none) seed new List.not_mem_nil
  rw [keepsKeys, fresh, result, Bool.true_and, Option.all_some, keepsKeys, again, result',
    Bool.true_and, Option.all_some]
  refine keepsKeys_distinct sane' ?_
  have one : h'.entries = [(key, second)] := by
    rw [entries', Option.getD_some, entries]
    simp [StringMap.put, newHeader]
  rw [Option.getD_some, one]
  exact distinct

theorem keepsKeys_append {puts more : List (UInt64 × κ × ν)}
    (keeps : keepsKeys hashKey a (puts ++ more) = true) :
    keepsKeys hashKey a puts = true ∧
      ∀ a', shputsAll hashKey a puts = some a' → keepsKeys hashKey a' more = true := by
  induction puts generalizing a with
  | nil =>
    refine ⟨rfl, fun a' same => ?_⟩
    cases same
    exact keeps
  | cons p puts ih =>
    obtain ⟨seed, key, value⟩ := p
    rw [List.cons_append, keepsKeys, Bool.and_eq_true] at keeps
    rw [keepsKeys, keeps.1, Bool.true_and, shputsAll]
    cases result : shputs hashKey seed a key value with
    | none => exact ⟨rfl, fun a' none => by cases none⟩
    | some a₁ =>
      have rest := keeps.2
      rw [result, Option.all_some] at rest
      exact ih rest

/-- `hmgeti` makes a table where there is none, and changes nothing else. -/
theorem hmgeti_table {key : κ} {i : Int} (found : hmgeti hashKey a key = some (a', i)) :
    a' = some (a.getD newHeader) := by
  cases a with
  | none =>
    cases found
    rfl
  | some h =>
    unfold hmgeti at found
    dsimp only at found
    split at found
    · cases found
      rfl
    · split at found
      · cases found
      · cases found
        rfl
      · cases found
        rfl

/-- What `shputs` stores comes from the calls, also where a key and a value do not belong
together. -/
structure Holding (P : κ → Prop) (Q : ν → Prop) (a : Table κ ν) : Prop where
  entries : ∀ e ∈ (a.getD newHeader).entries, P e.1 ∧ Q e.2
  tempKey : ∀ t key, (a.getD newHeader).hashTable = some t → t.tempKey = some key → P key

omit [DecidableEq κ] [Inhabited ν] in
theorem copySlot_tempKey {t t' : HashIndex κ} {s : Slot} (copied : copySlot t s = some t') :
    t'.tempKey = t.tempKey := by
  unfold copySlot at copied
  split at copied
  · split at copied
    · cases copied
      rfl
    · cases copied
  · cases copied
    rfl

omit [DecidableEq κ] [Inhabited ν] in
theorem foldlM_tempKey {t t' : HashIndex κ} {slots : List Slot}
    (copied : slots.foldlM copySlot t = some t') : t'.tempKey = t.tempKey := by
  induction slots generalizing t with
  | nil =>
    cases copied
    rfl
  | cons s slots ih =>
    rw [List.foldlM_cons] at copied
    obtain ⟨t₁, first, rest⟩ := Option.bind_eq_some_iff.mp copied
    exact (ih rest).trans (copySlot_tempKey first)

omit [DecidableEq κ] [Inhabited ν] in
theorem growIndex_tempKey {ot : Option (HashIndex κ)} {t : HashIndex κ} {seed : UInt64}
    (grown : growIndex seed ot = some t) : t.tempKey = none ∨ ot = some t := by
  cases ot with
  | none =>
    cases grown
    exact Or.inl rfl
  | some old =>
    unfold growIndex at grown
    dsimp only at grown
    split at grown
    · unfold rebuild at grown
      exact Or.inl (foldlM_tempKey grown)
    · exact Or.inr grown

theorem shputs_holding {P : κ → Prop} {Q : ν → Prop} {seed : UInt64} {key : κ} {value : ν}
    (holding : Holding P Q a) (new : P key) (stored : Q value)
    (put : shputs hashKey seed a key value = some a') : Holding P Q a' := by
  unfold shputs hmputKey at put
  dsimp only at put
  cases grown : growIndex seed (a.getD newHeader).hashTable with
  | none =>
    rw [grown] at put
    cases put
  | some t =>
    rw [grown] at put
    dsimp only at put
    have temp : ∀ k, t.tempKey = some k → P k := by
      intro k kept
      rcases growIndex_tempKey grown with none | old
      · rw [none] at kept
        cases kept
      · exact holding.tempKey t k old kept
    cases looked : lookUp t (isKeyEqual (a.getD newHeader).entries key)
        (keyHash hashKey key t.seed) with
    | none =>
      rw [looked] at put
      cases put
    | some r =>
      rw [looked] at put
      cases r with
      | onward tombstone => cases put
      | found i =>
        dsimp only at put
        rw [Option.bind_some, keepKey_tempKey] at put
        split at put
        · cases put
        · rename_i k kept
          have known : P k := by
            split at kept
            · cases kept
              exact new
            · exact temp k kept
          cases put
          refine ⟨fun e listed => ?_, fun t' k' same own => ?_⟩
          · rcases List.mem_or_eq_of_mem_set listed with old | here
            · exact holding.entries e old
            · rw [here]
              exact ⟨known, stored⟩
          · cases same
            rw [keepKey_tempKey, kept] at own
            cases own
            exact known
      | empty i tombstone =>
        dsimp only at put
        rw [Option.bind_some] at put
        cases put
        refine ⟨fun e listed => ?_, fun t' k' same own => ?_⟩
        · dsimp only [Option.getD_some] at listed
          rw [List.set_append_right _ _ (Nat.le_refl _), Nat.sub_self] at listed
          rcases List.mem_append.mp listed with old | here
          · exact holding.entries e old
          · cases List.mem_singleton.mp here
            exact ⟨new, stored⟩
        · cases same
          cases own
          exact new

theorem shputsAll_holding {P : κ → Prop} {Q : ν → Prop} {puts : List (UInt64 × κ × ν)}
    (holding : Holding P Q a) (new : ∀ p ∈ puts, P p.2.1 ∧ Q p.2.2)
    (done : shputsAll hashKey a puts = some a') : Holding P Q a' := by
  induction puts generalizing a with
  | nil =>
    cases done
    exact holding
  | cons p puts ih =>
    obtain ⟨seed, key, value⟩ := p
    rw [shputsAll] at done
    obtain ⟨a₁, first, rest⟩ := Option.bind_eq_some_iff.mp done
    rw [List.forall_mem_cons] at new
    exact ih (shputs_holding holding new.1.1 new.1.2 first) new.2 rest

/-- A run of `shputs` gives the entries of a map as long as every call meets the condition,
and in the table that it leaves the next call gives them if and only if it meets it, too. -/
theorem shputs_exact (hashKey : κ → UInt64 → UInt64) (puts : List (UInt64 × κ × ν))
    (safe : keepsKeys hashKey none puts = true) :
    ∃ a, shputsAll hashKey none puts = some a ∧
      (a.getD newHeader).entries = puts.foldl (fun m p => StringMap.put p.2.1 p.2.2 m) [] ∧
      ∀ seed key value,
        (∃ h', shputs hashKey seed a key value = some (some h') ∧
          h'.entries = StringMap.put key value (a.getD newHeader).entries) ↔
        keepsKey hashKey seed a key = true := by
  obtain ⟨a, result, sane, entries⟩ := shputsAll_sane (a := none) sane_newHeader safe
  refine ⟨a, result, entries, fun seed key value => ⟨(shputs_iff sane seed key value).2, ?_⟩⟩
  intro keeps
  obtain ⟨h', done, -, all⟩ := (shputs_iff sane seed key value).1 keeps
  exact ⟨h', done, all⟩

open CLib in
theorem shputs_exact_headers :
    ∃ a, shputsAll hashString none [(0x31415926, ascii "x-a", 1),
        (0x31415926, ascii "content-type", 2), (0x31415926, ascii "host", 3)] = some a ∧
      (a.getD newHeader).entries = [(0x31415926, ascii "x-a", 1),
        (0x31415926, ascii "content-type", 2), (0x31415926, ascii "host", 3)].foldl
          (fun m (p : UInt64 × Bytes × Nat) => StringMap.put p.2.1 p.2.2 m) [] ∧
      ∀ seed key value,
        (∃ h', shputs hashString seed a key value = some (some h') ∧
          h'.entries = StringMap.put key value (a.getD newHeader).entries) ↔
        keepsKey hashString seed a key = true :=
  shputs_exact hashString _ (by decide)

-- "content-type" wraps to the first slot of its bucket; given again it gets the key "host"
open CLib in
example : (shputsAll hashString none [(0x31415926, ascii "x-a", 1),
    (0x31415926, ascii "content-type", 2), (0x31415926, ascii "host", 3),
    (0x31415926, ascii "content-type", 4)]).map (fun a => (a.getD newHeader).entries) =
      some [(ascii "x-a", 1), (ascii "host", 4), (ascii "host", 3)] := by decide

end StbDs
