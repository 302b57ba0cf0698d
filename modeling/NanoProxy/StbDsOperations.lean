import NanoProxy.StbDsTables

/-!
# What the operations on a table do

Each operation ends, keeps the index of the table valid and changes the entries as the
tables of `StringMap` are changed, whatever the hash function gives.
-/

namespace StbDs

open OpenAddressing

universe u v

variable {κ : Type u} {ν : Type v} {hashKey : κ → UInt64 → UInt64} {keys : List κ} {key : κ}
  {t ot : HashIndex κ} {slotCount n : Nat} {seed : UInt64} {mode : Mode}

theorem Rebuilt.counted (counted : Counted hashKey keys ot) (built : Rebuilt slotCount ot t) :
    Counted hashKey keys t where
  wf := built.wf
  keyed := by
    intro j h n full
    obtain ⟨i, old⟩ := built.origin j (h, n) full
    rw [built.seed]
    exact counted.keyed i h n old
  numbers := built.numbers.trans counted.numbers
  used := built.usedCount.trans counted.used
  tombs := built.tombstoneCount.trans built.clean.symm

theorem valid_emptyIndex (seed : UInt64) :
    Valid hashKey [] (emptyIndex BUCKET_LENGTH seed) where
  wf := wellFormed_emptyIndex κ seed 0 (e := 0) rfl
  keyed := by
    intro i h n full
    rw [cells_emptyIndex] at full
    cases full
  numbers := by
    rw [indices_emptyIndex]
    exact List.Perm.refl _
  used := rfl
  tombs := (tombstones_emptyIndex κ BUCKET_LENGTH seed).symm
  load := Nat.zero_le _
  tombLoad := Nat.zero_le _
  dense := fun larger => absurd larger (Nat.lt_irrefl _)

/-- An insertion works on an index that has room for one more. -/
theorem growIndex_spec {ot : Option (HashIndex κ)} (seed : UInt64)
    (indexed : ∀ t, ot = some t → Valid hashKey keys t) (bare : ot = none → keys = []) :
    ∃ t, growIndex seed ot = some t ∧ Valid hashKey keys t ∧
      t.usedCount < t.usedCountThreshold := by
  cases ot with
  | none =>
    rw [bare rfl]
    have six : 0 < BUCKET_LENGTH - BUCKET_LENGTH / 4 := by decide
    exact ⟨_, rfl, valid_emptyIndex seed, six⟩
  | some t =>
    have valid := indexed t rfl
    rw [growIndex]
    by_cases full : t.usedCountThreshold ≤ t.usedCount
    · rw [if_pos full]
      obtain ⟨e, count⟩ := valid.wf.buckets
      have doubled : t.slotCount * 2 = 8 * 2 ^ (e + 1) := by
        rw [count, Nat.pow_succ, Nat.mul_assoc]
      have positive := Nat.two_pow_pos e
      have length := valid.length_indices
      have room := valid.room
      obtain ⟨t', result, built⟩ := rebuild_spec valid.wf doubled (by omega)
      have threshold := built.wf.growAt
      have clean := built.wf.cleanAt
      have load := valid.load
      rw [valid.wf.growAt] at full load
      rw [built.slotCount] at threshold clean
      refine ⟨t', result, ⟨built.counted valid.toCounted, ?_, ?_, ?_⟩, ?_⟩
      · rw [threshold, built.usedCount]
        omega
      · rw [built.tombstoneCount]
        exact Nat.zero_le _
      · intro _
        rw [built.slotCount, built.usedCount]
        omega
      · rw [threshold, built.usedCount]
        omega
    · rw [if_neg full]
      exact ⟨t, rfl, valid, Nat.lt_of_not_le full⟩

/-- A deletion ends with a valid index, too. -/
theorem shrinkIndex_spec (counted : Counted hashKey keys t)
    (load : t.usedCount + 1 ≤ t.usedCountThreshold)
    (dense : BUCKET_LENGTH < t.slotCount → t.slotCount ≤ 4 * (t.usedCount + 1)) :
    ∃ t', shrinkIndex t = some t' ∧ Valid hashKey keys t' := by
  obtain ⟨e, count⟩ := counted.wf.buckets
  have positive := Nat.two_pow_pos e
  have length := counted.length_indices
  have used := counted.used
  rw [counted.wf.growAt] at load
  unfold shrinkIndex
  by_cases small : t.usedCount < t.usedCountShrinkThreshold ∧ BUCKET_LENGTH < t.slotCount
  · rw [if_pos small]
    have few := small.1
    rw [counted.wf.shrinkAt, if_neg (Nat.not_le.mpr small.2)] at few
    have grown := dense small.2
    have large := small.2
    unfold BUCKET_LENGTH at large
    obtain ⟨e, rfl⟩ : ∃ e', e = e' + 1 := by
      cases e with
      | zero =>
        rw [count] at large
        exact absurd large (by decide)
      | succ e => exact ⟨e, rfl⟩
    have halved : t.slotCount / 2 = 8 * 2 ^ e := by
      rw [count, Nat.pow_succ]
      omega
    obtain ⟨t', result, built⟩ := rebuild_spec counted.wf halved (by omega)
    have threshold := built.wf.growAt
    rw [built.slotCount] at threshold
    refine ⟨t', result, built.counted counted, ?_, ?_, ?_⟩
    · rw [threshold, built.usedCount]
      omega
    · rw [built.tombstoneCount]
      exact Nat.zero_le _
    · intro _
      rw [built.slotCount, built.usedCount]
      omega
  · rw [if_neg small]
    have kept : BUCKET_LENGTH < t.slotCount → t.slotCount ≤ 4 * t.usedCount := by
      intro large
      have many : ¬t.usedCount < t.usedCountShrinkThreshold := fun few => small ⟨few, large⟩
      rw [counted.wf.shrinkAt, if_neg (Nat.not_le.mpr large)] at many
      omega
    by_cases littered : t.tombstoneCountThreshold < t.tombstoneCount
    · rw [if_pos littered]
      obtain ⟨t', result, built⟩ := rebuild_spec counted.wf count (by omega)
      have threshold := built.wf.growAt
      rw [built.slotCount] at threshold
      refine ⟨t', result, built.counted counted, ?_, ?_, ?_⟩
      · rw [threshold, built.usedCount]
        omega
      · rw [built.tombstoneCount]
        exact Nat.zero_le _
      · rw [built.slotCount, built.usedCount]
        exact kept
    · rw [if_neg littered]
      refine ⟨t, rfl, counted, ?_, Nat.le_of_not_lt littered, kept⟩
      rw [counted.wf.growAt]
      omega

theorem Valid.keepKey (valid : Valid hashKey keys t) (mode : Mode) (key : κ) (hash : UInt64)
    (slot : Nat) : Valid hashKey keys (keepKey mode key hash slot t) := by
  unfold StbDs.keepKey
  split
  · exact ⟨⟨⟨valid.wf.buckets, valid.wf.size, valid.wf.shaped, valid.wf.sound, valid.wf.growAt,
      valid.wf.shrinkAt, valid.wf.cleanAt⟩, valid.keyed, valid.numbers, valid.used, valid.tombs⟩,
      valid.load, valid.tombLoad, valid.dense⟩
  · exact valid

section Insertion

variable {i : Nat} {tombstone : Option Nat} {equal : Int → Bool} {hash : UInt64}

theorem inUse_old : inUse (if tombstone.isSome then Slot.deleted else Slot.empty) = none := by
  cases tombstone <;> rfl

theorem isTombstone_old :
    isTombstone (if tombstone.isSome then Slot.deleted else Slot.empty) = tombstone.isSome := by
  cases tombstone <;> rfl

theorem Valid.fillSlot (valid : Valid hashKey keys t) (mode : Mode)
    (room : t.usedCount < t.usedCountThreshold)
    (inside : tombstone.getD i < t.storage.length)
    (old : t.slot (tombstone.getD i) = if tombstone.isSome then Slot.deleted else Slot.empty)
    (free : search (cells t) (hits equal (keyHash hashKey key t.seed)) none
      (hashRoute t.slotCount (keyHash hashKey key t.seed)) = .free (tombstone.getD i)) :
    Valid hashKey (keys ++ [key])
      (fillSlot mode key ⟨keyHash hashKey key t.seed, keys.length⟩ i tombstone t) := by
  let s : Slot := ⟨keyHash hashKey key t.seed, keys.length⟩
  have stored := keyHash_stored hashKey key t.seed
  have content : s.cell = .full (keyHash hashKey key t.seed, keys.length) := cell_of_index stored
  have shaped : s.Shaped := Or.inr (Or.inr ⟨stored, Int.natCast_nonneg _⟩)
  have number : inUse s = some keys.length := inUse_of_cell shaped content
  have wf : WellFormed (t.setSlot (tombstone.getD i) s) := by
    refine valid.wf.setSlot shaped ?_
    rw [cells_setSlot inside, content]
    exact valid.wf.sound.insert free
  have numbers := indices_setSlot (s := s) inside
  rw [old, inUse_old, number] at numbers
  have tombs := tombstones_setSlot (s := s) inside
  have standing : isTombstone s = false := rfl
  rw [old, isTombstone_old, standing] at tombs
  refine ⟨⟨⟨wf.buckets, wf.size, wf.shaped, wf.sound, wf.growAt, wf.shrinkAt, wf.cleanAt⟩,
    ?_, ?_, ?_, ?_⟩, ?_, ?_, ?_⟩
  · intro j h m full
    have stands : cells (t.setSlot (tombstone.getD i) s) j = .full (h, m) := full
    rw [cells_setSlot inside] at stands
    by_cases here : j = tombstone.getD i
    · rw [here, Function.update_self, content] at stands
      cases stands
      exact ⟨key, List.getElem?_concat_length, rfl⟩
    · rw [Function.update_of_ne here] at stands
      obtain ⟨key', there, same⟩ := valid.keyed j h m stands
      refine ⟨key', ?_, same⟩
      rw [List.getElem?_append_left (List.getElem?_eq_some_iff.mp there).1]
      exact there
  · have all := numbers.trans (List.Perm.append_left _ valid.numbers)
    rw [List.length_append, List.length_singleton, List.range_succ]
    exact all.trans List.perm_append_comm
  · rw [List.length_append, List.length_singleton]
    exact congrArg (· + 1) valid.used
  · change (if tombstone.isSome then t.tombstoneCount - 1 else t.tombstoneCount) =
      tombstones (t.setSlot (tombstone.getD i) s)
    rw [valid.tombs]
    cases tombstone with
    | none => exact tombs.symm
    | some p =>
      have one : tombstones (t.setSlot ((some p).getD i) s) + 1 = tombstones t + 0 := tombs
      have less : tombstones t - 1 = tombstones (t.setSlot ((some p).getD i) s) := by omega
      exact less
  · exact room
  · have tombLoad := valid.tombLoad
    change (if tombstone.isSome then t.tombstoneCount - 1 else t.tombstoneCount) ≤
      t.tombstoneCountThreshold
    split <;> omega
  · intro large
    have dense := valid.dense large
    change t.slotCount ≤ 4 * (t.usedCount + 1)
    omega

end Insertion

section Tables

variable {entries : List (κ × ν)} {h : Header κ ν}

/-- Entries with different keys, and an index that fits them as soon as there is one. -/
structure Header.Sane (hashKey : κ → UInt64 → UInt64) (h : Header κ ν) : Prop where
  distinct : (h.entries.map Prod.fst).Nodup
  indexed : ∀ t, h.hashTable = some t → Valid hashKey (h.entries.map Prod.fst) t
  bare : h.hashTable = none → h.entries = []

theorem sane_newHeader [Inhabited ν] : (newHeader : Header κ ν).Sane hashKey where
  distinct := List.nodup_nil
  indexed := by
    intro t none
    cases none
  bare := fun _ => rfl

/-- An assignment to the entry of a key. -/
theorem Header.Sane.assign (sane : h.Sane hashKey) (table : h.hashTable ≠ none)
    {new : List (κ × ν)} (same : new.map Prod.fst = h.entries.map Prod.fst) :
    ({ h with entries := new } : Header κ ν).Sane hashKey where
  distinct := by
    rw [same]
    exact sane.distinct
  indexed := by
    rw [same]
    exact sane.indexed
  bare := fun none => absurd none table

theorem modify_eq_set {value : ν} (there : (entries.map Prod.fst)[n]? = some key) :
    entries.modify n (fun e => (e.1, value)) = entries.set n (key, value) := by
  rw [List.getElem?_map, Option.map_eq_some_iff] at there
  obtain ⟨e, here, rfl⟩ := there
  obtain ⟨inside, rfl⟩ := List.getElem?_eq_some_iff.mp here
  rw [List.modify_eq_set_getElem?, List.getElem?_eq_getElem inside]
  rfl

theorem set_keys (value : ν) (there : (entries.map Prod.fst)[n]? = some key) :
    (entries.set n (key, value)).map Prod.fst = entries.map Prod.fst := by
  obtain ⟨inside, here⟩ := List.getElem?_eq_some_iff.mp there
  rw [List.map_set, ← here]
  exact List.set_getElem_self inside

/-- The number in a slot that is full. -/
theorem index_of_cell {i m : Nat} {g : UInt64} (wf : WellFormed t)
    (full : cells t i = .full (g, m)) : t.slot i = ⟨g, m⟩ :=
  (full_of_cell (wf.shape i) full).1

variable [DecidableEq κ]

/-- The slot of a key that is there. -/
theorem Valid.find_known (valid : Valid hashKey (entries.map Prod.fst) t)
    (distinct : (entries.map Prod.fst).Nodup) (there : (entries.map Prod.fst)[n]? = some key) :
    ∃ i, hmFindSlot hashKey t entries key = some (some i) ∧
      cells t i = .full (keyHash hashKey key t.seed, n) := by
  obtain ⟨i, full⟩ := valid.slot_of_key there
  refine ⟨i, ?_, full⟩
  have found := lookUp_found valid.wf (keyHash_stored hashKey key t.seed) valid.room full
    (isKeyEqual_iff.mpr there) (by
      intro j m full' yes
      have same := key_number distinct (isKeyEqual_iff.mp yes) there
      subst same
      exact slot_unique valid.nodup_indices valid.wf full' full)
  unfold hmFindSlot
  rw [found]

theorem Valid.absent_key (valid : Valid hashKey (entries.map Prod.fst) t)
    (absent : ∀ j m, cells t j = .full (keyHash hashKey key t.seed, m) →
      isKeyEqual entries key m = false) : key ∉ entries.map Prod.fst := by
  intro listed
  obtain ⟨m, there⟩ := List.mem_iff_getElem?.mp listed
  obtain ⟨j, full⟩ := valid.slot_of_key there
  have no := absent j m full
  rw [isKeyEqual_iff.mpr there] at no
  cases no

theorem Valid.find_absent (valid : Valid hashKey (entries.map Prod.fst) t)
    (fresh : key ∉ entries.map Prod.fst) : hmFindSlot hashKey t entries key = some none := by
  obtain ⟨r, result, ended⟩ := lookUp_spec (isKeyEqual entries key) valid.wf
    (keyHash_stored hashKey key t.seed) valid.room
  unfold hmFindSlot
  rw [result]
  cases ended with
  | found _ yes => exact absurd (List.mem_of_getElem? (isKeyEqual_iff.mp yes)) fresh
  | empty _ _ _ _ => rfl

section Put

variable [Inhabited ν] {a : Table κ ν}

theorem hmputKey_spec (sane : (a.getD newHeader).Sane hashKey) (mode : Mode) (seed : UInt64)
    (key : κ) :
    ∃ h' n, hmputKey hashKey mode seed a key = some (h', n) ∧
      h'.default = (a.getD newHeader).default ∧ h'.Sane hashKey ∧ h'.hashTable ≠ none ∧
      (h'.entries = (a.getD newHeader).entries ∧ (h'.entries.map Prod.fst)[n]? = some key ∨
        key ∉ (a.getD newHeader).entries.map Prod.fst ∧
          h'.entries = (a.getD newHeader).entries ++ [(key, default)] ∧
          n = (a.getD newHeader).entries.length) := by
  unfold hmputKey
  generalize a.getD newHeader = h at sane ⊢
  obtain ⟨t, grown, valid, room⟩ := growIndex_spec seed sane.indexed
    (fun none => by rw [sane.bare none, List.map_nil])
  dsimp only
  rw [grown]
  dsimp only
  obtain ⟨r, result, ended⟩ := lookUp_spec (isKeyEqual h.entries key) valid.wf
    (keyHash_stored hashKey key t.seed) valid.room
  rw [result]
  cases ended with
  | @found i n full yes =>
    refine ⟨_, _, rfl, rfl, ⟨sane.distinct, ?_, ?_⟩, ?_, Or.inl ⟨rfl, ?_⟩⟩
    · intro t' same
      cases same
      exact valid.keepKey mode key _ i
    · intro none
      cases none
    · intro none
      cases none
    · rw [index_of_cell valid.wf full, Int.toNat_natCast]
      exact isKeyEqual_iff.mp yes
  | @empty i tombstone inside old free absent =>
    have fresh := valid.absent_key absent
    refine ⟨_, _, rfl, rfl, ⟨?_, ?_, ?_⟩, ?_, Or.inr ⟨fresh, rfl, rfl⟩⟩
    · rw [List.map_append]
      exact List.nodup_append'.mpr ⟨sane.distinct, List.nodup_singleton _,
        List.disjoint_singleton.mpr fresh⟩
    · intro t' same
      cases same
      have filled := valid.fillSlot mode room inside old free
      rw [List.length_map] at filled
      rw [List.map_append]
      exact filled
    · intro none
      cases none
    · intro none
      cases none

/-- The entries after an assignment to the entry that `stbds_hmput_key` gave. -/
theorem set_eq_put (value : ν) {old new : List (κ × ν)} (distinct : (old.map Prod.fst).Nodup)
    (place : new = old ∧ (new.map Prod.fst)[n]? = some key ∨
      key ∉ old.map Prod.fst ∧ new = old ++ [(key, default)] ∧ n = old.length) :
    (new.map Prod.fst)[n]? = some key ∧ new.set n (key, value) = StringMap.put key value old := by
  rcases place with ⟨rfl, there⟩ | ⟨fresh, rfl, rfl⟩
  · refine ⟨there, ?_⟩
    have here := there
    rw [List.getElem?_map, Option.map_eq_some_iff] at here
    obtain ⟨⟨k, v⟩, here, rfl⟩ := here
    rw [StringMap.put_known (StringMap.findIdx?_of_getElem? distinct here)]
    exact (modify_eq_set there).symm
  · refine ⟨?_, ?_⟩
    · rw [List.map_append, List.getElem?_append_right (Nat.le_of_eq (List.length_map _)),
        List.length_map, Nat.sub_self]
      rfl
    · rw [StringMap.put_fresh fresh, List.set_append_right _ _ (Nat.le_refl _), Nat.sub_self]
      rfl

theorem hmput_spec (sane : (a.getD newHeader).Sane hashKey) (mode : Mode) (seed : UInt64)
    (key : κ) (value : ν) :
    ∃ h', hmput hashKey mode seed a key value = some (some h') ∧
      h'.default = (a.getD newHeader).default ∧ h'.Sane hashKey ∧
      h'.entries = StringMap.put key value (a.getD newHeader).entries := by
  obtain ⟨h, n, result, kept, sane', table, place⟩ := hmputKey_spec sane mode seed key
  obtain ⟨there, entries⟩ := set_eq_put value sane.distinct place
  have sane'' := sane'.assign table (set_keys value there)
  unfold hmput
  rw [result]
  cases mode with
  | binary => exact ⟨_, rfl, kept, sane'', entries⟩
  | string =>
    dsimp only
    rw [modify_eq_set there]
    exact ⟨_, rfl, kept, sane'', entries⟩

end Put

section Deletion

variable {i : Nat}

/-- The index after the first steps of a deletion. -/
def markDeleted (t : HashIndex κ) (slot : Nat) : HashIndex κ :=
  { t with
    usedCount := t.usedCount - 1
    tombstoneCount := t.tombstoneCount + 1
    storage := t.storage.set slot Slot.deleted }

structure Marked (t : HashIndex κ) (i n : Nat) : Prop where
  wf : WellFormed (markDeleted t i)
  cells : cells (markDeleted t i) = Function.update (cells t) i .deleted
  numbers : (n :: indices (markDeleted t i)).Perm (indices t)
  tombs : tombstones (markDeleted t i) = tombstones t + 1

omit [DecidableEq κ] in
theorem markDeleted_spec {g : UInt64} (wf : WellFormed t) (full : cells t i = .full (g, n)) :
    Marked t i n := by
  have holds := index_of_cell wf full
  have inside := inside_of_cell full
  have cellsEq := cells_setSlot (s := Slot.deleted) inside
  have wf' := wf.setSlot (i := i) (s := Slot.deleted) (Or.inr (Or.inl rfl)) (by
    rw [cellsEq]
    exact wf.sound.delete)
  have numbers := indices_setSlot (s := Slot.deleted) inside
  rw [inUse_of_cell (wf.shape i) full] at numbers
  have tombs := tombstones_setSlot (s := Slot.deleted) inside
  have standing : isTombstone (t.slot i) = false := by
    rw [holds]
    rfl
  rw [standing] at tombs
  exact ⟨⟨wf'.buckets, wf'.size, wf'.shaped, wf'.sound, wf'.growAt, wf'.shrinkAt, wf'.cleanAt⟩,
    cellsEq, numbers, tombs⟩

omit [DecidableEq κ] in
/-- The keys after the last one came to the place `n`. -/
theorem getElem?_moved {last : κ} {m : Nat} (few : m < keys.length - 1)
    (inside : n < keys.length) :
    ((keys.set n last).dropLast)[m]? = if m = n then some last else keys[m]? := by
  rw [List.getElem?_dropLast, List.length_set, if_pos few, List.getElem?_set]
  by_cases here : n = m
  · rw [if_pos here, if_pos (here ▸ inside), if_pos here.symm]
  · rw [if_neg here, if_neg (Ne.symm here)]

/-- A deletion has marked the slot `i`, which held the number `n`; the last entry has the number
`count`. -/
structure Gap (hashKey : κ → UInt64 → UInt64) (entries : List (κ × ν)) (t : HashIndex κ)
    (i n count : Nat) (last : κ × ν) : Prop where
  valid : Valid hashKey (entries.map Prod.fst) t
  distinct : (entries.map Prod.fst).Nodup
  full : ∃ g, cells t i = .full (g, n)
  inside : n < entries.length
  whole : entries.length = count + 1
  final : entries.getLast? = some last

namespace Gap

variable {count : Nat} {last : κ × ν}

omit [DecidableEq κ] in
theorem marked (h : Gap hashKey entries t i n count last) : Marked t i n :=
  h.full.elim fun _ full => markDeleted_spec h.valid.wf full

omit [DecidableEq κ] in
theorem last_at (h : Gap hashKey entries t i n count last) : entries[count]? = some last := by
  have final := h.final
  rwa [List.getLast?_eq_getElem?, h.whole, Nat.add_sub_cancel] at final

omit [DecidableEq κ] in
theorem lastKey (h : Gap hashKey entries t i n count last) :
    (entries.map Prod.fst)[count]? = some last.1 := by
  rw [List.getElem?_map, h.last_at]
  rfl

omit [DecidableEq κ] in
theorem length (h : Gap hashKey entries t i n count last) :
    ((entries.set n last).dropLast.map Prod.fst).length = count := by
  rw [List.length_map, List.length_dropLast, List.length_set, h.whole, Nat.add_sub_cancel]

omit [DecidableEq κ] in
theorem used (h : Gap hashKey entries t i n count last) :
    (markDeleted t i).usedCount = count := by
  have before := h.valid.used
  rw [List.length_map, h.whole] at before
  change t.usedCount - 1 = count
  omega

omit [DecidableEq κ] in
theorem tombs (h : Gap hashKey entries t i n count last) :
    (markDeleted t i).tombstoneCount = tombstones (markDeleted t i) := by
  rw [h.marked.tombs]
  exact congrArg (· + 1) h.valid.tombs

omit [DecidableEq κ] in
theorem numbers (h : Gap hashKey entries t i n count last) :
    (n :: indices (markDeleted t i)).Perm (count :: List.range count) := by
  have all := h.marked.numbers.trans h.valid.numbers
  rw [List.length_map, h.whole, List.range_succ] at all
  exact all.trans (List.perm_append_singleton _ _)

omit [DecidableEq κ] in
/-- A slot that is still used is one of the old slots, of another number. -/
theorem old (h : Gap hashKey entries t i n count last) {j m : Nat} {g : UInt64}
    (stands : cells (markDeleted t i) j = .full (g, m)) :
    cells t j = .full (g, m) ∧ m ≠ n := by
  obtain ⟨g₀, full⟩ := h.full
  rw [h.marked.cells] at stands
  by_cases here : j = i
  · rw [here, Function.update_self] at stands
    cases stands
  · rw [Function.update_of_ne here] at stands
    refine ⟨stands, ?_⟩
    rintro rfl
    exact here (slot_unique h.valid.nodup_indices h.valid.wf stands full)

omit [DecidableEq κ] in
/-- The keys when the last one has come to the place `n`. -/
theorem key_at (h : Gap hashKey entries t i n count last) {m : Nat} (few : m < count) :
    ((entries.set n last).dropLast.map Prod.fst)[m]? =
      if m = n then some last.1 else (entries.map Prod.fst)[m]? := by
  have whole := h.whole
  have inside := h.inside
  rw [List.map_dropLast, List.map_set]
  exact getElem?_moved (by rw [List.length_map]; omega) (by rw [List.length_map]; omega)

omit [DecidableEq κ] in
/-- A slot that keeps its number keeps its key. -/
theorem keyed_old (h : Gap hashKey entries t i n count last) {j m : Nat} {g : UInt64}
    (stands : cells (markDeleted t i) j = .full (g, m)) (other : m ≠ count) :
    ∃ k, ((entries.set n last).dropLast.map Prod.fst)[m]? = some k ∧
      g = keyHash hashKey k t.seed := by
  obtain ⟨before, apart⟩ := h.old stands
  obtain ⟨k, here, hashed⟩ := h.valid.keyed j g m before
  have bound := (List.getElem?_eq_some_iff.mp here).1
  rw [List.length_map, h.whole] at bound
  exact ⟨k, by rw [h.key_at (by omega), if_neg apart, here], hashed⟩

omit [DecidableEq κ] in
/-- The last entry is the one that goes: nothing moves. -/
theorem counted_last (h : Gap hashKey entries t i count count last) :
    Counted hashKey ((entries.set count last).dropLast.map Prod.fst) (markDeleted t i) := by
  refine ⟨h.marked.wf, ?_, ?_, ?_, h.tombs⟩
  · intro j g m stands
    exact h.keyed_old stands (h.old stands).2
  · rw [h.length]
    exact (List.perm_cons count).mp h.numbers
  · rw [h.length]
    exact h.used

/-- The slot of the last key is found once its entry has moved. -/
theorem find_last (h : Gap hashKey entries t i n count last) (moves : n ≠ count) :
    ∃ j, cells (markDeleted t i) j = .full (keyHash hashKey last.1 t.seed, count) ∧
      hmFindSlot hashKey (markDeleted t i) (entries.set n last) last.1 = some (some j) := by
  obtain ⟨j, standing⟩ := h.valid.slot_of_key h.lastKey
  obtain ⟨g, full⟩ := h.full
  have apart : j ≠ i := by
    rintro rfl
    exact moves (number_eq full standing)
  have standing' : cells (markDeleted t i) j = .full (keyHash hashKey last.1 t.seed, count) := by
    rw [h.marked.cells, Function.update_of_ne apart]
    exact standing
  have room : (indices (markDeleted t i)).length + tombstones (markDeleted t i) <
      (markDeleted t i).slotCount := by
    have before := h.valid.room
    have shorter := h.marked.numbers.length_eq
    rw [List.length_cons] at shorter
    rw [h.marked.tombs]
    change _ < t.slotCount
    omega
  have yes : isKeyEqual (entries.set n last) last.1 count = true := by
    rw [isKeyEqual_iff, List.map_set, List.getElem?_set_ne moves]
    exact h.lastKey
  have only : ∀ j' m, cells (markDeleted t i) j' = .full (keyHash hashKey last.1 t.seed, m) →
      isKeyEqual (entries.set n last) last.1 m = true → j' = j := by
    intro j' m stands hit
    obtain ⟨before, other⟩ := h.old stands
    have here := isKeyEqual_iff.mp hit
    rw [List.map_set, List.getElem?_set_ne (Ne.symm other)] at here
    have same := key_number h.distinct here h.lastKey
    subst same
    exact slot_unique h.valid.nodup_indices h.valid.wf before standing
  refine ⟨j, standing', ?_⟩
  have looked := lookUp_found h.marked.wf (keyHash_stored hashKey last.1 t.seed) room standing'
    yes only
  unfold hmFindSlot
  rw [show (markDeleted t i).seed = t.seed from rfl, looked]

omit [DecidableEq κ] in
/-- The slot of the last key gets the number of the deleted one. -/
theorem counted_moved (h : Gap hashKey entries t i n count last) (moves : n ≠ count) {j : Nat}
    (standing : cells (markDeleted t i) j = .full (keyHash hashKey last.1 t.seed, count)) :
    Counted hashKey ((entries.set n last).dropLast.map Prod.fst)
      ((markDeleted t i).setSlot j ⟨keyHash hashKey last.1 t.seed, n⟩) := by
  have content := index_of_cell h.marked.wf standing
  have bound := inside_of_cell standing
  let s : Slot := ⟨keyHash hashKey last.1 t.seed, n⟩
  have stored := keyHash_stored hashKey last.1 t.seed
  have newCell : s.cell = .full (keyHash hashKey last.1 t.seed, n) := cell_of_index stored
  have shaped : s.Shaped := Or.inr (Or.inr ⟨stored, Int.natCast_nonneg _⟩)
  have cellsEq := cells_setSlot (s := s) bound
  have wf' : WellFormed ((markDeleted t i).setSlot j s) := by
    refine h.marked.wf.setSlot shaped ?_
    rw [cellsEq, newCell]
    exact h.marked.wf.sound.exchange standing rfl
  have numbers' := indices_setSlot (s := s) bound
  rw [inUse_of_cell (h.marked.wf.shape j) standing, inUse_of_cell shaped newCell] at numbers'
  have tombs' := tombstones_setSlot (s := s) bound
  have kept : isTombstone ((markDeleted t i).slot j) = false := by
    rw [content]
    rfl
  have fresh : isTombstone s = false := rfl
  rw [kept, fresh] at tombs'
  refine ⟨wf', ?_, ?_, ?_, h.tombs.trans tombs'.symm⟩
  · intro j' g m stands
    rw [cellsEq] at stands
    by_cases here : j' = j
    · rw [here, Function.update_self, newCell] at stands
      cases stands
      have inside := h.inside
      have whole := h.whole
      exact ⟨last.1, by rw [h.key_at (by omega), if_pos rfl], rfl⟩
    · rw [Function.update_of_ne here] at stands
      refine h.keyed_old stands ?_
      rintro rfl
      exact here (slot_unique h.valid.nodup_indices h.valid.wf (h.old stands).1 (h.old standing).1)
  · rw [h.length]
    exact (List.perm_cons count).mp (numbers'.trans h.numbers)
  · rw [h.length]
    exact h.used

end Gap

/-- The index and the entries when the number of the last entry has been replaced. -/
theorem moveLast_spec {last : κ × ν} (valid : Valid hashKey (entries.map Prod.fst) t)
    (distinct : (entries.map Prod.fst).Nodup)
    (there : (entries.map Prod.fst)[n]? = some key)
    (full : cells t i = .full (keyHash hashKey key t.seed, n))
    (final : entries.getLast? = some last) :
    ∃ t' moved, moveLast hashKey (markDeleted t i) entries n = some (t', moved) ∧
      moved.dropLast = (entries.set n last).dropLast ∧
      Counted hashKey ((entries.set n last).dropLast.map Prod.fst) t' ∧
      t'.usedCount = t.usedCount - 1 ∧ t'.usedCountThreshold = t.usedCountThreshold ∧
      t'.slotCount = t.slotCount := by
  have inside := (List.getElem?_eq_some_iff.mp there).1
  rw [List.length_map] at inside
  obtain ⟨count, whole⟩ : ∃ count, entries.length = count + 1 := ⟨entries.length - 1, by omega⟩
  have gap : Gap hashKey entries t i n count last :=
    ⟨valid, distinct, ⟨_, full⟩, inside, whole, final⟩
  unfold moveLast
  by_cases atEnd : n = entries.length - 1
  · rw [if_pos atEnd]
    obtain rfl : n = count := by omega
    have same : entries.set n last = entries := by
      obtain ⟨bound, rfl⟩ := List.getElem?_eq_some_iff.mp gap.last_at
      exact List.set_getElem_self bound
    exact ⟨_, _, rfl, by rw [same], gap.counted_last, rfl, rfl, rfl⟩
  · have moves : n ≠ count := by omega
    obtain ⟨j, standing, found⟩ := gap.find_last moves
    rw [if_neg atEnd, final]
    dsimp only
    rw [found]
    dsimp only
    rw [index_of_cell gap.marked.wf standing]
    exact ⟨_, _, rfl, rfl, gap.counted_moved moves standing, rfl, rfl, rfl⟩

theorem hmdel_spec (sane : h.Sane hashKey) (key : κ) :
    ∃ h', hmdel hashKey (some h) key =
        some (some h', if key ∈ h.entries.map Prod.fst then 1 else 0) ∧
      h'.default = h.default ∧ h'.Sane hashKey ∧
      h'.entries = StringMap.swapErase key h.entries := by
  unfold hmdel
  dsimp only
  cases table : h.hashTable with
  | none =>
    have nothing := sane.bare table
    refine ⟨h, ?_, rfl, sane, ?_⟩
    · rw [nothing, List.map_nil, if_neg List.not_mem_nil]
    · rw [nothing]
      rfl
  | some t =>
    have valid := sane.indexed t table
    dsimp only
    by_cases known : key ∈ h.entries.map Prod.fst
    · rw [if_pos known]
      obtain ⟨n, there⟩ := List.mem_iff_getElem?.mp known
      obtain ⟨i, found, full⟩ := valid.find_known sane.distinct there
      have inside := (List.getElem?_eq_some_iff.mp there).1
      rw [List.length_map] at inside
      obtain ⟨last, final⟩ : ∃ last, h.entries.getLast? = some last := by
        rw [List.getLast?_eq_getElem?]
        exact ⟨_, List.getElem?_eq_getElem (by omega)⟩
      obtain ⟨t', moved, result, dropped, counted, used, threshold, count⟩ :=
        moveLast_spec valid sane.distinct there full final
      have positive : 1 ≤ t.usedCount := by
        rw [valid.used, List.length_map]
        omega
      obtain ⟨t₂, small, valid'⟩ := shrinkIndex_spec counted
        (by rw [used, threshold]; have := valid.load; omega)
        (by rw [used, count]; intro large; have := valid.dense large; omega)
      have number : (t.slot i).index.toNat = n := by
        rw [index_of_cell valid.wf full, Int.toNat_natCast]
      have erased : StringMap.swapErase key h.entries = (h.entries.set n last).dropLast := by
        have here := there
        rw [List.getElem?_map, Option.map_eq_some_iff] at here
        obtain ⟨⟨k, v⟩, here, rfl⟩ := here
        unfold StringMap.swapErase
        rw [StringMap.findIdx?_of_getElem? sane.distinct here, final]
      rw [found]
      dsimp only
      rw [number, show ({ t with
        usedCount := t.usedCount - 1
        tombstoneCount := t.tombstoneCount + 1
        storage := t.storage.set i Slot.deleted } : HashIndex κ) = markDeleted t i from rfl, result]
      dsimp only
      rw [small]
      refine ⟨_, rfl, rfl, ⟨?_, ?_, ?_⟩, ?_⟩
      · rw [dropped, ← erased]
        exact StringMap.swapErase_keys sane.distinct
      · intro t₃ same
        cases same
        rw [dropped]
        exact valid'
      · intro none
        cases none
      · rw [erased]
        exact dropped
    · rw [if_neg known, valid.find_absent known, StringMap.swapErase_fresh known]
      exact ⟨h, rfl, rfl, sane, rfl⟩

end Deletion

theorem hmgeti_spec [Inhabited ν] (sane : h.Sane hashKey) (key : κ) :
    hmgeti hashKey (some h) key =
      some (some h, ((h.entries.findIdx? (·.1 = key)).elim INDEX_EMPTY Int.ofNat)) := by
  unfold hmgeti
  dsimp only
  cases table : h.hashTable with
  | none =>
    rw [sane.bare table]
    rfl
  | some t =>
    have valid := sane.indexed t table
    dsimp only
    cases found : h.entries.findIdx? (·.1 = key) with
    | none =>
      rw [valid.find_absent (StringMap.findIdx?_eq_none_iff_fresh.mp found)]
      rfl
    | some n =>
      obtain ⟨inside, same, -⟩ := List.findIdx?_eq_some_iff_getElem.mp found
      have there : (h.entries.map Prod.fst)[n]? = some key := by
        rw [List.getElem?_map, List.getElem?_eq_getElem inside]
        exact congrArg some (by simpa using same)
      obtain ⟨i, slot, full⟩ := valid.find_known sane.distinct there
      rw [slot]
      dsimp only
      rw [index_of_cell valid.wf full]
      rfl

end Tables

end StbDs
