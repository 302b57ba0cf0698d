import NanoProxy.StbDsIndex

/-!
# Tables and their entries

`Valid` ties an index to the entries: every number of an entry stands in one slot, with the
hash value of its key. The counts of the index are exact and leave an empty slot.
-/

namespace StbDs

open OpenAddressing

universe u v

variable {κ : Type u} {ν : Type v} {t : HashIndex κ} {s : Slot} {i e slotCount : Nat}

theorem no_tombstone (none : tombstones t = 0) (inside : i < t.storage.length) :
    t.slot i ≠ Slot.deleted := by
  intro deleted
  unfold tombstones at none
  rw [List.countP_eq_zero] at none
  refine none _ (slot_mem inside) ?_
  rw [deleted]
  rfl

theorem copySlot_spec {b : UInt64 × Nat} (wf : WellFormed t) (clean : tombstones t = 0)
    (room : (indices t).length < t.slotCount) (new : s.Shaped) (full : s.cell = .full b) :
    ∃ i < t.storage.length, copySlot t s = some (t.setSlot i s) ∧
      t.slot i = Slot.empty ∧ WellFormed (t.setSlot i s) := by
  obtain ⟨content, stored⟩ := full_of_cell new full
  subst content
  obtain ⟨r, result, ended⟩ := lookUp_spec (fun _ => false) wf stored
    (by rw [clean]; exact room)
  cases ended with
  | found _ yes => cases yes
  | @empty i tombstone inside old free absent =>
    cases tombstone with
    | some p => exact absurd old (no_tombstone clean inside)
    | none =>
      rw [Option.getD_none] at inside old free
      refine ⟨i, inside, ?_, old, ?_⟩
      · unfold copySlot
        rw [if_pos (Int.natCast_nonneg b.2)]
        dsimp only
        rw [result]
        rfl
      · refine wf.setSlot new ?_
        rw [cells_setSlot inside, full]
        exact wf.sound.insert free

/-- What the slots of a list add to an index. -/
structure Copied (l : List Slot) (t t' : HashIndex κ) : Prop where
  wf : WellFormed t'
  clean : tombstones t' = 0
  slotCount : t'.slotCount = t.slotCount
  seed : t'.seed = t.seed
  usedCount : t'.usedCount = t.usedCount
  tombstoneCount : t'.tombstoneCount = t.tombstoneCount
  numbers : (indices t').Perm (l.filterMap inUse ++ indices t)
  origin : ∀ j b, cells t' j = .full b → (∃ i, cells t i = .full b) ∨ ∃ s ∈ l, s.cell = .full b

theorem copy_all {l : List Slot} (wf : WellFormed t) (clean : tombstones t = 0)
    (shaped : ∀ s ∈ l, s.Shaped)
    (room : (l.filterMap inUse).length + (indices t).length < t.slotCount) :
    ∃ t', l.foldlM copySlot t = some t' ∧ Copied l t t' := by
  induction l generalizing t with
  | nil =>
    refine ⟨t, rfl, wf, clean, rfl, rfl, rfl, rfl, List.Perm.refl _, ?_⟩
    intro j b full
    exact Or.inl ⟨j, full⟩
  | cons s l ih =>
    rw [List.forall_mem_cons] at shaped
    rw [List.foldlM_cons]
    have kept : ∀ t', Copied l t t' → inUse s = none → Copied (s :: l) t t' := by
      intro t' c unused
      refine ⟨c.wf, c.clean, c.slotCount, c.seed, c.usedCount, c.tombstoneCount, ?_, ?_⟩
      · rw [List.filterMap_cons, unused]
        exact c.numbers
      · intro j b full
        rcases c.origin j b full with old | ⟨s', listed, content⟩
        · exact Or.inl old
        · exact Or.inr ⟨s', List.mem_cons_of_mem s listed, content⟩
    cases used : inUse s with
    | none =>
      have skipped : copySlot t s = some t := by
        unfold copySlot
        unfold inUse at used
        by_cases nonneg : 0 ≤ s.index
        · rw [if_pos nonneg] at used
          cases used
        · exact if_neg nonneg
      rw [List.filterMap_cons, used] at room
      obtain ⟨t', result, c⟩ := ih wf clean shaped.2 room
      rw [skipped]
      exact ⟨t', result, kept t' c used⟩
    | some n =>
      rw [List.filterMap_cons, used] at room
      dsimp only at room
      rw [List.length_cons] at room
      have full := cell_of_inUse shaped.1 used
      obtain ⟨i, inside, copied, old, wf'⟩ := copySlot_spec wf clean (by omega) shaped.1 full
      have numbers := indices_setSlot (s := s) inside
      rw [old, used] at numbers
      have count := numbers.length_eq
      have tombs := tombstones_setSlot (s := s) inside
      have standing : isTombstone s = false := by
        unfold isTombstone
        rw [decide_eq_false_iff_not]
        intro deleted
        unfold inUse at used
        rw [deleted] at used
        cases used
      rw [old, standing, clean] at tombs
      obtain ⟨t', result, c⟩ := ih wf' tombs shaped.2 (by
        change _ < t.slotCount
        rw [List.length_append, List.length_append] at count
        change 0 + _ = 1 + _ at count
        omega)
      rw [copied]
      refine ⟨t', result, c.wf, c.clean, c.slotCount, c.seed, c.usedCount, c.tombstoneCount, ?_, ?_⟩
      · rw [List.filterMap_cons, used]
        refine c.numbers.trans ((List.Perm.append_left _ numbers).trans ?_)
        exact List.perm_middle
      · intro j b stands
        rcases c.origin j b stands with ⟨k, before⟩ | ⟨s', listed, content⟩
        · rw [cells_setSlot inside] at before
          by_cases here : k = i
          · rw [here, Function.update_self] at before
            exact Or.inr ⟨s, List.mem_cons_self, before⟩
          · rw [Function.update_of_ne here] at before
            exact Or.inl ⟨k, before⟩
        · exact Or.inr ⟨s', List.mem_cons_of_mem s listed, content⟩

theorem cells_emptyIndex (κ : Type u) (seed : UInt64) (i : Nat) :
    cells (emptyIndex slotCount seed : HashIndex κ) i = .empty := by
  have content : (emptyIndex slotCount seed : HashIndex κ).slot i = Slot.empty := by
    by_contra other
    have inside := inside_of_slot other
    rw [slot_eq inside] at other
    exact other (List.eq_of_mem_replicate (List.getElem_mem inside))
  unfold cells
  rw [content, cell_empty]

theorem wellFormed_emptyIndex (κ : Type u) (seed : UInt64) (usedCount : Nat)
    (count : slotCount = 8 * 2 ^ e) :
    WellFormed { (emptyIndex slotCount seed : HashIndex κ) with usedCount := usedCount } where
  buckets := ⟨e, count⟩
  size := List.length_replicate
  shaped := fun _ listed => Or.inl (List.eq_of_mem_replicate listed)
  sound := Sound.of_empty (cells_emptyIndex κ seed)
  growAt := rfl
  shrinkAt := rfl
  cleanAt := rfl

theorem indices_emptyIndex (κ : Type u) (slotCount : Nat) (seed : UInt64) :
    indices (emptyIndex slotCount seed : HashIndex κ) = [] := by
  refine List.filterMap_eq_nil_iff.mpr fun s listed => ?_
  rw [List.eq_of_mem_replicate listed]
  rfl

theorem tombstones_emptyIndex (κ : Type u) (slotCount : Nat) (seed : UInt64) :
    tombstones (emptyIndex slotCount seed : HashIndex κ) = 0 := by
  refine List.countP_eq_zero.mpr fun s listed => ?_
  rw [List.eq_of_mem_replicate listed]
  exact Bool.false_ne_true

/-- The copy has the same numbers in slots of the same hash values, and no tombstone. -/
structure Rebuilt (slotCount : Nat) (ot t : HashIndex κ) : Prop where
  wf : WellFormed t
  clean : tombstones t = 0
  slotCount : t.slotCount = slotCount
  seed : t.seed = ot.seed
  usedCount : t.usedCount = ot.usedCount
  tombstoneCount : t.tombstoneCount = 0
  numbers : (indices t).Perm (indices ot)
  origin : ∀ j b, cells t j = .full b → ∃ i, cells ot i = .full b

theorem rebuild_spec {ot : HashIndex κ} (wf : WellFormed ot) (count : slotCount = 8 * 2 ^ e)
    (room : (indices ot).length < slotCount) :
    ∃ t, rebuild slotCount ot = some t ∧ Rebuilt slotCount ot t := by
  have fresh := wellFormed_emptyIndex κ ot.seed ot.usedCount count
  have none := indices_emptyIndex κ slotCount ot.seed
  obtain ⟨t, result, c⟩ := copy_all (l := ot.storage) fresh
    (tombstones_emptyIndex κ slotCount ot.seed) wf.shaped (by
      change (indices ot).length + (indices (emptyIndex slotCount ot.seed : HashIndex κ)).length <
        slotCount
      rw [none]
      exact room)
  refine ⟨t, result, c.wf, c.clean, c.slotCount, c.seed, c.usedCount, c.tombstoneCount, ?_, ?_⟩
  · have numbers : (indices t).Perm
        (indices ot ++ indices (emptyIndex slotCount ot.seed : HashIndex κ)) := c.numbers
    rw [none, List.append_nil] at numbers
    exact numbers
  · intro j b full
    rcases c.origin j b full with ⟨k, old⟩ | ⟨s, listed, content⟩
    · have same : cells (emptyIndex slotCount ot.seed : HashIndex κ) k = .full b := old
      rw [cells_emptyIndex] at same
      cases same
    · obtain ⟨i, inside, rfl⟩ := List.mem_iff_getElem.mp listed
      refine ⟨i, ?_⟩
      unfold cells
      rw [slot_eq inside]
      exact content

section Keys

variable (hashKey : κ → UInt64 → UInt64)

/-- Every slot that is used holds the number of a key and its hash value. -/
def Keyed (keys : List κ) (t : HashIndex κ) : Prop :=
  ∀ i h n, cells t i = .full (h, n) →
    ∃ key, keys[n]? = some key ∧ h = keyHash hashKey key t.seed

/-- The index after a deletion, before it is made smaller. -/
structure Counted (keys : List κ) (t : HashIndex κ) : Prop where
  wf : WellFormed t
  keyed : Keyed hashKey keys t
  numbers : (indices t).Perm (List.range keys.length)
  used : t.usedCount = keys.length
  tombs : t.tombstoneCount = tombstones t

structure Valid (keys : List κ) (t : HashIndex κ) : Prop extends Counted hashKey keys t where
  load : t.usedCount ≤ t.usedCountThreshold
  tombLoad : t.tombstoneCount ≤ t.tombstoneCountThreshold
  dense : BUCKET_LENGTH < t.slotCount → t.slotCount ≤ 4 * t.usedCount

theorem keyHash_stored (key : κ) (seed : UInt64) : 2 ≤ keyHash hashKey key seed := by
  unfold keyHash
  by_cases small : hashKey key seed < 2
  · rw [if_pos small]
    rw [UInt64.lt_iff_toNat_lt] at small
    rw [UInt64.le_iff_toNat_le, UInt64.toNat_add]
    have two : (2 : UInt64).toNat = 2 := rfl
    rw [two] at small ⊢
    omega
  · rw [if_neg small]
    exact UInt64.not_lt.mp small

variable {hashKey} {keys : List κ} {key : κ} {n : Nat}

theorem Counted.length_indices (counted : Counted hashKey keys t) :
    (indices t).length = keys.length := by
  rw [counted.numbers.length_eq, List.length_range]

theorem Counted.nodup_indices (counted : Counted hashKey keys t) : (indices t).Nodup :=
  (counted.numbers.nodup_iff).mpr List.nodup_range

theorem Valid.room (valid : Valid hashKey keys t) :
    (indices t).length + tombstones t < t.slotCount := by
  obtain ⟨e, count⟩ := valid.wf.buckets
  have load := valid.load
  have tombLoad := valid.tombLoad
  have positive := Nat.two_pow_pos e
  rw [valid.wf.growAt, valid.used] at load
  rw [valid.wf.cleanAt, valid.tombs] at tombLoad
  rw [valid.length_indices]
  omega

/-- The slot of a number. -/
theorem Counted.slot_of_key (counted : Counted hashKey keys t) (there : keys[n]? = some key) :
    ∃ i, cells t i = .full (keyHash hashKey key t.seed, n) := by
  have inside := (List.getElem?_eq_some_iff.mp there).1
  have listed : n ∈ indices t := counted.numbers.mem_iff.mpr (List.mem_range.mpr inside)
  obtain ⟨i, h, full⟩ := (mem_indices counted.wf).mp listed
  obtain ⟨key', there', rfl⟩ := counted.keyed i h n full
  rw [there] at there'
  cases there'
  exact ⟨i, full⟩

/-- A number stands in one slot. -/
theorem slot_unique {j : Nat} {h h' : UInt64} (nodup : (indices t).Nodup) (wf : WellFormed t)
    (first : cells t i = .full (h, n)) (second : cells t j = .full (h', n)) : i = j := by
  by_contra different
  have inside := inside_of_cell first
  -- without the first of the two slots the number would still be there
  have removed := indices_setSlot (s := Slot.deleted) inside
  rw [inUse_of_cell (wf.shape i) first] at removed
  have deleted := wf.setSlot (i := i) (s := Slot.deleted) (Or.inr (Or.inl rfl)) (by
    rw [cells_setSlot inside]
    exact wf.sound.delete)
  have still : n ∈ indices (t.setSlot i Slot.deleted) := by
    rw [mem_indices deleted]
    refine ⟨j, h', ?_⟩
    rw [cells_setSlot inside, Function.update_of_ne (Ne.symm different)]
    exact second
  have once := (removed.nodup_iff).mpr nodup
  exact (List.nodup_cons.mp once).1 still

theorem key_number {m : Nat} (distinct : keys.Nodup) (first : keys[n]? = some key)
    (second : keys[m]? = some key) : n = m := by
  obtain ⟨inside, here⟩ := List.getElem?_eq_some_iff.mp first
  obtain ⟨inside', there⟩ := List.getElem?_eq_some_iff.mp second
  exact (List.Nodup.getElem_inj_iff distinct).mp (here.trans there.symm)

end Keys

theorem isKeyEqual_iff [DecidableEq κ] {entries : List (κ × ν)} {key : κ} {n : Nat} :
    isKeyEqual entries key n = true ↔ (entries.map Prod.fst)[n]? = some key := by
  unfold isKeyEqual
  rw [Int.toNat_natCast, List.getElem?_map, Option.any_eq_true, Option.map_eq_some_iff]
  simp only [decide_eq_true_eq]

end StbDs
