import NanoProxy.StbDs

/-!
# The search over the buckets

`lookUp` is the search of open addressing on a route that has every slot, since the buckets
are tried by triangular numbers and their number is a power of two.
-/

namespace StbDs

open OpenAddressing TriangularProbe

universe u

variable {κ : Type u} {t : HashIndex κ} {equal : Int → Bool} {hash : UInt64}
  {tombstone tomb : Option Nat} {is : List Nat} {i pos step rounds slotCount e : Nat}

/-- What the table keeps in its slots. -/
def Slot.Shaped (s : Slot) : Prop := s = Slot.empty ∨ s = Slot.deleted ∨ 2 ≤ s.hash ∧ 0 ≤ s.index

def Slot.cell (s : Slot) : Cell (UInt64 × Nat) :=
  if s.hash = HASH_EMPTY then .empty
  else if s.index = INDEX_DELETED then .deleted
  else .full (s.hash, s.index.toNat)

def cells (t : HashIndex κ) (i : Nat) : Cell (UInt64 × Nat) := (t.slot i).cell

/-- A hit of the search for a hash value. -/
def hits (equal : Int → Bool) (hash : UInt64) (b : UInt64 × Nat) : Bool :=
  b.1 = hash && equal b.2

@[simp] theorem cell_empty : Slot.empty.cell = .empty := rfl

@[simp] theorem cell_deleted : Slot.deleted.cell = .deleted := rfl

theorem cell_full {s : Slot} (stored : 2 ≤ s.hash) (used : 0 ≤ s.index) :
    s.cell = .full (s.hash, s.index.toNat) := by
  unfold Slot.cell
  rw [if_neg, if_neg]
  · intro deleted
    rw [deleted] at used
    exact absurd used (by decide)
  · intro empty
    rw [empty] at stored
    exact absurd stored (by decide)

theorem hits_iff {h : UInt64} {n : Nat} :
    hits equal hash (h, n) = true ↔ h = hash ∧ equal n = true := by
  unfold hits
  rw [Bool.and_eq_true, decide_eq_true_eq]

theorem slot_shaped (shaped : ∀ s ∈ t.storage, s.Shaped) (i : Nat) : (t.slot i).Shaped := by
  unfold HashIndex.slot
  by_cases inside : i < t.storage.length
  · rw [List.getD_eq_getElem?_getD, List.getElem?_eq_getElem inside, Option.getD_some]
    exact shaped _ (List.getElem_mem inside)
  · rw [List.getD_eq_getElem?_getD, List.getElem?_eq_none (Nat.le_of_not_lt inside),
      Option.getD_none]
    exact Or.inl rfl

def Probe.outcome : Probe → Outcome Nat
  | .found i => .found i
  | .empty i tombstone => .free (tombstone.getD i)
  | .onward tombstone => .passed tombstone

theorem scan_outcome (equal : Int → Bool) (tombstone : Option Nat) (is : List Nat)
    (shaped : ∀ s ∈ t.storage, s.Shaped) (stored : 2 ≤ hash) :
    (scan t equal hash tombstone is).outcome =
      search (cells t) (hits equal hash) tombstone is := by
  induction is generalizing tombstone with
  | nil => rfl
  | cons i is ih =>
    rw [scan, search]
    unfold cells
    rcases slot_shaped shaped i with empty | deleted | ⟨large, used⟩
    · have other : HASH_EMPTY ≠ hash := by
        rintro rfl
        exact absurd stored (by decide)
      have zero : Slot.empty.hash = HASH_EMPTY := rfl
      rw [empty, cell_empty, if_neg (show ¬Slot.empty.hash = hash from other), if_pos zero]
      rfl
    · have other : HASH_DELETED ≠ hash := by
        rintro rfl
        exact absurd stored (by decide)
      have full : ¬HASH_DELETED = HASH_EMPTY := by decide
      rw [deleted, cell_deleted, if_neg (show ¬Slot.deleted.hash = hash from other),
        if_neg (show ¬Slot.deleted.hash = HASH_EMPTY from full)]
      cases tombstone with
      | none =>
        rw [if_pos ⟨rfl, rfl⟩]
        exact ih _
      | some seen =>
        rw [if_neg (by rintro ⟨none, -⟩; cases none)]
        exact ih _
    · have nonempty : ¬(t.slot i).hash = HASH_EMPTY := by
        intro zero
        rw [zero] at large
        exact absurd large (by decide)
      have standing : ¬(tombstone = none ∧ (t.slot i).index = INDEX_DELETED) := by
        rintro ⟨-, gone⟩
        rw [gone] at used
        exact absurd used (by decide)
      have hit : hits equal hash ((t.slot i).hash, (t.slot i).index.toNat) = true ↔
          (t.slot i).hash = hash ∧ equal (t.slot i).index = true := by
        rw [hits_iff, Int.toNat_of_nonneg used]
      rw [cell_full large used]
      dsimp only
      by_cases same : (t.slot i).hash = hash
      · rw [if_pos same]
        by_cases yes : equal (t.slot i).index = true
        · rw [if_pos yes, if_pos (hit.mpr ⟨same, yes⟩)]
          rfl
        · rw [if_neg yes, if_neg (fun both => yes (hit.mp both).2)]
          exact ih _
      · rw [if_neg same, if_neg nonempty, if_neg standing,
          if_neg (fun both => same (hit.mp both).1)]
        exact ih _

/-- A scan that stops for a new entry stands at an empty slot, and its tombstone is a deleted
one. -/
theorem scan_empty (h : scan t equal hash tombstone is = .empty i tomb) :
    (t.slot i).hash = HASH_EMPTY ∧
      ∀ p, tomb = some p → tombstone = some p ∨ (t.slot p).index = INDEX_DELETED := by
  induction is generalizing tombstone with
  | nil => cases h
  | cons j is ih =>
    rw [scan] at h
    by_cases same : (t.slot j).hash = hash
    · rw [if_pos same] at h
      by_cases yes : equal (t.slot j).index = true
      · rw [if_pos yes] at h
        cases h
      · rw [if_neg yes] at h
        exact ih h
    · rw [if_neg same] at h
      by_cases empty : (t.slot j).hash = HASH_EMPTY
      · rw [if_pos empty] at h
        cases h
        exact ⟨empty, fun p seen => Or.inl seen⟩
      · rw [if_neg empty] at h
        by_cases first : tombstone = none ∧ (t.slot j).index = INDEX_DELETED
        · rw [if_pos first] at h
          obtain ⟨stop, kept⟩ := ih h
          refine ⟨stop, fun p seen => ?_⟩
          rcases kept p seen with new | old
          · cases new
            exact Or.inr first.2
          · exact Or.inr old
        · rw [if_neg first] at h
          exact ih h

theorem scan_onward (h : scan t equal hash tombstone is = .onward tomb) :
    ∀ p, tomb = some p → tombstone = some p ∨ (t.slot p).index = INDEX_DELETED := by
  induction is generalizing tombstone with
  | nil =>
    cases h
    exact fun p seen => Or.inl seen
  | cons j is ih =>
    rw [scan] at h
    by_cases same : (t.slot j).hash = hash
    · rw [if_pos same] at h
      by_cases yes : equal (t.slot j).index = true
      · rw [if_pos yes] at h
        cases h
      · rw [if_neg yes] at h
        exact ih h
    · rw [if_neg same] at h
      by_cases empty : (t.slot j).hash = HASH_EMPTY
      · rw [if_pos empty] at h
        cases h
      · rw [if_neg empty] at h
        by_cases first : tombstone = none ∧ (t.slot j).index = INDEX_DELETED
        · rw [if_pos first] at h
          intro p seen
          rcases ih h p seen with new | old
          · cases new
            exact Or.inr first.2
          · exact Or.inr old
        · rw [if_neg first] at h
          exact ih h

/-- The slots that the loop tries, in order. -/
def route (slotCount : Nat) : Nat → Nat → Nat → List Nat
  | 0, _, _ => []
  | rounds + 1, pos, step =>
    bucketOrder pos ++
      route slotCount rounds ((pos + step) &&& (slotCount - 1)) (step + BUCKET_LENGTH)

def hashRoute (slotCount : Nat) (hash : UInt64) : List Nat :=
  route slotCount (slotCount / BUCKET_LENGTH) (probePosition hash slotCount) BUCKET_LENGTH

theorem probe_outcome (equal : Int → Bool) (tombstone : Option Nat)
    (shaped : ∀ s ∈ t.storage, s.Shaped) (stored : 2 ≤ hash)
    (ends : ∀ p, search (cells t) (hits equal hash) tombstone
      (route t.slotCount rounds pos step) ≠ .passed p) :
    ∃ r, probe t equal hash rounds pos step tombstone = some r ∧
      r.outcome = search (cells t) (hits equal hash) tombstone
        (route t.slotCount rounds pos step) ∧
      ∀ q tomb, r = .empty q tomb → (t.slot q).hash = HASH_EMPTY ∧
        ∀ p, tomb = some p → tombstone = some p ∨ (t.slot p).index = INDEX_DELETED := by
  induction rounds generalizing pos step tombstone with
  | zero => exact absurd rfl (ends tombstone)
  | succ rounds ih =>
    have first := scan_outcome equal tombstone (bucketOrder pos) shaped stored
    rw [route, search_append, ← first] at ends ⊢
    rw [probe]
    cases looked : scan t equal hash tombstone (bucketOrder pos) with
    | found q =>
      refine ⟨.found q, rfl, rfl, ?_⟩
      intro q' tomb impossible
      cases impossible
    | empty q tomb =>
      refine ⟨.empty q tomb, rfl, rfl, ?_⟩
      intro q' tomb' same
      cases same
      exact scan_empty looked
    | onward seen =>
      rw [looked] at ends
      obtain ⟨r, result, outcome, kinds⟩ := ih seen ends
      refine ⟨r, result, outcome, fun q tomb stop => ?_⟩
      obtain ⟨empty, kept⟩ := kinds q tomb stop
      refine ⟨empty, fun p sought => ?_⟩
      rcases kept p sought with early | deleted
      · exact scan_onward looked p early
      · exact Or.inr deleted

theorem mem_bucketOrder : i ∈ bucketOrder pos ↔ i / BUCKET_LENGTH = pos / BUCKET_LENGTH := by
  unfold bucketOrder BUCKET_LENGTH
  rw [List.mem_append, List.mem_range'_1, List.mem_range'_1]
  omega

theorem and_mask (pos e : Nat) : pos &&& (8 * 2 ^ e - 1) = pos % (8 * 2 ^ e) := by
  have power : 8 * 2 ^ e = 2 ^ (e + 3) := by
    rw [Nat.pow_add, Nat.mul_comm]
  rw [power, Nat.and_two_pow_sub_one_eq_mod]

/-- The bucket after `j` more rounds. -/
theorem mem_route {k j : Nat} {start : Nat} (round : j < rounds)
    (there : i / BUCKET_LENGTH = (start + 8 * triangular (k + j)) % (8 * 2 ^ e) / BUCKET_LENGTH) :
    i ∈ route (8 * 2 ^ e) rounds ((start + 8 * triangular k) % (8 * 2 ^ e))
      (BUCKET_LENGTH * (k + 1)) := by
  induction rounds generalizing k j with
  | zero => cases round
  | succ rounds ih =>
    rw [route, List.mem_append, mem_bucketOrder]
    cases j with
    | zero => exact Or.inl there
    | succ j =>
      right
      have next : (start + 8 * triangular k) % (8 * 2 ^ e) + BUCKET_LENGTH * (k + 1) &&&
          (8 * 2 ^ e - 1) = (start + 8 * triangular (k + 1)) % (8 * 2 ^ e) := by
        rw [and_mask, Nat.mod_add_mod, triangular, Nat.mul_add 8, Nat.add_assoc]
        rfl
      have step : BUCKET_LENGTH * (k + 1) + BUCKET_LENGTH = BUCKET_LENGTH * (k + 1 + 1) := rfl
      rw [next, step]
      refine ih (j := j) (Nat.lt_of_succ_lt_succ round) ?_
      rw [there, Nat.add_right_comm k 1 j, Nat.add_assoc k j 1]

theorem mem_hashRoute (inside : i < 8 * 2 ^ e) : i ∈ hashRoute (8 * 2 ^ e) hash := by
  have bucket : i / 8 < 2 ^ e := Nat.div_lt_of_lt_mul inside
  obtain ⟨tries, few, reached⟩ := visits (hash.toNat / 8) bucket
  have round : tries < 8 * 2 ^ e / BUCKET_LENGTH := by
    unfold BUCKET_LENGTH
    rw [Nat.mul_div_cancel_left _ (by decide)]
    exact few
  have start : probePosition hash (8 * 2 ^ e) = (hash.toNat + 8 * triangular 0) % (8 * 2 ^ e) :=
    and_mask _ _
  unfold hashRoute
  rw [start]
  refine mem_route (k := 0) (j := tries) round ?_
  rw [Nat.zero_add]
  unfold BUCKET_LENGTH
  rw [Nat.mod_mul_right_div_self, Nat.add_mul_div_left _ _ (by decide), reached]

end StbDs
