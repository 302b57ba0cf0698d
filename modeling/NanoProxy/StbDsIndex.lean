import NanoProxy.StbDsProbe

/-!
# What a hash index keeps

`WellFormed` is about the slots alone. A change of one slot is a change of one cell; the
numbers of the entries in the slots are counted as a list, up to its order.
-/

namespace StbDs

open OpenAddressing

universe u

variable {κ : Type u} {t : HashIndex κ} {equal : Int → Bool} {hash : UInt64} {s : Slot}
  {i e slotCount : Nat}

/-- `STBDS_INDEX_IN_USE` -/
def inUse (s : Slot) : Option Nat := if 0 ≤ s.index then some s.index.toNat else none

def isTombstone (s : Slot) : Bool := s.index = INDEX_DELETED

def indices (t : HashIndex κ) : List Nat := t.storage.filterMap inUse

def tombstones (t : HashIndex κ) : Nat := t.storage.countP isTombstone

structure WellFormed (t : HashIndex κ) : Prop where
  buckets : ∃ e, t.slotCount = 8 * 2 ^ e
  size : t.storage.length = t.slotCount
  shaped : ∀ s ∈ t.storage, s.Shaped
  sound : Sound (hashRoute t.slotCount) Prod.fst (cells t)
  growAt : t.usedCountThreshold = t.slotCount - t.slotCount / 4
  shrinkAt : t.usedCountShrinkThreshold =
    if t.slotCount ≤ BUCKET_LENGTH then 0 else t.slotCount / 4
  cleanAt : t.tombstoneCountThreshold = t.slotCount / 8 + t.slotCount / 16

section Lists

variable {α β : Type} {l : List α}

theorem split_at (inside : i < l.length) (a : α) :
    ∃ before after, l = before ++ l[i] :: after ∧ l.set i a = before ++ a :: after :=
  ⟨l.take i, l.drop (i + 1),
    by rw [← List.drop_eq_getElem_cons inside, List.take_append_drop],
    List.set_eq_take_append_cons_drop.trans (if_pos inside)⟩

theorem filterMap_set (f : α → Option β) (inside : i < l.length) (a : α) :
    ((f l[i]).toList ++ (l.set i a).filterMap f).Perm ((f a).toList ++ l.filterMap f) := by
  obtain ⟨before, after, whole, changed⟩ := split_at inside a
  rw [changed]
  conv_rhs => rw [whole]
  generalize l[i] = old
  rw [List.filterMap_append, List.filterMap_append]
  have front : ∀ (b : α) (rest : List β),
      (rest ++ (before.filterMap f ++ (b :: after).filterMap f)).Perm
        (rest ++ ((f b).toList ++ (before.filterMap f ++ after.filterMap f))) := by
    intro b rest
    refine List.Perm.append_left rest ?_
    rw [List.filterMap_cons]
    cases f b with
    | none => exact List.Perm.refl _
    | some x => exact List.perm_middle
  refine (front a _).trans (List.Perm.trans ?_ (front old _).symm)
  exact List.perm_append_comm_assoc _ _ _

theorem countP_set (p : α → Bool) (inside : i < l.length) (a : α) :
    (l.set i a).countP p + (if p l[i] then 1 else 0) = l.countP p + (if p a then 1 else 0) := by
  obtain ⟨before, after, whole, changed⟩ := split_at inside a
  rw [changed]
  conv_rhs => rw [whole]
  generalize l[i] = old
  rw [List.countP_append, List.countP_append, List.countP_cons, List.countP_cons]
  omega

end Lists

def HashIndex.setSlot (t : HashIndex κ) (i : Nat) (s : Slot) : HashIndex κ :=
  { t with storage := t.storage.set i s }

theorem slot_eq (inside : i < t.storage.length) : t.slot i = t.storage[i] := by
  unfold HashIndex.slot
  rw [List.getD_eq_getElem?_getD, List.getElem?_eq_getElem inside, Option.getD_some]

theorem slot_mem (inside : i < t.storage.length) : t.slot i ∈ t.storage := by
  rw [slot_eq inside]
  exact List.getElem_mem inside

/-- A slot that holds anything is one of the storage. -/
theorem inside_of_slot (holds : t.slot i ≠ Slot.empty) : i < t.storage.length := by
  by_contra outside
  refine holds ?_
  unfold HashIndex.slot
  rw [List.getD_eq_getElem?_getD, List.getElem?_eq_none (Nat.le_of_not_lt outside),
    Option.getD_none]

theorem slot_setSlot (inside : i < t.storage.length) (j : Nat) :
    (t.setSlot i s).slot j = if j = i then s else t.slot j := by
  unfold HashIndex.slot HashIndex.setSlot
  rw [List.getD_eq_getElem?_getD, List.getD_eq_getElem?_getD, List.getElem?_set]
  by_cases here : i = j
  · subst here
    rw [if_pos rfl, if_pos inside, if_pos rfl, Option.getD_some]
  · rw [if_neg here, if_neg (Ne.symm here)]

theorem cells_setSlot (inside : i < t.storage.length) :
    cells (t.setSlot i s) = Function.update (cells t) i s.cell := by
  funext j
  unfold cells
  rw [slot_setSlot inside]
  by_cases here : j = i
  · rw [if_pos here, here, Function.update_self]
  · rw [if_neg here, Function.update_of_ne here]

theorem indices_setSlot (inside : i < t.storage.length) :
    ((inUse (t.slot i)).toList ++ indices (t.setSlot i s)).Perm
      ((inUse s).toList ++ indices t) := by
  rw [slot_eq inside]
  exact filterMap_set inUse inside s

theorem tombstones_setSlot (inside : i < t.storage.length) :
    tombstones (t.setSlot i s) + (if isTombstone (t.slot i) then 1 else 0) =
      tombstones t + (if isTombstone s then 1 else 0) := by
  rw [slot_eq inside]
  exact countP_set isTombstone inside s

theorem shaped_setSlot (shaped : ∀ s ∈ t.storage, s.Shaped) (new : s.Shaped) :
    ∀ s' ∈ (t.setSlot i s).storage, s'.Shaped := by
  intro s' listed
  rcases List.mem_or_eq_of_mem_set listed with old | rfl
  · exact shaped s' old
  · exact new

theorem WellFormed.setSlot (wf : WellFormed t) (new : s.Shaped)
    (sound : Sound (hashRoute t.slotCount) Prod.fst (cells (t.setSlot i s))) :
    WellFormed (t.setSlot i s) where
  buckets := wf.buckets
  size := (List.length_set ..).trans wf.size
  shaped := shaped_setSlot wf.shaped new
  sound := sound
  growAt := wf.growAt
  shrinkAt := wf.shrinkAt
  cleanAt := wf.cleanAt

theorem cell_eq_empty (shaped : s.Shaped) (empty : s.hash = HASH_EMPTY) : s = Slot.empty := by
  rcases shaped with rfl | rfl | ⟨stored, _⟩
  · rfl
  · exact absurd empty (by decide)
  · rw [empty] at stored
    exact absurd stored (by decide)

theorem full_of_cell {b : UInt64 × Nat} (shaped : s.Shaped) (full : s.cell = .full b) :
    s = ⟨b.1, b.2⟩ ∧ 2 ≤ b.1 := by
  rcases shaped with rfl | rfl | ⟨stored, used⟩
  · cases full
  · cases full
  · rw [cell_full stored used] at full
    cases full
    refine ⟨?_, stored⟩
    rw [Int.toNat_of_nonneg used]

theorem cell_of_index {h : UInt64} {n : Nat} (stored : 2 ≤ h) :
    (⟨h, n⟩ : Slot).cell = .full (h, n) := cell_full stored (Int.natCast_nonneg n)

theorem inUse_of_cell {b : UInt64 × Nat} (shaped : s.Shaped) (full : s.cell = .full b) :
    inUse s = some b.2 := by
  rw [(full_of_cell shaped full).1]
  exact if_pos (Int.natCast_nonneg b.2)

theorem cell_of_inUse {n : Nat} (shaped : s.Shaped) (used : inUse s = some n) :
    s.cell = .full (s.hash, n) := by
  rcases shaped with rfl | rfl | ⟨stored, nonneg⟩
  · cases used
  · cases used
  · unfold inUse at used
    rw [if_pos nonneg] at used
    rw [cell_full stored nonneg, Option.some.inj used]

theorem WellFormed.shape (wf : WellFormed t) (i : Nat) : (t.slot i).Shaped :=
  slot_shaped wf.shaped i

theorem inside_of_cell {b : UInt64 × Nat} (full : cells t i = .full b) : i < t.storage.length := by
  refine inside_of_slot fun empty => ?_
  unfold cells at full
  rw [empty] at full
  cases full

theorem number_eq {h h' : UInt64} {n m : Nat} (first : cells t i = .full (h, n))
    (second : cells t i = .full (h', m)) : n = m := by
  rw [first] at second
  exact (Prod.mk.inj (Cell.full.inj second)).2

/-- The numbers in the slots, each with a slot that holds it. -/
theorem mem_indices {n : Nat} (wf : WellFormed t) :
    n ∈ indices t ↔ ∃ i h, cells t i = .full (h, n) := by
  unfold indices
  rw [List.mem_filterMap]
  constructor
  · rintro ⟨s, listed, used⟩
    obtain ⟨i, inside, rfl⟩ := List.mem_iff_getElem.mp listed
    refine ⟨i, t.storage[i].hash, ?_⟩
    unfold cells
    rw [slot_eq inside]
    exact cell_of_inUse (wf.shaped _ listed) used
  · rintro ⟨i, h, full⟩
    exact ⟨t.slot i, slot_mem (inside_of_cell full), inUse_of_cell (wf.shape i) full⟩

theorem length_of_filled {l : List Slot} (shaped : ∀ s ∈ l, s.Shaped)
    (filled : ∀ s ∈ l, s ≠ Slot.empty) :
    l.length = (l.filterMap inUse).length + l.countP isTombstone := by
  induction l with
  | nil => rfl
  | cons s l ih =>
    rw [List.forall_mem_cons] at shaped filled
    have rest := ih shaped.2 filled.2
    rw [List.length_cons, List.filterMap_cons, List.countP_cons]
    rcases shaped.1 with empty | rfl | ⟨_, nonneg⟩
    · exact absurd empty filled.1
    · have gone : inUse Slot.deleted = none := rfl
      rw [gone, if_pos (show isTombstone Slot.deleted = true from rfl)]
      dsimp only
      omega
    · have used : inUse s = some s.index.toNat := if_pos nonneg
      have kept : ¬isTombstone s = true := by
        unfold isTombstone
        rw [decide_eq_true_eq]
        intro deleted
        rw [deleted] at nonneg
        exact absurd nonneg (by decide)
      rw [used, if_neg kept, List.length_cons]
      omega

theorem exists_empty (wf : WellFormed t) (room : (indices t).length + tombstones t < t.slotCount) :
    ∃ i < t.slotCount, cells t i = .empty := by
  by_contra none
  rw [not_exists] at none
  have filled : ∀ s ∈ t.storage, s ≠ Slot.empty := by
    intro s listed empty
    obtain ⟨i, inside, rfl⟩ := List.mem_iff_getElem.mp listed
    refine none i ⟨wf.size ▸ inside, ?_⟩
    unfold cells
    rw [slot_eq inside, empty, cell_empty]
  have count := length_of_filled wf.shaped filled
  rw [wf.size] at count
  exact absurd room (Nat.not_lt.mpr (Nat.le_of_eq count))

theorem route_lt {rounds pos step : Nat} (inside : pos < 8 * 2 ^ e)
    (listed : i ∈ route (8 * 2 ^ e) rounds pos step) : i < 8 * 2 ^ e := by
  induction rounds generalizing pos step with
  | zero => cases listed
  | succ rounds ih =>
    rw [route, List.mem_append, mem_bucketOrder] at listed
    rcases listed with here | later
    · unfold BUCKET_LENGTH at here
      omega
    · refine ih ?_ later
      rw [and_mask]
      exact Nat.mod_lt _ (Nat.mul_pos (by decide) (Nat.two_pow_pos e))

theorem hashRoute_lt (wf : WellFormed t) (listed : i ∈ hashRoute t.slotCount hash) :
    i < t.storage.length := by
  obtain ⟨e, count⟩ := wf.buckets
  rw [wf.size]
  rw [count] at listed ⊢
  refine route_lt ?_ listed
  unfold probePosition
  rw [and_mask]
  exact Nat.mod_lt _ (Nat.mul_pos (by decide) (Nat.two_pow_pos e))

theorem lookUp_outcome (equal : Int → Bool) (wf : WellFormed t) (stored : 2 ≤ hash)
    (room : (indices t).length + tombstones t < t.slotCount) :
    ∃ r, lookUp t equal hash = some r ∧
      r.outcome = search (cells t) (hits equal hash) none (hashRoute t.slotCount hash) ∧
      ∀ q tomb, r = .empty q tomb → (t.slot q).hash = HASH_EMPTY ∧
        ∀ p, tomb = some p → (t.slot p).index = INDEX_DELETED := by
  obtain ⟨i, inside, empty⟩ := exists_empty wf room
  obtain ⟨e, count⟩ := wf.buckets
  have listed : i ∈ hashRoute t.slotCount hash := by
    rw [count] at inside ⊢
    exact mem_hashRoute inside
  obtain ⟨r, result, outcome, kinds⟩ :=
    probe_outcome equal none wf.shaped stored (search_ends listed empty)
  refine ⟨r, result, outcome, fun q tomb stop => ?_⟩
  obtain ⟨vacant, kept⟩ := kinds q tomb stop
  refine ⟨vacant, fun p seen => ?_⟩
  rcases kept p seen with before | deleted
  · cases before
  · exact deleted

/-- The end of a look-up: a slot that hits, or a place for a new entry with nothing that hits
anywhere. -/
inductive LookUp (t : HashIndex κ) (equal : Int → Bool) (hash : UInt64) : Probe → Prop
  | found {i n : Nat} (full : cells t i = .full (hash, n)) (yes : equal n = true) :
      LookUp t equal hash (.found i)
  | empty {i : Nat} {tombstone : Option Nat} (inside : tombstone.getD i < t.storage.length)
      (old : t.slot (tombstone.getD i) = if tombstone.isSome then Slot.deleted else Slot.empty)
      (free : search (cells t) (hits equal hash) none (hashRoute t.slotCount hash) =
        .free (tombstone.getD i))
      (absent : ∀ j n, cells t j = .full (hash, n) → equal n = false) :
      LookUp t equal hash (.empty i tombstone)

theorem lookUp_spec (equal : Int → Bool) (wf : WellFormed t) (stored : 2 ≤ hash)
    (room : (indices t).length + tombstones t < t.slotCount) :
    ∃ r, lookUp t equal hash = some r ∧ LookUp t equal hash r := by
  obtain ⟨r, result, outcome, kinds⟩ := lookUp_outcome equal wf stored room
  refine ⟨r, result, ?_⟩
  cases r with
  | found i =>
    obtain ⟨⟨h, n⟩, full, yes⟩ := found_hit outcome.symm
    obtain ⟨rfl, agrees⟩ := hits_iff.mp yes
    exact .found full agrees
  | empty i tombstone =>
    have free := outcome.symm
    obtain ⟨vacant, deleted⟩ := kinds i tombstone rfl
    rcases free_place free with seen | ⟨-, before, after, whole, -, -⟩
    · cases seen
    have listed : tombstone.getD i ∈ hashRoute t.slotCount hash := by
      rw [whole]
      exact List.mem_append_right before List.mem_cons_self
    have inside := hashRoute_lt wf listed
    refine .empty inside ?_ free ?_
    · cases tombstone with
      | none => exact cell_eq_empty (wf.shape i) vacant
      | some p =>
        have gone := deleted p rfl
        rcases wf.shape p with empty | deleted | ⟨_, used⟩
        · rw [empty] at gone
          exact absurd gone (by decide)
        · exact deleted
        · rw [gone] at used
          exact absurd used (by decide)
    · intro j n full
      have missed := free_absent wf.sound free full rfl
      rw [← Bool.not_eq_true, hits_iff] at missed
      rw [← Bool.not_eq_true]
      exact fun yes => missed ⟨rfl, yes⟩
  | onward tombstone =>
    obtain ⟨i, inside, empty⟩ := exists_empty wf room
    obtain ⟨e, count⟩ := wf.buckets
    have listed : i ∈ hashRoute t.slotCount hash := by
      rw [count] at inside ⊢
      exact mem_hashRoute inside
    exact absurd outcome.symm (search_ends listed empty tombstone)

/-- The only slot that hits is found. -/
theorem lookUp_found {n : Nat} (wf : WellFormed t) (stored : 2 ≤ hash)
    (room : (indices t).length + tombstones t < t.slotCount)
    (full : cells t i = .full (hash, n)) (yes : equal n = true)
    (only : ∀ j m, cells t j = .full (hash, m) → equal m = true → j = i) :
    lookUp t equal hash = some (.found i) := by
  obtain ⟨r, result, ended⟩ := lookUp_spec equal wf stored room
  rw [result]
  cases ended with
  | found full' yes' => rw [only _ _ full' yes']
  | empty _ _ _ absent =>
    have no := absent i n full
    rw [yes] at no
    cases no

end StbDs
