import Mathlib.Data.List.Basic
import Mathlib.Logic.Function.Basic

/-!
# Open addressing with tombstones

Every hash value has a route, a list of places. An entry stands on the route of its hash
value behind places that were never empty since, so that a search may stop at the first
empty place. A deletion leaves a tombstone, which a later insertion may use.
-/

namespace OpenAddressing

universe u v w

inductive Cell (β : Type w) where
  | empty
  | deleted
  | full (b : β)

/-- How a search ends: at an entry, at the place where a new entry belongs, or at the end of
the route with the first tombstone that it saw. -/
inductive Outcome (ι : Type u) where
  | found (place : ι)
  | free (place : ι)
  | passed (tombstone : Option ι)

variable {ι : Type u} {η : Type v} {β : Type w}

def Outcome.andThen (o : Outcome ι) (rest : Option ι → Outcome ι) : Outcome ι :=
  match o with
  | .passed tombstone => rest tombstone
  | .found i => .found i
  | .free i => .free i

def search (cells : ι → Cell β) (hit : β → Bool) : Option ι → List ι → Outcome ι
  | tombstone, [] => .passed tombstone
  | tombstone, i :: is =>
    match cells i with
    | .empty => .free (tombstone.getD i)
    | .deleted => search cells hit (tombstone.or (some i)) is
    | .full b => if hit b then .found i else search cells hit tombstone is

/-- Every entry can be reached on the route of its hash value. -/
def Sound (route : η → List ι) (hash : β → η) (cells : ι → Cell β) : Prop :=
  ∀ i b, cells i = .full b →
    ∃ before after, route (hash b) = before ++ i :: after ∧ ∀ j ∈ before, cells j ≠ .empty

variable {cells : ι → Cell β} {hit : β → Bool} {tombstone : Option ι} {is js : List ι} {i : ι}
  {b : β} {route : η → List ι} {hash : β → η}

section Search

theorem deleted_ne_empty : (Cell.deleted : Cell β) ≠ .empty := by
  intro same
  cases same

theorem full_ne_empty (b : β) : Cell.full b ≠ .empty := by
  intro same
  cases same

theorem search_append : search cells hit tombstone (is ++ js) =
    (search cells hit tombstone is).andThen fun t => search cells hit t js := by
  induction is generalizing tombstone with
  | nil => rfl
  | cons i is ih =>
    rw [List.cons_append, search, search]
    cases cells i with
    | empty => rfl
    | deleted => exact ih
    | full b =>
      dsimp only
      split
      · rfl
      · exact ih

theorem found_hit (h : search cells hit tombstone is = .found i) :
    ∃ b, cells i = .full b ∧ hit b = true := by
  induction is generalizing tombstone with
  | nil => cases h
  | cons j is ih =>
    rw [search] at h
    cases content : cells j with
    | empty => rw [content] at h; cases h
    | deleted => rw [content] at h; exact ih h
    | full b =>
      rw [content] at h
      dsimp only at h
      by_cases yes : hit b = true
      · rw [if_pos yes] at h
        cases h
        exact ⟨b, content, yes⟩
      · rw [if_neg yes] at h
        exact ih h

/-- A search that ends at a free place has passed every place before the empty one, and none
of them hits. -/
theorem free_passed (h : search cells hit tombstone is = .free i) :
    ∃ before j after, is = before ++ j :: after ∧ cells j = .empty ∧
      (∀ k ∈ before, cells k ≠ .empty) ∧ ∀ k ∈ before, ∀ b, cells k = .full b → hit b = false := by
  induction is generalizing tombstone with
  | nil => cases h
  | cons j is ih =>
    rw [search] at h
    cases content : cells j with
    | empty =>
      refine ⟨[], j, is, rfl, content, ?_, ?_⟩
      · intro k none
        cases none
      · intro k none
        cases none
    | deleted =>
      rw [content] at h
      obtain ⟨before, k, after, rfl, empty, filled, missed⟩ := ih h
      refine ⟨j :: before, k, after, rfl, empty, ?_, ?_⟩
      · exact List.forall_mem_cons.mpr ⟨content ▸ deleted_ne_empty, filled⟩
      · refine List.forall_mem_cons.mpr ⟨?_, missed⟩
        intro b full
        rw [content] at full
        cases full
    | full b =>
      rw [content] at h
      dsimp only at h
      by_cases yes : hit b = true
      · rw [if_pos yes] at h
        cases h
      · rw [if_neg yes] at h
        obtain ⟨before, k, after, rfl, empty, filled, missed⟩ := ih h
        refine ⟨j :: before, k, after, rfl, empty, ?_, ?_⟩
        · exact List.forall_mem_cons.mpr ⟨content ▸ full_ne_empty b, filled⟩
        · refine List.forall_mem_cons.mpr ⟨?_, missed⟩
          intro b' full
          rw [content] at full
          cases full
          exact Bool.eq_false_iff.mpr yes

/-- The place of a new entry: the tombstone that was seen before, the first tombstone on the
way or the empty place. -/
theorem free_place (h : search cells hit tombstone is = .free i) :
    tombstone = some i ∨
      tombstone = none ∧ ∃ before after, is = before ++ i :: after ∧
        (∀ k ∈ before, cells k ≠ .empty) ∧ (cells i = .empty ∨ cells i = .deleted) := by
  induction is generalizing tombstone with
  | nil => cases h
  | cons j is ih =>
    rw [search] at h
    cases content : cells j with
    | empty =>
      rw [content] at h
      cases tombstone with
      | some t =>
        cases h
        exact Or.inl rfl
      | none =>
        cases h
        refine Or.inr ⟨rfl, [], is, rfl, ?_, Or.inl content⟩
        intro k none
        cases none
    | deleted =>
      rw [content] at h
      rcases ih h with seen | ⟨seen, _⟩
      · cases tombstone with
        | some t => exact Or.inl seen
        | none =>
          cases seen
          refine Or.inr ⟨rfl, [], is, rfl, ?_, Or.inr content⟩
          intro k none
          cases none
      · cases tombstone <;> cases seen
    | full b =>
      rw [content] at h
      dsimp only at h
      by_cases yes : hit b = true
      · rw [if_pos yes] at h
        cases h
      · rw [if_neg yes] at h
        rcases ih h with seen | ⟨seen, before, after, rfl, filled, kind⟩
        · exact Or.inl seen
        · refine Or.inr ⟨seen, j :: before, after, rfl, ?_, kind⟩
          exact List.forall_mem_cons.mpr ⟨content ▸ full_ne_empty b, filled⟩

/-- An empty place ends the search. -/
theorem search_ends (listed : i ∈ is) (empty : cells i = .empty) (t : Option ι) :
    search cells hit tombstone is ≠ .passed t := by
  induction is generalizing tombstone with
  | nil => cases listed
  | cons j is ih =>
    rw [search]
    rcases List.mem_cons.mp listed with rfl | later
    · rw [empty]
      intro same
      cases same
    · cases content : cells j with
      | empty =>
        intro same
        cases same
      | deleted => exact ih later
      | full b =>
        dsimp only
        split
        · intro same
          cases same
        · exact ih later

/-- Nothing that hits stands in the table when the search for its hash value ends at a free
place. -/
theorem free_absent {h : η} (sound : Sound route hash cells)
    (free : search cells hit tombstone (route h) = .free i)
    {j : ι} (standing : cells j = .full b) (routed : hash b = h) : hit b = false := by
  obtain ⟨before, k, after, whole, empty, _, missed⟩ := free_passed free
  obtain ⟨before', after', whole', filled'⟩ := sound j b standing
  rw [routed, whole] at whole'
  rcases List.append_eq_append_iff.mp whole' with ⟨gap, rfl, tail⟩ | ⟨gap, rfl, tail⟩
  · cases gap with
    | nil =>
      rw [List.nil_append, List.cons.injEq] at tail
      rw [tail.1, standing] at empty
      cases empty
    | cons g gap =>
      rw [List.cons_append, List.cons.injEq] at tail
      refine absurd empty (filled' k ?_)
      rw [tail.1]
      exact List.mem_append_right before List.mem_cons_self
  · cases gap with
    | nil =>
      rw [List.nil_append, List.cons.injEq] at tail
      rw [← tail.1, standing] at empty
      cases empty
    | cons g gap =>
      rw [List.cons_append, List.cons.injEq] at tail
      rw [← tail.1] at missed
      exact missed j (List.mem_append_right before' List.mem_cons_self) b standing

theorem Sound.of_empty (empty : ∀ i, cells i = .empty) : Sound route hash cells := by
  intro i b standing
  rw [empty i] at standing
  cases standing

end Search

section Changes

variable [DecidableEq ι]

/-- An entry goes to the place where the search on its route ended. -/
theorem Sound.insert (sound : Sound route hash cells)
    (free : search cells hit none (route (hash b)) = .free i) :
    Sound route hash (Function.update cells i (.full b)) := by
  intro j c standing
  have filled_after : ∀ k, cells k ≠ .empty → Function.update cells i (.full b) k ≠ .empty := by
    intro k filled
    by_cases here : k = i
    · rw [here, Function.update_self]
      exact full_ne_empty _
    · rw [Function.update_of_ne here]
      exact filled
  by_cases here : j = i
  · subst here
    rw [Function.update_self] at standing
    cases standing
    rcases free_place free with seen | ⟨_, before, after, whole, filled, _⟩
    · cases seen
    · exact ⟨before, after, whole, fun k listed => filled_after k (filled k listed)⟩
  · rw [Function.update_of_ne here] at standing
    obtain ⟨before, after, whole, filled⟩ := sound j c standing
    exact ⟨before, after, whole, fun k listed => filled_after k (filled k listed)⟩

theorem Sound.delete (sound : Sound route hash cells) :
    Sound route hash (Function.update cells i .deleted) := by
  intro j c standing
  by_cases here : j = i
  · rw [here, Function.update_self] at standing
    cases standing
  · rw [Function.update_of_ne here] at standing
    obtain ⟨before, after, whole, filled⟩ := sound j c standing
    refine ⟨before, after, whole, fun k listed => ?_⟩
    by_cases there : k = i
    · rw [there, Function.update_self]
      exact deleted_ne_empty
    · rw [Function.update_of_ne there]
      exact filled k listed

/-- An entry may be exchanged for one of the same hash value. -/
theorem Sound.exchange {c : β} (sound : Sound route hash cells) (standing : cells i = .full b)
    (same : hash c = hash b) : Sound route hash (Function.update cells i (.full c)) := by
  have filled_after : ∀ k, cells k ≠ .empty → Function.update cells i (.full c) k ≠ .empty := by
    intro k filled
    by_cases here : k = i
    · rw [here, Function.update_self]
      exact full_ne_empty _
    · rw [Function.update_of_ne here]
      exact filled
  intro j d stands
  by_cases here : j = i
  · subst here
    rw [Function.update_self] at stands
    cases stands
    obtain ⟨before, after, whole, filled⟩ := sound j b standing
    rw [← same] at whole
    exact ⟨before, after, whole, fun k listed => filled_after k (filled k listed)⟩
  · rw [Function.update_of_ne here] at stands
    obtain ⟨before, after, whole, filled⟩ := sound j d stands
    exact ⟨before, after, whole, fun k listed => filled_after k (filled k listed)⟩

end Changes

end OpenAddressing
