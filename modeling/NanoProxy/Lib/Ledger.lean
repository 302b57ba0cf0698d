import NanoProxy.Lib.Runs
import Mathlib.Logic.Function.Basic

/-!
# A ledger of items that are put in, given out and closed

The ledger is a list of entries. It is linear when an item is only put in while nobody holds
it, only given out for the owner it has been put in for, and only closed while it is held. Then
what comes next for an item that has been put in is that it is given out for its owner, or
closed, or nothing, and in this case it is held at the end.
-/

namespace Ledger

open Runs

universe u v

variable {κ : Type u} {ι : Type v} [DecidableEq ι]

inductive Entry (κ : Type u) (ι : Type v) where
  | put (owner : κ) (item : ι)
  | given (owner : κ) (item : ι)
  | closed (item : ι)

def Entry.item : Entry κ ι → ι
  | .put _ item => item
  | .given _ item => item
  | .closed item => item

def Entry.allowed (holds : ι → Option κ) : Entry κ ι → Prop
  | .put _ item => holds item = none
  | .given owner item => holds item = some owner
  | .closed item => (holds item).isSome

def apply (holds : ι → Option κ) : Entry κ ι → ι → Option κ
  | .put owner item => Function.update holds item (some owner)
  | .given _ item => Function.update holds item none
  | .closed item => Function.update holds item none

/-- For whom each item is held in the end. -/
def held (log : List (Entry κ ι)) : ι → Option κ := run apply (fun _ => none) log

def Linear (log : List (Entry κ ι)) : Prop :=
  Guarded apply (fun holds e => e.allowed holds) (fun _ => none) log

variable {log : List (Entry κ ι)} {owner : κ} {item : ι}

theorem held_append (log log' : List (Entry κ ι)) :
    held (log ++ log') = run apply (held log) log' := run_append _ log log'

theorem linear_append {log' : List (Entry κ ι)} : Linear (log ++ log') ↔
    Linear log ∧ Guarded apply (fun holds e => e.allowed holds) (held log) log' := guarded_append

theorem apply_other {holds : ι → Option κ} {e : Entry κ ι} (other : e.item ≠ item) :
    apply holds e item = holds item := by
  cases e <;> exact Function.update_of_ne (Ne.symm other) _ _

/-- An item that is put in is held for its owner. -/
theorem Linear.put (linear : Linear log) (owner : κ) (free : held log item = none) :
    Linear (log ++ [.put owner item]) ∧
      held (log ++ [.put owner item]) = Function.update (held log) item (some owner) :=
  ⟨linear_append.mpr ⟨linear, free, trivial⟩, held_append log _⟩

theorem Linear.give (linear : Linear log) (kept : held log item = some owner) :
    Linear (log ++ [.given owner item]) ∧
      held (log ++ [.given owner item]) = Function.update (held log) item none :=
  ⟨linear_append.mpr ⟨linear, kept, trivial⟩, held_append log _⟩

theorem Linear.close (linear : Linear log) (kept : (held log item).isSome) :
    Linear (log ++ [.closed item]) ∧
      held (log ++ [.closed item]) = Function.update (held log) item none :=
  ⟨linear_append.mpr ⟨linear, kept, trivial⟩, held_append log _⟩

theorem Linear.closeAll {items : List ι} (linear : Linear log) (distinct : items.Nodup)
    (kept : ∀ item ∈ items, (held log item).isSome) :
    Linear (log ++ items.map .closed) ∧ ∀ item, held (log ++ items.map .closed) item =
      if item ∈ items then none else held log item := by
  induction items generalizing log with
  | nil =>
    rw [List.map_nil, List.append_nil]
    exact ⟨linear, fun item => (if_neg List.not_mem_nil).symm⟩
  | cons first items ih =>
    obtain ⟨fresh, distinct⟩ := List.nodup_cons.mp distinct
    obtain ⟨linear', held'⟩ := linear.close (kept first List.mem_cons_self)
    have kept' : ∀ item ∈ items, (held (log ++ [.closed first]) item).isSome := by
      intro item listed
      have other : item ≠ first := fun same => fresh (same ▸ listed)
      rw [held', Function.update_of_ne other]
      exact kept item (List.mem_cons_of_mem first listed)
    obtain ⟨linear'', held''⟩ := ih linear' distinct kept'
    rw [List.map_cons, List.append_cons]
    refine ⟨linear'', fun item => ?_⟩
    rw [held'' item, held']
    by_cases later : item ∈ items
    · rw [if_pos later, if_pos (List.mem_cons_of_mem first later)]
    · rw [if_neg later]
      by_cases here : item = first
      · rw [here, if_pos List.mem_cons_self, Function.update_self]
      · rw [if_neg (fun listed => (List.mem_cons.mp listed).elim here later),
          Function.update_of_ne here]

/-- The first entry about an item that is held. -/
theorem next_entry {holds : ι → Option κ} (kept : holds item = some owner)
    (guarded : Guarded apply (fun holds e => e.allowed holds) holds log) :
    match log.find? (·.item = item) with
    | none => run apply holds log item = some owner
    | some (.put _ _) => False
    | some (.given owner' _) => owner' = owner
    | some (.closed _) => True := by
  induction log generalizing holds with
  | nil => exact kept
  | cons e log ih =>
    obtain ⟨allowed, guarded⟩ := guarded
    by_cases here : e.item = item
    · have first : (e :: log).find? (·.item = item) = some e :=
        List.find?_cons_of_pos (decide_eq_true here)
      rw [first]
      subst here
      cases e with
      | put owner' item => cases kept.symm.trans allowed
      | given owner' item => exact Option.some.inj (allowed.symm.trans kept)
      | closed item => trivial
    · have later : (e :: log).find? (·.item = item) = log.find? (·.item = item) :=
        List.find?_cons_of_neg (by simpa using here)
      rw [later]
      exact ih ((apply_other here).trans kept) guarded

theorem Linear.next {before after : List (Entry κ ι)}
    (linear : Linear (before ++ .put owner item :: after)) :
    match after.find? (·.item = item) with
    | none => held (before ++ .put owner item :: after) item = some owner
    | some (.put _ _) => False
    | some (.given owner' _) => owner' = owner
    | some (.closed _) => True := by
  obtain ⟨_, _, guarded⟩ := linear_append.mp linear
  rw [held_append]
  exact next_entry (Function.update_self ..) guarded

end Ledger
