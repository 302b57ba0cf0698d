import Mathlib.Data.List.Basic

/-!
# Incremental decoders

A decoder looks at the input it has not consumed yet and either waits, fails,
consumes a nonempty prefix, or completes a message. The only requirement beyond
progress is stability: once a move is possible, input that arrives later cannot
change it. Feeding such a decoder read by read then depends on the joined input
only, not on where the reads were cut.
-/

namespace Incremental

universe u v

/-- What a decoder does with the input at hand. -/
inductive Move (S : Type u) where
  | more
  | fail
  | done (n : Nat) (s : S)
  | eat (n : Nat) (s : S)

structure Decoder (S : Type u) (α : Type v) where
  step : S → List α → Move S
  eat_pos : ∀ {s l n t}, step s l = .eat n t → 0 < n ∧ n ≤ l.length
  done_le : ∀ {s l n t}, step s l = .done n t → n ≤ l.length
  stable : ∀ {s l} (e : List α), step s l ≠ .more → step s (l ++ e) = step s l

/-- The state of a decoder that has made every move its input allows. -/
inductive Outcome (S : Type u) (α : Type v) where
  | pending (s : S) (rest : List α)
  | failed
  | complete (s : S) (rest : List α)

namespace Decoder

variable {S : Type u} {α : Type v} (D : Decoder S α)

def run (s : S) (l : List α) : Outcome S α :=
  match _h : D.step s l with
  | .more => .pending s l
  | .fail => .failed
  | .done n t => .complete t (l.drop n)
  | .eat n t => run t (l.drop n)
termination_by l.length
decreasing_by
  have := D.eat_pos _h
  simp only [List.length_drop]
  omega

variable {D} {s t : S} {l r : List α} {n : Nat}

theorem run_more (h : D.step s l = .more) : D.run s l = .pending s l := by
  rw [run]; split <;> simp_all

theorem run_fail (h : D.step s l = .fail) : D.run s l = .failed := by
  rw [run]; split <;> simp_all

theorem run_done (h : D.step s l = .done n t) : D.run s l = .complete t (l.drop n) := by
  rw [run]; split <;> simp_all

theorem run_eat (h : D.step s l = .eat n t) : D.run s l = D.run t (l.drop n) := by
  rw [run]; split <;> simp_all

/-- Induction along the moves of `run`. -/
theorem run_induction {motive : S → List α → Outcome S α → Prop}
    (more : ∀ s l, D.step s l = .more → motive s l (.pending s l))
    (fail : ∀ s l, D.step s l = .fail → motive s l .failed)
    (done : ∀ s l n t, D.step s l = .done n t → motive s l (.complete t (l.drop n)))
    (eat : ∀ s l n t, D.step s l = .eat n t →
      motive t (l.drop n) (D.run t (l.drop n)) → motive s l (D.run t (l.drop n)))
    (s : S) (l : List α) : motive s l (D.run s l) := by
  induction h : l.length using Nat.strongRecOn generalizing s l with
  | ind k ih =>
    subst h
    cases hm : D.step s l with
    | more => rw [run_more hm]; exact more s l hm
    | fail => rw [run_fail hm]; exact fail s l hm
    | done n t => rw [run_done hm]; exact done s l n t hm
    | eat n t =>
      rw [run_eat hm]
      have hn := D.eat_pos hm
      refine eat s l n t hm (ih _ ?_ t _ rfl)
      simp only [List.length_drop]
      omega

/-- How an outcome changes when `e` arrives behind the input. -/
def extend (D : Decoder S α) (e : List α) : Outcome S α → Outcome S α
  | .pending s r => D.run s (r ++ e)
  | .failed => .failed
  | .complete s r => .complete s (r ++ e)

/-- Late input resumes a pending run and leaves a finished verdict alone. -/
theorem run_append (e : List α) (s : S) (l : List α) :
    D.run s (l ++ e) = D.extend e (D.run s l) := by
  refine run_induction (D := D)
    (motive := fun s l o => D.run s (l ++ e) = D.extend e o) ?_ ?_ ?_ ?_ s l
  · intro s l _
    rfl
  · intro s l h
    have hs := D.stable e (by rw [h]; simp)
    exact run_fail (hs.trans h)
  · intro s l n t h
    have hs := D.stable e (by rw [h]; simp)
    rw [run_done (hs.trans h), List.drop_append_of_le_length (D.done_le h)]
    rfl
  · intro s l n t h ih
    have hs := D.stable e (by rw [h]; simp)
    rw [run_eat (hs.trans h), List.drop_append_of_le_length (D.eat_pos h).2]
    exact ih

theorem run_pending_step (h : D.run s l = .pending t r) : D.step t r = .more := by
  have key : ∀ t r, D.run s l = .pending t r → D.step t r = .more := by
    refine run_induction (D := D)
      (motive := fun _ _ o => ∀ t r, o = .pending t r → D.step t r = .more) ?_ ?_ ?_ ?_ s l
    · intro s l hm t r ho
      cases ho
      exact hm
    · intro s l _ t r ho
      cases ho
    · intro s l n t _ t' r ho
      cases ho
    · intro s l n t _ ih
      exact ih
  exact key t r h

/-- What a complete run leaves is the end of its input. -/
theorem run_complete_suffix (h : D.run s l = .complete t r) : r <:+ l := by
  have key : ∀ t r, D.run s l = .complete t r → r <:+ l := by
    refine run_induction (D := D)
      (motive := fun _ l o => ∀ t r, o = .complete t r → r <:+ l) ?_ ?_ ?_ ?_ s l
    · intro s l _ t r ho
      cases ho
    · intro s l _ t r ho
      cases ho
    · intro s l n t _ t' r ho
      cases ho
      exact List.drop_suffix n l
    · intro s l n t _ ih t' r ho
      exact (ih t' r ho).trans (List.drop_suffix n l)
  exact key t r h

/-- An input whose run uses up every symbol keeps all its strict prefixes waiting. -/
theorem run_prefix_pending {e : List α} (h : D.run s (l ++ e) = .complete t []) (he : e ≠ []) :
    ∃ t' r', D.run s l = .pending t' r' := by
  rw [run_append] at h
  cases ho : D.run s l with
  | pending t' r' => exact ⟨t', r', rfl⟩
  | failed =>
    rw [ho] at h
    cases h
  | complete t' r' =>
    rw [ho] at h
    have hnil : r' ++ e = [] := (Outcome.complete.inj h).2
    exact absurd (List.append_eq_nil_iff.mp hnil).2 he

end Decoder

end Incremental
