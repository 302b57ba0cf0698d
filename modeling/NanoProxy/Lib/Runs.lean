import Mathlib.Data.List.Basic

/-!
# Runs of a deterministic system

Every choice of the environment is part of the event, so a run is a fold over its
events. `Guarded` restricts a run by a condition that each event meets in the state in
which it occurs; a prefix of a guarded run is guarded, so that a fact about the last
state of every guarded run is a fact about every state on the way.
-/

namespace Runs

universe u v

variable {σ : Type u} {ε : Type v} {step : σ → ε → σ} {ok : σ → ε → Prop}

def run (step : σ → ε → σ) (s : σ) (es : List ε) : σ := es.foldl step s

def Guarded (step : σ → ε → σ) (ok : σ → ε → Prop) : σ → List ε → Prop
  | _, [] => True
  | s, e :: es => ok s e ∧ Guarded step ok (step s e) es

instance decidableGuarded [∀ s e, Decidable (ok s e)] :
    ∀ (s : σ) (es : List ε), Decidable (Guarded step ok s es)
  | _, [] => .isTrue trivial
  | s, e :: es =>
    have := decidableGuarded (step s e) es
    inferInstanceAs (Decidable (ok s e ∧ Guarded step ok (step s e) es))

theorem Guarded.imp {ok' : σ → ε → Prop} (imp : ∀ s e, ok s e → ok' s e) {s : σ} {es : List ε}
    (h : Guarded step ok s es) : Guarded step ok' s es := by
  induction es generalizing s with
  | nil => trivial
  | cons e es ih => exact ⟨imp s e h.1, ih h.2⟩

theorem run_append (s : σ) (es es' : List ε) :
    run step s (es ++ es') = run step (run step s es) es' := List.foldl_append

theorem guarded_append {s : σ} {es es' : List ε} :
    Guarded step ok s (es ++ es') ↔ Guarded step ok s es ∧ Guarded step ok (run step s es) es' := by
  induction es generalizing s with
  | nil => exact (and_iff_right trivial).symm
  | cons e es ih =>
    change ok s e ∧ Guarded step ok (step s e) (es ++ es') ↔ _
    rw [ih]
    exact and_assoc.symm

/-- A condition on the events alone. -/
theorem guarded_of_forall {admitted : ε → Prop} {s : σ} {es : List ε}
    (all : ∀ e ∈ es, admitted e) : Guarded step (fun _ => admitted) s es := by
  induction es generalizing s with
  | nil => trivial
  | cons e es ih =>
    exact ⟨all e List.mem_cons_self, ih fun e' listed => all e' (List.mem_cons_of_mem e listed)⟩

/-- What holds at first and is kept by every admitted step holds at the end of every
guarded run. -/
theorem run_invariant {inv : σ → Prop} (keep : ∀ s e, inv s → ok s e → inv (step s e))
    {s : σ} {es : List ε} (initial : inv s) (guarded : Guarded step ok s es) :
    inv (run step s es) := by
  induction es generalizing s with
  | nil => exact initial
  | cons e es ih => exact ih (keep s e initial guarded.1) guarded.2

/-- The same for every run, when every step keeps the invariant. -/
theorem run_always {inv : σ → Prop} (keep : ∀ s e, inv s → inv (step s e))
    {s : σ} (initial : inv s) (es : List ε) : inv (run step s es) := by
  induction es generalizing s with
  | nil => exact initial
  | cons e es ih => exact ih (keep s e initial)

end Runs
