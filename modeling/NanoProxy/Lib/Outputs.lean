import Mathlib.Data.List.Basic

/-!
# Systems that answer

A step takes an event and gives the next state and what is seen of it, if anything. Two systems
whose states stay related show the same; the relation may speak of the events to come.
-/

namespace Outputs

universe u v w x

variable {σ : Type u} {τ : Type v} {ε : Type w} {ω : Type x}

/-- What is seen, with the events that show it. -/
def outputs (step : σ → ε → σ × Option ω) : σ → List ε → List (ε × ω)
  | _, [] => []
  | s, e :: es => (step s e).2.toList.map (e, ·) ++ outputs step (step s e).1 es

def final (step : σ → ε → σ × Option ω) (s : σ) (es : List ε) : σ :=
  es.foldl (fun s e => (step s e).1) s

/-- Every step shows the same and keeps the states related. -/
def Simulates (R : List ε → σ → τ → Prop) (step : σ → ε → σ × Option ω)
    (step' : τ → ε → τ × Option ω) : Prop :=
  ∀ e es s t, R (e :: es) s t →
    (step s e).2 = (step' t e).2 ∧ R es (step s e).1 (step' t e).1

variable {R : List ε → σ → τ → Prop} {step : σ → ε → σ × Option ω} {step' : τ → ε → τ × Option ω}

theorem Simulates.outputs_eq (sim : Simulates R step step') {s : σ} {t : τ} {es : List ε}
    (related : R es s t) : outputs step s es = outputs step' t es := by
  induction es generalizing s t with
  | nil => rfl
  | cons e es ih =>
    obtain ⟨same, next⟩ := sim e es s t related
    rw [outputs, outputs, same, ih next]

theorem Simulates.final_related (sim : Simulates R step step') {s : σ} {t : τ} {es later : List ε}
    (related : R (es ++ later) s t) : R later (final step s es) (final step' t es) := by
  induction es generalizing s t with
  | nil => exact related
  | cons e es ih => exact ih (sim e (es ++ later) s t related).2

end Outputs
