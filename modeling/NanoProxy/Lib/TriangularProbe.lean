import Mathlib.Data.Nat.ModEq
import Mathlib.Data.Nat.Prime.Basic
import Mathlib.Data.Fintype.EquivFin
import Mathlib.Tactic.Ring

/-!
# Probing by triangular numbers

A search that goes on by one place, then by two, by three and so on comes to the triangular
numbers after its start. Modulo a power of two no two of the first `2 ^ e` of them agree, so
that a search over `2 ^ e` places comes to each of them once.
-/

namespace TriangularProbe

def triangular : Nat → Nat
  | 0 => 0
  | j + 1 => triangular j + (j + 1)

variable {e i j s place : Nat}

theorem two_mul_triangular (j : Nat) : 2 * triangular j = j * (j + 1) := by
  induction j with
  | zero => rfl
  | succ j ih =>
    calc 2 * triangular (j + 1) = 2 * triangular j + 2 * (j + 1) := by rw [triangular]; ring
      _ = j * (j + 1) + 2 * (j + 1) := by rw [ih]
      _ = (j + 1) * (j + 1 + 1) := by ring

theorem triangular_add (i d : Nat) : 2 * triangular (i + d) = 2 * triangular i + d * (2 * i + d + 1) := by
  rw [two_mul_triangular, two_mul_triangular]
  ring

/-- The distance and the sum of two numbers have different parities, so that a power of two
which divides the product divides one of them. -/
theorem distance_zero {d : Nat} (near : d < 2 ^ e) (sum : 2 * i + d + 1 < 2 ^ (e + 1))
    (divides : 2 ^ (e + 1) ∣ d * (2 * i + d + 1)) : d = 0 := by
  rcases Nat.even_or_odd d with even | odd
  · have coprime : Nat.Coprime (2 ^ (e + 1)) (2 * i + d + 1) := by
      refine Nat.Coprime.pow_left _ (Nat.coprime_two_left.mpr ?_)
      obtain ⟨half, rfl⟩ := even
      exact ⟨i + half, by omega⟩
    have whole := coprime.dvd_of_dvd_mul_right divides
    refine Nat.eq_zero_of_dvd_of_lt whole (Nat.lt_trans near ?_)
    exact Nat.pow_lt_pow_right (by decide) (Nat.lt_succ_self e)
  · have coprime : Nat.Coprime (2 ^ (e + 1)) d :=
      Nat.Coprime.pow_left _ (Nat.coprime_two_left.mpr odd)
    have whole := coprime.dvd_of_dvd_mul_left divides
    have none := Nat.eq_zero_of_dvd_of_lt whole sum
    omega

theorem triangular_inj_of_le (order : i ≤ j) (bound : j < 2 ^ e)
    (same : triangular i ≡ triangular j [MOD 2 ^ e]) : i = j := by
  obtain ⟨d, rfl⟩ := Nat.exists_eq_add_of_le order
  have doubled : 2 * triangular i ≡ 2 * triangular (i + d) [MOD 2 * 2 ^ e] := same.mul_left' 2
  rw [triangular_add, ← Nat.pow_succ'] at doubled
  have divides : 2 ^ (e + 1) ∣ d * (2 * i + d + 1) := by
    have zero : 2 * triangular i + 0 ≡ 2 * triangular i + d * (2 * i + d + 1) [MOD 2 ^ (e + 1)] :=
      doubled
    exact (Nat.modEq_zero_iff_dvd).mp (Nat.ModEq.add_left_cancel' _ zero).symm
  have sum : 2 * i + d + 1 < 2 ^ (e + 1) := by
    rw [Nat.pow_succ]
    omega
  have none := distance_zero (Nat.lt_of_le_of_lt (Nat.le_add_left d i) bound) sum divides
  omega

theorem triangular_injective (first : i < 2 ^ e) (second : j < 2 ^ e)
    (same : triangular i ≡ triangular j [MOD 2 ^ e]) : i = j := by
  rcases Nat.le_total i j with order | order
  · exact triangular_inj_of_le order second same
  · exact (triangular_inj_of_le order first same.symm).symm

/-- A search from any start comes to every place. -/
theorem visits (s : Nat) (here : place < 2 ^ e) :
    ∃ tries < 2 ^ e, (s + triangular tries) % 2 ^ e = place := by
  let probe : Fin (2 ^ e) → Fin (2 ^ e) := fun tries =>
    ⟨(s + triangular tries) % 2 ^ e, Nat.mod_lt _ (Nat.two_pow_pos e)⟩
  have injective : Function.Injective probe := by
    intro a b same
    have residues : s + triangular a ≡ s + triangular b [MOD 2 ^ e] := congrArg Fin.val same
    exact Fin.ext (triangular_injective a.isLt b.isLt (Nat.ModEq.add_left_cancel' s residues))
  obtain ⟨tries, reached⟩ := Finite.surjective_of_injective injective ⟨place, here⟩
  exact ⟨tries, tries.isLt, congrArg Fin.val reached⟩

end TriangularProbe
