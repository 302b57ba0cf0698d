import Mathlib.Data.Int.CardIntervalMod
import Mathlib.Data.Nat.ModEq

/-!
# Probing in a circle

A search that starts at any of `n` places and goes on to the next one, `n` times, comes to
every place. If the running number is kept modulo a word size that `n` does not divide, it can
come to some places twice and to others not at all.
-/

namespace CyclicProbe

variable {w c n i s : Nat}

theorem visits (s : Nat) (here : i < n) : ∃ tries < n, (s % n + tries) % n = i := by
  have positive : 0 < n := Nat.lt_of_le_of_lt (Nat.zero_le i) here
  have start := Nat.mod_lt s positive
  refine ⟨(i + (n - s % n)) % n, Nat.mod_lt _ positive, ?_⟩
  have turn : s % n + (i + (n - s % n)) = i + n := by omega
  rw [Nat.add_mod_mod, turn, Nat.add_mod_right, Nat.mod_eq_of_lt here]

/-- The places that are left, counted back from the last number of the word. -/
theorem add_mod_iff (bound : s < w) (here : i < n) :
    s % n = i ↔ (w % n + (n - 1 - i)) % n = (w - 1 - s) % n := by
  have word : w % n + (n - 1 - i) ≡ (w - 1 - s) + (s + (n - i)) [MOD n] := by
    have parts : w + (n - 1 - i) = (w - 1 - s) + (s + (n - i)) := by omega
    rw [← parts]
    exact (Nat.mod_modEq w n).add_right (n - 1 - i)
  have turn : i + (n - i) ≡ 0 [MOD n] := by
    rw [Nat.add_sub_cancel' (Nat.le_of_lt here)]
    exact Nat.modEq_zero_iff_dvd.mpr (Nat.dvd_refl n)
  constructor
  · intro same
    have place : s ≡ i [MOD n] := same.trans (Nat.mod_eq_of_lt here).symm
    have zero := (place.add_right (n - i)).trans turn
    exact word.trans (zero.add_left (w - 1 - s))
  · intro same
    have zero : s + (n - i) ≡ 0 [MOD n] :=
      Nat.ModEq.add_left_cancel' (w - 1 - s) (word.symm.trans same)
    have place : s ≡ i [MOD n] := Nat.ModEq.add_right_cancel' (n - i) (zero.trans turn.symm)
    rw [Nat.ModEq, Nat.mod_eq_of_lt here] at place
    exact place

/-- A place is reached behind the wrap, or as one of the last before it. -/
theorem wrapping_iff (start : c < w) (here : i < n) (fits : n ≤ w) :
    (∃ tries < n, (c + tries) % w % n = i) ↔
      i + (w - c) < n ∨ (w % n + (n - 1 - i)) % n < w - c := by
  have positive : 0 < n := Nat.lt_of_le_of_lt (Nat.zero_le i) here
  constructor
  · rintro ⟨tries, few, reached⟩
    by_cases before : c + tries < w
    · right
      rw [Nat.mod_eq_of_lt before, add_mod_iff before here] at reached
      rw [reached]
      exact Nat.lt_of_le_of_lt (Nat.mod_le _ _) (by omega)
    · left
      have wrapped : (c + tries) % w = c + tries - w := by
        rw [Nat.mod_eq_sub_mod (Nat.le_of_not_lt before), Nat.mod_eq_of_lt (by omega)]
      rw [wrapped, Nat.mod_eq_of_lt (by omega)] at reached
      omega
  · rintro (behind | last)
    · refine ⟨i + (w - c), behind, ?_⟩
      have turn : c + (i + (w - c)) = i + w := by omega
      rw [turn, Nat.add_mod_right, Nat.mod_eq_of_lt (Nat.lt_of_lt_of_le here fits),
        Nat.mod_eq_of_lt here]
    · generalize distance : (w % n + (n - 1 - i)) % n = m at last
      have few := Nat.mod_lt (w - c - 1 - m) positive
      have atMost := Nat.mod_le (w - c - 1 - m) n
      have before : c + (w - c - 1 - m) % n < w := by omega
      refine ⟨(w - c - 1 - m) % n, few, ?_⟩
      rw [Nat.mod_eq_of_lt before, Nat.add_mod_mod]
      have number : c + (w - c - 1 - m) = w - 1 - m := by omega
      have smaller : m < n := by
        rw [← distance]
        exact Nat.mod_lt _ positive
      have less : w - 1 - m < w := by omega
      rw [number, add_mod_iff less here, distance]
      have back : w - 1 - (w - 1 - m) = m := by omega
      rw [back, Nat.mod_eq_of_lt smaller]

/-- How often the first `m` numbers from `c` on come to the place `i`. -/
def turns (w n c i m : Nat) : Nat := Nat.count (fun j => (c + j) % w % n = i) m

theorem count_congr {p q : Nat → Prop} [DecidablePred p] [DecidablePred q] {m : Nat}
    (same : ∀ j < m, p j ↔ q j) : Nat.count p m = Nat.count q m := by
  rw [Nat.count, Nat.count]
  refine List.countP_congr fun j listed => ?_
  rw [decide_eq_true_iff, decide_eq_true_iff]
  exact same j (List.mem_range.mp listed)

theorem count_place (c m : Nat) (here : i < n) :
    m / n ≤ Nat.count (fun j => (c + j) % n = i) m ∧
      Nat.count (fun j => (c + j) % n = i) m ≤ m / n + 1 := by
  have positive : 0 < n := Nat.lt_of_le_of_lt (Nat.zero_le i) here
  have shifted (j : Nat) : (c + j) % n = i ↔ j ≡ i + (n - c % n) [MOD n] := by
    have start := Nat.mod_lt c positive
    have back : c + (i + (n - c % n)) ≡ i [MOD n] := by
      have round : c + (i + (n - c % n)) = i + n * (c / n + 1) := by
        have parts := Nat.div_add_mod c n
        rw [Nat.mul_add]
        omega
      rw [round]
      exact Nat.add_modulus_mul_modEq_iff.mpr rfl
    constructor
    · intro place
      have same : c + j ≡ i [MOD n] := place.trans (Nat.mod_eq_of_lt here).symm
      exact Nat.ModEq.add_left_cancel' c (same.trans back.symm)
    · intro place
      have same := (place.add_left c).trans back
      rwa [Nat.ModEq, Nat.mod_eq_of_lt here] at same
  simp only [shifted]
  rw [Nat.count_modEq_card _ positive]
  split
  · omega
  · omega

/-- Before the wrap the places take turns. -/
theorem turns_before {m k : Nat} (few : c + m ≤ w) (here : i < n) (there : k < n) :
    turns w n c i m ≤ turns w n c k m + 1 := by
  have plain (p : Nat) : turns w n c p m = Nat.count (fun j => (c + j) % n = p) m := by
    refine count_congr fun j below => ?_
    rw [Nat.mod_eq_of_lt (a := c + j) (by omega)]
  rw [plain, plain]
  have first := (count_place c m here).2
  have second := (count_place c m there).1
  omega

/-- Every wrap may cost a place another turn. -/
theorem turns_le {m k : Nat} (start : c < w) (here : i < n) (there : k < n) :
    turns w n c i m ≤ turns w n c k m + (c + m - 1) / w + 1 := by
  induction m using Nat.strong_induction_on generalizing c with
  | _ m ih =>
    by_cases few : c + m ≤ w
    · exact Nat.le_trans (turns_before few here there)
        (Nat.add_le_add_right (Nat.le_add_right _ _) 1)
    · obtain ⟨rest, parts⟩ : ∃ rest, m = (w - c) + rest := ⟨m - (w - c), by omega⟩
      have behind (p : Nat) : turns w n c p m = turns w n c p (w - c) + turns w n 0 p rest := by
        rw [turns, parts, Nat.count_add]
        refine congrArg (turns w n c p (w - c) + ·) (count_congr fun j _ => ?_)
        have wrapped : c + (w - c + j) = 0 + j + w := by omega
        rw [wrapped, Nat.add_mod_right]
      have one : turns w n c i (w - c) ≤ turns w n c k (w - c) + 1 :=
        turns_before (by omega) here there
      have others := ih rest (by omega) (Nat.lt_of_le_of_lt (Nat.zero_le c) start)
      have wraps : (c + m - 1) / w = (0 + rest - 1) / w + 1 := by
        have number : c + m - 1 = (0 + rest - 1) + w := by omega
        rw [number, Nat.add_div_right _ (by omega)]
      rw [behind, behind, wraps]
      omega

/-- A word that the number of places divides has no seam. -/
theorem turns_even {m k : Nat} (even : n ∣ w) (here : i < n) (there : k < n) :
    turns w n c i m ≤ turns w n c k m + 1 := by
  have plain (p : Nat) : turns w n c p m = Nat.count (fun j => (c + j) % n = p) m := by
    refine count_congr fun j _ => ?_
    rw [Nat.mod_mod_of_dvd _ even]
  rw [plain, plain]
  have first := (count_place c m here).2
  have second := (count_place c m there).1
  omega

end CyclicProbe
