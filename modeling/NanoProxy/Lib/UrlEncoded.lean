import Mathlib.Data.List.Basic
import Mathlib.Data.List.Infix

/-!
# Forms in URL encoding

A form is a list of names and values over bytes. Letters, digits and four marks stand for
themselves, a space is a plus sign, and any other byte is a percent sign with two hexadecimal
digits. So an equals sign is only between a name and its value.
-/

namespace UrlEncoded

abbrev Text := List UInt8

def isPlain (b : UInt8) : Bool :=
  (48 ≤ b && b ≤ 57) || (65 ≤ b && b ≤ 90) || (97 ≤ b && b ≤ 122) || b == 42 || b == 45 ||
    b == 46 || b == 95

def hexUpper (n : Nat) : UInt8 := UInt8.ofNat (if n < 10 then 48 + n else 55 + n)

def encodeByte (b : UInt8) : Text :=
  if isPlain b then [b]
  else if b = 32 then [43]
  else [37, hexUpper (b.toNat / 16), hexUpper (b.toNat % 16)]

def encode (s : Text) : Text := s.flatMap encodeByte

def pairText (p : Text × Text) : Text := encode p.1 ++ 61 :: encode p.2

def form (pairs : List (Text × Text)) : Text := [38].intercalate (pairs.map pairText)

theorem form_singleton (p : Text × Text) : form [p] = pairText p :=
  List.intercalate_singleton

theorem form_cons_cons (p q : Text × Text) (pairs : List (Text × Text)) :
    form (p :: q :: pairs) = pairText p ++ 38 :: form (q :: pairs) := by
  rw [form, List.map_cons, List.map_cons, List.intercalate_cons_cons, List.append_assoc]
  rfl

/-- The bytes of an encoding. -/
def isEncoded (b : UInt8) : Bool := isPlain b || b == 43 || b == 37

theorem encodeByte_encoded (b c : UInt8) (listed : c ∈ encodeByte b) : isEncoded c = true := by
  have digit : ∀ n : Fin 16, isPlain (hexUpper n) = true := by decide
  have high : b.toNat / 16 < 16 := Nat.div_lt_of_lt_mul b.toNat_lt
  have low : b.toNat % 16 < 16 := Nat.mod_lt _ (Nat.zero_lt_succ 15)
  unfold encodeByte at listed
  split at listed
  · rename_i plain
    rw [List.mem_singleton.mp listed, isEncoded, plain]
    rfl
  · split at listed
    · rw [List.mem_singleton.mp listed]
      rfl
    · rcases List.mem_cons.mp listed with rfl | listed
      · rfl
      rcases List.mem_cons.mp listed with rfl | listed
      · rw [isEncoded, digit ⟨_, high⟩]
        rfl
      · rw [List.mem_singleton.mp listed, isEncoded, digit ⟨_, low⟩]
        rfl

theorem encode_encoded {s : Text} {c : UInt8} (listed : c ∈ encode s) : isEncoded c = true := by
  obtain ⟨b, _, inside⟩ := List.mem_flatMap.mp listed
  exact encodeByte_encoded b c inside

theorem not_mem_encode {c : UInt8} (reserved : isEncoded c = false) (s : Text) : c ∉ encode s := by
  intro listed
  rw [encode_encoded listed] at reserved
  cases reserved

theorem encodeByte_length (b : UInt8) : (encodeByte b).length ≤ 3 := by
  unfold encodeByte
  split
  · exact Nat.le_add_left 1 2
  split
  · exact Nat.le_add_left 1 2
  · exact Nat.le_refl 3

/-- A text without the mark ends where the part behind the mark does. -/
theorem suffix_behind {key s t : Text} {c : UInt8} (absent : c ∉ key) :
    key <:+ s ++ c :: t ↔ key <:+ t := by
  constructor
  · intro ends
    have inner : t <:+ s ++ c :: t := (List.suffix_cons c t).trans (List.suffix_append s (c :: t))
    rcases List.suffix_or_suffix_of_suffix ends inner with short | long
    · exact short
    · obtain ⟨front, rfl⟩ := long
      rcases List.eq_nil_or_concat' front with rfl | ⟨front, d, rfl⟩
      · exact List.suffix_rfl
      · have aligned : (front ++ [d]) ++ t <:+ (s ++ [c]) ++ t := by
          rw [List.append_assoc s, List.singleton_append]
          exact ends
        obtain ⟨more, shape⟩ := List.suffix_append_self_iff.mp aligned
        rw [← List.append_assoc] at shape
        have same := (List.append_inj' shape rfl).2
        rw [List.singleton_inj] at same
        subst same
        exact absurd (List.mem_append_left t List.mem_concat_self) absent
  · intro ends
    exact ends.trans ((List.suffix_cons c t).trans (List.suffix_append s (c :: t)))

end UrlEncoded
