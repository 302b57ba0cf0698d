import Mathlib.Algebra.Group.Int.Defs
import Mathlib.Algebra.Group.Nat.Defs
import Mathlib.Data.Int.Basic

/-!
# Doubles as integers

A binary64 word has a sign, an exponent of eleven bits and a fraction of 52. Of its value only
the integer part is of interest here.
-/

namespace Binary64

def fraction (bits : UInt64) : Nat := bits.toNat % 2 ^ 52

def exponent (bits : UInt64) : Nat := bits.toNat / 2 ^ 52 % 2 ^ 11

def negative (bits : UInt64) : Bool := 2 ^ 63 ≤ bits.toNat

def significand (bits : UInt64) : Nat := 2 ^ 52 + fraction bits

/-- The integer part of the magnitude. -/
def wholePart (bits : UInt64) : Nat :=
  if exponent bits = 0 then 0
  else if 1075 ≤ exponent bits then significand bits * 2 ^ (exponent bits - 1075)
  else significand bits / 2 ^ (1075 - exponent bits)

/-- There is nothing behind the point. -/
def Whole (bits : UInt64) : Prop :=
  if exponent bits = 0 then fraction bits = 0
  else 1075 ≤ exponent bits ∨ significand bits % 2 ^ (1075 - exponent bits) = 0

instance (bits : UInt64) : Decidable (Whole bits) := by
  unfold Whole
  infer_instance

/-- Truncation toward zero; none of an infinity or a NaN. -/
def trunc (bits : UInt64) : Option Int :=
  if exponent bits = 2047 then none
  else some (if negative bits then -wholePart bits else wholePart bits)

/-- The integer that a double is. -/
def toInt? (bits : UInt64) : Option Int := if Whole bits then trunc bits else none

theorem trunc_of_toInt? {bits : UInt64} {n : Int} (integer : toInt? bits = some n) :
    trunc bits = some n := by
  unfold toInt? at integer
  split at integer
  · exact integer
  · cases integer

end Binary64
