import Mathlib.Data.Nat.Basic
import Mathlib.Data.List.GetD

/-!
# Little-endian integers

The bytes of a machine integer are taken with sign-extending shifts, and put together again
with shifts and `|`. The width of the integer and the number of bytes are parameters.
-/

namespace LittleEndian

variable {w : Nat}

/-- `(v >> (8 * i)) & 0xFF` -/
def byteAt (v : BitVec w) (i : Nat) : UInt8 :=
  UInt8.ofBitVec ((v.sshiftRight (8 * i)).setWidth 8)

/-- The low `k` bytes. -/
def toBytes (k : Nat) (v : BitVec w) : List UInt8 := (List.range k).map (byteAt v)

/-- `v |= b << (8 * i)` for the bytes in turn. -/
def orBytes (v : BitVec w) (i : Nat) : List UInt8 → BitVec w
  | [] => v
  | b :: bs => orBytes (v ||| b.toBitVec.setWidth w <<< (8 * i)) (i + 1) bs

def ofBytes (w : Nat) (bytes : List UInt8) : BitVec w := orBytes 0 0 bytes

@[simp] theorem length_toBytes (k : Nat) (v : BitVec w) : (toBytes k v).length = k := by
  rw [toBytes, List.length_map, List.length_range]

/-- A bit of a byte is a bit of the integer. -/
theorem byteAt_getLsbD (v : BitVec w) {i j : Nat} (inside : j < 8) (short : 8 * i + j < w) :
    (byteAt v i).toBitVec.getLsbD j = v.getLsbD (8 * i + j) := by
  change ((v.sshiftRight (8 * i)).setWidth 8).getLsbD j = _
  rw [BitVec.getLsbD_setWidth, BitVec.getLsbD_sshiftRight, decide_eq_true inside, if_pos short,
    decide_eq_false (by omega)]
  rfl

/-- Where a bit comes from. -/
theorem orBytes_getLsbD (v : BitVec w) (i : Nat) (bytes : List UInt8) {j : Nat} (short : j < w) :
    (orBytes v i bytes).getLsbD j =
      (v.getLsbD j || (decide (i ≤ j / 8) && (bytes.getD (j / 8 - i) 0).toBitVec.getLsbD (j % 8))) := by
  induction bytes generalizing v i with
  | nil =>
    rw [orBytes, List.getD_nil]
    simp
  | cons b bs ih =>
    rw [orBytes, ih, BitVec.getLsbD_or, BitVec.getLsbD_shiftLeft, BitVec.getLsbD_setWidth,
      decide_eq_true short]
    rcases Nat.lt_trichotomy (j / 8) i with before | here | behind
    · rw [decide_eq_true (show j < 8 * i by omega), decide_eq_false (show ¬i + 1 ≤ j / 8 by omega),
        decide_eq_false (show ¬i ≤ j / 8 by omega)]
      simp
    · have bit : j - 8 * i = j % 8 := by omega
      rw [decide_eq_false (show ¬j < 8 * i by omega), decide_eq_false (show ¬i + 1 ≤ j / 8 by omega),
        decide_eq_true (show i ≤ j / 8 by omega), decide_eq_true (show j - 8 * i < w by omega), here,
        Nat.sub_self, List.getD_cons_zero, bit]
      simp
    · have next : j / 8 - i = (j / 8 - (i + 1)) + 1 := by omega
      rw [decide_eq_true (show i + 1 ≤ j / 8 by omega), decide_eq_true (show i ≤ j / 8 by omega),
        next, List.getD_cons_succ, BitVec.getLsbD_of_ge b.toBitVec (j - 8 * i) (by omega)]
      simp

/-- All the bytes of an integer give the integer. -/
theorem ofBytes_toBytes {k : Nat} (all : w ≤ 8 * k) (v : BitVec w) :
    ofBytes w (toBytes k v) = v := by
  apply BitVec.eq_of_getLsbD_eq
  intro j short
  have byte : (toBytes k v).getD (j / 8) 0 = byteAt v (j / 8) := by
    rw [toBytes, List.getD_eq_getElem _ _ (by rw [List.length_map, List.length_range]; omega),
      List.getElem_map, List.getElem_range]
  have place : 8 * (j / 8) + j % 8 = j := Nat.div_add_mod j 8
  rw [ofBytes, orBytes_getLsbD _ _ _ short, Nat.sub_zero, byte,
    byteAt_getLsbD v (Nat.mod_lt _ (by decide)) (by omega), place]
  simp

end LittleEndian
