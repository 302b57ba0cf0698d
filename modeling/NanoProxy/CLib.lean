import Mathlib.Algebra.Group.Nat.Defs
import Mathlib.Algebra.Group.Int.Defs
import Mathlib.Data.List.Basic
import Mathlib.Data.List.TakeWhile

/-!
# C library functions on byte lists

A C string is the list of its bytes before the terminating NUL, a buffer is the
list of its used bytes. The character classes are those of the "C" locale.
`size_t` is 64 bits wide; only the subtractions that the sources allow to wrap
use `usub`.
-/

namespace CLib

abbrev Bytes := List UInt8

def LF : UInt8 := 10
def CR : UInt8 := 13
def SP : UInt8 := 32
def COLON : UInt8 := 58
def SEMI : UInt8 := 59
def CRLF : Bytes := [CR, LF]

/-- The bytes of an ASCII text of the sources. -/
def ascii (s : String) : Bytes := s.toList.map fun c => UInt8.ofNat c.toNat

/-- Subtraction of `size_t` values. -/
def usub (a b : Nat) : Nat := (a + 2 ^ 64 - b) % 2 ^ 64

def isspace (b : UInt8) : Bool := b == 32 || (9 ≤ b && b ≤ 13)

def isdigit (b : UInt8) : Bool := 48 ≤ b && b ≤ 57

def isupper (b : UInt8) : Bool := 65 ≤ b && b ≤ 90

def isxdigit (b : UInt8) : Bool :=
  isdigit b || (65 ≤ b && b ≤ 70) || (97 ≤ b && b ≤ 102)

def tolower (b : UInt8) : UInt8 := if isupper b then b + 32 else b

def lower (s : Bytes) : Bytes := s.map tolower

/-- `strcasecmp(a, b) == 0` -/
def strcaseeq (a b : Bytes) : Bool := lower a == lower b

/-- `memchr` over `buf[start..]`, as an index into `buf`. -/
def memchr (buf : Bytes) (c : UInt8) (start : Nat) : Option Nat :=
  ((buf.drop start).findIdx? (· == c)).map (start + ·)

/-- `strstr` with a needle that is not empty, as an index. -/
def strstr (needle : Bytes) : Bytes → Option Nat
  | [] => none
  | b :: t => if needle <+: b :: t then some 0 else (strstr needle t).map (· + 1)

/-- The bytes `buf[a..b)`. -/
def slice (buf : Bytes) (a b : Nat) : Bytes := (buf.take b).drop a

/-- `strndup(buf + off, n)`: at most `n` bytes, cut at the first NUL. -/
def strndup (buf : Bytes) (off n : Nat) : Bytes :=
  ((buf.drop off).take n).takeWhile (· != 0)

/-- `while (a < b && isspace(buf[a])) ++a;` -/
def skipSpaces (buf : Bytes) (a b : Nat) : Nat :=
  a + ((slice buf a b).takeWhile isspace).length

/-- `while (b > a && isspace(buf[b - 1])) --b;` -/
def dropSpaces (buf : Bytes) (a b : Nat) : Nat :=
  b - ((slice buf a b).reverse.takeWhile isspace).length

/-- The value of a digit of base at most 16, and 16 for any other byte. -/
def digitVal (b : UInt8) : Nat :=
  if isdigit b then b.toNat - 48
  else if 65 ≤ b && b ≤ 70 then b.toNat - 55
  else if 97 ≤ b && b ≤ 102 then b.toNat - 87
  else 16

def ofDigits (base : Nat) (ds : Bytes) : Nat :=
  ds.foldl (fun acc b => acc * base + digitVal b) 0

/-- What `strtoull` leaves: its value, the text at `endptr`, and whether `errno`
is `ERANGE`. -/
structure Strtoull where
  value : Nat
  rest : Bytes
  erange : Bool
  deriving DecidableEq

/-- The sign, and whether it is a minus. -/
def takeSign : Bytes → Bool × Bytes
  | 45 :: t => (true, t)
  | 43 :: t => (false, t)
  | s => (false, s)

/-- The optional `0x` of a base 16 number; it counts only before a digit. -/
def takeHexMark (base : Nat) : Bytes → Bytes
  | 48 :: x :: d :: t =>
    if base = 16 ∧ (x = 120 ∨ x = 88) ∧ isxdigit d then d :: t else 48 :: x :: d :: t
  | s => s

def strtoull (s : Bytes) (base : Nat) : Strtoull :=
  let (neg, afterSign) := takeSign (s.dropWhile isspace)
  let number := takeHexMark base afterSign
  let digits := number.takeWhile fun b => digitVal b < base
  let rest := number.dropWhile fun b => digitVal b < base
  if digits = [] then ⟨0, s, false⟩
  else
    let v := ofDigits base digits
    if 2 ^ 64 ≤ v then ⟨2 ^ 64 - 1, rest, true⟩
    else ⟨if neg then (2 ^ 64 - v) % 2 ^ 64 else v, rest, false⟩

/-- `%d` and `%zu` of a value that is not negative. -/
def decimal (n : Nat) : Bytes := (Nat.toDigits 10 n).map fun c => UInt8.ofNat c.toNat

/-- A fact about single bytes can be checked on all of them. -/
theorem forall_byte {p : UInt8 → Bool} (h : ∀ n : Fin 256, p (UInt8.ofBitVec (BitVec.ofFin n)))
    (b : UInt8) : p b = true := h b.toBitVec.toFin

theorem isdigit_plain {b : UInt8} (digit : isdigit b = true) :
    isspace b = false ∧ b ≠ 43 ∧ b ≠ 45 ∧ b ≠ 47 ∧ b ≠ 58 ∧ b ≠ 63 := by
  have all := forall_byte (p := fun b => !isdigit b || (!isspace b && b != 43 && b != 45 &&
    b != 47 && b != 58 && b != 63)) (by decide +kernel) b
  simpa [digit, and_assoc] using all

@[simp] theorem tolower_tolower (b : UInt8) : tolower (tolower b) = tolower b := by
  simpa using forall_byte (p := fun b => tolower (tolower b) == tolower b) (by decide +kernel) b

theorem lower_lower (s : Bytes) : lower (lower s) = lower s := by
  rw [lower, lower, List.map_map]
  exact List.map_congr_left fun b _ => tolower_tolower b

theorem decimal_length {n k : Nat} (hk : 0 < k) (h : n < 10 ^ k) : (decimal n).length ≤ k := by
  rw [decimal, List.length_map]
  exact (Nat.length_toDigits_le_iff (by decide) hk).mpr h

theorem intercalate_cons (sep s : Bytes) (rest : List Bytes) :
    sep.intercalate (s :: rest) = s ++ rest.flatMap (sep ++ ·) := by
  induction rest generalizing s with
  | nil => rw [List.intercalate_singleton, List.flatMap_nil, List.append_nil]
  | cons next rest ih =>
    rw [List.intercalate_cons_cons, ih, List.flatMap_cons, List.append_assoc, List.append_assoc]

theorem memchr_bounds {buf : Bytes} {c : UInt8} {start i : Nat}
    (h : memchr buf c start = some i) : start ≤ i ∧ i < buf.length := by
  simp only [memchr, Option.map_eq_some_iff] at h
  obtain ⟨k, hk, rfl⟩ := h
  rw [List.findIdx?_eq_some_iff_getElem] at hk
  obtain ⟨hlt, _⟩ := hk
  simp only [List.length_drop] at hlt
  omega

/-- The first of the bytes that are looked for is the one behind a text without them. -/
theorem memchr_append {buf s t : Bytes} {c : UInt8} {start : Nat}
    (split : buf.drop start = s ++ c :: t) (plain : ∀ b ∈ s, b ≠ c) :
    memchr buf c start = some (start + s.length) := by
  have absent : s.findIdx? (· == c) = none := by
    rw [List.findIdx?_eq_none_iff]
    intro b listed
    rw [beq_eq_false_iff_ne]
    exact plain b listed
  rw [memchr, split, List.findIdx?_append, absent, List.findIdx?_cons, beq_self_eq_true, if_pos rfl]
  simp

theorem dropWhile_stops {p : UInt8 → Bool} {s t : Bytes} (stops : ∀ b, t.head? = some b → p b = false) :
    (s ++ t).dropWhile p = s.dropWhile p ++ t := by
  rw [List.dropWhile_append]
  split
  · rename_i all
    rw [List.isEmpty_iff] at all
    rw [all, List.nil_append]
    cases t with
    | nil => rfl
    | cons b t => rw [List.dropWhile_cons_of_neg (by rw [stops b rfl]; exact Bool.false_ne_true)]
  · rfl

theorem takeWhile_stops {p : UInt8 → Bool} {s t : Bytes} (all : ∀ b ∈ s, p b)
    (stops : ∀ b, t.head? = some b → p b = false) : (s ++ t).takeWhile p = s := by
  rw [List.takeWhile_append_of_pos all]
  cases t with
  | nil => exact List.append_nil s
  | cons b t =>
    rw [List.takeWhile_cons_of_neg (by rw [stops b rfl]; exact Bool.false_ne_true), List.append_nil]

/-- The number of a text starts behind its space. -/
theorem takeSign_skip {space t : Bytes} (white : ∀ b ∈ space, isspace b = true) :
    takeSign ((space ++ t).dropWhile isspace) = takeSign (t.dropWhile isspace) := by
  rw [List.dropWhile_append, List.dropWhile_eq_nil_iff.mpr white]
  rfl

theorem takeSign_plain {b : UInt8} (minus : b ≠ 45) (plus : b ≠ 43) (s : Bytes) :
    takeSign (b :: s) = (false, b :: s) := by
  rw [takeSign]
  · exact fun _ same => minus (List.cons.inj same).1
  · exact fun _ same => plus (List.cons.inj same).1

theorem takeSign_digits {s : Bytes} (digit : ∀ b, s.head? = some b → isdigit b = true) :
    takeSign (s.dropWhile isspace) = (false, s) := by
  cases s with
  | nil => rfl
  | cons b t =>
    obtain ⟨plain, plus, minus, _⟩ := isdigit_plain (digit b rfl)
    rw [List.dropWhile_cons_of_neg (by rw [plain]; exact Bool.false_ne_true),
      takeSign_plain minus plus]

theorem slice_eq_take_drop (buf : Bytes) (a b : Nat) :
    slice buf a b = (buf.drop a).take (b - a) := by
  simp [slice, List.drop_take]

end CLib
