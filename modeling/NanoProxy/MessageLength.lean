import NanoProxy.HeadFields
import NanoProxy.ResponseFraming
import Mathlib.Tactic.Ring

/-!
# The length of a response

`messageLength` is the length that RFC 9112 gives to the body of a response whose end can be
counted. The proxy has `resp_content_length` for it, from the first 63 bytes of the first
Content-Length.
-/

namespace MessageLength

open CLib OutboundRequest RequestDecoder ResponseHead HeadFields

variable {raw block method s t : Bytes}

def isOws (b : UInt8) : Bool := b == 32 || b == 9

/-- The value of a field without the space around it and the end of the line. -/
def fieldValue (raw : Bytes) : Bytes :=
  let text := raw.dropWhile isOws
  let text := if text.getLast? = some CR then text.dropLast else text
  (text.reverse.dropWhile isOws).reverse

def decimal (value : Bytes) : Bool := value != [] && value.all isdigit

def statusCode (block : Bytes) : Option Nat :=
  let code := (((firstLine block).dropWhile (· != SP)).drop 1).takeWhile fun b => b != SP && b != CR
  if code.length = 3 ∧ code.all isdigit then some (ofDigits 10 code) else none

def noBody (method block : Bytes) : Bool :=
  method == ascii "HEAD" || statusCode block == some 204 || statusCode block == some 304

/-- The lines of the block; a status line is no field of these names. -/
def messageLength (method block : Bytes) : Option Nat :=
  if noBody method block then some 0
  else if rawValues (ascii "Transfer-Encoding") block ≠ [] then none
  else match rawValues (ascii "Content-Length") block with
    | [raw] => if decimal (fieldValue raw) then some (ofDigits 10 (fieldValue raw)) else none
    | _ => none

/-- The body bytes after which the proxy ends the exchange. -/
def counted (block : Bytes) : Option Nat :=
  if 0 ≤ contentLength block then some (contentLength block).toNat else none

/-- The sign and the digits at the beginning of the first 63 bytes. -/
def numeral (raw : Bytes) : Bool × Bytes :=
  let (neg, number) := takeSign ((copyValue raw).dropWhile isspace)
  (neg, number.takeWhile isdigit)

/-- No number, or nothing but zeros. -/
def Zero (raw : Bytes) : Prop := ∀ b ∈ (numeral raw).2, b = 48

def Negative (raw : Bytes) : Prop := (numeral raw).1 = true ∧ ¬Zero raw

/-- The space in front of the number that counts for the 63 bytes: from the first tab on. -/
def lead (raw : Bytes) : Bytes := (raw.dropWhile (· == SP)).takeWhile isOws

/-- The only length of the head, and the proxy reads all of it. -/
def Sole (raw block : Bytes) : Prop :=
  rawValues (ascii "Transfer-Encoding") block = [] ∧
    rawValues (ascii "Content-Length") block = [raw] ∧ decimal (fieldValue raw) ∧
    ((∀ b ∈ fieldValue raw, b = 48) ∨ ofDigits 10 (fieldValue raw) < 2 ^ 63 ∧
      (lead raw).length + (fieldValue raw).length ≤ 63)

/-- The heads whose length the proxy gets right. A head of more than 16385 bytes can be given
up before its end is there. -/
def LengthReadable (method block : Bytes) : Prop :=
  match (rawValues (ascii "Content-Length") block).head? with
  | none => noBody method block = false
  | some raw => noBody method block = false ∧ Negative raw ∨
      block.length ≤ 16385 ∧ if noBody method block then Zero raw else Sole raw block

theorem ofDigits_append (base : Nat) (s t : Bytes) :
    ofDigits base (s ++ t) = ofDigits base s * base ^ t.length + ofDigits base t := by
  have step (acc : Nat) : t.foldl (fun acc b => acc * base + digitVal b) acc =
      acc * base ^ t.length + ofDigits base t := by
    unfold ofDigits
    induction t generalizing acc with
    | nil => simp
    | cons b t ih =>
      rw [List.foldl_cons, List.foldl_cons, ih, ih (0 * base + digitVal b), List.length_cons,
        Nat.pow_succ]
      ring
  unfold ofDigits at step ⊢
  rw [List.foldl_append, step]

theorem ofDigits_zero (digits : ∀ b ∈ s, isdigit b) :
    ofDigits 10 s = 0 ↔ ∀ b ∈ s, b = 48 := by
  have value {b : UInt8} (digit : isdigit b = true) : digitVal b = 0 ↔ b = 48 := by
    have low : 48 ≤ b.toNat := by
      simp only [isdigit, Bool.and_eq_true, decide_eq_true_eq] at digit
      exact digit.1
    rw [digitVal, if_pos digit, ← UInt8.toNat_inj]
    change b.toNat - 48 = 0 ↔ b.toNat = 48
    omega
  induction s with
  | nil => exact ⟨fun _ => List.forall_mem_nil _, fun _ => rfl⟩
  | cons b s ih =>
    obtain ⟨digit, digits⟩ := List.forall_mem_cons.mp digits
    have split := ofDigits_append 10 [b] s
    have one : ofDigits 10 [b] = digitVal b := by simp [ofDigits]
    have positive := Nat.pow_pos (n := s.length) (show 0 < 10 by decide)
    rw [List.singleton_append, one] at split
    rw [split, Nat.add_eq_zero_iff, Nat.mul_eq_zero, List.forall_mem_cons, value digit]
    constructor
    · rintro ⟨first | zero, rest⟩
      · exact ⟨first, (ih digits).mp rest⟩
      · omega
    · rintro ⟨first, rest⟩
      exact ⟨Or.inl first, (ih digits).mpr rest⟩

/-- Digits that are cut off make the number smaller. -/
theorem ofDigits_take_lt {j : Nat} (cut : j < s.length) (nonzero : ofDigits 10 s ≠ 0) :
    ofDigits 10 (s.take j) < ofDigits 10 s := by
  have split := ofDigits_append 10 (s.take j) (s.drop j)
  rw [List.take_append_drop, List.length_drop] at split
  have ten : 10 ≤ 10 ^ (s.length - j) := Nat.le_self_pow (by omega) 10
  have grown := Nat.mul_le_mul_left (ofDigits 10 (s.take j)) ten
  omega

theorem numeral_digits (raw : Bytes) : ∀ b ∈ (numeral raw).2, isdigit b :=
  fun _ listed => List.mem_takeWhile_imp listed

theorem contentLength_none (absent : (rawValues (ascii "Content-Length") block).head? = none) :
    contentLength block = -1 := by
  rw [contentLength, proxyHeaderValue_eq (by decide) (by decide), absent]
  rfl

theorem contentLength_some
    (present : (rawValues (ascii "Content-Length") block).head? = some raw) :
    contentLength block = if (numeral raw).1 then max (-(ofDigits 10 (numeral raw).2 : Int)) (-2 ^ 63)
      else min (ofDigits 10 (numeral raw).2 : Int) (2 ^ 63 - 1) := by
  rw [contentLength, proxyHeaderValue_eq (by decide) (by decide), present]
  rfl

theorem counted_none (absent : (rawValues (ascii "Content-Length") block).head? = none) :
    counted block = none := by
  rw [counted, contentLength_none absent]
  rfl

theorem counted_negative
    (present : (rawValues (ascii "Content-Length") block).head? = some raw)
    (negative : Negative raw) : counted block = none := by
  obtain ⟨sign, nonzero⟩ := negative
  rw [Zero, ← ofDigits_zero (numeral_digits raw)] at nonzero
  rw [counted, contentLength_some present, sign, if_pos rfl, if_neg]
  omega

theorem counted_some
    (present : (rawValues (ascii "Content-Length") block).head? = some raw)
    (positive : ¬Negative raw) :
    counted block = some (min (ofDigits 10 (numeral raw).2) (2 ^ 63 - 1)) := by
  rw [Negative, not_and_not_right, Zero, ← ofDigits_zero (numeral_digits raw)] at positive
  rw [counted, contentLength_some present]
  cases sign : (numeral raw).1 with
  | true =>
    rw [positive sign]
    rfl
  | false =>
    rw [if_neg Bool.false_ne_true, if_pos (by omega)]
    congr 1
    omega

theorem fieldValue_parts (raw : Bytes) : ∃ space ending,
    raw.dropWhile isOws = fieldValue raw ++ (space ++ ending) ∧ (∀ b ∈ space, isOws b) ∧
      (ending = [] ∨ ending = [CR]) := by
  have trailing (text : Bytes) : ∃ space, text = (text.reverse.dropWhile isOws).reverse ++ space ∧
      ∀ b ∈ space, isOws b := by
    refine ⟨(text.reverse.takeWhile isOws).reverse, ?_, ?_⟩
    · rw [← List.reverse_append, List.takeWhile_append_dropWhile, List.reverse_reverse]
    · intro b listed
      exact List.mem_takeWhile_imp (List.mem_reverse.mp listed)
  unfold fieldValue
  dsimp only
  split
  · rename_i ends
    obtain ⟨space, whole, blank⟩ := trailing (raw.dropWhile isOws).dropLast
    refine ⟨space, [CR], ?_, blank, Or.inr rfl⟩
    rw [← List.append_assoc, ← whole]
    exact (List.dropLast_append_getLast? CR ends).symm
  · obtain ⟨space, whole, blank⟩ := trailing (raw.dropWhile isOws)
    exact ⟨space, [], by rw [List.append_nil]; exact whole, blank, Or.inl rfl⟩

/-- Of a decimal length the proxy reads the digits that are in the first 63 bytes. -/
theorem numeral_decimal (valid : decimal (fieldValue raw)) :
    numeral raw = (false, (fieldValue raw).take (63 - (lead raw).length)) := by
  simp only [decimal, Bool.and_eq_true, bne_iff_ne, List.all_eq_true] at valid
  obtain ⟨nonempty, digits⟩ := valid
  obtain ⟨space, ending, parts, blank, newline⟩ := fieldValue_parts raw
  generalize fieldValue raw = d at nonempty digits parts ⊢
  have digit_facts {b : UInt8} (digit : isdigit b = true) :
      isOws b = false ∧ (b == SP) = false ∧ b ≠ CR ∧ b ≠ LF ∧ b ≠ 0 := by
    have all := forall_byte (p := fun b => !isdigit b || (!isOws b && !(b == SP) && b != CR &&
      b != LF && b != 0)) (by decide +kernel) b
    simpa [digit, and_assoc] using all
  have ows_facts {b : UInt8} (white : isOws b = true) :
      isspace b = true ∧ isdigit b = false ∧ b ≠ CR ∧ b ≠ LF ∧ b ≠ 0 := by
    have all := forall_byte (p := fun b => !isOws b || (isspace b && !isdigit b && b != CR &&
      b != LF && b != 0)) (by decide +kernel) b
    simpa [white, and_assoc] using all
  have first {t : Bytes} {b : UInt8} (head : (d ++ t).head? = some b) : isdigit b = true := by
    cases d with
    | nil => exact absurd rfl nonempty
    | cons c d =>
      cases head
      exact digits b List.mem_cons_self
  -- the value from the first tab or digit on
  have whole : raw.dropWhile (· == SP) = lead raw ++ (d ++ (space ++ ending)) := by
    have text : raw = raw.takeWhile isOws ++ (d ++ (space ++ ending)) := by
      rw [← parts, List.takeWhile_append_dropWhile]
    have begins : raw.dropWhile (· == SP) =
        (raw.takeWhile isOws).dropWhile (· == SP) ++ (d ++ (space ++ ending)) := by
      conv_lhs => rw [text]
      exact dropWhile_stops fun b head => (digit_facts (first head)).2.1
    rw [lead, begins]
    congr 1
    refine (takeWhile_stops (fun b listed => ?_) fun b head => (digit_facts (first head)).1).symm
    exact List.mem_takeWhile_imp ((List.dropWhile_suffix _).subset listed)
  have blanks : ∀ b ∈ lead raw, isOws b = true := fun b listed => List.mem_takeWhile_imp listed
  have line : (raw.dropWhile (· == SP)).takeWhile (fun b => b != CR && b != LF) =
      lead raw ++ (d ++ space) := by
    rw [whole, ← List.append_assoc d, ← List.append_assoc]
    apply takeWhile_stops
    · intro b listed
      simp only [Bool.and_eq_true, bne_iff_ne]
      rcases List.mem_append.mp listed with listed | listed
      · exact ⟨(ows_facts (blanks b listed)).2.2.1, (ows_facts (blanks b listed)).2.2.2.1⟩
      rcases List.mem_append.mp listed with listed | listed
      · exact ⟨(digit_facts (digits b listed)).2.2.1, (digit_facts (digits b listed)).2.2.2.1⟩
      · exact ⟨(ows_facts (blank b listed)).2.2.1, (ows_facts (blank b listed)).2.2.2.1⟩
    · intro b head
      rcases newline with rfl | rfl
      · cases head
      · cases head
        rfl
  have copied : copyValue raw = (lead raw).take 63 ++ (d ++ space).take (63 - (lead raw).length) := by
    rw [copyValue, line, cstr, List.take_append, List.takeWhile_eq_self_iff]
    intro b listed
    rw [bne_iff_ne]
    rcases List.mem_append.mp listed with listed | listed
    · exact (ows_facts (blanks b (List.mem_of_mem_take listed))).2.2.2.2
    rcases List.mem_append.mp (List.mem_of_mem_take listed) with listed | listed
    · exact (digit_facts (digits b listed)).2.2.2.2
    · exact (ows_facts (blank b listed)).2.2.2.2
  generalize 63 - (lead raw).length = j at copied ⊢
  have number : ∀ b, ((d ++ space).take j).head? = some b → isdigit b = true := by
    intro b head
    cases j with
    | zero => cases head
    | succ j => exact first (by rwa [List.head?_take, if_neg (Nat.succ_ne_zero j)] at head)
  have skipped : takeSign ((copyValue raw).dropWhile isspace) = (false, (d ++ space).take j) := by
    rw [copied, takeSign_skip fun b listed => (ows_facts (blanks b (List.mem_of_mem_take listed))).1]
    exact takeSign_digits number
  rw [numeral, skipped]
  dsimp only
  rw [List.take_append]
  congr 1
  apply takeWhile_stops
  · exact fun b listed => digits b (List.mem_of_mem_take listed)
  · intro b head
    exact (ows_facts (blank b (List.mem_of_mem_take (List.mem_of_mem_head? head)))).2.1

theorem counted_zero (present : (rawValues (ascii "Content-Length") block).head? = some raw) :
    counted block = some 0 ↔ Zero raw := by
  rw [Zero, ← ofDigits_zero (numeral_digits raw)]
  by_cases negative : Negative raw
  · rw [counted_negative present negative]
    have nonzero := negative.2
    rw [Zero, ← ofDigits_zero (numeral_digits raw)] at nonzero
    exact ⟨fun zero => (Option.some_ne_none _ zero.symm).elim, fun zero => absurd zero nonzero⟩
  · rw [counted_some present negative, Option.some.injEq]
    omega

/-- A decimal length is counted as it is if its digits are read and it fits a `long`. -/
theorem counted_decimal (present : (rawValues (ascii "Content-Length") block).head? = some raw)
    (valid : decimal (fieldValue raw)) :
    counted block = some (ofDigits 10 (fieldValue raw)) ↔
      (∀ b ∈ fieldValue raw, b = 48) ∨ ofDigits 10 (fieldValue raw) < 2 ^ 63 ∧
        (lead raw).length + (fieldValue raw).length ≤ 63 := by
  have read := numeral_decimal valid
  have positive : ¬Negative raw := by
    rw [Negative, read]
    exact fun h => Bool.false_ne_true h.1
  have digits : ∀ b ∈ fieldValue raw, isdigit b := by
    rw [decimal, Bool.and_eq_true] at valid
    exact List.all_eq_true.mp valid.2
  rw [counted_some present positive, read, ← ofDigits_zero digits, Option.some.injEq]
  dsimp only
  by_cases short : (fieldValue raw).length ≤ 63 - (lead raw).length
  · have some_digit : 0 < (fieldValue raw).length := by
      rw [decimal, Bool.and_eq_true, bne_iff_ne] at valid
      exact List.length_pos_iff.mpr valid.1
    rw [List.take_of_length_le short]
    omega
  · have zero : ofDigits 10 (fieldValue raw) = 0 →
        ofDigits 10 ((fieldValue raw).take (63 - (lead raw).length)) = 0 := by
      intro zero
      rw [ofDigits_zero digits] at zero
      rw [ofDigits_zero fun b listed => digits b (List.mem_of_mem_take listed)]
      exact fun b listed => zero b (List.mem_of_mem_take listed)
    have cut := @ofDigits_take_lt (fieldValue raw) _ (Nat.lt_of_not_le short)
    constructor
    · intro same
      by_contra none
      rw [not_or] at none
      have less := cut none.1
      omega
    · rintro (all | ⟨_, fits⟩)
      · have none := zero all
        omega
      · omega

theorem messageLength_some {n : Nat} (body : noBody method block = false) :
    messageLength method block = some n ↔ rawValues (ascii "Transfer-Encoding") block = [] ∧
      ∃ raw, rawValues (ascii "Content-Length") block = [raw] ∧ decimal (fieldValue raw) ∧
        ofDigits 10 (fieldValue raw) = n := by
  rw [messageLength, body, if_neg Bool.false_ne_true]
  by_cases encoded : rawValues (ascii "Transfer-Encoding") block = []
  · rw [if_neg (not_not.mpr encoded)]
    split
    · rename_i raw single
      constructor
      · intro length
        split at length
        · rename_i valid
          exact ⟨encoded, raw, single, valid, Option.some.inj length⟩
        · cases length
      · rintro ⟨_, raw', single', valid, same⟩
        rw [single] at single'
        cases single'
        rw [if_pos valid, same]
    · rename_i other
      constructor
      · intro length
        cases length
      · rintro ⟨_, raw, single, _⟩
        exact (other raw single).elim
  · rw [if_pos encoded]
    constructor
    · intro length
      cases length
    · exact fun h => absurd h.1 encoded

/-- The heads that are right are those that are counted as they should be and not given up. -/
theorem lengthReadable_iff (method block : Bytes) : LengthReadable method block ↔
    counted block = messageLength method block ∧
      (messageLength method block ≠ none → block.length ≤ 16385) := by
  unfold LengthReadable
  cases present : (rawValues (ascii "Content-Length") block).head? with
  | none =>
    dsimp only
    rw [counted_none present]
    have empty : rawValues (ascii "Content-Length") block = [] := List.head?_eq_none_iff.mp present
    cases body : noBody method block with
    | true =>
      rw [messageLength, body, if_pos rfl]
      exact ⟨fun h => (Bool.false_ne_true h.symm).elim, fun h => (Option.some_ne_none _ h.1.symm).elim⟩
    | false =>
      have none : messageLength method block = none := by
        rw [Option.eq_none_iff_forall_ne_some]
        intro n length
        obtain ⟨_, raw, single, _⟩ := (messageLength_some body).mp length
        rw [empty] at single
        cases single
      rw [none]
      exact ⟨fun _ => ⟨rfl, fun h => absurd rfl h⟩, fun _ => rfl⟩
  | some raw =>
    dsimp only
    cases body : noBody method block with
    | true =>
      have length : messageLength method block = some 0 := by rw [messageLength, body, if_pos rfl]
      rw [length, counted_zero present]
      constructor
      · rintro (⟨other, _⟩ | ⟨size, zero⟩)
        · cases other
        · exact ⟨zero, fun _ => size⟩
      · rintro ⟨zero, size⟩
        exact Or.inr ⟨size (Option.some_ne_none 0), zero⟩
    | false =>
      have sole_raw {raw' : Bytes} (single : rawValues (ascii "Content-Length") block = [raw']) :
          raw' = raw := by
        rw [single] at present
        exact Option.some.inj present
      constructor
      · rintro (⟨_, negative⟩ | ⟨size, encoded, single, valid, fits⟩)
        · have none : messageLength method block = none := by
            rw [Option.eq_none_iff_forall_ne_some]
            intro n length
            obtain ⟨_, raw', single, valid, _⟩ := (messageLength_some body).mp length
            rw [sole_raw single] at valid
            have sign := negative.1
            rw [numeral_decimal valid] at sign
            cases sign
          rw [counted_negative present negative, none]
          exact ⟨rfl, fun h => absurd rfl h⟩
        · refine ⟨?_, fun _ => size⟩
          rw [(messageLength_some body).mpr ⟨encoded, raw, single, valid, rfl⟩]
          exact (counted_decimal present valid).mpr fits
      · rintro ⟨same, size⟩
        by_cases negative : Negative raw
        · exact Or.inl ⟨rfl, negative⟩
        · right
          have length := same.symm
          rw [counted_some present negative] at length
          obtain ⟨encoded, raw', single, valid, value⟩ := (messageLength_some body).mp length
          cases sole_raw single
          refine ⟨size (by rw [length]; exact Option.some_ne_none _), encoded, single, valid, ?_⟩
          apply (counted_decimal present valid).mp
          rw [counted_some present negative, value]

end MessageLength
