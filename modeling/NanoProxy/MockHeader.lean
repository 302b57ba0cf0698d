import NanoProxy.ContentLength
import NanoProxy.ResponseHead

/-!
# The header line of a mock file (include/mock.h)

The first 256 bytes of a recording are a line of twelve numbers behind `MOCKv1`, padded with
spaces. `mock_recorder_finish` prints it, and `mock_parse_header_line` reads it with `sscanf`.
A conversion of the two formats has a range of values; what is in range is read back.
-/

namespace MockHeader

open CLib RequestGrammar RequestDecoder ResponseHead ContentLength

/-- `%ld`, `%zu` and `%d` -/
inductive Conversion where
  | ld
  | zu
  | d
  deriving DecidableEq

def Conversion.Fits : Conversion → Int → Prop
  | .ld, v => -2 ^ 63 ≤ v ∧ v < 2 ^ 63
  | .zu, v => 0 ≤ v ∧ v < 2 ^ 64
  | .d, v => -2 ^ 31 ≤ v ∧ v < 2 ^ 31

/-- `(int)` of a `long` -/
def toInt (v : Int) : Int := v.bmod (2 ^ 32)

/-- `atoi` is `(int)strtol(s, NULL, 10)`. -/
def atoi (s : Bytes) : Int := toInt (atol s)

def number (v : Int) : Bytes := if v < 0 then 45 :: decimal v.natAbs else decimal v.natAbs

/-- One conversion of `sscanf`: its value and the rest of the text. -/
def convert (k : Conversion) (s : Bytes) : Option (Int × Bytes) :=
  let digits := (takeSign (s.dropWhile isspace)).2
  if digits.takeWhile isdigit = [] then none
  else some (
    match k with
    | .ld => atol s
    | .zu => (strtoull s 10).value
    | .d => atoi s,
    digits.dropWhile isdigit)

inductive Directive where
  | byte (b : UInt8)
  | value (k : Conversion)

/-- `sscanf`: the values up to the first directive that fails. -/
def scan : List Directive → Bytes → List Int
  | [], _ => []
  | .byte _ :: _, [] => []
  | .byte b :: format, c :: s => if b = c then scan format s else []
  | .value k :: format, s =>
    match convert k s with
    | none => []
    | some (v, rest) => v :: scan format rest

/-- The magic number and what follows each comma. -/
def magic : Bytes := ascii "MOCKv1"

def columns : List Conversion := [.ld, .ld, .ld, .ld, .ld, .ld, .ld, .ld, .ld, .zu, .zu, .d]

def headerFormat : List Directive :=
  magic.map .byte ++ columns.flatMap fun k => [.byte 44, .value k]

structure MockReader where
  headerSize : Int
  metaOff : Int
  metaLen : Int
  requestOff : Int
  requestLen : Int
  responseOff : Int
  responseLen : Int
  summaryOff : Int
  summaryLen : Int
  reqBodyBytes : Int
  respBodyBytes : Int
  status : Int
  deriving DecidableEq

/-- `mock_parse_header_line` -/
def mockParseHeaderLine (line : Bytes) : Option MockReader :=
  match scan headerFormat line with
  | [h, mo, ml, ro, rl, reso, resl, so, sl, rqb, rsb, st] =>
    some ⟨h, mo, ml, ro, rl, reso, resl, so, sl, rqb, rsb, st⟩
  | _ => none

/-- The arguments of the `snprintf` of the line. -/
def MockReader.values (r : MockReader) : List Int :=
  [r.headerSize, r.metaOff, r.metaLen, r.requestOff, r.requestLen, r.responseOff, r.responseLen,
    r.summaryOff, r.summaryLen, r.reqBodyBytes, r.respBodyBytes, r.status]

def headerText (r : MockReader) : Bytes := magic ++ r.values.flatMap fun v => 44 :: number v

/-- `hdr` of `mock_recorder_finish`: `snprintf` leaves a place for the NUL, and spaces fill the
line up. -/
def headerLine (r : MockReader) : Bytes := ((headerText r).take 255).rightpad 255 SP ++ [LF]

/-- `hdr` of `mock_reader_open`, cut at the first newline or space. Without one the text goes on
in the memory behind the array. -/
def headerCut (hdr behind : Bytes) : Bytes :=
  let ends := fun b => b == LF || b == SP
  cstr (if hdr.any ends then hdr.takeWhile fun b => !ends b else hdr ++ behind)

/-- `mock_reader_open` of a file, as far as the header. -/
def readHeader (file behind : Bytes) : Option MockReader :=
  if file.length < 256 then none else mockParseHeaderLine (headerCut (file.take 256) behind)

variable {v : Int} {rest : Bytes}

theorem takeSign_number (v : Int) (rest : Bytes) :
    takeSign ((number v ++ rest).dropWhile isspace) = (decide (v < 0), decimal v.natAbs ++ rest) := by
  rw [number]
  split
  · rename_i negative
    rw [decide_eq_true negative]
    rfl
  · rename_i positive
    rw [decide_eq_false positive]
    obtain ⟨b, t, split⟩ := List.exists_cons_of_ne_nil (decimal_ne_nil v.natAbs)
    refine takeSign_digits fun c head => ?_
    rw [split, List.cons_append, List.head?_cons, Option.some.injEq] at head
    exact decimal_digits (n := v.natAbs) (by rw [split, ← head]; exact List.mem_cons_self)

theorem digits_number (stops : ∀ b, rest.head? = some b → isdigit b = false) (n : Nat) :
    (decimal n ++ rest).takeWhile isdigit = decimal n ∧
      (decimal n ++ rest).dropWhile isdigit = rest := by
  have all : ∀ b ∈ decimal n, isdigit b = true := fun b listed => decimal_digits listed
  refine ⟨takeWhile_stops all stops, ?_⟩
  rw [dropWhile_stops stops, List.dropWhile_eq_nil_iff.mpr all, List.nil_append]

theorem atol_number (stops : ∀ b, rest.head? = some b → isdigit b = false)
    (word : -2 ^ 63 ≤ v ∧ v < 2 ^ 63) : atol (number v ++ rest) = v := by
  rw [atol, takeSign_number]
  dsimp only
  rw [(digits_number stops v.natAbs).1, ofDigits_decimal]
  by_cases negative : v < 0
  · rw [decide_eq_true negative, if_pos rfl]
    omega
  · rw [decide_eq_false negative, if_neg Bool.false_ne_true]
    omega

theorem atoi_number (stops : ∀ b, rest.head? = some b → isdigit b = false)
    (word : -2 ^ 31 ≤ v ∧ v < 2 ^ 31) : atoi (number v ++ rest) = v := by
  rw [atoi, atol_number stops (by omega)]
  exact Int.bmod_eq_of_le (by omega) (by omega)

theorem strtoull_number (stops : ∀ b, rest.head? = some b → isdigit b = false) (n : Nat)
    (word : n < 2 ^ 64) : (strtoull (number n ++ rest) 10).value = n := by
  have same : (fun b => decide (digitVal b < 10)) = isdigit := by
    funext b
    rw [Bool.eq_iff_iff, decide_eq_true_iff]
    exact digitVal_decimal b
  rw [strtoull, takeSign_number]
  dsimp only
  rw [takeHexMark_decimal, same, Int.natAbs_natCast, (digits_number stops n).1, ofDigits_decimal,
    if_neg (decimal_ne_nil n), if_neg (Nat.not_le.mpr word), decide_eq_false (by omega),
    if_neg Bool.false_ne_true]

theorem convert_number {k : Conversion} (stops : ∀ b, rest.head? = some b → isdigit b = false)
    (fits : k.Fits v) : convert k (number v ++ rest) = some (v, rest) := by
  unfold convert
  rw [takeSign_number]
  dsimp only
  rw [(digits_number stops _).1, (digits_number stops _).2, if_neg (decimal_ne_nil _)]
  cases k with
  | ld => rw [atol_number stops fits]
  | zu =>
    obtain ⟨n, rfl⟩ := Int.eq_ofNat_of_zero_le fits.1
    have word : n < 2 ^ 64 := by
      have below := fits.2
      omega
    dsimp only
    rw [strtoull_number stops n word]
  | d => rw [atoi_number stops fits]

/-- Every value fits its conversion. -/
abbrev AllFit (ks : List Conversion) (vs : List Int) : Prop := List.Forall₂ Conversion.Fits ks vs

theorem scan_bytes (text : Bytes) (format : List Directive) (s : Bytes) :
    scan (text.map .byte ++ format) (text ++ s) = scan format s := by
  induction text with
  | nil => rfl
  | cons b text ih =>
    rw [List.map_cons, List.cons_append, List.cons_append, scan, if_pos rfl, ih]

theorem comma_stops (vs : List Int) :
    ∀ b, (vs.flatMap fun v => 44 :: number v).head? = some b → isdigit b = false := by
  intro b head
  cases vs with
  | nil => cases head
  | cons v vs =>
    cases head
    rfl

theorem scan_columns {ks : List Conversion} {vs : List Int} (fit : AllFit ks vs) :
    scan (ks.flatMap fun k => [.byte 44, .value k]) (vs.flatMap fun v => 44 :: number v) = vs := by
  induction fit with
  | nil => rfl
  | @cons k v ks vs fits _ ih =>
    rw [List.flatMap_cons, List.flatMap_cons, List.cons_append, List.cons_append, List.cons_append,
      scan, if_pos rfl, scan, List.nil_append, convert_number (comma_stops vs) fits]
    exact congrArg (v :: ·) ih

theorem parse_headerText {r : MockReader} (fit : AllFit columns r.values) :
    mockParseHeaderLine (headerText r) = some r := by
  rw [mockParseHeaderLine, headerText, headerFormat, scan_bytes, scan_columns fit]
  rfl

/-- The most bytes of a value that fits. -/
def Conversion.width : Conversion → Nat
  | .ld => 20
  | .zu => 20
  | .d => 11

theorem number_length {k : Conversion} (fits : k.Fits v) : (number v).length ≤ k.width := by
  have digits : ∀ {n m : Nat}, 0 < m → n < 10 ^ m → (decimal n).length ≤ m := decimal_length
  rw [number]
  cases k with
  | ld =>
    have size : (decimal v.natAbs).length ≤ 19 := digits (by decide) (by
      have bounds : -2 ^ 63 ≤ v ∧ v < 2 ^ 63 := fits
      omega)
    change _ ≤ 20
    split
    · exact Nat.succ_le_succ size
    · omega
  | zu =>
    have size : (decimal v.natAbs).length ≤ 20 := digits (by decide) (by
      have bounds : 0 ≤ v ∧ v < 2 ^ 64 := fits
      omega)
    have positive : 0 ≤ v := fits.1
    rw [if_neg (by omega)]
    exact size
  | d =>
    have size : (decimal v.natAbs).length ≤ 10 := digits (by decide) (by
      have bounds : -2 ^ 31 ≤ v ∧ v < 2 ^ 31 := fits
      omega)
    change _ ≤ 11
    split
    · exact Nat.succ_le_succ size
    · omega

/-- The most bytes of the values with their commas. -/
def widths : List Conversion → Nat
  | [] => 0
  | k :: ks => k.width + 1 + widths ks

theorem columns_length {ks : List Conversion} {vs : List Int} (fit : AllFit ks vs) :
    (vs.flatMap fun v => 44 :: number v).length ≤ widths ks := by
  induction fit with
  | nil => exact Nat.le_refl 0
  | cons fits _ ih =>
    have size := number_length fits
    rw [List.flatMap_cons, List.length_append, List.length_cons, widths]
    omega

theorem headerText_length {r : MockReader} (fit : AllFit columns r.values) :
    (headerText r).length ≤ 249 := by
  have size := columns_length fit
  have most : widths columns = 243 := by decide
  have front : magic.length = 6 := by decide
  rw [headerText, List.length_append, front]
  omega

theorem headerLine_length (r : MockReader) : (headerLine r).length = 256 := by
  rw [headerLine, List.length_append, List.length_rightpad, List.length_take, List.length_singleton]
  omega

/-- The bytes of the text of a line: none ends it. -/
theorem headerText_plain {r : MockReader} :
    ∀ b ∈ headerText r, b ≠ LF ∧ b ≠ SP ∧ b ≠ 0 := by
  have plain_digit : ∀ b : UInt8, isdigit b = true → b ≠ LF ∧ b ≠ SP ∧ b ≠ 0 := by
    intro b digit
    have all := forall_byte (p := fun b => !isdigit b || (b != LF && b != SP && b != 0))
      (by decide +kernel) b
    simpa [digit, and_assoc] using all
  have plain_magic : magic.all (fun b => b != LF && b != SP && b != 0) = true := by decide
  intro b listed
  rcases List.mem_append.mp listed with front | column
  · simpa [and_assoc] using List.all_eq_true.mp plain_magic b front
  · obtain ⟨v, _, inside⟩ := List.mem_flatMap.mp column
    rcases List.mem_cons.mp inside with comma | digits
    · subst comma
      decide
    · rw [number] at digits
      split at digits
      · rcases List.mem_cons.mp digits with minus | digit
        · subst minus
          decide
        · exact plain_digit b (decimal_digits digit)
      · exact plain_digit b (decimal_digits digits)

theorem headerCut_headerLine {r : MockReader} (fit : AllFit columns r.values) (behind : Bytes) :
    headerCut (headerLine r) behind = headerText r := by
  have short := headerText_length fit
  have line : headerLine r =
      headerText r ++ SP :: (List.replicate (254 - (headerText r).length) SP ++ [LF]) := by
    rw [headerLine, List.take_of_length_le (by omega), List.rightpad, List.append_assoc]
    have spaces : 255 - (headerText r).length = (254 - (headerText r).length) + 1 := by omega
    rw [spaces, List.replicate_succ, List.cons_append]
  have plain := headerText_plain (r := r)
  have ended : (headerLine r).any (fun b => b == LF || b == SP) = true := by
    rw [List.any_eq_true]
    exact ⟨SP, by rw [line]; exact List.mem_append_right _ List.mem_cons_self, rfl⟩
  have cut : (headerLine r).takeWhile (fun b => !(b == LF || b == SP)) = headerText r := by
    rw [line]
    refine takeWhile_stops (fun b listed => ?_) (fun b head => ?_)
    · simp [(plain b listed).1, (plain b listed).2.1]
    · cases head
      rfl
  rw [headerCut]
  dsimp only
  rw [if_pos ended, cut]
  exact List.takeWhile_eq_self_iff.mpr fun b listed => by simp [(plain b listed).2.2]

/-- A file that starts with a line is opened with the numbers of the line. -/
theorem readHeader_headerLine {r : MockReader} (fit : AllFit columns r.values)
    (text behind : Bytes) : readHeader (headerLine r ++ text) behind = some r := by
  have size := headerLine_length r
  rw [readHeader, if_neg (by rw [List.length_append]; omega), List.take_left' size,
    headerCut_headerLine fit, parse_headerText fit]

end MockHeader
