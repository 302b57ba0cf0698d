import NanoProxy.JsonParser
import NanoProxy.Lib.JsonGrammar

/-!
# The JSON reader on texts of the grammar

`eval` is the value that a syntax tree has for the functions that build trees, if they take
it. On a text of the grammar the reader comes to the value of its syntax tree.
-/

namespace JsonReading

open CLib Dict JsonGrammar JsonParser

variable {s rest token space body : Bytes} {c : UInt8}

theorem skipLine_length (s : Bytes) : (skipLine s).length ≤ s.length :=
  (List.dropWhile_suffix _).length_le

theorem skipBlock_length (s : Bytes) : (skipBlock s).length ≤ s.length := by
  induction s with
  | nil => exact Nat.le_refl _
  | cons c s ih =>
    cases s with
    | nil => exact Nat.le_refl _
    | cons d s =>
      rw [skipBlock]
      split
      · simp only [List.length_cons]
        omega
      · exact Nat.le_succ_of_le ih

theorem skipLoop_cons (n : Nat) (c : UInt8) (s : Bytes) : skipLoop (n + 1) (c :: s) =
    if isspace c then skipLoop n s
    else if c = 47 then match s with
      | [] => [c]
      | d :: rest =>
        if d = 47 then skipLoop n (skipLine rest)
        else if d = 42 then skipLoop n (skipBlock rest)
        else c :: d :: rest
    else c :: s := rfl

theorem skipLoop_fuel {n m : Nat} (enough : s.length ≤ n) (enough' : s.length ≤ m) :
    skipLoop n s = skipLoop m s := by
  induction n generalizing m s with
  | zero =>
    rw [List.eq_nil_of_length_eq_zero (Nat.le_zero.mp enough)]
    cases m <;> rfl
  | succ n ih =>
    cases s with
    | nil => cases m <;> rfl
    | cons c s =>
      cases m with
      | zero => cases enough'
      | succ m =>
        rw [List.length_cons] at enough enough'
        rw [skipLoop_cons, skipLoop_cons]
        split
        · exact ih (Nat.le_of_succ_le_succ enough) (Nat.le_of_succ_le_succ enough')
        split
        · cases s with
          | nil => rfl
          | cons d rest =>
            have line := skipLine_length rest
            have block := skipBlock_length rest
            rw [List.length_cons] at enough enough'
            dsimp only
            rw [ih (s := skipLine rest) (m := m) (by omega) (by omega),
              ih (s := skipBlock rest) (m := m) (by omega) (by omega)]
        · rfl

@[simp] theorem skip_nil : dictParserSkipWhitespace [] = [] := rfl

theorem skip_space (white : isspace c = true) (s : Bytes) :
    dictParserSkipWhitespace (c :: s) = dictParserSkipWhitespace s := by
  rw [dictParserSkipWhitespace, List.length_cons, skipLoop_cons, if_pos white]
  rfl

theorem skip_line (rest : Bytes) :
    dictParserSkipWhitespace (47 :: 47 :: rest) = dictParserSkipWhitespace (skipLine rest) := by
  have line := skipLine_length rest
  exact skipLoop_fuel (Nat.le_succ_of_le line) (Nat.le_refl _)

theorem skip_block (rest : Bytes) :
    dictParserSkipWhitespace (47 :: 42 :: rest) = dictParserSkipWhitespace (skipBlock rest) := by
  have block := skipBlock_length rest
  exact skipLoop_fuel (Nat.le_succ_of_le block) (Nat.le_refl _)

/-- No space and no comment can begin here. -/
def Starts (s : Bytes) : Prop := ∀ c, s.head? = some c → isspace c = false ∧ c ≠ 47

theorem skip_starts (starts : Starts s) : dictParserSkipWhitespace s = s := by
  cases s with
  | nil => rfl
  | cons c s =>
    obtain ⟨other, slash⟩ := starts c rfl
    rw [dictParserSkipWhitespace, List.length_cons, skipLoop_cons, other, if_neg slash]
    rfl

theorem starts_cons (other : isspace c = false) (slash : c ≠ 47) (s : Bytes) : Starts (c :: s) := by
  intro d head
  cases head
  exact ⟨other, slash⟩

theorem skipLine_eq (s : Bytes) : skipLine s = s.dropWhile fun c => !isNewline c := by
  have same (c : UInt8) : (c != LF && c != CR) = !isNewline c := by
    rw [isNewline, Bool.not_or]
    rfl
  unfold skipLine
  simp only [same]

theorem skipLine_append {b : UInt8} (inside : ∀ c ∈ body, isNewline c = false)
    (ends : isNewline b = true) (rest : Bytes) : skipLine (body ++ b :: rest) = b :: rest := by
  rw [skipLine_eq, List.dropWhile_append_of_pos, List.dropWhile_cons_of_neg]
  · rw [ends]
    exact Bool.false_ne_true
  · intro c listed
    rw [inside c listed]
    rfl

theorem skipLine_all (inside : ∀ c ∈ body, isNewline c = false) : skipLine body = [] := by
  rw [skipLine_eq, List.dropWhile_eq_nil_iff]
  intro c listed
  rw [inside c listed]
  rfl

theorem skipBlock_append (inside : ¬[42, 47] <:+: body) (rest : Bytes) :
    skipBlock (body ++ 42 :: 47 :: rest) = rest := by
  induction body with
  | nil => rfl
  | cons c body ih =>
    have later := ih fun infixed => inside (infixed.trans (List.suffix_cons c body).isInfix)
    cases body with
    | nil =>
      rw [List.cons_append, List.nil_append, skipBlock, if_neg (fun ends => absurd ends.2 (by decide))]
      exact later
    | cons d body =>
      rw [List.cons_append, List.cons_append, skipBlock, if_neg]
      · exact later
      · rintro ⟨rfl, rfl⟩
        exact inside (List.prefix_append [42, 47] body).isInfix

theorem isspace_of {b : UInt8} (white : b = 32 ∨ (9 ≤ b ∧ b ≤ 13)) : isspace b = true := by
  rw [isspace]
  rcases white with rfl | ⟨low, high⟩
  · rfl
  · rw [decide_eq_true low, decide_eq_true high, Bool.and_self, Bool.or_true]

theorem isspace_newline {b : UInt8} (ends : isNewline b = true) : isspace b = true := by
  rw [isNewline, Bool.or_eq_true, beq_iff_eq, beq_iff_eq] at ends
  rcases ends with rfl | rfl <;> rfl

theorem skip_append (spaced : Commented space) (s : Bytes) :
    dictParserSkipWhitespace (space ++ s) = dictParserSkipWhitespace s := by
  induction spaced with
  | nil => rfl
  | space white _ ih => rw [List.cons_append, skip_space (isspace_of white), ih]
  | @line body b rest inside ends _ ih =>
    rw [List.cons_append, List.cons_append, List.append_assoc, List.cons_append, skip_line,
      skipLine_append inside ends, skip_space (isspace_newline ends), ih]
  | @block body rest inside _ ih =>
    rw [List.cons_append, List.cons_append, List.append_assoc, List.cons_append, List.cons_append,
      skip_block, skipBlock_append inside, ih]

theorem skip_commented (spaced : Commented space) (starts : Starts s) :
    dictParserSkipWhitespace (space ++ s) = s := by
  rw [skip_append spaced, skip_starts starts]

/-- At the end of the text. -/
theorem skip_last {last : Bytes} (spaced : Commented space) (ends : LastLine last) :
    dictParserSkipWhitespace (space ++ last) = [] := by
  rw [skip_append spaced]
  rcases ends with rfl | ⟨body, rfl, inside⟩
  · rfl
  · rw [skip_line, skipLine_all inside, skip_nil]

/-- The byte that a character of a string comes to. -/
def decodeChar : StrChar → UInt8
  | .plain b => b
  | .escape b => (decodeEscape b).getD 0
  | .unicode a b c d => (decodeUnicode a b c d).getD 0

def decode (chars : List StrChar) : Bytes := chars.map decodeChar

theorem stringLoop_plain (quote : c ≠ 34) (backslash : c ≠ 92) (s out : Bytes) :
    stringLoop (c :: s) out =
      if c < 0x20 then fail "Unescaped control character in string" else stringLoop s (out ++ [c]) := by
  rw [stringLoop]
  · exact quote
  · exact fun same _ => backslash same
  · exact fun _ _ _ _ _ same _ => backslash same
  · exact fun _ _ same _ => backslash same

theorem stringLoop_escape {esc : UInt8} (other : esc ≠ 117) (s out : Bytes) :
    stringLoop (92 :: esc :: s) out = match decodeEscape esc with
      | none => fail "Invalid escape sequence"
      | some decoded => stringLoop s (out ++ [decoded]) := by
  rw [stringLoop]
  · exact if_neg other
  · exact fun _ _ _ _ _ same _ => other same

theorem stringLoop_short (short : s.length < 4) (out : Bytes) :
    stringLoop (92 :: 117 :: s) out = fail "Incomplete unicode escape" := by
  rw [stringLoop]
  · exact if_pos rfl
  · rintro a b c d s' - rfl
    simp only [List.length_cons] at short
    omega

theorem decodeUnicode_some {a b c d : UInt8} (ha : isHex a) (hb : isHex b) (hc : isHex c)
    (hd : isHex d) : ∃ decoded, decodeUnicode a b c d = some decoded := by
  have digits : (isxdigit a && isxdigit b && isxdigit c && isxdigit d) = true := by
    change (isHex a && isHex b && isHex c && isHex d) = true
    rw [ha, hb, hc, hd]
    rfl
  exact ⟨_, if_pos digits⟩

theorem stringLoop_text {chars : List StrChar} (valid : ∀ c ∈ chars, c.Valid) (rest out : Bytes) :
    stringLoop (chars.flatMap StrChar.text ++ 34 :: rest) out = .ok (out ++ decode chars, rest) := by
  induction chars generalizing out with
  | nil => simp [decode, stringLoop]
  | cons c chars ih =>
    obtain ⟨here, valid⟩ := List.forall_mem_cons.mp valid
    have next : out ++ decode (c :: chars) = out ++ [decodeChar c] ++ decode chars := by
      simp [decode]
    rw [List.flatMap_cons, List.append_assoc, next, ← ih valid]
    cases c with
    | plain b =>
      obtain ⟨printable, quote, backslash⟩ := here
      rw [StrChar.text, List.cons_append, List.nil_append, stringLoop_plain quote backslash,
        if_neg (UInt8.not_lt.mpr printable)]
      rfl
    | escape b =>
      simp only [StrChar.Valid, List.mem_cons, List.not_mem_nil, or_false] at here
      rcases here with rfl | rfl | rfl | rfl | rfl | rfl | rfl | rfl <;> rfl
    | unicode a b c d =>
      obtain ⟨ha, hb, hc, hd⟩ := here
      obtain ⟨decoded, same⟩ := decodeUnicode_some ha hb hc hd
      rw [decodeChar, same, Option.getD_some, StrChar.text]
      simp only [List.cons_append, List.nil_append]
      rw [stringLoop, same]

/-- A number ends in front of `s`. -/
def Stops (s : Bytes) : Prop :=
  ∀ c, s.head? = some c → isdigit c = false ∧ c ≠ 46 ∧ c ≠ 101 ∧ c ≠ 69

theorem dropWhile_digits {digits : Bytes} (all : ∀ b ∈ digits, isDigit b)
    (stops : ∀ c, rest.head? = some c → isdigit c = false) :
    (digits ++ rest).dropWhile isdigit = rest := by
  have all : ∀ b ∈ digits, isdigit b = true := all
  rw [List.dropWhile_append_of_pos all]
  cases rest with
  | nil => rfl
  | cons c rest => exact List.dropWhile_cons_of_neg (by rw [stops c rfl]; decide)

theorem digits_start {digits : Bytes} (h : Digits digits) (rest : Bytes) :
    startsWithDigit (digits ++ rest) = true := by
  obtain ⟨nonempty, all⟩ := h
  obtain ⟨b, digits, rfl⟩ := List.exists_cons_of_ne_nil nonempty
  exact all b List.mem_cons_self

theorem scanExponent_stops (stops : Stops rest) : scanExponent rest = some rest := by
  cases rest with
  | nil => rfl
  | cons c rest =>
    obtain ⟨_, _, e, E⟩ := stops c rfl
    rw [scanExponent, if_neg (not_or.mpr ⟨e, E⟩)]

theorem skipSign_text {sign digits : Bytes} (signs : sign = [] ∨ sign = [43] ∨ sign = [45])
    (valid : Digits digits) (rest : Bytes) :
    skipSign (sign ++ (digits ++ rest)) = digits ++ rest := by
  rcases signs with rfl | rfl | rfl
  · obtain ⟨nonempty, all⟩ := valid
    obtain ⟨b, digits, rfl⟩ := List.exists_cons_of_ne_nil nonempty
    have digit := all b List.mem_cons_self
    have no_sign : ¬(b = 43 ∨ b = 45) := by
      rintro (rfl | rfl) <;> exact absurd digit (by decide)
    exact if_neg no_sign
  · rfl
  · rfl

theorem scanExponent_text {exponent : Bytes} (h : Exponent exponent) (stops : Stops rest) :
    scanExponent (exponent ++ rest) = some rest := by
  rcases h with rfl | ⟨e, sign, digits, rfl, mark, signs, valid⟩
  · exact scanExponent_stops stops
  · rw [List.cons_append, List.append_assoc, scanExponent, if_pos mark, skipSign_text signs valid,
      if_pos (digits_start valid rest), dropWhile_digits valid.2 fun c head => (stops c head).1]

/-- What follows the fraction. -/
theorem exponent_head {exponent : Bytes} (h : Exponent exponent) (stops : Stops rest) :
    ∀ c, (exponent ++ rest).head? = some c → isdigit c = false ∧ c ≠ 46 := by
  intro c head
  rcases h with rfl | ⟨e, sign, digits, rfl, mark, _⟩
  · exact ⟨(stops c head).1, (stops c head).2.1⟩
  · cases head
    rcases mark with rfl | rfl <;> decide

theorem scanFraction_text {fraction exponent : Bytes} (h : Fraction fraction)
    (h' : Exponent exponent) (stops : Stops rest) :
    scanFraction (fraction ++ (exponent ++ rest)) = some rest := by
  have later := scanExponent_text h' stops
  have no_digit := exponent_head h' stops
  rcases h with rfl | ⟨digits, rfl, valid⟩
  · rw [List.nil_append]
    cases whole : exponent ++ rest with
    | nil =>
      rw [← whole, ← later, whole]
      rfl
    | cons c tail =>
      rw [whole] at no_digit later
      rw [scanFraction, if_neg (no_digit c rfl).2, later]
  · rw [List.cons_append, scanFraction, if_pos rfl, if_pos (digits_start valid _),
      dropWhile_digits valid.2 fun c head => (no_digit c head).1, later]

theorem scanInteger_text {int fraction exponent : Bytes} (h : IntPart int)
    (h' : Fraction fraction) (h'' : Exponent exponent) (stops : Stops rest) :
    scanInteger (int ++ (fraction ++ (exponent ++ rest))) = some rest := by
  have later := scanFraction_text h' h'' stops
  have no_digit : ∀ c, (fraction ++ (exponent ++ rest)).head? = some c → isdigit c = false := by
    intro c head
    rcases h' with rfl | ⟨digits, rfl, _⟩
    · exact (exponent_head h'' stops c head).1
    · cases head
      rfl
  rcases h with rfl | ⟨⟨nonempty, all⟩, leading⟩
  · exact later
  · obtain ⟨b, digits, rfl⟩ := List.exists_cons_of_ne_nil nonempty
    obtain ⟨digit, all⟩ := List.forall_mem_cons.mp all
    have zero : b ≠ 48 := fun same => leading (by rw [same]; rfl)
    have digit : isdigit b = true := digit
    rw [List.cons_append, scanInteger, if_neg zero, if_pos digit, dropWhile_digits all no_digit,
      later]

/-- The scanner takes a number to its end. -/
theorem scanNumber_text (h : Number token) (stops : Stops rest) :
    scanNumber (token ++ rest) = some rest := by
  obtain ⟨sign, int, fraction, exponent, rfl, signs, ints, fractions, exponents⟩ := h
  have scanned := scanInteger_text ints fractions exponents stops
  rw [scanNumber, List.append_assoc, List.append_assoc, List.append_assoc]
  rcases signs with rfl | rfl
  · have unsigned : skipMinus (int ++ (fraction ++ (exponent ++ rest))) =
        int ++ (fraction ++ (exponent ++ rest)) := by
      rcases ints with rfl | ⟨⟨nonempty, all⟩, _⟩
      · rfl
      · obtain ⟨b, digits, rfl⟩ := List.exists_cons_of_ne_nil nonempty
        have digit := all b List.mem_cons_self
        have minus : b ≠ 45 := by
          rintro rfl
          exact absurd digit (by decide)
        exact if_neg minus
    rw [List.nil_append, unsigned, scanned]
  · exact scanned

variable (strtod : Strtod)

mutual

def eval : Json → Option DictValue
  | .null => some .null
  | .bool b => some (.bool b)
  | .number token =>
    if token.length < 64 ∧ strtod.length token = token.length
    then some (.number (strtod.value token)) else none
  | .string chars => dictCreateString (decode chars)
  | .array elements => (evalElements elements).map .array
  | .object members => evalMembers members (.object [])

def evalElements : List Json → Option (List DictValue)
  | [] => some []
  | element :: elements =>
    (eval element).bind fun v => (evalElements elements).map (v :: ·)

def evalMembers : List (List StrChar × Json) → DictValue → Option DictValue
  | [], obj => some obj
  | (key, value) :: members, obj =>
    (eval value).bind fun v => (dictObjectSet obj (decode key) v).bind (evalMembers members)

end

theorem number_head (h : Number token) :
    ∃ c t, token = c :: t ∧ (c = 45 ∨ 48 ≤ c ∧ c ≤ 57) := by
  obtain ⟨sign, int, fraction, exponent, rfl, signs, ints, _, _⟩ := h
  rcases signs with rfl | rfl
  · rcases ints with rfl | ⟨⟨nonempty, all⟩, _⟩
    · exact ⟨48, _, rfl, Or.inr (by decide)⟩
    · obtain ⟨b, digits, rfl⟩ := List.exists_cons_of_ne_nil nonempty
      have digit := all b List.mem_cons_self
      rw [isDigit, Bool.and_eq_true, decide_eq_true_iff, decide_eq_true_iff] at digit
      exact ⟨b, _, rfl, Or.inr digit⟩
  · exact ⟨45, _, rfl, Or.inl rfl⟩

theorem value_head {Space : Text → Prop} {tree : Json} (h : Value Space token tree) :
    ∃ c t, token = c :: t ∧ isspace c = false ∧ c ≠ 47 ∧ c ≠ 93 := by
  cases h with
  | null => exact ⟨110, _, rfl, by decide⟩
  | bool b => cases b with
    | false => exact ⟨102, _, rfl, by decide⟩
    | true => exact ⟨116, _, rfl, by decide⟩
  | number valid =>
    obtain ⟨c, t, rfl, first⟩ := number_head valid
    refine ⟨c, t, rfl, ?_⟩
    rcases first with rfl | ⟨low, high⟩
    · decide
    · have all := forall_byte (p := fun c => !(48 ≤ c && c ≤ 57) ||
        (!isspace c && c != 47 && c != 93)) (by decide +kernel) c
      rw [decide_eq_true low, decide_eq_true high] at all
      simpa [and_assoc] using all
  | string _ => exact ⟨34, _, rfl, by decide⟩
  | emptyArray _ => exact ⟨91, _, rfl, by decide⟩
  | array _ _ _ => exact ⟨91, _, rfl, by decide⟩
  | emptyObject _ => exact ⟨123, _, rfl, by decide⟩
  | object _ _ _ _ => exact ⟨123, _, rfl, by decide⟩

theorem value_starts {Space : Text → Prop} {tree : Json} (h : Value Space token tree)
    (rest : Bytes) : Starts (token ++ rest) := by
  obtain ⟨c, t, rfl, other, slash, _⟩ := value_head h
  exact starts_cons other slash _

/-- Behind a value comes space or a separator. -/
theorem space_stops (spaced : Commented space) (stops : Stops rest) : Stops (space ++ rest) := by
  have white {b : UInt8} (h : b = 32 ∨ (9 ≤ b ∧ b ≤ 13)) :
      isdigit b = false ∧ b ≠ 46 ∧ b ≠ 101 ∧ b ≠ 69 := by
    have all := forall_byte (p := fun b => !isspace b ||
      (!isdigit b && b != 46 && b != 101 && b != 69)) (by decide +kernel) b
    rw [isspace_of h] at all
    simpa [and_assoc] using all
  intro c head
  cases spaced with
  | nil => exact stops c head
  | space h _ =>
    cases head
    exact white h
  | line _ _ _ =>
    cases head
    decide
  | block _ _ =>
    cases head
    decide

variable {strtod : Strtod}

theorem parseValue_cons {t : Bytes} (fuel : Nat) (skipped : dictParserSkipWhitespace s = c :: t) :
    dictParseValue strtod (fuel + 1) s =
      if c = 34 then parseStringValue (c :: t)
      else if c = 123 then dictParseObject strtod fuel (c :: t)
      else if c = 91 then dictParseArray strtod fuel (c :: t)
      else if c = 45 ∨ 48 ≤ c ∧ c ≤ 57 then parseNumberValue strtod (c :: t)
      else parseLiteralValue (c :: t) := by
  rw [dictParseValue, skipped]

theorem literal_self (literal rest : Bytes) :
    dictParseLiteral literal (literal ++ rest) = some rest := by
  rw [dictParseLiteral, if_pos (List.prefix_append _ _), List.drop_left]

theorem literal_other {b : UInt8} {literal : Bytes} (other : b ≠ c) (s : Bytes) :
    dictParseLiteral (b :: literal) (c :: s) = none :=
  if_neg fun same => other (List.cons_prefix_cons.mp same).1

theorem parse_literals (rest : Bytes) :
    parseLiteralValue (boolText true ++ rest) = .ok (.bool true, rest) ∧
      parseLiteralValue (boolText false ++ rest) = .ok (.bool false, rest) ∧
      parseLiteralValue (nullText ++ rest) = .ok (.null, rest) := by
  have t : ascii "true" = boolText true := by decide
  have f : ascii "false" = boolText false := by decide
  have n : ascii "null" = nullText := by decide
  have other {b c : UInt8} {literal s : Bytes} (different : b ≠ c) :
      dictParseLiteral (b :: literal) (c :: s) = none := literal_other different s
  refine ⟨?_, ?_, ?_⟩
  · rw [parseLiteralValue, t, literal_self]
  · rw [parseLiteralValue, t, f, literal_self]
    rw [show dictParseLiteral (boolText true) (boolText false ++ rest) = none from
      literal_other (by decide) _]
  · rw [parseLiteralValue, t, f, n, literal_self]
    rw [show dictParseLiteral (boolText true) (nullText ++ rest) = none from
      literal_other (by decide) _, show dictParseLiteral (boolText false) (nullText ++ rest) = none from
      literal_other (by decide) _]

theorem parse_string {chars : List StrChar} (valid : ∀ c ∈ chars, c.Valid) (rest : Bytes) :
    (parseStringValue (stringText chars ++ rest)).toOption =
      (dictCreateString (decode chars)).map (·, rest) := by
  have read : dictParseJsonString (stringText chars ++ rest) = .ok (decode chars, rest) := by
    change stringLoop (chars.flatMap StrChar.text ++ [34] ++ rest) [] = _
    rw [List.append_assoc]
    exact stringLoop_text valid rest []
  rw [parseStringValue, read]
  dsimp only
  cases dictCreateString (decode chars) <;> rfl

theorem parse_number (strtod : Strtod) (valid : Number token) (stops : Stops rest) :
    (parseNumberValue strtod (token ++ rest)).toOption =
      (eval strtod (.number token)).map (·, rest) := by
  obtain ⟨c, t, same, _⟩ := number_head valid
  have taken : (token ++ rest).take ((token ++ rest).length - rest.length) = token := by
    rw [List.length_append, Nat.add_sub_cancel, List.take_left]
  have nonempty : token.length ≠ 0 := by
    rw [same]
    exact Nat.succ_ne_zero _
  rw [parseNumberValue, dictParseNumber, scanNumber_text valid stops]
  dsimp only
  rw [taken, if_neg nonempty, eval]
  by_cases long : 64 ≤ token.length
  · rw [if_pos long, if_neg (fun h => Nat.not_lt.mpr long h.1)]
    rfl
  · rw [if_neg long]
    by_cases whole : strtod.length token = token.length
    · rw [if_neg (not_not.mpr whole), if_pos ⟨Nat.lt_of_not_le long, whole⟩]
      rfl
    · rw [if_pos whole, if_neg (fun h => whole h.2)]
      rfl

theorem stops_separator {b : UInt8} (separator : b = 44 ∨ b = 93 ∨ b = 125) (s : Bytes) :
    Stops (b :: s) := by
  intro c head
  cases head
  rcases separator with rfl | rfl | rfl <;> decide

theorem starts_separator {b : UInt8} (separator : b = 44 ∨ b = 93 ∨ b = 125) (s : Bytes) :
    Starts (b :: s) := by
  intro c head
  cases head
  rcases separator with rfl | rfl | rfl <;> decide

/-- What the reader does with a value, at any depth of calls that is enough for it. -/
def Reads (strtod : Strtod) (token : Text) (tree : Json) : Prop :=
  ∀ fuel space rest, Commented space → Stops rest → 3 * token.length < fuel →
    (dictParseValue strtod fuel (space ++ (token ++ rest))).toOption =
      (eval strtod tree).map (·, rest)

theorem Reads.next {tree : Json} (reads : Reads strtod token tree) (fuel : Nat)
    (stops : Stops rest) (enough : 3 * token.length < fuel) :
    match eval strtod tree with
    | none => ∃ e, dictParseValue strtod fuel (token ++ rest) = .error e
    | some v => dictParseValue strtod fuel (token ++ rest) = .ok (v, rest) := by
  have read := reads fuel [] rest .nil stops enough
  rw [List.nil_append] at read
  cases parsed : dictParseValue strtod fuel (token ++ rest) with
  | error e =>
    rw [parsed] at read
    rw [Option.map_eq_none_iff.mp read.symm]
    exact ⟨e, rfl⟩
  | ok result =>
    rw [parsed] at read
    obtain ⟨v, value, same⟩ := Option.map_eq_some_iff.mp read.symm
    rw [value]
    dsimp only
    rw [same]

theorem arrayLoop_succ (n : Nat) (s : Bytes) (items : List DictValue) :
    arrayLoop strtod (n + 1) s items =
      match dictParseValue strtod n s with
      | .error e => .error e
      | .ok (item, s) => match dictParserSkipWhitespace s with
        | [] => fail "Unexpected end of input in array"
        | c :: s =>
          if c = 44 then arrayLoop strtod n (dictParserSkipWhitespace s) (items ++ [item])
          else if c = 93 then .ok (.array (items ++ [item]), s)
          else fail "Expected ',' or ']' in array" := rfl

theorem commas_cons (t next : Text) (texts : List Text) :
    commas (t :: next :: texts) = t ++ 44 :: commas (next :: texts) := by
  rw [commas, List.intercalate_cons_cons, List.append_assoc]
  rfl

theorem commas_singleton (t : Text) : commas [t] = t := List.intercalate_singleton

/-- The reader goes through the elements of an array. -/
theorem arrayLoop_reads {elements : List Element} (nonempty : elements ≠ [])
    (spaced : ∀ e ∈ elements, Commented e.before ∧ Commented e.after)
    (values : ∀ e ∈ elements, Value Commented e.token e.tree)
    (reads : ∀ e ∈ elements, Reads strtod e.token e.tree) (fuel : Nat) (rest : Bytes)
    (items : List DictValue) (enough : 3 * (commas (elements.map Element.text)).length + 1 < fuel) :
    (arrayLoop strtod fuel (dictParserSkipWhitespace
        (commas (elements.map Element.text) ++ 93 :: rest)) items).toOption =
      (evalElements strtod (elements.map Element.tree)).map fun vs => (.array (items ++ vs), rest) := by
  induction elements generalizing fuel items with
  | nil => exact absurd rfl nonempty
  | cons e elements ih =>
    obtain ⟨⟨before, after⟩, spaced⟩ := List.forall_mem_cons.mp spaced
    obtain ⟨value, values⟩ := List.forall_mem_cons.mp values
    obtain ⟨read, reads⟩ := List.forall_mem_cons.mp reads
    obtain ⟨fuel, rfl⟩ := Nat.exists_eq_succ_of_ne_zero (Nat.ne_of_gt (Nat.zero_lt_of_lt enough))
    cases elements with
    | nil =>
      rw [List.map_cons, List.map_nil, commas_singleton, Element.text, List.append_assoc,
        List.append_assoc, skip_commented before (value_starts value _), arrayLoop_succ]
      rw [List.map_cons, List.map_nil, commas_singleton, Element.text, List.length_append,
        List.length_append] at enough
      have next := read.next fuel
        (space_stops after (stops_separator (Or.inr (Or.inl rfl)) rest)) (by omega)
      rw [List.map_cons, List.map_nil, evalElements, evalElements]
      cases known : eval strtod e.tree with
      | none =>
        rw [known] at next
        obtain ⟨error, next⟩ := next
        rw [next]
        rfl
      | some v =>
        rw [known] at next
        dsimp only at next
        rw [next]
        dsimp only
        rw [skip_commented after (starts_separator (Or.inr (Or.inl rfl)) rest)]
        rfl
    | cons e' elements =>
      have later := ih (List.cons_ne_nil _ _) spaced values reads
      rw [List.map_cons, List.map_cons, commas_cons, ← List.map_cons] at enough ⊢
      rw [Element.text, List.length_append, List.length_append, List.length_append,
        List.length_cons] at enough
      rw [Element.text, List.append_assoc, List.append_assoc, List.append_assoc, List.cons_append,
        skip_commented before (value_starts value _), arrayLoop_succ]
      have next := read.next fuel (space_stops after (stops_separator (Or.inl rfl)
        (commas ((e' :: elements).map Element.text) ++ 93 :: rest))) (by omega)
      rw [List.map_cons (f := Element.tree), evalElements]
      cases known : eval strtod e.tree with
      | none =>
        rw [known] at next
        obtain ⟨error, next⟩ := next
        rw [next]
        rfl
      | some v =>
        rw [known] at next
        dsimp only at next
        rw [next]
        dsimp only
        rw [skip_commented after (starts_separator (Or.inl rfl) _)]
        dsimp only
        rw [if_pos rfl, later fuel (items ++ [v]) (by omega), Option.bind_some, Option.map_map]
        congr 1
        funext vs
        simp

theorem objectLoop_succ (n : Nat) (s : Bytes) (obj : DictValue) :
    objectLoop strtod (n + 1) s obj =
      match dictParserSkipWhitespace s with
      | [] => fail "Expected string quote \" in object"
      | c :: s =>
        if c ≠ 34 then fail "Expected string quote \" in object" else
        match dictParseJsonString (c :: s) with
        | .error e => .error e
        | .ok (key, s) => match dictParserSkipWhitespace s with
          | [] => fail "Expected ':' after key in object"
          | c :: s =>
            if c ≠ 58 then fail "Expected ':' after key in object" else
            match dictParseValue strtod n (dictParserSkipWhitespace s) with
            | .error e => .error e
            | .ok (value, s) => match dictObjectSet obj key value with
              | none => fail "Failed to insert key-value pair in object"
              | some obj => match dictParserSkipWhitespace s with
                | [] => fail "Unexpected end of input in object"
                | c :: s =>
                  if c = 44 then objectLoop strtod n s obj
                  else if c = 125 then .ok (obj, s)
                  else fail "Expected ',' or '\x7d' in object" := rfl

theorem string_starts (chars : List StrChar) (rest : Bytes) : Starts (stringText chars ++ rest) :=
  starts_cons (by decide) (by decide) _

/-- One member, up to the separator behind it. -/
theorem objectLoop_member {m : Member} {s' : Bytes} (obj : DictValue) (fuel : Nat) (rest : Bytes)
    (before : Commented m.before) (beforeColon : Commented m.beforeColon)
    (valueBefore : Commented m.value.before) (valueAfter : Commented m.value.after)
    (key : ∀ c ∈ m.key, c.Valid) (value : Value Commented m.value.token m.value.tree)
    (read : Reads strtod m.value.token m.value.tree) (separator : c = 44 ∨ c = 93 ∨ c = 125)
    (enough : 3 * m.value.token.length < fuel)
    (same : dictParserSkipWhitespace s' = dictParserSkipWhitespace (m.text ++ c :: rest)) :
    match (eval strtod m.value.tree).bind (dictObjectSet obj (decode m.key)) with
    | none => ∃ e, objectLoop strtod (fuel + 1) s' obj = .error e
    | some obj' => objectLoop strtod (fuel + 1) s' obj =
        if c = 44 then objectLoop strtod fuel rest obj'
        else if c = 125 then .ok (obj', rest)
        else fail "Expected ',' or '\x7d' in object" := by
  have text : m.text ++ c :: rest = m.before ++ (stringText m.key ++ (m.beforeColon ++
      58 :: (m.value.before ++ (m.value.token ++ (m.value.after ++ c :: rest))))) := by
    simp only [Member.text, Element.text, List.append_assoc, List.cons_append]
  have string (rest : Bytes) :
      dictParseJsonString (34 :: (m.key.flatMap StrChar.text ++ [34] ++ rest)) =
        .ok (decode m.key, rest) := by
    change stringLoop (m.key.flatMap StrChar.text ++ [34] ++ rest) [] = _
    rw [List.append_assoc]
    exact stringLoop_text key rest []
  have colon : Starts (58 :: (m.value.before ++ (m.value.token ++ (m.value.after ++ c :: rest)))) :=
    starts_cons (by decide) (by decide) _
  have next := read.next fuel
    (space_stops valueAfter (stops_separator separator rest)) enough
  rw [text, skip_commented before (string_starts _ _), stringText, List.cons_append] at same
  rw [objectLoop_succ, same]
  dsimp only
  rw [if_neg (not_not.mpr rfl), string]
  dsimp only
  rw [skip_commented beforeColon colon]
  dsimp only
  rw [if_neg (not_not.mpr rfl), skip_commented valueBefore (value_starts value _)]
  cases known : eval strtod m.value.tree with
  | none =>
    rw [known] at next
    obtain ⟨error, next⟩ := next
    rw [next]
    exact ⟨error, rfl⟩
  | some v =>
    rw [known] at next
    dsimp only at next
    rw [next, Option.bind_some]
    dsimp only
    cases set : dictObjectSet obj (decode m.key) v with
    | none => exact ⟨_, rfl⟩
    | some obj' =>
      dsimp only
      rw [skip_commented valueAfter (starts_separator separator rest)]

/-- The reader goes through the members of an object. -/
theorem objectLoop_reads {members : List Member} (nonempty : members ≠ [])
    (spaced : ∀ m ∈ members, Commented m.before ∧ Commented m.beforeColon ∧
      Commented m.value.before ∧ Commented m.value.after)
    (keys : ∀ m ∈ members, ∀ c ∈ m.key, c.Valid)
    (values : ∀ m ∈ members, Value Commented m.value.token m.value.tree)
    (reads : ∀ m ∈ members, Reads strtod m.value.token m.value.tree) (fuel : Nat) (rest s : Bytes)
    (obj : DictValue) (enough : 3 * (commas (members.map Member.text)).length + 1 < fuel)
    (same : dictParserSkipWhitespace s =
      dictParserSkipWhitespace (commas (members.map Member.text) ++ 125 :: rest)) :
    (objectLoop strtod fuel s obj).toOption =
      (evalMembers strtod (members.map Member.tree) obj).map (·, rest) := by
  induction members generalizing fuel s obj with
  | nil => exact absurd rfl nonempty
  | cons m members ih =>
    obtain ⟨⟨before, beforeColon, valueBefore, valueAfter⟩, spaced⟩ := List.forall_mem_cons.mp spaced
    obtain ⟨key, keys⟩ := List.forall_mem_cons.mp keys
    obtain ⟨value, values⟩ := List.forall_mem_cons.mp values
    obtain ⟨read, reads⟩ := List.forall_mem_cons.mp reads
    obtain ⟨fuel, rfl⟩ := Nat.exists_eq_succ_of_ne_zero (Nat.ne_of_gt (Nat.zero_lt_of_lt enough))
    have length : m.value.token.length ≤ m.text.length := by
      simp only [Member.text, Element.text, List.length_append, List.length_cons]
      omega
    have tree : evalMembers strtod ((m :: members).map Member.tree) obj =
        ((eval strtod m.value.tree).bind (dictObjectSet obj (decode m.key))).bind
          (evalMembers strtod (members.map Member.tree)) := by
      rw [List.map_cons, Member.tree, evalMembers, Option.bind_assoc]
    rw [tree]
    cases members with
    | nil =>
      rw [List.map_cons, List.map_nil, commas_singleton] at same enough
      have one := objectLoop_member obj fuel rest before beforeColon
        valueBefore valueAfter key value read (Or.inr (Or.inr rfl)) (by omega) same
      cases known : (eval strtod m.value.tree).bind (dictObjectSet obj (decode m.key)) with
      | none =>
        rw [known] at one
        obtain ⟨error, one⟩ := one
        rw [one]
        rfl
      | some obj' =>
        rw [known] at one
        dsimp only at one
        rw [one]
        rfl
    | cons m' members =>
      rw [List.map_cons, List.map_cons, commas_cons, ← List.map_cons] at same enough
      rw [List.length_append, List.length_cons] at enough
      rw [List.append_assoc, List.cons_append] at same
      have one := objectLoop_member obj fuel _ before beforeColon valueBefore
        valueAfter key value read (Or.inl rfl) (by omega) same
      cases known : (eval strtod m.value.tree).bind (dictObjectSet obj (decode m.key)) with
      | none =>
        rw [known] at one
        obtain ⟨error, one⟩ := one
        rw [one]
        rfl
      | some obj' =>
        rw [known] at one
        dsimp only at one
        rw [one, if_pos rfl, Option.bind_some]
        exact ih (List.cons_ne_nil _ _) spaced keys values reads fuel _ obj' (by omega) rfl

theorem parseValue_skip {s' : Bytes} (fuel : Nat)
    (same : dictParserSkipWhitespace s = dictParserSkipWhitespace s') :
    dictParseValue strtod (fuel + 1) s = dictParseValue strtod (fuel + 1) s' := by
  rw [dictParseValue, dictParseValue, same]

/-- Space in front of a value makes no difference. -/
theorem reads_of {tree : Json} (direct : ∀ fuel rest, Stops rest → 3 * token.length < fuel + 1 →
    (dictParseValue strtod (fuel + 1) (token ++ rest)).toOption =
      (eval strtod tree).map (·, rest)) : Reads strtod token tree := by
  intro fuel space rest spaced stops enough
  obtain ⟨fuel, rfl⟩ := Nat.exists_eq_succ_of_ne_zero (Nat.ne_of_gt (Nat.zero_lt_of_lt enough))
  exact (congrArg Except.toOption (parseValue_skip fuel (skip_append spaced _))).trans
    (direct fuel rest stops enough)

theorem parseValue_array (fuel : Nat) (inner rest : Bytes) :
    dictParseValue strtod (fuel + 1) (91 :: (inner ++ [93]) ++ rest) =
      dictParseArray strtod fuel (91 :: (inner ++ 93 :: rest)) := by
  have whole : 91 :: (inner ++ [93]) ++ rest = 91 :: (inner ++ 93 :: rest) := by simp
  have skipped : dictParserSkipWhitespace (91 :: (inner ++ 93 :: rest)) =
      91 :: (inner ++ 93 :: rest) := skip_starts (starts_cons (by decide) (by decide) _)
  rw [whole, parseValue_cons fuel skipped]
  rfl

theorem parseValue_object (fuel : Nat) (inner rest : Bytes) :
    dictParseValue strtod (fuel + 1) (123 :: (inner ++ [125]) ++ rest) =
      dictParseObject strtod fuel (123 :: (inner ++ 125 :: rest)) := by
  have whole : 123 :: (inner ++ [125]) ++ rest = 123 :: (inner ++ 125 :: rest) := by simp
  have skipped : dictParserSkipWhitespace (123 :: (inner ++ 125 :: rest)) =
      123 :: (inner ++ 125 :: rest) := skip_starts (starts_cons (by decide) (by decide) _)
  rw [whole, parseValue_cons fuel skipped]
  rfl

theorem parseArray_nonempty (fuel : Nat) {t : Bytes} (first : dictParserSkipWhitespace s = c :: t)
    (starts : Starts (c :: t)) (other : c ≠ 93) :
    dictParseArray strtod (fuel + 1) (91 :: s) = arrayLoop strtod fuel (c :: t) [] := by
  rw [dictParseArray, first, skip_starts starts]
  split
  · rename_i same
    cases same
    exact absurd rfl other
  · rfl

theorem parseObject_nonempty (fuel : Nat) {t : Bytes} (first : dictParserSkipWhitespace s = c :: t)
    (starts : Starts (c :: t)) (other : c ≠ 125) :
    dictParseObject strtod (fuel + 1) (123 :: s) =
      objectLoop strtod fuel (c :: t) (.object []) := by
  rw [dictParseObject, first, skip_starts starts]
  split
  · rename_i same
    cases same
    exact absurd rfl other
  · rfl

/-- The first token between commas. -/
theorem commas_head (texts : List Text) (first rest : Text) :
    ∃ rest', commas (first :: texts) ++ rest = first ++ rest' := by
  cases texts with
  | nil => exact ⟨rest, by rw [commas_singleton]⟩
  | cons next texts => exact ⟨_, by rw [commas_cons, List.append_assoc]⟩

/-- On a value of the grammar the reader comes to the value of its syntax tree. -/
theorem value_reads {tree : Json} (h : Value Commented token tree) : Reads strtod token tree := by
  induction h with
  | null =>
    refine reads_of fun fuel rest stops enough => ?_
    have skipped : dictParserSkipWhitespace (nullText ++ rest) = 110 :: ([117, 108, 108] ++ rest) :=
      skip_starts (value_starts (.null : Value Commented _ _) rest)
    rw [parseValue_cons fuel skipped]
    change (parseLiteralValue (nullText ++ rest)).toOption = _
    rw [(parse_literals rest).2.2]
    rfl
  | bool b =>
    refine reads_of fun fuel rest stops enough => ?_
    have starts := value_starts (.bool b : Value Commented _ _) rest
    cases b with
    | false =>
      have skipped : dictParserSkipWhitespace (boolText false ++ rest) =
          102 :: ([97, 108, 115, 101] ++ rest) := skip_starts starts
      rw [parseValue_cons fuel skipped]
      change (parseLiteralValue (boolText false ++ rest)).toOption = _
      rw [(parse_literals rest).2.1]
      rfl
    | true =>
      have skipped : dictParserSkipWhitespace (boolText true ++ rest) =
          116 :: ([114, 117, 101] ++ rest) := skip_starts starts
      rw [parseValue_cons fuel skipped]
      change (parseLiteralValue (boolText true ++ rest)).toOption = _
      rw [(parse_literals rest).1]
      rfl
  | @number token valid =>
    refine reads_of fun fuel rest stops enough => ?_
    have skipped := skip_starts (value_starts (.number valid : Value Commented _ _) rest)
    have read := parse_number strtod valid stops
    obtain ⟨c, t, rfl, first⟩ := number_head valid
    have other : c ≠ 34 ∧ c ≠ 123 ∧ c ≠ 91 := by
      rcases first with rfl | ⟨low, high⟩
      · decide
      · refine ⟨?_, ?_, ?_⟩ <;> rintro rfl
        · exact absurd low (by decide)
        · exact absurd high (by decide)
        · exact absurd high (by decide)
    rw [List.cons_append] at skipped read ⊢
    rw [parseValue_cons fuel skipped, if_neg other.1, if_neg other.2.1, if_neg other.2.2,
      if_pos first, read]
  | @string chars valid =>
    refine reads_of fun fuel rest stops enough => ?_
    have skipped : dictParserSkipWhitespace (stringText chars ++ rest) =
        34 :: (chars.flatMap StrChar.text ++ [34] ++ rest) := skip_starts (string_starts chars rest)
    rw [parseValue_cons fuel skipped, if_pos rfl, eval]
    exact parse_string valid rest
  | @emptyArray inner spaced =>
    refine reads_of fun fuel rest stops enough => ?_
    rw [List.length_cons] at enough
    obtain ⟨fuel, rfl⟩ := Nat.exists_eq_succ_of_ne_zero (show fuel ≠ 0 by omega)
    have closed : dictParserSkipWhitespace (inner ++ 93 :: rest) = 93 :: rest :=
      skip_commented spaced (starts_separator (Or.inr (Or.inl rfl)) rest)
    rw [parseValue_array, dictParseArray, closed,
      skip_starts (starts_separator (Or.inr (Or.inl rfl)) rest)]
    rfl
  | @array elements nonempty spaced values ih =>
    refine reads_of fun fuel rest stops enough => ?_
    rw [List.length_cons, List.length_append, List.length_singleton] at enough
    obtain ⟨fuel, rfl⟩ := Nat.exists_eq_succ_of_ne_zero (show fuel ≠ 0 by omega)
    have loop := arrayLoop_reads nonempty spaced values ih fuel rest [] (by omega)
    obtain ⟨e, elements, rfl⟩ := List.exists_cons_of_ne_nil nonempty
    have value := values e List.mem_cons_self
    have first : ∃ c t, dictParserSkipWhitespace (commas ((e :: elements).map Element.text) ++
        93 :: rest) = c :: t ∧ Starts (c :: t) ∧ c ≠ 93 := by
      obtain ⟨rest', whole⟩ := commas_head (elements.map Element.text) e.text (93 :: rest)
      obtain ⟨c, t, same, other, slash, open_array⟩ := value_head value
      refine ⟨c, t ++ (e.after ++ rest'), ?_, starts_cons other slash _, open_array⟩
      rw [List.map_cons, whole, Element.text, List.append_assoc, List.append_assoc,
        skip_commented (spaced e List.mem_cons_self).1 (value_starts value _), same,
        List.cons_append]
    obtain ⟨c, t, skipped, starts, open_array⟩ := first
    rw [skipped] at loop
    rw [parseValue_array, parseArray_nonempty fuel skipped starts open_array, loop, eval]
    simp only [List.nil_append, Option.map_map]
    rfl
  | @emptyObject inner spaced =>
    refine reads_of fun fuel rest stops enough => ?_
    rw [List.length_cons] at enough
    obtain ⟨fuel, rfl⟩ := Nat.exists_eq_succ_of_ne_zero (show fuel ≠ 0 by omega)
    have closed : dictParserSkipWhitespace (inner ++ 125 :: rest) = 125 :: rest :=
      skip_commented spaced (starts_separator (Or.inr (Or.inr rfl)) rest)
    rw [parseValue_object, dictParseObject, closed,
      skip_starts (starts_separator (Or.inr (Or.inr rfl)) rest)]
    rfl
  | @object members nonempty spaced keys values ih =>
    refine reads_of fun fuel rest stops enough => ?_
    rw [List.length_cons, List.length_append, List.length_singleton] at enough
    obtain ⟨fuel, rfl⟩ := Nat.exists_eq_succ_of_ne_zero (show fuel ≠ 0 by omega)
    obtain ⟨m, members, rfl⟩ := List.exists_cons_of_ne_nil nonempty
    have first : ∃ t, dictParserSkipWhitespace (commas ((m :: members).map Member.text) ++
        125 :: rest) = 34 :: t := by
      obtain ⟨rest', whole⟩ := commas_head (members.map Member.text) m.text (125 :: rest)
      refine ⟨m.key.flatMap StrChar.text ++ [34] ++ (m.beforeColon ++ 58 :: m.value.text ++ rest'), ?_⟩
      rw [List.map_cons, whole, Member.text, List.append_assoc, List.append_assoc,
        skip_commented (spaced m List.mem_cons_self).1 (string_starts _ _)]
      rfl
    obtain ⟨t, skipped⟩ := first
    have starts : Starts (34 :: t) := starts_cons (by decide) (by decide) t
    have loop := objectLoop_reads nonempty spaced keys values ih fuel rest (34 :: t) (.object [])
      (by omega) (by rw [skipped, skip_starts starts])
    rw [parseValue_object, parseObject_nonempty fuel skipped starts (by decide), loop, eval]

theorem lastLine_stops {last : Text} (ends : LastLine last) : Stops last := by
  intro c head
  rcases ends with rfl | ⟨body, rfl, _⟩
  · cases head
  · cases head
    decide

/-- The reader on a text of the grammar. -/
theorem deserialize_text {t : Text} {tree : Json} (h : CommentedText t tree) (more : Bytes) :
    (dictDeserializeJson strtod (t ++ more) t.length).toOption = eval strtod tree := by
  obtain ⟨before, token, after, last, whole, spaced, value, spaced', ends⟩ := h
  have length : t.length = before.length + (token.length + (after ++ last).length) := by
    rw [whole, List.length_append, List.length_append]
  have positive : 0 < token.length := by
    obtain ⟨c, t, rfl, _⟩ := value_head value
    exact Nat.succ_pos _
  have start : ¬((t ++ more).length < t.length ∨ t.length = 0) := by
    rw [List.length_append]
    omega
  have skipped : dictParserSkipWhitespace t = token ++ (after ++ last) := by
    rw [whole, skip_commented spaced (value_starts value _)]
  have reads : Reads strtod token tree := value_reads value
  have next := reads.next (parseFuel t)
    (space_stops spaced' (lastLine_stops ends)) (by unfold parseFuel; omega)
  rw [dictDeserializeJson, if_neg start, List.take_left]
  dsimp only
  rw [skipped]
  cases known : eval strtod tree with
  | none =>
    rw [known] at next
    obtain ⟨error, next⟩ := next
    rw [next]
    rfl
  | some v =>
    rw [known] at next
    dsimp only at next
    rw [next]
    dsimp only
    rw [skip_last spaced' ends, if_neg (not_not.mpr rfl)]
    rfl

end JsonReading
