import NanoProxy.JsonReading

/-!
# What the JSON reader takes

Where no block comment is open, everything that the reader takes has a derivation in the
grammar. An open comment is not an error for the reader: it goes on with the last byte of
the text.
-/

namespace JsonSoundness

open CLib Dict JsonGrammar JsonParser JsonReading

variable {s rest token space body : Bytes} {c : UInt8} {strtod : Strtod}

theorem white_of {b : UInt8} (white : isspace b = true) : b = 32 ∨ (9 ≤ b ∧ b ≤ 13) := by
  rw [isspace, Bool.or_eq_true, beq_iff_eq, Bool.and_eq_true, decide_eq_true_iff,
    decide_eq_true_iff] at white
  exact white

/-- A block comment that is closed has an end. -/
theorem block_ends (t : Bytes) :
    (scan .block t ≠ .block → scan .block t ≠ .star →
      ∃ body rest, t = body ++ 42 :: 47 :: rest ∧ ¬[42, 47] <:+: body) ∧
    (scan .star t ≠ .block → scan .star t ≠ .star →
      (∃ rest, t = 47 :: rest) ∨
      ∃ body rest, t = body ++ 42 :: 47 :: rest ∧ ¬[42, 47] <:+: body ∧ body.head? ≠ some 47) := by
  induction t with
  | nil => exact ⟨fun h => absurd rfl h, fun _ h => absurd rfl h⟩
  | cons c t ih =>
    obtain ⟨block, star⟩ := ih
    have empty : ¬[42, 47] <:+: ([] : Bytes) := by simp
    -- a byte that is no star can stand in front of a body
    have extend {body : Bytes} (other : c ≠ 42) (inside : ¬[42, 47] <:+: body) :
        ¬[42, 47] <:+: c :: body := by
      rw [List.infix_cons_iff, not_or]
      exact ⟨fun first => other (List.cons_prefix_cons.mp first).1.symm, inside⟩
    have extendStar {body : Bytes} (inside : ¬[42, 47] <:+: body) (head : body.head? ≠ some 47) :
        ¬[42, 47] <:+: 42 :: body := by
      rw [List.infix_cons_iff, not_or]
      refine ⟨fun first => ?_, inside⟩
      obtain ⟨_, more⟩ := List.cons_prefix_cons.mp first
      obtain ⟨rest, rfl⟩ := more
      exact head rfl
    constructor
    · intro notBlock notStar
      rw [scan_cons, Mode.step] at notBlock notStar
      split at notBlock
      · rename_i same
        rw [if_pos same] at notStar
        subst same
        rcases star notBlock notStar with ⟨rest, rfl⟩ | ⟨body, rest, rfl, inside, head⟩
        · exact ⟨[], rest, rfl, empty⟩
        · exact ⟨42 :: body, rest, rfl, extendStar inside head⟩
      · rename_i other
        rw [if_neg other] at notStar
        obtain ⟨body, rest, rfl, inside⟩ := block notBlock notStar
        exact ⟨c :: body, rest, rfl, extend other inside⟩
    · intro notBlock notStar
      rw [scan_cons, Mode.step] at notBlock notStar
      split at notBlock
      · rename_i same
        exact Or.inl ⟨t, by rw [same]⟩
      · rename_i noSlash
        rw [if_neg noSlash] at notStar
        right
        split at notBlock
        · rename_i same
          rw [if_pos same] at notStar
          subst same
          rcases star notBlock notStar with ⟨rest, rfl⟩ | ⟨body, rest, rfl, inside, head⟩
          · exact ⟨[], rest, rfl, empty, (Option.some_ne_none _).symm⟩
          · exact ⟨42 :: body, rest, rfl, extendStar inside head, by rw [List.head?_cons]; decide⟩
        · rename_i other
          rw [if_neg other] at notStar
          obtain ⟨body, rest, rfl, inside⟩ := block notBlock notStar
          refine ⟨c :: body, rest, rfl, extend other inside, ?_⟩
          intro slash
          cases slash
          exact noSlash rfl

/-- A line ends somewhere, or the text does. -/
theorem line_ends (t : Bytes) : (∀ c ∈ t, isNewline c = false) ∨
    ∃ body b rest, t = body ++ b :: rest ∧ (∀ c ∈ body, isNewline c = false) ∧
      isNewline b = true := by
  induction t with
  | nil => exact Or.inl fun _ listed => nomatch listed
  | cons c t ih =>
    cases newline : isNewline c with
    | true => exact Or.inr ⟨[], c, t, rfl, (fun _ listed => nomatch listed), newline⟩
    | false =>
      rcases ih with inside | ⟨body, b, rest, rfl, inside, ends⟩
      · exact Or.inl (List.forall_mem_cons.mpr ⟨newline, inside⟩)
      · exact Or.inr ⟨c :: body, b, rest, rfl, List.forall_mem_cons.mpr ⟨newline, inside⟩, ends⟩

theorem closed_space (spaced : Commented space) : Closed (space ++ s) ↔ Closed s := by
  rw [Closed, Closed, scan_append, spaced.scan]

theorem closed_cons (quote : c ≠ 34) (slash : c ≠ 47) : Closed (c :: s) ↔ Closed s := by
  rw [Closed, Closed, scan_cons, Mode.step, codeStep, if_neg quote, if_neg slash]

/-- What is skipped is space, or the text ends in a line comment. -/
theorem skip_sound (closed : Closed s) :
    (∃ space, s = space ++ dictParserSkipWhitespace s ∧ Commented space) ∨
    (dictParserSkipWhitespace s = [] ∧ ∃ space last, s = space ++ last ∧ Commented space ∧
      LastLine last) := by
  induction length : s.length using Nat.strong_induction_on generalizing s with
  | _ n ih =>
    have here (same : dictParserSkipWhitespace s = s) :
        ∃ space, s = space ++ dictParserSkipWhitespace s ∧ Commented space :=
      ⟨[], by rw [same]; rfl, .nil⟩
    -- space in front of what is skipped
    have extend {first s' : Bytes} (whole : s = first ++ s') (spaced : Commented first)
        (shorter : s'.length < n)
        (same : dictParserSkipWhitespace s = dictParserSkipWhitespace s') :
        (∃ space, s = space ++ dictParserSkipWhitespace s ∧ Commented space) ∨
        (dictParserSkipWhitespace s = [] ∧ ∃ space last, s = space ++ last ∧ Commented space ∧
          LastLine last) := by
      rw [whole, closed_space spaced] at closed
      rcases ih _ shorter closed rfl with ⟨space, more, spaced'⟩ | ⟨empty, space, last, more, spaced', ends⟩
      · refine Or.inl ⟨first ++ space, ?_, spaced.append spaced'⟩
        rw [same, List.append_assoc, ← more, whole]
      · refine Or.inr ⟨same.trans empty, first ++ space, last, ?_, spaced.append spaced', ends⟩
        rw [List.append_assoc, ← more, whole]
    cases s with
    | nil => exact Or.inl (here rfl)
    | cons c s =>
      rw [List.length_cons] at length
      by_cases white : isspace c = true
      · exact extend (show c :: s = [c] ++ s from rfl) (.space (white_of white) .nil) (by omega)
          (skip_space white s)
      · have other : isspace c = false := eq_false_of_ne_true white
        by_cases slash : c = 47
        · subst slash
          cases s with
          | nil => exact Or.inl (here rfl)
          | cons d rest =>
            rw [List.length_cons] at length
            by_cases line : d = 47
            · subst line
              rcases line_ends rest with inside | ⟨body, b, rest', rfl, inside, ends⟩
              · refine Or.inr ⟨?_, [], 47 :: 47 :: rest, rfl, .nil, Or.inr ⟨rest, rfl, inside⟩⟩
                rw [skip_line, skipLine_all inside, skip_nil]
              · have whole : (47 :: 47 :: (body ++ b :: rest') : Bytes) =
                    47 :: 47 :: (body ++ b :: []) ++ rest' := by simp
                refine extend whole (.line inside ends .nil) ?_ ?_
                · rw [List.length_append, List.length_cons] at length
                  omega
                · rw [skip_line, skipLine_append inside ends, skip_space (isspace_newline ends)]
            · by_cases block : d = 42
              · subst block
                obtain ⟨body, rest', rfl, inside⟩ := (block_ends rest).1 closed.1 closed.2
                have whole : (47 :: 42 :: (body ++ 42 :: 47 :: rest') : Bytes) =
                    47 :: 42 :: (body ++ 42 :: 47 :: []) ++ rest' := by simp
                refine extend whole (.block inside .nil) ?_ ?_
                · rw [List.length_append, List.length_cons, List.length_cons] at length
                  omega
                · rw [skip_block, skipBlock_append inside]
              · refine Or.inl (here ?_)
                rw [dictParserSkipWhitespace, List.length_cons, skipLoop_cons, other]
                dsimp only
                rw [if_neg (by decide), if_pos rfl, if_neg line, if_neg block]
        · exact Or.inl (here (skip_starts (starts_cons other slash s)))

/-- Space in front of something. -/
theorem skip_nonempty (closed : Closed s) (nonempty : dictParserSkipWhitespace s ≠ []) :
    (∃ space, s = space ++ dictParserSkipWhitespace s ∧ Commented space) ∧
      Closed (dictParserSkipWhitespace s) := by
  rcases skip_sound closed with ⟨space, whole, spaced⟩ | ⟨empty, _⟩
  · refine ⟨⟨space, whole, spaced⟩, ?_⟩
    rw [whole, closed_space spaced] at closed
    exact closed
  · exact absurd empty nonempty

theorem decodeEscape_valid {esc decoded : UInt8} (h : decodeEscape esc = some decoded) :
    (StrChar.escape esc).Valid := by
  have all := forall_byte (p := fun b => (decodeEscape b).isNone ||
    decide (b ∈ [34, 92, 47, 98, 102, 110, 114, 116])) (by decide +kernel) esc
  rw [h] at all
  simpa [StrChar.Valid] using all

theorem decodeUnicode_valid {a b c d decoded : UInt8} (h : decodeUnicode a b c d = some decoded) :
    (StrChar.unicode a b c d).Valid := by
  unfold decodeUnicode at h
  split at h
  · rename_i digits
    simp only [Bool.and_eq_true] at digits
    exact ⟨digits.1.1.1, digits.1.1.2, digits.1.2, digits.2⟩
  · cases h

/-- The characters of a string and its last quote stand in front of `rest`. -/
def IsString (s rest : Bytes) : Prop :=
  ∃ chars : List StrChar, s = chars.flatMap StrChar.text ++ 34 :: rest ∧ ∀ c ∈ chars, c.Valid

theorem IsString.cons {c : StrChar} (valid : c.Valid) (h : IsString s rest) :
    IsString (c.text ++ s) rest := by
  obtain ⟨chars, rfl, valid'⟩ := h
  refine ⟨c :: chars, ?_, List.forall_mem_cons.mpr ⟨valid, valid'⟩⟩
  rw [List.flatMap_cons, List.append_assoc]

/-- A string that the reader takes. -/
theorem stringLoop_sound {out str : Bytes} (read : stringLoop s out = .ok (str, rest)) :
    IsString s rest := by
  fun_induction stringLoop s out with
  | case1 => cases read
  | case2 s out =>
    cases read
    exact ⟨[], rfl, fun _ listed => nomatch listed⟩
  | case3 => cases read
  | case4 => cases read
  | case5 a b c d s out decoded known ih =>
    exact (ih read).cons (decodeUnicode_valid known)
  | case6 => cases read
  | case7 => cases read
  | case8 esc s out _ _ decoded known ih =>
    exact (ih read).cons (c := .escape esc) (decodeEscape_valid known)
  | case9 => cases read
  | case10 c s out quote alone _ escaped control ih =>
    refine (ih read).cons (c := .plain c) ⟨UInt8.not_lt.mp control, quote, ?_⟩
    intro backslash
    cases s with
    | nil => exact alone backslash rfl
    | cons esc s => exact escaped esc s backslash rfl

theorem jsonString_sound {str : Bytes} (read : dictParseJsonString s = .ok (str, rest)) :
    ∃ chars, s = stringText chars ++ rest ∧ ∀ c ∈ chars, c.Valid := by
  unfold dictParseJsonString at read
  split at read
  · obtain ⟨chars, rfl, valid⟩ := stringLoop_sound read
    refine ⟨chars, ?_, valid⟩
    rw [stringText, List.cons_append, List.append_assoc]
    rfl
  · cases read

theorem parseString_sound {v : DictValue} (read : parseStringValue s = .ok (v, rest)) :
    ∃ chars, s = stringText chars ++ rest ∧ ∀ c ∈ chars, c.Valid := by
  unfold parseStringValue at read
  split at read
  · cases read
  rename_i str rest' same
  split at read
  · cases read
  cases read
  exact jsonString_sound same

theorem digits_sound (starts : startsWithDigit s = true) :
    ∃ digits, s = digits ++ s.dropWhile isdigit ∧ Digits digits ∧
      digits.head? = s.head? := by
  cases s with
  | nil => cases starts
  | cons c s =>
    have digit : isdigit c = true := starts
    refine ⟨(c :: s).takeWhile isdigit, List.takeWhile_append_dropWhile.symm, ⟨?_, ?_⟩, ?_⟩
    · rw [List.takeWhile_cons_of_pos digit]
      exact List.cons_ne_nil _ _
    · exact fun b listed => List.mem_takeWhile_imp listed
    · rw [List.takeWhile_cons_of_pos digit]
      rfl

theorem skipSign_sound (s : Bytes) :
    ∃ sign, s = sign ++ skipSign s ∧ (sign = [] ∨ sign = [43] ∨ sign = [45]) := by
  cases s with
  | nil => exact ⟨[], rfl, Or.inl rfl⟩
  | cons c s =>
    rw [skipSign]
    split
    · rename_i signed
      rcases signed with rfl | rfl
      · exact ⟨[43], rfl, Or.inr (Or.inl rfl)⟩
      · exact ⟨[45], rfl, Or.inr (Or.inr rfl)⟩
    · exact ⟨[], rfl, Or.inl rfl⟩

theorem scanExponent_sound (scanned : scanExponent s = some rest) :
    ∃ exponent, s = exponent ++ rest ∧ Exponent exponent := by
  cases s with
  | nil =>
    cases scanned
    exact ⟨[], rfl, Or.inl rfl⟩
  | cons c s =>
    rw [scanExponent] at scanned
    split at scanned
    · rename_i mark
      split at scanned
      · rename_i starts
        cases scanned
        obtain ⟨sign, whole, signs⟩ := skipSign_sound s
        obtain ⟨digits, split, valid, _⟩ := digits_sound starts
        refine ⟨c :: (sign ++ digits), ?_, Or.inr ⟨c, sign, digits, rfl, mark, signs, valid⟩⟩
        rw [List.cons_append, List.append_assoc, ← split, ← whole]
      · cases scanned
    · cases scanned
      exact ⟨[], rfl, Or.inl rfl⟩

theorem scanFraction_sound (scanned : scanFraction s = some rest) :
    ∃ fraction exponent, s = fraction ++ (exponent ++ rest) ∧ Fraction fraction ∧
      Exponent exponent := by
  cases s with
  | nil =>
    cases scanned
    exact ⟨[], [], rfl, Or.inl rfl, Or.inl rfl⟩
  | cons c s =>
    rw [scanFraction] at scanned
    split at scanned
    · rename_i point
      subst point
      split at scanned
      · rename_i starts
        obtain ⟨digits, split, valid, _⟩ := digits_sound starts
        obtain ⟨exponent, whole, exponents⟩ := scanExponent_sound scanned
        refine ⟨46 :: digits, exponent, ?_, Or.inr ⟨digits, rfl, valid⟩, exponents⟩
        rw [List.cons_append, ← whole, ← split]
      · cases scanned
    · obtain ⟨exponent, whole, exponents⟩ := scanExponent_sound scanned
      exact ⟨[], exponent, whole, Or.inl rfl, exponents⟩

theorem scanInteger_sound (scanned : scanInteger s = some rest) :
    ∃ int fraction exponent, s = int ++ (fraction ++ (exponent ++ rest)) ∧ IntPart int ∧
      Fraction fraction ∧ Exponent exponent := by
  cases s with
  | nil => cases scanned
  | cons c s =>
    rw [scanInteger] at scanned
    split at scanned
    · rename_i zero
      subst zero
      obtain ⟨fraction, exponent, rfl, fractions, exponents⟩ := scanFraction_sound scanned
      exact ⟨[48], fraction, exponent, rfl, Or.inl rfl, fractions, exponents⟩
    · rename_i other
      split at scanned
      · rename_i digit
        obtain ⟨digits, split, valid, head⟩ := digits_sound (s := c :: s) digit
        rw [List.dropWhile_cons_of_pos digit] at split
        obtain ⟨fraction, exponent, whole, fractions, exponents⟩ := scanFraction_sound scanned
        refine ⟨digits, fraction, exponent, ?_, Or.inr ⟨valid, ?_⟩, fractions, exponents⟩
        · rw [← whole, ← split]
        · rw [head]
          exact fun zero => other (Option.some.inj zero)
      · cases scanned

theorem scanNumber_sound (scanned : scanNumber s = some rest) :
    ∃ token, s = token ++ rest ∧ Number token := by
  obtain ⟨int, fraction, exponent, whole, ints, fractions, exponents⟩ :=
    scanInteger_sound (s := skipMinus s) scanned
  have sign : ∃ sign, s = sign ++ skipMinus s ∧ (sign = [] ∨ sign = [45]) := by
    cases s with
    | nil => exact ⟨[], rfl, Or.inl rfl⟩
    | cons c s =>
      rw [skipMinus]
      split
      · rename_i minus
        exact ⟨[45], by rw [minus]; rfl, Or.inr rfl⟩
      · exact ⟨[], rfl, Or.inl rfl⟩
  obtain ⟨sign, split, signs⟩ := sign
  refine ⟨sign ++ (int ++ (fraction ++ exponent)), ?_, sign, int, fraction, exponent, rfl, signs,
    ints, fractions, exponents⟩
  rw [split, whole]
  simp only [List.append_assoc]

theorem parseNumber_sound {v : DictValue} (read : parseNumberValue strtod s = .ok (v, rest)) :
    ∃ token, s = token ++ rest ∧ Number token := by
  unfold parseNumberValue at read
  split at read
  · cases read
  rename_i num rest' same
  cases read
  unfold dictParseNumber at same
  split at same
  · cases same
  rename_i rest' scanned
  apply scanNumber_sound
  dsimp only at same
  split at same
  · cases same
  split at same
  · cases same
  split at same
  · cases same
  cases same
  exact scanned

theorem literal_sound {literal : Bytes} (read : dictParseLiteral literal s = some rest) :
    s = literal ++ rest := by
  unfold dictParseLiteral at read
  split at read
  · rename_i first
    cases read
    exact (List.prefix_iff_eq_append.mp first).symm
  · cases read

theorem parseLiteral_sound {v : DictValue} (read : parseLiteralValue s = .ok (v, rest)) :
    ∃ token tree, s = token ++ rest ∧ Value Commented token tree := by
  unfold parseLiteralValue at read
  split at read
  · rename_i same
    cases read
    exact ⟨boolText true, _, literal_sound same, .bool true⟩
  split at read
  · rename_i same
    cases read
    exact ⟨boolText false, _, literal_sound same, .bool false⟩
  split at read
  · rename_i same
    cases read
    exact ⟨nullText, _, literal_sound same, .null⟩
  · cases read

/-- A value and the space in front of it stand in front of `rest`. -/
def IsValue (s rest : Bytes) : Prop :=
  ∃ before token tree, s = before ++ (token ++ rest) ∧ Commented before ∧
    Value Commented token tree

/-- One text at least, with commas between them and `close` at the end. -/
def IsList (P : Text → Prop) (close : UInt8) (s rest : Bytes) : Prop :=
  ∃ texts : List Text, s = commas texts ++ close :: rest ∧ texts ≠ [] ∧ ∀ t ∈ texts, P t

def IsElement (t : Text) : Prop :=
  ∃ e : Element, e.text = t ∧ (Commented e.before ∧ Commented e.after) ∧
    Value Commented e.token e.tree

def IsMember (t : Text) : Prop :=
  ∃ m : Member, m.text = t ∧
    (Commented m.before ∧ Commented m.beforeColon ∧ Commented m.value.before ∧
      Commented m.value.after) ∧
    (∀ c ∈ m.key, c.Valid) ∧ Value Commented m.value.token m.value.tree

/-- What is behind a value is closed as well. -/
theorem IsValue.closed (h : IsValue s rest) : Closed s ↔ Closed rest := by
  obtain ⟨before, token, tree, rfl, spaced, value⟩ := h
  rw [closed_space spaced, Closed, Closed, scan_append, value.scan]

theorem IsElement.after_space {t : Text} (spaced : Commented space) (h : IsElement t) :
    IsElement (space ++ t) := by
  obtain ⟨e, rfl, ⟨before, after⟩, value⟩ := h
  refine ⟨{ e with before := space ++ e.before }, ?_, ⟨spaced.append before, after⟩, value⟩
  exact List.append_assoc _ _ _

theorem IsMember.after_space {t : Text} (spaced : Commented space) (h : IsMember t) :
    IsMember (space ++ t) := by
  obtain ⟨m, rfl, ⟨before, others⟩, key, value⟩ := h
  refine ⟨{ m with before := space ++ m.before }, ?_, ⟨spaced.append before, others⟩, key, value⟩
  exact List.append_assoc _ _ _

section

variable {P : Text → Prop} {close : UInt8} {t : Text}

theorem IsList.one (h : P t) : IsList P close (t ++ close :: rest) rest := by
  refine ⟨[t], by rw [commas_singleton], List.cons_ne_nil _ _, ?_⟩
  intro t' listed
  rw [List.mem_singleton.mp listed]
  exact h

theorem IsList.cons (h : P t) (more : IsList P close s rest) :
    IsList P close (t ++ 44 :: s) rest := by
  obtain ⟨texts, rfl, nonempty, each⟩ := more
  obtain ⟨next, texts, rfl⟩ := List.exists_cons_of_ne_nil nonempty
  refine ⟨t :: next :: texts, ?_, List.cons_ne_nil _ _, List.forall_mem_cons.mpr ⟨h, each⟩⟩
  rw [commas_cons, List.append_assoc, List.cons_append]

theorem IsList.ne_nil (h : IsList P close s rest) : s ≠ [] := by
  obtain ⟨texts, rfl, _⟩ := h
  exact List.append_ne_nil_of_right_ne_nil _ (List.cons_ne_nil _ _)

/-- Space goes to the first text. -/
theorem IsList.after_space (h : IsList P close s rest) (extend : ∀ t, P t → P (space ++ t)) :
    IsList P close (space ++ s) rest := by
  obtain ⟨texts, rfl, nonempty, each⟩ := h
  obtain ⟨t, texts, rfl⟩ := List.exists_cons_of_ne_nil nonempty
  obtain ⟨first, each⟩ := List.forall_mem_cons.mp each
  refine ⟨(space ++ t) :: texts, ?_, List.cons_ne_nil _ _,
    List.forall_mem_cons.mpr ⟨extend t first, each⟩⟩
  cases texts with
  | nil => rw [commas_singleton, commas_singleton, List.append_assoc]
  | cons next texts => simp only [commas_cons, List.append_assoc]

end

/-- The texts of a list come from a list of elements. -/
theorem texts_of {α : Type} {f : α → Text} {Q : α → Prop} {texts : List Text}
    (each : ∀ t ∈ texts, ∃ a, f a = t ∧ Q a) : ∃ l : List α, l.map f = texts ∧ ∀ a ∈ l, Q a := by
  induction texts with
  | nil => exact ⟨[], rfl, fun _ listed => nomatch listed⟩
  | cons t texts ih =>
    obtain ⟨⟨a, rfl, valid⟩, others⟩ := List.forall_mem_cons.mp each
    obtain ⟨l, rfl, valid'⟩ := ih others
    exact ⟨a :: l, rfl, List.forall_mem_cons.mpr ⟨valid, valid'⟩⟩

theorem IsList.array (h : IsList IsElement 93 s rest) :
    ∃ token tree, 91 :: s = token ++ rest ∧ Value Commented token tree := by
  obtain ⟨texts, rfl, nonempty, each⟩ := h
  obtain ⟨elements, rfl, valid⟩ := texts_of each
  refine ⟨91 :: (commas (elements.map Element.text) ++ [93]), .array (elements.map Element.tree), ?_,
    .array ?_ (fun e listed => (valid e listed).1) fun e listed => (valid e listed).2⟩
  · rw [List.cons_append, List.append_assoc]
    rfl
  · rintro rfl
    exact nonempty rfl

theorem IsList.object (h : IsList IsMember 125 s rest) :
    ∃ token tree, 123 :: s = token ++ rest ∧ Value Commented token tree := by
  obtain ⟨texts, rfl, nonempty, each⟩ := h
  obtain ⟨members, rfl, valid⟩ := texts_of each
  refine ⟨123 :: (commas (members.map Member.text) ++ [125]), .object (members.map Member.tree), ?_,
    .object ?_ (fun m listed => (valid m listed).1) (fun m listed => (valid m listed).2.1)
      fun m listed => (valid m listed).2.2⟩
  · rw [List.cons_append, List.append_assoc]
    rfl
  · rintro rfl
    exact nonempty rfl

/-- What the parsers take with `fuel`; the induction is over all of them together. -/
structure Sound (strtod : Strtod) (fuel : Nat) : Prop where
  value : ∀ s v rest, Closed s → dictParseValue strtod fuel s = .ok (v, rest) → IsValue s rest
  array : ∀ s v rest, Closed s → dictParseArray strtod fuel s = .ok (v, rest) →
    ∃ token tree, s = token ++ rest ∧ Value Commented token tree
  elements : ∀ s items v rest, Closed s → arrayLoop strtod fuel s items = .ok (v, rest) →
    IsList IsElement 93 s rest
  object : ∀ s v rest, Closed s → dictParseObject strtod fuel s = .ok (v, rest) →
    ∃ token tree, s = token ++ rest ∧ Value Commented token tree
  members : ∀ s obj v rest, Closed s → objectLoop strtod fuel s obj = .ok (v, rest) →
    IsList IsMember 125 s rest

theorem skip_cons (closed : Closed s) (next : dictParserSkipWhitespace s = c :: rest) :
    (∃ space, s = space ++ c :: rest ∧ Commented space) ∧ Closed (c :: rest) := by
  have found := skip_nonempty closed (by rw [next]; exact List.cons_ne_nil _ _)
  rw [next] at found
  exact found

theorem skip_twice (closed : Closed s)
    (next : dictParserSkipWhitespace (dictParserSkipWhitespace s) = c :: rest) :
    (∃ space, s = space ++ c :: rest ∧ Commented space) ∧ Closed (c :: rest) := by
  have nonempty : dictParserSkipWhitespace s ≠ [] := by
    intro empty
    rw [empty] at next
    cases next
  obtain ⟨⟨space, whole, spaced⟩, closed⟩ := skip_nonempty closed nonempty
  obtain ⟨⟨space', whole', spaced'⟩, closed⟩ := skip_cons closed next
  refine ⟨⟨space ++ space', ?_, spaced.append spaced'⟩, closed⟩
  rw [List.append_assoc, ← whole', ← whole]

theorem value_step {fuel : Nat} (sound : Sound strtod fuel) {v : DictValue} (closed : Closed s)
    (read : dictParseValue strtod (fuel + 1) s = .ok (v, rest)) : IsValue s rest := by
  rw [dictParseValue] at read
  split at read
  · cases read
  rename_i c t next
  obtain ⟨⟨space, rfl, spaced⟩, closed'⟩ := skip_cons closed next
  have found {token : Bytes} {tree : Json} (whole : c :: t = token ++ rest)
      (value : Value Commented token tree) : IsValue (space ++ c :: t) rest :=
    ⟨space, token, tree, by rw [whole], spaced, value⟩
  split at read
  · obtain ⟨chars, whole, valid⟩ := parseString_sound read
    exact found whole (.string valid)
  split at read
  · obtain ⟨token, tree, whole, value⟩ := sound.object _ _ _ closed' read
    exact found whole value
  split at read
  · obtain ⟨token, tree, whole, value⟩ := sound.array _ _ _ closed' read
    exact found whole value
  split at read
  · obtain ⟨token, whole, valid⟩ := parseNumber_sound read
    exact found whole (.number valid)
  · obtain ⟨token, tree, whole, value⟩ := parseLiteral_sound read
    exact found whole value

/-- A list behind skipped space. -/
theorem IsList.of_skipped {P : Text → Prop} {close : UInt8} (closed : Closed s)
    (extend : ∀ space t, Commented space → P t → P (space ++ t))
    (found : Closed (dictParserSkipWhitespace s) →
      IsList P close (dictParserSkipWhitespace s) rest) : IsList P close s rest := by
  cases next : dictParserSkipWhitespace s with
  | nil =>
    rw [next] at found
    exact absurd rfl (found ⟨nofun, nofun⟩).ne_nil
  | cons c t =>
    rw [next] at found
    obtain ⟨⟨space, rfl, spaced⟩, closed'⟩ := skip_cons closed next
    exact (found closed').after_space fun t => extend space t spaced

theorem array_step {fuel : Nat} (sound : Sound strtod fuel) {v : DictValue} (closed : Closed s)
    (read : dictParseArray strtod (fuel + 1) s = .ok (v, rest)) :
    ∃ token tree, s = token ++ rest ∧ Value Commented token tree := by
  unfold dictParseArray at read
  split at read
  · rename_i fuel' s same
    cases same
    rw [closed_cons (by decide) (by decide)] at closed
    split at read
    · rename_i next
      cases read
      obtain ⟨⟨space, rfl, spaced⟩, _⟩ := skip_twice closed next
      refine ⟨91 :: (space ++ [93]), _, ?_, .emptyArray spaced⟩
      rw [List.cons_append, List.append_assoc]
      rfl
    · apply IsList.array
      apply IsList.of_skipped closed fun _ _ => IsElement.after_space
      intro closed'
      apply IsList.of_skipped closed' fun _ _ => IsElement.after_space
      intro closed'
      exact sound.elements _ _ _ _ closed' read
  · cases read

theorem object_step {fuel : Nat} (sound : Sound strtod fuel) {v : DictValue} (closed : Closed s)
    (read : dictParseObject strtod (fuel + 1) s = .ok (v, rest)) :
    ∃ token tree, s = token ++ rest ∧ Value Commented token tree := by
  unfold dictParseObject at read
  split at read
  · rename_i fuel' s same
    cases same
    rw [closed_cons (by decide) (by decide)] at closed
    split at read
    · rename_i next
      cases read
      obtain ⟨⟨space, rfl, spaced⟩, _⟩ := skip_twice closed next
      refine ⟨123 :: (space ++ [125]), _, ?_, .emptyObject spaced⟩
      rw [List.cons_append, List.append_assoc]
      rfl
    · apply IsList.object
      apply IsList.of_skipped closed fun _ _ => IsMember.after_space
      intro closed'
      apply IsList.of_skipped closed' fun _ _ => IsMember.after_space
      intro closed'
      exact sound.members _ _ _ _ closed' read
  · cases read

theorem elements_step {fuel : Nat} (sound : Sound strtod fuel) {items : List DictValue}
    {v : DictValue} (closed : Closed s)
    (read : arrayLoop strtod (fuel + 1) s items = .ok (v, rest)) :
    IsList IsElement 93 s rest := by
  rw [arrayLoop_succ] at read
  split at read
  · cases read
  rename_i item s' first
  have value := sound.value _ _ _ closed first
  have closed' := value.closed.mp closed
  split at read
  · cases read
  rename_i c t next
  obtain ⟨⟨after, rfl, spaced⟩, closed''⟩ := skip_cons closed' next
  obtain ⟨before, token, tree, rfl, spaced', value⟩ := value
  have element : IsElement (before ++ (token ++ after)) :=
    ⟨⟨before, token, after, tree⟩, rfl, ⟨spaced', spaced⟩, value⟩
  have whole : before ++ (token ++ (after ++ c :: t)) = before ++ (token ++ after) ++ c :: t := by
    simp only [List.append_assoc]
  rw [whole]
  split at read
  · rename_i comma
    subst comma
    rw [closed_cons (by decide) (by decide)] at closed''
    apply IsList.cons element
    apply IsList.of_skipped closed'' fun _ _ => IsElement.after_space
    intro closed
    exact sound.elements _ _ _ _ closed read
  split at read
  · rename_i bracket
    subst bracket
    cases read
    exact .one element
  · cases read

/-- A value behind skipped space. -/
theorem IsValue.of_skipped (closed : Closed s)
    (found : Closed (dictParserSkipWhitespace s) → IsValue (dictParserSkipWhitespace s) rest) :
    IsValue s rest := by
  have nonempty : dictParserSkipWhitespace s ≠ [] := by
    intro empty
    rw [empty] at found
    obtain ⟨before, token, tree, whole, _, value⟩ := found ⟨nofun, nofun⟩
    obtain ⟨c, t, rfl, _⟩ := value_head value
    simp at whole
  obtain ⟨⟨space, whole, spaced⟩, closed'⟩ := skip_nonempty closed nonempty
  obtain ⟨before, token, tree, whole', spaced', value⟩ := found closed'
  refine ⟨space ++ before, token, tree, ?_, spaced.append spaced', value⟩
  rw [List.append_assoc, ← whole', ← whole]

/-- A key and its colon. -/
theorem key_sound {key t : Bytes} (closed : Closed s) (read : dictParseJsonString s = .ok (key, t))
    (colon : dictParserSkipWhitespace t = 58 :: rest) :
    ∃ chars beforeColon, s = stringText chars ++ (beforeColon ++ 58 :: rest) ∧
      (∀ c ∈ chars, c.Valid) ∧ Commented beforeColon ∧ Closed rest := by
  obtain ⟨chars, rfl, valid⟩ := jsonString_sound read
  rw [Closed, scan_append, scan_stringText valid] at closed
  obtain ⟨⟨beforeColon, rfl, spaced⟩, closed'⟩ := skip_cons closed colon
  rw [closed_cons (by decide) (by decide)] at closed'
  exact ⟨chars, beforeColon, rfl, valid, spaced, closed'⟩

theorem members_step {fuel : Nat} (sound : Sound strtod fuel) {obj v : DictValue}
    (closed : Closed s) (read : objectLoop strtod (fuel + 1) s obj = .ok (v, rest)) :
    IsList IsMember 125 s rest := by
  rw [objectLoop_succ] at read
  split at read
  · cases read
  rename_i c t next
  obtain ⟨⟨before, rfl, spaced⟩, opened⟩ := skip_cons closed next
  split at read
  · cases read
  split at read
  · cases read
  rename_i key s quoted
  split at read
  · cases read
  rename_i c' t' colon
  split at read
  · cases read
  rename_i same
  rw [not_not] at same
  subst same
  obtain ⟨chars, beforeColon, whole, valid, spaced', closed'⟩ := key_sound opened quoted colon
  split at read
  · cases read
  rename_i item s' first
  have value := IsValue.of_skipped closed' fun closed => sound.value _ _ _ closed first
  rw [value.closed] at closed'
  split at read
  · cases read
  split at read
  · cases read
  rename_i c'' t'' separator
  obtain ⟨⟨after, rfl, spaced''⟩, closed''⟩ := skip_cons closed' separator
  obtain ⟨valueBefore, token, tree, rfl, valueSpaced, value⟩ := value
  have member : IsMember (before ++ (stringText chars ++ (beforeColon ++
      58 :: (valueBefore ++ (token ++ after))))) :=
    ⟨⟨before, chars, beforeColon, ⟨valueBefore, token, after, tree⟩⟩, rfl,
      ⟨spaced, spaced', valueSpaced, spaced''⟩, valid, value⟩
  have split : before ++ c :: t = before ++ (stringText chars ++ (beforeColon ++
      58 :: (valueBefore ++ (token ++ after)))) ++ c'' :: t'' := by
    rw [whole]
    simp only [List.append_assoc, List.cons_append]
  rw [split]
  split at read
  · rename_i comma
    subst comma
    rw [closed_cons (by decide) (by decide)] at closed''
    exact .cons member (sound.members _ _ _ _ closed'' read)
  split at read
  · rename_i brace
    subst brace
    cases read
    exact .one member
  · cases read

theorem sound (fuel : Nat) : Sound strtod fuel := by
  induction fuel with
  | zero =>
    constructor
    · intro s v rest _ read
      cases read
    · intro s v rest _ read
      cases read
    · intro s items v rest _ read
      cases read
    · intro s v rest _ read
      cases read
    · intro s obj v rest _ read
      cases read
  | succ fuel ih =>
    constructor
    · intro s v rest closed read
      exact value_step ih closed read
    · intro s v rest closed read
      exact array_step ih closed read
    · intro s items v rest closed read
      exact elements_step ih closed read
    · intro s v rest closed read
      exact object_step ih closed read
    · intro s obj v rest closed read
      exact members_step ih closed read

/-- What the reader takes is in the grammar when no block comment is open at its end. -/
theorem deserialize_derivable {buffer : Bytes} {contentLen : Nat} {v : DictValue}
    (read : dictDeserializeJson strtod buffer contentLen = .ok v)
    (closed : Closed (buffer.take contentLen)) :
    ∃ tree, CommentedText (buffer.take contentLen) tree := by
  unfold dictDeserializeJson at read
  split at read
  · cases read
  dsimp only at read
  split at read
  · cases read
  rename_i result rest first
  split at read
  · cases read
  rename_i ends
  rw [not_not] at ends
  have value := IsValue.of_skipped closed fun closed => (sound _).value _ _ _ closed first
  rw [value.closed] at closed
  obtain ⟨before, token, tree, whole, spaced, value⟩ := value
  rw [whole]
  rcases skip_sound closed with ⟨after, same, spaced'⟩ | ⟨_, after, last, rfl, spaced', line⟩
  · rw [ends, List.append_nil] at same
    subst same
    exact ⟨tree, before, token, rest, [], by rw [List.append_nil], spaced, value, spaced', Or.inl rfl⟩
  · exact ⟨tree, before, token, after, last, rfl, spaced, value, spaced', line⟩

/-- Of the texts that the reader takes, those are JSON with comments that leave no block
comment open. -/
theorem dictDeserializeJson_sound_iff (strtod : Strtod) (buffer : Bytes) (contentLen : Nat)
    (v : DictValue) (read : dictDeserializeJson strtod buffer contentLen = .ok v) :
    (∃ tree, CommentedText (buffer.take contentLen) tree) ↔ Closed (buffer.take contentLen) := by
  constructor
  · rintro ⟨tree, derived⟩
    exact derived.closed
  · exact deserialize_derivable read

/-- `strtod` where no number is. -/
def noNumber : Strtod := ⟨fun _ => 0, fun _ => 0⟩

/-- `null/**/` -/
theorem dictDeserializeJson_sound_sample :
    ∃ tree, CommentedText [110, 117, 108, 108, 47, 42, 42, 47] tree := by
  have read : dictDeserializeJson noNumber [110, 117, 108, 108, 47, 42, 42, 47, 0] 8 =
      .ok .null := by rfl
  exact (dictDeserializeJson_sound_iff noNumber _ _ _ read).mpr (by decide)

/-- `[true /*]` is taken: the bracket in the open comment ends the array. -/
theorem dictDeserializeJson_unsound : ¬∀ strtod buffer contentLen v,
    dictDeserializeJson strtod buffer contentLen = .ok v →
      ∃ tree, CommentedText (buffer.take contentLen) tree := by
  intro sound
  have read : dictDeserializeJson noNumber [91, 116, 114, 117, 101, 32, 47, 42, 93, 0] 9 =
      .ok (.array [.bool true]) := by rfl
  obtain ⟨tree, derived⟩ := sound _ _ _ _ read
  exact absurd derived.closed (by decide)

/-- The parsers leave no more than there was, so the fuel that goes with the length of a
text is enough. -/
theorem skipLoop_length (n : Nat) (s : Bytes) : (skipLoop n s).length ≤ s.length := by
  induction n generalizing s with
  | zero => exact Nat.le_refl _
  | succ n ih =>
    cases s with
    | nil => exact Nat.le_refl _
    | cons c s =>
      rw [skipLoop_cons]
      split
      · exact Nat.le_succ_of_le (ih s)
      split
      · cases s with
        | nil => exact Nat.le_refl _
        | cons d rest =>
          have line := (ih (skipLine rest)).trans (skipLine_length rest)
          have block := (ih (skipBlock rest)).trans (skipBlock_length rest)
          dsimp only
          split
          · simp only [List.length_cons]
            omega
          split
          · simp only [List.length_cons]
            omega
          · exact Nat.le_refl _
      · exact Nat.le_refl _

theorem skip_length (s : Bytes) : (dictParserSkipWhitespace s).length ≤ s.length :=
  skipLoop_length _ s

theorem skip_cons_length {t : Bytes} (next : dictParserSkipWhitespace s = c :: t) :
    t.length < s.length := by
  have length := skip_length s
  rw [next] at length
  exact length

/-- What the parsers leave. -/
structure Shorter (strtod : Strtod) (fuel : Nat) : Prop where
  value : ∀ s v rest, dictParseValue strtod fuel s = .ok (v, rest) → rest.length ≤ s.length
  array : ∀ s v rest, dictParseArray strtod fuel s = .ok (v, rest) → rest.length ≤ s.length
  elements : ∀ s items v rest, arrayLoop strtod fuel s items = .ok (v, rest) →
    rest.length ≤ s.length
  object : ∀ s v rest, dictParseObject strtod fuel s = .ok (v, rest) → rest.length ≤ s.length
  members : ∀ s obj v rest, objectLoop strtod fuel s obj = .ok (v, rest) → rest.length ≤ s.length

theorem value_shorter {fuel : Nat} (shorter : Shorter strtod fuel) {v : DictValue}
    (read : dictParseValue strtod (fuel + 1) s = .ok (v, rest)) : rest.length ≤ s.length := by
  rw [dictParseValue] at read
  split at read
  · cases read
  rename_i c t next
  have length := skip_cons_length next
  have found {token : Bytes} (whole : c :: t = token ++ rest) : rest.length ≤ s.length := by
    have same := congrArg List.length whole
    rw [List.length_cons, List.length_append] at same
    omega
  have part (le : rest.length ≤ (c :: t).length) : rest.length ≤ s.length := le.trans length
  split at read
  · obtain ⟨chars, whole, _⟩ := parseString_sound read
    exact found whole
  split at read
  · exact part (shorter.object _ _ _ read)
  split at read
  · exact part (shorter.array _ _ _ read)
  split at read
  · obtain ⟨token, whole, _⟩ := parseNumber_sound read
    exact found whole
  · obtain ⟨token, tree, whole, _⟩ := parseLiteral_sound read
    exact found whole

theorem array_shorter {fuel : Nat} (shorter : Shorter strtod fuel) {v : DictValue}
    (read : dictParseArray strtod (fuel + 1) s = .ok (v, rest)) : rest.length ≤ s.length := by
  unfold dictParseArray at read
  split at read
  · rename_i fuel' s same
    cases same
    have length := (skip_length _).trans (skip_length s)
    split at read
    · rename_i next
      cases read
      rw [next] at length
      exact Nat.le_succ_of_le (Nat.le_of_succ_le length)
    · exact Nat.le_succ_of_le ((shorter.elements _ _ _ _ read).trans length)
  · cases read

theorem object_shorter {fuel : Nat} (shorter : Shorter strtod fuel) {v : DictValue}
    (read : dictParseObject strtod (fuel + 1) s = .ok (v, rest)) : rest.length ≤ s.length := by
  unfold dictParseObject at read
  split at read
  · rename_i fuel' s same
    cases same
    have length := (skip_length _).trans (skip_length s)
    split at read
    · rename_i next
      cases read
      rw [next] at length
      exact Nat.le_succ_of_le (Nat.le_of_succ_le length)
    · exact Nat.le_succ_of_le ((shorter.members _ _ _ _ read).trans length)
  · cases read

theorem elements_shorter {fuel : Nat} (shorter : Shorter strtod fuel) {items : List DictValue}
    {v : DictValue} (read : arrayLoop strtod (fuel + 1) s items = .ok (v, rest)) :
    rest.length ≤ s.length := by
  rw [arrayLoop_succ] at read
  split at read
  · cases read
  rename_i item s' first
  have value := shorter.value _ _ _ first
  split at read
  · cases read
  rename_i c t next
  have behind := skip_cons_length next
  split at read
  · have later := (shorter.elements _ _ _ _ read).trans (skip_length t)
    omega
  split at read
  · cases read
    omega
  · cases read

theorem members_shorter {fuel : Nat} (shorter : Shorter strtod fuel) {obj v : DictValue}
    (read : objectLoop strtod (fuel + 1) s obj = .ok (v, rest)) : rest.length ≤ s.length := by
  rw [objectLoop_succ] at read
  split at read
  · cases read
  rename_i c t next
  have start := skip_cons_length next
  split at read
  · cases read
  split at read
  · cases read
  rename_i key s' quoted
  obtain ⟨chars, whole, _⟩ := jsonString_sound quoted
  have text := congrArg List.length whole
  rw [List.length_cons, List.length_append] at text
  split at read
  · cases read
  rename_i c' t' colon
  have behind := skip_cons_length colon
  split at read
  · cases read
  split at read
  · cases read
  rename_i item s'' first
  have value := (shorter.value _ _ _ first).trans (skip_length t')
  split at read
  · cases read
  split at read
  · cases read
  rename_i c'' t'' separator
  have last := skip_cons_length separator
  split at read
  · have later := shorter.members _ _ _ _ read
    omega
  split at read
  · cases read
    omega
  · cases read

theorem shorter (fuel : Nat) : Shorter strtod fuel := by
  induction fuel with
  | zero =>
    constructor
    · intro s v rest read
      cases read
    · intro s v rest read
      cases read
    · intro s items v rest read
      cases read
    · intro s v rest read
      cases read
    · intro s obj v rest read
      cases read
  | succ fuel ih =>
    constructor
    · intro s v rest read
      exact value_shorter ih read
    · intro s v rest read
      exact array_shorter ih read
    · intro s items v rest read
      exact elements_shorter ih read
    · intro s v rest read
      exact object_shorter ih read
    · intro s obj v rest read
      exact members_shorter ih read

/-- With `n` and with `m` the parsers do the same on the texts that `n` is enough for. -/
structure SameFuel (strtod : Strtod) (n m : Nat) : Prop where
  value : ∀ s, 3 * s.length + 1 ≤ n → dictParseValue strtod n s = dictParseValue strtod m s
  array : ∀ s, 3 * s.length ≤ n → dictParseArray strtod n s = dictParseArray strtod m s
  elements : ∀ s items, 3 * s.length + 2 ≤ n →
    arrayLoop strtod n s items = arrayLoop strtod m s items
  object : ∀ s, 3 * s.length ≤ n → dictParseObject strtod n s = dictParseObject strtod m s
  members : ∀ s obj, 3 * s.length + 2 ≤ n →
    objectLoop strtod n s obj = objectLoop strtod m s obj

theorem elements_fuel {n m : Nat} (same : SameFuel strtod n m) (items : List DictValue)
    (enough : 3 * s.length + 2 ≤ n + 1) :
    arrayLoop strtod (n + 1) s items = arrayLoop strtod (m + 1) s items := by
  rw [arrayLoop_succ, arrayLoop_succ, ← same.value s (by omega)]
  cases first : dictParseValue strtod n s with
  | error e => rfl
  | ok result =>
    obtain ⟨item, s'⟩ := result
    have value := (shorter n).value _ _ _ first
    dsimp only
    cases next : dictParserSkipWhitespace s' with
    | nil => rfl
    | cons c t =>
      have behind := skip_cons_length next
      have later := skip_length t
      dsimp only
      rw [same.elements _ _ (by omega)]

theorem members_fuel {n m : Nat} (same : SameFuel strtod n m) (obj : DictValue)
    (enough : 3 * s.length + 2 ≤ n + 1) :
    objectLoop strtod (n + 1) s obj = objectLoop strtod (m + 1) s obj := by
  rw [objectLoop_succ, objectLoop_succ]
  cases next : dictParserSkipWhitespace s with
  | nil => rfl
  | cons c t =>
    have start := skip_cons_length next
    dsimp only
    cases quoted : dictParseJsonString (c :: t) with
    | error e => rfl
    | ok result =>
      obtain ⟨key, s'⟩ := result
      obtain ⟨chars, whole, _⟩ := jsonString_sound quoted
      have text := congrArg List.length whole
      rw [List.length_cons, List.length_append] at text
      dsimp only
      cases colon : dictParserSkipWhitespace s' with
      | nil => rfl
      | cons c' t' =>
        have behind := skip_cons_length colon
        have front := skip_length t'
        dsimp only
        rw [← same.value (dictParserSkipWhitespace t') (by omega)]
        cases first : dictParseValue strtod n (dictParserSkipWhitespace t') with
        | error e => rfl
        | ok result =>
          obtain ⟨item, s''⟩ := result
          have value := (shorter n).value _ _ _ first
          dsimp only
          cases dictObjectSet obj key item with
          | none => rfl
          | some obj' =>
            dsimp only
            cases separator : dictParserSkipWhitespace s'' with
            | nil => rfl
            | cons c'' t'' =>
              have last := skip_cons_length separator
              dsimp only
              rw [same.members _ _ (by omega)]

theorem array_fuel {n m : Nat} (same : SameFuel strtod n m) (enough : 3 * s.length ≤ n + 1) :
    dictParseArray strtod (n + 1) s = dictParseArray strtod (m + 1) s := by
  unfold dictParseArray
  split
  · rename_i fuel s more
    cases more
    have length := (skip_length _).trans (skip_length s)
    rw [List.length_cons] at enough
    generalize dictParserSkipWhitespace (dictParserSkipWhitespace s) = t at length
    split
    · rfl
    · exact same.elements _ _ (by omega)
  · rename_i other
    split
    · rename_i fuel s more
      cases more
      exact absurd rfl (other n s rfl)
    · rfl

theorem object_fuel {n m : Nat} (same : SameFuel strtod n m) (enough : 3 * s.length ≤ n + 1) :
    dictParseObject strtod (n + 1) s = dictParseObject strtod (m + 1) s := by
  unfold dictParseObject
  split
  · rename_i fuel s more
    cases more
    have length := (skip_length _).trans (skip_length s)
    rw [List.length_cons] at enough
    generalize dictParserSkipWhitespace (dictParserSkipWhitespace s) = t at length
    split
    · rfl
    · exact same.members _ _ (by omega)
  · rename_i other
    split
    · rename_i fuel s more
      cases more
      exact absurd rfl (other n s rfl)
    · rfl

theorem value_fuel {n m : Nat} (same : SameFuel strtod n m) (enough : 3 * s.length + 1 ≤ n + 1) :
    dictParseValue strtod (n + 1) s = dictParseValue strtod (m + 1) s := by
  rw [dictParseValue, dictParseValue]
  cases next : dictParserSkipWhitespace s with
  | nil => rfl
  | cons c t =>
    have length := skip_cons_length next
    have part : 3 * (c :: t).length ≤ n := by
      rw [List.length_cons]
      omega
    dsimp only
    rw [same.object _ part, same.array _ part]

theorem sameFuel {n m : Nat} (le : n ≤ m) : SameFuel strtod n m := by
  induction n generalizing m with
  | zero =>
    constructor
    · intro s enough
      cases enough
    · intro s enough
      rw [List.eq_nil_of_length_eq_zero (show s.length = 0 by omega)]
      cases m <;> rfl
    · intro s items enough
      cases enough
    · intro s enough
      rw [List.eq_nil_of_length_eq_zero (show s.length = 0 by omega)]
      cases m <;> rfl
    · intro s obj enough
      cases enough
  | succ n ih =>
    obtain ⟨m, rfl⟩ := Nat.exists_eq_succ_of_ne_zero (Nat.ne_of_gt (Nat.zero_lt_of_lt le))
    have same := ih (Nat.le_of_succ_le_succ le)
    constructor
    · intro s enough
      exact value_fuel same enough
    · intro s enough
      exact array_fuel same enough
    · intro s items enough
      exact elements_fuel same items enough
    · intro s enough
      exact object_fuel same enough
    · intro s obj enough
      exact members_fuel same obj enough

/-- More fuel than goes with the length makes no difference. -/
theorem parseFuel_enough (strtod : Strtod) (s : Bytes) {fuel : Nat} (le : parseFuel s ≤ fuel) :
    dictParseValue strtod fuel s = dictParseValue strtod (parseFuel s) s :=
  ((sameFuel le).value s (Nat.le_refl _)).symm

end JsonSoundness
