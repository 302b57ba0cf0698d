import NanoProxy.JsonReads

/-!
# The JSON reader stays in its content and comes to an end

Every function of the reader is compared with the one on lists: `text` is the content from a
position on.
-/

namespace JsonBounds

open CLib Dict JsonReads Traced Traced.Run

variable {mem : Nat → UInt8} {len errorLen : Nat}

def text (mem : Nat → UInt8) (len pos : Nat) : Bytes := window mem pos (len - pos)

theorem text_cons {pos : Nat} (more : pos < len) :
    text mem len pos = mem pos :: text mem len (pos + 1) := by
  rw [text, window_cons (Nat.sub_pos_of_lt more), Nat.sub_sub, text]

theorem text_end {pos : Nat} (ended : len ≤ pos) : text mem len pos = [] := by
  rw [text, Nat.sub_eq_zero_of_le ended, window]

@[simp] theorem text_length (pos : Nat) : (text mem len pos).length = len - pos :=
  window_length pos _

theorem text_drop (pos k : Nat) : (text mem len pos).drop k = text mem len (pos + k) := by
  rw [text, window_drop, Nat.sub_sub, text]

/-- Positions in the content are told by what is left. -/
theorem text_eq_nil {pos : Nat} : text mem len pos = [] ↔ len ≤ pos := by
  rw [← List.length_eq_zero_iff, text_length, Nat.sub_eq_zero_iff_le]

section Errors

theorem findPlace_meets {left i : Nat} (p : Place) (inside : i + left ≤ len) :
    Meets (findPlace mem left i p) (Bounded len) fun _ => True := by
  induction left generalizing i p with
  | zero => exact Meets.pure trivial
  | succ left ih =>
    have here : i < len := by omega
    exact Meets.step_bind here (ih _ (by omega))

theorem endOfLine_meets {left i : Nat} (inside : left = 0 ∨ i + left ≤ len) :
    Meets (endOfLine mem left i) (Bounded len) fun e => i ≤ e ∧ e ≤ i + left := by
  induction left generalizing i with
  | zero => exact Meets.pure ⟨Nat.le_refl i, Nat.le_refl i⟩
  | succ left ih =>
    have here : i < len := by omega
    refine Meets.step_bind here ?_
    split
    · exact Meets.pure ⟨Nat.le_refl i, by omega⟩
    · exact (ih (i := i + 1) (by omega)).imp fun e h => by omega

theorem skipLines_meets {left i after : Nat} (inside : left = 0 ∨ i + left ≤ len) :
    Meets (skipLines mem left i after) (Bounded len) fun _ => True := by
  induction left generalizing i after with
  | zero => exact Meets.pure trivial
  | succ left ih =>
    unfold skipLines
    split
    · exact Meets.pure trivial
    split
    · exact Meets.pure trivial
    · have next : i + 1 < len := by omega
      exact Meets.step_bind next (ih (by omega))

theorem printed_meets {i n : Nat} (inside : i + n ≤ len) :
    Meets (printed mem i n) (Bounded len) fun _ => True := by
  induction n generalizing i with
  | zero => exact Meets.pure trivial
  | succ n ih =>
    have here : i < len := by omega
    refine Meets.step_bind here ?_
    split
    · exact Meets.pure trivial
    · exact (ih (i := i + 1) (by omega)).bind fun _ _ => Meets.pure trivial

theorem shownLength_meets {i lineLen : Nat} (inside : i + lineLen ≤ len) :
    Meets (shownLength mem i lineLen) (Bounded len) (· ≤ lineLen) := by
  unfold shownLength
  split
  · exact Meets.pure (Nat.le_refl _)
  · have last : i + lineLen - 1 < len := by omega
    refine Meets.step_bind last (Meets.pure ?_)
    split
    · exact Nat.sub_le _ _
    · exact Nat.le_refl _

/-- Every turn of the loop takes a line. -/
theorem showLines_meets {errorLine errorCol gw ctxEnd fuel curLine i rem : Nat}
    (enough : len - i < fuel) :
    Meets (showLines mem len errorLine errorCol gw ctxEnd fuel curLine i rem) (Bounded len)
      fun _ => True := by
  induction fuel generalizing curLine i rem with
  | zero => omega
  | succ fuel ih =>
    unfold showLines
    split
    · exact Meets.pure trivial
    rename_i goes
    have more : i < len := by omega
    refine (endOfLine_meets (Or.inr (by omega))).bind fun le bounds => ?_
    refine (shownLength_meets (by omega)).bind fun showLen short => ?_
    refine (printed_meets (by omega)).bind fun n _ => ih ?_
    split <;> omega

theorem dictParserError_meets (pos : Nat) :
    Meets (dictParserError mem len errorLen pos) (Bounded len) fun _ => True := by
  unfold dictParserError
  split
  · exact Meets.pure trivial
  have place : (if pos < len then pos else if 0 < len then len - 1 else 0) ≤ len := by
    split
    · omega
    · split <;> omega
  dsimp only
  refine (findPlace_meets _ (by omega)).bind fun p _ => ?_
  refine (endOfLine_meets (by omega)).bind fun lineEnd bounds => ?_
  exact (skipLines_meets (by omega)).bind fun ctxEnd _ => showLines_meets (by omega)

theorem failAt_meets {α : Type} (pos : Nat) (msg : String) :
    Meets (failAt (α := α) mem len errorLen pos msg) (Bounded len)
      (· = (.error (some msg), pos)) :=
  (dictParserError_meets pos).bind fun _ _ => Meets.pure rfl

end Errors

section Space

variable {pos : Nat}

theorem skipLine_meets {left : Nat} (inside : pos + left = len) :
    Meets (skipLine mem left pos) (Bounded len) fun pos' => pos ≤ pos' ∧ pos' ≤ len ∧
      JsonParser.skipLine (text mem len pos) = text mem len pos' := by
  induction left generalizing pos with
  | zero =>
    refine Meets.pure ⟨Nat.le_refl pos, by omega, ?_⟩
    rw [text_end (by omega)]
    rfl
  | succ left ih =>
    have here : pos < len := by omega
    refine Meets.step_bind here ?_
    rw [text_cons here, JsonParser.skipLine, List.dropWhile_cons]
    split
    · refine Meets.step_bind ⟨Nat.le_succ pos, here⟩ ?_
      have rest : pos + 1 + left = len := by omega
      refine (ih rest).imp fun pos' h => ?_
      exact ⟨by omega, h.2.1, h.2.2⟩
    · exact Meets.pure ⟨Nat.le_refl pos, Nat.le_of_lt here, (text_cons here).symm⟩

theorem closes_meets (next : pos + 1 < len) : Meets (closes mem pos) (Bounded len)
    (· = decide (mem pos = 42 ∧ mem (pos + 1) = 47)) := by
  have here : pos < len := Nat.lt_of_succ_lt next
  refine Meets.step_bind here ?_
  by_cases star : mem pos = 42
  · rw [if_pos star]
    refine Meets.step_bind next (Meets.pure ?_)
    rw [decide_eq_decide]
    exact (and_iff_right star).symm
  · rw [if_neg star]
    exact Meets.pure (decide_eq_false fun h => star h.1).symm

theorem skipMarks_meets : Meets (skipMarks len pos) (Bounded len)
    (· = if pos + 1 < len then pos + 2 else pos) := by
  unfold skipMarks
  split
  · exact Meets.step ⟨by omega, by omega⟩ rfl
  · exact Meets.pure rfl

/-- The loop stops in front of the closing marks, or where one byte is left. -/
theorem skipBlock_meets {left : Nat} (inside : pos + 1 + left = len ∨ left = 0 ∧ pos = len) :
    Meets (skipBlock mem left pos) (Bounded len) fun pos' => pos ≤ pos' ∧ pos' ≤ len ∧
      JsonParser.skipBlock (text mem len pos) =
        text mem len (if pos' + 1 < len then pos' + 2 else pos') := by
  induction left generalizing pos with
  | zero =>
    refine Meets.pure ⟨Nat.le_refl pos, by omega, ?_⟩
    rw [if_neg (by omega)]
    rcases inside with last | ⟨_, rfl⟩
    · rw [text_cons (by omega), text_end (by omega)]
      rfl
    · rw [text_end (Nat.le_refl pos)]
      rfl
  | succ left ih =>
    have here : pos < len := by omega
    have next : pos + 1 < len := by omega
    rw [text_cons here, text_cons next, JsonParser.skipBlock]
    refine (closes_meets next).bind ?_
    rintro _ rfl
    by_cases closes : mem pos = 42 ∧ mem (pos + 1) = 47
    · rw [decide_eq_true closes, if_pos rfl, if_pos closes]
      refine Meets.pure ⟨Nat.le_refl pos, Nat.le_of_lt here, ?_⟩
      rw [if_pos next]
    · rw [decide_eq_false closes, if_neg Bool.false_ne_true, if_neg closes, ← text_cons next]
      refine Meets.step_bind ⟨Nat.le_succ pos, here⟩ ?_
      have rest : pos + 1 + 1 + left = len ∨ left = 0 ∧ pos + 1 = len := by omega
      refine (ih rest).imp fun pos' h => ?_
      exact ⟨by omega, h.2.1, h.2.2⟩

/-- What the skipper does from `pos` on: it goes ahead to where the one on lists leads. -/
def Skipped (mem : Nat → UInt8) (len pos pos' : Nat) : Prop :=
  pos ≤ pos' ∧ pos' ≤ len ∧
    JsonParser.dictParserSkipWhitespace (text mem len pos) = text mem len pos'

theorem skipLoop_meets {fuel : Nat} (inside : pos ≤ len) (enough : len - pos < fuel) :
    Meets (skipLoop mem len fuel pos) (Bounded len) (Skipped mem len pos) := by
  induction fuel generalizing pos with
  | zero => omega
  | succ fuel ih =>
    unfold skipLoop
    by_cases ended : len ≤ pos
    · rw [if_pos ended]
      refine Meets.pure ⟨Nat.le_refl pos, inside, ?_⟩
      rw [text_end ended]
      rfl
    rw [if_neg ended]
    have here : pos < len := Nat.lt_of_not_le ended
    have goesOn {next : Nat} (ahead : pos < next) (bound : next ≤ len)
        (same : JsonParser.dictParserSkipWhitespace (text mem len pos) =
          JsonParser.dictParserSkipWhitespace (text mem len next)) :
        Meets (skipLoop mem len fuel next) (Bounded len) (Skipped mem len pos) := by
      refine (ih bound (by omega)).imp fun pos' h => ?_
      exact ⟨by have := h.1; omega, h.2.1, same.trans h.2.2⟩
    refine Meets.step_bind here ?_
    by_cases white : isspace (mem pos) = true
    · rw [if_pos white]
      refine Meets.step_bind ⟨Nat.le_succ pos, here⟩ (goesOn (Nat.lt_succ_self pos) here ?_)
      rw [text_cons here, JsonReading.skip_space white]
    rw [if_neg white]
    have stays (plain : mem pos ≠ 47 ∨ len ≤ pos + 1 ∨ (mem (pos + 1) ≠ 47 ∧ mem (pos + 1) ≠ 42)) :
        Skipped mem len pos pos := by
      refine ⟨Nat.le_refl pos, inside, ?_⟩
      rw [text_cons here, JsonParser.dictParserSkipWhitespace, List.length_cons,
        JsonReading.skipLoop_cons, if_neg white]
      by_cases slash : mem pos = 47
      · rw [if_pos slash]
        by_cases last : len ≤ pos + 1
        · rw [text_end last]
        · have other := (plain.resolve_left (not_not_intro slash)).resolve_left last
          rw [text_cons (Nat.lt_of_not_le last)]
          dsimp only
          rw [if_neg other.1, if_neg other.2]
      · rw [if_neg slash]
    by_cases opens : mem pos = 47 ∧ pos + 1 < len
    · rw [if_pos opens]
      obtain ⟨slash, next⟩ := opens
      refine Meets.step_bind next ?_
      by_cases line : mem (pos + 1) = 47
      · rw [if_pos line]
        refine Meets.step_bind ⟨by omega, by omega⟩ ?_
        have rest : pos + 2 + (len - (pos + 2)) = len := by omega
        refine (skipLine_meets rest).bind fun pos' h => ?_
        refine goesOn (by omega) h.2.1 ?_
        rw [text_cons here, text_cons next, slash, line, JsonReading.skip_line, h.2.2]
      rw [if_neg line]
      by_cases block : mem (pos + 1) = 42
      · rw [if_pos block]
        refine Meets.step_bind ⟨by omega, by omega⟩ ?_
        have rest : pos + 2 + 1 + (len - (pos + 2) - 1) = len ∨
            len - (pos + 2) - 1 = 0 ∧ pos + 2 = len := by omega
        refine (skipBlock_meets rest).bind fun pos' h => ?_
        refine skipMarks_meets.bind ?_
        rintro _ rfl
        refine goesOn (by split <;> omega) (by split <;> omega) ?_
        rw [text_cons here, text_cons next, slash, block, JsonReading.skip_block, h.2.2]
      · rw [if_neg block]
        exact Meets.pure (stays (Or.inr (Or.inr ⟨line, block⟩)))
    · rw [if_neg opens]
      refine Meets.pure (stays ?_)
      by_cases slash : mem pos = 47
      · exact Or.inr (Or.inl (Nat.le_of_not_lt fun next => opens ⟨slash, next⟩))
      · exact Or.inl slash

theorem skip_meets (inside : pos ≤ len) :
    Meets (dictParserSkipWhitespace mem len pos) (Bounded len) (Skipped mem len pos) :=
  skipLoop_meets inside (Nat.lt_succ_self _)

end Space

section Tokens

variable {α : Type} {pos : Nat}

/-- A function called at `pos` does what the one on lists does, which gives `expected`: it
goes ahead, and by a byte at least where it succeeds. -/
inductive Gives (mem : Nat → UInt8) (len pos : Nat) (expected : JsonParser.Result α) :
    Outcome α → Prop
  | ok {a : α} {pos' : Nat} (ahead : pos < pos') (inside : pos' ≤ len)
    (same : expected = .ok (a, text mem len pos')) : Gives mem len pos expected (.ok a, pos')
  | error {e : Option String} {pos' : Nat} (ahead : pos ≤ pos') (inside : pos' ≤ len)
    (same : expected = .error e) : Gives mem len pos expected (.error e, pos')

theorem Gives.from {start : Nat} {expected : JsonParser.Result α} {r : Outcome α}
    (h : Gives mem len pos expected r) (behind : start ≤ pos) : Gives mem len start expected r := by
  cases h with
  | ok ahead inside same => exact .ok (Nat.lt_of_le_of_lt behind ahead) inside same
  | error ahead inside same => exact .error (Nat.le_trans behind ahead) inside same

theorem fails {start : Nat} {expected : JsonParser.Result α} {msg : String} (ahead : start ≤ pos)
    (inside : pos ≤ len) (same : expected = JsonParser.fail msg) :
    Meets (failAt mem len errorLen pos msg) (Bounded len) (Gives mem len start expected) := by
  refine (failAt_meets pos msg).imp ?_
  rintro _ rfl
  exact .error ahead inside same

theorem peek_end (ended : len ≤ pos) : dictParserPeek mem len pos = pure none := if_pos ended

theorem peek_more (more : pos < len) :
    dictParserPeek mem len pos = step (.read pos) (some (mem pos)) :=
  if_neg (Nat.not_le_of_lt more)

theorem consume_meets (expect : UInt8) :
    Meets (dictParserConsume mem len expect pos) (Bounded len) fun r =>
      (r = none ∧ (text mem len pos).head? ≠ some expect) ∨
        (r = some (pos + 1) ∧ pos < len ∧ mem pos = expect) := by
  unfold dictParserConsume
  split
  · rename_i ended
    refine Meets.pure (Or.inl ⟨rfl, ?_⟩)
    rw [text_end ended]
    exact nofun
  · rename_i more
    have here : pos < len := Nat.lt_of_not_le more
    refine Meets.step_bind here ?_
    split
    · rename_i other
      refine Meets.pure (Or.inl ⟨rfl, ?_⟩)
      rw [text_cons here]
      exact fun same => other (Option.some.inj same)
    · rename_i same
      exact Meets.step_bind ⟨Nat.le_succ pos, here⟩
        (Meets.pure (Or.inr ⟨rfl, here, not_not.mp same⟩))

theorem startsWith_meets (literal : Bytes) (inside : pos + literal.length ≤ len) :
    Meets (startsWith mem literal pos) (Bounded len)
      (· = decide (literal <+: text mem len pos)) := by
  induction literal generalizing pos with
  | nil => exact Meets.pure (decide_eq_true List.nil_prefix).symm
  | cons c cs ih =>
    rw [List.length_cons] at inside
    have here : pos < len := by omega
    refine Meets.step_bind here ?_
    rw [text_cons here]
    by_cases same : mem pos = c
    · rw [if_pos same]
      have rest : pos + 1 + cs.length ≤ len := by omega
      refine (ih rest).imp ?_
      rintro _ rfl
      rw [decide_eq_decide, List.cons_prefix_cons]
      exact (and_iff_right same.symm).symm
    · rw [if_neg same]
      refine Meets.pure (decide_eq_false fun h => ?_).symm
      exact same (List.cons_prefix_cons.mp h).1.symm

/-- A position, where the function on lists leaves the content from there on. -/
def Stands (mem : Nat → UInt8) (len start : Nat) (expected : Option Bytes) (r : Option Nat) : Prop :=
  expected = r.map (text mem len) ∧ ∀ i, r = some i → start ≤ i ∧ i ≤ len

theorem Stands.none {start : Nat} {expected : Option Bytes} (h : expected = none) :
    Stands mem len start expected none :=
  ⟨h, fun _ found => nomatch found⟩

theorem Stands.some {start : Nat} {expected : Option Bytes} (h : expected = some (text mem len pos))
    (ahead : start ≤ pos) (inside : pos ≤ len) : Stands mem len start expected (some pos) := by
  refine ⟨h, ?_⟩
  rintro _ ⟨⟩
  exact ⟨ahead, inside⟩

theorem Stands.from {start start' : Nat} {expected : Option Bytes} {r : Option Nat}
    (h : Stands mem len start expected r) (behind : start' ≤ start) :
    Stands mem len start' expected r :=
  ⟨h.1, fun i found => ⟨Nat.le_trans behind (h.2 i found).1, (h.2 i found).2⟩⟩

theorem literal_meets (literal : Bytes) (nonempty : 1 ≤ literal.length) (inside : pos ≤ len) :
    Meets (dictParseLiteral mem len literal pos) (Bounded len)
      (Stands mem len (pos + 1) (JsonParser.dictParseLiteral literal (text mem len pos))) := by
  unfold dictParseLiteral JsonParser.dictParseLiteral
  by_cases long : len < pos + literal.length
  · rw [if_pos long]
    refine Meets.pure (.none (if_neg fun h => ?_))
    have shorter := h.length_le
    rw [text_length] at shorter
    omega
  rw [if_neg long]
  have fits := Nat.le_of_not_lt long
  refine (startsWith_meets literal fits).bind ?_
  rintro _ rfl
  by_cases here : literal <+: text mem len pos
  · rw [decide_eq_true here, if_pos rfl, if_pos here, text_drop]
    exact Meets.step_bind ⟨Nat.le_add_right pos _, fits⟩
      (Meets.pure (.some rfl (Nat.add_le_add_left nonempty pos) fits))
  · rw [decide_eq_false here, if_neg Bool.false_ne_true, if_neg here]
    exact Meets.pure (.none rfl)

theorem readHex_meets {left codepoint : Nat} (inside : pos + left ≤ len) :
    Meets (readHex mem left pos codepoint) (Bounded len) fun r =>
      pos ≤ r.2 ∧ r.2 ≤ len ∧ (r.1.isSome → r.2 = pos + left) ∧
        r.1 = if (window mem pos left).all isxdigit
          then some ((window mem pos left).foldl (fun n b => n * 16 + digitVal b) codepoint)
          else none := by
  induction left generalizing pos codepoint with
  | zero => exact Meets.pure ⟨Nat.le_refl pos, inside, fun _ => rfl, rfl⟩
  | succ left ih =>
    have here : pos < len := by omega
    refine Meets.step_bind here (Meets.step_bind ⟨Nat.le_succ pos, here⟩ ?_)
    rw [window, List.all_cons, List.foldl_cons]
    by_cases digit : isxdigit (mem pos) = true
    · rw [if_pos digit, digit, Bool.true_and]
      have rest : pos + 1 + left ≤ len := by omega
      refine (ih rest).imp fun r h => ⟨by omega, h.2.1, ?_, h.2.2.2⟩
      intro found
      rw [h.2.2.1 found]
      omega
    · rw [if_neg digit, Bool.eq_false_iff.mpr digit, Bool.false_and, if_neg Bool.false_ne_true]
      exact Meets.pure ⟨Nat.le_succ pos, here, fun found => absurd found Bool.false_ne_true, rfl⟩

theorem decodeUnicode_window (start : Nat) :
    JsonParser.decodeUnicode (mem start) (mem (start + 1)) (mem (start + 1 + 1))
        (mem (start + 1 + 1 + 1)) =
      (if (window mem start 4).all isxdigit
        then some ((window mem start 4).foldl (fun n b => n * 16 + digitVal b) 0)
        else none).map fun n => if n ≤ 0x7F then UInt8.ofNat n else 63 := by
  unfold JsonParser.decodeUnicode
  have same : (window mem start 4).all isxdigit = (isxdigit (mem start) &&
      isxdigit (mem (start + 1)) && isxdigit (mem (start + 1 + 1)) &&
        isxdigit (mem (start + 1 + 1 + 1))) := by
    simp only [window, List.all_cons, List.all_nil, Bool.and_true, Bool.and_assoc]
  rw [same]
  split <;> rfl

theorem stringLoop_meets {fuel : Nat} {out : Bytes} (inside : pos ≤ len)
    (enough : len - pos < fuel) :
    Meets (stringLoop mem len errorLen fuel pos out) (Bounded len)
      (Gives mem len pos (JsonParser.stringLoop (text mem len pos) out)) := by
  induction fuel generalizing pos out with
  | zero => omega
  | succ fuel ih =>
    unfold stringLoop
    by_cases ended : len ≤ pos
    · rw [if_pos ended, text_end ended]
      exact fails (Nat.le_refl pos) inside rfl
    rw [if_neg ended]
    have here : pos < len := Nat.lt_of_not_le ended
    refine Meets.step_bind here (Meets.step_bind ⟨Nat.le_succ pos, here⟩ ?_)
    rw [text_cons here]
    by_cases quote : mem pos = 34
    · rw [if_pos quote, quote]
      exact Meets.pure (.ok (Nat.lt_succ_self pos) here rfl)
    rw [if_neg quote]
    have goesOn {next : Nat} {out : Bytes} (ahead : pos < next) (bound : next ≤ len) :
        Meets (stringLoop mem len errorLen fuel next out) (Bounded len)
          (Gives mem len pos (JsonParser.stringLoop (text mem len next) out)) :=
      (ih bound (by omega)).imp fun _ h => h.from (Nat.le_of_lt ahead)
    by_cases backslash : mem pos = 92
    · rw [if_pos backslash, backslash]
      by_cases alone : len ≤ pos + 1
      · rw [if_pos alone, text_end alone]
        exact fails (Nat.le_succ pos) here rfl
      rw [if_neg alone]
      have next : pos + 1 < len := Nat.lt_of_not_le alone
      refine Meets.step_bind next (Meets.step_bind ⟨Nat.le_succ _, next⟩ ?_)
      rw [text_cons next]
      by_cases unicode : mem (pos + 1) = 117
      · rw [if_pos unicode, unicode]
        by_cases short : len < pos + 1 + 1 + 4
        · rw [if_pos short, JsonReading.stringLoop_short (by rw [text_length]; omega)]
          exact fails (by omega) next rfl
        rw [if_neg short]
        refine (readHex_meets (by omega)).bind ?_
        rintro ⟨codepoint, pos'⟩ ⟨ahead, bound, found, read⟩
        have four : text mem len (pos + 1 + 1) = mem (pos + 1 + 1) :: mem (pos + 1 + 1 + 1) ::
            mem (pos + 1 + 1 + 1 + 1) :: mem (pos + 1 + 1 + 1 + 1 + 1) ::
            text mem len (pos + 1 + 1 + 4) := by
          rw [text_cons (by omega), text_cons (by omega), text_cons (by omega),
            text_cons (by omega)]
        rw [four, JsonParser.stringLoop, decodeUnicode_window, ← read]
        cases codepoint with
        | none => exact fails (by omega) bound rfl
        | some codepoint =>
          have place : pos' = pos + 1 + 1 + 4 := found rfl
          rw [← place]
          exact goesOn (by omega) bound
      · rw [if_neg unicode, JsonReading.stringLoop_escape unicode]
        cases JsonParser.decodeEscape (mem (pos + 1)) with
        | none => exact fails (by omega) next rfl
        | some decoded => exact goesOn (by omega) next
    · rw [if_neg backslash, JsonReading.stringLoop_plain quote backslash]
      split
      · exact fails (Nat.le_succ pos) here rfl
      · exact goesOn (Nat.lt_succ_self pos) here

theorem jsonString_meets (inside : pos ≤ len) :
    Meets (dictParseJsonString mem len errorLen pos) (Bounded len)
      (Gives mem len pos (JsonParser.dictParseJsonString (text mem len pos))) := by
  refine (consume_meets 34).bind ?_
  rintro _ (⟨rfl, other⟩ | ⟨rfl, more, quote⟩)
  · refine fails (Nat.le_refl pos) inside ?_
    unfold JsonParser.dictParseJsonString
    split
    · rename_i starts
      rw [starts] at other
      exact absurd rfl other
    · rfl
  · rw [text_cons more, quote]
    exact (stringLoop_meets more (Nat.lt_succ_self _)).imp fun _ h => h.from (Nat.le_succ pos)

theorem skipDigits_meets {left i : Nat} (inside : i + left = len) :
    Meets (skipDigits mem left i) (Bounded len) fun j => i ≤ j ∧ j ≤ len ∧
      (text mem len i).dropWhile isdigit = text mem len j := by
  induction left generalizing i with
  | zero =>
    refine Meets.pure ⟨Nat.le_refl i, by omega, ?_⟩
    rw [text_end (by omega)]
    rfl
  | succ left ih =>
    have here : i < len := by omega
    refine Meets.step_bind here ?_
    rw [text_cons here, List.dropWhile_cons]
    split
    · exact (ih (i := i + 1) (by omega)).imp fun j h => ⟨by omega, h.2.1, h.2.2⟩
    · exact Meets.pure ⟨Nat.le_refl i, Nat.le_of_lt here, (text_cons here).symm⟩

theorem someDigits_meets {i : Nat} :
    Meets (someDigits mem len i) (Bounded len) (Stands mem len i
      (if JsonParser.startsWithDigit (text mem len i)
        then some ((text mem len i).dropWhile isdigit) else none)) := by
  unfold someDigits
  by_cases ended : len ≤ i
  · rw [if_pos ended, text_end ended]
    exact Meets.pure (.none rfl)
  rw [if_neg ended]
  have here : i < len := Nat.lt_of_not_le ended
  have starts : JsonParser.startsWithDigit (text mem len i) = isdigit (mem i) := by
    rw [text_cons here]
    rfl
  rw [starts]
  refine Meets.step_bind here ?_
  split
  · refine (skipDigits_meets (by omega)).bind fun j h => ?_
    rw [h.2.2]
    exact Meets.pure (.some rfl h.1 h.2.1)
  · exact Meets.pure (.none rfl)

theorem scanExponent_meets {i : Nat} (inside : i ≤ len) :
    Meets (scanExponent mem len i) (Bounded len)
      (Stands mem len i (JsonParser.scanExponent (text mem len i))) := by
  unfold scanExponent
  by_cases ended : len ≤ i
  · rw [if_pos ended, text_end ended]
    refine Meets.pure (.some ?_ (Nat.le_refl i) inside)
    rw [text_end ended]
    rfl
  rw [if_neg ended]
  have here : i < len := Nat.lt_of_not_le ended
  refine Meets.step_bind here ?_
  rw [text_cons here, JsonParser.scanExponent]
  by_cases marked : mem i = 101 ∨ mem i = 69
  · rw [if_pos marked, if_pos marked]
    by_cases last : len ≤ i + 1
    · rw [if_pos last, text_end last]
      exact Meets.pure (.none rfl)
    rw [if_neg last]
    have next : i + 1 < len := Nat.lt_of_not_le last
    refine Meets.step_bind next ?_
    rw [text_cons next, JsonParser.skipSign]
    split
    · exact someDigits_meets.imp fun _ h => h.from (by omega)
    · rw [← text_cons next]
      exact someDigits_meets.imp fun _ h => h.from (Nat.le_succ i)
  · rw [if_neg marked, if_neg marked]
    exact Meets.pure (.some (by rw [text_cons here]) (Nat.le_refl i) inside)

theorem scanFraction_meets {i : Nat} (inside : i ≤ len) :
    Meets (scanFraction mem len i) (Bounded len)
      (Stands mem len i (JsonParser.scanFraction (text mem len i))) := by
  unfold scanFraction
  by_cases ended : len ≤ i
  · rw [if_pos ended, text_end ended]
    refine Meets.pure (.some ?_ (Nat.le_refl i) inside)
    rw [text_end ended]
    rfl
  rw [if_neg ended]
  have here : i < len := Nat.lt_of_not_le ended
  refine Meets.step_bind here ?_
  rw [text_cons here, JsonParser.scanFraction]
  by_cases point : mem i = 46
  · rw [if_pos point, if_pos point]
    refine someDigits_meets.bind ?_
    rintro r ⟨same, bounds⟩
    cases digits : JsonParser.startsWithDigit (text mem len (i + 1)) with
    | false =>
      rw [digits, if_neg Bool.false_ne_true] at same
      rw [Option.map_eq_none_iff.mp same.symm, if_neg Bool.false_ne_true]
      exact Meets.pure (.none rfl)
    | true =>
      rw [digits, if_pos rfl] at same
      obtain ⟨j, rfl, rest⟩ := Option.map_eq_some_iff.mp same.symm
      obtain ⟨ahead, bound⟩ := bounds j rfl
      rw [if_pos rfl, ← rest]
      exact (scanExponent_meets bound).imp fun _ h => h.from (by omega)
  · rw [if_neg point, if_neg point, ← text_cons here]
    exact scanExponent_meets inside

theorem scanInteger_meets {i : Nat} :
    Meets (scanInteger mem len i) (Bounded len)
      (Stands mem len (i + 1) (JsonParser.scanInteger (text mem len i))) := by
  unfold scanInteger
  by_cases ended : len ≤ i
  · rw [if_pos ended, text_end ended]
    exact Meets.pure (.none rfl)
  rw [if_neg ended]
  have here : i < len := Nat.lt_of_not_le ended
  refine Meets.step_bind here ?_
  rw [text_cons here, JsonParser.scanInteger]
  by_cases zero : mem i = 48
  · rw [if_pos zero, if_pos zero]
    exact scanFraction_meets here
  rw [if_neg zero, if_neg zero]
  by_cases digit : isdigit (mem i) = true
  · rw [if_pos digit, if_pos digit]
    have more : (text mem len i).dropWhile isdigit = (text mem len (i + 1)).dropWhile isdigit := by
      rw [text_cons here, List.dropWhile_cons_of_pos digit]
    refine (skipDigits_meets (by omega)).bind ?_
    rintro j ⟨ahead, bound, rest⟩
    have beyond : i < j := by
      rcases Nat.lt_or_eq_of_le ahead with further | rfl
      · exact further
      · have shorter := (List.dropWhile_suffix (l := text mem len (i + 1)) isdigit).length_le
        rw [← more, rest, text_length, text_length] at shorter
        omega
    rw [← more, rest]
    exact (scanFraction_meets bound).imp fun _ h => h.from beyond
  · rw [if_neg digit, if_neg digit]
    exact Meets.pure (.none rfl)

theorem scanNumber_meets :
    Meets (scanNumber mem len pos) (Bounded len)
      (Stands mem len (pos + 1) (JsonParser.scanNumber (text mem len pos))) := by
  unfold scanNumber JsonParser.scanNumber
  by_cases ended : len ≤ pos
  · rw [if_pos ended, text_end ended]
    exact Meets.pure (.none rfl)
  rw [if_neg ended]
  have here : pos < len := Nat.lt_of_not_le ended
  refine Meets.step_bind here ?_
  rw [text_cons here, JsonParser.skipMinus]
  split
  · exact scanInteger_meets.imp fun _ h => h.from (by omega)
  · rw [← text_cons here]
    exact scanInteger_meets

theorem readBytes_meets {i n : Nat} (inside : i + n ≤ len) :
    Meets (readBytes mem i n) (Bounded len) (· = window mem i n) := by
  induction n generalizing i with
  | zero => exact Meets.pure rfl
  | succ n ih =>
    have here : i < len := by omega
    refine Meets.step_bind here ((ih (i := i + 1) (by omega)).bind ?_)
    rintro _ rfl
    exact Meets.pure rfl

variable {strtod : JsonParser.Strtod}

theorem parseNumber_meets (inside : pos ≤ len) :
    Meets (dictParseNumber mem len errorLen strtod pos) (Bounded len)
      (Gives mem len pos (JsonParser.dictParseNumber strtod (text mem len pos))) := by
  unfold dictParseNumber JsonParser.dictParseNumber
  refine scanNumber_meets.bind ?_
  rintro r ⟨same, bounds⟩
  rw [same]
  rcases r with _ | i
  · exact Meets.pure (.error (Nat.le_refl pos) inside rfl)
  obtain ⟨ahead, bound⟩ := bounds i rfl
  have length : (text mem len pos).length - (text mem len i).length = i - pos := by
    rw [text_length, text_length]
    omega
  have token : (text mem len pos).take (i - pos) = window mem pos (i - pos) :=
    window_take pos (by omega)
  rw [Option.map_some]
  dsimp only
  have nonempty : i - pos ≠ 0 := by omega
  rw [length, token, window_length, if_neg nonempty, if_neg nonempty]
  by_cases long : 64 ≤ i - pos
  · rw [if_pos long, if_pos long]
    exact fails (Nat.le_refl pos) inside rfl
  rw [if_neg long, if_neg long]
  refine (readBytes_meets (by omega)).bind ?_
  rintro _ rfl
  rw [window_length]
  by_cases invalid : strtod.length (window mem pos (i - pos)) ≠ i - pos
  · rw [if_pos invalid, if_pos invalid]
    exact fails (Nat.le_refl pos) inside rfl
  · rw [if_neg invalid, if_neg invalid]
    exact Meets.step_bind ⟨by omega, bound⟩ (Meets.pure (.ok ahead bound rfl))

end Tokens

section Values

variable {strtod : JsonParser.Strtod} {pos : Nat}

theorem parseStringValue_meets (inside : pos ≤ len) :
    Meets (parseStringValue mem len errorLen pos) (Bounded len)
      (Gives mem len pos (JsonParser.parseStringValue (text mem len pos))) := by
  unfold JsonParser.parseStringValue
  refine (jsonString_meets inside).bind ?_
  rintro _ (⟨ahead, bound, same⟩ | ⟨ahead, bound, same⟩)
  · rename_i str pos'
    rw [same]
    dsimp only
    cases dictCreateString str with
    | none => exact Meets.pure (.error (Nat.le_of_lt ahead) bound rfl)
    | some v => exact Meets.pure (.ok ahead bound rfl)
  · rw [same]
    exact Meets.pure (.error ahead bound rfl)

theorem parseNumberValue_meets (inside : pos ≤ len) :
    Meets (parseNumberValue mem len errorLen strtod pos) (Bounded len)
      (Gives mem len pos (JsonParser.parseNumberValue strtod (text mem len pos))) := by
  unfold JsonParser.parseNumberValue
  refine (parseNumber_meets inside).bind ?_
  rintro _ (⟨ahead, bound, same⟩ | ⟨ahead, bound, same⟩)
  · rw [same]
    exact Meets.pure (.ok ahead bound rfl)
  · rw [same]
    exact Meets.pure (.error ahead bound rfl)

theorem parseLiteralValue_meets (inside : pos ≤ len) :
    Meets (parseLiteralValue mem len errorLen pos) (Bounded len)
      (Gives mem len pos (JsonParser.parseLiteralValue (text mem len pos))) := by
  unfold JsonParser.parseLiteralValue
  refine (literal_meets (ascii "true") (by decide) inside).bind ?_
  rintro (_ | i) ⟨same, bounds⟩
  · rw [same]
    refine (literal_meets (ascii "false") (by decide) inside).bind ?_
    rintro (_ | i) ⟨same, bounds⟩
    · rw [same]
      refine (literal_meets (ascii "null") (by decide) inside).bind ?_
      rintro (_ | i) ⟨same, bounds⟩
      · rw [same]
        exact fails (Nat.le_refl pos) inside rfl
      · obtain ⟨ahead, bound⟩ := bounds i rfl
        rw [same]
        exact Meets.pure (.ok ahead bound rfl)
    · obtain ⟨ahead, bound⟩ := bounds i rfl
      rw [same]
      exact Meets.pure (.ok ahead bound rfl)
  · obtain ⟨ahead, bound⟩ := bounds i rfl
    rw [same]
    exact Meets.pure (.ok ahead bound rfl)

/-- A call that succeeds is seen with what it took. -/
theorem returned_meets {expected : JsonParser.Result DictValue} {r : Outcome DictValue}
    (h : Gives mem len pos expected r) :
    Meets (returned pos r) (Bounded len) (Gives mem len pos expected) := by
  cases h with
  | ok ahead inside same => exact Meets.step ⟨ahead, inside⟩ (.ok ahead inside same)
  | error ahead inside same => exact Meets.pure (.error ahead inside same)

/-- The five functions that call one another, with the fuel that is enough for them: a value
in a value in a value takes three calls for each byte at most. -/
structure ReaderMeets (mem : Nat → UInt8) (len errorLen : Nat) (strtod : JsonParser.Strtod)
    (fuel : Nat) : Prop where
  value : ∀ {pos}, pos ≤ len → 3 * (len - pos) + 1 ≤ fuel →
    Meets (dictParseValue mem len errorLen strtod fuel pos) (Bounded len)
      (Gives mem len pos (JsonParser.dictParseValue strtod fuel (text mem len pos)))
  array : ∀ {pos}, pos < len → 3 * (len - pos) ≤ fuel →
    Meets (dictParseArray mem len errorLen strtod fuel pos) (Bounded len)
      (Gives mem len pos (JsonParser.dictParseArray strtod fuel (text mem len pos)))
  arrayLoop : ∀ {pos} (items : List DictValue), pos ≤ len → 3 * (len - pos) + 2 ≤ fuel →
    Meets (JsonReads.arrayLoop mem len errorLen strtod fuel pos items) (Bounded len)
      (Gives mem len pos (JsonParser.arrayLoop strtod fuel (text mem len pos) items))
  object : ∀ {pos}, pos < len → 3 * (len - pos) ≤ fuel →
    Meets (dictParseObject mem len errorLen strtod fuel pos) (Bounded len)
      (Gives mem len pos (JsonParser.dictParseObject strtod fuel (text mem len pos)))
  objectLoop : ∀ {pos} (obj : DictValue), pos ≤ len → 3 * (len - pos) + 2 ≤ fuel →
    Meets (JsonReads.objectLoop mem len errorLen strtod fuel pos obj) (Bounded len)
      (Gives mem len pos (JsonParser.objectLoop strtod fuel (text mem len pos) obj))

variable {fuel : Nat}

theorem value_succ (ih : ReaderMeets mem len errorLen strtod fuel) (inside : pos ≤ len)
    (enough : 3 * (len - pos) ≤ fuel) :
    Meets (dictParseValue mem len errorLen strtod (fuel + 1) pos) (Bounded len)
      (Gives mem len pos (JsonParser.dictParseValue strtod (fuel + 1) (text mem len pos))) := by
  unfold dictParseValue
  refine (skip_meets inside).bind ?_
  rintro pos' ⟨ahead, bound, same⟩
  by_cases ended : len ≤ pos'
  · rw [peek_end ended, JsonParser.dictParseValue, same, text_end ended]
    exact fails ahead bound rfl
  have more : pos' < len := Nat.lt_of_not_le ended
  rw [text_cons more] at same
  rw [peek_more more, JsonReading.parseValue_cons fuel same, ← text_cons more]
  refine Meets.step_bind more ?_
  dsimp only
  have back {expected : JsonParser.Result DictValue} {x : Run Event (Outcome DictValue)}
      (h : Meets x (Bounded len) (Gives mem len pos' expected)) :
      Meets (x >>= returned pos) (Bounded len) (Gives mem len pos expected) :=
    h.bind fun _ given => returned_meets (given.from ahead)
  split
  · exact back (parseStringValue_meets bound)
  split
  · exact back (ih.object more (by omega))
  split
  · exact back (ih.array more (by omega))
  split
  · exact back (parseNumberValue_meets bound)
  · exact back (parseLiteralValue_meets bound)

theorem arrayLoop_succ (ih : ReaderMeets mem len errorLen strtod fuel) (items : List DictValue)
    (inside : pos ≤ len) (enough : 3 * (len - pos) + 1 ≤ fuel) :
    Meets (arrayLoop mem len errorLen strtod (fuel + 1) pos items) (Bounded len)
      (Gives mem len pos (JsonParser.arrayLoop strtod (fuel + 1) (text mem len pos) items)) := by
  unfold arrayLoop
  rw [JsonReading.arrayLoop_succ]
  refine (ih.value inside enough).bind ?_
  rintro _ (⟨ahead, bound, same⟩ | ⟨ahead, bound, same⟩)
  · rename_i item next
    rw [same]
    dsimp only
    refine (skip_meets bound).bind ?_
    rintro pos' ⟨further, bound, same⟩
    rw [same]
    by_cases ended : len ≤ pos'
    · rw [peek_end ended, text_end ended]
      exact fails (by omega) bound rfl
    have more : pos' < len := Nat.lt_of_not_le ended
    rw [peek_more more, text_cons more]
    refine Meets.step_bind more ?_
    dsimp only
    split
    · refine Meets.step_bind ⟨Nat.le_succ pos', more⟩ ?_
      refine (skip_meets more).bind ?_
      rintro start ⟨behind, bound, same⟩
      rw [same]
      exact (ih.arrayLoop _ bound (by omega)).imp fun _ h => h.from (by omega)
    split
    · exact Meets.step_bind ⟨Nat.le_succ pos', more⟩ (Meets.pure (.ok (by omega) more rfl))
    · exact fails (by omega) bound rfl
  · rw [same]
    exact Meets.pure (.error ahead bound rfl)

/-- The first byte of an array or of an object. -/
theorem consume_fails {opening : UInt8} (other : (text mem len pos).head? ≠ some opening)
    {s : Bytes} : text mem len pos ≠ opening :: s := by
  intro starts
  rw [starts] at other
  exact other rfl

/-- Space is skipped twice behind an opening bracket, and the next byte is looked at. -/
theorem opened_meets {closing : UInt8} {empty full : Nat → Run Event (Outcome DictValue)}
    {expected : JsonParser.Result DictValue} (inside : pos ≤ len)
    (closes : ∀ {next}, pos ≤ next → next < len →
      JsonParser.dictParserSkipWhitespace (JsonParser.dictParserSkipWhitespace (text mem len pos)) =
        closing :: text mem len (next + 1) →
      Meets (empty next) (Bounded len) (Gives mem len pos expected))
    (goesOn : ∀ {next}, pos ≤ next → next ≤ len → (text mem len next).head? ≠ some closing →
      JsonParser.dictParserSkipWhitespace (JsonParser.dictParserSkipWhitespace (text mem len pos)) =
        text mem len next →
      Meets (full next) (Bounded len) (Gives mem len pos expected)) :
    Meets (do
        let pos ← dictParserSkipWhitespace mem len pos
        let pos ← dictParserSkipWhitespace mem len pos
        if (← dictParserPeek mem len pos) = some closing then empty pos else full pos)
      (Bounded len) (Gives mem len pos expected) := by
  refine (skip_meets inside).bind ?_
  rintro next ⟨ahead, bound, same⟩
  rw [same] at closes goesOn
  refine (skip_meets bound).bind ?_
  rintro pos' ⟨further, bound, same⟩
  by_cases ended : len ≤ pos'
  · rw [peek_end ended]
    refine goesOn (by omega) bound ?_ same
    rw [text_end ended]
    exact nofun
  have more : pos' < len := Nat.lt_of_not_le ended
  rw [peek_more more]
  refine Meets.step_bind more ?_
  by_cases close : mem pos' = closing
  · rw [close, if_pos rfl]
    refine closes (by omega) more ?_
    rw [same, text_cons more, close]
  · have other : some (mem pos') ≠ some closing := fun same => close (Option.some.inj same)
    rw [if_neg other]
    refine goesOn (by omega) bound ?_ same
    rw [text_cons more]
    exact other

theorem array_succ (ih : ReaderMeets mem len errorLen strtod fuel) (inside : pos < len)
    (enough : 3 * (len - pos) ≤ fuel + 1) :
    Meets (dictParseArray mem len errorLen strtod (fuel + 1) pos) (Bounded len)
      (Gives mem len pos (JsonParser.dictParseArray strtod (fuel + 1) (text mem len pos))) := by
  unfold dictParseArray
  refine (consume_meets 91).bind ?_
  rintro _ (⟨rfl, other⟩ | ⟨rfl, more, bracket⟩)
  · refine fails (Nat.le_refl pos) (Nat.le_of_lt inside) ?_
    rw [JsonParser.dictParseArray]
    exact fun _ _ _ starts => consume_fails other starts
  rw [text_cons more, bracket, JsonParser.dictParseArray]
  refine (opened_meets more (fun ahead more same => ?_) fun ahead bound other same => ?_).imp
    fun _ h => h.from (Nat.le_succ pos)
  · rw [same]
    exact Meets.step_bind ⟨Nat.le_succ _, more⟩ (Meets.pure (.ok (by omega) more rfl))
  · rw [same]
    split
    · rename_i starts
      exact absurd starts (consume_fails other)
    · exact (ih.arrayLoop [] bound (by omega)).imp fun _ h => h.from ahead

theorem objectLoop_succ (ih : ReaderMeets mem len errorLen strtod fuel) (obj : DictValue)
    (inside : pos ≤ len) (enough : 3 * (len - pos) + 1 ≤ fuel) :
    Meets (objectLoop mem len errorLen strtod (fuel + 1) pos obj) (Bounded len)
      (Gives mem len pos (JsonParser.objectLoop strtod (fuel + 1) (text mem len pos) obj)) := by
  unfold objectLoop
  rw [JsonReading.objectLoop_succ]
  refine (skip_meets inside).bind ?_
  rintro start ⟨ahead₁, bound₁, same⟩
  rw [same]
  by_cases ended : len ≤ start
  · rw [peek_end ended, text_end ended]
    exact fails ahead₁ bound₁ rfl
  have more₁ : start < len := Nat.lt_of_not_le ended
  rw [peek_more more₁, text_cons more₁]
  refine Meets.step_bind more₁ ?_
  by_cases quote : mem start = 34
  swap
  · have other : some (mem start) ≠ some 34 := fun same => quote (Option.some.inj same)
    dsimp only
    rw [if_pos other, if_pos quote]
    exact fails ahead₁ bound₁ rfl
  rw [quote, if_neg (not_not_intro rfl)]
  dsimp only
  rw [if_neg (not_not_intro rfl), ← quote, ← text_cons more₁]
  -- the key
  refine (jsonString_meets bound₁).bind ?_
  rintro _ (⟨ahead₂, bound₂, same⟩ | ⟨ahead₂, bound₂, same⟩)
  swap
  · rw [same]
    exact Meets.pure (.error (by omega) bound₂ rfl)
  rename_i key keyEnd
  rw [same]
  dsimp only
  refine (skip_meets bound₂).bind ?_
  rintro colon ⟨ahead₃, bound₃, same⟩
  rw [same]
  refine (consume_meets 58).bind ?_
  rintro _ (⟨rfl, other⟩ | ⟨rfl, more₃, here⟩)
  · refine fails (by omega) bound₃ ?_
    by_cases ended : len ≤ colon
    · rw [text_end ended]
    · rw [text_cons (Nat.lt_of_not_le ended)] at other ⊢
      exact if_pos fun here => other (congrArg some here)
  rw [text_cons more₃, here]
  dsimp only
  rw [if_neg (not_not_intro rfl)]
  refine (skip_meets more₃).bind ?_
  rintro first ⟨ahead₄, bound₄, same⟩
  rw [same]
  -- the value
  refine (ih.value bound₄ (by omega)).bind ?_
  rintro _ (⟨ahead₅, bound₅, same⟩ | ⟨ahead₅, bound₅, same⟩)
  swap
  · rw [same]
    exact Meets.pure (.error (by omega) bound₅ rfl)
  rename_i value valueEnd
  rw [same]
  dsimp only
  cases dictObjectSet obj key value with
  | none => exact fails (by omega) bound₅ rfl
  | some obj =>
    dsimp only
    refine (skip_meets bound₅).bind ?_
    rintro pos' ⟨ahead₆, bound₆, same⟩
    rw [same]
    by_cases ended : len ≤ pos'
    · rw [peek_end ended, text_end ended]
      exact fails (by omega) bound₆ rfl
    have more : pos' < len := Nat.lt_of_not_le ended
    rw [peek_more more, text_cons more]
    refine Meets.step_bind more ?_
    dsimp only
    split
    · refine Meets.step_bind ⟨Nat.le_succ pos', more⟩ ?_
      exact (ih.objectLoop obj more (by omega)).imp fun _ h => h.from (by omega)
    split
    · exact Meets.step_bind ⟨Nat.le_succ pos', more⟩ (Meets.pure (.ok (by omega) more rfl))
    · exact fails (by omega) bound₆ rfl

theorem object_succ (ih : ReaderMeets mem len errorLen strtod fuel) (inside : pos < len)
    (enough : 3 * (len - pos) ≤ fuel + 1) :
    Meets (dictParseObject mem len errorLen strtod (fuel + 1) pos) (Bounded len)
      (Gives mem len pos (JsonParser.dictParseObject strtod (fuel + 1) (text mem len pos))) := by
  unfold dictParseObject
  refine (consume_meets 123).bind ?_
  rintro _ (⟨rfl, other⟩ | ⟨rfl, more, brace⟩)
  · refine fails (Nat.le_refl pos) (Nat.le_of_lt inside) ?_
    rw [JsonParser.dictParseObject]
    exact fun _ _ _ starts => consume_fails other starts
  rw [text_cons more, brace, JsonParser.dictParseObject]
  refine (opened_meets more (fun ahead more same => ?_) fun ahead bound other same => ?_).imp
    fun _ h => h.from (Nat.le_succ pos)
  · rw [same]
    exact Meets.step_bind ⟨Nat.le_succ _, more⟩ (Meets.pure (.ok (by omega) more rfl))
  · rw [same]
    split
    · rename_i starts
      exact absurd starts (consume_fails other)
    · exact (ih.objectLoop (.object []) bound (by omega)).imp fun _ h => h.from ahead

theorem reader_meets (mem : Nat → UInt8) (len errorLen : Nat) (strtod : JsonParser.Strtod)
    (fuel : Nat) : ReaderMeets mem len errorLen strtod fuel := by
  induction fuel with
  | zero =>
    constructor
    · intro pos _ enough
      omega
    · intro pos inside enough
      omega
    · intro pos _ _ enough
      omega
    · intro pos inside enough
      omega
    · intro pos _ _ enough
      omega
  | succ fuel ih =>
    constructor
    · exact fun inside enough => value_succ ih inside (by omega)
    · exact fun inside enough => array_succ ih inside enough
    · exact fun items inside enough => arrayLoop_succ ih items inside (by omega)
    · exact fun inside enough => object_succ ih inside enough
    · exact fun obj inside enough => objectLoop_succ ih obj inside (by omega)

theorem dictDeserializeJson_meets (mem : Nat → UInt8) (errorLen : Nat)
    (strtod : JsonParser.Strtod) (bufferLen contentLen : Nat) :
    Meets (dictDeserializeJson mem errorLen strtod bufferLen contentLen) (Bounded contentLen)
      (· = JsonParser.dictDeserializeJson strtod (window mem 0 bufferLen) contentLen) := by
  unfold dictDeserializeJson JsonParser.dictDeserializeJson
  rw [window_length]
  split
  · exact Meets.pure rfl
  rename_i valid
  have content : (window mem 0 bufferLen).take contentLen = text mem contentLen 0 :=
    window_take 0 (by omega)
  dsimp only
  rw [content, JsonParser.parseFuel, text_length, Nat.sub_zero]
  refine (skip_meets (Nat.zero_le contentLen)).bind ?_
  rintro pos ⟨_, bound, same⟩
  rw [same]
  refine ((reader_meets mem contentLen errorLen strtod _).value bound (by omega)).bind ?_
  rintro _ (⟨_, bound, same⟩ | ⟨_, bound, same⟩)
  · rw [same]
    dsimp only
    refine (skip_meets bound).bind ?_
    rintro pos' ⟨_, bound, same⟩
    rw [same, text_length, Nat.sub_sub_self bound]
    by_cases trailing : pos' = contentLen
    · rw [if_neg (not_not_intro trailing), if_neg (not_not_intro (text_eq_nil.mpr (by omega)))]
      exact Meets.pure rfl
    · rw [if_pos trailing, if_pos fun empty => trailing (by have := text_eq_nil.mp empty; omega)]
      exact Meets.pure rfl
  · rw [same]
    exact Meets.pure rfl

/-- On memory the reader gives what the one on lists gives. -/
theorem dictDeserializeJson_refines (mem : Nat → UInt8) (errorLen : Nat)
    (strtod : JsonParser.Strtod) (bufferLen contentLen : Nat) :
    (dictDeserializeJson mem errorLen strtod bufferLen contentLen).value =
      some (JsonParser.dictDeserializeJson strtod (window mem 0 bufferLen) contentLen) := by
  obtain ⟨_, r, found, same⟩ :=
    dictDeserializeJson_meets mem errorLen strtod bufferLen contentLen
  rw [found, same]

/-- The reader comes to an end on every buffer; it reads nothing behind the content, `p->pos`
goes neither back nor behind the content, and each value takes a byte at least. -/
theorem dictDeserializeJson_bounded (mem : Nat → UInt8) (errorLen : Nat)
    (strtod : JsonParser.Strtod) (bufferLen contentLen : Nat) :
    Meets (dictDeserializeJson mem errorLen strtod bufferLen contentLen) (Bounded contentLen)
      fun _ => True :=
  (dictDeserializeJson_meets mem errorLen strtod bufferLen contentLen).imp fun _ _ => trivial

end Values

end JsonBounds
