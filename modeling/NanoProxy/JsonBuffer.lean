import NanoProxy.JsonRoundTrip
import Mathlib.Logic.Function.Basic

/-!
# The JSON writer in its buffer (include/dict.h)

The writer once more, now with the memory it writes to. `rendering` is the whole text of a
tree. Every helper writes its text byte by byte and stops where one byte is left, so what a
buffer holds at any time is the beginning of the text. No pointer in a tree is NULL.
-/

namespace JsonBuffer

open CLib Dict JsonGrammar JsonRoundTrip
open JsonWriter (unicodeEscape formatInt)

/-- `buffer`, which goes on behind its end, with `cursor` and `remaining`. -/
structure Buffer where
  mem : Nat → UInt8
  pos : Nat
  remaining : Nat

/-- `**cursor = c`, and both counters go on. -/
def Buffer.put (b : Buffer) (c : UInt8) : Buffer where
  mem := Function.update b.mem b.pos c
  pos := b.pos + 1
  remaining := b.remaining - 1

/-- What a helper returns, and the buffer as it leaves it. -/
abbrev Step := Buffer → Bool × Buffer

def done : Step := fun b => (true, b)

def refuse : Step := fun b => (false, b)

/-- `if (!f) return 0;` -/
def Step.andThen (f g : Step) : Step := fun b =>
  match f b with
  | (true, b) => g b
  | (false, b) => (false, b)

def dictAppendToBuffer : Bytes → Step
  | [] => done
  | c :: src => fun b => if b.remaining ≤ 1 then (false, b) else dictAppendToBuffer src (b.put c)

def dictAppendChar (c : UInt8) : Step := fun b =>
  if b.remaining ≤ 1 then (false, b) else (true, b.put c)

def appendEscaped (c : UInt8) : Step :=
  if c = 34 ∨ c = 92 then (dictAppendChar 92).andThen (dictAppendChar c)
  else if c = 8 then dictAppendToBuffer [92, 98]
  else if c = 12 then dictAppendToBuffer [92, 102]
  else if c = 10 then dictAppendToBuffer [92, 110]
  else if c = 13 then dictAppendToBuffer [92, 114]
  else if c = 9 then dictAppendToBuffer [92, 116]
  else if c < 0x20 then dictAppendToBuffer (unicodeEscape c)
  else dictAppendChar c

def appendEscapedLoop : Bytes → Step
  | [] => done
  | c :: str => (appendEscaped c).andThen (appendEscapedLoop str)

def dictAppendEscapedString (str : Bytes) : Step :=
  (dictAppendChar 34).andThen ((appendEscapedLoop str).andThen (dictAppendChar 34))

def indentTimes : Nat → Step
  | 0 => done
  | n + 1 => (dictAppendToBuffer [SP, SP]).andThen (indentTimes n)

/-- `APPEND_NEWLINE_AND_INDENT` -/
def appendNewlineAndIndent (pretty : Bool) (level : Nat) : Step :=
  if pretty then (dictAppendChar LF).andThen (indentTimes level) else done

/-- A text that `snprintf` has put into a `char[size]`. -/
def appendFormatted (size : Nat) (append : Bytes → Step) (text : Bytes) : Step :=
  if size ≤ text.length then refuse else append text

variable (formatDouble : UInt64 → Bytes) (pretty : Bool)

/-- The comma in front of every element but the first. -/
def appendSeparator (level i : Nat) : Step :=
  if 0 < i then (dictAppendChar 44).andThen (appendNewlineAndIndent pretty level) else done

/-- The line behind the opening bracket, and the one in front of the closing bracket. -/
def appendLine (level count : Nat) : Step :=
  if 0 < count ∧ pretty then appendNewlineAndIndent pretty level else done

mutual

def dictSerializeValuePretty (level : Nat) : DictValue → Step
  | .null => dictAppendToBuffer nullText
  | .bool b => dictAppendToBuffer (boolText b)
  | .number bits => appendFormatted 64 dictAppendToBuffer (formatDouble bits)
  | .int64 n =>
    if n ≤ 9007199254740991 ∧ -9007199254740991 ≤ n
    then appendFormatted 64 dictAppendToBuffer (formatInt n)
    else appendFormatted 32 dictAppendEscapedString (formatInt n)
  | .string s => dictAppendEscapedString s.bytes
  | .array items =>
    (dictAppendChar 91).andThen ((appendLine pretty level items.length).andThen
      ((serializeItems level 0 items).andThen ((appendLine pretty level items.length).andThen
        (dictAppendChar 93))))
  | .object pairs =>
    (dictAppendChar 123).andThen ((appendLine pretty level pairs.length).andThen
      ((serializePairs level 0 pairs).andThen ((appendLine pretty level pairs.length).andThen
        (dictAppendChar 125))))

def serializeItems (level i : Nat) : List DictValue → Step
  | [] => done
  | v :: items =>
    (appendSeparator pretty level i).andThen ((dictSerializeValuePretty (level + 1) v).andThen
      (serializeItems level (i + 1) items))

def serializePairs (level i : Nat) : Pairs → Step
  | [] => done
  | (key, v) :: pairs =>
    (appendSeparator pretty level i).andThen ((dictAppendEscapedString key.bytes).andThen
      ((dictAppendChar 58).andThen ((if pretty then dictAppendChar SP else done).andThen
        ((dictSerializeValuePretty (level + 1) v).andThen (serializePairs level (i + 1) pairs)))))

end

/-- Whether the buffer is returned, and what the memory holds then. -/
def dictSerializeJson (v : DictValue) (mem : Nat → UInt8) (bufLen : Nat) :
    Bool × (Nat → UInt8) :=
  if bufLen = 0 then (false, mem)
  else match dictSerializeValuePretty formatDouble pretty 0 v ⟨mem, 0, bufLen⟩ with
    | (false, b) => (false, Function.update b.mem 0 0)
    | (true, b) =>
      if b.remaining = 0 then (false, Function.update b.mem 0 0)
      else (true, Function.update b.mem b.pos 0)

/-- Elements with a comma between them, inside brackets. -/
def bracketed (opening closing : UInt8) (level : Nat) (elements : List Bytes) : Bytes :=
  if elements = [] then [opening, closing]
  else opening :: (newline pretty level ++ (44 :: newline pretty level).intercalate elements ++
    newline pretty level ++ [closing])

mutual

/-- The text of a tree, as long as it is. -/
def rendering (level : Nat) : DictValue → Bytes
  | .null => nullText
  | .bool b => boolText b
  | .number bits => formatDouble bits
  | .int64 n =>
    if n ≤ 9007199254740991 ∧ -9007199254740991 ≤ n then formatInt n
    else stringText ((formatInt n).map escaped)
  | .string s => stringText (s.bytes.map escaped)
  | .array items => bracketed pretty 91 93 level (renderedItems (level + 1) items)
  | .object pairs => bracketed pretty 123 125 level (renderedPairs (level + 1) pairs)

def renderedItems (level : Nat) : List DictValue → List Bytes
  | [] => []
  | v :: items => rendering level v :: renderedItems level items

def renderedPairs (level : Nat) : Pairs → List Bytes
  | [] => []
  | (key, v) :: pairs => pairText pretty key (rendering level v) :: renderedPairs level pairs

end

variable {f g : Step} {s t : Bytes} {b : Buffer} {formatDouble : UInt64 → Bytes} {pretty : Bool}

/-- The buffer when the bytes of `s` are put. -/
def Buffer.write (b : Buffer) (s : Bytes) : Buffer := s.foldl Buffer.put b

theorem write_append (b : Buffer) (s t : Bytes) : (b.write s).write t = b.write (s ++ t) :=
  List.foldl_append.symm

theorem write_remaining (b : Buffer) (s : Bytes) :
    (b.write s).remaining = b.remaining - s.length := by
  induction s generalizing b with
  | nil => rfl
  | cons c s ih =>
    rw [List.length_cons, Nat.add_comm, ← Nat.sub_sub]
    exact ih (b.put c)

theorem write_pos (b : Buffer) (s : Bytes) : (b.write s).pos = b.pos + s.length := by
  induction s generalizing b with
  | nil => rfl
  | cons c s ih =>
    rw [List.length_cons, Nat.add_comm s.length, ← Nat.add_assoc]
    exact ih (b.put c)

theorem write_outside (b : Buffer) (s : Bytes) {i : Nat} (outside : i < b.pos ∨ b.pos + s.length ≤ i) :
    (b.write s).mem i = b.mem i := by
  induction s generalizing b with
  | nil => rfl
  | cons c s ih =>
    rw [List.length_cons] at outside
    have other : i ≠ b.pos := by omega
    have next : i < (b.put c).pos ∨ (b.put c).pos + s.length ≤ i := by
      change i < b.pos + 1 ∨ b.pos + 1 + s.length ≤ i
      omega
    exact (ih (b.put c) next).trans (Function.update_of_ne other _ _)

theorem write_inside (b : Buffer) (s : Bytes) {i : Nat} (inside : i < s.length) :
    (b.write s).mem (b.pos + i) = s.getD i 0 := by
  induction s generalizing b i with
  | nil => cases inside
  | cons c s ih =>
    cases i with
    | zero =>
      have before : b.pos < (b.put c).pos := Nat.lt_succ_self _
      exact (write_outside (b.put c) s (Or.inl before)).trans (Function.update_self _ _ _)
    | succ i =>
      have place : b.pos + (i + 1) = (b.put c).pos + i := Nat.add_right_comm b.pos i 1
      rw [place, List.getD_cons_succ]
      exact ih (b.put c) (Nat.lt_of_succ_lt_succ inside)

/-- `f` writes `s`, as far as a byte is left behind it, and says whether that was all. -/
def Fills (f : Step) (s : Bytes) : Prop :=
  ∀ b, 0 < b.remaining →
    f b = (decide (s.length < b.remaining), b.write (s.take (b.remaining - 1)))

theorem Fills.done : Fills done [] := by
  intro b room
  rw [List.length_nil, decide_eq_true room, List.take_nil]
  rfl

theorem Fills.andThen (first : Fills f s) (second : Fills g t) :
    Fills (f.andThen g) (s ++ t) := by
  intro b room
  unfold Step.andThen
  rw [first b room, List.length_append]
  by_cases fits : s.length < b.remaining
  · have whole : s.take (b.remaining - 1) = s := List.take_of_length_le (by omega)
    have left : 0 < (b.write s).remaining := by
      rw [write_remaining]
      omega
    have both : (t.length < b.remaining - s.length) ↔ s.length + t.length < b.remaining := by omega
    have rest : b.remaining - s.length - 1 = b.remaining - 1 - s.length := by omega
    rw [decide_eq_true fits, whole, List.take_append, whole, ← write_append]
    dsimp only
    rw [second _ left, write_remaining, decide_eq_decide.mpr both, rest]
  · have long : ¬s.length + t.length < b.remaining := by omega
    have cut : (s ++ t).take (b.remaining - 1) = s.take (b.remaining - 1) :=
      List.take_append_of_le_length (by omega)
    rw [decide_eq_false fits, decide_eq_false long, cut]

theorem fills_char (c : UInt8) : Fills (dictAppendChar c) [c] := by
  intro b room
  unfold dictAppendChar
  rw [List.length_singleton]
  by_cases fits : 1 < b.remaining
  · have whole : [c].take (b.remaining - 1) = [c] :=
      List.take_of_length_le (Nat.le_sub_one_of_lt fits)
    rw [if_neg (Nat.not_le.mpr fits), decide_eq_true fits, whole]
    rfl
  · have last : b.remaining - 1 = 0 := by omega
    rw [if_pos (Nat.not_lt.mp fits), decide_eq_false fits, last]
    rfl

theorem dictAppendToBuffer_cons (c : UInt8) (src : Bytes) :
    dictAppendToBuffer (c :: src) = (dictAppendChar c).andThen (dictAppendToBuffer src) := by
  funext b
  by_cases full : b.remaining ≤ 1
  · simp only [dictAppendToBuffer, Step.andThen, dictAppendChar, if_pos full]
  · simp only [dictAppendToBuffer, Step.andThen, dictAppendChar, if_neg full]

theorem fills_buffer (src : Bytes) : Fills (dictAppendToBuffer src) src := by
  induction src with
  | nil => exact .done
  | cons c src ih =>
    rw [dictAppendToBuffer_cons]
    exact (fills_char c).andThen ih

theorem fills_formatted {append : Bytes → Step} {size : Nat} {text : Bytes} (fits : text.length < size)
    (fills : Fills (append text) s) : Fills (appendFormatted size append text) s := by
  rw [appendFormatted, if_neg (Nat.not_le.mpr fits)]
  exact fills

theorem fills_escaped (c : UInt8) : Fills (appendEscaped c) (escaped c).text := by
  unfold escaped appendEscaped
  split
  · exact (fills_char 92).andThen (fills_char c)
  split
  · exact fills_buffer _
  split
  · exact fills_buffer _
  split
  · exact fills_buffer _
  split
  · exact fills_buffer _
  split
  · exact fills_buffer _
  split
  · exact fills_buffer _
  · exact fills_char c

theorem fills_string (str : Bytes) :
    Fills (dictAppendEscapedString str) (stringText (str.map escaped)) := by
  have loop : Fills (appendEscapedLoop str) ((str.map escaped).flatMap StrChar.text) := by
    induction str with
    | nil => exact .done
    | cons c str ih => exact (fills_escaped c).andThen ih
  exact (fills_char 34).andThen (loop.andThen (fills_char 34))

theorem fills_newline (pretty : Bool) (level : Nat) :
    Fills (appendNewlineAndIndent pretty level) (newline pretty level) := by
  have indent : Fills (indentTimes level) (List.replicate level [SP, SP]).flatten := by
    induction level with
    | zero => exact .done
    | succ n ih => exact (fills_buffer [SP, SP]).andThen ih
  cases pretty with
  | true => exact (fills_char LF).andThen indent
  | false => exact .done

/-- Nineteen digits and a sign. -/
theorem formatInt_length (n : Int64) : (formatInt n).length ≤ 20 := by
  have low := Int64.le_toInt n
  have high := Int64.toInt_lt n
  have digits : (decimal n.toInt.natAbs).length ≤ 19 := decimal_length (by decide) (by omega)
  unfold formatInt
  split
  · exact Nat.succ_le_succ digits
  · exact digits.trans (by decide)

/-- The elements from `i` on, with what is between them. -/
def separated (separator : Bytes) (i : Nat) : List Bytes → Bytes
  | [] => []
  | text :: texts =>
    (if 0 < i then separator else []) ++ (text ++ separated separator (i + 1) texts)

theorem separated_succ (separator : Bytes) (i : Nat) (texts : List Bytes) :
    separated separator (i + 1) texts = texts.flatMap (separator ++ ·) := by
  induction texts generalizing i with
  | nil => rfl
  | cons text texts ih =>
    rw [separated, if_pos (Nat.succ_pos i), ih, List.flatMap_cons, List.append_assoc]

theorem separated_zero (separator : Bytes) (texts : List Bytes) :
    separated separator 0 texts = separator.intercalate texts := by
  cases texts with
  | nil => rfl
  | cons text texts =>
    rw [separated, if_neg (Nat.lt_irrefl 0), List.nil_append, separated_succ, intercalate_cons]

theorem fills_separator (pretty : Bool) (level i : Nat) :
    Fills (appendSeparator pretty level i) (if 0 < i then 44 :: newline pretty level else []) := by
  unfold appendSeparator
  split
  · exact (fills_char 44).andThen (fills_newline pretty level)
  · exact .done

theorem fills_line (pretty : Bool) (level count : Nat) :
    Fills (appendLine pretty level count) (if 0 < count then newline pretty level else []) := by
  unfold appendLine
  split
  · rename_i both
    rw [if_pos both.1]
    exact fills_newline pretty level
  · rename_i neither
    split
    · rename_i some_element
      have compact : pretty = false := eq_false_of_ne_true fun h => neither ⟨some_element, h⟩
      rw [compact]
      exact .done
    · exact .done

theorem fills_gap (pretty : Bool) :
    Fills (if pretty then dictAppendChar SP else done) (gap pretty) := by
  cases pretty with
  | true => exact fills_char SP
  | false => exact .done

/-- A line behind each bracket if there is an element. -/
theorem bracketed_eq {level count : Nat} {elements : List Bytes} (length : elements.length = count)
    (pretty : Bool) (opening closing : UInt8) :
    bracketed pretty opening closing level elements =
      [opening] ++ ((if 0 < count then newline pretty level else []) ++
        (separated (44 :: newline pretty level) 0 elements ++
          ((if 0 < count then newline pretty level else []) ++ [closing]))) := by
  rw [separated_zero, bracketed]
  by_cases empty : elements = []
  · subst empty
    subst length
    rfl
  · have positive : 0 < count := by
      rw [← length]
      exact List.length_pos_iff.mpr empty
    rw [if_neg empty, if_pos positive]
    simp only [List.append_assoc, List.singleton_append]

theorem fills_bracketed {opening closing : UInt8} {level count : Nat} {elements : List Bytes}
    (length : elements.length = count)
    (fills : Fills f (separated (44 :: newline pretty level) 0 elements)) :
    Fills ((dictAppendChar opening).andThen ((appendLine pretty level count).andThen
        (f.andThen ((appendLine pretty level count).andThen (dictAppendChar closing)))))
      (bracketed pretty opening closing level elements) := by
  have line := fills_line pretty level count
  rw [bracketed_eq length]
  exact (fills_char opening).andThen (line.andThen (fills.andThen
    (line.andThen (fills_char closing))))

theorem renderedItems_length (level : Nat) (items : List DictValue) :
    (renderedItems formatDouble pretty level items).length = items.length := by
  induction items with
  | nil => rfl
  | cons v items ih => rw [renderedItems, List.length_cons, ih, List.length_cons]

theorem renderedPairs_length (level : Nat) (pairs : Pairs) :
    (renderedPairs formatDouble pretty level pairs).length = pairs.length := by
  induction pairs with
  | nil => rfl
  | cons p pairs ih =>
    obtain ⟨key, v⟩ := p
    rw [renderedPairs, List.length_cons, ih, List.length_cons]

mutual

theorem fills_value (printed : ∀ bits, (formatDouble bits).length < 64) (v : DictValue)
    (level : Nat) :
    Fills (dictSerializeValuePretty formatDouble pretty level v)
      (rendering formatDouble pretty level v) := by
  cases v with
  | null =>
    rw [dictSerializeValuePretty, rendering]
    exact fills_buffer nullText
  | bool b =>
    rw [dictSerializeValuePretty, rendering]
    exact fills_buffer (boolText b)
  | number bits =>
    rw [dictSerializeValuePretty, rendering]
    exact fills_formatted (printed bits) (fills_buffer _)
  | int64 n =>
    have short := formatInt_length n
    rw [dictSerializeValuePretty, rendering]
    split
    · exact fills_formatted (by omega) (fills_buffer _)
    · exact fills_formatted (by omega) (fills_string _)
  | string s =>
    rw [dictSerializeValuePretty, rendering]
    exact fills_string s.bytes
  | array items =>
    rw [dictSerializeValuePretty, rendering]
    exact fills_bracketed (renderedItems_length (level + 1) items) (fills_items printed items level 0)
  | object pairs =>
    rw [dictSerializeValuePretty, rendering]
    exact fills_bracketed (renderedPairs_length (level + 1) pairs) (fills_pairs printed pairs level 0)

theorem fills_items (printed : ∀ bits, (formatDouble bits).length < 64)
    (items : List DictValue) (level i : Nat) :
    Fills (serializeItems formatDouble pretty level i items)
      (separated (44 :: newline pretty level) i
        (renderedItems formatDouble pretty (level + 1) items)) := by
  match items with
  | [] =>
    rw [serializeItems, renderedItems]
    exact .done
  | v :: items =>
    rw [serializeItems, renderedItems, separated]
    exact (fills_separator pretty level i).andThen ((fills_value printed v (level + 1)).andThen
      (fills_items printed items level (i + 1)))

theorem fills_pairs (printed : ∀ bits, (formatDouble bits).length < 64) (pairs : Pairs)
    (level i : Nat) :
    Fills (serializePairs formatDouble pretty level i pairs)
      (separated (44 :: newline pretty level) i
        (renderedPairs formatDouble pretty (level + 1) pairs)) := by
  match pairs with
  | [] =>
    rw [serializePairs, renderedPairs]
    exact .done
  | (key, v) :: pairs =>
    have whole := (fills_separator pretty level i).andThen ((fills_string key.bytes).andThen
      ((fills_char 58).andThen ((fills_gap pretty).andThen
        ((fills_value printed v (level + 1)).andThen (fills_pairs printed pairs level (i + 1))))))
    rw [serializePairs, renderedPairs, separated, pairText]
    simp only [List.append_assoc, List.cons_append, List.nil_append] at whole ⊢
    exact whole

end

/-- The buffer is returned with `text` and a NUL, or it is cleared because they do not fit. -/
structure FullOrFailed (text : Bytes) (mem : Nat → UInt8) (bufLen : Nat)
    (r : Bool × (Nat → UInt8)) : Prop where
  returns : r.1 = true ↔ text.length + 1 ≤ bufLen
  full : r.1 = true → (∀ i, i < text.length → r.2 i = text.getD i 0) ∧ r.2 text.length = 0
  failed : r.1 = false → r.2 0 = 0
  inside : ∀ i, bufLen ≤ i → r.2 i = mem i

/-- What the memory holds in the end: the text and a NUL, or the beginning of the text with
a NUL in its first place. -/
theorem dictSerializeJson_eq (printed : ∀ bits, (formatDouble bits).length < 64) (v : DictValue)
    (mem : Nat → UInt8) {bufLen : Nat} (room : 0 < bufLen) :
    dictSerializeJson formatDouble pretty v mem bufLen =
      if (rendering formatDouble pretty 0 v).length < bufLen
      then (true, Function.update ((⟨mem, 0, bufLen⟩ : Buffer).write
        (rendering formatDouble pretty 0 v)).mem (rendering formatDouble pretty 0 v).length 0)
      else (false, Function.update ((⟨mem, 0, bufLen⟩ : Buffer).write
        ((rendering formatDouble pretty 0 v).take (bufLen - 1))).mem 0 0) := by
  rw [dictSerializeJson, if_neg (Nat.ne_of_gt room),
    fills_value printed v 0 ⟨mem, 0, bufLen⟩ room]
  generalize rendering formatDouble pretty 0 v = text
  by_cases fits : text.length < bufLen
  · have whole : text.take (bufLen - 1) = text := List.take_of_length_le (Nat.le_sub_one_of_lt fits)
    have left : ((⟨mem, 0, bufLen⟩ : Buffer).write text).remaining ≠ 0 := by
      rw [write_remaining]
      exact Nat.sub_ne_zero_of_lt fits
    have place : ((⟨mem, 0, bufLen⟩ : Buffer).write text).pos = text.length :=
      (write_pos _ text).trans (Nat.zero_add _)
    rw [decide_eq_true fits, whole, if_pos fits]
    dsimp only
    rw [if_neg left, place]
  · rw [decide_eq_false fits, if_neg fits]

theorem dictSerializeJson_fullOrFailed (formatDouble : UInt64 → Bytes)
    (printed : ∀ bits, (formatDouble bits).length < 64) (pretty : Bool) (v : DictValue)
    (mem : Nat → UInt8) (bufLen : Nat) (room : 1 ≤ bufLen) :
    FullOrFailed (rendering formatDouble pretty 0 v) mem bufLen
      (dictSerializeJson formatDouble pretty v mem bufLen) := by
  rw [dictSerializeJson_eq printed v mem room]
  generalize rendering formatDouble pretty 0 v = text
  have outside (s : Bytes) {i : Nat} (behind : s.length ≤ i) :
      ((⟨mem, 0, bufLen⟩ : Buffer).write s).mem i = mem i :=
    write_outside ⟨mem, 0, bufLen⟩ s (Or.inr ((Nat.zero_add _).trans_le behind))
  by_cases fits : text.length < bufLen
  · rw [if_pos fits]
    constructor
    · exact iff_of_true rfl fits
    · refine fun _ => ⟨fun i inside => ?_, Function.update_self _ _ _⟩
      have byte := write_inside ⟨mem, 0, bufLen⟩ text inside
      rw [Nat.zero_add] at byte
      exact (Function.update_of_ne (Nat.ne_of_lt inside) _ _).trans byte
    · exact nofun
    · intro i behind
      have other : i ≠ text.length := Nat.ne_of_gt (Nat.lt_of_lt_of_le fits behind)
      exact (Function.update_of_ne other _ _).trans
        (outside text ((Nat.le_of_lt fits).trans behind))
  · rw [if_neg fits]
    constructor
    · exact iff_of_false Bool.false_ne_true fits
    · exact nofun
    · intro _
      dsimp only
      rw [Function.update_self]
    · intro i behind
      have other : i ≠ 0 := Nat.ne_of_gt (Nat.lt_of_lt_of_le room behind)
      refine (Function.update_of_ne other _ _).trans (outside _ ?_)
      exact (List.length_take_le _ _).trans ((Nat.sub_le _ _).trans behind)

/-- `[0]` and a NUL, in four bytes. -/
theorem fullOrFailed_fits :
    FullOrFailed (rendering (fun _ => [48]) false 0 (.array [.number 0])) (fun _ => 7) 4
      (dictSerializeJson (fun _ => [48]) false (.array [.number 0]) (fun _ => 7) 4) :=
  dictSerializeJson_fullOrFailed (fun _ => [48]) (fun _ => show 1 < 64 by decide) _ _ _ _
    (by decide)

open JsonWriter in
theorem writes_bracketed {f : Writer → Option Writer} {opening closing : UInt8} {level count : Nat}
    {elements : List Bytes} (length : elements.length = count)
    (writes : Writes f (separated (44 :: newline pretty level) 0 elements)) :
    Writes (fun w => ((((JsonWriter.dictAppendChar opening w).bind fun w =>
        if count ≠ 0 then JsonWriter.appendNewlineAndIndent pretty level w else some w).bind f).bind
        fun w => if count ≠ 0 then JsonWriter.appendNewlineAndIndent pretty level w
          else some w).bind (JsonWriter.dictAppendChar closing))
      (bracketed pretty opening closing level elements) := by
  have line := writes_line pretty level count
  have whole := ((((writes_char opening).bind line).bind writes).bind line).bind
    (writes_char closing)
  simp only [← Nat.pos_iff_ne_zero, List.append_assoc] at whole
  simp only [bracketed_eq length, ← Nat.pos_iff_ne_zero]
  exact whole

mutual

theorem writes_value (printed : ∀ bits, (formatDouble bits).length < 64) (v : DictValue)
    (level : Nat) :
    Writes (JsonWriter.dictSerializeValuePretty formatDouble pretty level v)
      (rendering formatDouble pretty level v) := by
  cases v with
  | null =>
    rw [rendering]
    refine (writes_buffer nullText).congr fun w => ?_
    rw [JsonWriter.dictSerializeValuePretty]
  | bool b =>
    rw [rendering]
    refine (writes_buffer (boolText b)).congr fun w => ?_
    rw [JsonWriter.dictSerializeValuePretty]
  | number bits =>
    rw [rendering]
    refine (writes_buffer (formatDouble bits)).congr fun w => ?_
    rw [JsonWriter.dictSerializeValuePretty, if_neg (Nat.not_le.mpr (printed bits))]
  | int64 n =>
    rw [rendering]
    split
    · rename_i safe
      refine (writes_buffer (formatInt n)).congr fun w => ?_
      rw [JsonWriter.dictSerializeValuePretty, if_pos safe]
    · rename_i large
      refine (writes_string (formatInt n)).congr fun w => ?_
      rw [JsonWriter.dictSerializeValuePretty, if_neg large]
  | string s =>
    rw [rendering]
    refine (writes_string s.bytes).congr fun w => ?_
    rw [JsonWriter.dictSerializeValuePretty]
  | array items =>
    rw [rendering]
    refine (writes_bracketed (renderedItems_length (level + 1) items)
      (writes_items printed items level 0)).congr fun w => ?_
    rw [JsonWriter.dictSerializeValuePretty]
  | object pairs =>
    rw [rendering]
    refine (writes_bracketed (renderedPairs_length (level + 1) pairs)
      (writes_pairs printed pairs level 0)).congr fun w => ?_
    rw [JsonWriter.dictSerializeValuePretty]

theorem writes_items (printed : ∀ bits, (formatDouble bits).length < 64)
    (items : List DictValue) (level i : Nat) :
    Writes (JsonWriter.serializeItems formatDouble pretty level i items)
      (separated (44 :: newline pretty level) i
        (renderedItems formatDouble pretty (level + 1) items)) := by
  match items with
  | [] =>
    rw [serializeItems_nil, renderedItems]
    exact .none
  | v :: items =>
    rw [renderedItems, separated, ← List.append_assoc]
    refine (((writes_separator pretty level i).bind (writes_value printed v (level + 1))).bind
      (writes_items printed items level (i + 1))).congr fun w => ?_
    rw [JsonWriter.serializeItems]

theorem writes_pairs (printed : ∀ bits, (formatDouble bits).length < 64) (pairs : Pairs)
    (level i : Nat) :
    Writes (JsonWriter.serializePairs formatDouble pretty level i pairs)
      (separated (44 :: newline pretty level) i
        (renderedPairs formatDouble pretty (level + 1) pairs)) := by
  match pairs with
  | [] =>
    rw [serializePairs_nil, renderedPairs]
    exact .none
  | (key, v) :: pairs =>
    rw [renderedPairs, separated, ← List.append_assoc]
    refine ((writes_pair (writes_value printed v (level + 1)) key i).bind
      (writes_pairs printed pairs level (i + 1))).congr fun w => ?_
    rw [JsonWriter.serializePairs]

end

/-- The text that is written without regard to memory is the one that the buffer holds. -/
theorem dictSerializeJson_text (printed : ∀ bits, (formatDouble bits).length < 64)
    (v : DictValue) (mem : Nat → UInt8) (bufLen : Nat) :
    JsonWriter.dictSerializeJson formatDouble pretty v bufLen =
      if (dictSerializeJson formatDouble pretty v mem bufLen).1 = true
      then some (rendering formatDouble pretty 0 v) else none := by
  unfold JsonWriter.dictSerializeJson
  by_cases room : bufLen = 0
  · rw [if_pos room, dictSerializeJson, if_pos room]
    rfl
  · have positive := Nat.pos_of_ne_zero room
    rw [if_neg room, writes_value printed v 0 [] bufLen positive,
      dictSerializeJson_eq printed v mem positive]
    generalize rendering formatDouble pretty 0 v = text
    by_cases fits : text.length < bufLen
    · rw [if_pos fits, if_pos fits]
      exact if_neg (Nat.sub_ne_zero_of_lt fits)
    · rw [if_neg fits, if_neg fits]
      rfl

end JsonBuffer
