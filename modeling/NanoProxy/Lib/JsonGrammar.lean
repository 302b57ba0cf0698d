import Mathlib.Data.List.Basic
import Mathlib.Data.List.Infix

/-!
# The grammar of JSON

RFC 8259 over bytes, with what may stand between the tokens as a parameter: the four white
space characters of the RFC, or white space and comments as in C. A byte from 128 on is a
character of a string like any other.
-/

namespace JsonGrammar

abbrev Text := List UInt8

def isDigit (b : UInt8) : Bool := 48 ≤ b && b ≤ 57

def isHex (b : UInt8) : Bool := isDigit b || (65 ≤ b && b ≤ 70) || (97 ≤ b && b ≤ 102)

/-- A character of a string as it is written. -/
inductive StrChar where
  | plain (b : UInt8)
  | escape (b : UInt8)
  | unicode (a b c d : UInt8)
  deriving DecidableEq

def StrChar.text : StrChar → Text
  | .plain b => [b]
  | .escape b => [92, b]
  | .unicode a b c d => [92, 117, a, b, c, d]

def StrChar.Valid : StrChar → Prop
  | .plain b => 32 ≤ b ∧ b ≠ 34 ∧ b ≠ 92
  | .escape b => b ∈ [34, 92, 47, 98, 102, 110, 114, 116]
  | .unicode a b c d => isHex a ∧ isHex b ∧ isHex c ∧ isHex d

def stringText (chars : List StrChar) : Text := 34 :: (chars.flatMap StrChar.text ++ [34])

def Digits (t : Text) : Prop := t ≠ [] ∧ ∀ b ∈ t, isDigit b

def IntPart (t : Text) : Prop := t = [48] ∨ Digits t ∧ t.head? ≠ some 48

def Fraction (t : Text) : Prop := t = [] ∨ ∃ digits, t = 46 :: digits ∧ Digits digits

def Exponent (t : Text) : Prop :=
  t = [] ∨ ∃ e sign digits, t = e :: (sign ++ digits) ∧ (e = 101 ∨ e = 69) ∧
    (sign = [] ∨ sign = [43] ∨ sign = [45]) ∧ Digits digits

/-- `-?(0|[1-9][0-9]*)(\.[0-9]+)?([eE][+-]?[0-9]+)?` -/
def Number (t : Text) : Prop :=
  ∃ sign int fraction exponent, t = sign ++ (int ++ (fraction ++ exponent)) ∧
    (sign = [] ∨ sign = [45]) ∧ IntPart int ∧ Fraction fraction ∧ Exponent exponent

inductive Json where
  | null
  | bool (b : Bool)
  | number (token : Text)
  | string (chars : List StrChar)
  | array (elements : List Json)
  | object (members : List (List StrChar × Json))

def nullText : Text := [110, 117, 108, 108]

def boolText : Bool → Text
  | true => [116, 114, 117, 101]
  | false => [102, 97, 108, 115, 101]

/-- An element of an array with the space around it. -/
structure Element where
  before : Text
  token : Text
  after : Text
  tree : Json

def Element.text (e : Element) : Text := e.before ++ (e.token ++ e.after)

structure Member where
  before : Text
  key : List StrChar
  beforeColon : Text
  value : Element

def Member.text (m : Member) : Text :=
  m.before ++ (stringText m.key ++ (m.beforeColon ++ 58 :: m.value.text))

def Member.tree (m : Member) : List StrChar × Json := (m.key, m.value.tree)

/-- Texts with commas between them. -/
def commas (texts : List Text) : Text := [44].intercalate texts

variable (Space : Text → Prop)

/-- What holds of every number, string and key of a tree. -/
inductive All (onNumber : Text → Prop) (onString onKey : List StrChar → Prop) : Json → Prop
  | null : All onNumber onString onKey .null
  | bool (b : Bool) : All onNumber onString onKey (.bool b)
  | number {token : Text} (h : onNumber token) : All onNumber onString onKey (.number token)
  | string {chars : List StrChar} (h : onString chars) : All onNumber onString onKey (.string chars)
  | array {elements : List Json} (each : ∀ e ∈ elements, All onNumber onString onKey e) :
    All onNumber onString onKey (.array elements)
  | object {members : List (List StrChar × Json)} (keys : ∀ m ∈ members, onKey m.1)
    (each : ∀ m ∈ members, All onNumber onString onKey m.2) :
    All onNumber onString onKey (.object members)

/-- A text is a value, and `Json` says which. -/
inductive Value : Text → Json → Prop
  | null : Value nullText .null
  | bool (b : Bool) : Value (boolText b) (.bool b)
  | number {token : Text} (valid : Number token) : Value token (.number token)
  | string {chars : List StrChar} (valid : ∀ c ∈ chars, c.Valid) :
    Value (stringText chars) (.string chars)
  | emptyArray {space : Text} (spaced : Space space) : Value (91 :: (space ++ [93])) (.array [])
  | array {elements : List Element} (nonempty : elements ≠ [])
    (spaced : ∀ e ∈ elements, Space e.before ∧ Space e.after)
    (values : ∀ e ∈ elements, Value e.token e.tree) :
    Value (91 :: (commas (elements.map Element.text) ++ [93])) (.array (elements.map Element.tree))
  | emptyObject {space : Text} (spaced : Space space) :
    Value (123 :: (space ++ [125])) (.object [])
  | object {members : List Member} (nonempty : members ≠ [])
    (spaced : ∀ m ∈ members, Space m.before ∧ Space m.beforeColon ∧ Space m.value.before ∧
      Space m.value.after)
    (keys : ∀ m ∈ members, ∀ c ∈ m.key, c.Valid)
    (values : ∀ m ∈ members, Value m.value.token m.value.tree) :
    Value (123 :: (commas (members.map Member.text) ++ [125])) (.object (members.map Member.tree))

/-- A whole text; a line comment may end it, so `Last` is for what stands at its end. -/
def IsText (Last : Text → Prop) (t : Text) (tree : Json) : Prop :=
  ∃ before token after last, t = before ++ (token ++ (after ++ last)) ∧
    Space before ∧ Value Space token tree ∧ Space after ∧ Last last

/-- The white space of the RFC. -/
def Rfc (space : Text) : Prop := ∀ b ∈ space, b = 32 ∨ b = 9 ∨ b = 10 ∨ b = 13

def isNewline (b : UInt8) : Bool := b == 10 || b == 13

/-- White space and comments. -/
inductive Commented : Text → Prop
  | nil : Commented []
  | space {b : UInt8} {rest : Text} (white : b = 32 ∨ (9 ≤ b ∧ b ≤ 13)) (more : Commented rest) :
    Commented (b :: rest)
  | line {body : Text} {b : UInt8} {rest : Text} (inside : ∀ c ∈ body, isNewline c = false)
    (ends : isNewline b = true) (more : Commented rest) :
    Commented (47 :: 47 :: (body ++ b :: rest))
  | block {body rest : Text} (inside : ¬[42, 47] <:+: body) (more : Commented rest) :
    Commented (47 :: 42 :: (body ++ 42 :: 47 :: rest))

/-- Nothing, or a line comment without its end. -/
def LastLine (last : Text) : Prop :=
  last = [] ∨ ∃ body, last = 47 :: 47 :: body ∧ ∀ c ∈ body, isNewline c = false

/-- JSON as in the RFC. -/
def RfcText (t : Text) (tree : Json) : Prop := IsText Rfc (· = []) t tree

/-- JSON with white space and comments as in C. -/
def CommentedText (t : Text) (tree : Json) : Prop := IsText Commented LastLine t tree

theorem Commented.append {first last : Text} (h : Commented first) (h' : Commented last) :
    Commented (first ++ last) := by
  induction h with
  | nil => exact h'
  | space white _ ih => exact .space white ih
  | line inside ends _ ih =>
    rw [List.cons_append, List.cons_append, List.append_assoc]
    exact .line inside ends ih
  | block inside _ ih =>
    rw [List.cons_append, List.cons_append, List.append_assoc]
    exact .block inside ih

theorem Rfc.commented {space : Text} (h : Rfc space) : Commented space := by
  induction space with
  | nil => exact .nil
  | cons b space ih =>
    obtain ⟨here, more⟩ := List.forall_mem_cons.mp h
    refine .space ?_ (ih more)
    rcases here with rfl | rfl | rfl | rfl <;> decide

theorem Value.mono {Space Space' : Text → Prop} (weaker : ∀ t, Space t → Space' t) {t : Text}
    {tree : Json} (h : Value Space t tree) : Value Space' t tree := by
  induction h with
  | null => exact .null
  | bool b => exact .bool b
  | number valid => exact .number valid
  | string valid => exact .string valid
  | emptyArray spaced => exact .emptyArray (weaker _ spaced)
  | array nonempty spaced _ ih =>
    exact .array nonempty (fun e listed => ⟨weaker _ (spaced e listed).1, weaker _ (spaced e listed).2⟩)
      ih
  | emptyObject spaced => exact .emptyObject (weaker _ spaced)
  | object nonempty spaced keys _ ih =>
    refine .object nonempty (fun m listed => ?_) keys ih
    obtain ⟨a, b, c, d⟩ := spaced m listed
    exact ⟨weaker _ a, weaker _ b, weaker _ c, weaker _ d⟩

/-- A text of the RFC is one with comments. -/
theorem RfcText.commented {t : Text} {tree : Json} (h : RfcText t tree) : CommentedText t tree := by
  obtain ⟨before, token, after, last, rfl, spaced, value, spaced', rfl⟩ := h
  exact ⟨before, token, after, [], rfl, spaced.commented, value.mono fun _ => Rfc.commented,
    spaced'.commented, Or.inl rfl⟩

/-- Where a scan of a text stands: between and in the tokens, in a string, behind a slash or
in a comment. -/
inductive Mode where
  | code
  | string
  | escape
  | slash
  | line
  | block
  | star
  deriving DecidableEq

def codeStep (b : UInt8) : Mode := if b = 34 then .string else if b = 47 then .slash else .code

def Mode.step : Mode → UInt8 → Mode
  | .code, b => codeStep b
  | .slash, b => if b = 47 then .line else if b = 42 then .block else codeStep b
  | .string, b => if b = 34 then .code else if b = 92 then .escape else .string
  | .escape, _ => .string
  | .line, b => if isNewline b then .code else .line
  | .block, b => if b = 42 then .star else .block
  | .star, b => if b = 47 then .code else if b = 42 then .star else .block

def scan (mode : Mode) (t : Text) : Mode := t.foldl Mode.step mode

/-- The text does not end in a block comment. -/
def Closed (t : Text) : Prop := scan .code t ≠ .block ∧ scan .code t ≠ .star

instance (t : Text) : Decidable (Closed t) :=
  inferInstanceAs (Decidable (scan .code t ≠ .block ∧ scan .code t ≠ .star))

@[simp] theorem scan_nil (mode : Mode) : scan mode [] = mode := rfl

@[simp] theorem scan_cons (mode : Mode) (b : UInt8) (t : Text) :
    scan mode (b :: t) = scan (mode.step b) t := rfl

@[simp] theorem scan_append (mode : Mode) (first last : Text) :
    scan mode (first ++ last) = scan (scan mode first) last := List.foldl_append

/-- No string and no comment begins. -/
theorem scan_plain {t : Text} (plain : ∀ b ∈ t, b ≠ 34 ∧ b ≠ 47) : scan .code t = .code := by
  induction t with
  | nil => rfl
  | cons b t ih =>
    obtain ⟨⟨quote, slash⟩, plain⟩ := List.forall_mem_cons.mp plain
    rw [scan_cons, Mode.step, codeStep, if_neg quote, if_neg slash]
    exact ih plain

theorem scan_line {body : Text} (inside : ∀ c ∈ body, isNewline c = false) :
    scan .line body = .line := by
  induction body with
  | nil => rfl
  | cons c body ih =>
    obtain ⟨here, inside⟩ := List.forall_mem_cons.mp inside
    rw [scan_cons, Mode.step, here]
    exact ih inside

theorem scan_block {body : Text} (inside : ¬[42, 47] <:+: body) :
    scan .block (body ++ [42, 47]) = .code ∧
      (body.head? ≠ some 47 → scan .star (body ++ [42, 47]) = .code) := by
  induction body with
  | nil => exact ⟨rfl, fun _ => rfl⟩
  | cons c body ih =>
    obtain ⟨block, star⟩ := ih fun infixed => inside (infixed.trans (List.suffix_cons c body).isInfix)
    by_cases starred : c = 42
    · subst starred
      have later : body.head? ≠ some 47 := by
        intro slash
        obtain ⟨body', rfl⟩ := List.head?_eq_some_iff.mp slash
        exact inside (List.prefix_append [42, 47] body').isInfix
      exact ⟨star later, fun _ => star later⟩
    · constructor
      · rw [List.cons_append, scan_cons, Mode.step, if_neg starred]
        exact block
      · intro other
        have no_slash : c ≠ 47 := fun slash => other (by rw [slash]; rfl)
        rw [List.cons_append, scan_cons, Mode.step, if_neg no_slash, if_neg starred]
        exact block

theorem Commented.scan {space : Text} (h : Commented space) : scan .code space = .code := by
  induction h with
  | nil => rfl
  | @space b rest white _ ih =>
    have plain : b ≠ 34 ∧ b ≠ 47 := by
      rcases white with rfl | ⟨_, small⟩
      · decide
      · constructor <;> rintro rfl <;> exact absurd small (by decide)
    rw [scan_cons, Mode.step, codeStep, if_neg plain.1, if_neg plain.2]
    exact ih
  | @line body b rest inside ends _ ih =>
    change JsonGrammar.scan .line (body ++ b :: rest) = _
    rw [scan_append, scan_line inside, scan_cons, Mode.step, if_pos ends]
    exact ih
  | @block body rest inside _ ih =>
    have whole : body ++ 42 :: 47 :: rest = (body ++ [42, 47]) ++ rest := by simp
    change JsonGrammar.scan .block (body ++ 42 :: 47 :: rest) = _
    rw [whole, scan_append, (scan_block inside).1]
    exact ih

theorem scan_string {chars : List StrChar} (valid : ∀ c ∈ chars, c.Valid) :
    scan .string (chars.flatMap StrChar.text) = .string := by
  induction chars with
  | nil => rfl
  | cons c chars ih =>
    obtain ⟨here, valid⟩ := List.forall_mem_cons.mp valid
    rw [List.flatMap_cons, scan_append]
    have one : scan .string c.text = .string := by
      cases c with
      | plain b =>
        obtain ⟨_, quote, backslash⟩ := here
        rw [StrChar.text, scan_cons, Mode.step, if_neg quote, if_neg backslash]
        rfl
      | escape b => rfl
      | unicode a b c d =>
        obtain ⟨ha, hb, hc, hd⟩ := here
        have plain {x : UInt8} (hex : isHex x = true) : x ≠ 34 ∧ x ≠ 92 := by
          constructor <;> rintro rfl <;> exact absurd hex (by decide)
        change scan .string [a, b, c, d] = .string
        simp only [scan_cons, scan_nil, Mode.step, plain ha, plain hb, plain hc, plain hd, if_false]
    rw [one]
    exact ih valid

theorem scan_stringText {chars : List StrChar} (valid : ∀ c ∈ chars, c.Valid) :
    scan .code (stringText chars) = .code := by
  change scan .string (chars.flatMap StrChar.text ++ [34]) = .code
  rw [scan_append, scan_string valid]
  rfl

theorem scan_commas {texts : List Text} (each : ∀ t ∈ texts, scan .code t = .code) :
    scan .code (commas texts) = .code := by
  induction texts with
  | nil => rfl
  | cons t texts ih =>
    obtain ⟨here, each⟩ := List.forall_mem_cons.mp each
    cases texts with
    | nil =>
      rw [commas, List.intercalate_singleton]
      exact here
    | cons next texts =>
      rw [commas, List.intercalate_cons_cons, scan_append, scan_append, here]
      exact ih each

/-- The bytes of a number. -/
def numberByte (b : UInt8) : Bool := isDigit b || b = 43 || b = 45 || b = 46 || b = 69 || b = 101

theorem Digits.bytes {t : Text} (h : Digits t) : ∀ b ∈ t, numberByte b = true := by
  intro b listed
  rw [numberByte, h.2 b listed]
  rfl

theorem Number.bytes {t : Text} (h : Number t) : ∀ b ∈ t, numberByte b = true := by
  obtain ⟨sign, int, fraction, exponent, rfl, signs, ints, fractions, exponents⟩ := h
  intro b listed
  rw [List.mem_append, List.mem_append, List.mem_append] at listed
  rcases listed with listed | listed | listed | listed
  · rcases signs with rfl | rfl
    · cases listed
    · rw [List.mem_singleton.mp listed]
      rfl
  · rcases ints with rfl | ⟨digits, _⟩
    · rw [List.mem_singleton.mp listed]
      rfl
    · exact digits.bytes b listed
  · rcases fractions with rfl | ⟨digits, rfl, valid⟩
    · cases listed
    · rcases List.mem_cons.mp listed with rfl | listed
      · rfl
      · exact valid.bytes b listed
  · rcases exponents with rfl | ⟨e, sign, digits, rfl, mark, signs, valid⟩
    · cases listed
    · rcases List.mem_cons.mp listed with rfl | listed
      · rcases mark with rfl | rfl <;> rfl
      · rcases List.mem_append.mp listed with listed | listed
        · rcases signs with rfl | rfl | rfl
          · cases listed
          · rw [List.mem_singleton.mp listed]
            rfl
          · rw [List.mem_singleton.mp listed]
            rfl
        · exact valid.bytes b listed

theorem Value.scan {t : Text} {tree : Json} (h : Value Commented t tree) :
    scan .code t = .code := by
  induction h with
  | null => rfl
  | bool b => cases b <;> rfl
  | number valid =>
    apply scan_plain
    intro b listed
    have byte := valid.bytes b listed
    constructor <;> rintro rfl <;> exact absurd byte (by decide)
  | string valid => exact scan_stringText valid
  | emptyArray spaced =>
    change JsonGrammar.scan .code (_ ++ [93]) = _
    rw [scan_append, spaced.scan]
    rfl
  | @array elements nonempty spaced _ ih =>
    have each : ∀ t ∈ elements.map Element.text, JsonGrammar.scan .code t = .code := by
      intro t listed
      obtain ⟨e, inside, rfl⟩ := List.mem_map.mp listed
      rw [Element.text, scan_append, scan_append, (spaced e inside).1.scan, ih e inside]
      exact (spaced e inside).2.scan
    change JsonGrammar.scan .code (commas _ ++ [93]) = _
    rw [scan_append, scan_commas each]
    rfl
  | emptyObject spaced =>
    change JsonGrammar.scan .code (_ ++ [125]) = _
    rw [scan_append, spaced.scan]
    rfl
  | @object members nonempty spaced keys _ ih =>
    have each : ∀ t ∈ members.map Member.text, JsonGrammar.scan .code t = .code := by
      intro t listed
      obtain ⟨m, inside, rfl⟩ := List.mem_map.mp listed
      obtain ⟨a, b, c, d⟩ := spaced m inside
      rw [Member.text, scan_append, scan_append, scan_append, a.scan, scan_stringText (keys m inside),
        b.scan]
      change JsonGrammar.scan .code (_ ++ (_ ++ _)) = _
      rw [scan_append, scan_append, c.scan, ih m inside]
      exact d.scan
    change JsonGrammar.scan .code (commas _ ++ [125]) = _
    rw [scan_append, scan_commas each]
    rfl

/-- A text of the grammar ends in no block comment. -/
theorem CommentedText.closed {t : Text} {tree : Json} (h : CommentedText t tree) : Closed t := by
  obtain ⟨before, token, after, last, rfl, spaced, value, spaced', ends⟩ := h
  unfold Closed
  rw [scan_append, scan_append, scan_append, spaced.scan, value.scan, spaced'.scan]
  rcases ends with rfl | ⟨body, rfl, inside⟩
  · exact ⟨nofun, nofun⟩
  · change scan .line body ≠ _ ∧ scan .line body ≠ _
    rw [scan_line inside]
    exact ⟨nofun, nofun⟩

theorem nul_free_string {chars : List StrChar} (valid : ∀ c ∈ chars, c.Valid) :
    0 ∉ stringText chars := by
  have each : ∀ c ∈ chars, 0 ∉ c.text := by
    intro c listed
    have here := valid c listed
    cases c with
    | plain b =>
      intro nul
      rw [← List.mem_singleton.mp nul] at here
      exact absurd here.1 (by decide)
    | escape b =>
      rintro (_ | ⟨_, _ | ⟨_, nul⟩⟩)
      · simp [StrChar.Valid] at here
      · cases nul
    | unicode a b c d =>
      obtain ⟨ha, hb, hc, hd⟩ := here
      have nonzero {x : UInt8} (hex : isHex x = true) : 0 ≠ x := by
        rintro rfl
        exact absurd hex (by decide)
      simp [StrChar.text, nonzero ha, nonzero hb, nonzero hc, nonzero hd]
  rw [stringText, List.mem_cons, List.mem_append, List.mem_flatMap, not_or, not_or]
  refine ⟨by decide, ?_, by decide⟩
  rintro ⟨c, listed, nul⟩
  exact each c listed nul

theorem nul_free_commas {texts : List Text} (each : ∀ t ∈ texts, 0 ∉ t) : 0 ∉ commas texts := by
  induction texts with
  | nil => exact List.not_mem_nil
  | cons t texts ih =>
    obtain ⟨here, each⟩ := List.forall_mem_cons.mp each
    cases texts with
    | nil =>
      rw [commas, List.intercalate_singleton]
      exact here
    | cons next texts =>
      rw [commas, List.intercalate_cons_cons, List.mem_append, List.mem_append, not_or, not_or]
      exact ⟨⟨here, by decide⟩, ih each⟩

theorem nul_free_brackets {first last : UInt8} {inner : Text} (nonzero : 0 ≠ first)
    (inside : 0 ∉ inner) (nonzero' : 0 ≠ last) : 0 ∉ first :: (inner ++ [last]) := by
  rw [List.mem_cons, List.mem_append, List.mem_singleton, not_or, not_or]
  exact ⟨nonzero, inside, nonzero'⟩

/-- No NUL is in a value when there is none in the space. -/
theorem Value.nul_free {Space : Text → Prop} (nonzero : ∀ space, Space space → 0 ∉ space) {t : Text}
    {tree : Json} (h : Value Space t tree) : 0 ∉ t := by
  induction h with
  | null => decide
  | bool b => cases b <;> decide
  | number valid => exact fun nul => absurd (valid.bytes 0 nul) (by decide)
  | string valid => exact nul_free_string valid
  | emptyArray spaced => exact nul_free_brackets (by decide) (nonzero _ spaced) (by decide)
  | array _ spaced _ ih =>
    refine nul_free_brackets (by decide) (nul_free_commas fun t listed => ?_) (by decide)
    obtain ⟨e, inside, rfl⟩ := List.mem_map.mp listed
    rw [Element.text, List.mem_append, List.mem_append, not_or, not_or]
    exact ⟨nonzero _ (spaced e inside).1, ih e inside, nonzero _ (spaced e inside).2⟩
  | emptyObject spaced => exact nul_free_brackets (by decide) (nonzero _ spaced) (by decide)
  | object _ spaced keys _ ih =>
    refine nul_free_brackets (by decide) (nul_free_commas fun t listed => ?_) (by decide)
    obtain ⟨m, inside, rfl⟩ := List.mem_map.mp listed
    obtain ⟨a, b, c, d⟩ := spaced m inside
    have value : 0 ∉ m.value.text := by
      rw [Element.text, List.mem_append, List.mem_append, not_or, not_or]
      exact ⟨nonzero _ c, ih m inside, nonzero _ d⟩
    rw [Member.text, List.mem_append, List.mem_append, List.mem_append, List.mem_cons, not_or,
      not_or, not_or, not_or]
    exact ⟨nonzero _ a, nul_free_string (keys m inside), nonzero _ b, by decide, value⟩

/-- Where a reader that minds only the quotes stands. -/
inductive Quoting where
  | outside
  | inside
  | escape
  deriving DecidableEq

/-- A control character inside of quotes stops the reader. -/
def Quoting.step : Quoting → UInt8 → Option Quoting
  | .outside, b => some (if b = 34 then .inside else .outside)
  | .inside, b =>
    if b = 34 then some .outside else if b = 92 then some .escape
    else if b < 32 then none else some .inside
  | .escape, b => if b < 32 then none else some .inside

def quoting (q : Quoting) (t : Text) : Option Quoting := t.foldlM Quoting.step q

theorem quoting_cons (q : Quoting) (b : UInt8) (t : Text) :
    quoting q (b :: t) = (q.step b).bind fun q => quoting q t := List.foldlM_cons

theorem quoting_append (q : Quoting) (first last : Text) :
    quoting q (first ++ last) = (quoting q first).bind fun q => quoting q last :=
  List.foldlM_append

theorem quoting_plain {t : Text} (plain : ∀ b ∈ t, b ≠ 34) :
    quoting .outside t = some .outside := by
  induction t with
  | nil => rfl
  | cons b t ih =>
    obtain ⟨quote, plain⟩ := List.forall_mem_cons.mp plain
    rw [quoting_cons, Quoting.step, if_neg quote]
    exact ih plain

theorem quoting_char {c : StrChar} (valid : c.Valid) :
    quoting .inside c.text = some .inside := by
  cases c with
  | plain b =>
    obtain ⟨low, quote, backslash⟩ := valid
    rw [StrChar.text, quoting_cons, Quoting.step, if_neg quote, if_neg backslash,
      if_neg (by simpa using low)]
    rfl
  | escape b =>
    change b ∈ [34, 92, 47, 98, 102, 110, 114, 116] at valid
    simp only [List.mem_cons, List.not_mem_nil, or_false] at valid
    rcases valid with rfl | rfl | rfl | rfl | rfl | rfl | rfl | rfl <;> rfl
  | unicode a b c d =>
    obtain ⟨ha, hb, hc, hd⟩ := valid
    have plain {x : UInt8} (hex : isHex x = true) : Quoting.step .inside x = some .inside := by
      have low : ¬x < 32 := by
        intro low
        rw [isHex, isDigit] at hex
        simp only [Bool.or_eq_true, Bool.and_eq_true, decide_eq_true_eq] at hex
        simp only [UInt8.lt_iff_toNat_lt, UInt8.le_iff_toNat_le] at low hex
        have bounds : (32 : UInt8).toNat = 32 ∧ (48 : UInt8).toNat = 48 ∧
            (65 : UInt8).toNat = 65 ∧ (97 : UInt8).toNat = 97 := by decide
        omega
      rw [Quoting.step, if_neg (by rintro rfl; exact absurd hex (by decide)),
        if_neg (by rintro rfl; exact absurd hex (by decide)), if_neg low]
    change quoting .inside [a, b, c, d] = some .inside
    rw [quoting_cons, plain ha, Option.bind_some, quoting_cons, plain hb, Option.bind_some,
      quoting_cons, plain hc, Option.bind_some, quoting_cons, plain hd]
    rfl

theorem quoting_chars {chars : List StrChar} (valid : ∀ c ∈ chars, c.Valid) :
    quoting .inside (chars.flatMap StrChar.text) = some .inside := by
  induction chars with
  | nil => rfl
  | cons c chars ih =>
    obtain ⟨here, valid⟩ := List.forall_mem_cons.mp valid
    rw [List.flatMap_cons, quoting_append, quoting_char here, Option.bind_some]
    exact ih valid

/-- A text that is left as it was entered, outside of quotes. -/
def Unquoted (t : Text) : Prop := quoting .outside t = some .outside

theorem Unquoted.append {first last : Text} (h : Unquoted first) (h' : Unquoted last) :
    Unquoted (first ++ last) := by
  rw [Unquoted, quoting_append, h, Option.bind_some]
  exact h'

theorem Unquoted.cons {b : UInt8} {t : Text} (plain : b ≠ 34) (h : Unquoted t) :
    Unquoted (b :: t) := by
  rw [Unquoted, quoting_cons, Quoting.step, if_neg plain]
  exact h

theorem unquoted_string {chars : List StrChar} (valid : ∀ c ∈ chars, c.Valid) :
    Unquoted (stringText chars) := by
  change quoting .inside (chars.flatMap StrChar.text ++ [34]) = _
  rw [quoting_append, quoting_chars valid]
  rfl

theorem unquoted_commas {texts : List Text} (each : ∀ t ∈ texts, Unquoted t) :
    Unquoted (commas texts) := by
  induction texts with
  | nil => rfl
  | cons t texts ih =>
    obtain ⟨here, each⟩ := List.forall_mem_cons.mp each
    cases texts with
    | nil =>
      rw [commas, List.intercalate_singleton]
      exact here
    | cons next texts =>
      rw [commas, List.intercalate_cons_cons]
      have comma : Unquoted [44] := rfl
      exact (here.append comma).append (ih each)

theorem unquoted_brackets {first last : UInt8} {inner : Text} (plain : first ≠ 34)
    (h : Unquoted inner) (plain' : last ≠ 34) : Unquoted (first :: (inner ++ [last])) :=
  .cons plain (h.append (quoting_plain (List.forall_mem_singleton.mpr plain')))

theorem Rfc.unquoted {space : Text} (h : Rfc space) : Unquoted space := by
  refine quoting_plain fun b listed => ?_
  rcases h b listed with rfl | rfl | rfl | rfl <;> decide

/-- No control character stands between the quotes of a value. -/
theorem Value.unquoted {t : Text} {tree : Json} (h : Value Rfc t tree) : Unquoted t := by
  induction h with
  | null => rfl
  | bool b => cases b <;> rfl
  | number valid =>
    refine quoting_plain fun b listed => ?_
    have byte := valid.bytes b listed
    rintro rfl
    exact absurd byte (by decide)
  | string valid => exact unquoted_string valid
  | emptyArray spaced => exact unquoted_brackets (by decide) spaced.unquoted (by decide)
  | array _ spaced _ ih =>
    refine unquoted_brackets (by decide) (unquoted_commas fun t listed => ?_) (by decide)
    obtain ⟨e, inside, rfl⟩ := List.mem_map.mp listed
    obtain ⟨before, after⟩ := spaced e inside
    exact before.unquoted.append ((ih e inside).append after.unquoted)
  | emptyObject spaced => exact unquoted_brackets (by decide) spaced.unquoted (by decide)
  | object _ spaced keys _ ih =>
    refine unquoted_brackets (by decide) (unquoted_commas fun t listed => ?_) (by decide)
    obtain ⟨m, inside, rfl⟩ := List.mem_map.mp listed
    obtain ⟨a, b, c, d⟩ := spaced m inside
    have value : Unquoted m.value.text := c.unquoted.append ((ih m inside).append d.unquoted)
    exact a.unquoted.append ((unquoted_string (keys m inside)).append
      (b.unquoted.append (.cons (by decide) value)))

theorem RfcText.unquoted {t : Text} {tree : Json} (h : RfcText t tree) : Unquoted t := by
  obtain ⟨before, token, after, last, rfl, spaced, value, spaced', rfl⟩ := h
  rw [List.append_nil]
  exact spaced.unquoted.append (value.unquoted.append spaced'.unquoted)

theorem commas_tail (texts : List Text) (last tail : Text) :
    commas (texts ++ [last]) ++ tail = commas (texts ++ [last ++ tail]) := by
  induction texts with
  | nil => rw [commas, commas, List.nil_append, List.nil_append, List.intercalate_singleton,
      List.intercalate_singleton]
  | cons t texts ih =>
    have split (end_ : Text) : commas (t :: (texts ++ [end_])) =
        t ++ 44 :: commas (texts ++ [end_]) := by
      cases texts with
      | nil => rw [commas, List.nil_append, List.intercalate_cons_cons, List.append_assoc]; rfl
      | cons u texts =>
        rw [commas, List.cons_append, List.intercalate_cons_cons, List.append_assoc]
        rfl
    rw [List.cons_append, List.cons_append, split, split, List.append_assoc, List.cons_append, ih]

/-- The space behind the last element may stand apart from it. -/
theorem Value.array_spaced {Space : Text → Prop}
    (joined : ∀ {s t}, Space s → Space t → Space (s ++ t)) {elements : List Element}
    (nonempty : elements ≠ []) (spaced : ∀ e ∈ elements, Space e.before ∧ Space e.after)
    (values : ∀ e ∈ elements, Value Space e.token e.tree) {tail : Text} (space : Space tail) :
    Value Space (91 :: (commas (elements.map Element.text) ++ (tail ++ [93])))
      (.array (elements.map Element.tree)) := by
  obtain ⟨init, last, rfl⟩ := (List.eq_nil_or_concat' elements).resolve_left nonempty
  obtain ⟨init_spaced, last_spaced⟩ := List.forall_mem_append.mp spaced
  obtain ⟨init_values, last_value⟩ := List.forall_mem_append.mp values
  obtain ⟨before, after⟩ := last_spaced last List.mem_cons_self
  have whole := @Value.array Space (init ++ [{ last with after := last.after ++ tail }])
    (by simp)
    (List.forall_mem_append.mpr ⟨init_spaced, List.forall_mem_singleton.mpr ⟨before, joined after space⟩⟩)
    (List.forall_mem_append.mpr
      ⟨init_values, List.forall_mem_singleton.mpr (last_value last List.mem_cons_self)⟩)
  have text : ({ last with after := last.after ++ tail } : Element).text = last.text ++ tail := by
    simp [Element.text]
  rw [List.map_append, List.map_append, List.map_singleton, List.map_singleton, text] at whole
  rw [List.map_append, List.map_append, List.map_singleton, List.map_singleton,
    ← List.append_assoc, commas_tail]
  exact whole

/-- So may the space behind the last member. -/
theorem Value.object_spaced {Space : Text → Prop}
    (joined : ∀ {s t}, Space s → Space t → Space (s ++ t)) {members : List Member}
    (nonempty : members ≠ [])
    (spaced : ∀ m ∈ members, Space m.before ∧ Space m.beforeColon ∧ Space m.value.before ∧
      Space m.value.after)
    (keys : ∀ m ∈ members, ∀ c ∈ m.key, c.Valid)
    (values : ∀ m ∈ members, Value Space m.value.token m.value.tree) {tail : Text}
    (space : Space tail) :
    Value Space (123 :: (commas (members.map Member.text) ++ (tail ++ [125])))
      (.object (members.map Member.tree)) := by
  obtain ⟨init, last, rfl⟩ := (List.eq_nil_or_concat' members).resolve_left nonempty
  obtain ⟨init_spaced, last_spaced⟩ := List.forall_mem_append.mp spaced
  obtain ⟨init_keys, last_keys⟩ := List.forall_mem_append.mp keys
  obtain ⟨init_values, last_value⟩ := List.forall_mem_append.mp values
  obtain ⟨before, beforeColon, first, after⟩ := last_spaced last List.mem_cons_self
  have whole := @Value.object Space (init ++
      [{ last with value := { last.value with after := last.value.after ++ tail } }])
    (by simp)
    (List.forall_mem_append.mpr ⟨init_spaced,
      List.forall_mem_singleton.mpr ⟨before, beforeColon, first, joined after space⟩⟩)
    (List.forall_mem_append.mpr
      ⟨init_keys, List.forall_mem_singleton.mpr (last_keys last List.mem_cons_self)⟩)
    (List.forall_mem_append.mpr
      ⟨init_values, List.forall_mem_singleton.mpr (last_value last List.mem_cons_self)⟩)
  have text : ({ last with value := { last.value with after := last.value.after ++ tail } } :
      Member).text = last.text ++ tail := by
    simp [Member.text, Element.text]
  rw [List.map_append, List.map_append, List.map_singleton, List.map_singleton, text] at whole
  rw [List.map_append, List.map_append, List.map_singleton, List.map_singleton,
    ← List.append_assoc, commas_tail]
  exact whole

end JsonGrammar
