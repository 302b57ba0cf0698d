import NanoProxy.StaticDescriptors

/-!
# Range requests

`http_static_dir` reads a number on each side of the first dash of a `Range` header and takes
0 and the last byte for numbers that it does not find. RFC 9110 gives the suffix of a file to a
range without a first number.
-/

namespace RangeRequests

open CLib ResponseHead StaticBody

variable {val before behind s t : Bytes} {size : Nat}

/-- `range_start` and `range_end` of a 206 -/
def partialRange (size : Nat) (rangeVal : Option Bytes) : Option (Int × Int) :=
  let (rangeStart, rangeEnd) := rangeBounds size rangeVal
  if hasRange rangeVal ∧ 0 ≤ rangeStart ∧ rangeStart ≤ rangeEnd ∧ rangeEnd < size then
    some (rangeStart, rangeEnd)
  else none

def Digits (s : Bytes) : Prop := s ≠ [] ∧ ∀ b ∈ s, isdigit b = true

inductive RangeSpec where
  | between (first last : Nat)
  | onward (first : Nat)
  | suffix (length : Nat)
  deriving DecidableEq

/-- The headers with a single range. -/
inductive ByteRange : Bytes → RangeSpec → Prop
  | between {a b : Bytes} (left : Digits a) (right : Digits b)
      (ordered : ofDigits 10 a ≤ ofDigits 10 b) :
      ByteRange (ascii "bytes=" ++ (a ++ 45 :: b)) (.between (ofDigits 10 a) (ofDigits 10 b))
  | onward {a : Bytes} (left : Digits a) :
      ByteRange (ascii "bytes=" ++ (a ++ [45])) (.onward (ofDigits 10 a))
  | suffix {k : Bytes} (right : Digits k) :
      ByteRange (ascii "bytes=" ++ 45 :: k) (.suffix (ofDigits 10 k))

/-- The first and the last byte of a range that can be satisfied. -/
def selected (size : Nat) : RangeSpec → Option (Nat × Nat)
  | .between first last => if first < size then some (first, min last (size - 1)) else none
  | .onward first => if first < size then some (first, size - 1) else none
  | .suffix length =>
    if 0 < length ∧ 0 < size then some (size - min length size, size - 1) else none

/-- A 206 has the range of the header, and a header that is no range gets the whole file. -/
def FollowsRfc (size : Nat) (val : Bytes) : Prop :=
  (∀ spec, ByteRange val spec → ∀ bounds, partialRange size (some val) = some bounds →
    ∃ first last : Nat, selected size spec = some (first, last) ∧ bounds = (↑first, ↑last) ∧
      first ≤ last ∧ last < size ∧ chosenBody size (some val) = ⟨first, last - first + 1⟩) ∧
  ((∀ spec, ¬ByteRange val spec) →
    partialRange size (some val) = none ∧ chosenBody size (some val) = ⟨0, size⟩)

/-- The number that `strtoll` finds, or 0. -/
def leading (text : Bytes) : Int :=
  let (neg, number) := takeSign (text.dropWhile isspace)
  let v : Int := ofDigits 10 (number.takeWhile isdigit)
  if neg then -v else v

/-- The text on the two sides of the first dash -/
structure Split (val before behind : Bytes) : Prop where
  same : val = ascii "bytes=" ++ (before ++ 45 :: behind)
  first : ∀ b ∈ before, b ≠ 45

/-- No suffix of a part of the file is asked for, and a header that is no range names a byte
outside of the file. -/
def Unambiguous (size : Nat) (val : Bytes) : Prop :=
  (∀ k, ByteRange val (.suffix k) → size ≤ k) ∧
  ((∀ spec, ¬ByteRange val spec) → ∀ before behind, Split val before behind →
    (size : Int) ≤ leading before ∨ (size : Int) ≤ leading behind)

theorem atol_leading (text : Bytes) : atol text = max (min (leading text) (2 ^ 63 - 1)) (-2 ^ 63) := by
  unfold atol leading
  dsimp only
  split
  · omega
  · omega

theorem leading_digits (digit : ∀ b ∈ s, isdigit b = true) : leading s = ofDigits 10 s := by
  have first : ∀ b, s.head? = some b → isdigit b = true := fun b head =>
    digit b (List.mem_of_mem_head? head)
  unfold leading
  rw [takeSign_digits first]
  dsimp only
  rw [if_neg Bool.false_ne_true, List.takeWhile_eq_self_iff.mpr digit]

/-- A text without a dash has no minus. -/
theorem takeSign_append (some_text : s ≠ []) (plain : ∀ b ∈ s, b ≠ 45) (t : Bytes) :
    (takeSign s).1 = false ∧ takeSign (s ++ t) = (false, (takeSign s).2 ++ t) := by
  obtain ⟨b, s, rfl⟩ := List.exists_cons_of_ne_nil some_text
  by_cases plus : b = 43
  · subst b
    exact ⟨rfl, rfl⟩
  · have minus := plain b List.mem_cons_self
    rw [List.cons_append, takeSign_plain minus plus, takeSign_plain minus plus]
    exact ⟨rfl, rfl⟩

theorem takeWhile_dash (s behind : Bytes) :
    (s ++ 45 :: behind).takeWhile isdigit = s.takeWhile isdigit := by
  have dash : (45 :: behind).takeWhile isdigit = [] := rfl
  rw [List.takeWhile_append, dash, List.append_nil]
  split
  · rename_i whole
    exact ((List.takeWhile_prefix isdigit).eq_of_length whole).symm
  · rfl

/-- The first number, as far as it fits. -/
theorem start_eq (behind : Bytes) (first : ∀ b ∈ before, b ≠ 45) :
    0 ≤ leading before ∧
      (stringbufParseLl (before ++ 45 :: behind) = none ∧ leading before = 0 ∨
        ∃ rs, stringbufParseLl (before ++ 45 :: behind) = some rs ∧
          (if before.length ≠ 0 ∧ 0 ≤ rs then rs else 0) = min (leading before) (2 ^ 63 - 1)) := by
  unfold stringbufParseLl atol
  by_cases blank : before.dropWhile isspace = []
  · have none_found : leading before = 0 := by
      rw [leading, blank]
      rfl
    have signed : takeSign ((before ++ 45 :: behind).dropWhile isspace) = (true, behind) := by
      rw [List.dropWhile_append, blank]
      rfl
    rw [none_found, signed]
    refine ⟨Int.le_refl 0, ?_⟩
    dsimp only
    generalize (ofDigits 10 (behind.takeWhile isdigit) : Nat) = v
    by_cases absent : behind.takeWhile isdigit = []
    · rw [if_pos absent]
      exact Or.inl ⟨rfl, rfl⟩
    · rw [if_neg absent]
      refine Or.inr ⟨_, rfl, ?_⟩
      rw [if_pos rfl]
      split
      · omega
      · rfl
  · have inside : ∀ b ∈ before.dropWhile isspace, b ≠ 45 := fun b listed =>
      first b ((List.dropWhile_suffix _).subset listed)
    have unsigned := takeSign_append blank inside (45 :: behind)
    have signed : takeSign ((before ++ 45 :: behind).dropWhile isspace) =
        (false, (takeSign (before.dropWhile isspace)).2 ++ 45 :: behind) := by
      rw [List.dropWhile_append, if_neg (by rw [List.isEmpty_iff]; exact blank), unsigned.2]
    have some_text : before.length ≠ 0 := by
      intro empty
      rw [List.eq_nil_of_length_eq_zero empty] at blank
      exact blank rfl
    have pair : takeSign (before.dropWhile isspace) =
        (false, (takeSign (before.dropWhile isspace)).2) := Prod.ext unsigned.1 rfl
    unfold leading
    rw [signed, pair]
    dsimp only
    rw [takeWhile_dash, if_neg Bool.false_ne_true]
    generalize (takeSign (before.dropWhile isspace)).2.takeWhile isdigit = digits
    refine ⟨Int.natCast_nonneg _, ?_⟩
    by_cases absent : digits = []
    · rw [if_pos absent, absent]
      exact Or.inl ⟨rfl, rfl⟩
    · rw [if_neg absent]
      refine Or.inr ⟨_, rfl, ?_⟩
      rw [if_neg Bool.false_ne_true, if_pos ⟨some_text, by omega⟩]

/-- A number stands at the beginning. -/
def Numbered (text : Bytes) : Prop := (takeSign (text.dropWhile isspace)).2.takeWhile isdigit ≠ []

instance : DecidablePred Numbered := fun _ => inferInstanceAs (Decidable (_ ≠ _))

theorem parseLl_eq (text : Bytes) : stringbufParseLl text =
    if Numbered text then some (max (min (leading text) (2 ^ 63 - 1)) (-2 ^ 63)) else none := by
  rw [stringbufParseLl, atol_leading]
  by_cases numbered : Numbered text
  · rw [if_pos numbered]
    exact if_neg numbered
  · rw [if_neg numbered]
    exact if_pos (not_not.mp numbered)

theorem leading_none (absent : ¬Numbered s) : leading s = 0 := by
  unfold Numbered at absent
  unfold leading
  dsimp only
  rw [not_not.mp absent]
  split
  · rfl
  · rfl

theorem Split.memchr (h : Split val before behind) :
    memchr (before ++ 45 :: behind) 45 0 = some before.length := by
  rw [memchr_append List.drop_zero h.first, Nat.zero_add]

theorem hasRange_iff (val : Bytes) :
    hasRange (some val) = true ↔ ∃ before behind, Split val before behind := by
  constructor
  · intro has
    simp only [hasRange, Bool.and_eq_true, decide_eq_true_eq] at has
    obtain ⟨unit, found⟩ := has
    obtain ⟨dash, here⟩ := Option.isSome_iff_exists.mp found
    rw [CLib.memchr, List.drop_zero] at here
    obtain ⟨k, at_k, rfl⟩ := Option.map_eq_some_iff.mp here
    obtain ⟨below, is_dash, earlier⟩ := List.findIdx?_eq_some_iff_getElem.mp at_k
    refine ⟨(val.drop 6).take k, (val.drop 6).drop (k + 1), ?_, ?_⟩
    · have byte : (val.drop 6)[k] = 45 := eq_of_beq is_dash
      rw [← unit, ← byte, List.getElem_cons_drop, List.take_append_drop, List.take_append_drop]
    · intro b listed
      obtain ⟨i, inside, rfl⟩ := List.getElem_of_mem listed
      rw [List.length_take] at inside
      have other := earlier i (by omega)
      rw [List.getElem_take]
      simpa using other
  · rintro ⟨before, behind, split⟩
    have unit : val.take 6 = ascii "bytes=" := by
      rw [split.same]
      rfl
    have nums : val.drop 6 = before ++ 45 :: behind := by
      rw [split.same]
      rfl
    rw [hasRange, unit, nums, split.memchr]
    rfl

theorem rangeBounds_split (size : Nat) (h : Split val before behind) :
    rangeBounds size (some val) = (min (leading before) (2 ^ 63 - 1),
      if Numbered behind ∧ min (leading before) (2 ^ 63 - 1) ≤
          max (min (leading behind) (2 ^ 63 - 1)) (-2 ^ 63)
        then max (min (leading behind) (2 ^ 63 - 1)) (-2 ^ 63) else size - 1) := by
  have unit : val.take 6 = ascii "bytes=" := by
    rw [h.same]
    rfl
  have nums : val.drop 6 = before ++ 45 :: behind := by
    rw [h.same]
    rfl
  have rest : (before ++ 45 :: behind).drop (before.length + 1) = behind := by
    rw [List.drop_append]
    simp
  unfold rangeBounds
  dsimp only
  rw [if_neg (not_not.mpr unit), nums, h.memchr]
  dsimp only
  rw [rest, parseLl_eq behind]
  rcases (start_eq behind h.first).2 with ⟨nothing, zero⟩ | ⟨rs, found, start⟩
  · rw [nothing, zero]
    dsimp only
    by_cases numbered : Numbered behind
    · simp only [numbered, if_true, true_and]
      rfl
    · simp only [numbered, if_false, false_and]
      rfl
  · rw [found]
    dsimp only
    simp only [start]
    by_cases numbered : Numbered behind
    · simp only [numbered, if_true, true_and]
    · simp only [numbered, if_false, false_and]

/-- What is sent for the two numbers -/
theorem partialRange_split (representable : size < 2 ^ 63) (h : Split val before behind) :
    partialRange size (some val) =
      if leading before < size ∧ leading behind < size then
        some (leading before, if Numbered behind ∧ leading before ≤ leading behind
          then leading behind else size - 1)
      else none := by
  obtain ⟨nonneg, _⟩ := start_eq behind h.first
  have has : hasRange (some val) = true := (hasRange_iff val).mpr ⟨before, behind, h⟩
  unfold partialRange
  rw [rangeBounds_split size h, has]
  dsimp only
  generalize leading before = a at nonneg ⊢
  by_cases numbered : Numbered behind
  · simp only [numbered, true_and]
    generalize leading behind = b
    by_cases fits : a < size ∧ b < size
    · have start : min a (2 ^ 63 - 1) = a := by omega
      rw [if_pos fits]
      simp only [start]
      by_cases order : a ≤ b
      · have last : max (min b (2 ^ 63 - 1)) (-2 ^ 63) = b := by omega
        simp only [last, order, if_true]
        exact if_pos ⟨nonneg, trivial, fits.2⟩
      · have less : ¬a ≤ max (min b (2 ^ 63 - 1)) (-2 ^ 63) := by
          have cut : min b (2 ^ 63 - 1) ≤ b := Int.min_le_left b _
          rw [Int.not_le, Int.max_lt]
          omega
        simp only [less, order, if_false]
        rw [if_pos (by omega)]
    · have within : min a (2 ^ 63 - 1) < size ↔ a < size := by omega
      have within' : max (min b (2 ^ 63 - 1)) (-2 ^ 63) < size ↔ b < size := by omega
      rw [if_neg fits, if_neg]
      rintro ⟨_, order, end_inside⟩
      have start_inside := Int.lt_of_le_of_lt order end_inside
      split at end_inside
      · exact fits ⟨within.mp start_inside, within'.mp end_inside⟩
      · omega
  · have none_found := leading_none numbered
    simp only [numbered, false_and, true_and, if_false, none_found]
    by_cases fits : a < size
    · rw [if_pos (by omega), if_pos (by omega)]
      congr 2
      omega
    · rw [if_neg (by omega), if_neg (by omega)]

theorem partialRange_none (size : Nat) (whole : ¬∃ before behind, Split val before behind) :
    partialRange size (some val) = none := by
  unfold partialRange
  dsimp only
  rw [if_neg]
  rintro ⟨has, _⟩
  exact whole ((hasRange_iff val).mp has)

theorem chosenBody_eq (size : Nat) (rangeVal : Option Bytes) :
    chosenBody size rangeVal = match partialRange size rangeVal with
      | some (first, last) => ⟨first.toNat, (last - first + 1).toNat⟩
      | none => ⟨0, size⟩ := by
  unfold chosenBody partialRange
  dsimp only
  split
  · rfl
  · rfl

theorem isRange_iff (req : HttpRequestParser.HttpRequest) (file : StaticDescriptors.File) :
    StaticDescriptors.isRange req file = true ↔
      (partialRange file.size (HttpRequestParser.shget req.headers (ascii "range"))).isSome = true := by
  unfold StaticDescriptors.isRange partialRange
  dsimp only
  rw [Option.isSome_ite]
  simp only [Bool.and_eq_true, decide_eq_true_eq, and_assoc]

theorem Digits.no_dash (h : Digits s) : ∀ b ∈ s, b ≠ 45 := fun b listed =>
  (isdigit_plain (h.2 b listed)).2.2.1

theorem Digits.numbered (h : Digits s) : Numbered s := by
  have first : ∀ b, s.head? = some b → isdigit b = true := fun b head =>
    h.2 b (List.mem_of_mem_head? head)
  rw [Numbered, takeSign_digits first, List.takeWhile_eq_self_iff.mpr h.2]
  exact h.1

/-- The range of a header that has one, unless it is a suffix -/
theorem between_range (representable : size < 2 ^ 63) (left : Digits s) (right : Digits t)
    (ordered : ofDigits 10 s ≤ ofDigits 10 t) :
    partialRange size (some (ascii "bytes=" ++ (s ++ 45 :: t))) =
      if ofDigits 10 t < size then some (↑(ofDigits 10 s), ↑(ofDigits 10 t)) else none := by
  rw [partialRange_split representable ⟨rfl, left.no_dash⟩, leading_digits left.2,
    leading_digits right.2]
  by_cases fits : ofDigits 10 t < size
  · rw [if_pos (by omega), if_pos ⟨right.numbered, by omega⟩, if_pos fits]
  · rw [if_neg (by omega), if_neg fits]

theorem onward_range (representable : size < 2 ^ 63) (left : Digits s) :
    partialRange size (some (ascii "bytes=" ++ (s ++ [45]))) =
      if ofDigits 10 s < size then some (↑(ofDigits 10 s), (size : Int) - 1) else none := by
  have missing : ¬Numbered [] := by decide
  rw [partialRange_split representable ⟨rfl, left.no_dash⟩, leading_digits left.2,
    leading_none missing]
  by_cases fits : ofDigits 10 s < size
  · rw [if_pos (by omega), if_neg (fun both => missing both.1), if_pos fits]
  · rw [if_neg (by omega), if_neg fits]

theorem suffix_range (representable : size < 2 ^ 63) (right : Digits t) :
    partialRange size (some (ascii "bytes=" ++ 45 :: t)) =
      if ofDigits 10 t < size then some (0, ↑(ofDigits 10 t)) else none := by
  have zero : leading [] = 0 := leading_none (by decide)
  have split : Split (ascii "bytes=" ++ 45 :: t) [] t := ⟨rfl, List.forall_mem_nil _⟩
  rw [partialRange_split representable split, zero, leading_digits right.2]
  by_cases fits : ofDigits 10 t < size
  · rw [if_pos (by omega), if_pos ⟨right.numbered, by omega⟩, if_pos fits]
  · rw [if_neg (by omega), if_neg fits]

/-- The ranges are those of RFC 9110 if and only if the header is neither a suffix within the
file nor no range with two numbers within it. -/
theorem followsRfc_iff (size : Nat) (val : Bytes) (representable : size < 2 ^ 63) :
    FollowsRfc size val ↔ Unambiguous size val := by
  constructor
  · rintro ⟨valid, invalid⟩
    constructor
    · intro k range
      have rfc := valid _ range
      by_contra within
      cases range with
      | suffix right =>
        have sent := suffix_range representable right
        rw [if_pos (by omega)] at sent
        obtain ⟨first, last, chosen, bounds, _, _⟩ := rfc _ sent
        -- the suffix does not start at the first byte
        rw [selected, Option.ite_none_right_eq_some] at chosen
        simp only [Option.some.injEq, Prod.mk.injEq] at chosen bounds
        omega
    · intro none before behind split
      have whole := (invalid none).1
      rw [partialRange_split representable split] at whole
      by_contra inside
      rw [if_pos (by omega)] at whole
      cases whole
  · rintro ⟨suffix, invalid⟩
    constructor
    · intro spec range bounds sent
      rw [chosenBody_eq, sent]
      cases range with
      | @between a b left right ordered =>
        rw [between_range representable left right ordered, Option.ite_none_right_eq_some] at sent
        obtain ⟨fits, same⟩ := sent
        cases same
        refine ⟨ofDigits 10 a, ofDigits 10 b, ?_, rfl, ordered, fits, ?_⟩
        · rw [selected, if_pos (by omega), Nat.min_eq_left (by omega)]
        · dsimp only
          congr 1
          omega
      | @onward a left =>
        rw [onward_range representable left, Option.ite_none_right_eq_some] at sent
        obtain ⟨fits, same⟩ := sent
        cases same
        refine ⟨ofDigits 10 a, size - 1, ?_, ?_, by omega, by omega, ?_⟩
        · rw [selected, if_pos fits]
        · congr 1
          omega
        · dsimp only
          congr 1
          omega
      | suffix right =>
        have outside := suffix _ (.suffix right)
        rw [suffix_range representable right, if_neg (by omega)] at sent
        cases sent
    · intro none
      have nothing : partialRange size (some val) = Option.none := by
        by_cases split : ∃ before behind, Split val before behind
        · obtain ⟨before, behind, split⟩ := split
          have outside := invalid none before behind split
          rw [partialRange_split representable split, if_neg (by omega)]
        · exact partialRange_none size split
      rw [chosenBody_eq, nothing]
      exact ⟨rfl, rfl⟩

theorem followsRfc_sample : FollowsRfc 1000 (ascii "bytes=100-199") := by
  apply (followsRfc_iff 1000 (ascii "bytes=100-199") (by decide)).mpr
  constructor
  · intro k range
    generalize text : ascii "bytes=100-199" = val at range
    cases range with
    | suffix right =>
      have sixth : some (49 : UInt8) = some 45 := congrArg (·[6]?) text
      exact absurd sixth (by decide)
  · intro invalid
    have left : Digits (ascii "100") := ⟨by decide, by decide +kernel⟩
    have right : Digits (ascii "199") := ⟨by decide, by decide +kernel⟩
    have text : ascii "bytes=100-199" = ascii "bytes=" ++ (ascii "100" ++ 45 :: ascii "199") := by
      decide
    rw [text] at invalid
    exact absurd (ByteRange.between left right (by decide)) (invalid _)

/-- For the last 500 bytes the first 501 are sent. -/
theorem not_followsRfc : ¬∀ size val, size < 2 ^ 63 → FollowsRfc size val := by
  intro always
  have right : Digits (ascii "500") := ⟨by decide, by decide +kernel⟩
  have follows := (always 1000 (ascii "bytes=" ++ 45 :: ascii "500") (by decide)).1
  have sent : partialRange 1000 (some (ascii "bytes=" ++ 45 :: ascii "500")) = some (0, 500) := by
    decide +kernel
  obtain ⟨first, last, chosen, bounds, _⟩ := follows _ (.suffix right) _ sent
  have rfc : selected 1000 (.suffix (ofDigits 10 (ascii "500"))) = some (500, 999) := by
    decide +kernel
  rw [rfc] at chosen
  cases chosen
  exact absurd bounds (by decide)

end RangeRequests
