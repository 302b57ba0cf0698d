import NanoProxy.ResponseHead

/-!
# The lines of a response head

`proxy_header_value` runs over the bytes of a block. Here the block is its lines, and what the
function finds is the first of them that begins with the name.
-/

namespace HeadFields

open CLib RequestDecoder ResponseHead

variable {name s : Bytes}

def headLines (block : Bytes) : List Bytes := block.splitOn LF

/-- What is behind the colon, if the line is a field with this name. -/
def lineValue (name line : Bytes) : Option Bytes :=
  if lower (line.take name.length) = lower name ∧ (line.drop name.length).head? = some COLON
  then some (line.drop (name.length + 1)) else none

def rawValues (name block : Bytes) : List Bytes := (headLines block).filterMap (lineValue name)

def firstLine (s : Bytes) : Bytes := s.takeWhile (· != LF)

theorem splitOn_firstLine (s : Bytes) : s.splitOn LF = firstLine s :: (s.splitOn LF).tail := by
  induction s with
  | nil => rfl
  | cons b s ih =>
    rw [List.splitOn_cons_eq_if_modifyHead]
    by_cases ends : b = LF
    · rw [if_pos (by rw [ends]; rfl), firstLine, List.takeWhile_cons_of_neg (by rw [ends]; decide)]
      rfl
    · have here : firstLine (b :: s) = b :: firstLine s :=
        List.takeWhile_cons_of_pos (bne_iff_ne.mpr ends)
      rw [if_neg (mt beq_iff_eq.mp ends), ih, here]
      rfl

theorem firstLine_append (s : Bytes) : s = firstLine s ∨ ∃ t, s = firstLine s ++ LF :: t := by
  have parts : firstLine s ++ s.dropWhile (· != LF) = s := List.takeWhile_append_dropWhile
  cases behind : s.dropWhile (· != LF) with
  | nil =>
    rw [behind, List.append_nil] at parts
    exact Or.inl parts.symm
  | cons b t =>
    have stops := List.head?_dropWhile_not (fun c : UInt8 => c != LF) s
    rw [behind] at stops
    have ends : b = LF := by simpa using stops
    rw [behind, ends] at parts
    exact Or.inr ⟨t, parts.symm⟩

/-- The name and the colon, in whichever case. -/
theorem lineValue_some (name s : Bytes) :
    (lower (s.take name.length) = lower name ∧ (s.drop name.length).head? = some COLON) ↔
      lower (s.take (name.length + 1)) = lower name ++ [COLON] := by
  have colon (b : UInt8) : tolower b = COLON ↔ b = COLON := by
    simpa [decide_eq_decide] using forall_byte
      (p := fun b => decide (tolower b = COLON) == decide (b = COLON)) (by decide +kernel) b
  have parts : lower (s.take (name.length + 1)) =
      lower (s.take name.length) ++ s[name.length]?.toList.map tolower := by
    rw [List.take_add_one, lower, List.map_append]
    rfl
  rw [parts, List.head?_drop]
  constructor
  · rintro ⟨same, next⟩
    rw [same, next]
    rfl
  · intro same
    cases next : s[name.length]? with
    | none =>
      rw [next] at same
      have long := congrArg List.length same
      simp only [lower, Option.toList_none, List.map_nil, List.append_nil, List.length_map,
        List.length_append, List.length_take, List.length_singleton] at long
      omega
    | some b =>
      rw [next] at same
      obtain ⟨same, last⟩ := List.append_inj' same rfl
      exact ⟨same, congrArg some ((colon b).mp (List.singleton_inj.mp last))⟩

theorem mem_lower_lf (s : Bytes) : LF ∈ lower s ↔ LF ∈ s := by
  have same (b : UInt8) : tolower b = LF ↔ b = LF := by
    simpa [decide_eq_decide] using forall_byte
      (p := fun b => decide (tolower b = LF) == decide (b = LF)) (by decide +kernel) b
  simp [lower, same]

/-- A field begins in its own line. -/
theorem lineValue_firstLine (plain : LF ∉ name) (s : Bytes) :
    (lower (s.take (name.length + 1)) = lower name ++ [COLON]) ↔
      lower ((firstLine s).take (name.length + 1)) = lower name ++ [COLON] := by
  rcases firstLine_append s with whole | ⟨t, whole⟩
  · rw [← whole]
  by_cases long : name.length + 1 ≤ (firstLine s).length
  · conv_lhs => rw [whole, List.take_append_of_le_length long]
  · have clean : LF ∉ lower name ++ [COLON] := by
      rw [List.mem_append, mem_lower_lf, not_or]
      exact ⟨plain, by decide⟩
    constructor
    · intro same
      rw [← same, mem_lower_lf, whole, List.take_append, List.mem_append, not_or] at clean
      have left : name.length + 1 - (firstLine s).length =
          name.length - (firstLine s).length + 1 := by omega
      rw [left, List.take_succ_cons] at clean
      exact absurd List.mem_cons_self clean.2
    · intro same
      have lengths := congrArg List.length same
      simp only [lower, List.length_map, List.length_append, List.length_take,
        List.length_singleton] at lengths
      omega

/-- The value does not go on in the next line. -/
theorem copyValue_append (v t : Bytes) : copyValue (v ++ LF :: t) = copyValue v := by
  have spaces : (v ++ LF :: t).dropWhile (· == SP) = v.dropWhile (· == SP) ++ LF :: t := by
    rw [List.dropWhile_append]
    split
    · rename_i blank
      rw [List.isEmpty_iff] at blank
      rw [blank]
      rfl
    · rfl
  rw [copyValue, copyValue, spaces, List.takeWhile_append]
  split
  · rw [List.takeWhile_cons_of_neg (by decide), List.append_nil]
    rename_i whole
    rw [(List.takeWhile_prefix _).eq_of_length whole]
  · rfl

theorem copyValue_firstLine (s : Bytes) {k : Nat} (inside : k ≤ (firstLine s).length) :
    copyValue (s.drop k) = copyValue ((firstLine s).drop k) := by
  rcases firstLine_append s with whole | ⟨t, whole⟩
  · rw [← whole]
  · conv_lhs => rw [whole, List.drop_append_of_le_length inside, copyValue_append]

theorem scanLines_eq (plain : LF ∉ name) (nonempty : name ≠ []) (s : Bytes) :
    scanLines name true s = ((headLines s).findSome? (lineValue name)).map copyValue ∧
      scanLines name false s =
        ((headLines s).tail.findSome? (lineValue name)).map copyValue := by
  have positive := List.length_pos_iff.mpr nonempty
  induction s with
  | nil =>
    have none_here : lineValue name [] = none := by
      rw [lineValue, if_neg]
      rintro ⟨_, found⟩
      rw [List.drop_nil] at found
      cases found
    refine ⟨?_, rfl⟩
    change none = (([[]] : List Bytes).findSome? (lineValue name)).map copyValue
    rw [List.findSome?_cons, none_here]
    rfl
  | cons b s ih =>
    have later : scanLines name (b == LF) s =
        ((headLines (b :: s)).tail.findSome? (lineValue name)).map copyValue := by
      rw [headLines, List.splitOn_cons_eq_if_modifyHead]
      cases ends : b == LF with
      | true => exact ih.1
      | false =>
        rw [ih.2, headLines, splitOn_firstLine s]
        rfl
    refine ⟨?_, ?_⟩
    · rw [headLines, splitOn_firstLine (b :: s), List.findSome?_cons, lineValue]
      rw [scanLines]
      by_cases here : lower ((b :: s).take (name.length + 1)) = lower name ++ [COLON]
      · have line := (lineValue_firstLine plain (b :: s)).mp here
        have inside : name.length + 1 ≤ (firstLine (b :: s)).length := by
          have lengths := congrArg List.length line
          simp only [lower, List.length_map, List.length_append, List.length_take,
            List.length_singleton] at lengths
          omega
        rw [if_pos ⟨rfl, (lineValue_some name (b :: s)).mpr here⟩,
          if_pos ((lineValue_some name _).mpr line)]
        exact congrArg some (copyValue_firstLine (b :: s) inside)
      · have line := mt (lineValue_firstLine plain (b :: s)).mpr here
        rw [if_neg (fun h => here ((lineValue_some name (b :: s)).mp h.2)),
          if_neg (mt (lineValue_some name _).mp line), later]
        rfl
    · rw [scanLines, if_neg (fun h => Bool.false_ne_true h.1), later]

/-- `proxy_header_value` finds the first line with the name. -/
theorem proxyHeaderValue_eq (plain : LF ∉ name) (nonempty : name ≠ []) (block : Bytes) :
    proxyHeaderValue block name = ((rawValues name block).head?).map copyValue := by
  rw [proxyHeaderValue, (scanLines_eq plain nonempty block).1, rawValues,
    List.head?_filterMap]

end HeadFields
