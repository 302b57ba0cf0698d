import NanoProxy.MessageEnd

/-!
# What passes for a Content-Length

The parser asks `strtoull` for the value, and the header table for the field. `Numeral` is the
language that `strtoull` reads to its end; it holds the empty text and signed numerals. The
table keeps one of several fields, and copies of names and values end at a NUL.
-/

namespace ContentLength

open CLib StringBuffer HttpRequestParser RequestDecoder ParserRefinement Segmentation
open RequestGrammar AnyReads MessageEnd Incremental
open HeaderTable (TableParser Keeps)

/-- A text that `strtoull(text, &end, 10)` reads to its end, and the value it gives. -/
inductive Numeral : Bytes → Nat → Prop
  | empty : Numeral [] 0
  | plain {ds : Bytes} (ne : ds ≠ []) (decimal : ∀ b ∈ ds, isdigit b = true)
      (word : ofDigits 10 ds < 2 ^ 64) : Numeral ds (ofDigits 10 ds)
  | plus {ds : Bytes} (ne : ds ≠ []) (decimal : ∀ b ∈ ds, isdigit b = true)
      (word : ofDigits 10 ds < 2 ^ 64) : Numeral (43 :: ds) (ofDigits 10 ds)
  | minus {ds : Bytes} (ne : ds ≠ []) (decimal : ∀ b ∈ ds, isdigit b = true)
      (word : ofDigits 10 ds < 2 ^ 64) : Numeral (45 :: ds) ((2 ^ 64 - ofDigits 10 ds) % 2 ^ 64)

theorem digitVal_decimal (b : UInt8) : digitVal b < 10 ↔ isdigit b = true := by
  have key := forall_byte (p := fun b => decide (digitVal b < 10) == isdigit b) (by decide +kernel) b
  rw [beq_iff_eq] at key
  rw [← key, decide_eq_true_iff]

theorem takeHexMark_decimal (s : Bytes) : takeHexMark 10 s = s := by
  rw [takeHexMark.eq_def]
  split
  · exact if_neg fun h => absurd h.1 (by decide)
  · rfl

/-- `strtoull` accepts nothing but digits behind the sign, apart from the empty text. -/
theorem strtoull_signed {v s : Bytes} {neg : Bool}
    (solid : ∀ b, v.head? = some b → isspace b = false) (sign : takeSign v = (neg, s)) (n : Nat) :
    ((strtoull v 10).erange = false ∧ (strtoull v 10).rest = [] ∧ (strtoull v 10).value = n) ↔
      (v = [] ∧ n = 0) ∨ (s ≠ [] ∧ (∀ b ∈ s, isdigit b = true) ∧ ofDigits 10 s < 2 ^ 64 ∧
        n = if neg then (2 ^ 64 - ofDigits 10 s) % 2 ^ 64 else ofDigits 10 s) := by
  have front : v.dropWhile isspace = v := by
    cases v with
    | nil => rfl
    | cons b v => exact List.dropWhile_cons_of_neg (by simp [solid b rfl])
  have digits_iff : s.takeWhile (fun b => digitVal b < 10) = s ↔ ∀ b ∈ s, isdigit b = true := by
    rw [List.takeWhile_eq_self_iff]
    exact forall₂_congr fun b _ => decide_eq_true_iff.trans (digitVal_decimal b)
  have rest_iff : s.dropWhile (fun b => digitVal b < 10) = [] ↔ ∀ b ∈ s, isdigit b = true := by
    rw [List.dropWhile_eq_nil_iff]
    exact forall₂_congr fun b _ => decide_eq_true_iff.trans (digitVal_decimal b)
  unfold strtoull
  simp only [front, sign, takeHexMark_decimal]
  by_cases none : s.takeWhile (fun b => digitVal b < 10) = []
  · rw [if_pos none]
    constructor
    · rintro ⟨-, rest, value⟩
      exact Or.inl ⟨rest, value.symm⟩
    · rintro (⟨rest, value⟩ | ⟨ne, decimal, -⟩)
      · exact ⟨rfl, rest, value.symm⟩
      · exact absurd (none ▸ digits_iff.mpr decimal) ne.symm
  · rw [if_neg none]
    have present : s ≠ [] := fun empty => none (by rw [empty]; rfl)
    have filled : v ≠ [] := by
      rintro rfl
      exact present (Prod.ext_iff.mp sign).2.symm
    by_cases big : 2 ^ 64 ≤ ofDigits 10 (s.takeWhile fun b => digitVal b < 10)
    · rw [if_pos big]
      constructor
      · rintro ⟨range, -⟩
        cases range
      · rintro (⟨empty, -⟩ | ⟨-, decimal, word, -⟩)
        · exact absurd empty filled
        · rw [digits_iff.mpr decimal] at big
          exact absurd word (Nat.not_lt.mpr big)
    · rw [if_neg big]
      constructor
      · rintro ⟨-, rest, value⟩
        have decimal := rest_iff.mp rest
        have whole := digits_iff.mpr decimal
        simp only [whole] at big value
        exact Or.inr ⟨present, decimal, Nat.not_le.mp big, value.symm⟩
      · rintro (⟨empty, -⟩ | ⟨-, decimal, -, value⟩)
        · exact absurd empty filled
        · simp only [digits_iff.mpr decimal]
          exact ⟨trivial, rest_iff.mpr decimal, value.symm⟩

theorem takeSign_cases (v : Bytes) :
    (∃ t, v = 45 :: t ∧ takeSign v = (true, t)) ∨ (∃ t, v = 43 :: t ∧ takeSign v = (false, t)) ∨
      takeSign v = (false, v) := by
  rw [takeSign.eq_def]
  split
  · exact Or.inl ⟨_, rfl, rfl⟩
  · exact Or.inr (Or.inl ⟨_, rfl, rfl⟩)
  · exact Or.inr (Or.inr rfl)

/-- A text without space in front is read to its end when it is a numeral. -/
theorem strtoull_numeral {v : Bytes} (solid : ∀ b, v.head? = some b → isspace b = false) (n : Nat) :
    ((strtoull v 10).erange = false ∧ (strtoull v 10).rest = [] ∧ (strtoull v 10).value = n) ↔
      Numeral v n := by
  constructor
  · intro accepted
    rcases takeSign_cases v with ⟨t, rfl, sign⟩ | ⟨t, rfl, sign⟩ | sign
    · rw [strtoull_signed solid sign] at accepted
      rcases accepted with ⟨empty, -⟩ | ⟨ne, decimal, word, value⟩
      · cases empty
      · rw [value]
        exact .minus ne decimal word
    · rw [strtoull_signed solid sign] at accepted
      rcases accepted with ⟨empty, -⟩ | ⟨ne, decimal, word, value⟩
      · cases empty
      · rw [value]
        exact .plus ne decimal word
    · rw [strtoull_signed solid sign] at accepted
      rcases accepted with ⟨empty, value⟩ | ⟨ne, decimal, word, value⟩
      · rw [empty, value]
        exact .empty
      · rw [value]
        exact .plain ne decimal word
  · intro numeral
    cases numeral with
    | empty => exact (strtoull_signed solid rfl 0).mpr (Or.inl ⟨rfl, rfl⟩)
    | @plain ds ne decimal word =>
      obtain ⟨b, t, rfl⟩ := List.exists_cons_of_ne_nil ne
      have digit := isdigit_plain (decimal b List.mem_cons_self)
      exact (strtoull_signed solid (takeSign_plain digit.2.2.1 digit.2.1 t) _).mpr
        (Or.inr ⟨ne, decimal, word, rfl⟩)
    | plus ne decimal word =>
      exact (strtoull_signed solid rfl _).mpr (Or.inr ⟨ne, decimal, word, rfl⟩)
    | minus ne decimal word =>
      exact (strtoull_signed solid rfl _).mpr (Or.inr ⟨ne, decimal, word, rfl⟩)

/-- A request line, header lines and the blank line behind them; each ends at an LF. -/
structure HeaderBlock where
  start : Bytes
  fields : List Bytes
  blank : Bytes
  start_line : LF ∉ start
  field_lines : ∀ line ∈ fields, LF ∉ line ∧ chomp line ≠ []
  blank_line : blank = [] ∨ blank = [CR]

/-- The field has one or more decimal digits for its value, and they denote `n`. -/
def Denotes (value : Bytes) (n : Nat) : Prop :=
  value ≠ [] ∧ (∀ b ∈ value, isdigit b = true) ∧ ofDigits 10 value = n ∧
    n ≤ Limits.default.maxBodySize

namespace HeaderBlock

variable (block : HeaderBlock)

def bytes : Bytes := block.start ++ LF :: (joinLines block.fields ++ (block.blank ++ [LF]))

/-- The values of the Content-Length fields. -/
def contentLengths : List Bytes :=
  (block.fields.filter fun line => lower (fieldName line) == ascii "content-length").map fieldValue

/-- The values that the table is given under that name: both are cut at a NUL before. -/
def storedLengths : List Bytes :=
  valuesOf (block.fields.map lineEntry) (ascii "content-length")

/-- Request line and header lines are within the limits, and no header line lacks a colon. -/
def Readable : Prop :=
  (decodeRequestLine .default block.start).isSome ∧
    (∀ line ∈ block.fields, LineFits .default line) ∧
    (shputAll [] (block.fields.map lineEntry)).length ≤ Limits.default.maxHeaders

end HeaderBlock

/-- The length of the body that the parser takes to follow, or took. -/
def lengthRead (p : HttpParser) (code : Int) : Nat :=
  if code = 1 then p.req.body.length else p.contentLength

/-- Behind the block the parser has refused it, or it goes on with a length that every
Content-Length field denotes. -/
def LengthsChecked (σ : UInt64) (block : HeaderBlock) : Prop :=
  ∀ (fd : Nat) (reads : List Bytes) (rest : Bytes) (p : TableParser) (code : Int),
    reads.flatten = block.bytes ++ rest →
    HeaderTable.feedReads σ .default (HeaderTable.httpParserInit fd) reads = some (p, code) →
    code = -1 ∨ ∀ v ∈ block.contentLengths, Denotes v (lengthRead p.parser code)

theorem run_block (block : HeaderBlock) (rest : Bytes) :
    (¬ block.Readable ∧ (decoder .default).run .start (block.bytes ++ rest) = .failed) ∨
      (block.Readable ∧ ∃ req, req.headers = shputAll [] (block.fields.map lineEntry) ∧
        req.body = [] ∧
        (decoder .default).run .start (block.bytes ++ rest) = afterHead .default req rest) := by
  have split : block.bytes ++ rest =
      block.start ++ LF :: (joinLines block.fields ++ (block.blank ++ LF :: rest)) := by
    simp [HeaderBlock.bytes]
  have blank : LF ∉ block.blank ∧ chomp block.blank = [] ∧
      block.blank.length ≤ Limits.default.maxHeaderLineSize := by
    rcases block.blank_line with h | h <;> rw [h] <;> decide
  rw [split, run_startLine block.start_line]
  cases start : decodeRequestLine .default block.start with
  | none =>
    refine Or.inl ⟨fun readable => ?_, rfl⟩
    rw [HeaderBlock.Readable, start] at readable
    cases readable.1
  | some req =>
    have fresh : req.headers = [] ∧ req.body = [] := by
      rw [decodeRequestLine] at start
      dsimp only at start
      split at start
      · cases start
        exact ⟨rfl, rfl⟩
      · cases start
    dsimp only
    rw [run_lines block.fields block.field_lines req (by rw [fresh.1]; exact Nat.zero_le _), fresh.1,
      run_blankLine blank.1 blank.2.1 blank.2.2]
    split
    · rename_i fits
      exact Or.inr ⟨⟨by rw [start]; rfl, fits⟩,
        { req with headers := shputAll [] (block.fields.map lineEntry) }, rfl, fresh.2, rfl⟩
    · rename_i fits
      exact Or.inl ⟨fun readable => fits readable.2, rfl⟩

theorem stored_solid {block : HeaderBlock} {v : Bytes}
    (last : block.storedLengths.getLast? = some v) : ∀ b, v.head? = some b → isspace b = false := by
  have listed := List.mem_of_getLast? last
  simp only [HeaderBlock.storedLengths, valuesOf, List.mem_map, List.mem_filter] at listed
  obtain ⟨_, ⟨⟨line, -, rfl⟩, -⟩, rfl⟩ := listed
  intro b hb
  have front : ∀ c, (fieldValue line).head? = some c → isspace c = false := (trim_trimmed _).1
  refine front b ?_
  change (cstr (fieldValue line)).head? = some b at hb
  rw [cstr] at hb
  cases value : fieldValue line with
  | nil =>
    rw [value] at hb
    cases hb
  | cons c t =>
    rw [value, List.takeWhile_cons] at hb
    split at hb
    · exact hb
    · cases hb

/-- A Content-Length field is stored under its name. -/
theorem stored_of_field {block : HeaderBlock} {w : Bytes} (field : w ∈ block.contentLengths) :
    ∃ v, block.storedLengths.getLast? = some v := by
  obtain ⟨line, found, -⟩ := List.mem_map.mp field
  obtain ⟨listed, name⟩ := List.mem_filter.mp found
  rw [beq_iff_eq] at name
  have plain : (0 : UInt8) ∉ fieldName line := by
    intro nul
    have mapped : tolower 0 ∈ lower (fieldName line) := List.mem_map_of_mem nul
    rw [name] at mapped
    exact absurd mapped (by decide)
  have key : (lineEntry line).1 = ascii "content-length" := by
    rw [lineEntry, cstr_eq_self plain]
    exact name
  have stored : (lineEntry line).2 ∈ block.storedLengths :=
    List.mem_map.mpr ⟨lineEntry line, List.mem_filter.mpr
      ⟨List.mem_map.mpr ⟨line, listed, rfl⟩, by rw [key]; exact beq_self_eq_true _⟩, rfl⟩
  exact ⟨_, List.getLast?_eq_some_getLast (List.ne_nil_of_mem stored)⟩

/-- The value that is stored last decides. -/
theorem framing_stored {block : HeaderBlock} {hs : Headers} {v : Bytes}
    (table : hs = shputAll [] (block.fields.map lineEntry))
    (last : block.storedLengths.getLast? = some v) :
    (decodeFraming .default hs = none ∧
        ∀ n ≤ Limits.default.maxBodySize, ¬ Numeral v n) ∨
      ∃ n ≤ Limits.default.maxBodySize, Numeral v n ∧
        decodeFraming .default hs = some (if n = 0 then .finished else .counted n) := by
  have stored : shget hs (ascii "content-length") = some v := by
    rw [table, shget_shputAll_nil]
    exact last
  have solid := stored_solid last
  unfold decodeFraming
  simp only [stored]
  split
  · rename_i accepted
    exact Or.inr ⟨_, accepted.2.2,
      (strtoull_numeral solid _).mp ⟨accepted.1, accepted.2.1, rfl⟩, rfl⟩
  · rename_i refused
    refine Or.inl ⟨rfl, fun n small numeral => refused ?_⟩
    obtain ⟨range, rest, value⟩ := (strtoull_numeral solid n).mpr numeral
    exact ⟨range, rest, by rw [value]; exact small⟩

section Counted

variable {block : HeaderBlock} {req : HttpRequest} {n : Nat} {rest : Bytes}

/-- The run behind a block that announces `n` bytes. -/
theorem afterHead_counted (empty : req.body = [])
    (framing : decodeFraming .default req.headers =
      some (if n = 0 then .finished else .counted n)) :
    afterHead .default req rest =
      if n ≤ rest.length
      then .complete ⟨.finished, { req with body := rest.take n }⟩ (rest.drop n)
      else .pending ⟨.counted (n - rest.length), { req with body := rest }⟩ [] := by
  rw [afterHead, framing]
  by_cases zero : n = 0
  · subst zero
    rw [if_pos rfl, if_pos (Nat.zero_le _), List.take_zero, List.drop_zero, ← empty]
  · rw [if_neg zero]
    dsimp only
    rw [run_counted _ _ _ _ (Nat.pos_of_ne_zero zero), empty, List.nil_append, List.nil_append]

/-- However the bytes are cut, the length that goes on behind the block is `n`. -/
theorem lengthRead_counted {fd : Nat} {reads : List Bytes} {p : HttpParser} {code : Int}
    (joined : reads.flatten = block.bytes ++ rest) (empty : req.body = [])
    (run : (decoder .default).run .start (block.bytes ++ rest) = afterHead .default req rest)
    (framing : decodeFraming .default req.headers =
      some (if n = 0 then .finished else .counted n))
    (fed : feedReads .default (httpParserInit fd) reads = (p, code)) :
    code = -1 ∨ lengthRead p code = n := by
  rw [afterHead_counted empty framing] at run
  have verdict := feedReads_verdict default_sane fd reads
  rw [fed] at verdict
  cases verdict with
  | refused => exact Or.inl rfl
  | waiting waits =>
    right
    have reached := waits.run
    rw [joined, run] at reached
    split at reached
    · cases reached
    · rename_i long
      cases reached
      obtain ⟨-, -, -, length, -⟩ := waits.sim.phase
      change p.contentLength = n
      rw [length, waits.sim.req]
      exact Nat.add_sub_of_le (Nat.le_of_not_le long)
  | complete split early done =>
    right
    rw [← joined, split, List.flatten_append, Decoder.run_append, early] at run
    split at run
    · rename_i short
      have same := (Outcome.complete.inj run).1
      change p.req.body.length = n
      rw [done.req, same]
      exact (List.length_take).trans (Nat.min_eq_left short)
    · cases run

end Counted

/-- No message ends before its blank line. -/
theorem block_end {block : HeaderBlock} {rest r : Bytes} {s : DecodeState}
    (run : (decoder .default).run .start (block.bytes ++ rest) = .complete s r) :
    r.length ≤ rest.length := by
  rcases run_block block rest with ⟨-, failed⟩ | ⟨-, req, -, -, behind⟩
  · rw [failed] at run
    cases run
  · rw [behind, afterHead] at run
    split at run
    · cases run
    · cases run
      exact Nat.le_refl _
    · exact (Decoder.run_complete_suffix run).length_le

theorem keeps_block {σ : UInt64} {block : HeaderBlock}
    (keeps : Keeps σ (block.fields.map lineEntry)) (rest : Bytes) :
    Keeps σ (RequestLines.fieldsOf .default (block.bytes ++ rest)) := by
  have blank : LF ∉ block.blank ∧ chomp block.blank = [] := by
    rcases block.blank_line with h | h <;> rw [h] <;> decide
  have whole : block.bytes ++ rest =
      block.start ++ LF :: (joinLines block.fields ++ (block.blank ++ LF :: rest)) := by
    simp [HeaderBlock.bytes]
  have head : ∃ more, block.fields.map lineEntry =
      RequestLines.fieldsOf .default (block.bytes ++ rest) ++ more := by
    rw [whole]
    exact RequestLines.fieldsOf_head .default block.start_line
      (fun line hl => (block.field_lines line hl).1) blank.1 blank.2
  obtain ⟨more, split⟩ := head
  rw [split] at keeps
  exact keeps.append_left

/-- The parser with its table goes on as the one over the map. -/
theorem fed_in_table {σ : UInt64} {block : HeaderBlock} {reads : List Bytes}
    {rest : Bytes} (fd : Nat) (keeps : Keeps σ (block.fields.map lineEntry))
    (joined : reads.flatten = block.bytes ++ rest) :
    ∃ table, HeaderTable.feedReads σ .default (HeaderTable.httpParserInit fd) reads =
      some (⟨(feedReads .default (httpParserInit fd) reads).1, table⟩,
        (feedReads .default (httpParserInit fd) reads).2) := by
  refine KeptHeaders.feedReads_kept default_sane fd reads ?_
  rw [joined]
  exact keeps_block keeps rest

/-- Where the check is right, what was stored last says what every field denotes. -/
theorem denotes_of_checked {σ : UInt64} {block : HeaderBlock} {v w : Bytes} {n : Nat}
    (keeps : Keeps σ (block.fields.map lineEntry)) (checked : LengthsChecked σ block)
    (short : block.bytes.length < STRINGBUF_MAX_CAP)
    (readable : block.Readable) (last : block.storedLengths.getLast? = some v)
    (numeral : Numeral v n) (small : n ≤ Limits.default.maxBodySize)
    (field : w ∈ block.contentLengths) : Denotes w n := by
  rcases run_block block [] with ⟨unread, -⟩ | ⟨-, req, table, empty, run⟩
  · exact absurd readable unread
  have framing : decodeFraming .default req.headers =
      some (if n = 0 then .finished else .counted n) := by
    rcases framing_stored table last with ⟨-, none⟩ | ⟨m, -, same, framing⟩
    · exact absurd numeral (none n small)
    · have equal : m = n := by
        have solid := stored_solid last
        rw [← ((strtoull_numeral solid m).mpr same).2.2,
          ← ((strtoull_numeral solid n).mpr numeral).2.2]
      rwa [equal] at framing
  let cut := byteCut block.bytes
  have joined : cut.reads.flatten = block.bytes ++ [] := by
    rw [List.append_nil]
    exact cut.joined
  have accepted : (feedReads .default (httpParserInit 0) cut.reads).2 ≠ -1 := by
    have fed := feedReads_cut default_sane 0 short cut
    rw [List.append_nil, afterHead_counted empty framing] at run
    rw [run] at fed
    split at fed
    · rw [fed.1]
      decide
    · rw [fed.1]
      decide
  have length := (lengthRead_counted joined empty run framing rfl).resolve_left accepted
  obtain ⟨table', kept⟩ := fed_in_table 0 keeps joined
  have denoted := (checked 0 cut.reads [] _ _ joined kept).resolve_left accepted w field
  change Denotes w (lengthRead (feedReads .default (httpParserInit 0) cut.reads).1 _) at denoted
  rwa [length] at denoted

theorem length_checked {block : HeaderBlock} {fd : Nat} {reads : List Bytes} {rest : Bytes}
    {p : HttpParser} {code : Int}
    (condition : STRINGBUF_MAX_CAP ≤ block.bytes.length ∨ ¬ block.Readable ∨
      ∀ v n, block.storedLengths.getLast? = some v → Numeral v n →
        n ≤ Limits.default.maxBodySize → ∀ w ∈ block.contentLengths, Denotes w n)
    (joined : reads.flatten = block.bytes ++ rest)
    (fed : feedReads .default (httpParserInit fd) reads = (p, code)) :
    code = -1 ∨ ∀ v ∈ block.contentLengths, Denotes v (lengthRead p code) := by
  have refused (failed : (decoder .default).run .start (block.bytes ++ rest) = .failed) :
      code = -1 := by
    have verdict := feedReads_failed default_sane fd (joined ▸ failed)
    rwa [fed] at verdict
  rcases condition with long | unread | denotes
  · exact Or.inl (feedReads_too_long default_sane long (fun _ _ => block_end) joined fed)
  · rcases run_block block rest with ⟨-, failed⟩ | ⟨readable, -⟩
    · exact Or.inl (refused failed)
    · exact absurd readable unread
  · rcases run_block block rest with ⟨-, failed⟩ | ⟨-, req, table, empty, run⟩
    · exact Or.inl (refused failed)
    by_cases field : ∃ w, w ∈ block.contentLengths
    swap
    · exact Or.inr fun w hw => absurd ⟨w, hw⟩ field
    obtain ⟨w, hw⟩ := field
    obtain ⟨v, last⟩ := stored_of_field hw
    rcases framing_stored table last with ⟨framing, -⟩ | ⟨n, small, numeral, framing⟩
    · exact Or.inl (refused (by rw [run, afterHead, framing]))
    · rcases lengthRead_counted joined empty run framing fed with refused | length
      · exact Or.inl refused
      · right
        rw [length]
        exact denotes v n last numeral small

/-- Which header blocks the check of Content-Length is right for, in a table that keeps its
keys. -/
theorem lengthsChecked_iff (σ : UInt64) (block : HeaderBlock)
    (keeps : Keeps σ (block.fields.map lineEntry)) :
    LengthsChecked σ block ↔
      STRINGBUF_MAX_CAP ≤ block.bytes.length ∨ ¬ block.Readable ∨
        ∀ v n, block.storedLengths.getLast? = some v → Numeral v n →
          n ≤ Limits.default.maxBodySize → ∀ w ∈ block.contentLengths, Denotes w n := by
  constructor
  · intro checked
    by_contra other
    rw [not_or, not_or, Nat.not_le, not_not] at other
    obtain ⟨short, readable, differs⟩ := other
    exact differs fun v n last numeral small w field =>
      denotes_of_checked keeps checked short readable last numeral small field
  · intro condition fd reads rest p code joined fed
    obtain ⟨table, kept⟩ := fed_in_table fd keeps joined
    rw [fed] at kept
    obtain ⟨same, code_eq⟩ := Prod.mk.inj (Option.some.inj kept)
    exact length_checked condition joined
      (Prod.ext (congrArg TableParser.parser same).symm code_eq.symm)

/-- `Content-Length:` with no value. -/
def emptyLength : HeaderBlock where
  start := ascii "GET / HTTP/1.1\r"
  fields := [ascii "Content-Length:\r"]
  blank := [CR]
  start_line := by decide
  field_lines := List.forall_mem_singleton.mpr (by decide)
  blank_line := Or.inr rfl

theorem emptyLength_keeps : Keeps StbDs.firstSeed (emptyLength.fields.map lineEntry) :=
  HeaderTable.keeps_distinct (by decide)

theorem lengthsChecked_empty :
    LengthsChecked StbDs.firstSeed emptyLength ↔
      STRINGBUF_MAX_CAP ≤ emptyLength.bytes.length ∨ ¬ emptyLength.Readable ∨
        ∀ v n, emptyLength.storedLengths.getLast? = some v → Numeral v n →
          n ≤ Limits.default.maxBodySize → ∀ w ∈ emptyLength.contentLengths, Denotes w n :=
  lengthsChecked_iff StbDs.firstSeed emptyLength (HeaderTable.keeps_distinct (by decide))

theorem lengthsChecked_fails :
    ¬ ∀ (σ : UInt64) (block : HeaderBlock), LengthsChecked σ block := by
  intro always
  have readable : emptyLength.Readable := ⟨by decide, by decide, by decide⟩
  exact (denotes_of_checked emptyLength_keeps (always StbDs.firstSeed emptyLength) (by decide)
    readable (v := []) (by decide) .empty (Nat.zero_le _) (w := []) (by decide)).1 rfl

end ContentLength
