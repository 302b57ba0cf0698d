import NanoProxy.MessageEnd

/-!
# What passes for a chunk-size line

The line is copied into a C string and cut at the first semicolon, so the digits that are
checked end at a NUL as well, and there may be none of them. `SizeText` is the grammar of the
line, `checkedDigits` what the parser looks at.
-/

namespace ChunkSizeLines

open CLib StringBuffer HttpRequestParser RequestDecoder ParserRefinement Segmentation
open RequestGrammar RequestWire AnyReads MessageEnd Incremental

/-- `text`, the line without its terminator, announces a chunk of `n` bytes that a body of
`bodyLen` bytes has room for. -/
structure SizeText (bodyLen : Nat) (text : Bytes) (n : Nat) : Prop where
  split : ∃ digits ext, text = digits ++ ext ∧ digits ≠ [] ∧ (∀ b ∈ digits, isxdigit b = true) ∧
    (∀ b, ext.head? = some b → b = SEMI) ∧ ofDigits 16 digits = n
  short : text.length < 32
  chunk : n ≤ Limits.default.maxChunkSize
  body : bodyLen + n ≤ Limits.default.maxBodySize

/-- The text in front of the first semicolon. -/
def sizePart (text : Bytes) : Bytes := text.takeWhile (· != SEMI)

/-- What the C string of the line holds in front of its first semicolon. -/
def checkedDigits (text : Bytes) : Bytes := (cstr text).takeWhile (· != SEMI)

/-- A parser that waits at a chunk-size line with nothing unread, and the line that comes. -/
structure ReachedLine where
  fd : Nat
  front : List Bytes
  waiting : HttpParser
  line : Bytes
  fed : feedReads .default (httpParserInit fd) front = (waiting, 0)
  state : waiting.state = .body ∧ waiting.chunked = true ∧ waiting.contentLength = 0
  used : waiting.pos = waiting.buffer.data.length
  one : LF ∉ line

namespace ReachedLine

variable (reached : ReachedLine)

def text : Bytes := chomp reached.line

def bodyLen : Nat := reached.waiting.req.body.length

/-- The bytes up to the end of the line. -/
def bytes : Bytes := reached.front.flatten ++ (reached.line ++ [LF])

end ReachedLine

/-- The size that the parser goes on with behind the line. -/
def sizeRead (p : HttpParser) (code : Int) : Nat := if code = 1 then 0 else p.contentLength

/-- However the bytes are cut and whatever follows the line, the parser refuses it or it is in
the grammar, and its digits denote the size that the parser goes on with. -/
def SizeChecked (reached : ReachedLine) : Prop :=
  ∀ (fd : Nat) (reads : List Bytes) (rest : Bytes) (p : HttpParser) (code : Int),
    reads.flatten = reached.bytes ++ rest →
    feedReads .default (httpParserInit fd) reads = (p, code) →
    code = -1 ∨ ∃ n, SizeText reached.bodyLen reached.text n ∧ (rest = [] → sizeRead p code = n)

theorem checkedDigits_eq (text : Bytes) : checkedDigits text = cstr (sizePart text) := by
  rw [checkedDigits, sizePart, cstr, cstr, List.takeWhile_takeWhile, List.takeWhile_takeWhile]
  congr 1
  funext b
  rw [decide_eq_decide]
  exact and_comm

theorem strtoull_checked {ds : Bytes} (hex : ∀ b ∈ ds, isxdigit b = true) :
    strtoull ds 16 = if 2 ^ 64 ≤ ofDigits 16 ds then ⟨2 ^ 64 - 1, [], true⟩
      else ⟨ofDigits 16 ds, [], false⟩ := by
  by_cases empty : ds = []
  · subst empty
    decide
  · exact strtoull_plain empty (fun b hb => (xdigit_plain (hex b hb)).1)
      (fun b hb => (xdigit_plain (hex b hb)).2.1) (fun b hb => (xdigit_plain (hex b hb)).2.2.1)

/-- The line is accepted by its length, its checked digits and their value. -/
def Accepts (bodyLen : Nat) (text : Bytes) : Prop :=
  (0 < text.length ∧ text.length < 32) ∧ (∀ b ∈ checkedDigits text, isxdigit b = true) ∧
    ofDigits 16 (checkedDigits text) ≤ Limits.default.maxChunkSize ∧
    bodyLen + ofDigits 16 (checkedDigits text) ≤ Limits.default.maxBodySize

/-- The ways to be refused. -/
theorem refuses_iff {bodyLen : Nat} {text : Bytes} :
    ¬ Accepts bodyLen text ↔
      text = [] ∨ 32 ≤ text.length ∨ (∃ b ∈ checkedDigits text, isxdigit b = false) ∨
        Limits.default.maxChunkSize < ofDigits 16 (checkedDigits text) ∨
        Limits.default.maxBodySize < bodyLen + ofDigits 16 (checkedDigits text) := by
  rw [Accepts, List.length_pos_iff]
  constructor
  · intro refuses
    by_contra none
    simp only [not_or, not_exists, not_and, Nat.not_le, Nat.not_lt, Bool.not_eq_false] at none
    exact refuses ⟨⟨none.1, none.2.1⟩, none.2.2⟩
  · rintro (empty | long | ⟨b, hb, other⟩ | chunk | body) ⟨⟨present, short⟩, hex, small, room⟩
    · exact present empty
    · omega
    · rw [hex b hb] at other
      cases other
    · omega
    · omega

theorem decodeChunkSize_accepts (bodyLen : Nat) (line : Bytes) :
    (Accepts bodyLen (chomp line) ∧
        decodeChunkSize .default bodyLen line = some (ofDigits 16 (checkedDigits (chomp line)))) ∨
      (¬ Accepts bodyLen (chomp line) ∧ decodeChunkSize .default bodyLen line = none) := by
  have limits : Limits.default.maxChunkSize ≤ Limits.default.maxBodySize ∧
      Limits.default.maxBodySize < 2 ^ 64 := by decide
  have scan : (cstr (chomp line)).takeWhile (· != SEMI) = checkedDigits (chomp line) := rfl
  rw [decodeChunkSize, scan]
  by_cases accepts : Accepts bodyLen (chomp line)
  · refine Or.inl ⟨accepts, ?_⟩
    obtain ⟨length, hex, chunk, body⟩ := accepts
    have number := strtoull_checked hex
    rw [if_neg (by omega)] at number
    rw [number, if_pos ⟨length, List.all_eq_true.mpr hex, rfl, rfl, chunk, by dsimp only; omega⟩]
  · refine Or.inr ⟨accepts, if_neg ?_⟩
    rintro ⟨length, all, range, -, chunk, body⟩
    have hex := List.all_eq_true.mp all
    have number := strtoull_checked hex
    split at number
    · rw [number] at range
      cases range
    · rw [number] at chunk body
      dsimp only at chunk body
      exact accepts ⟨length, hex, chunk, by omega⟩

/-- A line is in the grammar when it is accepted and its digits are all there. -/
theorem sizeText_of_accepts {bodyLen : Nat} {text : Bytes} (accepts : Accepts bodyLen text)
    (present : sizePart text ≠ []) (plain : (0 : UInt8) ∉ sizePart text) :
    SizeText bodyLen text (ofDigits 16 (checkedDigits text)) := by
  obtain ⟨length, hex, chunk, body⟩ := accepts
  have whole : checkedDigits text = sizePart text := by
    rw [checkedDigits_eq, cstr_eq_self plain]
  refine ⟨⟨sizePart text, text.dropWhile (· != SEMI), ?_, present, ?_, ?_, by rw [whole]⟩,
    length.2, chunk, body⟩
  · exact List.takeWhile_append_dropWhile.symm
  · rwa [whole] at hex
  · intro b hb
    have stop := List.head?_dropWhile_not (· != SEMI) text
    rw [hb] at stop
    simpa using stop

/-- Nothing else is in the grammar. -/
theorem sizeText_part {bodyLen : Nat} {text : Bytes} {n : Nat} (good : SizeText bodyLen text n) :
    sizePart text ≠ [] ∧ (0 : UInt8) ∉ sizePart text := by
  obtain ⟨digits, ext, rfl, ne, hex, semi, -⟩ := good.split
  have part : sizePart (digits ++ ext) = digits := by
    refine takeWhile_stops (fun b hb => by simpa using (xdigit_plain (hex b hb)).2.2.2.2.1) ?_
    intro b hb
    rw [semi b hb]
    decide
  rw [part]
  exact ⟨ne, fun nul => (xdigit_plain (hex _ nul)).2.2.2.1 rfl⟩

namespace ReachedLine

variable (reached : ReachedLine)

theorem run_front : (decoder .default).run .start reached.front.flatten =
    .pending ⟨.chunkSize, reached.waiting.req⟩ [] := by
  obtain ⟨s, l, waits⟩ := feedReads_pending default_sane reached.fd reached.fed
  obtain ⟨phase, req⟩ := s
  have nothing : l = [] := by
    rw [← waits.sim.rest, reached.used]
    exact List.drop_length
  have same : reached.waiting.req = req := waits.sim.req
  have here : phase = .chunkSize := by
    have sim := waits.sim.phase
    obtain ⟨body, chunked, size⟩ := reached.state
    cases phase with
    | requestLine => cases body.symm.trans sim.1
    | headers => cases body.symm.trans sim.1
    | counted n => cases chunked.symm.trans sim.2.1
    | chunkSize => rfl
    | chunkData n =>
      obtain ⟨-, -, length, positive⟩ := sim
      omega
    | finished => exact absurd sim id
  rw [waits.run, nothing, same, here]

/-- What the decoder makes of the line. -/
theorem run_bytes (rest : Bytes) :
    (decoder .default).run .start (reached.bytes ++ rest) =
      match decodeChunkSize .default reached.bodyLen reached.line with
      | none => .failed
      | some 0 => .complete ⟨.finished, reached.waiting.req⟩ rest
      | some (n + 1) => (decoder .default).run ⟨.chunkData (n + 1), reached.waiting.req⟩ rest := by
  have split : reached.bytes ++ rest = reached.front.flatten ++ (reached.line ++ LF :: rest) := by
    simp [bytes]
  rw [split, Decoder.run_append, reached.run_front]
  exact run_sizeLine reached.one reached.waiting.req rest

/-- The parser goes on with the size that the decoder reads. -/
theorem sizeRead_eq {fd : Nat} {reads : List Bytes} {p : HttpParser} {code : Int} {n : Nat}
    (joined : reads.flatten = reached.bytes)
    (decoded : decodeChunkSize .default reached.bodyLen reached.line = some n)
    (fed : feedReads .default (httpParserInit fd) reads = (p, code)) :
    code = -1 ∨ sizeRead p code = n := by
  have run := reached.run_bytes []
  rw [decoded, List.append_nil, ← joined] at run
  have verdict := feedReads_verdict default_sane fd reads
  rw [fed] at verdict
  cases verdict with
  | refused => exact Or.inl rfl
  | waiting waits =>
    right
    rw [waits.run] at run
    cases n with
    | zero => cases run
    | succ n =>
      dsimp only at run
      rw [run_nil] at run
      cases run
      exact waits.sim.phase.2.2.1
  | complete split early =>
    right
    rw [split, List.flatten_append, Decoder.run_append, early] at run
    cases n with
    | zero => rfl
    | succ n =>
      dsimp only at run
      rw [run_nil] at run
      cases run

/-- No message ends before the line does. -/
theorem line_end {rest r : Bytes} {s : DecodeState}
    (run : (decoder .default).run .start (reached.bytes ++ rest) = .complete s r) :
    r.length ≤ rest.length := by
  rw [reached.run_bytes] at run
  split at run
  · cases run
  · cases run
    exact Nat.le_refl _
  · exact (Decoder.run_complete_suffix run).length_le

end ReachedLine

/-- Where the line fits in the buffer, and is accepted, it has to be in the grammar. -/
theorem sizeText_of_checked {reached : ReachedLine} (checked : SizeChecked reached)
    (short : reached.bytes.length < STRINGBUF_MAX_CAP)
    (accepts : Accepts reached.bodyLen reached.text) :
    ∃ n, SizeText reached.bodyLen reached.text n := by
  rcases decodeChunkSize_accepts reached.bodyLen reached.line with ⟨-, decoded⟩ | ⟨refuses, -⟩
  swap
  · exact absurd accepts refuses
  let cut := byteCut reached.bytes
  have joined : cut.reads.flatten = reached.bytes ++ [] := by
    rw [List.append_nil]
    exact cut.joined
  have accepted : (feedReads .default (httpParserInit 0) cut.reads).2 ≠ -1 := by
    have run := reached.run_bytes []
    have fed := feedReads_cut default_sane 0 short cut
    rw [List.append_nil, decoded] at run
    rw [run] at fed
    split at fed
    · rename_i zero
      cases zero
    · rw [fed.1]
      decide
    · rw [run_nil] at fed
      rw [fed.1]
      decide
  obtain ⟨n, good, -⟩ := (checked 0 cut.reads [] _ _ joined rfl).resolve_left accepted
  exact ⟨n, good⟩

/-- Which chunk-size lines the check is right for. -/
theorem sizeChecked_iff (reached : ReachedLine) :
    SizeChecked reached ↔
      STRINGBUF_MAX_CAP ≤ reached.bytes.length ∨ reached.text = [] ∨ 32 ≤ reached.text.length ∨
        (∃ b ∈ cstr (sizePart reached.text), isxdigit b = false) ∨
        Limits.default.maxChunkSize < ofDigits 16 (cstr (sizePart reached.text)) ∨
        Limits.default.maxBodySize <
          reached.bodyLen + ofDigits 16 (cstr (sizePart reached.text)) ∨
        (sizePart reached.text ≠ [] ∧ (0 : UInt8) ∉ sizePart reached.text) := by
  rw [← checkedDigits_eq]
  refine Iff.trans (b := STRINGBUF_MAX_CAP ≤ reached.bytes.length ∨
    ¬ Accepts reached.bodyLen reached.text ∨
      (sizePart reached.text ≠ [] ∧ (0 : UInt8) ∉ sizePart reached.text)) ?_ ?_
  swap
  · rw [refuses_iff]
    simp only [or_assoc]
  constructor
  · intro checked
    by_contra other
    simp only [not_or, not_not] at other
    obtain ⟨short, accepts, part⟩ := other
    obtain ⟨n, good⟩ := sizeText_of_checked checked (Nat.not_le.mp short) accepts
    exact part (sizeText_part good)
  · intro condition fd reads rest p code joined fed
    rcases decodeChunkSize_accepts reached.bodyLen reached.line with
      ⟨accepts, decoded⟩ | ⟨-, decoded⟩
    · rcases condition with long | refuses | part
      · exact Or.inl (feedReads_too_long default_sane long (fun _ _ => reached.line_end) joined fed)
      · exact absurd accepts refuses
      by_cases refused : code = -1
      · exact Or.inl refused
      · refine Or.inr ⟨_, sizeText_of_accepts accepts part.1 part.2, fun nothing => ?_⟩
        rw [nothing, List.append_nil] at joined
        exact (reached.sizeRead_eq joined decoded fed).resolve_left refused
    · have failed : (decoder .default).run .start reads.flatten = .failed := by
        rw [joined, reached.run_bytes, decoded]
      have refused := feedReads_failed default_sane fd failed
      rw [fed] at refused
      exact Or.inl refused

/-- A parser fed byte by byte waits at the line that the decoder has reached. -/
theorem exists_reached {before : Bytes} {req : HttpRequest} {line : Bytes}
    (run : (decoder .default).run .start before = .pending ⟨.chunkSize, req⟩ [])
    (short : before.length < STRINGBUF_MAX_CAP) (one : LF ∉ line) :
    ∃ reached : ReachedLine, reached.front.flatten = before ∧ reached.line = line ∧
      reached.bodyLen = req.body.length := by
  have fed := feedReads_cut default_sane 0 short (byteCut before)
  rw [run] at fed
  obtain ⟨code, sim, -⟩ := fed
  obtain ⟨body, -, chunked, size⟩ := sim.phase
  have used := sim.length
  refine ⟨⟨0, byteReads before, _, line, Prod.ext rfl code, ⟨body, chunked, size⟩, used, one⟩,
    byteReads_flatten before, rfl, ?_⟩
  exact congrArg (fun req => req.body.length) sim.req

theorem run_emptyChunked : (decoder .default).run .start emptyChunked.head =
    .pending ⟨.chunkSize, { emptyChunked.parsed with body := [] }⟩ [] := by
  have known : emptyChunked.codingKnown = true := by decide
  have framing : decodeFraming .default (shputAll [] (entries emptyChunked.fields)) =
      some .chunkSize := by
    rw [framing_chunked (by decide), known]
    rfl
  rw [← List.append_nil emptyChunked.head, RequestWire.run_head, if_pos (by decide), afterHead]
  simp only [WireRequest.parsed, framing]
  exact run_nil _ _

/-- A line that starts with a semicolon is taken for the last chunk. -/
theorem sizeChecked_fails : ¬ ∀ reached : ReachedLine, SizeChecked reached := by
  intro always
  have one : LF ∉ ascii ";ext\r" := by decide
  obtain ⟨reached, front, line, body⟩ := exists_reached run_emptyChunked (by decide) one
  have text : reached.text = ascii ";ext" := by
    rw [ReachedLine.text, line]
    decide
  have empty : reached.bodyLen = 0 := body
  have short : reached.bytes.length < STRINGBUF_MAX_CAP := by
    rw [ReachedLine.bytes, front, line]
    decide
  have accepts : Accepts reached.bodyLen reached.text := by
    have no_digit : checkedDigits (ascii ";ext") = [] := by decide
    rw [text, empty, Accepts, no_digit]
    exact ⟨by decide, List.forall_mem_nil _, by decide, by decide⟩
  obtain ⟨n, good⟩ := sizeText_of_checked (always reached) short accepts
  exact (sizeText_part good).1 (by rw [text]; decide)

end ChunkSizeLines
