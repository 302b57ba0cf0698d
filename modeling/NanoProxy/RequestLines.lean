import NanoProxy.HeaderTable
import NanoProxy.ParserPasses
import NanoProxy.AcceptedRequest
import NanoProxy.AnyReads

/-!
# No component crosses a line

The parser searches its whole buffer for the spaces and the colon of a line. `HeadRead` says which
lines a request was read from, and that the table is what `shputs` made of them in their order; one
lemma for each pass of the loop keeps it, whatever keys the table has stored.
-/

namespace RequestLines

open CLib StringBuffer HttpRequestParser RequestDecoder ParserRefinement ParserPasses
open RequestGrammar AcceptedRequest AnyReads Segmentation Incremental StbDs
open HeaderTable hiding httpParserInit feedEndOfHeaders storeHeader feedHeaderLine feedLoop
  httpParserFeed feedReads shget

/-- The first line holds the pieces of the request, and each is copied up to its first NUL. -/
def StartRead (start : Bytes) (req : HttpRequest) : Prop :=
  ∃ m u v, chomp start = m ++ SP :: (u ++ SP :: v) ∧ SP ∉ m ∧ SP ∉ u ∧ m ≠ [] ∧ u ≠ [] ∧ v ≠ [] ∧
    req.method = some (cstr m) ∧ req.uri = some (cstr u) ∧ req.version = some (cstr v)

/-- The lines of a text that an LF ends. -/
def endedLines : Bytes → List Bytes
  | [] => []
  | b :: s =>
    if b = LF then [] :: endedLines s
    else match endedLines s with
      | [] => []
      | line :: lines => (b :: line) :: lines

/-- The header fields of a text, up to the first line that the parser does not take for one. -/
def fieldsOf (lim : Limits) (s : Bytes) : Headers :=
  match endedLines s with
  | [] => []
  | start :: lines =>
    if (decodeRequestLine lim start).isSome then
      (lines.takeWhile fun line => decide (chomp line ≠ [] ∧ LineFits lim line)).map lineEntry
    else []

/-- The request was read from these lines. -/
structure HeadRead (σ : UInt64) (lim : Limits) (start : Bytes) (lines : List Bytes)
    (req : HttpRequest) (table : Table Bytes Bytes) : Prop where
  one : LF ∉ start
  decoded : (decodeRequestLine lim start).isSome
  pieces : StartRead start req
  plain : ∀ line ∈ lines, LF ∉ line ∧ chomp line ≠ [] ∧ LineFits lim line
  put : shputsAll hashString none (puts σ (lines.map lineEntry)) = some table
  headers : req.headers = entries table

/-- `req` was read from the first line of `seen` and from the lines that follow it. -/
def ReadFrom (σ : UInt64) (lim : Limits) (seen : Bytes) (req : HttpRequest) : Prop :=
  ∃ start lines rest table, seen = start ++ LF :: (joinLines lines ++ rest) ∧
    HeadRead σ lim start lines req table

/-- Before the request line is read there is no version, and no header. -/
def Origin (σ : UInt64) (lim : Limits) (seen : Bytes) (req : HttpRequest) : Prop :=
  (req.version = none ∧ req.headers = []) ∨ ReadFrom σ lim seen req

/-- All lines up to the blank one have been read. -/
def WholeHead (σ : UInt64) (lim : Limits) (seen : Bytes) (p : TableParser) : Prop :=
  ∃ start lines blank rest table,
    seen = start ++ LF :: (joinLines lines ++ (blank ++ LF :: rest)) ∧ LF ∉ blank ∧
    chomp blank = [] ∧ HeadRead σ lim start lines p.parser.req table ∧
    p.table = some (table.getD newHeader)

/-- The buffer still holds everything. -/
structure Buffered (seen : Bytes) (sb : StringBuf) : Prop where
  kept : sb.data = seen
  cap : sb.capacity ≤ STRINGBUF_MAX_CAP
  small : seen.length < STRINGBUF_MAX_CAP

/-- What is known of a parser that has been given `seen`. -/
def Reading (σ : UInt64) (lim : Limits) (seen : Bytes) (p : TableParser) : Prop :=
  match p.parser.state with
  | .requestLine => Buffered seen p.parser.buffer ∧ p.parser.pos = 0 ∧ p.parser.req = .empty ∧
      p.table = none
  | .headers => Buffered seen p.parser.buffer ∧ AtLineStart p.parser ∧
      p.parser.req.headers.length ≤ lim.maxHeaders ∧ ∃ start lines,
        seen = start ++ LF :: (joinLines lines ++ seen.drop p.parser.pos) ∧
        HeadRead σ lim start lines p.parser.req p.table
  | .body | .done => WholeHead σ lim seen p
  | .error => Origin σ lim seen p.parser.req

/-- A parser that has returned without an error has read every line that it was given. -/
def Halted (p : HttpParser) (code : Int) : Prop :=
  code = -1 ∨ (p.state ≠ .error ∧
    (readingHeaders p = true → code = 0 ∧ line? (p.buffer.data.drop p.pos) = none))

/-- What a pass leaves, whether it returns or goes on. -/
def Passed (σ : UInt64) (lim : Limits) (seen : Bytes) (p : HttpParser) :
    Flow × Table Bytes Bytes → Prop
  | (.next q, table) => Reading σ lim seen ⟨q, table⟩ ∧ q.state ≠ .error ∧
      (readingHeaders q = true → readingHeaders p = true ∧ q.buffer = p.buffer ∧ p.pos < q.pos)
  | (.ret q code, table) => Reading σ lim seen ⟨q, table⟩ ∧ Halted q code

variable {σ : UInt64} {lim : Limits} {p : TableParser} {q : HttpParser} {seen line rest : Bytes}

theorem Buffered.bound {sb : StringBuf} (buffered : Buffered seen sb) :
    sb.data.length < 2 ^ 62 := by
  have small := buffered.small
  have : STRINGBUF_MAX_CAP < 2 ^ 62 := by decide
  rw [buffered.kept]
  omega

theorem WholeHead.origin (whole : WholeHead σ lim seen p) : Origin σ lim seen p.parser.req := by
  obtain ⟨start, lines, blank, rest, table, split, -, -, head, -⟩ := whole
  exact Or.inr ⟨start, lines, _, table, split, head⟩

/-- The lines that a parser has gone past stay what they were. -/
theorem reading_origin (reading : Reading σ lim seen p) : Origin σ lim seen p.parser.req := by
  rw [Reading] at reading
  cases state : p.parser.state with
  | requestLine =>
    rw [state] at reading
    rw [reading.2.2.1]
    exact Or.inl ⟨rfl, rfl⟩
  | headers =>
    rw [state] at reading
    obtain ⟨-, -, -, start, lines, before, head⟩ := reading
    exact Or.inr ⟨start, lines, _, _, before, head⟩
  | body =>
    rw [state] at reading
    exact reading.origin
  | done =>
    rw [state] at reading
    exact reading.origin
  | error =>
    rw [state] at reading
    exact reading

theorem WholeHead.reading (whole : WholeHead σ lim seen p)
    (past : readingHeaders p.parser = false) : Reading σ lim seen p := by
  rw [Reading]
  cases reached : p.parser.state with
  | requestLine => simp [readingHeaders, reached] at past
  | headers => simp [readingHeaders, reached] at past
  | body => exact whole
  | done => exact whole
  | error => exact whole.origin

theorem chomp_append {a t : Bytes} (ne : t ≠ []) : chomp (a ++ t) = a ++ chomp t := by
  have last : (a ++ t).getLast? = t.getLast? := by
    rw [List.getLast?_append, List.getLast?_eq_some_getLast ne]
    rfl
  rw [chomp, chomp, last]
  split
  · exact List.dropLast_append_of_ne_nil ne
  · rfl

theorem split_first {c : UInt8} {s : Bytes} (found : c ∈ s) :
    s = s.takeWhile (· != c) ++ c :: s.drop ((s.takeWhile (· != c)).length + 1) := by
  induction s with
  | nil => cases found
  | cons b s ih =>
    by_cases here : b = c
    · subst here
      simp
    · have later : c ∈ s := (List.mem_cons.mp found).resolve_left fun h => here h.symm
      rw [List.takeWhile_cons_of_pos (by simpa using here)]
      exact congrArg (b :: ·) (ih later)

/-- The pieces of an accepted request line lie one behind the other. -/
theorem startRead_of_decode {req : HttpRequest}
    (decoded : decodeRequestLine lim line = some req) : StartRead line req := by
  rw [decodeRequestLine] at decoded
  dsimp only at decoded
  rw [Option.ite_none_right_eq_some] at decoded
  obtain ⟨⟨-, inside, inside', method, uri, version⟩, same⟩ := decoded
  cases same
  set m := line.takeWhile (· != SP) with hm
  set u := (line.drop (m.length + 1)).takeWhile (· != SP) with hu
  set t := line.drop (m.length + 1 + u.length + 1) with ht
  have first : line = m ++ SP :: line.drop (m.length + 1) :=
    split_first (takeWhile_length_lt_iff.mp inside)
  have second : line.drop (m.length + 1) = u ++ SP :: t := by
    have split := split_first (takeWhile_length_lt_iff.mp inside')
    rw [← hu, List.drop_drop, ← Nat.add_assoc] at split
    exact split
  have whole : line = m ++ SP :: (u ++ [SP]) ++ t := by
    rw [second] at first
    rw [first]
    simp
  have length : (m ++ SP :: (u ++ [SP])).length = m.length + 1 + u.length + 1 := by
    simp only [List.length_append, List.length_cons, List.length_nil]
    omega
  have filled : t ≠ [] := by
    intro empty
    rw [whole, empty, List.append_nil, ← length, List.drop_eq_nil_of_le
      (chomp_length_le _)] at version
    exact absurd version.1 (Nat.lt_irrefl 0)
  have chomped : chomp line = m ++ SP :: (u ++ [SP]) ++ chomp t := by
    rw [← chomp_append filled, ← whole]
  have behind : (chomp line).drop (m.length + 1 + u.length + 1) = chomp t := by
    rw [chomped, ← length, List.drop_left' rfl]
  rw [behind] at version
  refine ⟨m, u, chomp t, ?_, not_mem_takeWhile SP line, not_mem_takeWhile SP _,
    List.length_pos_iff.mp method.1, List.length_pos_iff.mp uri.1, List.length_pos_iff.mp version.1,
    rfl, rfl, by rw [behind]⟩
  rw [chomped]
  simp

/-- A request line that is not read leaves no version and no header. -/
theorem feedRequestLine_ret {p' : HttpParser} {code : Int} (fed : feedRequestLine lim p' = .ret q code) :
    (q = p' ∧ code = 0) ∨ (q.state = .error ∧ q.req.version = p'.req.version ∧
      q.req.headers = p'.req.headers) := by
  rw [feedRequestLine] at fed
  dsimp only at fed
  split at fed
  · cases fed
    exact Or.inl ⟨rfl, rfl⟩
  iterate 6
    split at fed
    · cases fed
      exact Or.inr ⟨rfl, rfl, rfl⟩
  cases fed

/-- The parser has no line to read, or it stands at the next one. -/
theorem unread_line (p : HttpParser) :
    line? (p.buffer.data.drop p.pos) = none ∨
      ∃ line rest, p.buffer.data.drop p.pos = line ++ LF :: rest ∧ LF ∉ line := by
  cases next : line? (p.buffer.data.drop p.pos) with
  | none => exact Or.inl rfl
  | some line =>
    obtain ⟨rest, split, one⟩ := line?_split next
    exact Or.inr ⟨line, rest, split, one⟩

theorem requestLine_reading (sane : Sane lim) (state : p.parser.state = .requestLine)
    (reading : Reading σ lim seen p) :
    Passed σ lim seen p.parser (feedRequestLine lim p.parser, p.table) := by
  have whole := reading
  rw [Reading, state] at reading
  obtain ⟨buffered, front, fresh, bare⟩ := reading
  have small := buffered.bound
  rcases unread_line p.parser with none | ⟨line, rest, split, one⟩
  · have waits : feedRequestLine lim p.parser = .ret p.parser 0 := by
      rw [feedRequestLine]
      simp only [stringbufMemchr_eq, memchr_lf_none none]
    rw [waits]
    refine ⟨whole, Or.inr ⟨?_, fun _ => ⟨rfl, none⟩⟩⟩
    rw [state]
    decide
  cases decoded : decodeRequestLine lim line with
  | none =>
    obtain ⟨q, refused⟩ := feedRequestLine_none sane split one (Or.inl front) small decoded
    rcases feedRequestLine_ret refused with ⟨-, code⟩ | ⟨error, version, headers⟩
    · cases code
    · rw [refused]
      refine ⟨?_, Or.inl rfl⟩
      rw [Reading, error]
      refine Or.inl ⟨?_, ?_⟩
      · rw [version, fresh]
        rfl
      · rw [headers, fresh]
        rfl
  | some req =>
    rw [feedRequestLine_some split one (Or.inl front) small fresh decoded]
    have empty : req.headers = [] := by
      rw [decodeRequestLine] at decoded
      dsimp only at decoded
      rw [Option.ite_none_right_eq_some] at decoded
      obtain ⟨-, same⟩ := decoded
      cases same
      rfl
    have next := atLineStart_next (q := { p.parser with
      req := req, pos := p.parser.pos + line.length + 1, state := .headers }) split rfl rfl
    refine ⟨⟨⟨buffered.kept, buffered.cap, buffered.small⟩, next.1, ?_, line, [], ?_, one, ?_,
      startRead_of_decode decoded, fun line' absent => absurd absent List.not_mem_nil, ?_, ?_⟩,
      HttpParserState.noConfusion, fun _ => ⟨by rw [readingHeaders, state], rfl, ?_⟩⟩
    · change req.headers.length ≤ _
      rw [empty]
      exact Nat.zero_le _
    · have behind := next.2.1
      rw [buffered.kept, front, List.drop_zero] at split
      change p.parser.buffer.data.drop _ = rest at behind
      rw [buffered.kept] at behind
      change seen = line ++ LF :: (joinLines [] ++ seen.drop (p.parser.pos + line.length + 1))
      rw [behind]
      exact split
    · rw [decoded]
      rfl
    · rw [bare]
      rfl
    · rw [bare]
      exact empty
    · change p.parser.pos < p.parser.pos + line.length + 1
      omega

theorem shget_table {table table' : Table Bytes Bytes} {key : Bytes} {value : Option Bytes}
    (found : HeaderTable.shget table key = some (table', value)) :
    table' = some (table.getD newHeader) := by
  rw [HeaderTable.shget] at found
  split at found
  · cases found
  · rename_i result
    cases found
    exact hmgeti_table result

/-- The end of the headers leaves the request as it is. -/
theorem enterBody_keeps (q : HttpParser) :
    (∃ q', enterBody q = .next q' ∧ q'.req = q.req ∧ (q'.state = .body ∨ q'.state = .done)) ∨
      ∃ q', enterBody q = .ret q' 2 ∧ q'.req = q.req ∧ q'.state = .body := by
  rw [enterBody]
  split
  · dsimp only
    split
    · exact Or.inr ⟨_, rfl, rfl, rfl⟩
    · exact Or.inl ⟨_, rfl, rfl, Or.inl rfl⟩
  · exact Or.inl ⟨_, rfl, rfl, Or.inr rfl⟩

/-- Behind the head a pass need not go forward in the buffer. -/
theorem WholeHead.passed {r : HttpParser} (whole : WholeHead σ lim seen p)
    (past : p.parser.state = .body ∨ p.parser.state = .done) :
    Passed σ lim seen r (.next p.parser, p.table) := by
  rcases past with body | done
  · have behind : readingHeaders p.parser = false := by rw [readingHeaders, body]
    refine ⟨whole.reading behind, ?_, fun before => ?_⟩
    · rw [body]
      decide
    · rw [behind] at before
      cases before
  · have behind : readingHeaders p.parser = false := by rw [readingHeaders, done]
    refine ⟨whole.reading behind, ?_, fun before => ?_⟩
    · rw [done]
      decide
    · rw [behind] at before
      cases before

theorem WholeHead.halted {code : Int} (whole : WholeHead σ lim seen p)
    (body : p.parser.state = .body) :
    Reading σ lim seen p ∧ Halted p.parser code := by
  have past : readingHeaders p.parser = false := by rw [readingHeaders, body]
  refine ⟨whole.reading past, Or.inr ⟨?_, fun before => ?_⟩⟩
  · rw [body]
    decide
  · rw [past] at before
    cases before

theorem enterBody_reading {r : HttpParser} {table : Table Bytes Bytes}
    (whole : WholeHead σ lim seen ⟨q, table⟩) : Passed σ lim seen r (enterBody q, table) := by
  have kept {q' : HttpParser} (same : q'.req = q.req) : WholeHead σ lim seen ⟨q', table⟩ := by
    obtain ⟨start, lines, blank, rest, t, split, one, empty, head, touched⟩ := whole
    refine ⟨start, lines, blank, rest, t, split, one, empty, ?_, touched⟩
    rw [same]
    exact head
  rcases enterBody_keeps q with ⟨q', result, same, past⟩ | ⟨q', result, same, state⟩
  · rw [result]
    exact (kept same).passed past
  · rw [result]
    exact (kept same).halted state

theorem refused_reading {r : HttpParser} {table : Table Bytes Bytes}
    (origin : Origin σ lim seen q.req) : Passed σ lim seen r (parseError q, table) :=
  ⟨origin, Or.inl rfl⟩

/-- What is behind the blank line is the whole head. -/
theorem endOfHeaders_reading {r : HttpParser} {lineEnd : Nat} {result : Flow × Table Bytes Bytes}
    (whole : WholeHead σ lim seen ⟨p.parser, some (p.table.getD newHeader)⟩)
    (ended : HeaderTable.feedEndOfHeaders lim p lineEnd = some result) :
    Passed σ lim seen r result := by
  rw [HeaderTable.feedEndOfHeaders] at ended
  dsimp only at ended
  split at ended
  · cases ended
  · rename_i table value found
    cases shget_table found
    split at ended
    · cases ended
      exact refused_reading whole.origin
    · cases ended
      exact enterBody_reading whole
  · rename_i table found
    cases shget_table found
    split at ended
    · cases ended
    · rename_i table value found'
      cases shget_table found'
      split at ended
      · cases ended
        exact enterBody_reading whole
      · cases ended
        exact enterBody_reading whole
    · rename_i table found'
      cases shget_table found'
      cases ended
      exact enterBody_reading whole

theorem append_line {start : Bytes} {lines : List Bytes} {pos : Nat}
    (before : seen = start ++ LF :: (joinLines lines ++ seen.drop pos))
    (split : seen.drop pos = line ++ LF :: rest) :
    seen = start ++ LF :: (joinLines (lines ++ [line]) ++ rest) := by
  rw [split] at before
  rw [before]
  simp [joinLines]

theorem shputsAll_append {a a' : Table Bytes Bytes} {fields : List (UInt64 × Bytes × Bytes)}
    {seed : UInt64} {key value : Bytes} (before : shputsAll hashString a fields = some a') :
    shputsAll hashString a (fields ++ [(seed, key, value)]) =
      shputs hashString seed a' key value := by
  induction fields generalizing a with
  | nil =>
    cases before
    rw [List.nil_append, shputsAll]
    cases StbDs.shputs hashString seed a' key value <;> rfl
  | cons f fields ih =>
    obtain ⟨seed', key', value'⟩ := f
    rw [shputsAll] at before
    obtain ⟨a₁, first, rest⟩ := Option.bind_eq_some_iff.mp before
    rw [List.cons_append, shputsAll, first, Option.bind_some, ih rest]

/-- One more line is one more call of `shputs`. -/
theorem HeadRead.store {start : Bytes} {lines : List Bytes} {req : HttpRequest}
    {table table' : Table Bytes Bytes} (head : HeadRead σ lim start lines req table)
    (one : LF ∉ line) (filled : chomp line ≠ []) (fits : LineFits lim line)
    (stored : StbDs.shputs hashString σ table (lineEntry line).1 (lineEntry line).2 =
      some table') :
    HeadRead σ lim start (lines ++ [line]) { req with headers := entries table' } table' where
  one := head.one
  decoded := head.decoded
  pieces := head.pieces
  plain := by
    intro l hl
    rcases List.mem_append.mp hl with old | new
    · exact head.plain l old
    · rw [List.mem_singleton.mp new]
      exact ⟨one, filled, fits⟩
  put := by
    rw [List.map_append, puts, List.map_append]
    exact (shputsAll_append head.put).trans stored
  headers := rfl

/-- The pass over a header line as `headerPass` does it. -/
theorem feedHeaderLine_headerPass (σ : UInt64) (lim : Limits) (p : TableParser) :
    HeaderTable.feedHeaderLine σ lim p =
      headerPass lim p.parser (some (parseError p.parser, p.table))
        (some (.ret p.parser 0, p.table)) (HeaderTable.feedEndOfHeaders lim p)
        (HeaderTable.storeHeader σ lim p) := rfl

theorem headerLine_reading {result : Flow × Table Bytes Bytes} (sane : Sane lim)
    (state : p.parser.state = .headers) (reading : Reading σ lim seen p)
    (passed : HeaderTable.feedHeaderLine σ lim p = some result) : Passed σ lim seen p.parser result := by
  have whole := reading
  rw [Reading, state] at reading
  obtain ⟨buffered, prev, -, start, lines, before, head⟩ := reading
  have small := buffered.bound
  have origin : Origin σ lim seen p.parser.req := Or.inr ⟨start, lines, _, _, before, head⟩
  rw [feedHeaderLine_headerPass] at passed
  rcases unread_line p.parser with none | ⟨line, rest, split, one⟩
  · rw [headerPass_wait none] at passed
    cases passed
    refine ⟨whole, Or.inr ⟨?_, fun _ => ⟨rfl, none⟩⟩⟩
    rw [state]
    decide
  have split' : seen.drop p.parser.pos = line ++ LF :: rest := by rw [← buffered.kept, split]
  by_cases blank : chomp line = []
  · rw [headerPass_blank split one prev small blank] at passed
    split at passed
    · cases passed
      exact refused_reading origin
    · refine endOfHeaders_reading ⟨start, lines, line, rest, p.table, ?_, one, blank, head, rfl⟩ passed
      rw [split'] at before
      exact before
  rw [headerPass_line sane split one prev small blank] at passed
  dsimp only at passed
  split at passed
  swap
  · cases passed
    exact refused_reading origin
  rename_i fits
  have fits : LineFits lim line :=
    ⟨fits.1, takeWhile_length_lt_iff.mp fits.2.1, fits.2.2.1, fits.2.2.2⟩
  rw [HeaderTable.storeHeader] at passed
  split at passed
  · cases passed
  rename_i table stored
  have head' := head.store one blank fits stored
  dsimp only at passed
  split at passed
  · cases passed
    exact refused_reading (Or.inr ⟨start, lines ++ [line], rest, table, append_line before split', head'⟩)
  · rename_i count
    cases passed
    have next := atLineStart_next (q := { p.parser with
      req := { p.parser.req with headers := entries table }
      pos := p.parser.pos + line.length + 1 }) split rfl rfl
    have rest_eq : seen.drop (p.parser.pos + line.length + 1) = rest := by
      rw [← buffered.kept]
      exact next.2.1
    rw [Passed, Reading]
    simp only [state]
    refine ⟨⟨⟨buffered.kept, buffered.cap, buffered.small⟩, next.1, Nat.le_of_not_lt count, start,
      lines ++ [line], ?_, head'⟩, HttpParserState.noConfusion,
      fun _ => ⟨by rw [readingHeaders, state], trivial, ?_⟩⟩
    · rw [rest_eq]
      exact append_line before split'
    · omega

/-- A request without its body. -/
def headOf (req : HttpRequest) : HttpRequest := { req with body := [] }

/-- What a pass over a body leaves alone. -/
def KeepsHead (p : HttpParser) : Flow → Prop
  | .next q => headOf q.req = headOf p.req ∧ (p.state = .body → q.state = .body ∨ q.state = .done)
  | .ret q code => headOf q.req = headOf p.req ∧
      (p.state = .body → code = -1 ∧ q.state = .error ∨ q.state = .body)

variable {p₀ : HttpParser}

theorem KeepsHead.stay {p' : HttpParser} (head : headOf p'.req = headOf p₀.req)
    (state : p'.state = p₀.state) : KeepsHead p₀ (.next p') := by
  refine ⟨head, fun body => Or.inl ?_⟩
  rw [state]
  exact body

theorem KeepsHead.failed : KeepsHead p₀ (parseError p₀) := ⟨rfl, fun _ => Or.inl ⟨rfl, rfl⟩⟩

theorem KeepsHead.wait : KeepsHead p₀ (.ret p₀ 0) := ⟨rfl, Or.inr⟩

theorem feedCountedBody_keeps (buflen : Nat) : KeepsHead p₀ (feedCountedBody lim buflen p₀) := by
  rw [feedCountedBody]
  dsimp only
  split
  · exact .wait
  generalize (if p₀.contentLength - p₀.req.body.length < buflen - p₀.pos
    then p₀.contentLength - p₀.req.body.length else buflen - p₀.pos) = consume
  split
  · exact .failed
  split
  · exact ⟨rfl, fun _ => Or.inr rfl⟩
  · exact .stay rfl rfl

theorem feedChunkSize_keeps : KeepsHead p₀ (feedChunkSize lim p₀) := by
  rw [feedChunkSize]
  dsimp only
  split
  · exact .wait
  iterate 3
    split
    · exact .failed
  split
  · exact ⟨rfl, fun _ => Or.inr rfl⟩
  · exact .stay rfl rfl

theorem feedChunkData_keeps (buflen : Nat) : KeepsHead p₀ (feedChunkData buflen p₀) := by
  rw [feedChunkData]
  dsimp only
  split
  · exact .wait
  split
  · exact .failed
  · exact .stay rfl rfl

/-- A pass behind another one that has not ended the body. -/
theorem KeepsHead.after {flow : Flow} (first : KeepsHead p₀ (.next q)) (going : q.state ≠ .done)
    (second : KeepsHead q flow) : KeepsHead p₀ flow := by
  have body (before : p₀.state = .body) : q.state = .body :=
    (first.2 before).resolve_right going
  cases flow with
  | next r => exact ⟨second.1.trans first.1, fun before => second.2 (body before)⟩
  | ret r code => exact ⟨second.1.trans first.1, fun before => second.2 (body before)⟩

theorem feedChunks_keeps (buflen fuel : Nat) : KeepsHead p₀ (feedChunks lim buflen fuel p₀) := by
  induction fuel generalizing p₀ with
  | zero => exact .stay rfl rfl
  | succ fuel ih =>
    have chunk : KeepsHead p₀
        (if p₀.contentLength = 0 then feedChunkSize lim p₀ else feedChunkData buflen p₀) := by
      split
      · exact feedChunkSize_keeps
      · exact feedChunkData_keeps buflen
    rw [feedChunks]
    split
    · split
      · rename_i q code flow
        rw [flow] at chunk
        exact chunk
      · rename_i q flow
        rw [flow] at chunk
        split
        · exact chunk
        · rename_i going
          exact chunk.after going ih
    · exact .stay rfl rfl

theorem feedBody_keeps (buflen : Nat) : KeepsHead p₀ (feedBody lim buflen p₀) := by
  have body : KeepsHead p₀
      (if !p₀.chunked then feedCountedBody lim buflen p₀
        else feedChunks lim buflen buflen p₀) := by
    split
    · exact feedCountedBody_keeps buflen
    · exact feedChunks_keeps buflen buflen
  rw [feedBody]
  split
  · rename_i q code flow
    rw [flow] at body
    exact body
  · rename_i q flow
    rw [flow] at body
    split
    · exact body
    · exact body

theorem WholeHead.body {table : Table Bytes Bytes} (whole : WholeHead σ lim seen p)
    (same : headOf q.req = headOf p.parser.req) (table_eq : table = p.table) :
    WholeHead σ lim seen ⟨q, table⟩ := by
  obtain ⟨start, lines, blank, rest, t, split, one, empty, head, touched⟩ := whole
  refine ⟨start, lines, blank, rest, t, split, one, empty, ?_, table_eq.trans touched⟩
  have req : p.parser.req.method = q.req.method ∧ p.parser.req.uri = q.req.uri ∧
      p.parser.req.version = q.req.version ∧ p.parser.req.headers = q.req.headers := by
    rw [headOf, headOf, HttpRequest.mk.injEq] at same
    exact ⟨same.1.symm, same.2.1.symm, same.2.2.1.symm, same.2.2.2.1.symm⟩
  have pieces := head.pieces
  rw [StartRead, req.1, req.2.1, req.2.2.1] at pieces
  exact ⟨head.one, head.decoded, pieces, head.plain, head.put,
    req.2.2.2.symm.trans head.headers⟩

theorem body_reading (buflen : Nat) (state : p.parser.state = .body)
    (reading : Reading σ lim seen p) :
    Passed σ lim seen p.parser (feedBody lim buflen p.parser, p.table) := by
  have keeps : KeepsHead p.parser (feedBody lim buflen p.parser) := feedBody_keeps buflen
  rw [Reading, state] at reading
  cases flow : feedBody lim buflen p.parser with
  | next q =>
    rw [flow] at keeps
    exact (WholeHead.body reading keeps.1 rfl).passed (keeps.2 state)
  | ret q code =>
    rw [flow] at keeps
    have whole : WholeHead σ lim seen ⟨q, p.table⟩ := WholeHead.body reading keeps.1 rfl
    rcases keeps.2 state with ⟨failed, error⟩ | body
    · refine ⟨whole.reading ?_, Or.inl failed⟩
      rw [readingHeaders, error]
    · exact whole.halted body

theorem pass_reading {buflen : Nat} {result : Flow × Table Bytes Bytes} (sane : Sane lim)
    (reading : Reading σ lim seen p)
    (running : p.parser.state ≠ .done ∧ p.parser.state ≠ .error ∧ p.parser.pos < buflen)
    (passed : feedPass σ lim buflen p = some result) : Passed σ lim seen p.parser result := by
  rw [feedPass] at passed
  cases state : p.parser.state with
  | requestLine =>
    rw [state] at passed
    cases passed
    exact requestLine_reading sane state reading
  | headers =>
    rw [state] at passed
    exact headerLine_reading sane state reading passed
  | body =>
    rw [state] at passed
    cases passed
    exact body_reading buflen state reading
  | done => exact absurd state running.1
  | error => exact absurd state running.2.1

theorem halted_read {code : Int} (live : q.state ≠ .error)
    (read : readingHeaders q = true → code = 0 ∧ q.buffer.data.length ≤ q.pos) : Halted q code := by
  refine Or.inr ⟨live, fun before => ?_⟩
  obtain ⟨zero, past⟩ := read before
  rw [List.drop_eq_nil_of_le past]
  exact ⟨zero, rfl⟩

/-- The loop ends with a verdict, or with every line read: it has rounds for all bytes. -/
theorem feedLoop_reading {buflen fuel : Nat} {result : TableParser × Int} (sane : Sane lim)
    (reading : Reading σ lim seen p) (live : p.parser.state ≠ .error)
    (ahead : readingHeaders p.parser = true →
      p.parser.buffer.data.length = buflen ∧ buflen < fuel + p.parser.pos)
    (fed : HeaderTable.feedLoop σ lim buflen fuel p = some result) :
    Reading σ lim seen result.1 ∧ Halted result.1.parser result.2 := by
  induction fuel generalizing p with
  | zero =>
    cases fed
    refine ⟨reading, halted_read live fun before => ⟨rfl, ?_⟩⟩
    obtain ⟨length, enough⟩ := ahead before
    change p.parser.buffer.data.length ≤ p.parser.pos
    omega
  | succ fuel ih =>
    rw [HeaderTable.feedLoop] at fed
    split at fed
    · rename_i running
      split at fed
      · cases fed
      · rename_i q code table passed
        cases fed
        exact pass_reading sane reading running passed
      · rename_i q table passed
        obtain ⟨next, live', forward⟩ := pass_reading sane reading running passed
        refine ih next live' (fun before => ?_) fed
        obtain ⟨first, same, further⟩ := forward before
        obtain ⟨length, enough⟩ := ahead first
        refine ⟨(congrArg (·.data.length) same).trans length, ?_⟩
        change buflen < fuel + q.pos
        omega
    · rename_i stopped
      cases fed
      refine ⟨reading, halted_read live fun before => ?_⟩
      have past : buflen ≤ p.parser.pos := by
        refine Nat.le_of_not_lt fun inside => stopped ⟨?_, live, inside⟩
        intro done
        rw [readingHeaders, done] at before
        cases before
      refine ⟨?_, (ahead before).1.trans_le past⟩
      cases state : p.parser.state with
      | requestLine => rfl
      | headers => rfl
      | body => rfl
      | done =>
        rw [readingHeaders, state] at before
        cases before
      | error => exact absurd state live

theorem WholeHead.more (whole : WholeHead σ lim seen p) (data : Bytes) :
    WholeHead σ lim (seen ++ data) p := by
  obtain ⟨start, lines, blank, rest, table, split, facts⟩ := whole
  refine ⟨start, lines, blank, rest ++ data, table, ?_, facts⟩
  rw [split]
  simp

theorem Origin.more {req : HttpRequest} (origin : Origin σ lim seen req) (data : Bytes) :
    Origin σ lim (seen ++ data) req := by
  rcases origin with fresh | ⟨start, lines, rest, table, before, head⟩
  · exact Or.inl fresh
  · refine Or.inr ⟨start, lines, rest ++ data, table, ?_, head⟩
    rw [before]
    simp

/-- More bytes in the buffer. -/
theorem reading_append {data : Bytes} {sb : StringBuf} (reading : Reading σ lim seen p)
    (appended : stringbufAppend p.parser.buffer data = some sb) :
    Reading σ lim (seen ++ data) ⟨{ p.parser with buffer := sb }, p.table⟩ := by
  obtain ⟨-, joined⟩ := stringbufAppend_data appended
  have buffered (before : Buffered seen p.parser.buffer) : Buffered (seen ++ data) sb := by
    obtain ⟨cap, room⟩ := stringbufAppend_room appended before.cap
    have kept : sb.data = seen ++ data := by rw [joined, before.kept]
    refine ⟨kept, cap, ?_⟩
    rw [← kept]
    exact Nat.lt_of_lt_of_le room cap
  rw [Reading] at reading ⊢
  cases state : p.parser.state with
  | requestLine =>
    rw [state] at reading
    exact ⟨buffered reading.1, reading.2⟩
  | headers =>
    rw [state] at reading
    obtain ⟨before, prev, count, start, lines, split, head⟩ := reading
    have inside : p.parser.pos ≤ seen.length := by
      by_contra outside
      rw [List.drop_eq_nil_of_le (by omega), List.append_nil] at split
      rcases prev with front | lf
      · omega
      · have := (List.getElem?_eq_some_iff.mp lf).1
        rw [before.kept] at this
        omega
    refine ⟨buffered before, ?_, count, start, lines, ?_, head⟩
    · rcases prev with front | lf
      · exact Or.inl front
      · right
        have hit := (List.getElem?_eq_some_iff.mp lf).1
        change sb.data[p.parser.pos - 1]? = some LF
        rw [joined, List.getElem?_append_left hit]
        exact lf
    · change _ = start ++ LF :: (joinLines lines ++ (seen ++ data).drop p.parser.pos)
      rw [List.drop_append_of_le_length inside]
      conv_lhs => rw [split]
      simp
  | body =>
    rw [state] at reading
    exact reading.more data
  | done =>
    rw [state] at reading
    exact reading.more data
  | error =>
    rw [state] at reading
    exact reading.more data

theorem feed_reading {data : Bytes} {result : TableParser × Int} (sane : Sane lim)
    (reading : Reading σ lim seen p) (live : p.parser.state ≠ .error)
    (fed : HeaderTable.httpParserFeed σ lim p data = some result) :
    Reading σ lim (seen ++ data) result.1 ∧ Halted result.1.parser result.2 := by
  rw [HeaderTable.httpParserFeed] at fed
  cases appended : stringbufAppend p.parser.buffer data with
  | none =>
    rw [appended] at fed
    cases fed
    exact ⟨(reading_origin reading).more data, Or.inl rfl⟩
  | some sb =>
    rw [appended] at fed
    refine feedLoop_reading sane (reading_append reading appended) live (fun _ => ⟨rfl, ?_⟩) fed
    exact Nat.lt_of_lt_of_le (Nat.lt_succ_self _) (Nat.le_add_right _ _)

theorem init_reading (fd : Nat) : Reading σ lim [] (HeaderTable.httpParserInit fd) :=
  ⟨⟨rfl, (by decide : STRINGBUF_DEFAULT_CAP ≤ STRINGBUF_MAX_CAP),
    (by decide : 0 < STRINGBUF_MAX_CAP)⟩, rfl, rfl, rfl⟩

/-- After any reads: the bytes up to the first verdict, which are all of them if there is none. -/
theorem feedReads_reading {result : TableParser × Int} (sane : Sane lim) (reads : List Bytes)
    (reading : Reading σ lim seen p) (halted : Halted p.parser 0)
    (fed : HeaderTable.feedReads σ lim p reads = some result) :
    ∃ read behind, reads.flatten = read ++ behind ∧ (result.2 = 0 → behind = []) ∧
      Reading σ lim (seen ++ read) result.1 ∧ Halted result.1.parser result.2 := by
  induction reads generalizing seen p with
  | nil =>
    cases fed
    refine ⟨[], [], rfl, fun _ => rfl, ?_, halted⟩
    rw [List.append_nil]
    exact reading
  | cons data reads ih =>
    have live : p.parser.state ≠ .error := (halted.resolve_left (by decide)).1
    rw [HeaderTable.feedReads] at fed
    split at fed
    · cases fed
    · rename_i q first
      obtain ⟨reading', halted'⟩ := feed_reading sane reading live first
      obtain ⟨read, behind, joined, all, last⟩ := ih reading' halted' fed
      refine ⟨data ++ read, behind, ?_, all, ?_⟩
      · rw [List.flatten_cons, joined, List.append_assoc]
      · rw [← List.append_assoc]
        exact last
    · rename_i other first
      cases fed
      refine ⟨data, reads.flatten, rfl, fun zero => ?_, feed_reading sane reading live first⟩
      obtain ⟨q, code⟩ := result
      cases zero
      exact absurd rfl (other q)

theorem endedLines_line (one : LF ∉ line) (rest : Bytes) :
    endedLines (line ++ LF :: rest) = line :: endedLines rest := by
  induction line with
  | nil => rw [List.nil_append, endedLines, if_pos rfl]
  | cons b line ih =>
    rw [List.mem_cons, not_or] at one
    rw [List.cons_append, endedLines, if_neg (Ne.symm one.1), ih one.2]

theorem endedLines_lines {lines : List Bytes} (plain : ∀ l ∈ lines, LF ∉ l) (rest : Bytes) :
    endedLines (joinLines lines ++ rest) = lines ++ endedLines rest := by
  induction lines with
  | nil => rfl
  | cons l lines ih =>
    rw [List.forall_mem_cons] at plain
    have split : joinLines (l :: lines) ++ rest = l ++ LF :: (joinLines lines ++ rest) := by
      simp [joinLines]
    rw [split, endedLines_line plain.1, ih plain.2]
    rfl

theorem endedLines_append (a b : Bytes) : ∃ more, endedLines (a ++ b) = endedLines a ++ more := by
  induction a with
  | nil => exact ⟨_, rfl⟩
  | cons c a ih =>
    obtain ⟨more, split⟩ := ih
    rw [List.cons_append, endedLines, endedLines, split]
    by_cases ends : c = LF
    · rw [if_pos ends, if_pos ends]
      exact ⟨more, rfl⟩
    · rw [if_neg ends, if_neg ends]
      cases endedLines a with
      | nil => exact ⟨_, rfl⟩
      | cons line lines => exact ⟨more, rfl⟩

/-- A line behind the first, with a colon in it. -/
def HeaderLineOf (seen line : Bytes) : Prop :=
  (LF :: (line ++ [LF])) <:+: seen ∧ LF ∉ line ∧ COLON ∈ line

/-- The lines that a request was read from stand in the text. -/
theorem HeadRead.headerLine {start rest : Bytes} {lines : List Bytes} {req : HttpRequest}
    {table : Table Bytes Bytes} (head : HeadRead σ lim start lines req table)
    (before : seen = start ++ LF :: (joinLines lines ++ rest)) (listed : line ∈ lines) :
    HeaderLineOf seen line := by
  obtain ⟨one, -, fits⟩ := head.plain line listed
  refine ⟨?_, one, fits.2.1⟩
  obtain ⟨front, back, split⟩ := List.append_of_mem listed
  have ends : ∃ s, start ++ LF :: joinLines front = s ++ [LF] := by
    cases front using List.reverseRecOn with
    | nil => exact ⟨start, rfl⟩
    | append_singleton front l => exact ⟨start ++ LF :: (joinLines front ++ l), by simp [joinLines]⟩
  obtain ⟨s, ends⟩ := ends
  refine ⟨s, joinLines back ++ rest, ?_⟩
  have joined : joinLines lines = joinLines front ++ (line ++ LF :: joinLines back) := by
    rw [split]
    simp [joinLines]
  calc s ++ LF :: (line ++ [LF]) ++ (joinLines back ++ rest)
      = (s ++ [LF]) ++ (line ++ LF :: (joinLines back ++ rest)) := by simp
    _ = (start ++ LF :: joinLines front) ++ (line ++ LF :: (joinLines back ++ rest)) := by rw [ends]
    _ = seen := by
      rw [before, joined]
      simp

/-- The names and the values of a table come from the lines, also when they do not belong
together. -/
theorem HeadRead.parts {start : Bytes} {lines : List Bytes} {req : HttpRequest}
    {table : Table Bytes Bytes} (head : HeadRead σ lim start lines req table)
    {h : Bytes × Bytes} (stored : h ∈ req.headers) :
    (∃ line ∈ lines, h.1 = (lineEntry line).1) ∧ ∃ line ∈ lines, h.2 = (lineEntry line).2 := by
  have nothing : Holding (fun k => ∃ line ∈ lines, k = (lineEntry line).1)
      (fun v => ∃ line ∈ lines, v = (lineEntry line).2) (none : Table Bytes Bytes) :=
    ⟨fun e absent => absurd absent List.not_mem_nil, fun t key none => by cases none⟩
  have holding := shputsAll_holding nothing (fun p listed => by
    rw [puts, List.map_map] at listed
    obtain ⟨line, there, rfl⟩ := List.mem_map.mp listed
    exact ⟨⟨line, there, rfl⟩, ⟨line, there, rfl⟩⟩) head.put
  rw [head.headers] at stored
  exact holding.entries h stored

theorem shputAll_eq_foldl (σ : UInt64) (hs fields : Headers) :
    (puts σ fields).foldl (fun m p => StringMap.put p.2.1 p.2.2 m) hs = shputAll hs fields := by
  induction fields generalizing hs with
  | nil => rfl
  | cons f fields ih =>
    rw [puts, List.map_cons, List.foldl_cons, ← puts, ih, ← shputs_eq_put]
    rfl

/-- With its keys the table is the map that the lines give. -/
theorem HeadRead.kept {start : Bytes} {lines : List Bytes} {req : HttpRequest}
    {table : Table Bytes Bytes} (head : HeadRead σ lim start lines req table)
    (keeps : Keeps σ (lines.map lineEntry)) :
    req.headers = shputAll [] (lines.map lineEntry) ∧ (table.getD newHeader).Sane hashString := by
  obtain ⟨table', put, sane, stored⟩ := shputsAll_sane sane_newHeader keeps
  rw [head.put] at put
  cases put
  refine ⟨?_, sane⟩
  rw [head.headers, entries, stored]
  exact shputAll_eq_foldl σ [] _

/-- Lines that can be read are the first ones of a text. -/
theorem fieldsOf_lines {start rest : Bytes} {lines : List Bytes} (one : LF ∉ start)
    (decoded : (decodeRequestLine lim start).isSome)
    (plain : ∀ line ∈ lines, LF ∉ line ∧ chomp line ≠ [] ∧ LineFits lim line)
    (before : seen = start ++ LF :: (joinLines lines ++ rest)) :
    ∃ more, fieldsOf lim seen = lines.map lineEntry ++ more := by
  rw [fieldsOf, before, endedLines_line one, endedLines_lines fun l hl => (plain l hl).1]
  dsimp only
  rw [if_pos decoded, List.takeWhile_append_of_pos fun l hl => decide_eq_true (plain l hl).2,
    List.map_append]
  exact ⟨_, rfl⟩

/-- No field stands behind the blank line. -/
theorem fieldsOf_head {start blank rest : Bytes} {lines : List Bytes} (lim : Limits)
    (one : LF ∉ start) (plain : ∀ line ∈ lines, LF ∉ line) (one' : LF ∉ blank)
    (empty : chomp blank = []) :
    ∃ more, lines.map lineEntry =
      fieldsOf lim (start ++ LF :: (joinLines lines ++ (blank ++ LF :: rest))) ++ more := by
  rw [fieldsOf, endedLines_line one, endedLines_lines plain, endedLines_line one']
  dsimp only
  split
  · have stop : (lines ++ blank :: endedLines rest).takeWhile
        (fun line => decide (chomp line ≠ [] ∧ LineFits lim line)) =
        lines.takeWhile fun line => decide (chomp line ≠ [] ∧ LineFits lim line) := by
      rw [List.takeWhile_append, List.takeWhile_cons_of_neg (by simp [empty])]
      split
      · rename_i whole
        rw [List.append_nil]
        exact ((List.takeWhile_prefix _).eq_of_length whole).symm
      · rfl
    rw [stop]
    obtain ⟨more, split⟩ :=
      List.takeWhile_prefix (fun line => decide (chomp line ≠ [] ∧ LineFits lim line)) (l := lines)
    refine ⟨more.map lineEntry, ?_⟩
    rw [← List.map_append, split]
  · exact ⟨_, rfl⟩

section Claim

variable {result : TableParser × Int} {read behind : Bytes}

end Claim

end RequestLines
