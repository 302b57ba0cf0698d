import NanoProxy.RequestLines

/-!
# Tables that keep their keys

As long as every `shputs` stores the key that it is given, the parser of the source and the one
that keeps its headers in a map go the same way. This holds for every seed where no name is
repeated.
-/

namespace KeptHeaders

open CLib StringBuffer HttpRequestParser RequestDecoder ParserRefinement ParserPasses
open RequestGrammar AnyReads Segmentation Incremental StbDs RequestLines
open HeaderTable hiding httpParserInit feedEndOfHeaders storeHeader feedHeaderLine feedLoop
  httpParserFeed feedReads shget

/-- The table is the map that the request shows. -/
structure Mirrors (req : HttpRequest) (table : Table Bytes Bytes) : Prop where
  sane : (table.getD newHeader).Sane hashString
  entries : req.headers = entries table

variable {σ : UInt64} {lim : Limits} {p : TableParser} {seen line rest : Bytes}

theorem fieldsOf_append (lim : Limits) (a b : Bytes) :
    ∃ more, fieldsOf lim (a ++ b) = fieldsOf lim a ++ more := by
  obtain ⟨more, split⟩ := endedLines_append a b
  rw [fieldsOf, fieldsOf, split]
  cases endedLines a with
  | nil => exact ⟨_, rfl⟩
  | cons start lines =>
    dsimp only [List.cons_append]
    split
    · rw [List.takeWhile_append]
      split
      · rename_i whole
        rw [List.map_append]
        rw [(List.takeWhile_prefix _).eq_of_length whole]
        exact ⟨_, rfl⟩
      · exact ⟨[], (List.append_nil _).symm⟩
    · exact ⟨[], rfl⟩

theorem keeps_before {s : Bytes} (keeps : Keeps σ (fieldsOf lim (seen ++ s))) :
    Keeps σ (fieldsOf lim seen) := by
  obtain ⟨more, split⟩ := fieldsOf_append lim seen s
  rw [split] at keeps
  exact keeps.append_left

theorem HeadRead.mirrors {start : Bytes} {lines : List Bytes} {req : HttpRequest}
    {table : Table Bytes Bytes} (head : HeadRead σ lim start lines req table)
    (before : seen = start ++ LF :: (joinLines lines ++ rest))
    (keeps : Keeps σ (fieldsOf lim seen)) : Mirrors req table := by
  obtain ⟨more, fields⟩ := fieldsOf_lines head.one head.decoded head.plain before
  rw [fields] at keeps
  exact ⟨(head.kept keeps.append_left).2, head.headers⟩

/-- The next line, too, is put under its own key. -/
theorem HeadRead.put_next {start : Bytes} {lines : List Bytes} {req : HttpRequest}
    {table : Table Bytes Bytes} (head : HeadRead σ lim start lines req table)
    (before : seen = start ++ LF :: (joinLines (lines ++ [line]) ++ rest)) (one : LF ∉ line)
    (filled : chomp line ≠ []) (fits : LineFits lim line) (keeps : Keeps σ (fieldsOf lim seen)) :
    ∃ h', StbDs.shputs hashString σ table (lineEntry line).1 (lineEntry line).2 = some (some h') ∧
      h'.entries = HttpRequestParser.shputs req.headers (lineEntry line).1 (lineEntry line).2 := by
  have plain : ∀ l ∈ lines ++ [line], LF ∉ l ∧ chomp l ≠ [] ∧ LineFits lim l := by
    intro l hl
    rcases List.mem_append.mp hl with old | new
    · exact head.plain l old
    · rw [List.mem_singleton.mp new]
      exact ⟨one, filled, fits⟩
  obtain ⟨more, fields⟩ := fieldsOf_lines head.one head.decoded plain before
  rw [fields] at keeps
  have own := keeps.append_left
  rw [List.map_append] at own
  have sane := (head.kept own.append_left).2
  rw [Keeps, puts, List.map_append] at own
  have next := (keepsKeys_append own).2 table head.put
  rw [List.map_cons, List.map_cons, keepsKeys, Bool.and_eq_true] at next
  obtain ⟨h', stored, -, all⟩ := (shputs_iff sane σ _ (lineEntry line).2).1 next.1
  refine ⟨h', stored, ?_⟩
  rw [all, shputs_eq_put, head.headers]
  rfl

/-- The framing is read from the table as from the map. -/
theorem endOfHeaders_mirrors (lim : Limits) (mirrors : Mirrors p.parser.req p.table)
    (lineEnd : Nat) :
    HeaderTable.feedEndOfHeaders lim p lineEnd =
      some (feedEndOfHeaders lim p.parser lineEnd, some (p.table.getD newHeader)) := by
  have first := shget_sane mirrors.sane (ascii "content-length")
  have again : ((some (p.table.getD newHeader)).getD newHeader).Sane hashString := mirrors.sane
  have second := shget_sane again (ascii "transfer-encoding")
  rw [← mirrors.entries] at first
  change _ = some (_, HttpRequestParser.shget (entries p.table) _) at second
  rw [← mirrors.entries] at second
  rw [HeaderTable.feedEndOfHeaders, feedEndOfHeaders, first]
  dsimp only
  cases shget p.parser.req.headers (ascii "content-length") with
  | some value =>
    dsimp only
    split
    · rfl
    · rfl
  | none =>
    dsimp only
    rw [second]
    cases shget p.parser.req.headers (ascii "transfer-encoding") with
    | none => rfl
    | some value =>
      dsimp only
      split
      · rfl
      · rfl

theorem headerLine_kept (sane : Sane lim) (state : p.parser.state = .headers)
    (reading : Reading σ lim seen p) (keeps : Keeps σ (fieldsOf lim seen)) :
    ∃ table, HeaderTable.feedHeaderLine σ lim p = some (feedHeaderLine lim p.parser, table) := by
  rw [Reading, state] at reading
  obtain ⟨buffered, prev, -, start, lines, before, head⟩ := reading
  have small := buffered.bound
  have mirrors := HeadRead.mirrors head before keeps
  rw [feedHeaderLine_headerPass, feedHeaderLine_eq]
  rcases unread_line p.parser with none | ⟨line, rest, split, one⟩
  · rw [headerPass_wait none, headerPass_wait none]
    exact ⟨_, rfl⟩
  have split' : seen.drop p.parser.pos = line ++ LF :: rest := by rw [← buffered.kept, split]
  by_cases blank : chomp line = []
  · rw [headerPass_blank split one prev small blank, headerPass_blank split one prev small blank]
    split
    · exact ⟨_, rfl⟩
    · exact ⟨_, endOfHeaders_mirrors lim mirrors _⟩
  rw [headerPass_line sane split one prev small blank, headerPass_line sane split one prev small blank]
  dsimp only
  split
  swap
  · exact ⟨_, rfl⟩
  rename_i fits
  have fits : LineFits lim line :=
    ⟨fits.1, takeWhile_length_lt_iff.mp fits.2.1, fits.2.2.1, fits.2.2.2⟩
  obtain ⟨h', stored, all⟩ :=
    HeadRead.put_next head (append_line before split') one blank fits keeps
  change ∃ table, HeaderTable.storeHeader σ lim p (p.parser.pos + line.length)
    (lineEntry line).1 (lineEntry line).2 = some (storeHeader lim p.parser _ (lineEntry line).1
      (lineEntry line).2, table)
  rw [HeaderTable.storeHeader, storeHeader, stored, ← all]
  dsimp only
  rw [show entries (some h') = h'.entries from rfl]
  split
  · exact ⟨_, rfl⟩
  · exact ⟨_, rfl⟩

/-- One pass over the map. -/
def mapPass (lim : Limits) (buflen : Nat) (p : HttpParser) : Flow :=
  match p.state with
  | .requestLine => feedRequestLine lim p
  | .headers => feedHeaderLine lim p
  | _ => feedBody lim buflen p

theorem pass_kept (sane : Sane lim) (buflen : Nat) (reading : Reading σ lim seen p)
    (keeps : Keeps σ (fieldsOf lim seen)) :
    ∃ table, feedPass σ lim buflen p = some (mapPass lim buflen p.parser, table) := by
  rw [feedPass, mapPass]
  cases state : p.parser.state with
  | requestLine => exact ⟨_, rfl⟩
  | headers => exact headerLine_kept sane state reading keeps
  | body => exact ⟨_, rfl⟩
  | done => exact ⟨_, rfl⟩
  | error => exact ⟨_, rfl⟩

theorem feedLoop_running {buflen fuel : Nat} {q : HttpParser}
    (running : q.state ≠ .done ∧ q.state ≠ .error ∧ q.pos < buflen) :
    feedLoop lim buflen (fuel + 1) q = match mapPass lim buflen q with
      | .ret q code => (q, code)
      | .next q => feedLoop lim buflen fuel q := by
  rw [feedLoop, if_pos running]
  rfl

theorem feedLoop_kept (sane : Sane lim) (buflen fuel : Nat) (reading : Reading σ lim seen p)
    (keeps : Keeps σ (fieldsOf lim seen)) :
    ∃ table, HeaderTable.feedLoop σ lim buflen fuel p =
      some (⟨(feedLoop lim buflen fuel p.parser).1, table⟩,
        (feedLoop lim buflen fuel p.parser).2) := by
  induction fuel generalizing p with
  | zero => exact ⟨_, rfl⟩
  | succ fuel ih =>
    by_cases running : p.parser.state ≠ .done ∧ p.parser.state ≠ .error ∧ p.parser.pos < buflen
    · obtain ⟨table, passed⟩ := pass_kept sane buflen reading keeps
      have next := pass_reading sane reading running passed
      rw [HeaderTable.feedLoop, if_pos running, passed, feedLoop_running running]
      cases flow : mapPass lim buflen p.parser with
      | ret q code => exact ⟨_, rfl⟩
      | next q =>
        rw [flow] at next
        exact ih next.1
    · rw [HeaderTable.feedLoop, if_neg running, feedLoop, if_neg running]
      exact ⟨_, rfl⟩

theorem feed_kept {data : Bytes} (sane : Sane lim) (reading : Reading σ lim seen p)
    (keeps : Keeps σ (fieldsOf lim (seen ++ data))) :
    ∃ table, HeaderTable.httpParserFeed σ lim p data =
      some (⟨(httpParserFeed lim p.parser data).1, table⟩,
        (httpParserFeed lim p.parser data).2) := by
  rw [HeaderTable.httpParserFeed, httpParserFeed]
  cases appended : stringbufAppend p.parser.buffer data with
  | none => exact ⟨_, rfl⟩
  | some sb => exact feedLoop_kept sane _ _ (reading_append reading appended) keeps

theorem feedReads_kept_from (sane : Sane lim) (reads : List Bytes)
    (reading : Reading σ lim seen p) (live : Halted p.parser 0)
    (keeps : Keeps σ (fieldsOf lim (seen ++ reads.flatten))) :
    ∃ table, HeaderTable.feedReads σ lim p reads =
      some (⟨(feedReads lim p.parser reads).1, table⟩, (feedReads lim p.parser reads).2) := by
  induction reads generalizing seen p with
  | nil => exact ⟨_, rfl⟩
  | cons data reads ih =>
    rw [List.flatten_cons, ← List.append_assoc] at keeps
    obtain ⟨table, first⟩ := feed_kept sane reading (keeps_before keeps)
    have next := feed_reading sane reading (live.resolve_left (by decide)).1 first
    rw [HeaderTable.feedReads, first]
    by_cases zero : (httpParserFeed lim p.parser data).2 = 0
    · have step : httpParserFeed lim p.parser data = ((httpParserFeed lim p.parser data).1, 0) := by
        rw [← zero]
      rw [feedReads_cons_zero step]
      rw [zero] at next ⊢
      exact ih next.1 next.2 keeps
    · rw [feedReads_cons_stop zero]
      split
      · rename_i none
        cases none
      · rename_i q same
        exact absurd (Prod.mk.inj (Option.some.inj same)).2 zero
      · rename_i same
        cases same
        exact ⟨_, rfl⟩

/-- Where the table keeps its keys the source does what the parser over a map does. -/
theorem feedReads_kept (sane : Sane lim) (fd : Nat) (reads : List Bytes)
    (keeps : Keeps σ (fieldsOf lim reads.flatten)) :
    ∃ table, HeaderTable.feedReads σ lim (HeaderTable.httpParserInit fd) reads =
      some (⟨(feedReads lim (httpParserInit fd) reads).1, table⟩,
        (feedReads lim (httpParserInit fd) reads).2) :=
  feedReads_kept_from sane reads (init_reading fd)
    (Or.inr ⟨HttpParserState.noConfusion, fun _ => ⟨rfl, rfl⟩⟩) keeps

/-- A run that goes on after the first reads. -/
theorem feed_after {fd : Nat} {front : List Bytes} {last : Bytes} (sane : Sane lim)
    (keeps : Keeps σ (fieldsOf lim (front.flatten ++ last)))
    (waited : HeaderTable.feedReads σ lim (HeaderTable.httpParserInit fd) front = some (p, 0)) :
    feedReads lim (httpParserInit fd) front = (p.parser, 0) ∧
      ∃ table, HeaderTable.httpParserFeed σ lim p last =
        some (⟨(httpParserFeed lim p.parser last).1, table⟩,
          (httpParserFeed lim p.parser last).2) := by
  have waits : Halted (HeaderTable.httpParserInit fd).parser 0 :=
    Or.inr ⟨HttpParserState.noConfusion, fun _ => ⟨rfl, rfl⟩⟩
  obtain ⟨table, kept⟩ := feedReads_kept sane fd front (keeps_before keeps)
  rw [waited] at kept
  obtain ⟨same, code⟩ := Prod.mk.inj (Option.some.inj kept)
  refine ⟨Prod.ext (congrArg TableParser.parser same).symm code.symm, ?_⟩
  obtain ⟨read, behind, split, all, reading, -⟩ :=
    feedReads_reading sane front (init_reading fd) waits waited
  rw [List.nil_append] at reading
  rw [all rfl, List.append_nil] at split
  rw [← split] at reading
  exact feed_kept sane reading keeps

/-- The table of a request whose head has been read, for whoever looks into it. -/
theorem accepted_mirrors {fd : Nat} {reads : List Bytes} (sane : Sane lim)
    (keeps : Keeps σ (fieldsOf lim reads.flatten))
    (accepted : HeaderTable.feedReads σ lim (HeaderTable.httpParserInit fd) reads = some (p, 1)) :
    Mirrors p.parser.req p.table := by
  have waits : Halted (HeaderTable.httpParserInit fd).parser 0 :=
    Or.inr ⟨HttpParserState.noConfusion, fun _ => ⟨rfl, rfl⟩⟩
  obtain ⟨read, behind, split, -, reading, halted⟩ :=
    feedReads_reading sane reads (init_reading fd) waits accepted
  obtain ⟨live, past⟩ := halted.resolve_left (by decide : (1 : Int) ≠ -1)
  have behind : readingHeaders p.parser = false := by
    cases before : readingHeaders p.parser with
    | false => rfl
    | true => exact absurd (past before).1 (by decide : (1 : Int) ≠ 0)
  rw [split] at keeps
  rw [List.nil_append] at reading
  have whole : WholeHead σ lim read p := by
    rw [Reading] at reading
    cases state : p.parser.state with
    | requestLine => simp [readingHeaders, state] at behind
    | headers => simp [readingHeaders, state] at behind
    | body => rwa [state] at reading
    | done => rwa [state] at reading
    | error => exact absurd state live
  obtain ⟨start, lines, blank, rest, table, before, -, -, head, touched⟩ := whole
  have mirrors := HeadRead.mirrors head before (keeps_before keeps)
  rw [touched]
  exact ⟨mirrors.sane, mirrors.entries⟩

/-- Two runs return, and in the same way. -/
def Agree (r₁ r₂ : Option (TableParser × Int)) : Prop :=
  ∃ q₁ q₂, r₁ = some q₁ ∧ r₂ = some q₂ ∧ q₁.2 = q₂.2 ∧
    (q₁.2 = 1 → q₁.1.parser.req = q₂.1.parser.req)

/-- Segmentation invariance: two cuts of the same bytes lead to the same return value, and on
acceptance to the same request, when both tables keep their keys. -/
theorem cuts_agree (σ τ : UInt64) (fd : Nat) (s : Bytes) (short : s.length < STRINGBUF_MAX_CAP)
    (c₁ c₂ : Cut s) (keeps₁ : Keeps σ (fieldsOf .default s))
    (keeps₂ : Keeps τ (fieldsOf .default s)) :
    Agree (HeaderTable.feedReads σ .default (HeaderTable.httpParserInit fd) c₁.reads)
      (HeaderTable.feedReads τ .default (HeaderTable.httpParserInit fd) c₂.reads) := by
  obtain ⟨t₁, run₁⟩ := feedReads_kept default_sane fd c₁.reads (by rw [c₁.joined]; exact keeps₁)
  obtain ⟨t₂, run₂⟩ := feedReads_kept default_sane fd c₂.reads (by rw [c₂.joined]; exact keeps₂)
  exact ⟨_, _, run₁, run₂, feedReads_cut_invariant fd s short c₁ c₂⟩

/-- A request in one read and byte by byte. -/
def sample : Bytes := ascii "GET /a HTTP/1.1\r\nHost: b\r\n\r\n"

def sampleWhole : Cut sample := ⟨[sample], by decide, by decide, by decide⟩

def sampleBytewise : Cut sample := ⟨sample.map fun b => [b], by decide, by decide, by decide⟩

/-- Its names differ, so that any two tables will do. -/
theorem cuts_agree_sample :
    Agree (HeaderTable.feedReads firstSeed .default (HeaderTable.httpParserInit 4)
        sampleWhole.reads)
      (HeaderTable.feedReads (seedAfter 5) .default (HeaderTable.httpParserInit 4)
        sampleBytewise.reads) :=
  cuts_agree firstSeed (seedAfter 5) 4 sample (by decide) sampleWhole sampleBytewise
    (keeps_distinct (by decide)) (keeps_distinct (by decide))

/-- A length that is given twice. -/
def twiceLength : Bytes :=
  ascii "POST / HTTP/1.1\r\nCache-Control: a\r\nContent-Length: 2\r\nHost: h\r\n" ++
    ascii "Content-Length: 2\r\n\r\nab"

def twiceLengthWhole : Cut twiceLength :=
  ⟨[twiceLength], by decide +kernel, by decide +kernel, by decide +kernel⟩

def twiceLengthHalves : Cut twiceLength :=
  ⟨[twiceLength.take 40, twiceLength.drop 40], by decide +kernel, by decide +kernel,
    by decide +kernel⟩

/-- The second length lands under the name of the host in the sixth table of a process, where
the body is then left behind; in the first table it does not. -/
theorem cuts_differ :
    ¬ ∀ (σ τ : UInt64) (fd : Nat) (s : Bytes), s.length < STRINGBUF_MAX_CAP → ∀ c₁ c₂ : Cut s,
      Agree (HeaderTable.feedReads σ .default (HeaderTable.httpParserInit fd) c₁.reads)
        (HeaderTable.feedReads τ .default (HeaderTable.httpParserInit fd) c₂.reads) := by
  intro always
  obtain ⟨q₁, q₂, run₁, run₂, -, same⟩ := always firstSeed (seedAfter 5) 4 twiceLength
    (by decide +kernel) twiceLengthWhole twiceLengthHalves
  have first : (HeaderTable.feedReads firstSeed .default (HeaderTable.httpParserInit 4)
      twiceLengthWhole.reads).map (fun r => (r.2, r.1.parser.req.body)) =
        some (1, ascii "ab") := by decide +kernel
  have second : (HeaderTable.feedReads (seedAfter 5) .default (HeaderTable.httpParserInit 4)
      twiceLengthHalves.reads).map (fun r => (r.2, r.1.parser.req.body)) =
        some (1, []) := by decide +kernel
  rw [run₁] at first
  rw [run₂] at second
  obtain ⟨code, body⟩ := Prod.mk.inj (Option.some.inj first)
  obtain ⟨-, body'⟩ := Prod.mk.inj (Option.some.inj second)
  rw [same code, body'] at body
  exact absurd body (by decide)

end KeptHeaders
