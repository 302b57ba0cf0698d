import NanoProxy.ParserRefinement
import NanoProxy.ParserTrace

/-!
# The invariant of the parser

It holds in every state between two calls of `http_parser_feed` but the error state, and at
the beginning of every pass of the loop. From it no subtraction wraps, the scratch buffer of
the chunk-size line holds its line, and `buf` is not used after the buffer has been shifted.
-/

namespace ParserInvariant

open CLib StringBuffer HttpRequestParser RequestDecoder ParserRefinement ParserTrace Traced Traced.Run

/-- `p->pos` stands at the beginning of a line in these positions. -/
def BetweenLines (p : HttpParser) : Prop :=
  p.state = .requestLine ∨ p.state = .headers ∨
    (p.state = .body ∧ p.chunked = true ∧ p.contentLength = 0)

structure Invariant (lim : Limits) (p : HttpParser) : Prop where
  inside : p.pos ≤ p.buffer.size
  line : BetweenLines p → AtLineStart p
  counted : p.state = .body → p.chunked = false →
    p.req.body.length < p.contentLength ∧ p.contentLength ≤ lim.maxBodySize
  chunks : p.state = .body → p.chunked = true →
    p.req.body.length + p.contentLength ≤ lim.maxBodySize ∧ p.contentLength ≤ lim.maxChunkSize
  headers : p.req.headers.length ≤ lim.maxHeaders

/-- Besides, there is no body before the end of the headers, and the buffer holds what has been
read last. -/
structure Live (lim : Limits) (input : Bytes) (p : HttpParser) : Prop extends Invariant lim p where
  fresh : p.state = .requestLine ∨ p.state = .headers → p.req.body = [] ∧ p.chunked = false
  streaming : p.streamingBody = false
  unshifted : p.buffer.data <:+ input

/-- What does not go wrong in a pass. -/
def Safe (lim : Limits) (input : Bytes) : Event → Prop
  | .decrement lineLen => 1 ≤ lineLen
  | .remaining contentLength bodyLen => bodyLen ≤ contentLength
  | .avail buflen pos => pos ≤ buflen
  | .bodyRoom n => n ≤ lim.maxBodySize
  | .scratch i => i < 32
  | .cached shifted => shifted = false
  | .headerName name => name <:+: input

variable {lim : Limits} {input : Bytes} {p : HttpParser}

/-- A pass returns, or goes on further back in the same buffer. -/
def FlowLive (lim : Limits) (input : Bytes) (p : HttpParser) : Flow → Prop
  | .ret q _ => q.state = .error ∨ Live lim input q
  | .next q => Live lim input q ∧ q.buffer = p.buffer ∧ p.pos < q.pos

/-- The pass with its events is the pass of the parser. -/
def Follows (lim : Limits) (input : Bytes) (p : HttpParser) (expected flow : Flow) : Prop :=
  flow = expected ∧ FlowLive lim input p flow

theorem refuses {q : HttpParser} {expected : Flow} (same : parseError q = expected) :
    Meets (pure (parseError q) : Run Event Flow) (Safe lim input) (Follows lim input p expected) :=
  Meets.pure ⟨same, Or.inl rfl⟩

theorem waits {expected : Flow} (live : Live lim input p) (same : Flow.ret p 0 = expected) :
    Meets (pure (.ret p 0) : Run Event Flow) (Safe lim input) (Follows lim input p expected) :=
  Meets.pure ⟨same, Or.inr live⟩

theorem useBuf_bind {α : Type} {x : Run Event α} {post : α → Prop}
    (h : Meets x (Safe lim input) post) : Meets (useBuf false >>= fun _ => x) (Safe lim input) post :=
  Meets.step_bind (rfl : (false : Bool) = false) h

theorem memchr_found {buf : Bytes} {c : UInt8} {start i : Nat}
    (h : memchr buf c start = some i) : buf[i]? = some c := by
  obtain ⟨k, found, rfl⟩ := Option.map_eq_some_iff.mp h
  obtain ⟨inside, same, _⟩ := List.findIdx?_eq_some_iff_getElem.mp found
  rw [← List.getElem?_drop, List.getElem?_eq_getElem inside]
  exact congrArg some (beq_iff_eq.mp same)

theorem lineEnd_bounds {c : UInt8} {lineEnd : Nat}
    (found : stringbufMemchr p.buffer c p.pos = some lineEnd) :
    p.pos ≤ lineEnd ∧ lineEnd < p.buffer.data.length ∧ p.buffer.data[lineEnd]? = some c := by
  rw [stringbufMemchr_eq] at found
  exact ⟨(memchr_bounds found).1, (memchr_bounds found).2, memchr_found found⟩

/-- A CR in front of the line end belongs to the line: the byte in front of the line is an
LF. -/
theorem chompedLength_meets {lineEnd : Nat} (start : AtLineStart p)
    (found : stringbufMemchr p.buffer LF p.pos = some lineEnd) :
    Meets (ParserTrace.chompedLength false p.buffer.data lineEnd (lineEnd - p.pos)) (Safe lim input)
      (· = HttpRequestParser.chompedLength p.buffer.data lineEnd (lineEnd - p.pos)) := by
  obtain ⟨ahead, _, _⟩ := lineEnd_bounds found
  unfold ParserTrace.chompedLength HttpRequestParser.chompedLength
  by_cases front : lineEnd = 0
  · rw [if_pos front, if_neg (fun h => by omega)]
    exact Meets.pure rfl
  rw [if_neg front]
  refine useBuf_bind ?_
  by_cases cr : p.buffer.data[lineEnd - 1]? = some CR
  · rw [if_pos cr, if_pos ⟨Nat.pos_of_ne_zero front, cr⟩]
    refine Meets.step ?_ rfl
    have longer : lineEnd ≠ p.pos := by
      rintro rfl
      rcases start with first | behind
      · exact front first
      · rw [behind] at cr
        exact absurd cr (by decide)
    change 1 ≤ lineEnd - p.pos
    omega
  · rw [if_neg cr, if_neg fun h => cr h.2]
    exact Meets.pure rfl

/-- The parser behind a line. -/
theorem behind_line {q : HttpParser} {lineEnd : Nat}
    (found : stringbufMemchr p.buffer LF p.pos = some lineEnd) (same : q.buffer = p.buffer)
    (pos : q.pos = lineEnd + 1) : q.pos ≤ q.buffer.size ∧ AtLineStart q ∧ p.pos < q.pos := by
  obtain ⟨ahead, inside, lf⟩ := lineEnd_bounds found
  refine ⟨?_, Or.inr ?_, by omega⟩
  · rw [same, pos]
    exact inside
  · rw [same, pos]
    exact lf

/-- A pass over a line of the head. -/
theorem head_live {q : HttpParser} {lineEnd : Nat} (live : Live lim input p)
    (reading : p.state = .requestLine ∨ p.state = .headers)
    (found : stringbufMemchr p.buffer LF p.pos = some lineEnd) (buffer : q.buffer = p.buffer)
    (pos : q.pos = lineEnd + 1) (state : q.state = .headers) (body : q.req.body = p.req.body)
    (chunked : q.chunked = p.chunked) (streaming : q.streamingBody = p.streamingBody)
    (few : q.req.headers.length ≤ lim.maxHeaders) : FlowLive lim input p (.next q) := by
  obtain ⟨inside, start, further⟩ := behind_line found buffer pos
  have behind : q.state ≠ .body := by rw [state]; decide
  refine ⟨?_, buffer, further⟩
  constructor
  · constructor
    · exact inside
    · exact fun _ => start
    · exact fun inBody => absurd inBody behind
    · exact fun inBody => absurd inBody behind
    · exact few
  · intro _
    rw [body, chunked]
    exact live.fresh reading
  · rw [streaming]
    exact live.streaming
  · rw [buffer]
    exact live.unshifted

theorem feedRequestLine_meets (live : Live lim input p) (state : p.state = .requestLine) :
    Meets (ParserTrace.feedRequestLine lim false p) (Safe lim input)
      (Follows lim input p (HttpRequestParser.feedRequestLine lim p)) := by
  unfold ParserTrace.feedRequestLine HttpRequestParser.feedRequestLine
  dsimp only
  cases found : stringbufMemchr p.buffer LF p.pos with
  | none => exact waits live rfl
  | some lineEnd =>
    dsimp only
    by_cases long : lim.maxHeaderLineSize < lineEnd - p.pos
    · rw [if_pos long, if_pos long]
      exact refuses rfl
    rw [if_neg long, if_neg long]
    refine useBuf_bind ?_
    refine (chompedLength_meets (live.line (Or.inl state)) found).bind ?_
    rintro _ rfl
    cases stringbufFind p.buffer p.pos [SP] with
    | none => exact refuses rfl
    | some space1 =>
      dsimp only
      split
      · exact refuses rfl
      refine useBuf_bind ?_
      cases stringbufFind p.buffer (space1 + 1) [SP] with
      | none => exact refuses rfl
      | some space2 =>
        dsimp only
        split
        · exact refuses rfl
        refine useBuf_bind ?_
        split
        · exact refuses rfl
        refine useBuf_bind (Meets.pure ⟨rfl, ?_⟩)
        exact head_live live (Or.inl state) found rfl rfl rfl rfl rfl rfl live.headers

theorem decodeFraming_counted {hs : Headers} {n : Nat}
    (h : decodeFraming lim hs = some (.counted n)) : 0 < n ∧ n ≤ lim.maxBodySize := by
  unfold decodeFraming at h
  cases length : shget hs (ascii "content-length") with
  | some value =>
    simp only [length] at h
    by_cases good : (strtoull value 10).erange = false ∧ (strtoull value 10).rest = [] ∧
        (strtoull value 10).value ≤ lim.maxBodySize
    · rw [if_pos good] at h
      by_cases none : (strtoull value 10).value = 0
      · rw [if_pos none] at h
        cases h
      · rw [if_neg none] at h
        cases h
        exact ⟨Nat.pos_of_ne_zero none, good.2.2⟩
    · rw [if_neg good] at h
      cases h
  | none =>
    simp only [length] at h
    cases coding : shget hs (ascii "transfer-encoding") with
    | none => simp [coding] at h
    | some value =>
      simp only [coding] at h
      split at h <;> cases h

theorem feedEndOfHeaders_live {lineEnd : Nat} (live : Live lim input p) (state : p.state = .headers)
    (found : stringbufMemchr p.buffer LF p.pos = some lineEnd) :
    FlowLive lim input p (feedEndOfHeaders lim p lineEnd) := by
  obtain ⟨body, chunked⟩ := live.fresh (Or.inr state)
  rw [feedEndOfHeaders_eq chunked live.streaming]
  cases framing : decodeFraming lim p.req.headers with
  | none => exact Or.inl rfl
  | some phase =>
    obtain ⟨inside, start, further⟩ := behind_line (q := framed p lineEnd phase) found
      (by cases phase <;> rfl) (by cases phase <;> rfl)
    refine ⟨?_, by cases phase <;> rfl, further⟩
    have few : (framed p lineEnd phase).req.headers.length ≤ lim.maxHeaders := by
      cases phase <;> exact live.headers
    have streaming : (framed p lineEnd phase).streamingBody = false := by
      cases phase <;> exact live.streaming
    cases phase with
    | counted n =>
      obtain ⟨some, fits⟩ := decodeFraming_counted framing
      have shorter : p.req.body.length < n := by rwa [body]
      exact ⟨⟨inside, fun _ => start, fun _ _ => ⟨shorter, fits⟩, nofun, few⟩, nofun, streaming,
        live.unshifted⟩
    | chunkSize =>
      have fits : p.req.body.length + 0 ≤ lim.maxBodySize := by
        rw [body]
        exact Nat.zero_le _
      exact ⟨⟨inside, fun _ => start, nofun, fun _ _ => ⟨fits, Nat.zero_le _⟩, few⟩, nofun,
        streaming, live.unshifted⟩
    | _ => exact ⟨⟨inside, fun _ => start, nofun, nofun, few⟩, nofun, streaming, live.unshifted⟩

theorem feedHeaderLine_meets (live : Live lim input p) (state : p.state = .headers) :
    Meets (ParserTrace.feedHeaderLine lim false p) (Safe lim input)
      (Follows lim input p (HttpRequestParser.feedHeaderLine lim p)) := by
  unfold ParserTrace.feedHeaderLine HttpRequestParser.feedHeaderLine
  dsimp only
  cases found : stringbufMemchr p.buffer LF p.pos with
  | none => exact waits live rfl
  | some lineEnd =>
    dsimp only
    by_cases long : lim.maxHeaderLineSize < lineEnd - p.pos
    · rw [if_pos long, if_pos long]
      exact refuses rfl
    rw [if_neg long, if_neg long]
    refine useBuf_bind ?_
    refine (chompedLength_meets (live.line (Or.inr (Or.inl state))) found).bind ?_
    rintro _ rfl
    by_cases blank : HttpRequestParser.chompedLength p.buffer.data lineEnd (lineEnd - p.pos) = 0
    · rw [if_pos blank, if_pos blank]
      exact Meets.pure ⟨rfl, feedEndOfHeaders_live live state found⟩
    rw [if_neg blank, if_neg blank]
    cases stringbufMemchr p.buffer COLON p.pos with
    | none => exact refuses rfl
    | some colon =>
      dsimp only
      refine useBuf_bind ?_
      split
      · exact refuses rfl
      have sent {start stop : Nat} : (p.buffer.data.drop start).take stop <:+: input :=
        (List.take_prefix _ _).isInfix.trans
          ((List.drop_suffix _ _).isInfix.trans live.unshifted.isInfix)
      refine useBuf_bind (Meets.step_bind sent ?_)
      split
      · exact refuses rfl
      refine useBuf_bind ?_
      split
      · exact refuses rfl
      rename_i few
      refine Meets.pure ⟨rfl, ?_⟩
      exact head_live live (Or.inr state) found rfl rfl state rfl rfl rfl (Nat.not_lt.mp few)

/-- A pass over the body leaves the message complete or the buffer used up. -/
def BodyLive (lim : Limits) (input : Bytes) (buflen : Nat) (p : HttpParser) : Flow → Prop
  | .ret q _ => q.state = .error ∨ Live lim input q
  | .next q => Live lim input q ∧ q.buffer = p.buffer ∧ (q.state = .done ∨ buflen ≤ q.pos)

theorem copyLine_meets (left i : Nat) (room : i + left < 32) :
    Meets (copyLine left i) (Safe lim input) fun _ => True := by
  induction left generalizing i with
  | zero => exact Meets.step room trivial
  | succ left ih =>
    have here : i < 32 := by omega
    exact Meets.step_bind here (ih (i + 1) (by omega))

/-- Every state behind the end of the headers. -/
theorem behind_headers {q : HttpParser} (inBody : q.state = .body ∨ q.state = .done)
    (invariant : Invariant lim q) (streaming : q.streamingBody = false)
    (unshifted : q.buffer.data <:+ input) : Live lim input q := by
  constructor
  · exact invariant
  · intro reading
    rcases inBody with state | state <;> rw [state] at reading <;> simp at reading
  · exact streaming
  · exact unshifted

theorem feedCountedBody_meets (live : Live lim input p) (state : p.state = .body)
    (counted : p.chunked = false) :
    Meets (ParserTrace.feedCountedBody lim false p.buffer.size p) (Safe lim input)
      (fun flow => flow = HttpRequestParser.feedCountedBody lim p.buffer.size p ∧
        BodyLive lim input p.buffer.size p flow) := by
  obtain ⟨shorter, limited⟩ := live.counted state counted
  have inside := live.inside
  unfold ParserTrace.feedCountedBody HttpRequestParser.feedCountedBody
  refine Meets.step_bind (Nat.le_of_lt shorter) (useBuf_bind (Meets.step_bind inside ?_))
  dsimp only
  by_cases empty : p.buffer.size - p.pos = 0
  · rw [if_pos empty, if_pos empty]
    exact Meets.pure ⟨rfl, Or.inr live⟩
  rw [if_neg empty, if_neg empty]
  have taken : (if p.contentLength - p.req.body.length < p.buffer.size - p.pos
      then p.contentLength - p.req.body.length else p.buffer.size - p.pos) =
      min (p.contentLength - p.req.body.length) (p.buffer.size - p.pos) := by
    split <;> omega
  rw [taken]
  have below : min (p.contentLength - p.req.body.length) (p.buffer.size - p.pos) ≤
      p.contentLength - p.req.body.length := Nat.min_le_left _ _
  have fits : min (p.contentLength - p.req.body.length) (p.buffer.size - p.pos) ≤
      p.buffer.size - p.pos := Nat.min_le_right _ _
  have whole : min (p.contentLength - p.req.body.length) (p.buffer.size - p.pos) =
      p.contentLength - p.req.body.length ∨
      min (p.contentLength - p.req.body.length) (p.buffer.size - p.pos) =
        p.buffer.size - p.pos := by omega
  generalize min (p.contentLength - p.req.body.length) (p.buffer.size - p.pos) = consume at *
  rw [if_neg (by omega)]
  refine Meets.step_bind (by change consume ≤ lim.maxBodySize; omega) ?_
  by_cases full : lim.maxBodySize - consume < p.req.body.length
  · rw [if_pos full, if_pos (Or.inr full)]
    exact Meets.pure ⟨rfl, Or.inl rfl⟩
  have room : ¬ (lim.maxBodySize < consume ∨ lim.maxBodySize - consume < p.req.body.length) := by
    omega
  rw [if_neg full, if_neg room]
  refine useBuf_bind (Meets.pure ⟨rfl, ?_⟩)
  have size : p.buffer.size = p.buffer.data.length := rfl
  have further : p.pos + consume ≤ p.buffer.size := by omega
  have copied : (p.req.body ++ (p.buffer.data.drop p.pos).take consume).length =
      p.req.body.length + consume := by
    rw [List.length_append, List.length_take, List.length_drop]
    omega
  by_cases complete :
      (p.req.body ++ (p.buffer.data.drop p.pos).take consume).length = p.contentLength
  · rw [if_pos complete]
    refine ⟨behind_headers (Or.inr rfl) ?_ live.streaming live.unshifted, rfl, Or.inl rfl⟩
    exact ⟨further, nofun, nofun, nofun, live.headers⟩
  · rw [if_neg complete]
    refine ⟨behind_headers (Or.inl state) ?_ live.streaming live.unshifted, rfl, Or.inr ?_⟩
    · constructor
      · exact further
      · rintro (h | h | h)
        · cases state.symm.trans h
        · cases state.symm.trans h
        · cases counted.symm.trans h.2.1
      · intro _ _
        change (p.req.body ++ (p.buffer.data.drop p.pos).take consume).length < p.contentLength ∧ _
        exact ⟨by omega, limited⟩
      · intro _ chunked
        cases counted.symm.trans chunked
      · exact live.headers
    · change p.buffer.size ≤ p.pos + consume
      omega

/-- A round of the inner loop over chunks. -/
def ChunkLive (lim : Limits) (input : Bytes) (p : HttpParser) : Flow → Prop
  | .ret q _ => q.state = .error ∨ Live lim input q
  | .next q => Live lim input q ∧ q.buffer = p.buffer ∧ p.pos < q.pos ∧ q.chunked = true ∧
      (q.state = .body ∨ q.state = .done)

theorem feedChunkSize_meets (within : lim.maxChunkSize ≤ lim.maxBodySize) (live : Live lim input p)
    (state : p.state = .body) (chunked : p.chunked = true) (between : p.contentLength = 0) :
    Meets (ParserTrace.feedChunkSize lim false p) (Safe lim input)
      (fun flow => flow = HttpRequestParser.feedChunkSize lim p ∧ ChunkLive lim input p flow) := by
  have refused {q : HttpParser} {expected : Flow} (same : parseError q = expected) :
      Meets (pure (parseError q) : Run Event Flow) (Safe lim input)
        (fun flow => flow = expected ∧ ChunkLive lim input p flow) := Meets.pure ⟨same, Or.inl rfl⟩
  unfold ParserTrace.feedChunkSize HttpRequestParser.feedChunkSize
  dsimp only
  cases found : stringbufMemchr p.buffer LF p.pos with
  | none => exact Meets.pure ⟨rfl, Or.inr live⟩
  | some lineEnd =>
    dsimp only
    refine (chompedLength_meets (live.line (Or.inr (Or.inr ⟨state, chunked, between⟩)))
      found).bind ?_
    rintro _ rfl
    generalize HttpRequestParser.chompedLength p.buffer.data lineEnd (lineEnd - p.pos) = lineLen
    by_cases bad : lineLen = 0 ∨ 32 ≤ lineLen
    · rw [if_pos bad, if_pos bad]
      exact refused rfl
    rw [if_neg bad, if_neg bad]
    refine useBuf_bind ((copyLine_meets lineLen 0 (by omega)).bind fun _ _ => ?_)
    generalize (((p.buffer.data.drop p.pos).take lineLen).takeWhile (· != 0)).takeWhile
      (· != SEMI) = line
    by_cases digits : (line.any fun b => !isxdigit b) = true
    · rw [if_pos digits, if_pos digits]
      exact refused rfl
    rw [if_neg digits, if_neg digits]
    generalize strtoull line 16 = size
    by_cases large : size.erange ∨ size.rest ≠ [] ∨ lim.maxChunkSize < size.value
    · have large' : size.erange ∨ size.rest ≠ [] ∨ lim.maxChunkSize < size.value ∨
          lim.maxBodySize - size.value < p.req.body.length := by
        rcases large with h | h | h
        · exact Or.inl h
        · exact Or.inr (Or.inl h)
        · exact Or.inr (Or.inr (Or.inl h))
      rw [if_pos large, if_pos large']
      exact refused rfl
    rw [if_neg large]
    simp only [not_or, not_lt] at large
    obtain ⟨inRange, whole, limited⟩ := large
    refine Meets.step_bind (le_trans limited within) ?_
    by_cases full : lim.maxBodySize - size.value < p.req.body.length
    · rw [if_pos full, if_pos (Or.inr (Or.inr (Or.inr full)))]
      exact refused rfl
    have good : ¬ (size.erange ∨ size.rest ≠ [] ∨ lim.maxChunkSize < size.value ∨
        lim.maxBodySize - size.value < p.req.body.length) := by
      rintro (h | h | h | h)
      · exact inRange h
      · exact whole h
      · exact absurd h (Nat.not_lt.mpr limited)
      · exact full h
    rw [if_neg full, if_neg good]
    refine Meets.pure ⟨rfl, ?_⟩
    have room : p.req.body.length + size.value ≤ lim.maxBodySize := by omega
    by_cases last : size.value = 0
    · obtain ⟨inside, start, further⟩ := behind_line (q := { p with
        contentLength := size.value, pos := lineEnd + 1, state := .done }) found rfl rfl
      rw [if_pos last]
      refine ⟨behind_headers (Or.inr rfl) ?_ live.streaming live.unshifted, rfl, further, chunked,
        Or.inr rfl⟩
      exact ⟨inside, fun _ => start, nofun, nofun, live.headers⟩
    · obtain ⟨inside, start, further⟩ := behind_line (q := { p with
        contentLength := size.value, pos := lineEnd + 1 }) found rfl rfl
      rw [if_neg last]
      refine ⟨behind_headers (Or.inl state) ?_ live.streaming live.unshifted, rfl, further, chunked,
        Or.inl state⟩
      refine ⟨inside, fun _ => start, ?_, fun _ _ => ⟨room, limited⟩, live.headers⟩
      intro _ counted
      cases chunked.symm.trans counted

theorem feedChunkData_meets (live : Live lim input p) (state : p.state = .body)
    (chunked : p.chunked = true) :
    Meets (ParserTrace.feedChunkData false p.buffer.size p) (Safe lim input)
      (fun flow => flow = HttpRequestParser.feedChunkData p.buffer.size p ∧
        ChunkLive lim input p flow) := by
  unfold ParserTrace.feedChunkData HttpRequestParser.feedChunkData
  refine useBuf_bind (Meets.step_bind live.inside ?_)
  dsimp only
  by_cases short : p.buffer.size - p.pos < p.contentLength + 2
  · rw [if_pos short, if_pos short]
    exact Meets.pure ⟨rfl, Or.inr live⟩
  rw [if_neg short, if_neg short]
  refine useBuf_bind ?_
  by_cases ended : (p.buffer.data.drop (p.pos + p.contentLength)).take 2 ≠ CRLF
  · rw [if_pos ended, if_pos ended]
    exact Meets.pure ⟨rfl, Or.inl rfl⟩
  rw [if_neg ended, if_neg ended]
  refine useBuf_bind (Meets.pure ⟨rfl, ?_⟩)
  have whole : (if p.contentLength < p.buffer.size - p.pos - 2 then p.contentLength
      else p.buffer.size - p.pos - 2) = p.contentLength := by
    split <;> omega
  rw [whole]
  have size : p.buffer.size = p.buffer.data.length := rfl
  have further : p.pos + p.contentLength + 2 ≤ p.buffer.size := by omega
  have lf : p.buffer.data[p.pos + p.contentLength + 1]? = some LF := by
    rw [← List.getElem?_drop, ← List.getElem?_take_of_lt (by decide : 1 < 2), not_not.mp ended]
    rfl
  have copied : (p.req.body ++ (p.buffer.data.drop p.pos).take p.contentLength).length =
      p.req.body.length + p.contentLength := by
    rw [List.length_append, List.length_take, List.length_drop]
    omega
  obtain ⟨room, _⟩ := live.chunks state chunked
  have ahead : p.pos < p.pos + p.contentLength + 2 := by omega
  refine ⟨behind_headers (Or.inl state) ?_ live.streaming live.unshifted, rfl, ahead, chunked,
    Or.inl state⟩
  constructor
  · exact further
  · exact fun _ => Or.inr lf
  · intro _ counted
    cases chunked.symm.trans counted
  · intro _ _
    change (p.req.body ++ (p.buffer.data.drop p.pos).take p.contentLength).length + 0 ≤ _ ∧ _
    exact ⟨by omega, Nat.zero_le _⟩
  · exact live.headers

theorem feedChunks_meets (within : lim.maxChunkSize ≤ lim.maxBodySize) (fuel : Nat)
    (live : Live lim input p) (state : p.state = .body) (chunked : p.chunked = true)
    (enough : p.buffer.size - p.pos ≤ fuel) :
    Meets (ParserTrace.feedChunks lim false p.buffer.size (fuel + 1) p) (Safe lim input)
      (fun flow => flow = HttpRequestParser.feedChunks lim p.buffer.size fuel p ∧
        BodyLive lim input p.buffer.size p flow) := by
  induction fuel generalizing p with
  | zero =>
    have used : ¬ p.pos < p.buffer.size := by omega
    rw [ParserTrace.feedChunks, if_neg used]
    exact useBuf_bind (Meets.pure ⟨rfl, live, rfl, Or.inr (Nat.not_lt.mp used)⟩)
  | succ fuel ih =>
    rw [ParserTrace.feedChunks, HttpRequestParser.feedChunks]
    refine useBuf_bind ?_
    by_cases used : ¬ p.pos < p.buffer.size
    · rw [if_neg used, if_neg used]
      exact Meets.pure ⟨rfl, live, rfl, Or.inr (Nat.not_lt.mp used)⟩
    rw [if_pos (not_not.mp used), if_pos (not_not.mp used)]
    have round : Meets (if p.contentLength = 0 then ParserTrace.feedChunkSize lim false p
          else ParserTrace.feedChunkData false p.buffer.size p) (Safe lim input)
        (fun flow => flow = (if p.contentLength = 0 then HttpRequestParser.feedChunkSize lim p
          else HttpRequestParser.feedChunkData p.buffer.size p) ∧ ChunkLive lim input p flow) := by
      by_cases between : p.contentLength = 0
      · rw [if_pos between, if_pos between]
        exact feedChunkSize_meets within live state chunked between
      · rw [if_neg between, if_neg between]
        exact feedChunkData_meets live state chunked
    refine round.bind ?_
    rintro flow ⟨same, after⟩
    rw [← same]
    cases flow with
    | ret q code => exact Meets.pure ⟨rfl, after⟩
    | next q =>
      obtain ⟨live', buffer, further, chunked', state'⟩ := after
      dsimp only
      by_cases done : q.state = .done
      · rw [if_pos done, if_pos done]
        exact Meets.pure ⟨rfl, live', buffer, Or.inl done⟩
      · rw [if_neg done, if_neg done]
        have left : q.buffer.size - q.pos ≤ fuel := by
          rw [buffer]
          omega
        have rest := ih live' (state'.resolve_right done) chunked' left
        rw [buffer] at rest
        refine rest.imp ?_
        rintro flow ⟨same, after⟩
        refine ⟨same, ?_⟩
        cases flow with
        | ret r code => exact after
        | next r => exact ⟨after.1, after.2.1.trans buffer, after.2.2⟩

/-- What a pass leaves for the next one: unless the message is done, the buffer is where it was
and the parser is further back in it. -/
def PassLive (lim : Limits) (input : Bytes) (p : HttpParser) : Flow × Bool → Prop
  | (.ret q _, _) => q.state = .error ∨ Live lim input q
  | (.next q, shifted) => Live lim input q ∧
      (q.state = .done ∨ (shifted = false ∧ q.buffer = p.buffer ∧ p.pos < q.pos))

theorem feedBody_meets (within : lim.maxChunkSize ≤ lim.maxBodySize) (live : Live lim input p)
    (state : p.state = .body) (unread : p.pos < p.buffer.size) :
    Meets (ParserTrace.feedBody lim false p.buffer.size p) (Safe lim input)
      (fun result => result.1 = HttpRequestParser.feedBody lim p.buffer.size p ∧
        PassLive lim input p result) := by
  have body : Meets (if !p.chunked then ParserTrace.feedCountedBody lim false p.buffer.size p
        else ParserTrace.feedChunks lim false p.buffer.size (p.buffer.size + 1) p) (Safe lim input)
      (fun flow => flow = (if !p.chunked then
          HttpRequestParser.feedCountedBody lim p.buffer.size p
        else HttpRequestParser.feedChunks lim p.buffer.size p.buffer.size p) ∧
        BodyLive lim input p.buffer.size p flow) := by
    cases chunked : p.chunked with
    | false => exact feedCountedBody_meets live state chunked
    | true => exact feedChunks_meets within _ live state chunked (Nat.sub_le _ _)
  unfold ParserTrace.feedBody HttpRequestParser.feedBody
  refine body.bind ?_
  rintro flow ⟨same, after⟩
  rw [← same]
  cases flow with
  | ret q code => exact Meets.pure ⟨rfl, after⟩
  | next q =>
    obtain ⟨live', buffer, ended⟩ := after
    dsimp only
    by_cases front : q.pos = 0
    · rw [if_pos front, if_neg fun h => Nat.ne_of_gt h.1 front]
      refine Meets.pure ⟨rfl, live', Or.inl (ended.resolve_right ?_)⟩
      rw [front]
      omega
    rw [if_neg front]
    refine useBuf_bind ?_
    by_cases left : q.pos < p.buffer.size
    · -- only behind a complete message is there something left to shift
      have done : q.state = .done := ended.resolve_right (Nat.not_le.mpr left)
      rw [if_pos left, if_pos ⟨Nat.pos_of_ne_zero front, left⟩]
      have kept : (stringbufConsume q.buffer q.pos).data <:+ input := by
        rw [stringbufConsume, if_neg front]
        exact (List.drop_suffix _ _).trans live'.unshifted
      refine Meets.pure ⟨rfl, behind_headers (Or.inr done) ?_ live'.streaming kept, Or.inl done⟩
      have notBody : q.state ≠ .body := by rw [done]; decide
      exact ⟨Nat.zero_le _, fun _ => Or.inl rfl, fun inBody => absurd inBody notBody,
        fun inBody => absurd inBody notBody, live'.headers⟩
    · rw [if_neg left, if_neg fun h => left h.2]
      exact Meets.pure ⟨rfl, live', Or.inr ⟨rfl, buffer, by omega⟩⟩

/-- The pass over a line of the head leaves `buf` where it is. -/
theorem line_meets {x : Run Event Flow} {expected : Flow}
    (line : Meets x (Safe lim input) (Follows lim input p expected)) :
    Meets (x >>= fun flow => pure (flow, false)) (Safe lim input)
      (fun result => result.1 = expected ∧ PassLive lim input p result) := by
  refine line.bind ?_
  rintro flow ⟨same, after⟩
  refine Meets.pure ⟨same, ?_⟩
  cases flow with
  | ret q code => exact after
  | next q => exact ⟨after.1, Or.inr ⟨rfl, after.2⟩⟩

/-- The pass that the loop of the parser makes. -/
def plainPass (lim : Limits) (buflen : Nat) (p : HttpParser) : Flow :=
  match p.state with
  | .requestLine => HttpRequestParser.feedRequestLine lim p
  | .headers => HttpRequestParser.feedHeaderLine lim p
  | _ => HttpRequestParser.feedBody lim buflen p

theorem pass_meets (within : lim.maxChunkSize ≤ lim.maxBodySize) (live : Live lim input p)
    (running : p.state ≠ .done ∧ p.state ≠ .error) (unread : p.pos < p.buffer.size) :
    Meets (ParserTrace.pass lim false p.buffer.size p) (Safe lim input)
      (fun result => result.1 = plainPass lim p.buffer.size p ∧ PassLive lim input p result) := by
  unfold ParserTrace.pass plainPass
  cases state : p.state with
  | requestLine => exact line_meets (feedRequestLine_meets live state)
  | headers => exact line_meets (feedHeaderLine_meets live state)
  | body => exact feedBody_meets within live state unread
  | done => exact absurd state running.1
  | error => exact absurd state running.2

section Rounds

variable {buflen fuel : Nat} {shifted : Bool}

theorem feedLoop_runs (running : p.state ≠ .done ∧ p.state ≠ .error) (unread : p.pos < buflen) :
    HttpRequestParser.feedLoop lim buflen (fuel + 1) p = match plainPass lim buflen p with
      | .ret q code => (q, code)
      | .next q => HttpRequestParser.feedLoop lim buflen fuel q := by
  rw [HttpRequestParser.feedLoop]
  exact if_pos ⟨running.1, running.2, unread⟩

theorem feedLoop_rests (rests : ¬ (p.state ≠ .done ∧ p.state ≠ .error ∧ p.pos < buflen)) :
    HttpRequestParser.feedLoop lim buflen (fuel + 1) p = (p, match p.state with
      | .done => 1
      | .error => -1
      | _ => 0) := by
  rw [HttpRequestParser.feedLoop]
  exact if_neg rests

theorem traced_runs (running : p.state ≠ .done ∧ p.state ≠ .error) :
    ParserTrace.feedLoop lim buflen (fuel + 1) shifted p = (useBuf shifted >>= fun _ =>
      if p.pos < buflen then pass lim shifted buflen p >>= fun result => match result with
        | (.ret q code, _) => pure (q, code)
        | (.next q, shifted) => ParserTrace.feedLoop lim buflen fuel shifted q
      else pure (p, 0)) := by
  rw [ParserTrace.feedLoop]
  cases state : p.state with
  | done => exact absurd state running.1
  | error => exact absurd state running.2
  | _ => rfl

end Rounds

theorem feedLoop_meets (within : lim.maxChunkSize ≤ lim.maxBodySize) {buflen : Nat} (fuel : Nat)
    {shifted : Bool} (live : p.state ≠ .error → Live lim input p)
    (cached : p.state ≠ .done → shifted = false ∧ p.buffer.size = buflen ∧ buflen - p.pos < fuel)
    (some : 0 < fuel) :
    Meets (ParserTrace.feedLoop lim buflen (fuel + 1) shifted p) (Safe lim input)
      (fun result => result = HttpRequestParser.feedLoop lim buflen fuel p ∧
        (result.1.state ≠ .error → Live lim input result.1)) := by
  induction fuel generalizing p shifted with
  | zero => exact absurd some (Nat.lt_irrefl 0)
  | succ fuel ih =>
    by_cases done : p.state = .done
    · rw [feedLoop_rests fun h => h.1 done, ParserTrace.feedLoop, done]
      exact Meets.pure ⟨rfl, live⟩
    by_cases failed : p.state = .error
    · rw [feedLoop_rests fun h => h.2.1 failed, ParserTrace.feedLoop, failed]
      exact Meets.pure ⟨rfl, live⟩
    obtain ⟨rfl, rfl, enough⟩ := cached done
    rw [traced_runs ⟨done, failed⟩]
    refine useBuf_bind ?_
    by_cases used : ¬ p.pos < p.buffer.size
    · rw [feedLoop_rests fun h => used h.2.2, if_neg used]
      refine Meets.pure ⟨?_, live⟩
      cases state : p.state with
      | done => exact absurd state done
      | error => exact absurd state failed
      | _ => rfl
    have unread := not_not.mp used
    rw [feedLoop_runs ⟨done, failed⟩ unread, if_pos unread]
    refine (pass_meets within (live failed) ⟨done, failed⟩ unread).bind ?_
    rintro ⟨flow, shifted⟩ ⟨rfl, after⟩
    cases flow : plainPass lim p.buffer.size p with
    | ret q code =>
      rw [flow] at after
      exact Meets.pure ⟨rfl, after.resolve_left⟩
    | next q =>
      rw [flow] at after
      obtain ⟨live', ended | ⟨notShifted, buffer, further⟩⟩ := after
      · refine ih (fun _ => live') (fun more => absurd ended more) ?_
        omega
      · refine ih (fun _ => live') (fun _ => ⟨notShifted, congrArg StringBuf.size buffer, ?_⟩) ?_
        · omega
        · omega

theorem httpParserFeed_meets (within : lim.maxChunkSize ≤ lim.maxBodySize) (data : Bytes)
    (live : p.state ≠ .error → Live lim input p) :
    Meets (ParserTrace.httpParserFeed lim p data) (Safe lim (input ++ data))
      (fun result => result = HttpRequestParser.httpParserFeed lim p data ∧
        (result.1.state ≠ .error → Live lim (input ++ data) result.1)) := by
  unfold ParserTrace.httpParserFeed HttpRequestParser.httpParserFeed
  cases appended : stringbufAppend p.buffer data with
  | none => exact Meets.pure ⟨rfl, fun good => absurd rfl good⟩
  | some buffer =>
    have grown : buffer.data = p.buffer.data ++ data := (stringbufAppend_data appended).2
    have enough : buffer.size - p.pos < buffer.size + 1 := Nat.lt_succ_of_le (Nat.sub_le _ _)
    refine feedLoop_meets within (buffer.size + 1) ?_ (fun _ => ⟨rfl, rfl, enough⟩) (Nat.succ_pos _)
    intro good
    have before := live good
    have inside := before.inside
    have longer : p.buffer.size ≤ buffer.size := by
      rw [StringBuf.size, StringBuf.size, grown, List.length_append]
      exact Nat.le_add_right _ _
    refine ⟨⟨inside.trans longer, ?_, before.counted, before.chunks, before.headers⟩, before.fresh,
      before.streaming, ?_⟩
    · intro between
      rcases before.line between with front | behind
      · exact Or.inl front
      · refine Or.inr ?_
        change buffer.data[p.pos - 1]? = _
        rw [grown, List.getElem?_append_left (List.getElem?_eq_some_iff.mp behind).1]
        exact behind
    · change buffer.data <:+ input ++ data
      rw [grown]
      exact (List.suffix_append_inj_of_length_eq rfl).mpr ⟨before.unshifted, rfl⟩

theorem httpParserInit_live (fd : Nat) : Live lim [] (httpParserInit fd) := by
  constructor
  · exact ⟨Nat.le_refl 0, fun _ => Or.inl rfl, nofun, nofun, Nat.zero_le _⟩
  · exact fun _ => ⟨rfl, rfl⟩
  · rfl
  · exact List.suffix_refl []

theorem Safe.more {e : Event} (safe : Safe lim input e) (data : Bytes) :
    Safe lim (input ++ data) e := by
  cases e with
  | headerName name => exact List.IsInfix.trans safe (List.prefix_append _ _).isInfix
  | _ => exact safe

theorem feedAll_meets (within : lim.maxChunkSize ≤ lim.maxBodySize) (reads : List Bytes)
    (live : p.state ≠ .error → Live lim input p) :
    Meets (feedAll lim p reads) (Safe lim (input ++ reads.flatten)) (fun q =>
      q = reads.foldl (fun p data => (HttpRequestParser.httpParserFeed lim p data).1) p ∧
      (q.state ≠ .error → Live lim (input ++ reads.flatten) q)) := by
  induction reads generalizing p input with
  | nil =>
    rw [List.flatten_nil, List.append_nil]
    exact Meets.pure ⟨rfl, live⟩
  | cons data reads ih =>
    rw [List.flatten_cons, ← List.append_assoc]
    refine ((httpParserFeed_meets within data live).allow fun e safe => safe.more _).bind ?_
    rintro _ ⟨rfl, live'⟩
    exact ih live'

theorem feedAll_default (fd : Nat) (reads : List Bytes) :
    Meets (feedAll .default (httpParserInit fd) reads) (Safe .default reads.flatten) (fun p =>
      p = reads.foldl (fun p data => (HttpRequestParser.httpParserFeed .default p data).1)
        (httpParserInit fd) ∧
      (p.state ≠ .error → Live .default reads.flatten p)) := by
  have within : Limits.default.maxChunkSize ≤ Limits.default.maxBodySize := by decide
  have run := feedAll_meets within reads fun _ => httpParserInit_live fd
  rwa [List.nil_append] at run

/-- After any reads, the parser is in the error state or the invariant holds, and nothing has
gone wrong on the way. -/
theorem feedAll_invariant (fd : Nat) (reads : List Bytes) :
    Meets (feedAll .default (httpParserInit fd) reads) (Safe .default reads.flatten) (fun p =>
      p = reads.foldl (fun p data => (HttpRequestParser.httpParserFeed .default p data).1)
        (httpParserInit fd) ∧
      (p.state ≠ .error → Invariant .default p)) := by
  refine (feedAll_default fd reads).imp ?_
  rintro p ⟨same, live⟩
  exact ⟨same, fun good => (live good).toInvariant⟩

end ParserInvariant
