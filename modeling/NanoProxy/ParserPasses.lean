import NanoProxy.HttpRequestParser

/-!
# What the parser returns

One lemma for each pass of the loop, whatever the buffer holds: `streaming_body` stays, the
end of the headers stays behind, and the code says how far the request has come.
-/

namespace ParserPasses

open CLib HttpRequestParser

/-- `parser.state < HP_BODY` -/
def readingHeaders (p : HttpParser) : Bool :=
  match p.state with
  | .requestLine | .headers => true
  | .body | .done | .error => false

/-- A parser and what a pass leaves of it. -/
structure Advances (p q : HttpParser) : Prop where
  streamingBody : q.streamingBody = p.streamingBody
  behind : readingHeaders p = false → readingHeaders q = false

/-- How a pass ends; it returns 2 only to a handler that streams the body. -/
inductive Pass (p : HttpParser) : Flow → Prop
  | next (q : HttpParser) (advances : Advances p q) : Pass p (.next q)
  | error (q : HttpParser) (advances : Advances p q) : Pass p (.ret q (-1))
  | more (q : HttpParser) (advances : Advances p q) : Pass p (.ret q 0)
  | streamed (q : HttpParser) (advances : Advances p q) (streaming : p.streamingBody = true)
      (behind : readingHeaders q = false) : Pass p (.ret q 2)

variable {lim : Limits} {p q : HttpParser}

theorem Advances.refl (p : HttpParser) : Advances p p := ⟨rfl, id⟩

theorem Advances.trans {r : HttpParser} (h : Advances p q) (h' : Advances q r) : Advances p r :=
  ⟨h'.streamingBody.trans h.streamingBody, fun past => h'.behind (h.behind past)⟩

theorem Pass.failed (same : q.streamingBody = p.streamingBody) : Pass p (parseError q) :=
  .error _ ⟨same, fun _ => rfl⟩

theorem Pass.wait (p : HttpParser) : Pass p (.ret p 0) := .more p (.refl p)

/-- A pass over a line starts before the end of the headers. -/
theorem Pass.line (reading : readingHeaders p = true) (same : q.streamingBody = p.streamingBody) :
    Pass p (.next q) :=
  .next q ⟨same, fun past => absurd past (by simp [reading])⟩

theorem feedRequestLine_pass (reading : readingHeaders p = true) :
    Pass p (feedRequestLine lim p) := by
  unfold feedRequestLine
  dsimp only
  split
  · exact .wait p
  split
  · exact .failed rfl
  split
  · exact .failed rfl
  split
  · exact .failed rfl
  split
  · exact .failed rfl
  split
  · exact .failed rfl
  split
  · exact .failed rfl
  · exact .line reading rfl

theorem feedEndOfHeaders_pass (reading : readingHeaders p = true) (lineEnd : Nat) :
    Pass p (feedEndOfHeaders lim p lineEnd) := by
  have framed (q : HttpParser) (same : q.streamingBody = p.streamingBody) : Pass p
      (if 0 < q.contentLength ∨ q.chunked then
        let q := { q with state := .body }
        if q.streamingBody then .ret q 2 else .next q
      else .next { q with state := .done }) := by
    split
    · dsimp only
      split
      · rename_i streaming
        exact .streamed _ ⟨same, fun _ => rfl⟩ (same.symm.trans streaming) rfl
      · exact .line reading same
    · exact .line reading same
  unfold feedEndOfHeaders
  dsimp only
  split
  · exact .failed rfl
  · rename_i q length
    refine framed q ?_
    split at length
    · split at length
      · cases length
      · cases length
        rfl
    · split at length
      · split at length
        · cases length
          rfl
        · cases length
          rfl
      · cases length
        rfl

theorem feedHeaderLine_pass (reading : readingHeaders p = true) :
    Pass p (feedHeaderLine lim p) := by
  unfold feedHeaderLine
  dsimp only
  split
  · exact .wait p
  split
  · exact .failed rfl
  split
  · exact feedEndOfHeaders_pass reading _
  split
  · exact .failed rfl
  split
  · exact .failed rfl
  split
  · exact .failed rfl
  split
  · exact .failed rfl
  · exact .line reading rfl

theorem feedCountedBody_pass (buflen : Nat) : Pass p (feedCountedBody lim buflen p) := by
  unfold feedCountedBody
  dsimp only
  split
  · exact .wait p
  generalize (if p.contentLength - p.req.body.length < buflen - p.pos
    then p.contentLength - p.req.body.length else buflen - p.pos) = consume
  split
  · exact .failed rfl
  · refine .next _ ⟨?_, fun past => ?_⟩
    · split
      · rfl
      · rfl
    · split
      · rfl
      · exact past

theorem feedChunkSize_pass : Pass p (feedChunkSize lim p) := by
  unfold feedChunkSize
  dsimp only
  split
  · exact .wait p
  split
  · exact .failed rfl
  split
  · exact .failed rfl
  split
  · exact .failed rfl
  · refine .next _ ⟨?_, fun past => ?_⟩
    · split
      · rfl
      · rfl
    · split
      · rfl
      · exact past

theorem feedChunkData_pass (buflen : Nat) : Pass p (feedChunkData buflen p) := by
  unfold feedChunkData
  dsimp only
  split
  · exact .wait p
  split
  · exact .failed rfl
  · exact .next _ ⟨rfl, id⟩

/-- Passes one after the other. -/
theorem Pass.after {flow : Flow} (advances : Advances p q) (second : Pass q flow) :
    Pass p flow := by
  cases second with
  | next r advances' => exact .next r (advances.trans advances')
  | error r advances' => exact .error r (advances.trans advances')
  | more r advances' => exact .more r (advances.trans advances')
  | streamed r advances' streaming behind =>
    exact .streamed r (advances.trans advances') (advances.streamingBody.symm.trans streaming)
      behind

theorem feedChunks_pass (buflen fuel : Nat) : Pass p (feedChunks lim buflen fuel p) := by
  induction fuel generalizing p with
  | zero => exact .next p (.refl p)
  | succ fuel ih =>
    have chunk : Pass p
        (if p.contentLength = 0 then feedChunkSize lim p else feedChunkData buflen p) := by
      split
      · exact feedChunkSize_pass
      · exact feedChunkData_pass buflen
    rw [feedChunks]
    split
    · split
      · rename_i q code flow
        rw [flow] at chunk
        exact chunk
      · rename_i q flow
        rw [flow] at chunk
        split
        · exact chunk
        · cases chunk with
          | next q advances => exact ih.after advances
    · exact .next p (.refl p)

theorem feedBody_pass (buflen : Nat) : Pass p (feedBody lim buflen p) := by
  have body : Pass p
      (if !p.chunked then feedCountedBody lim buflen p else feedChunks lim buflen buflen p) := by
    split
    · exact feedCountedBody_pass buflen
    · exact feedChunks_pass buflen buflen
  unfold feedBody
  split
  · rename_i q code flow
    rw [flow] at body
    exact body
  · rename_i q flow
    rw [flow] at body
    split
    · cases body with
      | next q advances => exact .next _ ⟨advances.streamingBody, advances.behind⟩
    · exact body

/-- One round of the loop. -/
theorem feedLoop_pass (buflen fuel : Nat)
    (running : p.state ≠ .done ∧ p.state ≠ .error ∧ p.pos < buflen) :
    ∃ flow, Pass p flow ∧ feedLoop lim buflen (fuel + 1) p = match flow with
      | .ret q code => (q, code)
      | .next q => feedLoop lim buflen fuel q := by
  rw [feedLoop, if_pos running]
  refine ⟨_, ?_, rfl⟩
  cases state : p.state with
  | requestLine => exact feedRequestLine_pass (by rw [readingHeaders, state])
  | headers => exact feedHeaderLine_pass (by rw [readingHeaders, state])
  | body => exact feedBody_pass buflen
  | done => exact feedBody_pass buflen
  | error => exact feedBody_pass buflen

/-- The codes of `http_parser_feed`: 1 says that the request is complete, and a positive one
that its headers are. -/
structure Fed (p q : HttpParser) (code : Int) : Prop where
  streamingBody : q.streamingBody = p.streamingBody
  behind : readingHeaders p = false ∨ 0 < code → readingHeaders q = false
  codes : code = -1 ∨ code = 0 ∨ (code = 1 ∧ q.state = .done) ∨
    (code = 2 ∧ p.streamingBody = true)

theorem Fed.after {r : HttpParser} {code : Int} (advances : Advances p q) (fed : Fed q r code) :
    Fed p r code where
  streamingBody := fed.streamingBody.trans advances.streamingBody
  behind := fun past => fed.behind (past.imp_left advances.behind)
  codes := by
    rw [← advances.streamingBody]
    exact fed.codes

theorem feedLoop_fed (buflen fuel : Nat) :
    Fed p (feedLoop lim buflen fuel p).1 (feedLoop lim buflen fuel p).2 := by
  induction fuel generalizing p with
  | zero => exact ⟨rfl, fun past => past.resolve_right (Int.lt_irrefl 0),
    Or.inr (Or.inl rfl)⟩
  | succ fuel ih =>
    by_cases running : p.state ≠ .done ∧ p.state ≠ .error ∧ p.pos < buflen
    · obtain ⟨flow, pass, round⟩ := @feedLoop_pass lim p buflen fuel running
      rw [round]
      cases pass with
      | next q advances => exact ih.after advances
      | error q advances =>
        refine ⟨advances.streamingBody, fun past => ?_, Or.inl rfl⟩
        exact advances.behind (past.resolve_right (by decide : ¬ (0 : Int) < -1))
      | more q advances =>
        refine ⟨advances.streamingBody, fun past => ?_, Or.inr (Or.inl rfl)⟩
        exact advances.behind (past.resolve_right (Int.lt_irrefl 0))
      | streamed q advances streaming behind =>
        exact ⟨advances.streamingBody, fun _ => behind, Or.inr (Or.inr (Or.inr ⟨rfl, streaming⟩))⟩
    · rw [feedLoop, if_neg running]
      refine ⟨rfl, ?_, ?_⟩
      · rintro (past | positive)
        · exact past
        · dsimp only at positive ⊢
          split at positive
          · rename_i done
            rw [readingHeaders, done]
          · exact absurd positive (by decide)
          · exact absurd positive (by decide)
      · dsimp only
        split
        · rename_i done
          exact Or.inr (Or.inr (Or.inl ⟨rfl, done⟩))
        · exact Or.inl rfl
        · exact Or.inr (Or.inl rfl)

theorem httpParserFeed_fed (lim : Limits) (p : HttpParser) (data : Bytes) :
    Fed p (httpParserFeed lim p data).1 (httpParserFeed lim p data).2 := by
  unfold httpParserFeed
  split
  · exact ⟨rfl, fun _ => rfl, Or.inl rfl⟩
  · rename_i buffer _
    have same : Advances p { p with buffer := buffer } := ⟨rfl, id⟩
    exact (feedLoop_fed _ _).after same

/-- A parser that has failed goes on failing. -/
theorem httpParserFeed_error {data : Bytes} (failed : p.state = .error) :
    (httpParserFeed lim p data).1.state = .error ∧ (httpParserFeed lim p data).2 = -1 := by
  unfold httpParserFeed
  split
  · exact ⟨rfl, rfl⟩
  · rw [feedLoop, if_neg (by simp [failed])]
    exact ⟨failed, by simp [failed]⟩

end ParserPasses
