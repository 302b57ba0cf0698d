import NanoProxy.JitServer

/-!
# From the proxy to the JIT backend

What `proxy_handler` writes for the requests that it sends over one connection, read by
`http_handle_client` of the backend.
-/

namespace JitRelay

open CLib StringBuffer HttpRequestParser RequestDecoder RequestGrammar AcceptedRequest
open OutboundRequest
open JitFraming JitServer

/-- The parts of the request line end at a space; names are in lower case and end at a colon. -/
structure Spelled (req : HttpRequest) : Prop where
  start : ∃ m u, req.method = some m ∧ req.uri = some u ∧ SP ∉ m ∧ SP ∉ u
  names : ∀ h ∈ req.headers, lower h.1 = h.1 ∧ COLON ∉ h.1

theorem cstr_mem {s : Bytes} {b : UInt8} (listed : b ∈ cstr s) : b ∈ s :=
  (List.takeWhile_prefix _).mem listed

theorem colon_of_tolower {b : UInt8} (same : tolower b = COLON) : b = COLON := by
  have all := forall_byte (p := fun b => tolower b != COLON || b == COLON) (by decide +kernel) b
  simpa [same] using all

theorem spelled_invariant : LineInvariant (fun _ => True) Spelled where
  start := by
    intro line req _ _ decoded
    unfold decodeRequestLine at decoded
    dsimp only at decoded
    split at decoded
    · cases decoded
      refine ⟨⟨_, _, rfl, rfl, fun space => ?_, fun space => ?_⟩, fun h listed => ?_⟩
      · exact takeWhile_missing SP _ (cstr_mem space)
      · exact takeWhile_missing SP _ (cstr_mem space)
      · exact absurd listed List.not_mem_nil
    · cases decoded
  header := by
    intro line req hs _ _ decoded spelled
    unfold decodeHeaderLine at decoded
    dsimp only at decoded
    split at decoded
    · cases decoded
      refine ⟨spelled.start, fun h listed => ?_⟩
      rcases mem_shputs listed with before | rfl
      · exact spelled.names h before
      · refine ⟨lower_lower _, fun colon => ?_⟩
        obtain ⟨b, stands, same⟩ := List.mem_map.mp colon
        cases colon_of_tolower same
        exact takeWhile_missing COLON _ (mem_trim (cstr_mem stands))
    · cases decoded
  body := fun _ spelled => ⟨spelled.start, spelled.names⟩

def connectionKey : Bytes := ascii "connection:"

/-- A match lies within one line. -/
theorem key_within {t r : Bytes} (here : lower ((t ++ CR :: r).take 11) = connectionKey) :
    lower (t.take 11) = connectionKey := by
  by_cases long : 11 ≤ t.length
  · rwa [List.take_append_of_le_length long] at here
  · have stands : CR ∈ (t ++ CR :: r).take 11 := by
      rw [List.mem_take_iff_getElem]
      refine ⟨t.length, ?_, by simp⟩
      rw [List.length_append, List.length_cons]
      omega
    have listed : CR ∈ connectionKey := by
      rw [← here]
      exact List.mem_map.mpr ⟨CR, stands, by decide⟩
    exact absurd listed (by decide)

theorem connectionLine_inside {prev : UInt8} {t : Bytes} (plain : LF ∉ t) (inside : prev ≠ LF)
    (r : Bytes) : connectionLine prev (t ++ CRLF ++ r) = connectionLine LF r := by
  induction t generalizing prev with
  | nil =>
    change connectionLine prev (CR :: LF :: r) = _
    rw [connectionLine, if_neg (fun h => inside h.2), connectionLine,
      if_neg (fun h => absurd h.2 (by decide))]
  | cons b t ih =>
    rw [List.mem_cons, not_or] at plain
    rw [List.cons_append, List.cons_append, connectionLine, if_neg (fun h => inside h.2)]
    exact ih plain.2 fun same => plain.1 same.symm

theorem connectionLine_other {line : Bytes} (plain : LF ∉ line)
    (other : lower (line.take 11) ≠ connectionKey) (r : Bytes) :
    connectionLine LF (line ++ CRLF ++ r) = connectionLine LF r := by
  cases line with
  | nil =>
    change connectionLine LF (CR :: LF :: r) = _
    have first : ¬(lower ((CR :: LF :: r).take 11) = ascii "connection:" ∧ LF = LF) := by
      rintro ⟨here, _⟩
      have head : some CR = some 99 := congrArg List.head? here
      cases head
    rw [connectionLine, if_neg first, connectionLine, if_neg (fun h => absurd h.2 (by decide))]
  | cons b t =>
    rw [List.mem_cons, not_or] at plain
    have missing : ¬(lower ((b :: (t ++ CRLF ++ r)).take 11) = ascii "connection:" ∧ LF = LF) := by
      rintro ⟨here, _⟩
      have whole : b :: (t ++ CRLF ++ r) = (b :: t) ++ CR :: (LF :: r) := by simp [CRLF]
      rw [whole] at here
      exact other (key_within here)
    rw [List.cons_append, List.cons_append, connectionLine, if_neg missing]
    exact connectionLine_inside plain.2 (fun same => plain.1 same.symm) r

theorem connectionLine_lines {lines : List Bytes}
    (others : ∀ line ∈ lines, LF ∉ line ∧ lower (line.take 11) ≠ connectionKey) (r : Bytes) :
    connectionLine LF (lines.flatMap (· ++ CRLF) ++ r) = connectionLine LF r := by
  induction lines with
  | nil => rfl
  | cons line lines ih =>
    obtain ⟨plain, other⟩ := others line List.mem_cons_self
    rw [List.flatMap_cons, List.append_assoc, connectionLine_other plain other,
      ih fun l listed => others l (List.mem_cons_of_mem _ listed)]

theorem before_colon {a t : Bytes} (plain : COLON ∉ a) :
    (a ++ COLON :: t).takeWhile (· != COLON) = a := by
  refine takeWhile_stops (fun b listed => bne_iff_ne.mpr fun same => plain (same ▸ listed)) ?_
  intro b head
  cases head
  rfl

/-- A name in front of a colon is the whole key. -/
theorem name_of_key {name t : Bytes} (plain : COLON ∉ name)
    (here : lower ((name ++ COLON :: t).take 11) = connectionKey) :
    lower name = ascii "connection" := by
  have no_colon : COLON ∉ lower name := by
    intro colon
    obtain ⟨b, stands, same⟩ := List.mem_map.mp colon
    exact plain (colon_of_tolower same ▸ stands)
  have short : name.length < 11 := by
    by_contra long
    rw [List.take_append_of_le_length (by omega)] at here
    have colon : COLON ∈ connectionKey := by decide
    rw [← here, lower, List.map_take] at colon
    exact no_colon (List.mem_of_mem_take colon)
  obtain ⟨k, length⟩ : ∃ k, 11 - name.length = k + 1 := ⟨10 - name.length, by omega⟩
  rw [List.take_append, List.take_of_length_le (by omega), length, List.take_succ_cons, lower,
    List.map_append] at here
  have whole := congrArg (fun l => l.takeWhile (· != COLON)) here
  exact (before_colon no_colon).symm.trans whole

/-- A method in front of a space is no key, unless it starts with one. -/
theorem method_no_key {method t : Bytes} (other : lower (method.take 11) ≠ connectionKey) :
    lower ((method ++ SP :: t).take 11) ≠ connectionKey := by
  intro here
  by_cases long : 11 ≤ method.length
  · rw [List.take_append_of_le_length long] at here
    exact other here
  · have stands : SP ∈ (method ++ SP :: t).take 11 := by
      rw [List.mem_take_iff_getElem]
      refine ⟨method.length, ?_, by simp⟩
      rw [List.length_append, List.length_cons]
      omega
    have listed : SP ∈ connectionKey := by
      rw [← here]
      exact List.mem_map.mpr ⟨SP, stands, by decide⟩
    exact absurd listed (by decide)

section Outbound

variable {req : HttpRequest} (bd : Bounded req) (spelled : Spelled req) (up : Upstream)
  (cd : Client) (hbody : req.body.length < STRINGBUF_MAX_CAP)
  (method : lower ((formatString req.method).take 11) ≠ connectionKey)

/-- The lines in front of the proxy's own `Connection` header. -/
def linesBefore (req : HttpRequest) (up : Upstream) : List Bytes :=
  requestLineText (formatString req.method) (formatString req.uri) (ascii "HTTP/1.1") ::
    (passedOn req ++ [(ascii "Host", up.host ++ ascii ":" ++ decimal up.port)]).map
      fun h => headerLineText h.1 h.2

include spelled method in
theorem linesBefore_other : ∀ line ∈ linesBefore req up, lower (line.take 11) ≠ connectionKey := by
  intro line listed
  rcases List.mem_cons.mp listed with rfl | listed
  · exact method_no_key method
  obtain ⟨h, header, rfl⟩ := List.mem_map.mp listed
  rcases List.mem_append.mp header with passed | host
  · obtain ⟨stored, kept⟩ := List.mem_filter.mp passed
    obtain ⟨lowered, plain⟩ := spelled.names h stored
    intro here
    have name := name_of_key plain here
    rw [lowered] at name
    rw [name] at kept
    exact absurd kept (by decide)
  · cases List.mem_singleton.mp host
    intro here
    have first : some (104 : UInt8) = some 99 := congrArg List.head? here
    cases first

include bd spelled hbody method in
theorem connectionLine_outbound :
    connectionLine LF (outboundHeadText req up cd) =
      connectionLine LF (headerLineText (ascii "Connection") (connectionValue req up) ++ CRLF ++
        (((identity req cd ++ [(ascii "X-Forwarded-Proto",
          ascii (if cd.tls then "https" else "http"))]).map (fun h => headerLineText h.1 h.2) ++
            framingLines req.body).flatMap (· ++ CRLF) ++ CRLF)) := by
  have parts : forwardedLines req up cd ++ framingLines req.body = linesBefore req up ++
      (headerLineText (ascii "Connection") (connectionValue req up) ::
        ((identity req cd ++ [(ascii "X-Forwarded-Proto",
          ascii (if cd.tls then "https" else "http"))]).map (fun h => headerLineText h.1 h.2) ++
            framingLines req.body)) := by
    simp [forwardedLines, linesBefore]
  have plain := forwarded_oneLine bd up cd hbody
  rw [outboundHeadText_lines, parts, List.flatMap_append, List.append_assoc, connectionLine_lines,
    List.flatMap_cons, List.append_assoc]
  intro line listed
  refine ⟨(plain line ?_).2, linesBefore_other spelled up method line listed⟩
  rw [parts]
  exact List.mem_append_left _ listed

include bd spelled hbody method in
/-- The proxy's word on the connection is what the backend goes by. -/
theorem wantsClose_outbound (persists : connectionValue req up = ascii "keep-alive") :
    wantsClose (outboundHeadText req up cd) = false := by
  have line : connectionLine LF (outboundHeadText req up cd) = some (ascii "keep-alive") := by
    rw [connectionLine_outbound bd spelled up cd hbody method, persists]
    rfl
  have keeps : connectionHas (outboundHeadText req up cd) (ascii "keep-alive") = true := by
    rw [connectionHas, line]
    decide
  have open_ : connectionHas (outboundHeadText req up cd) (ascii "close") = false := by
    rw [connectionHas, line]
    decide
  rw [wantsClose, keeps, open_]
  split
  · rfl
  · rfl

end Outbound

/-- A request that `proxy_handler` sends over a connection it keeps. The backend's search for the
length must find the proxy's, and its buffer hold the request. -/
structure Forwarded where
  fd : Nat
  parser : HttpParser
  client : AcceptedReads fd parser
  up : Upstream
  cd : Client
  method : lower ((formatString parser.req.method).take 11) ≠ connectionKey
  agrees : Agrees (forwardedLines parser.req up cd) parser.req.body.length
  persists : connectionValue parser.req up = ascii "keep-alive"
  fits : (outboundText parser.req up cd).length < httpBufMax

theorem requestOf_eq {method target later : Bytes} (no_space : SP ∉ method)
    (no_space' : SP ∉ target) (body : Bytes) :
    requestOf (method ++ SP :: (target ++ SP :: later)) body =
      { method := method
        path := pathOf target
        query := queryOf target
        body := cstr body
        rawHead := masked method target later
        rawBody := body
        contentLen := body.length } := by
  have before {a t : Bytes} (plain : SP ∉ a) : (a ++ SP :: t).takeWhile (· != SP) = a := by
    refine takeWhile_stops (fun b listed => bne_iff_ne.mpr fun same => plain (same ▸ listed)) ?_
    intro b head
    cases head
    rfl
  have behind (a t : Bytes) : (a ++ SP :: t).drop (a.length + 1) = t := by
    rw [List.drop_length_add_append, List.drop_succ_cons, List.drop_zero]
  rw [requestOf, before no_space, behind, before no_space', behind]

namespace Forwarded

variable (f : Forwarded)

/-- The bytes on the wire. -/
def sent : Bytes := (outboundRequest f.parser f.up f.cd).data

def head : Bytes := outboundHeadText f.parser.req f.up f.cd

/-- What the handler of the backend is given. -/
def request : Request :=
  let method := formatString f.parser.req.method
  let target := formatString f.parser.req.uri
  { method := method
    path := pathOf target
    query := queryOf target
    body := cstr f.parser.req.body
    rawHead := masked method target
      (ascii "HTTP/1.1" ++ CRLF ++ headerLines (outboundHeaders f.parser.req f.up f.cd) ++ CRLF)
    rawBody := f.parser.req.body
    contentLen := f.parser.req.body.length }

theorem sent_text : f.sent = outboundText f.parser.req f.up f.cd := by
  have undone : f.parser.state ≠ .body := by
    rw [f.client.state_done]
    decide
  have limit : httpBufMax < STRINGBUF_MAX_CAP := by decide
  exact outboundRequest_data f.client.request_bounded undone f.up f.cd
    (Nat.lt_trans f.fits limit)

theorem sent_eq : f.sent = f.head ++ f.parser.req.body := f.sent_text

theorem length_eq : contentLengthOf f.head = f.parser.req.body.length :=
  (contentLengthOf_head_iff f.up f.cd f.client.body_length).mpr f.agrees

theorem header_eq (rest : Bytes) : header (f.sent ++ rest) =
    some (f.head.length, (f.parser.req.body.length : Int)) := by
  rw [sent_eq, List.append_assoc]
  refine header_some.mpr ⟨headerEnd_outbound f.client.request_bounded f.up f.cd
    f.client.body_length _, ?_⟩
  rw [List.take_left]
  exact f.length_eq

theorem spelled : Spelled f.parser.req :=
  f.client.preserves spelled_invariant fun _ _ => trivial

theorem head_eq : f.head = formatString f.parser.req.method ++ SP ::
    (formatString f.parser.req.uri ++ SP :: (ascii "HTTP/1.1" ++ CRLF ++
      headerLines (outboundHeaders f.parser.req f.up f.cd) ++ CRLF)) := by
  simp [head, outboundHeadText, RequestGrammar.head, requestLineText]

theorem requestOf_head : requestOf f.head f.parser.req.body = f.request := by
  obtain ⟨m, u, method, uri, no_space, no_space'⟩ := f.spelled.start
  rw [head_eq, requestOf_eq]
  · rfl
  · rwa [method]
  · rwa [uri]

theorem orderly : Orderly f.head where
  spaces := by
    rw [head_eq, List.count_append, List.count_cons_self, List.count_append, List.count_cons_self]
    omega
  length := by
    rw [length_eq]
    exact Int.natCast_nonneg _
  fits := by
    have whole := f.fits
    have limit : httpBufMax < 2 ^ 63 := by decide
    rw [← sent_text, sent_eq, List.length_append] at whole
    rw [length_eq]
    omega

theorem firstRequest_eq (rest : Bytes) : firstRequest (f.sent ++ rest) =
    some (f.head.length, (f.parser.req.body.length : Int)) := by
  have whole := f.fits
  rw [← sent_text, sent_eq, List.length_append] at whole
  refine firstRequest_some.mpr ⟨f.header_eq rest, ?_, by omega⟩
  rw [sent_eq, List.length_append, List.length_append]
  omega

theorem persistent : wantsClose f.head = false :=
  wantsClose_outbound f.client.request_bounded f.spelled f.up f.cd f.client.body_length f.method
    f.persists

end Forwarded

/-- What the backend does with requests that it can tell apart. -/
def exchanges {σ ρ : Type} (app : App σ ρ) : Nat → σ → List Request → Log
  | 0, _, _ => ⟨[], []⟩
  | _ + 1, _, [] => ⟨[], []⟩
  | left + 1, s, req :: reqs =>
    match app.handle s req with
    | (_, none) => ⟨[req], []⟩
    | (s, some res) =>
      let log := exchanges app left s reqs
      ⟨req :: log.calls, cstr (app.wire res (left != 0)) ++ log.sent⟩

theorem orderly_forwarded (left : Nat) (fs : List Forwarded) :
    AllOrderly left (fs.flatMap Forwarded.sent) := by
  induction left generalizing fs with
  | zero => trivial
  | succ left ih =>
    cases fs with
    | nil => exact allOrderly_end _ rfl
    | cons f fs =>
      intro e n found
      rw [List.flatMap_cons, f.header_eq] at found
      cases found
      rw [List.flatMap_cons, Int.toNat_natCast, f.sent_eq, List.append_assoc, List.take_left]
      refine ⟨f.orderly, ?_⟩
      rw [List.drop_length_add_append, List.drop_left]
      exact ih fs

variable {σ ρ : Type}

theorem replies_forwarded (app : App σ ρ) (left : Nat) (s : σ) (fs : List Forwarded) :
    replies app left s (fs.flatMap Forwarded.sent) =
      exchanges app left s (fs.map Forwarded.request) := by
  induction left generalizing s fs with
  | zero => rfl
  | succ left ih =>
    cases fs with
    | nil => rfl
    | cons f fs =>
      rw [replies, List.flatMap_cons, f.firstRequest_eq, f.sent_eq, List.append_assoc]
      dsimp only
      rw [Int.toNat_natCast, List.take_left, List.drop_left, List.take_left, f.requestOf_head,
        f.persistent, List.drop_length_add_append, List.drop_left, List.map_cons, exchanges,
        Bool.false_or]
      cases app.handle s f.request with
      | mk s' answer =>
        cases answer with
        | none => rfl
        | some res =>
          dsimp only
          rw [ih s' fs]
          cases left with
          | zero => simp [exchanges]
          | succ left => rfl

/-- However the bytes of the connection are split into reads, the backend's handler is called
with the requests that the proxy sends, one after the other, each with its own method, path,
query and body, until one is not answered or the connection has served its number. -/
theorem forwarded_served (app : App σ ρ) (s : σ) (fs : List Forwarded) {chunks : List Bytes}
    (outs : List Nat) (delivering : Delivering chunks)
    (stream : chunks.flatten = fs.flatMap Forwarded.sent) :
    Answers (httpHandleClient app s chunks outs)
      (exchanges app maxReq s (fs.map Forwarded.request)) outs := by
  have orderly : AllOrderly maxReq chunks.flatten := by
    rw [stream]
    exact orderly_forwarded maxReq fs
  have served : Answers (httpHandleClient app s chunks outs)
      (replies app maxReq s chunks.flatten) outs :=
    serve_replies maxReq s outs ⟨by decide, by decide⟩ delivering orderly
  rwa [stream, replies_forwarded] at served

theorem sample_method :
    lower ((formatString sampleParser.req.method).take 11) ≠ connectionKey := by decide +kernel

theorem sample_agrees :
    Agrees (forwardedLines sampleParser.req sampleUpstream sampleClient)
      sampleParser.req.body.length :=
  (agrees_iff _ _).mpr (by decide +kernel)

theorem sample_persists :
    connectionValue sampleParser.req sampleUpstream = ascii "keep-alive" := by decide +kernel

theorem sample_fits :
    (outboundText sampleParser.req sampleUpstream sampleClient).length < httpBufMax := by
  decide +kernel

def sampleForwarded : Forwarded where
  fd := 4
  parser := sampleParser
  client := sampleAccepted
  up := sampleUpstream
  cd := sampleClient
  method := sample_method
  agrees := sample_agrees
  persists := sample_persists
  fits := sample_fits

theorem forwarded_served_sample :
    Answers (httpHandleClient counter 0 [sampleForwarded.sent ++ sampleForwarded.sent] [3])
      (exchanges counter maxReq 0 [sampleForwarded.request, sampleForwarded.request]) [3] :=
  forwarded_served counter 0 [sampleForwarded, sampleForwarded] [3]
    (by unfold Delivering; decide +kernel) (by simp)

end JitRelay
