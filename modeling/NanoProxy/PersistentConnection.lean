import NanoProxy.RequestCodec

/-!
# Persistent connections (include/socket_server.h `my_on_read`, include/request.h)

One HTTP connection whose handler answers at once; handlers that go on later are in
`StaticDescriptors` and `EventLoop`. Each dispatch is logged with the place of the
request in the client's stream: the number of bytes that had been read when the parser
was last reset.
-/

namespace PersistentConnection

open CLib StringBuffer HttpRequestParser RequestDecoder RequestCodec
open Incremental ParserRefinement Segmentation

/-- How a handler that completes immediately has answered: in one write (`http_ok`,
`http_error`), or by a static response that `resume_send` (or the HEAD path) finished. -/
inductive Answer where
  | written
  | sent

structure Conn where
  parser : HttpParser
  alive : Bool
  received : Nat
  start : Nat
  dispatched : List (Nat × HttpRequest)

def connAdd (fd : Nat) : Conn := ⟨httpParserInit fd, true, 0, 0, []⟩

def connDel (c : Conn) : Conn := { c with alive := false }

/-- `http_parser_reset`; what the parser has not read is freed with its buffer. -/
def resetParser (c : Conn) : Conn :=
  { c with parser := httpParserReset c.parser, start := c.received }

/-- The end of `resume_send`, and of a HEAD response. -/
def finishSend (c : Conn) : Conn :=
  if httpShouldKeepAlive c.parser.req then resetParser c else connDel c

def httpDispatcher (answer : HttpRequest → Answer) (c : Conn) : Conn :=
  let req := c.parser.req
  let keepAlive := httpShouldKeepAlive req
  let c := { c with dispatched := c.dispatched ++ [(c.start, req)] }
  let c := match answer req with
    | .written => c
    | .sent => finishSend c
  if keepAlive then resetParser c else connDel c

def onRead (answer : HttpRequest → Answer) (c : Conn) (data : Bytes) : Conn :=
  if !c.alive then c else
  let (parser, res) := httpParserFeed .default c.parser data
  let c := { c with parser := parser, received := c.received + data.length }
  if res < 0 then connDel c
  else if res = 0 then c
  else httpDispatcher answer c

def onReads (answer : HttpRequest → Answer) (c : Conn) (reads : List Bytes) : Conn :=
  reads.foldl (onRead answer) c

/-- A well-formed HTTP/1.1 request that keeps the connection open. -/
structure KeepAliveRequest extends Request where
  http11 : version = ascii "HTTP/1.1"
  keep : httpShouldKeepAlive toRequest.parsed = true
  short : toRequest.wire.length < STRINGBUF_MAX_CAP

def stream (rs : List KeepAliveRequest) : Bytes := rs.flatMap fun r => r.wire

/-- The requests of a stream with the places where they start. -/
def sentFrom (k : Nat) : List KeepAliveRequest → List (Nat × HttpRequest)
  | [] => []
  | r :: rs => (k, r.parsed) :: sentFrom (k + r.wire.length) rs

/-- For every request but the last, the read that completes it ends where the request
ends. -/
def Aligned : List KeepAliveRequest → List Bytes → Prop
  | r :: r' :: rs, reads => ∃ pre last post, reads = pre ++ last :: post ∧
      pre.flatten.length < r.message.length ∧
      pre.flatten.length + last.length = r.wire.length ∧ Aligned (r' :: rs) post
  | _, _ => True

section Steps

variable {answer : HttpRequest → Answer} {c : Conn}

theorem onReads_append (c : Conn) (a b : List Bytes) :
    onReads answer c (a ++ b) = onReads answer (onReads answer c a) b := List.foldl_append

theorem onReads_dead (h : c.alive = false) (reads : List Bytes) : onReads answer c reads = c := by
  induction reads with
  | nil => rfl
  | cons data reads ih =>
    have hstep : onRead answer c data = c := by simp [onRead, h]
    change onReads answer (onRead answer c data) reads = c
    rw [hstep, ih]

/-- Reads that do not complete a request change the parser only. -/
theorem onReads_waiting {q : HttpParser} (halive : c.alive = true) (reads : List Bytes)
    (h : feedReads .default c.parser reads = (q, 0)) :
    onReads answer c reads =
      { c with parser := q, received := c.received + reads.flatten.length } := by
  induction reads generalizing c with
  | nil =>
    cases h
    rfl
  | cons data reads ih =>
    by_cases h0 : (httpParserFeed .default c.parser data).2 = 0
    · obtain ⟨p, hp⟩ : ∃ p, httpParserFeed .default c.parser data = (p, 0) := ⟨_, by rw [← h0]⟩
      have hstep : onRead answer c data =
          { c with parser := p, received := c.received + data.length } := by
        simp [onRead, halive, hp]
      rw [feedReads_cons_zero hp] at h
      change onReads answer (onRead answer c data) reads = _
      rw [hstep, ih (by exact halive) h]
      simp [Nat.add_assoc]
    · rw [feedReads_cons_stop h0] at h
      rw [h] at h0
      exact absurd rfl h0

variable (answer) in
theorem onRead_error {p : HttpParser} {data : Bytes} {code : Int} (halive : c.alive = true)
    (h : httpParserFeed .default c.parser data = (p, code)) (hcode : code < 0) :
    (onRead answer c data).alive = false ∧
      (onRead answer c data).dispatched = c.dispatched := by
  simp [onRead, halive, h, hcode, connDel]

/-- Reads that end in an error dispatch nothing. -/
theorem onReads_failing {q : HttpParser} {code : Int} (halive : c.alive = true)
    (reads : List Bytes) (h : feedReads .default c.parser reads = (q, code)) (hcode : code < 0) :
    (onReads answer c reads).dispatched = c.dispatched := by
  induction reads generalizing c with
  | nil =>
    cases h
    exact absurd hcode (by decide)
  | cons data reads ih =>
    change (onReads answer (onRead answer c data) reads).dispatched = _
    by_cases h0 : (httpParserFeed .default c.parser data).2 = 0
    · obtain ⟨p, hp⟩ : ∃ p, httpParserFeed .default c.parser data = (p, 0) := ⟨_, by rw [← h0]⟩
      have hstep : onRead answer c data =
          { c with parser := p, received := c.received + data.length } := by
        simp [onRead, halive, hp]
      rw [feedReads_cons_zero hp] at h
      rw [hstep]
      exact ih (by exact halive) h
    · rw [feedReads_cons_stop h0] at h
      obtain ⟨hdead, hlog⟩ := onRead_error answer halive h hcode
      rw [onReads_dead hdead, hlog]

theorem onRead_dispatch {p : HttpParser} {data : Bytes} (halive : c.alive = true)
    (h : httpParserFeed .default c.parser data = (p, 1)) (keep : httpShouldKeepAlive p.req = true) :
    onRead answer c data =
      { parser := httpParserInit p.fd, alive := true, received := c.received + data.length,
        start := c.received + data.length,
        dispatched := c.dispatched ++ [(c.start, p.req)] } := by
  simp only [onRead, halive, h, httpDispatcher, keep]
  cases answer p.req with
  | written => simp [resetParser, httpParserReset]
  | sent => simp [finishSend, keep, resetParser, httpParserReset, httpParserInit]

variable (answer) in
/-- A read logs nothing, or the request that started where the parser was reset. -/
theorem onRead_log (c : Conn) (data : Bytes) :
    ((onRead answer c data).dispatched = c.dispatched ∧ (onRead answer c data).start = c.start) ∨
      ∃ req, (onRead answer c data).dispatched = c.dispatched ++ [(c.start, req)] := by
  unfold onRead
  by_cases halive : c.alive = true
  · simp only [halive, Bool.not_true, Bool.false_eq_true, if_false]
    split
    · exact Or.inl ⟨rfl, rfl⟩
    split
    · exact Or.inl ⟨rfl, rfl⟩
    · refine Or.inr ⟨(httpParserFeed .default c.parser data).1.req, ?_⟩
      simp only [httpDispatcher, finishSend, resetParser, connDel]
      split <;> split <;> rfl
  · simp [halive]

variable (answer) in
theorem onReads_log (reads : List Bytes) (c : Conn) :
    ∃ new, (onReads answer c reads).dispatched = c.dispatched ++ new ∧
      ∀ e, new.head? = some e → e.1 = c.start := by
  induction reads generalizing c with
  | nil => exact ⟨[], by simp [onReads], by simp⟩
  | cons data reads ih =>
    obtain ⟨new, hnew, hhead⟩ := ih (onRead answer c data)
    change ∃ new, (onReads answer (onRead answer c data) reads).dispatched = _ ∧ _
    rcases onRead_log answer c data with ⟨hlog, hstart⟩ | ⟨req, hlog⟩
    · exact ⟨new, by rw [hnew, hlog], fun e he => by rw [hhead e he, hstart]⟩
    · refine ⟨(c.start, req) :: new, by rw [hnew, hlog]; simp, ?_⟩
      intro e he
      rw [List.head?_cons, Option.some.injEq] at he
      rw [← he]

end Steps

/-- Ready for the next request. -/
structure Fresh (fd : Nat) (c : Conn) : Prop where
  parser : c.parser = httpParserInit fd
  alive : c.alive = true
  start : c.start = c.received

theorem connAdd_fresh (fd : Nat) : Fresh fd (connAdd fd) := ⟨rfl, rfl, rfl⟩

/-- Reads as the kernel returns them. -/
structure Reads (reads : List Bytes) : Prop where
  nonempty : ∀ r ∈ reads, r ≠ []
  bounded : ∀ r ∈ reads, r.length ≤ MAX_MSG_SIZE

def Reads.cut {reads : List Bytes} (h : Reads reads) : Cut reads.flatten :=
  Cut.ofReads h.nonempty h.bounded

theorem Reads.left {a b : List Bytes} (h : Reads (a ++ b)) : Reads a :=
  ⟨fun r hr => h.nonempty r (List.mem_append_left b hr),
    fun r hr => h.bounded r (List.mem_append_left b hr)⟩

theorem Reads.right {a b : List Bytes} (h : Reads (a ++ b)) : Reads b :=
  ⟨fun r hr => h.nonempty r (List.mem_append_right a hr),
    fun r hr => h.bounded r (List.mem_append_right a hr)⟩

section Requests

variable {answer : HttpRequest → Answer} {fd : Nat} {c : Conn} {pre : List Bytes} {last : Bytes}

variable (answer) in
/-- The reads up to the completing one dispatch the request and drop what else they hold. -/
theorem serve_request (hf : Fresh fd c) (r : KeepAliveRequest) {tail rest : Bytes}
    (hreads : Reads (pre ++ [last]))
    (hjoin : (pre ++ [last]).flatten ++ tail = r.message ++ rest)
    (hpre : pre.flatten.length < r.message.length)
    (hlast : r.message.length ≤ (pre ++ [last]).flatten.length)
    (room : (pre ++ [last]).flatten.length < STRINGBUF_MAX_CAP) :
    Fresh fd (onReads answer c (pre ++ [last])) ∧
      (onReads answer c (pre ++ [last])).received =
        c.received + (pre ++ [last]).flatten.length ∧
      (onReads answer c (pre ++ [last])).dispatched =
        c.dispatched ++ [(c.received, r.parsed)] := by
  obtain ⟨e, x, he, hene, hx⟩ := split_message hjoin hpre hlast
  obtain ⟨t, l, hfront⟩ := feed_before fd r.short hreads.left.cut he hene
  obtain ⟨hone, -, hreq, -, hfd⟩ := feed_reaching fd r.short hreads.cut room hx
  obtain ⟨p, hp⟩ : ∃ p, feedReads .default (httpParserInit fd) pre = (p, 0) :=
    ⟨_, Prod.ext rfl hfront.1⟩
  obtain ⟨q, hq⟩ : ∃ q, feedReads .default (httpParserInit fd) (pre ++ [last]) = (q, 1) :=
    ⟨_, Prod.ext rfl hone⟩
  change (feedReads .default (httpParserInit fd) (pre ++ [last])).1.req = r.parsed at hreq
  change (feedReads .default (httpParserInit fd) (pre ++ [last])).1.fd = fd at hfd
  rw [hq] at hreq hfd
  rw [feedReads_append_zero hp, feedReads_single] at hq
  rw [onReads_append, onReads_waiting hf.alive pre (by rw [hf.parser]; exact hp)]
  change Fresh fd (onRead answer _ last) ∧ (onRead answer _ last).received = _ ∧
    (onRead answer _ last).dispatched = _
  rw [onRead_dispatch (by exact hf.alive) hq (by rw [hreq]; exact r.keep), hfd, hreq]
  refine ⟨⟨rfl, rfl, rfl⟩, ?_, ?_⟩
  · simp [Nat.add_assoc]
  · rw [hf.start]

variable (answer) in
/-- A read that would overfill the buffer ends the connection. -/
theorem serve_overfull (hf : Fresh fd c) (r : KeepAliveRequest) {tail rest : Bytes}
    {post : List Bytes} (hreads : Reads (pre ++ [last]))
    (hjoin : (pre ++ [last]).flatten ++ tail = r.message ++ rest)
    (hpre : pre.flatten.length < r.message.length)
    (hlast : r.message.length ≤ (pre ++ [last]).flatten.length)
    (full : STRINGBUF_MAX_CAP ≤ (pre ++ [last]).flatten.length) :
    (onReads answer c (pre ++ last :: post)).dispatched = c.dispatched := by
  obtain ⟨e, x, he, hene, -⟩ := split_message hjoin hpre hlast
  obtain ⟨t, l, hzero, -, hdata, hdbl, -⟩ := feed_before fd r.short hreads.left.cut he hene
  obtain ⟨p, hp⟩ : ∃ p, feedReads .default (httpParserInit fd) pre = (p, 0) :=
    ⟨_, Prod.ext rfl hzero⟩
  change (feedReads .default (httpParserInit fd) pre).1.buffer.data = _ at hdata
  change Doubling (feedReads .default (httpParserInit fd) pre).1.buffer at hdbl
  rw [hp] at hdata hdbl
  have hfull : httpParserFeed .default p last = ({ p with state := .error }, -1) := by
    rw [httpParserFeed, stringbufAppend_none _ hdbl.capacity_le]
    change STRINGBUF_MAX_CAP ≤ p.buffer.data.length + last.length
    rw [hdata]
    simpa using full
  have hfail : feedReads .default (httpParserInit fd) (pre ++ [last]) =
      ({ p with state := .error }, -1) := by
    rw [feedReads_append_zero hp, feedReads_single, hfull]
  rw [← List.singleton_append, ← List.append_assoc, onReads_append]
  have hdead : (onReads answer c (pre ++ [last])).alive = false ∧
      (onReads answer c (pre ++ [last])).dispatched = c.dispatched := by
    rw [onReads_append, onReads_waiting hf.alive pre (by rw [hf.parser]; exact hp)]
    exact onRead_error answer
      (c := { c with parser := p, received := c.received + pre.flatten.length })
      hf.alive hfull (by decide)
  rw [onReads_dead hdead.1, hdead.2]

variable (answer) in
/-- What may be left of a chunked request behind its completing read is no request. -/
theorem serve_trailer (hf : Fresh fd c) {post : List Bytes} (hreads : Reads post)
    (h : post.flatten = [] ∨ post.flatten = [LF] ∨ post.flatten = CRLF) :
    (onReads answer c post).dispatched = c.dispatched := by
  have hfailed : ∀ x : Bytes, x.length < STRINGBUF_MAX_CAP →
      (decoder .default).run .start x = .failed → post.flatten = x →
      (onReads answer c post).dispatched = c.dispatched := by
    intro x hx hrun hpost
    have hmatch := feedReads_cut default_sane fd (by rw [hpost]; exact hx) hreads.cut
    rw [show (decoder .default).run .start post.flatten = .failed by rw [hpost]; exact hrun]
      at hmatch
    have hfeed : feedReads .default c.parser post =
        ((feedReads .default (httpParserInit fd) post).1, -1) := by
      rw [hf.parser]
      exact Prod.ext rfl hmatch
    exact onReads_failing hf.alive post hfeed (by decide)
  rcases h with hnil | hlf | hcrlf
  · have hempty : post = [] := by
      cases post with
      | nil => rfl
      | cons r post =>
        rw [List.flatten_cons, List.append_eq_nil_iff] at hnil
        exact absurd hnil.1 (hreads.nonempty r List.mem_cons_self)
    rw [hempty]
    rfl
  · exact hfailed [LF] (by decide) (Decoder.run_fail rfl) hlf
  · exact hfailed CRLF (by decide) (Decoder.run_fail rfl) hcrlf

theorem trailer_tail {f : Framing} {x y : Bytes} (h : x ++ y = f.trailer) :
    y = [] ∨ y = [LF] ∨ y = CRLF := by
  cases f with
  | none => exact Or.inl (List.append_eq_nil_iff.mp h).2
  | counted body => exact Or.inl (List.append_eq_nil_iff.mp h).2
  | chunked chunks last =>
    change x ++ y = [CR, LF] at h
    rcases x with _ | ⟨a, _ | ⟨b, x⟩⟩
    · exact Or.inr (Or.inr h)
    · exact Or.inr (Or.inl (List.cons.inj h).2)
    · have hrest := (List.cons.inj (List.cons.inj h).2).2
      exact Or.inl (List.append_eq_nil_iff.mp hrest).2

variable (answer) in
/-- The dispatches are the requests that were sent, each taken up at its own place in the
stream, exactly when the reads are aligned. -/
theorem serve_iff (rs : List KeepAliveRequest) :
    ∀ {c : Conn} {reads : List Bytes}, Fresh fd c → Reads reads → reads.flatten = stream rs →
      ((onReads answer c reads).dispatched = c.dispatched ++ sentFrom c.received rs ↔
        Aligned rs reads) := by
  induction rs with
  | nil =>
    intro c reads hf hreads hjoin
    have hlog := serve_trailer answer hf hreads (Or.inl hjoin)
    rw [hlog]
    simp [sentFrom, Aligned]
  | cons r rs ih =>
    intro c reads hf hreads hjoin
    have hstream : stream (r :: rs) = r.message ++ (r.framing.trailer ++ stream rs) := by
      simp [stream, Request.wire]
    have hwire : r.wire.length = r.message.length + r.framing.trailer.length := by
      rw [Request.wire, List.length_append]
    obtain ⟨pre, last, post, hsplit, hpre, hlast⟩ := exists_reaching_read reads r.message_pos
      (by rw [hjoin, hstream, List.length_append]; omega)
    have hsplit' : reads = (pre ++ [last]) ++ post := by simp [hsplit]
    have hr : Reads (pre ++ [last]) := (hsplit' ▸ hreads).left
    have hrpost : Reads post := (hsplit' ▸ hreads).right
    have hlen : (pre ++ [last]).flatten.length = pre.flatten.length + last.length := by simp
    have hjoin' : (pre ++ [last]).flatten ++ post.flatten =
        r.message ++ (r.framing.trailer ++ stream rs) := by
      rw [← hstream, ← hjoin, hsplit', ← List.flatten_append]
    cases rs with
    | nil =>
      -- the last request: nothing behind it can be dispatched
      refine ⟨fun _ => trivial, fun _ => ?_⟩
      have hroom : (pre ++ [last]).flatten.length < STRINGBUF_MAX_CAP := by
        have htotal := congrArg List.length hjoin'
        have hshort := r.short
        simp only [List.length_append, stream, List.flatMap_nil, List.length_nil] at htotal
        rw [hlen]
        omega
      obtain ⟨hfresh, -, hlog⟩ := serve_request answer hf r hr hjoin' hpre
        (by rw [hlen]; exact hlast) hroom
      obtain ⟨-, x, -, -, hx⟩ := split_message hjoin' hpre (by rw [hlen]; exact hlast)
      have htail : x ++ post.flatten = r.framing.trailer := by
        rw [hx, List.append_assoc] at hjoin'
        simpa [stream] using List.append_cancel_left hjoin'
      rw [hsplit', onReads_append, serve_trailer answer hfresh hrpost (trailer_tail htail), hlog]
      rfl
    | cons r' rs =>
      constructor
      · intro heq
        have hroom : (pre ++ [last]).flatten.length < STRINGBUF_MAX_CAP := by
          by_contra hfull
          rw [hsplit, serve_overfull answer hf r hr hjoin' hpre
            (by rw [hlen]; exact hlast) (by omega)] at heq
          have := congrArg List.length heq
          simp [sentFrom] at this
        obtain ⟨hfresh, hrecv, hlog⟩ := serve_request answer hf r hr hjoin' hpre
          (by rw [hlen]; exact hlast) hroom
        obtain ⟨new, hnew, hhead⟩ := onReads_log answer post
          (onReads answer c (pre ++ [last]))
        rw [hsplit', onReads_append] at heq
        have hnewEq : new = sentFrom (c.received + r.wire.length) (r' :: rs) := by
          rw [hnew, hlog, List.append_assoc] at heq
          simpa [sentFrom] using List.append_cancel_left heq
        have hlabel := hhead (c.received + r.wire.length, r'.parsed) (by rw [hnewEq]; rfl)
        rw [hfresh.start, hrecv] at hlabel
        have hend : (pre ++ [last]).flatten.length = r.wire.length := by
          dsimp only at hlabel
          omega
        have hpost : post.flatten = stream (r' :: rs) := by
          have h1 : (pre ++ [last]).flatten ++ post.flatten = r.wire ++ stream (r' :: rs) := by
            rw [hjoin', Request.wire, List.append_assoc]
          exact (List.append_inj h1 hend).2
        refine ⟨pre, last, post, hsplit, hpre, by rw [← hlen]; exact hend, ?_⟩
        rw [← ih hfresh hrpost hpost, hnew, hnewEq, hrecv, hend]
      · rintro ⟨pre, last, post, hsplit, hpre, hend, haligned⟩
        have hsplit' : reads = (pre ++ [last]) ++ post := by simp [hsplit]
        have hr : Reads (pre ++ [last]) := (hsplit' ▸ hreads).left
        have hrpost : Reads post := (hsplit' ▸ hreads).right
        have hlen : (pre ++ [last]).flatten.length = r.wire.length := by simpa using hend
        have hjoin' : (pre ++ [last]).flatten ++ post.flatten =
            r.wire ++ stream (r' :: rs) := by
          rw [← List.flatten_append, ← hsplit', hjoin]
          rfl
        have hpost := (List.append_inj hjoin' hlen).2
        obtain ⟨hfresh, hrecv, hlog⟩ := serve_request answer hf r hr
          (show _ = r.message ++ (r.framing.trailer ++ stream (r' :: rs)) by
            rw [hjoin', Request.wire, List.append_assoc]) hpre (by omega)
          (by rw [hlen]; exact r.short)
        rw [hsplit', onReads_append, (ih hfresh hrpost hpost).mpr haligned, hlog, hrecv, hlen]
        simp [sentFrom]

end Requests

theorem sentFrom_requests (k : Nat) (rs : List KeepAliveRequest) :
    (sentFrom k rs).map Prod.snd = rs.map fun r => r.parsed := by
  induction rs generalizing k with
  | nil => rfl
  | cons r rs ih => rw [sentFrom, List.map_cons, ih, List.map_cons]

/-- Exactly when no request of a persistent connection is lost: the read that completes a
request must not hold any byte of the next one, nor leave any byte of its own behind. -/
theorem dispatched_iff_aligned (answer : HttpRequest → Answer) (fd : Nat)
    (rs : List KeepAliveRequest) (cut : Cut (stream rs)) :
    let log := (onReads answer (connAdd fd) cut.reads).dispatched
    (log = sentFrom 0 rs ↔ Aligned rs cut.reads) ∧
      (Aligned rs cut.reads → log.map Prod.snd = rs.map fun r => r.parsed) := by
  have hreads : Reads cut.reads := ⟨cut.nonempty, cut.bounded⟩
  have hiff := serve_iff answer rs (connAdd_fresh fd) hreads cut.joined
  dsimp only
  refine ⟨hiff, fun h => ?_⟩
  rw [hiff.mpr h, ← sentFrom_requests 0 rs]
  rfl

/-- `GET / HTTP/1.1` without headers. -/
def plainGet : KeepAliveRequest where
  method := ascii "GET"
  uri := ascii "/"
  version := ascii "HTTP/1.1"
  fields := []
  framing := .none
  method_visible := List.all_eq_true.mp (by decide)
  method_length := by decide
  uri_visible := List.all_eq_true.mp (by decide)
  uri_length := by decide
  version_visible := http11_visible
  version_length := http11_length
  fields_distinct := by decide
  fields_count := by decide
  announced := ⟨by decide, fun v hv => by cases hv⟩
  http11 := rfl
  keep := by decide
  short := by decide

/-- Two requests in one read. -/
def pipelined : Cut (stream [plainGet, plainGet]) :=
  ⟨[stream [plainGet, plainGet]], by decide, by decide, by decide⟩

/-- Only the first of two requests that arrive together is dispatched. -/
theorem pipelined_request_lost :
    (onReads (fun _ => .written) (connAdd 4) pipelined.reads).dispatched.map Prod.snd =
        [plainGet.parsed] ∧
      (onReads (fun _ => .written) (connAdd 4) pipelined.reads).dispatched.map Prod.snd ≠
        [plainGet, plainGet].map fun r => r.parsed := by
  have hlog : (onReads (fun _ => .written) (connAdd 4) pipelined.reads).dispatched.map Prod.snd =
      [plainGet.parsed] := by decide +kernel
  rw [hlog]
  exact ⟨rfl, by decide⟩

end PersistentConnection
