import NanoProxy.KeptHeaders

/-!
# The outbound request (include/request.h, `proxy_handler`)

The request that `proxy_handler` stores in `pending`. A failed append of the source
is ignored there, and so it is here: `append` and `appendf` keep the buffer as it was.
-/

namespace OutboundRequest

open CLib StringBuffer HttpRequestParser RequestDecoder RequestGrammar
open Incremental ParserRefinement RequestCodec AcceptedRequest
open HeaderTable (TableParser Keeps)
open StbDs (firstSeed)

/-- The upstream of a route: `host` is a `char[256]` that `getaddrinfo` has resolved. -/
structure Upstream where
  host : Bytes
  port : Nat
  keepaliveEnabled : Bool
  host_length : host.length < 256
  host_visible : ∀ b ∈ host, visible b = true
  port_range : port ≤ 65535

/-- The client of an HTTP listener: `addr` is a `char[1025]` with the numeric address
that `getnameinfo` wrote, or empty when it failed. -/
structure Client where
  addr : Bytes
  tls : Bool
  addr_length : addr.length < 1025
  addr_visible : ∀ b ∈ addr, visible b = true

def append (sb : StringBuf) (src : Bytes) : StringBuf := (stringbufAppend sb src).getD sb

def appendf (sb : StringBuf) (text : Bytes) : StringBuf := (stringbufAppendf sb text).getD sb

/-- `%s` of a pointer that may be NULL. -/
def formatString (s : Option Bytes) : Bytes := s.getD (ascii "(null)")

/-- Headers that the proxy writes itself. -/
def rewritten : List Bytes :=
  [ascii "host", ascii "connection", ascii "transfer-encoding", ascii "content-length",
    ascii "x-forwarded-for", ascii "x-real-ip", ascii "x-forwarded-proto"]

def isWebsocket (req : HttpRequest) : Bool :=
  match shget req.headers (ascii "upgrade") with
  | some value => strcaseeq value (ascii "websocket")
  | none => false

/-- The loop over the client's headers. -/
def putHeaders (hs : Headers) (sb : StringBuf) : StringBuf :=
  hs.foldl (fun sb h => if rewritten.contains h.1 then sb
    else appendf sb (h.1 ++ ascii ": " ++ h.2 ++ ascii "\r\n")) sb

def putConnection (req : HttpRequest) (up : Upstream) (sb : StringBuf) : StringBuf :=
  if isWebsocket req then append sb (ascii "Connection: Upgrade\r\n")
  else if up.keepaliveEnabled then append sb (ascii "Connection: keep-alive\r\n")
  else append sb (ascii "Connection: close\r\n")

/-- Client identity headers. -/
def putIdentity (req : HttpRequest) (cd : Client) (sb : StringBuf) : StringBuf :=
  if cd.addr ≠ [] then
    let sb := match shget req.headers (ascii "x-forwarded-for") with
      | some value => appendf sb
          (ascii "X-Forwarded-For: " ++ value ++ ascii ", " ++ cd.addr ++ ascii "\r\n")
      | none => appendf sb (ascii "X-Forwarded-For: " ++ cd.addr ++ ascii "\r\n")
    appendf sb (ascii "X-Real-IP: " ++ cd.addr ++ ascii "\r\n")
  else sb

def putFraming (p : HttpParser) (sb : StringBuf) : StringBuf :=
  if p.state = .body then
    -- streaming mode: the framing of the client is passed on
    if p.chunked then append sb (ascii "Transfer-Encoding: chunked\r\n")
    else if 0 < p.contentLength then
      appendf sb (ascii "Content-Length: " ++ decimal p.contentLength ++ ascii "\r\n")
    else sb
  else if 0 < p.req.body.length then
    appendf sb (ascii "Content-Length: " ++ decimal p.req.body.length ++ ascii "\r\n")
  else sb

def outboundHead (p : HttpParser) (up : Upstream) (cd : Client) : StringBuf :=
  let req := p.req
  let sb := stringbufInit 2048
  let sb := appendf sb
    (formatString req.method ++ ascii " " ++ formatString req.uri ++ ascii " HTTP/1.1\r\n")
  let sb := putHeaders req.headers sb
  let sb := appendf sb (ascii "Host: " ++ up.host ++ ascii ":" ++ decimal up.port ++ ascii "\r\n")
  let sb := putConnection req up sb
  let sb := putIdentity req cd sb
  let sb := appendf sb
    (ascii "X-Forwarded-Proto: " ++ ascii (if cd.tls then "https" else "http") ++ ascii "\r\n")
  let sb := putFraming p sb
  append sb (ascii "\r\n")

/-- The bytes of `pending`. -/
def outboundRequest (p : HttpParser) (up : Upstream) (cd : Client) : StringBuf :=
  let sb := outboundHead p up cd
  if p.state ≠ .body ∧ 0 < p.req.body.length then append sb p.req.body else sb

def connectionValue (req : HttpRequest) (up : Upstream) : Bytes :=
  if isWebsocket req then ascii "Upgrade"
  else if up.keepaliveEnabled then ascii "keep-alive"
  else ascii "close"

def forwardedFor (req : HttpRequest) (cd : Client) : Bytes :=
  match shget req.headers (ascii "x-forwarded-for") with
  | some value => value ++ ascii ", " ++ cd.addr
  | none => cd.addr

def passedOn (req : HttpRequest) : Headers := req.headers.filter fun h => !rewritten.contains h.1

def identity (req : HttpRequest) (cd : Client) : Headers :=
  if cd.addr = [] then [] else
    [(ascii "X-Forwarded-For", forwardedFor req cd), (ascii "X-Real-IP", cd.addr)]

def framing (body : Bytes) : Headers :=
  if body = [] then [] else [(ascii "Content-Length", decimal body.length)]

/-- The headers of a request whose body has been received. -/
def outboundHeaders (req : HttpRequest) (up : Upstream) (cd : Client) : Headers :=
  passedOn req ++ [(ascii "Host", up.host ++ ascii ":" ++ decimal up.port),
    (ascii "Connection", connectionValue req up)] ++ identity req cd ++
    [(ascii "X-Forwarded-Proto", ascii (if cd.tls then "https" else "http"))] ++ framing req.body

def outboundHeadText (req : HttpRequest) (up : Upstream) (cd : Client) : Bytes :=
  head (formatString req.method) (formatString req.uri) (ascii "HTTP/1.1")
    (outboundHeaders req up cd)

def outboundText (req : HttpRequest) (up : Upstream) (cd : Client) : Bytes :=
  outboundHeadText req up cd ++ req.body

/-- The buffer holds `text`, provided a quarter of the maximum is enough for it. -/
def Holds (sb : StringBuf) (text : Bytes) : Prop :=
  4 * (text.length + 1) ≤ STRINGBUF_MAX_CAP → sb.data = text ∧ Grown 2048 sb

theorem holds_init : Holds (stringbufInit 2048) [] := fun _ =>
  ⟨rfl, rfl, by decide, by decide⟩

theorem Holds.of_eq {sb : StringBuf} {a b : Bytes} (h : Holds sb a) (heq : a = b) : Holds sb b :=
  heq ▸ h

theorem holds_appendf {sb : StringBuf} {text : Bytes} (more : Bytes) (h : Holds sb text) :
    Holds (appendf sb more) (text ++ more) := by
  intro small
  rw [List.length_append] at small
  obtain ⟨hdata, hgrown⟩ := h (by omega)
  obtain ⟨sb', hsb', hdata', hgrown'⟩ := stringbufAppendf_grown more hgrown (by decide)
    (by decide) (by rw [StringBuf.size, hdata]; omega)
  rw [appendf, hsb', ← hdata]
  exact ⟨hdata', hgrown'⟩

theorem holds_append {sb : StringBuf} {text more : Bytes} (hne : more ≠ []) (h : Holds sb text) :
    Holds (append sb more) (text ++ more) := by
  intro small
  rw [List.length_append] at small
  have hmax : STRINGBUF_MAX_CAP = 67108864 := by decide
  obtain ⟨hdata, hgrown⟩ := h (by omega)
  have htight := hgrown.tight
  rw [StringBuf.size, hdata] at htight
  obtain ⟨sb', hsb', hdata', hgrown'⟩ := stringbufAppend_grown hgrown hne (by decide)
    (by omega) (by rw [StringBuf.size, hdata]; omega)
  rw [append, hsb', ← hdata]
  exact ⟨hdata', hgrown'⟩

theorem ascii_colon : ascii ": " = [COLON, SP] := by decide

theorem ascii_crlf : ascii "\r\n" = CRLF := by decide

theorem headerLines_append (a b : Headers) : headerLines (a ++ b) = headerLines a ++ headerLines b := by
  simp [headerLines]

theorem headerLines_single (name value : Bytes) :
    headerLines [(name, value)] = name ++ ascii ": " ++ value ++ ascii "\r\n" := by
  simp [headerLines, headerLineText, ascii_colon, ascii_crlf]

theorem holds_putHeaders {sb : StringBuf} {text : Bytes} (hs : Headers) (h : Holds sb text) :
    Holds (putHeaders hs sb)
      (text ++ headerLines (hs.filter fun h => !rewritten.contains h.1)) := by
  unfold putHeaders
  induction hs generalizing sb text with
  | nil => simpa [headerLines] using h
  | cons e hs ih =>
    rw [List.foldl_cons]
    by_cases he : rewritten.contains e.1 = true
    · rw [if_pos he, List.filter_cons_of_neg (by rw [he]; decide)]
      exact ih h
    · have hstep := ih (holds_appendf (e.1 ++ ascii ": " ++ e.2 ++ ascii "\r\n") h)
      rw [if_neg he, List.filter_cons_of_pos (by simpa using he), ← List.singleton_append,
        headerLines_append, headerLines_single, ← List.append_assoc]
      exact hstep

theorem holds_putConnection {sb : StringBuf} {text : Bytes} (req : HttpRequest) (up : Upstream)
    (h : Holds sb text) : Holds (putConnection req up sb)
      (text ++ headerLines [(ascii "Connection", connectionValue req up)]) := by
  rw [headerLines_single]
  unfold putConnection connectionValue
  split
  · exact holds_append (by decide) h
  split
  · exact holds_append (by decide) h
  · exact holds_append (by decide) h

theorem holds_putIdentity {sb : StringBuf} {text : Bytes} (req : HttpRequest) (cd : Client)
    (h : Holds sb text) : Holds (putIdentity req cd sb) (text ++ headerLines (identity req cd)) := by
  unfold putIdentity identity
  by_cases hip : cd.addr = []
  · rw [if_neg (by simpa using hip), if_pos hip]
    simpa [headerLines] using h
  · rw [if_pos hip, if_neg hip, ← List.singleton_append, headerLines_append, headerLines_single,
      headerLines_single, ← List.append_assoc]
    refine holds_appendf _ ?_
    unfold forwardedFor
    cases shget req.headers (ascii "x-forwarded-for") with
    | none => exact holds_appendf _ h
    | some value =>
      have hname : ascii "X-Forwarded-For: " = ascii "X-Forwarded-For" ++ ascii ": " := by decide
      refine (holds_appendf _ h).of_eq ?_
      simp [hname]

theorem holds_putFraming {sb : StringBuf} {text : Bytes} {p : HttpParser} (hstate : p.state ≠ .body)
    (h : Holds sb text) : Holds (putFraming p sb) (text ++ headerLines (framing p.req.body)) := by
  unfold putFraming framing
  rw [if_neg hstate]
  by_cases hbody : p.req.body = []
  · simpa [hbody, headerLines] using h
  · rw [if_pos (List.length_pos_iff.mpr hbody), if_neg hbody, headerLines_single]
    exact holds_appendf _ h

theorem outboundHead_holds {p : HttpParser} (up : Upstream) (cd : Client)
    (hstate : p.state ≠ .body) : Holds (outboundHead p up cd) (outboundHeadText p.req up cd) := by
  have hstart := holds_appendf (formatString p.req.method ++ ascii " " ++ formatString p.req.uri ++
    ascii " HTTP/1.1\r\n") holds_init
  have hhost := holds_appendf
    (ascii "Host: " ++ up.host ++ ascii ":" ++ decimal up.port ++ ascii "\r\n")
    (holds_putHeaders p.req.headers hstart)
  have hproto := holds_appendf
    (ascii "X-Forwarded-Proto: " ++ ascii (if cd.tls then "https" else "http") ++ ascii "\r\n")
    (holds_putIdentity p.req cd (holds_putConnection p.req up hhost))
  have hne : ascii "\r\n" ≠ [] := by decide
  have hend := holds_append hne (holds_putFraming hstate hproto)
  refine hend.of_eq ?_
  have hline : ascii " HTTP/1.1\r\n" = SP :: (ascii "HTTP/1.1" ++ CRLF) := by decide
  have hsp : ascii " " = [SP] := by decide
  have hH : ascii "Host: " = ascii "Host" ++ ascii ": " := by decide
  have hP : ascii "X-Forwarded-Proto: " = ascii "X-Forwarded-Proto" ++ ascii ": " := by decide
  simp [outboundHeadText, head, outboundHeaders, passedOn, requestLineText, headerLines,
    headerLineText, hline, hsp, hH, hP, ascii_colon, ascii_crlf]

/-- The grammar with its size limits lifted: nothing that fits in a buffer reaches them. -/
def unlimited : Limits where
  maxHeaders := 2 ^ 62
  maxBodySize := 2 ^ 62
  maxChunkSize := 2 ^ 62
  maxUrlSize := 2 ^ 62
  maxMethodSize := 2 ^ 62
  maxHttpVersionSize := 2 ^ 62
  maxHeaderNameSize := 2 ^ 62
  maxHeaderValueSize := 2 ^ 62
  maxHeaderLineSize := 2 ^ 62

theorem unlimited_sane : Sane unlimited := ⟨by decide, by decide⟩

/-- Readable, and short enough for the bound on the whole head. -/
structure Outgoing (h : Bytes × Bytes) : Prop where
  readable : Readable unlimited h.1 h.2
  short : h.1.length + h.2.length + 4 ≤ 8192

theorem outgoing_token {name value : Bytes} (token : name.all tchar = true)
    (name_ne : name ≠ []) (bytes : (0 : UInt8) ∉ value ∧ LF ∉ value) (trimmed : Trimmed value)
    (short : name.length + value.length + 4 ≤ 8192) : Outgoing (name, value) := by
  have hlim : unlimited.maxHeaderNameSize = 2 ^ 62 ∧ unlimited.maxHeaderValueSize = 2 ^ 62 ∧
      unlimited.maxHeaderLineSize = 2 ^ 62 := by decide
  have hr : Readable unlimited name value :=
    readable_token (List.all_eq_true.mp token) name_ne bytes trimmed ⟨by omega, by omega⟩ (by omega)
  exact ⟨hr, short⟩

/-- A value without white space needs no further care. -/
theorem outgoing_visible {name value : Bytes} (token : name.all tchar = true)
    (name_ne : name ≠ []) (vis : ∀ b ∈ value, visible b = true)
    (short : name.length + value.length + 4 ≤ 8192) : Outgoing (name, value) :=
  outgoing_token token name_ne
    ⟨fun h => (visible_ne (vis _ h)).2.1 rfl, fun h => (visible_ne (vis _ h)).2.2.1 rfl⟩
    (trimmed_of_no_space fun b hb => visible_not_space (vis b hb)) short

theorem outgoing_literal {name value : Bytes} (token : name.all tchar = true)
    (name_ne : name ≠ []) (vis : value.all visible = true)
    (short : name.length + value.length + 4 ≤ 8192) : Outgoing (name, value) :=
  outgoing_visible token name_ne (List.all_eq_true.mp vis) short

theorem digit_visible {b : UInt8} (h : isdigit b = true) : visible b = true := by
  have key := forall_byte (p := fun b => !isdigit b || visible b) (by decide +kernel) b
  simpa [h] using key

/-- What holds of every header line, even when a NUL has cut a name or a value. -/
structure OutLine (h : Bytes × Bytes) : Prop where
  name : OneLine h.1
  value : OneLine h.2
  short : h.1.length + h.2.length + 4 ≤ 8192

theorem Outgoing.line {h : Bytes × Bytes} (out : Outgoing h) : OutLine h :=
  ⟨out.readable.name_bytes.2, out.readable.value_bytes, out.short⟩

theorem outgoing_stored {h : Bytes × Bytes} (hs : Stored h) : Outgoing h := by
  have hr := hs.readable
  have hname := hr.name_fits
  have hvalue := hr.value_fits
  have hlim : Limits.default.maxHeaderNameSize = 256 ∧
      Limits.default.maxHeaderValueSize = 4096 := by decide
  have hlim' : unlimited.maxHeaderNameSize = 2 ^ 62 ∧ unlimited.maxHeaderValueSize = 2 ^ 62 ∧
      unlimited.maxHeaderLineSize = 2 ^ 62 := by decide
  exact ⟨⟨hr.name_ne, hr.name_bytes, hr.name_trimmed, by omega, hr.value_bytes, hr.value_trimmed,
    by omega, by omega⟩, by omega⟩

theorem outgoing_host (up : Upstream) :
    Outgoing (ascii "Host", up.host ++ ascii ":" ++ decimal up.port) := by
  have hport := decimal_length (n := up.port) (k := 5) (by decide)
    (lt_of_le_of_lt up.port_range (by decide))
  refine outgoing_visible (by decide) (by decide) ?_ ?_
  · intro b hb
    rcases List.mem_append.mp hb with hb | hb
    · rcases List.mem_append.mp hb with hb | hb
      · exact up.host_visible b hb
      · have hcolon : ∀ b ∈ ascii ":", visible b = true := List.all_eq_true.mp (by decide)
        exact hcolon b hb
    · exact digit_visible (decimal_digits hb)
  · have := up.host_length
    have h4 : (ascii "Host").length = 4 := by decide
    have h1 : (ascii ":").length = 1 := by decide
    simp only [List.length_append, h4, h1]
    omega

theorem outgoing_connection (req : HttpRequest) (up : Upstream) :
    Outgoing (ascii "Connection", connectionValue req up) := by
  unfold connectionValue
  split
  · exact outgoing_literal (by decide) (by decide) (by decide) (by decide)
  split
  · exact outgoing_literal (by decide) (by decide) (by decide) (by decide)
  · exact outgoing_literal (by decide) (by decide) (by decide) (by decide)

theorem forwardedFor_trimmed {value addr : Bytes} (hv : Trimmed value) (hne : addr ≠ [])
    (ha : Trimmed addr) : Trimmed (value ++ ascii ", " ++ addr) := by
  constructor
  · intro b hb
    cases value with
    | nil =>
      have hcomma : b = 44 := by simpa [ascii] using hb.symm
      rw [hcomma]
      decide
    | cons c value => exact hv.1 b (by simpa using hb)
  · intro b hb
    rw [List.getLast?_append, List.getLast?_eq_getLast_of_ne_nil hne] at hb
    exact ha.2 b (by rw [List.getLast?_eq_getLast_of_ne_nil hne]; simpa using hb)

theorem forwardedFor_oneLine {value : Bytes} (hv : OneLine value) (cd : Client) :
    OneLine (value ++ ascii ", " ++ cd.addr) := by
  have hnot : ∀ c, visible c = false → c ∉ value → c ∉ ascii ", " →
      c ∉ value ++ ascii ", " ++ cd.addr := by
    intro c hc hv hs hb
    rcases List.mem_append.mp hb with hb | hb
    · exact (List.mem_append.mp hb).elim hv hs
    · rw [cd.addr_visible c hb] at hc
      cases hc
  exact ⟨hnot 0 (by decide) hv.1 (by decide), hnot LF (by decide) hv.2 (by decide)⟩

theorem forwardedFor_length {req : HttpRequest} (bd : Bounded req) (cd : Client) :
    (forwardedFor req cd).length ≤ 4096 + 2 + 1024 := by
  have hlen := cd.addr_length
  have h2 : (ascii ", ").length = 2 := by decide
  unfold forwardedFor
  cases hg : shget req.headers (ascii "x-forwarded-for") with
  | none =>
    dsimp only
    omega
  | some value =>
    have hfits : value.length ≤ 4096 := (bd.headers _ (shget_mem hg)).2.2.2
    simp only [List.length_append, h2]
    omega

theorem outLine_forwardedFor {req : HttpRequest} (bd : Bounded req) (cd : Client) :
    OutLine (ascii "X-Forwarded-For", forwardedFor req cd) := by
  have hlen := forwardedFor_length bd cd
  have h15 : (ascii "X-Forwarded-For").length = 15 := by decide
  have hname : OneLine (ascii "X-Forwarded-For") := ⟨by decide, by decide⟩
  refine ⟨hname, ?_, by dsimp only; omega⟩
  unfold forwardedFor
  cases hg : shget req.headers (ascii "x-forwarded-for") with
  | none => exact ⟨fun h => (visible_ne (cd.addr_visible _ h)).2.1 rfl,
      fun h => (visible_ne (cd.addr_visible _ h)).2.2.1 rfl⟩
  | some value => exact forwardedFor_oneLine (bd.headers _ (shget_mem hg)).2.1 cd

theorem outgoing_forwardedFor {req : HttpRequest} (acc : Accepted req) (bd : Bounded req)
    {cd : Client} (hne : cd.addr ≠ []) :
    Outgoing (ascii "X-Forwarded-For", forwardedFor req cd) := by
  have hline := outLine_forwardedFor bd cd
  refine outgoing_token (by decide) (by decide) hline.value ?_ hline.short
  have haddr := trimmed_of_no_space fun b hb => visible_not_space (cd.addr_visible b hb)
  unfold forwardedFor
  cases hg : shget req.headers (ascii "x-forwarded-for") with
  | none => exact haddr
  | some value =>
    exact forwardedFor_trimmed (acc.stored _ (shget_mem hg)).readable.value_trimmed hne haddr

/-- The headers of `outboundHeaders` one by one. -/
theorem outboundHeaders_forall {P : Bytes × Bytes → Prop} {req : HttpRequest} {up : Upstream}
    {cd : Client} (hbody : req.body.length < STRINGBUF_MAX_CAP)
    (passed : ∀ h ∈ req.headers, P h) (fixed : ∀ h, Outgoing h → P h)
    (forwarded : cd.addr ≠ [] → P (ascii "X-Forwarded-For", forwardedFor req cd)) :
    ∀ h ∈ outboundHeaders req up cd, P h := by
  intro h hh
  simp only [outboundHeaders, List.mem_append, List.mem_cons, List.not_mem_nil, or_false] at hh
  rcases hh with (((hh | rfl | rfl) | hh) | rfl) | hh
  · exact passed h (List.mem_of_mem_filter hh)
  · exact fixed _ (outgoing_host up)
  · exact fixed _ (outgoing_connection req up)
  · unfold identity at hh
    split at hh
    · cases hh
    · rename_i hne
      simp only [List.mem_cons, List.not_mem_nil, or_false] at hh
      rcases hh with rfl | rfl
      · exact forwarded hne
      · have := cd.addr_length
        have h9 : (ascii "X-Real-IP").length = 9 := by decide
        exact fixed _ (outgoing_visible (by decide) (by decide) cd.addr_visible (by omega))
  · cases cd.tls
    · exact fixed _ (outgoing_literal (by decide) (by decide) (by decide) (by decide))
    · exact fixed _ (outgoing_literal (by decide) (by decide) (by decide) (by decide))
  · unfold framing at hh
    split at hh
    · cases hh
    · rw [List.mem_singleton] at hh
      subst hh
      have hlen := decimal_length (n := req.body.length) (k := 8) (by decide)
        (lt_trans hbody (by decide))
      have h14 : (ascii "Content-Length").length = 14 := by decide
      exact fixed _ (outgoing_visible (by decide) (by decide)
        (fun b hb => digit_visible (decimal_digits hb)) (by omega))

theorem outboundHeaders_outLine {req : HttpRequest} (bd : Bounded req) (up : Upstream)
    (cd : Client) (hbody : req.body.length < STRINGBUF_MAX_CAP) :
    ∀ h ∈ outboundHeaders req up cd, OutLine h := by
  refine outboundHeaders_forall hbody ?_ (fun _ => Outgoing.line)
    (fun _ => outLine_forwardedFor bd cd)
  intro h hh
  obtain ⟨hname, hvalue, hn, hv⟩ := bd.headers h hh
  exact ⟨hname, hvalue, by omega⟩

theorem outboundHeaders_outgoing {req : HttpRequest} (acc : Accepted req) (bd : Bounded req)
    (up : Upstream) (cd : Client) (hbody : req.body.length < STRINGBUF_MAX_CAP) :
    ∀ h ∈ outboundHeaders req up cd, Outgoing h :=
  outboundHeaders_forall hbody (fun h hh => outgoing_stored (acc.stored h hh)) (fun _ h => h)
    (outgoing_forwardedFor acc bd)

/-- The header table of the request that the upstream sees. -/
def forwardedTable (req : HttpRequest) (up : Upstream) (cd : Client) : Headers :=
  passedOn req ++
    [(ascii "host", up.host ++ ascii ":" ++ decimal up.port),
      (ascii "connection", connectionValue req up)] ++
    (if cd.addr = [] then [] else
      [(ascii "x-forwarded-for", forwardedFor req cd), (ascii "x-real-ip", cd.addr)]) ++
    [(ascii "x-forwarded-proto", ascii (if cd.tls then "https" else "http"))] ++
    (if req.body = [] then [] else [(ascii "content-length", decimal req.body.length)])

theorem table_passedOn {req : HttpRequest} (acc : Accepted req) :
    table (passedOn req) = passedOn req := by
  rw [table, List.map_congr_left (g := id), List.map_id]
  intro h hh
  exact Prod.ext (acc.stored h (List.mem_of_mem_filter hh)).lowered rfl

theorem table_outboundHeaders {req : HttpRequest} (acc : Accepted req) (up : Upstream)
    (cd : Client) : table (outboundHeaders req up cd) = forwardedTable req up cd := by
  have happend : ∀ a b : Headers, table (a ++ b) = table a ++ table b := fun a b =>
    List.map_append
  unfold outboundHeaders forwardedTable identity framing
  rw [happend, happend, happend, happend, table_passedOn acc]
  have h1 : lower (ascii "Host") = ascii "host" := by decide
  have h2 : lower (ascii "Connection") = ascii "connection" := by decide
  have h3 : lower (ascii "X-Forwarded-For") = ascii "x-forwarded-for" := by decide
  have h4 : lower (ascii "X-Real-IP") = ascii "x-real-ip" := by decide
  have h5 : lower (ascii "X-Forwarded-Proto") = ascii "x-forwarded-proto" := by decide
  have h6 : lower (ascii "Content-Length") = ascii "content-length" := by decide
  by_cases hip : cd.addr = [] <;> by_cases hbody : req.body = [] <;>
    simp [table, hip, hbody, h1, h2, h3, h4, h5, h6]

/-- The names that the proxy adds, in the order of the table. -/
def addedNames (req : HttpRequest) (cd : Client) : List Bytes :=
  [ascii "host", ascii "connection"] ++
    (if cd.addr = [] then [] else [ascii "x-forwarded-for", ascii "x-real-ip"]) ++
    [ascii "x-forwarded-proto"] ++ (if req.body = [] then [] else [ascii "content-length"])

theorem keys_forwardedTable (req : HttpRequest) (up : Upstream) (cd : Client) :
    keys (forwardedTable req up cd) = keys (passedOn req) ++ addedNames req cd := by
  unfold forwardedTable addedNames
  by_cases hip : cd.addr = [] <;> by_cases hbody : req.body = [] <;> simp [keys, hip, hbody]

theorem addedNames_nodup (req : HttpRequest) (cd : Client) : (addedNames req cd).Nodup := by
  unfold addedNames
  split <;> split <;> decide

theorem addedNames_rewritten (req : HttpRequest) (cd : Client) :
    ∀ k ∈ addedNames req cd, rewritten.contains k = true := by
  unfold addedNames
  split <;> split <;> decide

theorem passedOn_not_rewritten {req : HttpRequest} {k : Bytes} (h : k ∈ keys (passedOn req)) :
    rewritten.contains k = false := by
  obtain ⟨e, he, rfl⟩ := List.mem_map.mp h
  simpa using List.of_mem_filter he

theorem forwardedTable_nodup {req : HttpRequest} (acc : Accepted req) (up : Upstream)
    (cd : Client) : (keys (forwardedTable req up cd)).Nodup := by
  rw [keys_forwardedTable, List.nodup_append]
  refine ⟨acc.distinct.sublist (List.filter_sublist.map _), addedNames_nodup req cd, ?_⟩
  rintro a ha b hb rfl
  have h1 := addedNames_rewritten req cd a hb
  rw [passedOn_not_rewritten ha] at h1
  cases h1

/-- The framing of the forwarded request. -/
theorem forwardedTable_framing {req : HttpRequest} (acc : Accepted req) (up : Upstream)
    (cd : Client) :
    shget (forwardedTable req up cd) (ascii "transfer-encoding") = none ∧
      shget (forwardedTable req up cd) (ascii "content-length") =
        if req.body = [] then none else some (decimal req.body.length) := by
  have hpassed : ∀ k, rewritten.contains k = true → k ∉ keys (passedOn req) := by
    intro k hk hmem
    rw [passedOn_not_rewritten hmem] at hk
    cases hk
  constructor
  · apply shget_none
    rw [keys_forwardedTable, List.mem_append]
    rintro (h | h)
    · exact hpassed _ (by decide) h
    · revert h
      unfold addedNames
      split <;> split <;> decide
  · split
    · rename_i hbody
      apply shget_none
      rw [keys_forwardedTable, List.mem_append]
      rintro (h | h)
      · exact hpassed _ (by decide) h
      · revert h
        unfold addedNames
        rw [if_pos hbody]
        split <;> decide
    · rename_i hbody
      apply shget_of_mem (forwardedTable_nodup acc up cd)
      unfold forwardedTable
      rw [if_neg hbody]
      exact List.mem_append_right _ (List.mem_singleton.mpr rfl)

theorem headerLines_length_le {k : Nat} (hs : Headers)
    (h : ∀ e ∈ hs, e.1.length + e.2.length + 4 ≤ k) : (headerLines hs).length ≤ hs.length * k := by
  induction hs with
  | nil => simp [headerLines]
  | cons e hs ih =>
    have he := h e List.mem_cons_self
    have hrest := ih fun e' he' => h e' (List.mem_cons_of_mem e he')
    have hlen : (headerLines (e :: hs)).length =
        e.1.length + e.2.length + 4 + (headerLines hs).length := by
      simp only [headerLines, headerLineText, List.flatMap_cons, List.length_append,
        List.length_cons, CRLF, List.length_nil]
      omega
    rw [hlen, List.length_cons, Nat.succ_mul]
    omega

theorem outboundHeaders_length (req : HttpRequest) (up : Upstream) (cd : Client) :
    (outboundHeaders req up cd).length ≤ req.headers.length + 6 := by
  have hfilter : (passedOn req).length ≤ req.headers.length := List.length_filter_le _ _
  have hid : (identity req cd).length ≤ 2 := by
    unfold identity
    split <;> simp
  have hframe : (framing req.body).length ≤ 1 := by
    unfold framing
    split <;> simp
  simp only [outboundHeaders, List.length_append, List.length_cons, List.length_nil]
  omega

section Forwarded

variable {p : HttpParser} (acc : Accepted p.req) (bd : Bounded p.req) (hstate : p.state ≠ .body)
  (up : Upstream) (cd : Client)

include bd in
/-- The limits of the parser keep the head far below the maximum. -/
theorem outboundHeadText_length (hbody : p.req.body.length < STRINGBUF_MAX_CAP) :
    (outboundHeadText p.req up cd).length < 2 ^ 21 := by
  obtain ⟨m, u, hm, hu, -, -, hmfits, hufits⟩ := bd.start
  have hlines := headerLines_length_le (k := 8192) (outboundHeaders p.req up cd) fun e he =>
    (outboundHeaders_outLine bd up cd hbody e he).short
  have hcount := outboundHeaders_length p.req up cd
  have hmax := bd.count
  have hversion : (ascii "HTTP/1.1").length = 8 := by decide
  have htotal : (outboundHeaders p.req up cd).length * 8192 ≤ 134 * 8192 :=
    Nat.mul_le_mul_right _ (by omega)
  simp only [outboundHeadText, head, requestLineText, hm, hu, formatString, Option.getD_some,
    List.length_append, List.length_cons, hversion, CRLF, List.length_nil]
  omega

include bd hstate in
/-- No append of `proxy_handler` fails. -/
theorem outboundRequest_data (short : (outboundText p.req up cd).length < STRINGBUF_MAX_CAP) :
    (outboundRequest p up cd).data = outboundText p.req up cd := by
  have hmax : STRINGBUF_MAX_CAP = 67108864 := by decide
  rw [outboundText, List.length_append] at short
  have hhead := outboundHeadText_length bd up cd (by omega)
  obtain ⟨hdata, hgrown⟩ := outboundHead_holds up cd hstate (by omega)
  unfold outboundRequest outboundText
  by_cases hbody : p.req.body = []
  · rw [if_neg (by simp [hbody]), hdata, hbody, List.append_nil]
  · rw [if_pos ⟨hstate, List.length_pos_iff.mpr hbody⟩]
    have htight := hgrown.tight
    rw [StringBuf.size, hdata] at htight
    obtain ⟨sb', hsb', hdata', -⟩ := stringbufAppend_grown hgrown hbody (by decide) (by omega)
      (by rw [StringBuf.size, hdata]; omega)
    rw [append, hsb']
    exact hdata'.trans (by rw [hdata])

include bd hstate in
/-- A body that does not fit is dropped, although it has been announced. -/
theorem outboundRequest_data_full (hbody : p.req.body.length < STRINGBUF_MAX_CAP)
    (full : STRINGBUF_MAX_CAP ≤ (outboundText p.req up cd).length) :
    (outboundRequest p up cd).data = outboundHeadText p.req up cd := by
  have hmax : STRINGBUF_MAX_CAP = 67108864 := by decide
  rw [outboundText, List.length_append] at full
  have hhead := outboundHeadText_length bd up cd hbody
  obtain ⟨hdata, hgrown⟩ := outboundHead_holds up cd hstate (by omega)
  unfold outboundRequest
  split
  · have hnone : stringbufAppend (outboundHead p up cd) p.req.body = none := by
      have htight := hgrown.tight
      rw [StringBuf.size, hdata] at htight
      exact stringbufAppend_none (by rw [StringBuf.size, hdata]; exact full) (by omega)
    rw [append, hnone]
    exact hdata
  · exact hdata

/-- The request that the upstream is meant to see. -/
def forwardedRequest (req : HttpRequest) (up : Upstream) (cd : Client) : HttpRequest where
  method := req.method
  uri := req.uri
  version := some (ascii "HTTP/1.1")
  headers := forwardedTable req up cd
  body := req.body

include acc bd in
theorem run_outboundText (short : (outboundText p.req up cd).length < STRINGBUF_MAX_CAP) :
    (decoder unlimited).run .start (outboundText p.req up cd) =
      .complete ⟨.finished, forwardedRequest p.req up cd⟩ [] := by
  obtain ⟨m, u, v, hm, hu, -, hstart⟩ := acc.start
  have hmax : STRINGBUF_MAX_CAP = 67108864 := by decide
  have hmfits : m.length ≤ 16 := hstart.method_fits
  have hufits : u.length ≤ 4096 := hstart.uri_fits
  have hbody : p.req.body.length < STRINGBUF_MAX_CAP := by
    rw [outboundText, List.length_append] at short
    omega
  have hreadable : ReadableStart unlimited m u (ascii "HTTP/1.1") :=
    { method_ne := hstart.method_ne
      method_bytes := hstart.method_bytes
      method_fits := le_trans hmfits (by decide)
      uri_ne := hstart.uri_ne
      uri_bytes := hstart.uri_bytes
      uri_fits := le_trans hufits (by decide)
      version_ne := by decide
      version_bytes := by decide
      version_fits := by decide
      line_fits := by
        have hversion : (ascii "HTTP/1.1").length = 8 := by decide
        change _ ≤ 2 ^ 62
        omega }
  have hcount : (outboundHeaders p.req up cd).length ≤ unlimited.maxHeaders := by
    have := outboundHeaders_length p.req up cd
    have := acc.count
    change _ ≤ 2 ^ 62
    omega
  have hnodup : (keys (table (outboundHeaders p.req up cd))).Nodup := by
    rw [table_outboundHeaders acc]
    exact forwardedTable_nodup acc up cd
  have hrun := run_head hreadable
    (fun h hh => (outboundHeaders_outgoing acc bd up cd hbody h hh).readable) hnodup hcount p.req.body
  have htext : outboundText p.req up cd =
      head m u (ascii "HTTP/1.1") (outboundHeaders p.req up cd) ++ p.req.body := by
    simp [outboundText, outboundHeadText, hm, hu, formatString]
  obtain ⟨hte, hcl⟩ := forwardedTable_framing acc up cd
  rw [htext, hrun, table_outboundHeaders acc, afterHead, forwardedRequest, hm, hu]
  unfold decodeFraming
  by_cases hempty : p.req.body = []
  · rw [if_pos hempty] at hcl
    simp only [hcl, hte, hempty]
  · rw [if_neg hempty] at hcl
    have hnum := strtoull_decimal (decimal_ne_nil p.req.body.length) (fun b hb => decimal_digits hb)
      (by rw [ofDigits_decimal]; omega)
    rw [ofDigits_decimal] at hnum
    have hpos : p.req.body.length ≠ 0 := by simpa using hempty
    simp only [hcl, hnum]
    rw [if_pos ⟨trivial, trivial, by change _ ≤ 2 ^ 62; omega⟩, if_neg hpos]
    dsimp only
    rw [run_counted _ _ _ _ (by omega), if_pos (Nat.le_refl _)]
    simp

end Forwarded

/-- The bytes that `proxy_handler` stores for a request are one request of the same grammar, with
nothing behind it. -/
def Reframed (upstreamFd : Nat) (p : HttpParser) (up : Upstream) (cd : Client) : Prop :=
  ∃ q, httpParserFeed unlimited (httpParserInit upstreamFd) (outboundRequest p up cd).data = (q, 1) ∧
    q.buffer.data.drop q.pos = [] ∧
    q.req.method = p.req.method ∧ q.req.uri = p.req.uri ∧ q.req.body = p.req.body ∧
    q.req.headers = forwardedTable p.req up cd ∧ (keys q.req.headers).Nodup ∧
    shget q.req.headers (ascii "transfer-encoding") = none ∧
    shget q.req.headers (ascii "content-length") =
      if p.req.body = [] then none else some (decimal q.req.body.length)

theorem accepted_reframed {fd : Nat} {p : HttpParser} (client : AcceptedReads fd p)
    (nul_free : (0 : UInt8) ∉ client.reads.flatten) (upstreamFd : Nat) (up : Upstream) (cd : Client)
    (short : (outboundText p.req up cd).length < STRINGBUF_MAX_CAP) :
    Reframed upstreamFd p up cd := by
  have acc := client.request_accepted nul_free
  have bd := client.request_bounded
  have hstate : p.state ≠ .body := by
    rw [client.state_done]
    decide
  rw [Reframed, outboundRequest_data bd hstate up cd short]
  have hne : outboundText p.req up cd ≠ [] := by
    simp [outboundText, outboundHeadText, head, CRLF]
  obtain ⟨sb, happ, hdata, -⟩ := stringbufAppend_grown stringbufInit_grown hne (by decide)
    (by decide) (by change 0 + _ < _; omega)
  have hsmall : sb.data.length < 2 ^ 62 := by
    have hcap : STRINGBUF_MAX_CAP < 2 ^ 62 := by decide
    rw [hdata]
    change (outboundText p.req up cd).length < 2 ^ 62
    omega
  have hfeed := feed_sim_append unlimited_sane (init_sim unlimited upstreamFd) happ hdata hsmall
  rw [List.nil_append, run_outboundText acc bd up cd short] at hfeed
  obtain ⟨hcode, hq, -⟩ := hfeed
  refine ⟨_, by rw [← hcode], hq.rest, ?_⟩
  rw [hq.req]
  exact ⟨rfl, rfl, rfl, rfl, forwardedTable_nodup acc up cd, forwardedTable_framing acc up cd⟩

/-- The reads of a connection whose request the parser accepts with its table. -/
structure TableReads (σ : UInt64) (fd : Nat) (q : TableParser) where
  reads : List Bytes
  nonempty : ∀ r ∈ reads, r ≠ []
  bounded : ∀ r ∈ reads, r.length ≤ Segmentation.MAX_MSG_SIZE
  accepted : HeaderTable.feedReads σ .default (HeaderTable.httpParserInit fd) reads = some (q, 1)

/-- In a table that keeps its keys they are reads of the parser over a map. -/
def TableReads.overMap {σ : UInt64} {fd : Nat} {q : TableParser} (client : TableReads σ fd q)
    (keeps : Keeps σ (RequestLines.fieldsOf .default client.reads.flatten)) :
    AcceptedReads fd q.parser where
  reads := client.reads
  nonempty := client.nonempty
  bounded := client.bounded
  accepted := by
    obtain ⟨table, kept⟩ := KeptHeaders.feedReads_kept default_sane fd client.reads keeps
    rw [client.accepted] at kept
    obtain ⟨same, code⟩ := Prod.mk.inj (Option.some.inj kept)
    exact Prod.ext (congrArg TableParser.parser same).symm code.symm

/-- Faithful re-framing of the requests of a client in a table that keeps its keys. What
`proxy_handler` looks up in the table it finds where `outboundRequest` does. -/
theorem outbound_reframes (σ : UInt64) (fd upstreamFd : Nat) (p : TableParser)
    (client : TableReads σ fd p) (nul_free : (0 : UInt8) ∉ client.reads.flatten)
    (keeps : Keeps σ (RequestLines.fieldsOf .default client.reads.flatten)) (up : Upstream)
    (cd : Client) (short : (outboundText p.parser.req up cd).length < STRINGBUF_MAX_CAP) :
    (∀ key, (HeaderTable.shget p.table key).map Prod.snd = some (shget p.parser.req.headers key)) ∧
      Reframed upstreamFd p.parser up cd := by
  have mirrors := KeptHeaders.accepted_mirrors default_sane keeps client.accepted
  refine ⟨fun key => ?_, accepted_reframed (client.overMap keeps) nul_free upstreamFd up cd short⟩
  rw [HeaderTable.shget_sane mirrors.sane, mirrors.entries]
  rfl

def sampleReads : List Bytes :=
  [ascii "POST /a HTTP/1.1\r\nHost: b\r\nX-Forwarded-For: 10.0.0.1\r\nTransfer-Enc",
    ascii "oding: chunked\r\n\r\n3\r\nabc\r\n0\r\n"]

def sampleParser : HttpParser := (feedReads .default (httpParserInit 4) sampleReads).1

def sampleAccepted : AcceptedReads 4 sampleParser where
  reads := sampleReads
  nonempty := by decide
  bounded := by decide
  accepted := Prod.ext rfl (by decide +kernel)

def sampleUpstream : Upstream :=
  ⟨ascii "127.0.0.1", 8000, true, by decide, List.all_eq_true.mp (by decide), by decide⟩

def sampleClient : Client :=
  ⟨ascii "10.0.0.2", false, by decide, List.all_eq_true.mp (by decide)⟩

theorem outbound_reframes_sample :
    ∃ p, HeaderTable.feedReads firstSeed .default (HeaderTable.httpParserInit 4) sampleReads =
      some (p, 1) ∧ Reframed 7 p.parser sampleUpstream sampleClient := by
  have read : (HeaderTable.feedReads firstSeed .default (HeaderTable.httpParserInit 4)
      sampleReads).map (fun r => (r.2, r.1.parser.req)) = some (1, sampleParser.req) := by
    decide +kernel
  obtain ⟨⟨p, code⟩, fed, same⟩ := Option.map_eq_some_iff.mp read
  obtain ⟨rfl, req⟩ := Prod.mk.inj same
  exact ⟨p, fed, (outbound_reframes firstSeed 4 7 p ⟨sampleReads, by decide, by decide, fed⟩
    (by decide : (0 : UInt8) ∉ sampleReads.flatten)
    (HeaderTable.keeps_distinct (by decide +kernel :
      ((RequestLines.fieldsOf .default sampleReads.flatten).map Prod.fst).Nodup))
    sampleUpstream sampleClient (by rw [req]; decide +kernel)).2⟩

/-- A name that is given twice, with two others in between. -/
def twiceType : List Bytes :=
  [ascii "GET / HTTP/1.1\r\nX-A: 1\r\nContent-Type: 2\r\nAccept: 3\r\nContent-Type: 4\r\n\r\n"]

/-- In the first table of a process the second `Content-Type` lands under `Accept`, which then
stands twice in the table and in what the upstream gets. -/
theorem outbound_fails :
    ¬ ∀ (σ : UInt64) (fd upstreamFd : Nat) (p : TableParser) (client : TableReads σ fd p),
      (0 : UInt8) ∉ client.reads.flatten → ∀ (up : Upstream) (cd : Client),
      (outboundText p.parser.req up cd).length < STRINGBUF_MAX_CAP →
      Reframed upstreamFd p.parser up cd := by
  intro always
  have read : (HeaderTable.feedReads firstSeed .default (HeaderTable.httpParserInit 4)
      twiceType).map (fun r => (r.2, r.1.parser.req)) =
        some (1, { method := some (ascii "GET"), uri := some (ascii "/"),
                   version := some (ascii "HTTP/1.1"), body := [],
                   headers := [(ascii "x-a", ascii "1"), (ascii "accept", ascii "4"),
                     (ascii "accept", ascii "3")] }) := by decide +kernel
  obtain ⟨⟨p, code⟩, fed, same⟩ := Option.map_eq_some_iff.mp read
  obtain ⟨rfl, req⟩ := Prod.mk.inj same
  let client : TableReads firstSeed 4 p := ⟨twiceType, by decide, by decide, fed⟩
  obtain ⟨q, -, -, -, -, -, stored, distinct, -⟩ := always firstSeed 4 7 p client
    (by decide : (0 : UInt8) ∉ twiceType.flatten)
    sampleUpstream sampleClient (by rw [req]; decide +kernel)
  rw [stored, req] at distinct
  exact absurd distinct (by decide +kernel)

end OutboundRequest
