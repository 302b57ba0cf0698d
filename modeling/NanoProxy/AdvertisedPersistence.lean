import NanoProxy.StaticDescriptors

/-!
# The Connection header and what becomes of the connection (include/request.h)

One client connection, with or without TLS, with the handlers of static files and of proxied
requests. The header of a response is written when the response starts; whether the connection
stays open is decided when its last byte goes out, from whatever the parser holds by then.
-/

namespace AdvertisedPersistence

open CLib HttpRequestParser OutboundRequest ResponseHead ProxyExchange ExchangeFrames
open ResponseFraming Runs
open EventLoop (noClient)
open StaticDescriptors (StaticIo SendIo Transfer pendingLen isHead isRange compressed bodyOf
  openFile closeFd setMemory setFile setBuffer sendHead eventMod account finishSend cleanupSendState)

/-- What becomes of a connection with a response: the next request is read from it, or it is
closed; `stuck` is neither. -/
inductive Fate where
  | kept
  | closed
  | stuck
  deriving DecidableEq

/-- `client` is the part of the `client_data` that static files use. `advertised` is what the
last header block said, if it had a Connection line, and `verdicts` what it had said when a
response was over, with what became of the connection. -/
structure Conn where
  client : StaticDescriptors.Conn
  proxyActive : Bool
  proxyStreaming : Bool
  exchange : Option Exchange
  advertised : Option Bool
  verdicts : List (Option Bool × Fate)

abbrev Conn.parser (c : Conn) : HttpParser := c.client.parser

abbrev Conn.alive (c : Conn) : Bool := c.client.alive

def connAdd (fd : Nat) (tls : Bool) : Conn where
  client := StaticDescriptors.connAdd fd tls
  proxyActive := false
  proxyStreaming := false
  exchange := none
  advertised := none
  verdicts := []

def connDel (c : Conn) : Conn := { c with client := StaticDescriptors.connDel c.client }

def fate (c : Conn) : Fate :=
  if !c.alive then .closed
  else match c.client.events with
    | .read => .kept
    | .write => .stuck

/-- The record of a response that is over. -/
def conclude (c : Conn) : Conn := { c with verdicts := c.verdicts ++ [(c.advertised, fate c)] }

/-- The Connection line of the last header block that `http_static_dir` sends; `http_error` adds
none. -/
def staticHead (req : HttpRequest) (io : StaticIo) : Option Bool :=
  if req.method ≠ some (ascii "GET") ∧ !isHead req then none else
  match io.file with
  | none => none
  | some file =>
    if isRange req file ∧ !io.seeks then none
    else if !io.built then none
    else match compressed req file io with
      | some _ => if io.gzipBuilt then some (httpShouldKeepAlive req) else none
      | none => if isHead req || io.allocated then some (httpShouldKeepAlive req) else none

def httpStaticDir (io : StaticIo) (c : Conn) : Conn :=
  { c with
    client := StaticDescriptors.httpStaticDir io c.client
    advertised := staticHead c.parser.req io }

/-- `upstream` is the connection to the upstream, and whether it is a reused one. -/
structure DispatchIo where
  static : StaticIo
  upstream : Option (Nat × Bool)
  info : Client
  now : Int
  bodyWrite : WriteResult

/-- `http_error` adds no Connection header. -/
def httpError (c : Conn) : Conn := { c with advertised := none }

def proxyHandler (route : Route) (io : DispatchIo) (c : Conn) : Conn :=
  match io.upstream with
  | none => httpError c
  | some (fd, reused) =>
    let streaming := c.parser.state = .body ∨ isWebsocket c.parser.req
    { c with
      exchange := some (proxyStart c.parser route io.info fd reused io.now)
      proxyActive := true
      proxyStreaming := c.proxyStreaming || streaming
      client := { c.client with
        parser := { c.parser with streamingBody := c.parser.streamingBody || streaming }
        sendingBody := true } }

/-- `proxy_cleanup` of the exchange `x`; a response has been relayed once its headers are
done. -/
def endExchange (x : Exchange) (c : Conn) : Conn :=
  let c := { c with exchange := none }
  if !c.alive then c else
  let c := { c with
    proxyActive := false, proxyStreaming := false
    client := { c.client with sendingBody := false } }
  let c := if x.ps.respPoolable && httpShouldKeepAlive c.parser.req
    then { c with client := eventMod .read (StaticDescriptors.resetParser c.client) }
    else connDel c
  if x.ps.respHeadersDone then conclude c else c

def storeExchange (x : Exchange) (c : Conn) : Conn :=
  if x.ended then endExchange x c else { c with exchange := some x }

def handleExchange (e : ProxyExchange.Event) (c : Conn) : Conn :=
  match c.exchange with
  | none => c
  | some x => storeExchange (handle x e) c

def clientSide (c : Conn) : ClientSide := ⟨c.alive, httpShouldKeepAlive c.parser.req⟩

/-- What a block of the upstream says itself. -/
def connectionLine (block : Bytes) : Option Bool :=
  match proxyHeaderValue block (ascii "Connection") with
  | none => none
  | some val =>
    if strcaseeq val (ascii "close") then some false
    else if strcaseeq val (ascii "keep-alive") then some true
    else none

/-- The header block that `proxy_relay_upstream_keepalive` sends for `buf`, if it sends one:
rewritten, or as it came when it is too long. -/
inductive Relayed where
  | rewritten (finalKa : Bool)
  | raw (block : Bytes)
deriving DecidableEq

def relayedHead (cd : ClientSide) (buf : Bytes) (x : Exchange) : Option Relayed :=
  if !x.ps.keepaliveEnabled || x.ps.respHeadersDone then none else
  let grown := x.ps.respHeaderBuf.getD [] ++ buf
  match headerBlockLen grown with
  | some n => some (.rewritten (poolable (grown.take n) && (cd.known && cd.keepAlive)))
  | none => if 16384 < grown.length then some (.raw grown) else none

def Relayed.line : Relayed → Option Bool
  | .rewritten finalKa => some finalKa
  | .raw block => connectionLine block

def noteHead (cd : ClientSide) (r : ReadResult) (x : Exchange) (c : Conn) : Conn :=
  match r with
  | .data buf => match relayedHead cd buf x with
    | some head => { c with advertised := head.line }
    | none => c
  | _ => c

def proxyOnUpstreamRead (r : ReadResult) (w : WriteResult) (c : Conn) : Conn :=
  match c.exchange with
  | none => c
  | some x =>
    let cd := clientSide c
    storeExchange (handle x (.upstreamReadable cd r w)) (noteHead cd r x c)

/-- `best_h`; a proxied request has a route. -/
def bestHandler (routes : HttpRequest → Option Route) (io : DispatchIo) (c : Conn) : Conn :=
  match routes c.parser.req with
  | some route => proxyHandler route io c
  | none => httpStaticDir io.static c

def persistOrClose (keepAlive : Bool) (c : Conn) : Conn :=
  if c.proxyActive then c
  else { c with client := StaticDescriptors.persistOrClose keepAlive c.client }

/-- Nothing of the response is left to be sent, or the rest is given up with the connection still
there. -/
def isOver (client : StaticDescriptors.Conn) : Bool :=
  client.owed = 0 || (client.alive && !client.sendingBody)

/-- A static response may be over when `http_dispatcher` returns. -/
def concludeStatic (routes : HttpRequest → Option Route) (req : HttpRequest) (c : Conn) : Conn :=
  if (routes req).isNone && isOver c.client then conclude c else c

def httpDispatcher (routes : HttpRequest → Option Route) (io : DispatchIo) (c : Conn) : Conn :=
  let req := c.parser.req
  concludeStatic routes req (persistOrClose (httpShouldKeepAlive req) (bestHandler routes io c))

def setParser (parser : HttpParser) (c : Conn) : Conn :=
  { c with client := { c.client with parser := parser } }

def forwardLeftover (r : WriteResult) (c : Conn) : Conn :=
  if !c.proxyStreaming then c else
  let leftover := c.parser.buffer.data.drop c.parser.pos
  if leftover = [] then c else
  handleExchange (.bodyData leftover r)
    (setParser { c.parser with pos := c.parser.buffer.size } c)

/-- `my_on_read` that got `data`. -/
def onData (routes : HttpRequest → Option Route) (data : Bytes) (io : DispatchIo)
    (c : Conn) : Conn :=
  if c.proxyStreaming then handleExchange (.bodyData data io.bodyWrite) c else
  let (parser, res) := httpParserFeed .default c.parser data
  let c := setParser parser c
  if res < 0 then connDel c
  else if res = 0 then c
  else if res = 2 then forwardLeftover io.bodyWrite (httpDispatcher routes io c)
  else httpDispatcher routes io c

/-- `resume_send`, and the record of a response that it brings to its end. -/
def resumeSend (io : SendIo) (c : Conn) : Conn :=
  let d := { c with client := StaticDescriptors.resumeSend io c.client }
  if c.client.sendingBody && c.client.owed ≠ 0 && isOver d.client then conclude d else d

/-- While a static body is being sent, only the writing is waited for, and only then. -/
def myOnWrite (cw : WriteResult) (io : SendIo) (c : Conn) : Conn :=
  if c.proxyActive then handleExchange (.clientWritable cw) c
  else if c.client.events = .write then resumeSend io c
  else c

inductive Event where
  | readable (data : Bytes) (io : DispatchIo)
  | hangup
  | writable (cw : WriteResult) (io : SendIo)
  | upstreamWritable (soerr : Bool) (r : WriteResult)
  | upstreamReadable (r : ReadResult) (cw : WriteResult)

def step (routes : HttpRequest → Option Route) (c : Conn) : Event → Conn
  | .readable data io => if c.alive ∧ c.client.events = .read then onData routes data io c else c
  | .hangup => connDel c
  | .writable cw io => if c.alive then myOnWrite cw io c else c
  | .upstreamWritable soerr r => handleExchange (.upstreamWritable soerr r) c
  | .upstreamReadable r cw => proxyOnUpstreamRead r cw c

/-- The state in which `http_static_dir` calls `resume_send`, if it does. -/
def firstSend (io : StaticIo) (c : StaticDescriptors.Conn) : Option StaticDescriptors.Conn :=
  let req := c.parser.req
  match io.file with
  | none => none
  | some file => match compressed req file io with
    | some gz => some (setMemory gz (closeFd c.opened (openFile c)))
    | none =>
      if isHead req then none
      else some (setBuffer (setFile c.opened (bodyOf req file) (openFile c)))

/-- What `sendfile` or `send` takes in `resume_send`, unless it fails. -/
def taken (io : SendIo) (c : StaticDescriptors.Conn) : Option Nat :=
  if c.useSendfile then io.write.taken c.sendRemaining
  else socketWrite true (pendingLen io c) io.write

/-- A buffer has something for the socket, which takes no more of it than `send_remaining`. -/
def Sends (io : SendIo) (c : StaticDescriptors.Conn) : Prop :=
  c.useSendfile = false → pendingLen io c ≠ 0 ∧
    ∀ n ∈ socketWrite true (pendingLen io c) io.write, n ≤ c.sendRemaining

/-- The first call of `resume_send` fails, or does what the header has announced: where the
connection is kept, nothing is left to be sent later. -/
def SendsFirst (keepAlive : Bool) (io : SendIo) (c : StaticDescriptors.Conn) : Prop :=
  c.sendRemaining ≠ 0 → Sends io c ∧
    (keepAlive = true → taken io c = none ∨ taken io c = some c.sendRemaining)

/-- A request whose answer is no `http_error` (for a proxied request: none below a response that
is being relayed), and whose file is sent as it should be. -/
def Settles (routes : HttpRequest → Option Route) (io : DispatchIo) (c : Conn) : Prop :=
  match routes c.parser.req with
  | some _ => io.upstream = none → c.exchange = none
  | none => staticHead c.parser.req io.static ≠ none ∧
      ∀ s ∈ firstSend io.static c.client,
        SendsFirst (httpShouldKeepAlive c.parser.req) io.static.send s

/-- A dispatched request settles, a file goes on as it should, and a header block that is too
long to be framed says that the connection will be closed. -/
def Plain (routes : HttpRequest → Option Route) (c : Conn) : Event → Prop
  | .readable data io => 0 < (httpParserFeed .default c.parser data).2 →
      Settles routes io (setParser (httpParserFeed .default c.parser data).1 c)
  | .writable _ io => c.proxyActive = false → c.client.events = .write → Sends io c.client
  | .upstreamReadable (.data buf) _ => ∀ x block, c.exchange = some x →
      relayedHead (clientSide c) buf x = some (.raw block) → connectionLine block = some false
  | _ => True

/-- What was said is what became of the connection. -/
def Applied (v : Option Bool × Fate) : Prop := v = (some true, .kept) ∨ v = (some false, .closed)

variable {routes : HttpRequest → Option Route} {c : Conn} {x y : Exchange}

/-- The request whose response has started, with what its header said of the connection. -/
structure Promised (routes : HttpRequest → Option Route) (c : Conn) (x : Exchange) : Prop where
  live : x.ended = false
  proxied : routes c.parser.req ≠ none
  done : c.parser.state = .done
  active : c.proxyActive = true
  head : x.ps.respHeadersDone = true →
    c.advertised = some (x.ps.respPoolable && httpShouldKeepAlive c.parser.req)

/-- A static body that is sent on behind the dispatcher; its header said that the connection
will be closed. -/
structure Closing (routes : HttpRequest → Option Route) (c : Conn) : Prop where
  static : routes c.parser.req = none
  done : c.parser.state = .done
  close : httpShouldKeepAlive c.parser.req = false
  advertised : c.advertised = some false
  transfer : Transfer c.client

/-- An open connection. -/
structure Serving (routes : HttpRequest → Option Route) (c : Conn) : Prop where
  relays : ∀ x, c.exchange = some x → Promised routes c x
  idle : c.exchange = none → c.proxyActive = false
  reads : c.client.events = .read → c.client.sendRemaining = 0
  sends : c.client.events = .write → Closing routes c
  streams : c.parser.streamingBody = true → c.parser.state = .done

structure Agreed (routes : HttpRequest → Option Route) (c : Conn) : Prop where
  verdicts : ∀ v ∈ c.verdicts, Applied v
  serving : c.alive = true → Serving routes c

theorem agreed_connAdd (fd : Nat) (tls : Bool) : Agreed routes (connAdd fd tls) where
  verdicts := fun _ listed => absurd listed List.not_mem_nil
  serving := fun _ => {
    relays := fun _ live => nomatch live
    idle := fun _ => rfl
    reads := fun _ => rfl
    sends := nofun
    streams := fun streamed => absurd streamed Bool.false_ne_true }

theorem connDel_alive (c : StaticDescriptors.Conn) : (StaticDescriptors.connDel c).alive = false := by
  unfold StaticDescriptors.connDel
  split
  · rename_i gone
    simpa using gone
  · rfl

/-- A connection that is gone owes nothing. -/
theorem Agreed.gone (verdicts : ∀ v ∈ c.verdicts, Applied v) (gone : c.alive = false) :
    Agreed routes c where
  verdicts := verdicts
  serving := fun alive => absurd (gone.symm.trans alive) Bool.false_ne_true

theorem Agreed.connDel (h : Agreed routes c) : Agreed routes (connDel c) :=
  .gone h.verdicts (connDel_alive c.client)

/-- A connection that waits for its next request. -/
theorem Serving.fresh {fd : Nat} (parser : c.parser = httpParserInit fd)
    (exchange : c.exchange = none) (active : c.proxyActive = false)
    (reading : c.client.events = .read) (sent : c.client.sendRemaining = 0) :
    Serving routes c where
  relays := fun _ live => absurd (exchange.symm.trans live) (Option.some_ne_none _).symm
  idle := fun _ => active
  reads := fun _ => sent
  sends := fun writing => by cases reading.symm.trans writing
  streams := by
    rw [parser]
    exact fun streamed => absurd streamed Bool.false_ne_true

theorem Agreed.conclude (h : Agreed routes c) (applied : Applied (c.advertised, fate c)) :
    Agreed routes (conclude c) where
  verdicts := by
    intro v listed
    rcases List.mem_append.mp listed with before | last
    · exact h.verdicts v before
    · cases List.mem_singleton.mp last
      exact applied
  serving := fun alive =>
    let serving := h.serving alive
    ⟨fun x live => ⟨(serving.relays x live).live, (serving.relays x live).proxied,
      (serving.relays x live).done, (serving.relays x live).active, (serving.relays x live).head⟩,
      serving.idle, serving.reads, fun sending => ⟨(serving.sends sending).static,
        (serving.sends sending).done, (serving.sends sending).close,
        (serving.sends sending).advertised, (serving.sends sending).transfer⟩, serving.streams⟩

/-- While an exchange lives, no file is being sent. -/
theorem Serving.reading (h : Serving routes c) (live : c.exchange = some x) :
    c.client.events = .read := by
  cases events : c.client.events with
  | read => rfl
  | write => exact absurd (h.sends events).static (h.relays x live).proxied

/-- A header that said that the connection will be closed. -/
theorem applied_closed (said : c.advertised = some false) (gone : c.alive = false) :
    Applied (c.advertised, fate c) := by
  right
  rw [said, fate, gone]
  rfl

/-- A header that said that the connection will be kept. -/
theorem applied_kept (said : c.advertised = some true) (alive : c.alive = true)
    (reading : c.client.events = .read) : Applied (c.advertised, fate c) := by
  left
  rw [said, fate, alive, reading]
  rfl

/-- `proxy_cleanup` does what the header said. -/
theorem endExchange_agreed (h : Agreed routes c) (live : c.exchange = some x)
    (said : Option Bool) (head : c.alive = true → y.ps.respHeadersDone = true →
      said = some (y.ps.respPoolable && httpShouldKeepAlive c.parser.req)) :
    Agreed routes (endExchange y { c with advertised := said }) := by
  unfold endExchange
  dsimp only
  split
  · rename_i gone
    exact .gone h.verdicts (by simpa using gone)
  rename_i alive
  rw [Bool.not_eq_true', Bool.not_eq_false] at alive
  have serving := h.serving alive
  have sent := serving.reads (serving.reading live)
  cases kept : y.ps.respPoolable && httpShouldKeepAlive c.parser.req with
  | true =>
    rw [if_pos rfl]
    have waiting : Agreed routes { c with
        exchange := none, proxyActive := false, proxyStreaming := false, advertised := said
        client := eventMod .read (StaticDescriptors.resetParser
          { c.client with sendingBody := false }) } :=
      ⟨h.verdicts, fun _ => .fresh rfl rfl rfl rfl sent⟩
    split
    · rename_i done
      exact waiting.conclude (applied_kept ((head alive done).trans (congrArg some kept)) alive rfl)
    · exact waiting
  | false =>
    rw [if_neg Bool.false_ne_true]
    have closed : Agreed routes (AdvertisedPersistence.connDel { c with
        exchange := none, proxyActive := false, proxyStreaming := false, advertised := said
        client := { c.client with sendingBody := false } }) :=
      .gone h.verdicts (connDel_alive _)
    split
    · rename_i done
      exact closed.conclude
        (applied_closed ((head alive done).trans (congrArg some kept)) (connDel_alive _))
    · exact closed

theorem storeExchange_agreed (h : Agreed routes c) (live : c.exchange = some x)
    (said : Option Bool) (head : c.alive = true → y.ps.respHeadersDone = true →
      said = some (y.ps.respPoolable && httpShouldKeepAlive c.parser.req)) :
    Agreed routes (storeExchange y { c with advertised := said }) := by
  unfold storeExchange
  split
  · exact endExchange_agreed h live said head
  · rename_i goes
    refine ⟨h.verdicts, fun alive => ?_⟩
    have serving := h.serving alive
    obtain ⟨_, proxied, done, active, _⟩ := serving.relays x live
    constructor
    · intro z stored
      cases stored
      exact ⟨by simpa using goes, proxied, done, active, head alive⟩
    · exact fun none => nomatch none
    · exact serving.reads
    · intro writing
      cases (serving.reading live).symm.trans writing
    · exact serving.streams

/-- An event that reads nothing from the upstream. -/
theorem handleExchange_agreed (h : Agreed routes c) {e : ProxyExchange.Event}
    (same : ∀ x, SameFraming x (handle x e)) : Agreed routes (handleExchange e c) := by
  unfold handleExchange
  split
  · exact h
  · rename_i x live
    refine storeExchange_agreed h live c.advertised fun alive done => ?_
    rw [(same x).respPoolable]
    exact ((h.serving alive).relays x live).head ((same x).respHeadersDone.symm.trans done)

/-- What a read makes of the response, by the header block that it sends. -/
theorem read_response (cd : ClientSide) (buf : Bytes) (w : WriteResult) (live : x.ended = false) :
    let y := ProxyExchange.proxyOnUpstreamRead cd (.data buf) w x
    match relayedHead cd buf x with
    | none => y.ps.respHeadersDone = x.ps.respHeadersDone ∧
        y.ps.respPoolable = x.ps.respPoolable
    | some (.rewritten finalKa) => finalKa = (y.ps.respPoolable && (cd.known && cd.keepAlive))
    | some (.raw _) => y.ps.respPoolable = false := by
  dsimp only
  cases route : x.ps.keepaliveEnabled with
  | false =>
    have unsent : relayedHead cd buf x = none := by simp [relayedHead, route]
    rw [unsent]
    unfold ProxyExchange.proxyOnUpstreamRead writeOrBuffer
    dsimp only
    rw [if_neg (by simp [receive, route])]
    split
    · exact ⟨rfl, rfl⟩
    · rename_i m _
      have same := (deliver_framing buf m (receive buf x)).1
      exact ⟨same.respHeadersDone, same.respPoolable⟩
  | true =>
    cases done : x.ps.respHeadersDone with
    | true =>
      have unsent : relayedHead cd buf x = none := by simp [relayedHead, done]
      rw [unsent, read_done route done]
      obtain ⟨_, headers, pool⟩ := relay_response cd buf buf.length w
        (show (receive buf x).ended = false from live)
      exact ⟨headers.trans done, pool⟩
    | false =>
      cases head : headerBlockLen (grown x buf) with
      | some n =>
        have sent : relayedHead cd buf x = some (.rewritten
            (poolable ((grown x buf).take n) && (cd.known && cd.keepAlive))) := by
          simp only [relayedHead, route, done, Bool.not_true, Bool.or_self, Bool.false_eq_true,
            if_false]
          rw [show headerBlockLen (x.ps.respHeaderBuf.getD [] ++ buf) = some n from head]
          rfl
        have framed : (frameResponse ((grown x buf).take n) (receive buf x)).ended = false := live
        rw [sent, read_head route done head]
        dsimp only
        rw [(relay_response cd _ _ w framed).2.2]
        change _ = ((x.ps.keepaliveEnabled && poolable ((grown x buf).take n)) && _)
        rw [route, Bool.true_and]
      | none =>
        have sent : relayedHead cd buf x =
            if 16384 < (grown x buf).length then some (.raw (grown x buf)) else none := by
          simp only [relayedHead, route, done, Bool.not_true, Bool.or_self, Bool.false_eq_true,
            if_false]
          rw [show headerBlockLen (x.ps.respHeaderBuf.getD [] ++ buf) = none from head]
          rfl
        rw [sent, read_unfinished route done head]
        by_cases long : 16384 < (grown x buf).length
        · rw [if_pos long, if_pos long]
          rfl
        · rw [if_neg long, if_neg long]
          exact ⟨done, rfl⟩

/-- The header that a read sends is kept. -/
theorem upstreamRead_agreed (h : Agreed routes c) {r : ReadResult} {w : WriteResult}
    (plain : Plain routes c (.upstreamReadable r w)) :
    Agreed routes (proxyOnUpstreamRead r w c) := by
  unfold proxyOnUpstreamRead
  split
  · exact h
  rename_i x live
  have unchanged {y : Exchange} (same : y.ps.respHeadersDone = x.ps.respHeadersDone ∧
      y.ps.respPoolable = x.ps.respPoolable) : Agreed routes (storeExchange y c) := by
    refine storeExchange_agreed h live c.advertised fun alive done => ?_
    rw [same.2]
    exact ((h.serving alive).relays x live).head (same.1.symm.trans done)
  dsimp only
  cases r with
  | again => exact unchanged ⟨rfl, rfl⟩
  | eof => exact unchanged ⟨rfl, rfl⟩
  | failed => exact unchanged ⟨rfl, rfl⟩
  | data buf =>
    by_cases alive : c.alive = true
    · have promised := (h.serving alive).relays x live
      have response := read_response (clientSide c) buf w promised.live
      have known : (clientSide c).known = true := alive
      unfold noteHead
      dsimp only at response ⊢
      cases sent : relayedHead (clientSide c) buf x with
      | none =>
        rw [sent] at response
        exact unchanged response
      | some head =>
        refine storeExchange_agreed h live head.line fun _ _ => ?_
        rw [sent] at response
        cases head with
        | rewritten finalKa =>
          rw [known, Bool.true_and] at response
          exact congrArg some response
        | raw block =>
          change connectionLine block = _
          rw [plain x block live sent]
          have closed : (handle x (.upstreamReadable (clientSide c) (.data buf) w)).ps.respPoolable =
            false := response
          rw [closed, Bool.false_and]
    · have said : ∃ a, noteHead (clientSide c) (.data buf) x c = { c with advertised := a } := by
        unfold noteHead
        dsimp only
        split
        · exact ⟨_, rfl⟩
        · exact ⟨c.advertised, rfl⟩
      obtain ⟨a, noted⟩ := said
      rw [noted]
      exact storeExchange_agreed h live a fun open₁ => absurd open₁ alive

/-- A parser that holds a complete request keeps it. -/
theorem httpParserFeed_done {p : HttpParser} (done : p.state = .done) (data : Bytes) :
    (httpParserFeed .default p data).2 = -1 ∨ ((httpParserFeed .default p data).2 = 1 ∧
      (httpParserFeed .default p data).1.state = .done ∧
      (httpParserFeed .default p data).1.req = p.req) := by
  unfold httpParserFeed
  split
  · exact Or.inl rfl
  · rw [feedLoop, if_neg (by simp [done])]
    exact Or.inr ⟨by simp [done], done, rfl⟩

/-- What a read of an open connection makes of its parser. -/
inductive Fed (routes : HttpRequest → Option Route) (c : Conn) (q : HttpParser) : Int → Prop
  | failed : Fed routes c q (-1)
  | waiting (serving : Serving routes (setParser q c)) : Fed routes c q 0
  | complete (done : q.state = .done) (serving : Serving routes (setParser q c)) : Fed routes c q 1

/-- A connection with a complete request that is read from relays the response. -/
theorem Serving.fed_done (h : Serving routes c) (reading : c.client.events = .read)
    (done : c.parser.state = .done) (data : Bytes) :
    Fed routes c (httpParserFeed .default c.parser data).1
      (httpParserFeed .default c.parser data).2 := by
  rcases httpParserFeed_done done data with failed | ⟨complete, done', req⟩
  · rw [failed]
    exact .failed
  · rw [complete]
    refine .complete done' ⟨fun x live => ?_, h.idle, h.reads, fun writing => ?_, fun _ => done'⟩
    · obtain ⟨goes, proxied, _, active, head⟩ := h.relays x live
      refine ⟨goes, ?_, done', active, ?_⟩
      · change routes (httpParserFeed .default c.parser data).1.req ≠ none
        rwa [req]
      · change _ → c.advertised = some (_ && httpShouldKeepAlive
          (httpParserFeed .default c.parser data).1.req)
        rwa [req]
    · cases reading.symm.trans writing

/-- A parser without a request serves nothing yet. -/
theorem Serving.fed_undone (h : Serving routes c) (reading : c.client.events = .read)
    (undone : c.parser.state ≠ .done) (data : Bytes) :
    Fed routes c (httpParserFeed .default c.parser data).1
      (httpParserFeed .default c.parser data).2 := by
  have none : c.exchange = none := by
    rw [Option.eq_none_iff_forall_ne_some]
    exact fun x live => undone (h.relays x live).done
  have unstreamed : c.parser.streamingBody = false := by
    rw [← Bool.not_eq_true]
    exact fun streamed => undone (h.streams streamed)
  have fed := ParserPasses.httpParserFeed_fed .default c.parser data
  generalize httpParserFeed .default c.parser data = feed at fed
  obtain ⟨q, code⟩ := feed
  dsimp only at fed ⊢
  have serving : Serving routes (setParser q c) := by
    refine ⟨fun x live => absurd (none.symm.trans live) (Option.some_ne_none x).symm, h.idle,
      h.reads, fun writing => ?_, fun streamed => ?_⟩
    · cases reading.symm.trans writing
    · exact absurd ((fed.streamingBody.trans unstreamed).symm.trans streamed) Bool.false_ne_true
  rcases fed.codes with rfl | rfl | ⟨rfl, complete⟩ | ⟨_, streamed⟩
  · exact .failed
  · exact .waiting serving
  · exact .complete complete serving
  · exact absurd (unstreamed.symm.trans streamed) Bool.false_ne_true

theorem Serving.fed (h : Serving routes c) (reading : c.client.events = .read) (data : Bytes) :
    Fed routes c (httpParserFeed .default c.parser data).1
      (httpParserFeed .default c.parser data).2 := by
  by_cases done : c.parser.state = .done
  · exact h.fed_done reading done data
  · exact h.fed_undone reading done data

variable {s t d : StaticDescriptors.Conn} {p : HttpParser} {keepAlive : Bool} {n : Nat}

theorem cleanupSendState_same (s : StaticDescriptors.Conn) :
    (cleanupSendState s).parser = s.parser ∧ (cleanupSendState s).alive = s.alive ∧
      (cleanupSendState s).owed = s.owed := by
  unfold cleanupSendState
  cases s.sendFileFd <;> exact ⟨rfl, rfl, rfl⟩

theorem connDel_owed (s : StaticDescriptors.Conn) :
    (StaticDescriptors.connDel s).owed = s.owed := by
  unfold StaticDescriptors.connDel
  split
  · rfl
  · exact (cleanupSendState_same s).2.2

/-- What has become of a connection with the request of `p` after a send. Only a response that
closes it is sent on later. -/
inductive Outcome (p : HttpParser) (keepAlive : Bool) (d : StaticDescriptors.Conn) : Prop
  | failed (gone : d.alive = false) (owed : d.owed ≠ 0)
  | kept (keep : keepAlive = true) (alive : d.alive = true) (reading : d.events = .read)
      (parser : d.parser = httpParserReset p) (sent : d.sendRemaining = 0) (owed : d.owed = 0)
  | closed (close : keepAlive = false) (gone : d.alive = false) (owed : d.owed = 0)
  | sends (close : keepAlive = false) (transfer : Transfer d) (writing : d.events = .write)
      (parser : d.parser = p)

theorem finishSend_owed (s : StaticDescriptors.Conn) : (finishSend s).owed = s.owed := by
  have owed := (cleanupSendState_same s).2.2
  unfold finishSend StaticDescriptors.keepOrDelete
  split
  · exact owed
  · exact (connDel_owed _).trans owed

theorem finishSend_outcome (parser : s.parser = p) (alive : s.alive = true) (owed : s.owed = 0) :
    Outcome p (httpShouldKeepAlive p.req) (finishSend s) := by
  have out := (finishSend_owed s).trans owed
  obtain ⟨parser', alive', -⟩ := cleanupSendState_same s
  have same : (eventMod .read (cleanupSendState s)).parser = p := parser'.trans parser
  unfold finishSend StaticDescriptors.keepOrDelete at *
  cases keep : httpShouldKeepAlive p.req with
  | true =>
    rw [if_pos (by rw [same, keep])] at out ⊢
    exact .kept rfl (alive'.trans alive) rfl (congrArg httpParserReset same) rfl out
  | false =>
    rw [if_neg (by rw [same, keep]; exact Bool.false_ne_true)] at out ⊢
    exact .closed rfl (connDel_alive _) out

/-- A failed send. -/
theorem connDel_outcome (unsent : s.owed ≠ 0) :
    Outcome p keepAlive (StaticDescriptors.connDel (cleanupSendState s)) := by
  refine .failed (connDel_alive _) ?_
  rw [connDel_owed, (cleanupSendState_same s).2.2]
  exact unsent

/-- A state that differs from `s` in its buffer and in its offset, from which `n` bytes may be
counted. -/
structure Counts (n : Nat) (s t : StaticDescriptors.Conn) : Prop where
  parser : t.parser = s.parser
  alive : t.alive = s.alive
  sending : t.sendingBody = s.sendingBody
  sendRemaining : t.sendRemaining = s.sendRemaining
  owed : t.owed = s.owed
  atMost : n ≤ s.sendRemaining
  memory : t.sendFileFd = none → t.useSendfile = false ∧ t.sendBufPos + (t.owed - n) = t.sendBufLen

theorem account_outcome (h : Transfer s) (counts : Counts n s t)
    (whole : httpShouldKeepAlive s.parser.req = true → n = s.sendRemaining) :
    Outcome s.parser (httpShouldKeepAlive s.parser.req) (account n t) := by
  obtain ⟨parser, alive, sending, sendRemaining, owed, atMost, memory⟩ := counts
  have counted := h.counted
  have bounded := h.bounded
  have plain : usub t.sendRemaining n = s.owed - n := by
    unfold usub
    omega
  unfold account
  dsimp only
  rw [plain]
  split
  · rename_i none
    have out : t.owed - n = 0 := by omega
    exact finishSend_outcome parser (alive.trans h.alive) out
  · rename_i more
    have close : httpShouldKeepAlive s.parser.req = false := by
      rw [← Bool.not_eq_true]
      intro keep
      have all := whole keep
      omega
    refine .sends close ⟨alive.trans h.alive, sending.trans h.sending, ?_, ?_, ?_, memory⟩ rfl parser
    · change s.owed - n = t.owed - n
      rw [owed]
    · change t.owed - n ≠ 0
      omega
    · change t.owed - n < 2 ^ 64
      omega

theorem resumeSend_transfer (h : Transfer s) (io : SendIo) :
    StaticDescriptors.resumeSend io s =
      if s.useSendfile then StaticDescriptors.sendWithSendfile io.write s
      else if s.sendBufPos = s.sendBufLen then StaticDescriptors.refillAndSend io s
      else StaticDescriptors.sendBuffered io.write s := by
  have unsent := h.unsent
  have counted := h.counted
  unfold StaticDescriptors.resumeSend
  rw [if_neg (by rw [h.alive]; exact Bool.false_ne_true),
    if_neg (by rw [h.sending, counted]; simpa using unsent)]

/-- What `resume_send` does with a body of which something is left. -/
theorem resumeSend_taken {io : SendIo} (h : Transfer s) (sends : Sends io s) :
    match taken io s with
    | none => ∃ t, t.owed = s.owed ∧ StaticDescriptors.resumeSend io s =
        StaticDescriptors.connDel (cleanupSendState t)
    | some n => ∃ t, Counts n s t ∧ StaticDescriptors.resumeSend io s = account n t := by
  have unsent := h.unsent
  rw [resumeSend_transfer h]
  unfold taken
  cases mode : s.useSendfile with
  | true =>
    rw [if_pos rfl, if_pos rfl]
    unfold StaticDescriptors.sendWithSendfile
    cases took : io.write.taken s.sendRemaining with
    | none => exact ⟨s, rfl, rfl⟩
    | some n =>
      refine ⟨{ s with sendOffset := s.sendOffset + n },
        ⟨rfl, rfl, rfl, rfl, rfl, WriteResult.taken_le took, fun none => ?_⟩, rfl⟩
      exact absurd ((h.memory none).1.symm.trans mode) Bool.false_ne_true
  | false =>
    rw [if_neg Bool.false_ne_true, if_neg Bool.false_ne_true]
    obtain ⟨some, atMost⟩ := sends mode
    unfold pendingLen at some atMost ⊢
    by_cases sent : s.sendBufPos = s.sendBufLen
    · rw [if_pos sent] at some atMost ⊢
      rw [if_pos sent]
      have ours : s.sendFileFd ≠ none := fun none => by
        have total := (h.memory none).2
        omega
      unfold StaticDescriptors.refillAndSend StaticDescriptors.sendBuffered
      rw [if_neg ours, if_neg some]
      dsimp only
      rw [Nat.sub_zero]
      cases took : socketWrite true (min io.read EventLoop.CHUNK_SIZE) io.write with
      | none =>
        exact ⟨{ s with sendBufLen := min io.read EventLoop.CHUNK_SIZE, sendBufPos := 0 }, rfl, rfl⟩
      | some n =>
        exact ⟨{ s with sendBufLen := min io.read EventLoop.CHUNK_SIZE, sendBufPos := 0 + n },
          ⟨rfl, rfl, rfl, rfl, rfl, atMost n took, fun none => absurd none ours⟩, rfl⟩
    · rw [if_neg sent] at some atMost ⊢
      rw [if_neg sent]
      unfold StaticDescriptors.sendBuffered
      cases took : socketWrite true (s.sendBufLen - s.sendBufPos) io.write with
      | none => exact ⟨s, rfl, rfl⟩
      | some n =>
        have within := socketWrite_le took
        refine ⟨{ s with sendBufPos := s.sendBufPos + n },
          ⟨rfl, rfl, rfl, rfl, rfl, atMost n took, fun none => ?_⟩, rfl⟩
        obtain ⟨_, total⟩ := h.memory none
        have le := atMost n took
        exact ⟨mode, by dsimp only; omega⟩

theorem resumeSend_outcome {io : SendIo} (h : Transfer s) (sends : Sends io s)
    (whole : httpShouldKeepAlive s.parser.req = true →
      taken io s = none ∨ taken io s = some s.sendRemaining) :
    Outcome s.parser (httpShouldKeepAlive s.parser.req) (StaticDescriptors.resumeSend io s) := by
  have result := resumeSend_taken h sends
  cases took : taken io s with
  | none =>
    rw [took] at result
    obtain ⟨t, owed, result⟩ := result
    rw [result]
    exact connDel_outcome (by rw [owed]; exact h.unsent)
  | some n =>
    rw [took] at result
    obtain ⟨t, counts, result⟩ := result
    rw [result]
    refine account_outcome h counts fun keep => ?_
    have first := whole keep
    rw [took] at first
    exact Option.some.inj (first.resolve_left (Option.some_ne_none n))

/-- A response of `http_static_dir` that is about to be sent. -/
structure Begun (c s : StaticDescriptors.Conn) : Prop where
  parser : s.parser = c.parser
  alive : s.alive = c.alive
  events : s.events = c.events
  sending : s.sendingBody = true
  counted : s.sendRemaining = s.owed
  bounded : s.owed < 2 ^ 64
  memory : s.sendFileFd = none → s.useSendfile = false ∧ s.sendBufPos + s.owed = s.sendBufLen

theorem Begun.transfer {c : StaticDescriptors.Conn} (h : Begun c s) (alive : c.alive = true)
    (unsent : s.owed ≠ 0) : Transfer s :=
  ⟨h.alive.trans alive, h.sending, h.counted, unsent, h.bounded, h.memory⟩

/-- A response with a Connection line is a header alone, or a body that is sent. -/
theorem httpStaticDir_told {c : StaticDescriptors.Conn} {io : StaticIo}
    (told : staticHead c.parser.req io ≠ none) :
    staticHead c.parser.req io = some (httpShouldKeepAlive c.parser.req) ∧
      (StaticDescriptors.httpStaticDir io c = sendHead (closeFd c.opened (openFile c)) ∨
      ∃ s ∈ firstSend io c, Begun c s ∧
        StaticDescriptors.httpStaticDir io c = StaticDescriptors.resumeSend io.send s) := by
  unfold staticHead at *
  unfold StaticDescriptors.httpStaticDir firstSend
  split at told
  · exact absurd rfl told
  rename_i method
  rw [if_neg method, if_neg method]
  cases opens : io.file with
  | none =>
    rw [opens] at told
    exact absurd rfl told
  | some file =>
    rw [opens] at told
    dsimp only at told ⊢
    split at told
    · exact absurd rfl told
    rename_i seeks
    rw [if_neg seeks, if_neg seeks]
    split at told
    · exact absurd rfl told
    rename_i built
    rw [if_neg built, if_neg built]
    have size := file.representable
    cases gzip : compressed c.parser.req file io with
    | some gz =>
      rw [gzip] at told
      dsimp only at told ⊢
      have small : gz.len < 2 ^ 64 := by
        unfold compressed at gzip
        split at gzip
        · have smaller := (Option.filter_eq_some_iff.mp gzip).2
          rw [decide_eq_true_eq] at smaller
          omega
        · cases gzip
      cases gzipBuilt : io.gzipBuilt with
      | false =>
        rw [gzipBuilt] at told
        exact absurd rfl told
      | true =>
        refine ⟨rfl, Or.inr ⟨_, rfl, ⟨rfl, rfl, rfl, rfl, rfl, small, fun _ => ⟨rfl, ?_⟩⟩, ?_⟩⟩
        · exact Nat.zero_add _
        · unfold StaticDescriptors.sendCompressed
          rw [if_neg (by rw [gzipBuilt]; decide)]
    | none =>
      rw [gzip] at told
      dsimp only at told ⊢
      have le := StaticDescriptors.bodyOf_le c.parser.req file
      cases head : isHead c.parser.req with
      | true =>
        rw [if_pos rfl]
        exact ⟨by rw [Bool.true_or, if_pos rfl], Or.inl rfl⟩
      | false =>
        rw [head, Bool.false_or] at told
        cases allocated : io.allocated with
        | false =>
          rw [allocated] at told
          exact absurd rfl told
        | true =>
          refine ⟨rfl, Or.inr ⟨_, rfl, ⟨rfl, rfl, rfl, rfl, rfl, ?_, fun none => ?_⟩, ?_⟩⟩
          · change (bodyOf c.parser.req file).contentLen < 2 ^ 64
            omega
          · exact absurd none (Option.some_ne_none _)
          · unfold StaticDescriptors.sendFile
            dsimp only
            rw [if_neg Bool.false_ne_true, if_neg (by rw [allocated]; decide)]

/-- The dispatcher leaves a connection as the send has left it, or deletes one with an empty
body. -/
theorem Outcome.persistOrClose (h : Outcome p keepAlive d) :
    Outcome p keepAlive (StaticDescriptors.persistOrClose keepAlive d) := by
  unfold StaticDescriptors.persistOrClose
  have deleted (gone : d.alive = false) : StaticDescriptors.connDel d = d := by
    unfold StaticDescriptors.connDel
    rw [if_pos (by rw [gone]; rfl)]
  cases h with
  | failed gone owed =>
    split
    · exact .failed gone owed
    split
    · rw [deleted gone]
      exact .failed gone owed
    · exact .failed gone owed
  | kept keep alive reading parser sent owed =>
    rw [if_pos keep]
    refine .kept keep alive reading ?_ sent owed
    change httpParserReset d.parser = _
    rw [parser]
    rfl
  | closed close gone owed =>
    rw [if_neg (by rw [close]; exact Bool.false_ne_true)]
    split
    · rw [deleted gone]
      exact .closed close gone owed
    · exact .closed close gone owed
  | sends close transfer writing parser =>
    have waits : ¬(!d.sendingBody || decide (d.sendRemaining = 0)) = true := by
      rw [transfer.sending, transfer.counted]
      simpa using transfer.unsent
    rw [if_neg (by rw [close]; exact Bool.false_ne_true), if_neg waits]
    exact .sends close transfer writing parser

theorem sendHead_outcome (alive : s.alive = true) (sent : s.sendRemaining = 0) :
    Outcome s.parser (httpShouldKeepAlive s.parser.req) (sendHead s) := by
  unfold sendHead
  dsimp only
  cases keep : httpShouldKeepAlive s.parser.req with
  | true =>
    rw [if_pos rfl]
    exact .kept rfl alive rfl rfl sent rfl
  | false =>
    rw [if_neg Bool.false_ne_true]
    exact .closed rfl (connDel_alive _) (connDel_owed _)

theorem static_outcome {c : StaticDescriptors.Conn} {io : StaticIo} (alive : c.alive = true)
    (reading : c.events = .read) (sent : c.sendRemaining = 0)
    (told : staticHead c.parser.req io ≠ none)
    (first : ∀ s ∈ firstSend io c, SendsFirst (httpShouldKeepAlive c.parser.req) io.send s) :
    Outcome c.parser (httpShouldKeepAlive c.parser.req)
      (StaticDescriptors.persistOrClose (httpShouldKeepAlive c.parser.req)
        (StaticDescriptors.httpStaticDir io c)) := by
  rcases (httpStaticDir_told told).2 with head | ⟨s, listed, begun, body⟩
  · have outcome := sendHead_outcome
      (show (closeFd c.opened (openFile c)).alive = true from alive) sent
    rw [head]
    exact Outcome.persistOrClose outcome
  · rw [body]
    by_cases none : s.owed = 0
    · have idle : StaticDescriptors.resumeSend io.send s = s := by
        unfold StaticDescriptors.resumeSend
        rw [begun.alive, alive, begun.counted, none]
        simp
      rw [idle]
      unfold StaticDescriptors.persistOrClose
      cases keep : httpShouldKeepAlive c.parser.req with
      | true =>
        rw [if_pos rfl]
        exact .kept rfl (begun.alive.trans alive) (begun.events.trans reading)
          (congrArg httpParserReset begun.parser) (begun.counted.trans none) none
      | false =>
        rw [if_neg Bool.false_ne_true, if_pos (by rw [begun.counted, none]; simp)]
        exact .closed rfl (connDel_alive _) ((connDel_owed _).trans none)
    · have transfer := begun.transfer alive none
      obtain ⟨sends, whole⟩ := first s listed (by rw [begun.counted]; exact none)
      have outcome := resumeSend_outcome transfer sends (by rw [begun.parser]; exact whole)
      rw [begun.parser] at outcome
      exact outcome.persistOrClose

/-- A send, on a connection whose last header said what the request asks for. -/
theorem agreed_sent (verdicts : ∀ v ∈ c.verdicts, Applied v) (idle : c.exchange = none)
    (inactive : c.proxyActive = false) (static : routes p.req = none) (done : p.state = .done)
    (said : c.advertised = some (httpShouldKeepAlive p.req))
    (outcome : Outcome p (httpShouldKeepAlive p.req) c.client) :
    Agreed routes (if isOver c.client then conclude c else c) := by
  cases outcome with
  | failed gone owed =>
    have unfinished : ¬isOver c.client = true := by simp [isOver, gone, owed]
    rw [if_neg unfinished]
    exact .gone verdicts gone
  | kept keep alive reading parser sent owed =>
    have finished : isOver c.client = true := by simp [isOver, owed]
    have waiting : Agreed routes c := ⟨verdicts, fun _ => .fresh parser idle inactive reading sent⟩
    rw [if_pos finished]
    exact waiting.conclude (applied_kept (said.trans (congrArg some keep)) alive reading)
  | closed close gone owed =>
    have finished : isOver c.client = true := by simp [isOver, owed]
    rw [if_pos finished]
    exact (Agreed.gone verdicts gone).conclude
      (applied_closed (said.trans (congrArg some close)) gone)
  | sends close transfer writing parser =>
    have unfinished : ¬isOver c.client = true := by
      simp [isOver, transfer.unsent, transfer.sending]
    rw [if_neg unfinished]
    refine ⟨verdicts, fun _ => ⟨?_, fun _ => inactive, ?_, ?_, ?_⟩⟩
    · exact fun x live => absurd (idle.symm.trans live) (Option.some_ne_none x).symm
    · intro reading
      cases reading.symm.trans writing
    · intro _
      refine ⟨?_, ?_, ?_, said.trans (congrArg some close), transfer⟩
      · rw [Conn.parser, parser, static]
      · rw [Conn.parser, parser, done]
      · rw [Conn.parser, parser, close]
    · intro _
      rw [Conn.parser, parser, done]

/-- The connection of a static request relays nothing. -/
theorem Serving.static (h : Serving routes c) (static : routes c.parser.req = none) :
    c.exchange = none ∧ c.proxyActive = false := by
  have none : c.exchange = none := by
    rw [Option.eq_none_iff_forall_ne_some]
    exact fun x live => (h.relays x live).proxied static
  exact ⟨none, h.idle none⟩

theorem static_agreed (h : Agreed routes c) (alive : c.alive = true)
    (reading : c.client.events = .read) (done : c.parser.state = .done)
    (static : routes c.parser.req = none) {io : StaticIo}
    (told : staticHead c.parser.req io ≠ none)
    (first : ∀ s ∈ firstSend io c.client, SendsFirst (httpShouldKeepAlive c.parser.req) io.send s) :
    let d := persistOrClose (httpShouldKeepAlive c.parser.req) (httpStaticDir io c)
    Agreed routes (if isOver d.client then conclude d else d) := by
  have serving := h.serving alive
  obtain ⟨idle, inactive⟩ := serving.static static
  have outcome := static_outcome alive reading (serving.reads reading) told first
  have same : persistOrClose (httpShouldKeepAlive c.parser.req) (httpStaticDir io c) =
      { c with
        client := StaticDescriptors.persistOrClose (httpShouldKeepAlive c.parser.req)
          (StaticDescriptors.httpStaticDir io c.client)
        advertised := staticHead c.parser.req io } := by
    unfold persistOrClose httpStaticDir
    exact if_neg (by rw [inactive]; exact Bool.false_ne_true)
  dsimp only
  rw [same]
  exact agreed_sent h.verdicts idle inactive static done (httpStaticDir_told told).1 outcome

theorem proxy_agreed (h : Agreed routes c) (alive : c.alive = true)
    (reading : c.client.events = .read) (done : c.parser.state = .done) {route : Route}
    (proxied : routes c.parser.req = some route) {io : DispatchIo}
    (connects : io.upstream = none → c.exchange = none) (keep : Bool) :
    Agreed routes (persistOrClose keep (proxyHandler route io c)) := by
  have serving := h.serving alive
  have unsent := serving.reads reading
  unfold proxyHandler
  split
  · rename_i failed
    have none := connects failed
    have inactive := serving.idle none
    have passed : persistOrClose keep (httpError c) = { httpError c with
        client := StaticDescriptors.persistOrClose keep c.client } :=
      if_neg (by rw [show (httpError c).proxyActive = false from inactive]; exact Bool.false_ne_true)
    rw [passed]
    unfold StaticDescriptors.persistOrClose
    cases keep with
    | true =>
      rw [if_pos rfl]
      exact ⟨h.verdicts, fun _ => .fresh rfl none inactive reading unsent⟩
    | false =>
      rw [if_neg Bool.false_ne_true, if_pos (by rw [unsent]; simp)]
      exact .gone h.verdicts (connDel_alive _)
  · rename_i fd reused _
    have owned (d : Conn) (active : d.proxyActive = true) : persistOrClose keep d = d := if_pos active
    rw [owned _ rfl]
    refine ⟨h.verdicts, fun _ => ⟨?_, fun none => absurd none (Option.some_ne_none _),
      fun _ => unsent, fun writing => ?_, fun _ => done⟩⟩
    · intro x live
      cases live
      refine ⟨rfl, fun none => ?_, done, rfl, fun headers => absurd headers Bool.false_ne_true⟩
      cases proxied.symm.trans none
    · cases reading.symm.trans writing

theorem httpDispatcher_agreed (h : Agreed routes c) (alive : c.alive = true)
    (reading : c.client.events = .read) (done : c.parser.state = .done) {io : DispatchIo}
    (settles : Settles routes io c) : Agreed routes (httpDispatcher routes io c) := by
  unfold httpDispatcher concludeStatic bestHandler
  unfold Settles at settles
  dsimp only
  cases target : routes c.parser.req with
  | some route =>
    rw [target] at settles
    exact proxy_agreed h alive reading done target settles _
  | none =>
    rw [target] at settles
    have answered := static_agreed h alive reading done target settles.1 settles.2
    simpa using answered

theorem readable_agreed (h : Agreed routes c) (alive : c.alive = true)
    (reading : c.client.events = .read) {data : Bytes} {io : DispatchIo}
    (plain : Plain routes c (.readable data io)) : Agreed routes (onData routes data io c) := by
  unfold onData
  split
  · exact handleExchange_agreed h fun x => (bodyData_download data io.bodyWrite x).toSameFraming
  have fed := (h.serving alive).fed reading data
  have settles : 0 < (httpParserFeed .default c.parser data).2 →
      Settles routes io (setParser (httpParserFeed .default c.parser data).1 c) := plain
  generalize httpParserFeed .default c.parser data = feed at fed settles
  obtain ⟨q, res⟩ := feed
  dsimp only at fed settles ⊢
  cases fed with
  | failed =>
    rw [if_pos (by decide)]
    exact .gone h.verdicts (connDel_alive _)
  | waiting serving =>
    rw [if_neg (by decide), if_pos rfl]
    exact ⟨h.verdicts, fun _ => serving⟩
  | complete done serving =>
    rw [if_neg (by decide), if_neg (by decide), if_neg (by decide)]
    have served : Agreed routes (setParser q c) := ⟨h.verdicts, fun _ => serving⟩
    exact httpDispatcher_agreed served alive reading done (settles (by decide))

/-- A body that is sent on was announced with the end of the connection. -/
theorem resumeSend_agreed (h : Agreed routes c) (closing : Closing routes c)
    (idle : c.exchange = none) (inactive : c.proxyActive = false) {io : SendIo}
    (sends : Sends io c.client) : Agreed routes (resumeSend io c) := by
  have outcome := resumeSend_outcome closing.transfer sends
    fun keep => absurd (closing.close.symm.trans keep) Bool.false_ne_true
  have running : (c.client.sendingBody && decide (c.client.owed ≠ 0)) = true := by
    rw [closing.transfer.sending, Bool.true_and]
    exact decide_eq_true closing.transfer.unsent
  have sent := agreed_sent (c := { c with client := StaticDescriptors.resumeSend io c.client })
    h.verdicts idle inactive closing.static closing.done
    (closing.advertised.trans (congrArg some closing.close.symm)) outcome
  unfold resumeSend
  dsimp only
  rw [running, Bool.true_and]
  exact sent

theorem writable_agreed (h : Agreed routes c) (alive : c.alive = true) {cw : WriteResult}
    {io : SendIo} (plain : Plain routes c (.writable cw io)) :
    Agreed routes (myOnWrite cw io c) := by
  unfold myOnWrite
  split
  · exact handleExchange_agreed h (clientWritable_framing cw)
  rename_i inactive
  rw [Bool.not_eq_true] at inactive
  split
  · rename_i writing
    have serving := h.serving alive
    have closing := serving.sends writing
    exact resumeSend_agreed h closing (serving.static closing.static).1 inactive
      (plain inactive writing)
  · exact h

/-- What a response says of the connection is what becomes of it. -/
theorem agreed_step (c : Conn) (e : Event) (h : Agreed routes c) (plain : Plain routes c e) :
    Agreed routes (step routes c e) := by
  cases e with
  | readable data io =>
    rw [step]
    split
    · rename_i ready
      exact readable_agreed h ready.1 ready.2 plain
    · exact h
  | hangup => exact h.connDel
  | writable cw io =>
    rw [step]
    split
    · rename_i alive
      exact writable_agreed h alive plain
    · exact h
  | upstreamWritable soerr r =>
    exact handleExchange_agreed h fun x => (upstreamWrite_download soerr r x).toSameFraming
  | upstreamReadable r cw => exact upstreamRead_agreed h plain

/-- When a response is over, the connection is open for another request if and only if the last
header block said so. -/
theorem advertised_is_applied (routes : HttpRequest → Option Route) (fd : Nat) (tls : Bool)
    (es : List Event) (plain : Guarded (step routes) (Plain routes) (connAdd fd tls) es) :
    ∀ v ∈ (run (step routes) (connAdd fd tls) es).verdicts, Applied v :=
  (run_invariant agreed_step (agreed_connAdd fd tls) plain).verdicts

def get : Bytes := ascii "GET / HTTP/1.1\r\n\r\n"

/-- The page is found, and an upstream is connected at once. -/
def dispatch (send : SendIo) : DispatchIo :=
  ⟨⟨some StaticDescriptors.page, true, true, none, true, true, send⟩, some (7, true), noClient, 0,
    .again⟩

def answer : Bytes := ascii "HTTP/1.1 200 OK\r\nContent-Length: 2\r\n\r\nok"

def proxiedAnswer : List Event :=
  [.readable get (dispatch ⟨0, .failed⟩), .upstreamWritable false (.wrote 1000),
    .upstreamReadable (.data answer) (.wrote 1000)]

theorem advertised_is_applied_sample :
    (run (step fun _ => some sampleRoute) (connAdd 5 false) proxiedAnswer).verdicts =
        [(some true, .kept)] ∧
      ∀ v ∈ (run (step fun _ => some sampleRoute) (connAdd 5 false) proxiedAnswer).verdicts,
        Applied v := by
  refine ⟨by decide +kernel, advertised_is_applied (fun _ => some sampleRoute) 5 false proxiedAnswer
    ⟨fun _ none => absurd none (Option.some_ne_none _), trivial, fun x block live raw => ?_,
      trivial⟩⟩
  have sent : (run (step fun _ => some sampleRoute) (connAdd 5 false)
      (proxiedAnswer.take 2)).exchange.bind (relayedHead ⟨true, true⟩ answer) =
        some (.rewritten true) := by decide +kernel
  have exchange : (run (step fun _ => some sampleRoute) (connAdd 5 false)
      (proxiedAnswer.take 2)).exchange = some x := live
  have rewritten : relayedHead ⟨true, true⟩ answer x = some (.rewritten true) := by
    rwa [exchange] at sent
  cases rewritten.symm.trans raw

/-- A file is sent in two parts. -/
def twoSends : List Event :=
  [.readable get (dispatch ⟨0, .wrote 10⟩), .writable .again ⟨0, .wrote 90⟩]

theorem kept_alive_and_closed :
    ¬ ∀ (routes : HttpRequest → Option Route) (fd : Nat) (tls : Bool) (es : List Event),
      ∀ v ∈ (run (step routes) (connAdd fd tls) es).verdicts, Applied v := by
  intro applied
  have closed : (some true, .closed) ∈
      (run (step fun _ => none) (connAdd 5 false) twoSends).verdicts := by decide +kernel
  rcases applied (fun _ => none) 5 false twoSends _ closed with kept | told
  · cases kept
  · cases told

def closeRange : Bytes :=
  ascii "GET / HTTP/1.1\r\nRange: bytes=0-2\r\nConnection: close\r\n\r\n"

/-- Six bytes of which three are asked for. -/
def six : StaticIo :=
  ⟨some ⟨6, ascii "image/png", by decide⟩, true, true, none, true, true, ⟨6, .wrote 6⟩⟩

-- with TLS the whole buffer goes out, `send_remaining` wraps, and nothing closes the connection
example : (run (step fun _ => none) (connAdd 5 true)
    [.readable closeRange ⟨six, none, noClient, 0, .again⟩, .writable .again ⟨0, .again⟩]).verdicts =
      [(some false, .stuck)] := by decide +kernel

end AdvertisedPersistence
