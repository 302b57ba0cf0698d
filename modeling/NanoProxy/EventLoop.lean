import NanoProxy.KeepalivePool
import NanoProxy.ForwardRelay
import NanoProxy.ResponseFraming
import Mathlib.Logic.Function.Basic

/-!
# The event loop (include/socket_server.h, include/request.h)

The connection table, the proxy and forward tables and the pool, all keyed by raw
descriptor numbers, over the kernel's descriptor table. Every event carries the results
of the system calls that its handlers make. The loop is modelled without TLS and without
UDP listeners.

A few fields record what happened and influence nothing: which connection a descriptor
stands for (`conn`, `role`), where the parser of a connection was last reset (`start`), since
when it has waited for a request (`waitingSince`), and the lists at the end of `World`.
-/

namespace EventLoop

open CLib HttpRequestParser OutboundRequest ProxyExchange KeepalivePool ForwardRelay
open Function

def NUM_CLIENTS : Nat := 10000
def CHUNK_SIZE : Nat := 65536

abbrev Fd := Nat

/-- What the server uses an open descriptor for. -/
inductive Role where
  | client
  | upstream (client : Fd)
  | idle
  | forward (client : Fd)
  deriving DecidableEq

/-- An open descriptor: the client connection that it is, or on behalf of which it was
opened or taken from the pool, and the bytes that have arrived on it. -/
structure Socket where
  conn : Nat
  role : Role
  inbox : Bytes

structure ClientData where
  fd : Fd
  conn : Nat
  isHttp : Bool
  info : Client
  parser : HttpParser
  bytesRead : Nat
  start : Nat
  /-- `ip_key` of `peer_addr`, empty for an address that is not IP -/
  peerIp : Bytes
  acceptTime : Int
  lastActivity : Int
  waitingSince : Int
  sendingBody : Bool
  sendRemaining : Nat
  proxyActive : Bool
  proxyStreaming : Bool
  forwardActive : Bool

structure World where
  now : Int
  sockets : Fd → Option Socket
  nextConn : Nat
  clients : Nat → ClientData
  fdToIndex : Fd → Option Nat
  ipConnCounts : Bytes → Nat
  proxyStates : Fd → Option Exchange
  upstreamFdToClient : Fd → Option Fd
  keepalivePools : Pools
  forwardStates : Fd → Option ForwardState
  forwardUpstreamMap : Fd → Option Fd
  /-- for every exchange, the connections on whose behalf its bytes were read -/
  sources : Fd → List Nat
  /-- for every write of response bytes, on whose behalf they were read and who got them -/
  delivered : List (Nat × Nat)
  /-- for every call of `http_dispatcher`, the connection and the place of the request in
  its stream -/
  dispatched : List (Nat × Nat)
  /-- the exchanges whose upstream connection went to `keepalive_pool_put` -/
  pooled : List Exchange
  /-- the unread bytes of every connection that was reused -/
  reused : List Bytes

def noClient : Client := ⟨[], false, by decide, by simp⟩

def ClientData.free : ClientData where
  fd := 0
  conn := 0
  isHttp := false
  info := noClient
  parser := httpParserInit 0
  bytesRead := 0
  start := 0
  peerIp := []
  acceptTime := 0
  lastActivity := 0
  waitingSince := 0
  sendingBody := false
  sendRemaining := 0
  proxyActive := false
  proxyStreaming := false
  forwardActive := false

/-- The loop before its first event. -/
def World.init : World where
  now := 0
  sockets := fun _ => none
  nextConn := 1
  clients := fun _ => .free
  fdToIndex := fun _ => none
  ipConnCounts := fun _ => 0
  proxyStates := fun _ => none
  upstreamFdToClient := fun _ => none
  keepalivePools := []
  forwardStates := fun _ => none
  forwardUpstreamMap := fun _ => none
  sources := fun _ => []
  delivered := []
  dispatched := []
  pooled := []
  reused := []

def connAt (w : World) (fd : Fd) : Nat :=
  match w.sockets fd with
  | some s => s.conn
  | none => 0

def inboxAt (w : World) (fd : Fd) : Bytes :=
  match w.sockets fd with
  | some s => s.inbox
  | none => []

def openFd (fd : Fd) (s : Socket) (w : World) : World :=
  { w with sockets := update w.sockets fd (some s) }

def closeFd (fd : Fd) (w : World) : World := { w with sockets := update w.sockets fd none }

def closeFds (fds : List Fd) (w : World) : World := fds.foldl (fun w fd => closeFd fd w) w

def setClient (i : Nat) (cd : ClientData) (w : World) : World :=
  { w with clients := update w.clients i cd }

/-- The first free slot among the `n` slots from `i` on. -/
def freeSlot (w : World) : Nat → Nat → Option Nat
  | 0, _ => none
  | n + 1, i => if (w.clients i).fd = 0 then some i else freeSlot w n (i + 1)

/-- `conn_add` fills the slot `i`; `proxy_active`, `proxy_streaming` and `forward_active` stay
as they are. -/
def register (fd : Fd) (i : Nat) (w : World) : World :=
  let cd := { w.clients i with
    fd := fd
    conn := connAt w fd
    isHttp := false
    info := noClient
    parser := httpParserInit 0
    bytesRead := 0
    start := 0
    peerIp := []
    acceptTime := w.now
    lastActivity := w.now
    waitingSince := w.now
    sendingBody := false
    sendRemaining := 0 }
  { setClient i cd w with fdToIndex := update w.fdToIndex fd (some i) }

def connAdd (fd : Fd) (w : World) : Option World :=
  if fd < 1 then none else
  match freeSlot w NUM_CLIENTS 0 with
  | none => none
  | some i => some (register fd i w)

/-- The counter of an address, `shdel` being the default of 0. -/
def releaseIp (ip : Bytes) (counts : Bytes → Nat) : Bytes → Nat :=
  if ip = [] then counts else update counts ip (counts ip - 1)

/-- `conn_del`, with `cleanup_send_state`. -/
def connDel (fd : Fd) (w : World) : World :=
  if fd < 1 then w else
  match w.fdToIndex fd with
  | none => w
  | some i =>
    let cd := { w.clients i with fd := 0, sendingBody := false, sendRemaining := 0 }
    closeFd fd { setClient i cd w with
      fdToIndex := update w.fdToIndex fd none
      ipConnCounts := releaseIp (w.clients i).peerIp w.ipConnCounts }

/-- The connection waits for its next request, unless it is sending a body or has yet to send
the first one. -/
def resetParser (i : Nat) (w : World) : World :=
  let cd := w.clients i
  setClient i { cd with
    parser := httpParserReset cd.parser
    start := cd.bytesRead
    waitingSince := if cd.bytesRead = 0 ∨ (cd.sendingBody ∧ cd.sendRemaining ≠ 0)
      then cd.waitingSince else w.now } w

def clientSide (w : World) (c : Fd) : ClientSide :=
  match w.fdToIndex c with
  | some i => ⟨true, httpShouldKeepAlive (w.clients i).parser.req⟩
  | none => ⟨false, false⟩

/-- `proxy_cleanup` takes the exchange out of the tables. -/
def forgetExchange (c : Fd) (x : Exchange) (w : World) : World :=
  { w with
    upstreamFdToClient := update w.upstreamFdToClient x.ps.upstreamFd none
    proxyStates := update w.proxyStates c none }

/-- Its upstream connection is pooled or closed. -/
def releaseUpstream (x : Exchange) (w : World) : World :=
  let u := x.ps.upstreamFd
  if x.ps.respPoolable && !x.ps.isWebsocket then
    let (closed, pools) := keepalivePoolPut w.keepalivePools x.ps.upstreamHost x.ps.upstreamPort u
      x.ps.keepalivePoolSize x.ps.keepaliveIdleTimeout w.now
    let w := { w with keepalivePools := pools, pooled := w.pooled ++ [x] }
    closeFds closed (openFd u ⟨0, .idle, inboxAt w u⟩ w)
  else closeFd u w

/-- Its client connection waits for the next request or is closed. -/
def releaseClient (c : Fd) (x : Exchange) (w : World) : World :=
  match w.fdToIndex c with
  | none => w
  | some i =>
    let w := setClient i { w.clients i with
      proxyActive := false, proxyStreaming := false, sendingBody := false } w
    if x.ps.respPoolable && httpShouldKeepAlive (w.clients i).parser.req
      then resetParser i w else connDel c w

/-- `proxy_cleanup` of the exchange `x`. -/
def endExchange (c : Fd) (x : Exchange) (w : World) : World :=
  releaseClient c x (releaseUpstream x (forgetExchange c x w))

def proxyCleanup (c : Fd) (w : World) : World :=
  match w.proxyStates c with
  | none => w
  | some x => endExchange c x w

/-- What a handler of the proxy leaves of an exchange. -/
def storeExchange (c : Fd) (x : Exchange) (w : World) : World :=
  if x.ended then endExchange c x w
  else { w with proxyStates := update w.proxyStates c (some x) }

/-- The record of the response bytes that went to the client between `x` and `y`. -/
def noteDelivery (c : Fd) (x y : Exchange) (w : World) : World :=
  if y.toClient = x.toClient then w
  else { w with delivered := w.delivered ++ (w.sources c).map fun o => (o, connAt w c) }

def proxyOnUpstreamWrite (u : Fd) (soerr : Bool) (r : WriteResult) (w : World) : World :=
  match w.upstreamFdToClient u with
  | none => w
  | some c => match w.proxyStates c with
    | none => w
    | some x => storeExchange c (handle x (.upstreamWritable soerr r)) w

/-- What `read` on an upstream finds besides the bytes that have arrived. -/
inductive ReadChoice where
  | upTo (n : Nat)
  | eof
  | failed
  deriving DecidableEq

/-- `read(fd, buf, CHUNK_SIZE)` -/
def readFd (fd : Fd) (r : ReadChoice) (w : World) : ReadResult × World :=
  match w.sockets fd with
  | none => (.failed, w)
  | some s => match r with
    | .failed => (.failed, w)
    | .eof => if s.inbox = [] then (.eof, w) else
      (.data (s.inbox.take CHUNK_SIZE), openFd fd { s with inbox := s.inbox.drop CHUNK_SIZE } w)
    | .upTo n => if s.inbox = [] then (.again, w) else
      let n := min (max n 1) CHUNK_SIZE
      (.data (s.inbox.take n), openFd fd { s with inbox := s.inbox.drop n } w)

/-- The record of bytes that were read for an exchange. -/
def noteRead (c u : Fd) (r : ReadResult) (w : World) : World :=
  match r with
  | .data _ => { w with sources := update w.sources c (connAt w u :: w.sources c) }
  | _ => w

def proxyOnUpstreamRead (u : Fd) (r : ReadChoice) (cw : WriteResult) (w : World) : World :=
  match w.upstreamFdToClient u with
  | none => w
  | some c => match w.proxyStates c with
    | none => w
    | some x =>
      let (result, w) := readFd u r w
      let w := noteRead c u result w
      let y := handle x (.upstreamReadable (clientSide w c) result cw)
      storeExchange c y (noteDelivery c x y w)

def proxyOnBodyData (c : Fd) (data : Bytes) (r : WriteResult) (w : World) : World :=
  match w.proxyStates c with
  | none => w
  | some x => storeExchange c (handle x (.bodyData data r)) w

def proxyOnClientWritable (c : Fd) (cw : WriteResult) (w : World) : World :=
  match w.proxyStates c with
  | none => w
  | some x =>
    let y := handle x (.clientWritable cw)
    storeExchange c y (noteDelivery c x y w)

/-- How a handler that answers itself leaves its response. -/
inductive Reply where
  | written
  | head
  | sent
  | sending (n : Nat)
  | broken

/-- `route` is what prefix matching and the load balancing of upstream pools select for the
request, if it is proxied. -/
structure DispatchIo where
  route : Option Route
  reply : Reply
  peerClosed : Bool
  connect : Option Fd
  bodyWrite : WriteResult

/-- A pooled connection, unless `MSG_PEEK` finds that the upstream has closed it. -/
def reusePooled (route : Route) (peerClosed : Bool) (w : World) : Option Fd × World :=
  if !route.upstream.keepaliveEnabled then (none, w) else
  match keepalivePoolTake w.keepalivePools route.upstream.host route.upstream.port with
  | (none, _) => (none, w)
  | (some u, pools) =>
    let w := { w with keepalivePools := pools }
    if inboxAt w u = [] ∧ peerClosed then (none, closeFd u w)
    else (some u, { w with reused := w.reused ++ [inboxAt w u] })

/-- A new connection; the kernel gives it a number that is not in use. -/
def connectFresh (connect : Option Fd) (w : World) : Option Fd :=
  match connect with
  | none => none
  | some u => if (w.sockets u).isSome then none else some u

/-- `proxy_handler` once it has the upstream connection. -/
def startExchange (i : Nat) (route : Route) (u : Fd) (reused : Bool) (w : World) : World :=
  let cd := w.clients i
  let x := proxyStart cd.parser route cd.info u reused w.now
  let streaming := cd.parser.state = .body ∨ isWebsocket cd.parser.req
  let w := openFd u ⟨cd.conn, .upstream cd.fd, inboxAt w u⟩ w
  let w := { w with
    proxyStates := update w.proxyStates cd.fd (some x)
    upstreamFdToClient := update w.upstreamFdToClient u (some cd.fd)
    sources := update w.sources cd.fd [] }
  setClient i { cd with
    proxyActive := true
    proxyStreaming := cd.proxyStreaming || streaming
    parser := { cd.parser with streamingBody := cd.parser.streamingBody || streaming }
    sendingBody := true } w

def proxyHandler (i : Nat) (route : Route) (io : DispatchIo) (w : World) : World :=
  match reusePooled route io.peerClosed w with
  | (some u, w) => startExchange i route u true w
  | (none, w) => match connectFresh io.connect w with
    | none => w
    | some u => startExchange i route u false w

/-- The end of a HEAD response. -/
def finishHead (i : Nat) (w : World) : World :=
  if httpShouldKeepAlive (w.clients i).parser.req then resetParser i w
  else connDel (w.clients i).fd w

/-- The end of `resume_send`. -/
def finishSend (i : Nat) (w : World) : World :=
  let w := setClient i { w.clients i with sendingBody := false, sendRemaining := 0 } w
  if httpShouldKeepAlive (w.clients i).parser.req then resetParser i w
  else connDel (w.clients i).fd w

/-- The handlers that answer the request themselves. -/
def contentHandler (i : Nat) (reply : Reply) (w : World) : World :=
  match reply with
  | .written => w
  | .head => finishHead i w
  | .sent => finishSend i w
  | .sending n => setClient i { w.clients i with sendingBody := true, sendRemaining := n } w
  | .broken => connDel (w.clients i).fd w

/-- `best_h` -/
def bestHandler (i : Nat) (io : DispatchIo) (w : World) : World :=
  match io.route with
  | some route => proxyHandler i route io w
  | none => contentHandler i io.reply w

/-- The end of `http_dispatcher`. -/
def persistOrClose (i : Nat) (keepAlive : Bool) (w : World) : World :=
  let cd := w.clients i
  if cd.proxyActive then w
  else if keepAlive then resetParser i w
  else if !cd.sendingBody || cd.sendRemaining = 0 then connDel cd.parser.fd w
  else w

/-- The record of a call of `http_dispatcher`. -/
def noteDispatch (i : Nat) (w : World) : World :=
  { w with dispatched := w.dispatched ++ [((w.clients i).conn, (w.clients i).start)] }

def httpDispatcher (i : Nat) (io : DispatchIo) (w : World) : World :=
  persistOrClose i (httpShouldKeepAlive (w.clients i).parser.req)
    (bestHandler i io (noteDispatch i w))

inductive SendResult where
  | sent (n : Nat)
  | failed
  deriving DecidableEq

def resumeSend (c : Fd) (r : SendResult) (w : World) : World :=
  match w.fdToIndex c with
  | none => w
  | some i =>
    let cd := w.clients i
    if !cd.sendingBody || cd.sendRemaining = 0 then w else
    match r with
    | .failed => connDel cd.fd w
    | .sent n =>
      let left := cd.sendRemaining - min n cd.sendRemaining
      let w := setClient i { cd with sendRemaining := left } w
      if left = 0 then finishSend i w else w

def forwardCleanup (d : Fd) (w : World) : World :=
  match w.forwardStates d with
  | none => w
  | some fs =>
    let w := closeFd fs.upstreamFd w
    let w := { w with
      forwardUpstreamMap := update w.forwardUpstreamMap fs.upstreamFd none
      forwardStates := update w.forwardStates d none }
    match w.fdToIndex d with
    | none => w
    | some i => setClient i { w.clients i with forwardActive := false } w

/-- The descriptor of the upstream comes from `forward_connect`; without one, the client's
descriptor is closed. -/
def forwardOnAccept (c : Fd) (proto : ForwardProto) (connect : Option Fd) (w : World) : World :=
  match connectFresh connect w with
  | none => closeFd c w
  | some u =>
    let w := openFd u ⟨connAt w c, .forward c, []⟩ w
    let w := { w with
      forwardStates := update w.forwardStates c (some (forwardStart proto u))
      forwardUpstreamMap := update w.forwardUpstreamMap u (some c) }
    match w.fdToIndex c with
    | none => w
    | some i => setClient i { w.clients i with forwardActive := true } w

/-- The write part of `forward_on_upstream_event`. -/
def forwardOnUpstreamWrite (u : Fd) (soerr : Bool) (r : WriteResult) (w : World) : World :=
  match w.forwardUpstreamMap u with
  | none => w
  | some d => match w.forwardStates d with
    | none => w
    | some fs => match ForwardRelay.forwardOnUpstreamWrite soerr r fs with
      | none => connDel d (forwardCleanup d w)
      | some fs => { w with forwardStates := update w.forwardStates d (some fs) }

/-- Its read part; every result but data ends the relay. -/
def forwardOnUpstreamRead (u : Fd) (r : ReadChoice) (w : World) : World :=
  match w.forwardUpstreamMap u with
  | none => w
  | some d => match w.forwardStates d with
    | none => w
    | some _ => match readFd u r w with
      | (.data _, w) => w
      | (_, w) => connDel d (forwardCleanup d w)

def forwardOnDownstreamData (d : Fd) (data : Bytes) (r : WriteResult) (w : World) : World :=
  match w.forwardStates d with
  | none => w
  | some fs => match ForwardRelay.forwardOnDownstreamData data r fs with
    | none => forwardCleanup d w
    | some fs => { w with forwardStates := update w.forwardStates d (some fs) }

inductive Listener where
  | http
  | socket
  | forward (proto : ForwardProto)

/-- `ip` is `ip_key` of the peer, `limit` the current `max_connections_per_ip`. -/
structure AcceptIo where
  listener : Listener
  fd : Fd
  info : Client
  ip : Bytes
  limit : Nat
  registered : Bool
  connect : Option Fd

/-- `accept` returns the descriptor `fd`. -/
def accept (fd : Fd) (w : World) : World :=
  { openFd fd ⟨w.nextConn, .client, []⟩ w with nextConn := w.nextConn + 1 }

/-- `ip_key[0] && g_conn_timeouts.max_connections_per_ip > 0` -/
def AcceptIo.limited (io : AcceptIo) : Bool := io.ip != [] && 0 < io.limit

def countIp (io : AcceptIo) (counts : Bytes → Nat) : Bytes → Nat :=
  if io.limited then update counts io.ip (counts io.ip + 1) else counts

/-- The address of a connection is counted and stored. -/
def enroll (io : AcceptIo) (i : Nat) (w : World) : World :=
  setClient i { w.clients i with peerIp := io.ip }
    { w with ipConnCounts := countIp io w.ipConnCounts }

/-- The rest of `my_on_accept`. -/
def attach (io : AcceptIo) (i : Nat) (w : World) : World :=
  let w := match io.listener with
    | .http => setClient i { w.clients i with
        isHttp := true, parser := httpParserInit io.fd, info := io.info } w
    | _ => setClient i { w.clients i with info := io.info } w
  if !io.registered then connDel io.fd w else
  match io.listener with
  | .forward proto => forwardOnAccept io.fd proto io.connect w
  | _ => w

/-- What `my_on_accept` does with a connection that has a slot. -/
def setUpClient (io : AcceptIo) (w : World) : World :=
  if io.limited && io.limit ≤ w.ipConnCounts io.ip then connDel io.fd w else
  match w.fdToIndex io.fd with
  | none => w
  | some i => attach io i (enroll io i w)

/-- `my_on_accept`; `accept` returns a descriptor that is not in use. -/
def myOnAccept (io : AcceptIo) (w : World) : World :=
  if io.fd = 0 ∨ (w.sockets io.fd).isSome then w else
  match connAdd io.fd (accept io.fd w) with
  | none => closeFd io.fd (accept io.fd w)
  | some w => setUpClient io w

/-- `http_parser_drain_body`, and what `my_on_read` does with it. -/
def forwardLeftover (c : Fd) (i : Nat) (r : WriteResult) (w : World) : World :=
  let cd := w.clients i
  if !cd.proxyStreaming then w else
  let leftover := cd.parser.buffer.data.drop cd.parser.pos
  if leftover = [] then w else
  let parser := { cd.parser with pos := cd.parser.buffer.size }
  proxyOnBodyData c leftover r (setClient i { cd with parser := parser } w)

/-- The parser after `http_parser_feed` of `n` bytes. -/
def storeParser (i : Nat) (parser : HttpParser) (n : Nat) (w : World) : World :=
  setClient i { w.clients i with
    parser := parser, bytesRead := (w.clients i).bytesRead + n, lastActivity := w.now } w

/-- `my_on_read` of an HTTP connection that got `data`. -/
def onHttpData (c : Fd) (i : Nat) (data : Bytes) (io : DispatchIo) (w : World) : World :=
  let (parser, res) := httpParserFeed .default (w.clients i).parser data
  let w := storeParser i parser data.length w
  if res < 0 then connDel c w
  else if res = 0 then w
  else if res = 2 then forwardLeftover c i io.bodyWrite (httpDispatcher i io w)
  else httpDispatcher i io w

def countRead (i : Nat) (data : Bytes) (w : World) : World :=
  setClient i { w.clients i with
    bytesRead := (w.clients i).bytesRead + data.length, lastActivity := w.now } w

/-- `my_on_read` that got `data`. -/
def onData (c : Fd) (i : Nat) (data : Bytes) (io : DispatchIo) (w : World) : World :=
  let cd := w.clients i
  if cd.forwardActive then forwardOnDownstreamData c data io.bodyWrite (countRead i data w)
  else if !cd.isHttp then countRead i data w
  else if cd.proxyStreaming then proxyOnBodyData c data io.bodyWrite (countRead i data w)
  else onHttpData c i data io w

/-- No bytes at all are the end of the stream. -/
def myOnRead (c : Fd) (r : ReadResult) (io : DispatchIo) (w : World) : World :=
  match w.fdToIndex c with
  | none => w
  | some i => match r with
    | .again => w
    | .data (b :: rest) => onData c i (b :: rest) io w
    | _ => connDel c (if (w.clients i).forwardActive then forwardCleanup c w else w)

def myOnWrite (c : Fd) (cw : WriteResult) (r : SendResult) (w : World) : World :=
  match w.fdToIndex c with
  | none => w
  | some i =>
    if (w.clients i).forwardActive then w
    else if (w.clients i).proxyActive then proxyOnClientWritable c cw w
    else resumeSend c r w

def connectTimedOut (now : Int) (x : Exchange) : Bool :=
  !x.ps.connected && (0 < x.ps.proxyTimeout && x.ps.proxyTimeout ≤ now - x.ps.connectStart)

/-- One entry that `proxy_timeout_sweep` comes to. -/
def proxyTimeout (w : World) (c : Fd) : World :=
  match w.proxyStates c with
  | none => w
  | some x => if connectTimedOut w.now x then proxyCleanup c w else w

/-- A slot that the clock makes `connection_timeout_sweep` collect. -/
def staleFd (w : World) (i : Nat) : Option Fd :=
  let cd := w.clients i
  if cd.fd = 0 ∨ cd.forwardActive ∨ cd.proxyActive ∨ cd.proxyStreaming then none else some cd.fd

def connectionTimeoutSweep (slots : List Nat) (w : World) : World :=
  (slots.filterMap (staleFd w)).foldl (fun w fd => connDel fd w) w

/-- `keepalive_pool_sweep` -/
def poolSweep (w : World) : World :=
  let (closed, pools) := keepalivePoolSweep w.keepalivePools w.now
  closeFds closed { w with keepalivePools := pools }

/-- `server_timeout_sweep`; `exchanges` are the keys in the order of the table (it looks at
128 at most), `slots` the connections whose time is up. -/
def serverTimeoutSweep (exchanges : List Fd) (slots : List Nat) (w : World) : World :=
  poolSweep (connectionTimeoutSweep slots (exchanges.foldl proxyTimeout w))

inductive Event where
  | accept (io : AcceptIo)
  | clientReadable (c : Fd) (r : ReadResult) (io : DispatchIo)
  | clientWritable (c : Fd) (cw : WriteResult) (r : SendResult)
  | upstreamWritable (u : Fd) (soerr : Bool) (r : WriteResult)
  | upstreamReadable (u : Fd) (r : ReadChoice) (cw : WriteResult)
  | timer (now : Int) (exchanges : List Fd) (slots : List Nat)
  | arrive (u : Fd) (data : Bytes)

/-- One report of `epoll` to `run_event_loop`, or bytes that arrive at the kernel. A
descriptor that is reported readable and writable makes two events: client descriptors are
read first, upstream descriptors written first. -/
def step (w : World) : Event → World
  | .accept io => myOnAccept io w
  | .clientReadable c r io => myOnRead c r io w
  | .clientWritable c cw r => myOnWrite c cw r w
  | .upstreamWritable u soerr r =>
    if w.fdToIndex u = none
      then proxyOnUpstreamWrite u soerr r (forwardOnUpstreamWrite u soerr r w) else w
  | .upstreamReadable u r cw =>
    if w.fdToIndex u = none
      then proxyOnUpstreamRead u r cw (forwardOnUpstreamRead u r w) else w
  | .timer now exchanges slots => serverTimeoutSweep exchanges slots { w with now := now }
  | .arrive u data => match w.sockets u with
    | none => w
    | some s => openFd u { s with inbox := s.inbox ++ data } w

/-- A client of an HTTP listener whose address is not known. -/
def httpClient (fd : Fd) : AcceptIo := ⟨.http, fd, noClient, [], 0, true, none⟩

/-- A request whose handler answers it with one write. -/
def answeredIo : DispatchIo := ⟨none, .written, false, none, .again⟩

/-- A request that is proxied, on a pooled connection or on the new one `connect`. -/
def proxiedIo (connect : Option Fd) : DispatchIo :=
  ⟨some sampleRoute, .written, false, connect, .again⟩

end EventLoop
