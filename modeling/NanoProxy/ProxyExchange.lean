import NanoProxy.ResponseHead
import NanoProxy.Lib.Runs

/-!
# One proxied exchange (include/request.h)

A `proxy_state_t` together with what went over its two connections. The handlers of the
proxy act on it; the result of every system call is part of the event. `ended` says that
the handler has called `proxy_cleanup`, after which the state is gone and later events
find nothing to act on.
-/

namespace ProxyExchange

open CLib HttpRequestParser OutboundRequest ResponseHead

/-- The result of sending a buffer that is not empty. -/
inductive WriteResult where
  | wrote (n : Nat)
  | again
  | pipe
  | failed
  deriving DecidableEq

/-- How many of `len` bytes `write` has taken; any other error than EAGAIN is fatal. -/
def WriteResult.taken (len : Nat) : WriteResult → Option Nat
  | .wrote n => some (min (max n 1) len)
  | .again => some 0
  | .pipe => none
  | .failed => none

theorem WriteResult.taken_le {len n : Nat} {r : WriteResult} (h : r.taken len = some n) :
    n ≤ len := by
  cases r with
  | wrote k =>
    rw [taken, Option.some.injEq] at h
    omega
  | again =>
    rw [taken, Option.some.injEq] at h
    omega
  | pipe => cases h
  | failed => cases h

/-- `socket_write`, with the test for EAGAIN that follows every call of it here. -/
def socketWrite (known : Bool) (len : Nat) (r : WriteResult) : Option Nat :=
  if !known || len = 0 then some 0
  else match r with
    | .pipe => some 0
    | r => r.taken len

theorem socketWrite_le {known : Bool} {len n : Nat} {r : WriteResult}
    (h : socketWrite known len r = some n) : n ≤ len := by
  unfold socketWrite at h
  split at h
  · cases h
    exact Nat.zero_le _
  split at h
  · cases h
    exact Nat.zero_le _
  · exact WriteResult.taken_le h

theorem socketWrite_none {known : Bool} {len : Nat} {r : WriteResult}
    (h : socketWrite known len r = none) : len ≠ 0 := by
  rintro rfl
  simp [socketWrite] at h

inductive ReadResult where
  | data (buf : Bytes)
  | again
  | eof
  | failed
  deriving DecidableEq

/-- What a descriptor is registered for. -/
structure Interest where
  read : Bool
  write : Bool
  deriving DecidableEq

/-- The client of an exchange: `get_conn(client_fd) >= 0`, and what
`http_should_keep_alive` says of its request. -/
structure ClientSide where
  known : Bool
  keepAlive : Bool
  deriving DecidableEq

structure ProxyState where
  upstreamFd : Nat
  connected : Bool
  upstreamHost : Bytes
  upstreamPort : Nat
  pending : Option Bytes
  pendingSent : Nat
  downstreamBuf : Option Bytes
  downstreamSent : Nat
  clientPaused : Bool
  upstreamPaused : Bool
  bodyRemaining : Nat
  bodyComplete : Bool
  bodyChunked : Bool
  isWebsocket : Bool
  connectStart : Int
  proxyTimeout : Int
  keepaliveEnabled : Bool
  keepalivePoolSize : Int
  keepaliveIdleTimeout : Int
  reusedConn : Bool
  respHeadersDone : Bool
  respHeaderBuf : Option Bytes
  respContentLength : Int
  respChunked : Bool
  respConnClose : Bool
  respBodyRelayed : Nat
  respPoolable : Bool

/-- The state of an exchange, the registrations of its descriptors, and the record of
what was written to the upstream, read from it and written to the client. -/
structure Exchange where
  ps : ProxyState
  ended : Bool
  upstreamInterest : Option Interest
  clientInterest : Option Interest
  toUpstream : Bytes
  fromUpstream : Bytes
  toClient : Bytes

/-- `pending[pending_sent..pending_len)` -/
def ProxyState.unsent (ps : ProxyState) : Bytes := (ps.pending.getD []).drop ps.pendingSent

/-- `downstream_buf[downstream_sent..downstream_len)` -/
def ProxyState.undelivered (ps : ProxyState) : Bytes :=
  (ps.downstreamBuf.getD []).drop ps.downstreamSent

/-- The location of a proxy route. -/
structure Route where
  upstream : Upstream
  keepalivePoolSize : Int
  keepaliveIdleTimeout : Int
  proxyTimeout : Int

def sampleRoute : Route := ⟨sampleUpstream, 8, 30, 5⟩

/-- What `proxy_handler` stores once it has an upstream connection. -/
def proxyState (p : HttpParser) (route : Route) (cd : Client) (upstreamFd : Nat)
    (reusedConn : Bool) (now : Int) : ProxyState where
  upstreamFd := upstreamFd
  connected := reusedConn
  upstreamHost := route.upstream.host
  upstreamPort := route.upstream.port
  pending := some (outboundRequest p route.upstream cd).data
  pendingSent := 0
  downstreamBuf := none
  downstreamSent := 0
  clientPaused := false
  upstreamPaused := false
  bodyRemaining := p.contentLength
  bodyComplete := !(0 < p.contentLength || p.chunked)
  bodyChunked := p.chunked
  isWebsocket := isWebsocket p.req
  connectStart := now
  proxyTimeout := route.proxyTimeout
  keepaliveEnabled := route.upstream.keepaliveEnabled
  keepalivePoolSize := route.keepalivePoolSize
  keepaliveIdleTimeout := route.keepaliveIdleTimeout
  reusedConn := reusedConn
  respHeadersDone := false
  respHeaderBuf := none
  respContentLength := -1
  respChunked := false
  respConnClose := false
  respBodyRelayed := 0
  respPoolable := false

def proxyStart (p : HttpParser) (route : Route) (cd : Client) (upstreamFd : Nat)
    (reusedConn : Bool) (now : Int) : Exchange where
  ps := proxyState p route cd upstreamFd reusedConn now
  ended := false
  upstreamInterest := some ⟨true, true⟩
  clientInterest := some ⟨true, false⟩
  toUpstream := []
  fromUpstream := []
  toClient := []

/-- `GET / HTTP/1.1`, parsed. -/
def getParser (fd : Nat) : HttpParser := { httpParserInit fd with
  state := .done
  req := { HttpRequest.empty with
    method := some (ascii "GET"), uri := some (ascii "/"), version := some (ascii "HTTP/1.1") } }

def sampleStart : Exchange := proxyStart (getParser 4) sampleRoute sampleClient 9 false 0

/-- The call of `proxy_cleanup` at the end of a handler. -/
def cleanup (x : Exchange) : Exchange := { x with ended := true }

/-- The end of `proxy_on_upstream_write` when nothing is left to send. -/
def upstreamDrained (x : Exchange) : Exchange :=
  let x := if x.ps.clientPaused then
      { x with ps := { x.ps with clientPaused := false }, clientInterest := some ⟨true, false⟩ }
    else x
  { x with upstreamInterest := some ⟨true, false⟩ }

/-- `soerr` is the pending error of a connection that is not established yet. -/
def proxyOnUpstreamWrite (soerr : Bool) (r : WriteResult) (x : Exchange) : Exchange :=
  if !x.ps.connected && soerr then cleanup x else
  let x := { x with ps := { x.ps with connected := true } }
  let unsent := x.ps.unsent
  if unsent = [] then upstreamDrained x else
  match r.taken unsent.length with
  | none => cleanup x
  | some n =>
    let x := { x with toUpstream := x.toUpstream ++ unsent.take n }
    if n = unsent.length then
      upstreamDrained { x with ps := { x.ps with pending := none, pendingSent := 0 } }
    else { x with ps := { x.ps with pendingSent := x.ps.pendingSent + n } }

/-- The countdown of a Content-Length body. -/
def countBody (n : Nat) (ps : ProxyState) : ProxyState :=
  if !ps.isWebsocket ∧ 0 < ps.bodyRemaining ∧ 0 < n then
    let left := usub ps.bodyRemaining n
    { ps with bodyRemaining := left, bodyComplete := ps.bodyComplete || left = 0 }
  else ps

def proxyOnBodyData (data : Bytes) (r : WriteResult) (x : Exchange) : Exchange :=
  if !x.ps.connected ∨ x.ps.unsent ≠ [] then
    { x with ps := { x.ps with pending := some (x.ps.pending.getD [] ++ data) } }
  else match r.taken data.length with
    | none => cleanup x
    | some n =>
      let x := { x with ps := countBody n x.ps, toUpstream := x.toUpstream ++ data.take n }
      if n < data.length then
        { x with
          ps := { x.ps with pending := some (data.drop n), pendingSent := 0, clientPaused := true }
          clientInterest := some ⟨false, false⟩
          upstreamInterest := some ⟨true, true⟩ }
      else x

/-- The client has taken `n` bytes; a rest is buffered and pauses the upstream. -/
def deliver (data : Bytes) (n : Nat) (x : Exchange) : Exchange :=
  let x := { x with toClient := x.toClient ++ data.take n }
  if n < data.length then
    { x with
      ps := { x.ps with
        downstreamBuf := some (data.drop n), downstreamSent := 0, upstreamPaused := true }
      upstreamInterest := none
      clientInterest := some ⟨true, true⟩ }
  else x

def writeOrBuffer (cd : ClientSide) (data : Bytes) (w : WriteResult) (x : Exchange) : Exchange :=
  match socketWrite cd.known data.length w with
  | none => cleanup x
  | some n => deliver data n x

def countRelayed (n : Nat) (x : Exchange) : Exchange :=
  { x with ps := { x.ps with respBodyRelayed := x.ps.respBodyRelayed + n } }

/-- The end of the exchange by counted bytes. -/
def endWhenComplete (x : Exchange) : Exchange :=
  if 0 ≤ x.ps.respContentLength ∧ x.ps.respContentLength ≤ x.ps.respBodyRelayed
    then cleanup x else x

/-- `n` of the bytes in `data` belong to the body. -/
def relay (cd : ClientSide) (data : Bytes) (n : Nat) (w : WriteResult) (x : Exchange) : Exchange :=
  let x := writeOrBuffer cd data w x
  if x.ended then x else endWhenComplete (countRelayed n x)

/-- `keepalive_enabled` holds here. -/
def poolable (block : Bytes) : Bool :=
  !isChunked block && decide (0 ≤ contentLength block) && !connClose block

/-- What the state keeps of the headers. -/
def frameResponse (block : Bytes) (x : Exchange) : Exchange :=
  { x with ps := { x.ps with
    respContentLength := contentLength block
    respChunked := isChunked block
    respConnClose := connClose block
    respPoolable := x.ps.keepaliveEnabled && poolable block
    respHeadersDone := true
    respHeaderBuf := none } }

/-- The header block is complete: it goes to the client rewritten, with the body bytes
that came along. -/
def relayHead (cd : ClientSide) (block body : Bytes) (w : WriteResult) (x : Exchange) : Exchange :=
  let x := frameResponse block x
  let finalKa := x.ps.respPoolable && (cd.known && cd.keepAlive)
  relay cd (rewriteHead block finalKa ++ body) body.length w x

/-- Headers too long to be framed are passed on as they are; the result of the write is
not looked at. -/
def giveUpFraming (cd : ClientSide) (buf : Bytes) (w : WriteResult) (x : Exchange) : Exchange :=
  { x with
    ps := { x.ps with respHeadersDone := true, respPoolable := false, respHeaderBuf := none }
    toClient := x.toClient ++ buf.take ((socketWrite cd.known buf.length w).getD 0) }

def proxyRelayUpstreamKeepalive (cd : ClientSide) (buf : Bytes) (w : WriteResult)
    (x : Exchange) : Exchange :=
  if x.ps.respHeadersDone then relay cd buf buf.length w x else
  let grown := x.ps.respHeaderBuf.getD [] ++ buf
  match headerBlockLen grown with
  | some n => relayHead cd (grown.take n) (grown.drop n) w x
  | none =>
    if 16384 < grown.length then giveUpFraming cd grown w x
    else { x with ps := { x.ps with respHeaderBuf := some grown } }

def receive (buf : Bytes) (x : Exchange) : Exchange :=
  { x with fromUpstream := x.fromUpstream ++ buf }

def proxyOnUpstreamRead (cd : ClientSide) (r : ReadResult) (w : WriteResult)
    (x : Exchange) : Exchange :=
  match r with
  | .again => x
  | .eof => cleanup x
  | .failed => cleanup x
  | .data buf =>
    let x := receive buf x
    if x.ps.keepaliveEnabled then proxyRelayUpstreamKeepalive cd buf w x
    else writeOrBuffer cd buf w x

/-- `my_on_write` calls this for connections of the table only. -/
def proxyOnClientWritable (w : WriteResult) (x : Exchange) : Exchange :=
  let waiting := x.ps.undelivered
  if waiting = [] then { x with clientInterest := some ⟨true, false⟩ } else
  match socketWrite true waiting.length w with
  | none => cleanup x
  | some n =>
    let x := { x with toClient := x.toClient ++ waiting.take n }
    if n = waiting.length then
      let x := { x with ps := { x.ps with downstreamBuf := none, downstreamSent := 0 } }
      let x := if x.ps.upstreamPaused then
          { x with
            ps := { x.ps with upstreamPaused := false }
            upstreamInterest := some ⟨true, false⟩ }
        else x
      { x with clientInterest := some ⟨true, false⟩ }
    else { x with ps := { x.ps with downstreamSent := x.ps.downstreamSent + n } }

inductive Event where
  | upstreamWritable (soerr : Bool) (r : WriteResult)
  | bodyData (data : Bytes) (r : WriteResult)
  | upstreamReadable (cd : ClientSide) (r : ReadResult) (w : WriteResult)
  | clientWritable (w : WriteResult)
  deriving DecidableEq

def handle (x : Exchange) : Event → Exchange
  | .upstreamWritable soerr r => proxyOnUpstreamWrite soerr r x
  | .bodyData data r => proxyOnBodyData data r x
  | .upstreamReadable cd r w => proxyOnUpstreamRead cd r w x
  | .clientWritable w => proxyOnClientWritable w x

def step (x : Exchange) (e : Event) : Exchange := if x.ended then x else handle x e

variable {x : Exchange} {e : Event}

theorem step_live (live : x.ended = false) (e : Event) : step x e = handle x e := by
  rw [step, live, if_neg Bool.false_ne_true]

theorem step_ended (ended : x.ended = true) (e : Event) : step x e = x := by
  rw [step, ended, if_pos rfl]

theorem step_cases {P : Exchange → Prop} (idle : P x) (handled : P (handle x e)) :
    P (step x e) := by
  unfold step
  split
  · exact idle
  · exact handled

theorem run_ended (ended : x.ended = true) (es : List Event) : Runs.run step x es = x := by
  induction es with
  | nil => rfl
  | cons e es ih =>
    change Runs.run step (step x e) es = x
    rw [step_ended ended, ih]

/-- What every step keeps that does not end the exchange holds until the exchange ends. -/
theorem run_live {inv : Exchange → Prop} {ok : Exchange → Event → Prop}
    (keep : ∀ x e, inv x → x.ended = false → ok x e → (step x e).ended = false → inv (step x e))
    {es : List Event} (initial : x.ended = false → inv x) (guarded : Runs.Guarded step ok x es) :
    (Runs.run step x es).ended = false → inv (Runs.run step x es) := by
  refine @Runs.run_invariant _ _ _ _ (fun x => x.ended = false → inv x) ?_ _ _ initial guarded
  intro x e kept admitted goes
  cases live : x.ended with
  | false => exact keep x e (kept live) live admitted goes
  | true =>
    rw [step_ended live, live] at goes
    cases goes

end ProxyExchange
