import NanoProxy.ResponseFraming

/-!
# Upstream to client (include/request.h, include/socket_server.h)

`downstream_buf` holds what the client has not taken of one read, and the next buffered
read overwrites it. What keeps two reads apart is the event set alone: `event_wait` reports
a descriptor at most once, and only for what it is registered for.
-/

namespace DownstreamFifo

open CLib HttpRequestParser OutboundRequest ProxyExchange ExchangeFrames ResponseFraming Runs

/-- An entry of `evlist`. -/
inductive Ready where
  | client (events : Interest)
  | upstream (events : Interest)
  deriving DecidableEq

def Ready.isUpstream : Ready → Bool
  | .client _ => false
  | .upstream _ => true

/-- What the system calls made for one entry of `evlist` return. -/
structure Io where
  clientSide : ClientSide
  recv : ReadResult
  bodyWrite : WriteResult
  soerr : Bool
  pendingWrite : WriteResult
  read : ReadResult
  clientWrite : WriteResult
  drain : WriteResult

structure Loop where
  exchange : Exchange
  evlist : List Ready

/-- `proxy_on_upstream_event` -/
def proxyOnUpstreamEvent (events : Interest) (io : Io) (x : Exchange) : Exchange :=
  let x := if events.write then step x (.upstreamWritable io.soerr io.pendingWrite) else x
  if events.read then step x (.upstreamReadable io.clientSide io.read io.clientWrite) else x

/-- `my_on_read` of a streaming client; `conn_del` takes it out of the event set. -/
def myOnRead (io : Io) (x : Exchange) : Exchange :=
  match io.recv with
  | .data data => step x (.bodyData data io.bodyWrite)
  | .again => x
  | .eof => { x with clientInterest := none }
  | .failed => { x with clientInterest := none }

/-- `my_on_write` -/
def myOnWrite (io : Io) (x : Exchange) : Exchange :=
  if x.clientInterest = none then x else step x (.clientWritable io.drain)

def dispatch (io : Io) (x : Exchange) : Ready → Exchange
  | .upstream events => proxyOnUpstreamEvent events io x
  | .client events =>
    let x := if events.read then myOnRead io x else x
    if events.write then myOnWrite io x else x

inductive LoopEvent where
  | wait (evlist : List Ready)
  | next (io : Io)

/-- `run_event_loop` waits once it is through with its list. -/
def loopStep (l : Loop) : LoopEvent → Loop
  | .wait evlist => if l.evlist = [] then { l with evlist := evlist } else l
  | .next io =>
    match l.evlist with
    | [] => l
    | ready :: rest => ⟨dispatch io l.exchange ready, rest⟩

/-- A fresh exchange, with the body data that came along with the request. -/
def opened (p : HttpParser) (route : Route) (cd : Client) (upstreamFd : Nat) (reusedConn : Bool)
    (now : Int) (leftover : Bytes) (r : WriteResult) : Loop :=
  let x := proxyStart p route cd upstreamFd reusedConn now
  ⟨if leftover = [] then x else step x (.bodyData leftover r), []⟩

def covers (registered : Option Interest) (events : Interest) : Bool :=
  match registered with
  | none => false
  | some i => (!events.read || i.read) && (!events.write || i.write)

def Registered (x : Exchange) : Ready → Prop
  | .client events => covers x.clientInterest events = true
  | .upstream events => covers x.upstreamInterest events = true

instance decidableRegistered (x : Exchange) : ∀ ready, Decidable (Registered x ready)
  | .client events => inferInstanceAs (Decidable (covers x.clientInterest events = true))
  | .upstream events => inferInstanceAs (Decidable (covers x.upstreamInterest events = true))

/-- What `event_wait` reports. -/
def Polled (x : Exchange) (evlist : List Ready) : Prop :=
  (evlist.map Ready.isUpstream).Nodup ∧ ∀ ready ∈ evlist, Registered x ready

/-- The client takes what is written to it, now or later. -/
def ClientStays (io : Io) : Prop := io.clientWrite ≠ .failed ∧ io.drain ≠ .failed

/-- The client stays connected and sends nothing. -/
def Silent (l : Loop) : LoopEvent → Prop
  | .wait evlist => Polled l.exchange evlist
  | .next io => ClientStays io ∧ io.recv = .again

/-- The client stays connected. -/
def Open (l : Loop) : LoopEvent → Prop
  | .wait evlist => Polled l.exchange evlist
  | .next io => ClientStays io

instance decidableSilent (l : Loop) : ∀ e, Decidable (Silent l e)
  | .wait evlist => inferInstanceAs (Decidable
      ((evlist.map Ready.isUpstream).Nodup ∧ ∀ ready ∈ evlist, Registered l.exchange ready))
  | .next io => inferInstanceAs (Decidable
      ((io.clientWrite ≠ .failed ∧ io.drain ≠ .failed) ∧ io.recv = .again))

/-- Data of the client goes to the upstream directly, and not all of it. -/
def cutShort (l : Loop) (io : Io) : Bool :=
  match l.evlist, io.recv with
  | .client events :: _, .data data => events.read && l.exchange.ps.connected &&
      decide (l.exchange.ps.unsent = []) &&
      (io.bodyWrite.taken data.length).any (fun n => n < data.length)
  | _, _ => false

/-- No data of the client is cut short while a part of the response waits for it. -/
def Unhurried (l : Loop) : LoopEvent → Prop
  | .wait evlist => Polled l.exchange evlist
  | .next io => ClientStays io ∧ (l.exchange.ps.undelivered ≠ [] → cutShort l io = false)

instance decidableOpen (l : Loop) : ∀ e, Decidable (Open l e)
  | .wait evlist => inferInstanceAs (Decidable
      ((evlist.map Ready.isUpstream).Nodup ∧ ∀ ready ∈ evlist, Registered l.exchange ready))
  | .next io => inferInstanceAs (Decidable (io.clientWrite ≠ .failed ∧ io.drain ≠ .failed))

instance decidableUnhurried (l : Loop) : ∀ e, Decidable (Unhurried l e)
  | .wait evlist => inferInstanceAs (Decidable
      ((evlist.map Ready.isUpstream).Nodup ∧ ∀ ready ∈ evlist, Registered l.exchange ready))
  | .next io => inferInstanceAs (Decidable
      ((io.clientWrite ≠ .failed ∧ io.drain ≠ .failed) ∧
        (l.exchange.ps.undelivered ≠ [] → cutShort l io = false)))

/-- Of a response nothing is lost or out of order, and its upstream is not watched while a
part of it waits for the client. -/
structure Paced (l : Loop) : Prop where
  route : l.exchange.ps.keepaliveEnabled = false
  once : (l.evlist.map Ready.isUpstream).Nodup
  order : l.exchange.toClient ++ l.exchange.ps.undelivered = l.exchange.fromUpstream
  paused : l.exchange.ps.undelivered ≠ [] →
    l.exchange.upstreamInterest = none ∧ ∀ ready ∈ l.evlist, ready.isUpstream = false

variable {l : Loop} {x : Exchange}

/-- What a handler that reads nothing from the upstream does to an exchange. -/
structure Flows (x y : Exchange) : Prop where
  route : y.ps.keepaliveEnabled = x.ps.keepaliveEnabled
  order : x.toClient ++ x.ps.undelivered = x.fromUpstream →
    y.toClient ++ y.ps.undelivered = y.fromUpstream
  paused : y.ps.undelivered ≠ [] →
    x.ps.undelivered ≠ [] ∧ y.upstreamInterest = x.upstreamInterest

theorem Flows.refl (x : Exchange) : Flows x x := ⟨rfl, id, fun waiting => ⟨waiting, rfl⟩⟩

theorem Flows.trans {y z : Exchange} (h : Flows x y) (h' : Flows y z) : Flows x z where
  route := h'.route.trans h.route
  order := fun before => h'.order (h.order before)
  paused := fun waiting => by
    obtain ⟨before, same⟩ := h'.paused waiting
    obtain ⟨first, same'⟩ := h.paused before
    exact ⟨first, same.trans same'⟩

theorem undelivered_same {y : Exchange} (same : SameDownload x y) :
    y.ps.undelivered = x.ps.undelivered := by
  rw [ProxyState.undelivered, same.downstreamBuf, same.downstreamSent]
  rfl

/-- A handler that does not write to the client. -/
theorem Flows.of_same {y : Exchange} (same : SameDownload x y)
    (interest : x.ps.undelivered ≠ [] → y.upstreamInterest = x.upstreamInterest) : Flows x y where
  route := same.keepaliveEnabled
  order := fun before => by
    rw [same.toClient, undelivered_same same, before, same.fromUpstream]
  paused := fun waiting => by
    rw [undelivered_same same] at waiting
    exact ⟨waiting, interest waiting⟩

theorem flows_bodyData {data : Bytes} {r : WriteResult}
    (whole : x.ps.undelivered ≠ [] → x.ps.connected = true → x.ps.unsent = [] →
      ∀ n ∈ r.taken data.length, data.length ≤ n) :
    Flows x (step x (.bodyData data r)) := by
  refine step_cases (Flows.refl x) ?_
  refine Flows.of_same (bodyData_download data r x) fun waiting => ?_
  rcases bodyData_interest data r x with same | ⟨connected, drained, n, taken, short⟩
  · exact same
  · have all := whole waiting connected drained n taken
    omega

theorem deliver_order {data : Bytes} {n : Nat} (empty : x.ps.undelivered = [])
    (le : n ≤ data.length) :
    (deliver data n x).toClient ++ (deliver data n x).ps.undelivered = x.toClient ++ data := by
  unfold deliver
  dsimp only
  split
  · change (x.toClient ++ data.take n) ++ data.drop n = _
    rw [List.append_assoc, List.take_append_drop]
  · change (x.toClient ++ data.take n) ++ x.ps.undelivered = _
    rw [empty, List.append_nil, List.take_of_length_le (by omega)]

theorem deliver_pauses {data : Bytes} {n : Nat} (empty : x.ps.undelivered = [])
    (waiting : (deliver data n x).ps.undelivered ≠ []) :
    (deliver data n x).upstreamInterest = none := by
  unfold deliver at waiting ⊢
  dsimp only at waiting ⊢
  split
  · rfl
  · rename_i whole
    rw [if_neg whole] at waiting
    exact absurd empty waiting

theorem socketWrite_stays {known : Bool} {len : Nat} {w : WriteResult} (stays : w ≠ .failed) :
    socketWrite known len w ≠ none := by
  intro fatal
  unfold socketWrite at fatal
  split at fatal
  · cases fatal
  · cases w with
    | wrote n => cases fatal
    | again => cases fatal
    | pipe => cases fatal
    | failed => exact stays rfl

/-- With nothing waiting, a read keeps the order, and what waits then pauses the upstream. -/
theorem upstreamRead_order {cs : ClientSide} {r : ReadResult} {w : WriteResult}
    (route : x.ps.keepaliveEnabled = false) (stays : w ≠ .failed)
    (empty : x.ps.undelivered = []) (order : x.toClient = x.fromUpstream) :
    let y := step x (.upstreamReadable cs r w)
    y.ps.keepaliveEnabled = false ∧ y.toClient ++ y.ps.undelivered = y.fromUpstream ∧
      (y.ps.undelivered ≠ [] → y.upstreamInterest = none) := by
  have unread (y : Exchange) (same : SameDownload x y) : y.ps.keepaliveEnabled = false ∧
      y.toClient ++ y.ps.undelivered = y.fromUpstream ∧
      (y.ps.undelivered ≠ [] → y.upstreamInterest = none) := by
    have nothing : y.ps.undelivered = [] := (undelivered_same same).trans empty
    refine ⟨same.keepaliveEnabled.trans route, ?_, fun waiting => absurd nothing waiting⟩
    rw [nothing, List.append_nil, same.toClient, order, same.fromUpstream]
  have idle : SameDownload x x := .refl x
  have ending : SameDownload x (cleanup x) := cleanup_download x
  dsimp only
  unfold step
  split
  · exact unread x idle
  rw [handle]
  cases r with
  | again => exact unread x idle
  | eof => exact unread _ ending
  | failed => exact unread _ ending
  | data buf =>
    have plain : proxyOnUpstreamRead cs (.data buf) w x = writeOrBuffer cs buf w (receive buf x) := by
      simp [proxyOnUpstreamRead, receive, route]
    rw [plain, writeOrBuffer]
    cases written : socketWrite cs.known buf.length w with
    | none => exact absurd written (socketWrite_stays stays)
    | some n =>
      have same := (deliver_framing buf n (receive buf x)).1
      have nothing : (receive buf x).ps.undelivered = [] := empty
      dsimp only
      refine ⟨same.keepaliveEnabled.trans route, ?_, deliver_pauses nothing⟩
      rw [same.fromUpstream, deliver_order nothing (socketWrite_le written)]
      exact congrArg (· ++ buf) order

theorem flows_clientWritable {w : WriteResult} (stays : w ≠ .failed) :
    Flows x (step x (.clientWritable w)) := by
  refine step_cases (Flows.refl x) ?_
  change Flows x (proxyOnClientWritable w x)
  unfold proxyOnClientWritable
  dsimp only
  by_cases empty : x.ps.undelivered = []
  · rw [if_pos empty]
    exact ⟨rfl, id, fun waiting => absurd empty waiting⟩
  rw [if_neg empty]
  cases written : socketWrite true x.ps.undelivered.length w with
  | none => exact absurd written (socketWrite_stays stays)
  | some n =>
    have le := socketWrite_le written
    dsimp only
    by_cases all : n = x.ps.undelivered.length
    · rw [if_pos all]
      have drained : x.toClient ++ x.ps.undelivered = x.fromUpstream →
          (x.toClient ++ x.ps.undelivered.take n) ++ [] = x.fromUpstream := fun before => by
        rw [all, List.take_length, List.append_nil, before]
      split
      · exact ⟨rfl, drained, fun waiting => absurd rfl waiting⟩
      · exact ⟨rfl, drained, fun waiting => absurd rfl waiting⟩
    · rw [if_neg all]
      have rest : (x.ps.downstreamBuf.getD []).drop (x.ps.downstreamSent + n) =
          x.ps.undelivered.drop n := by
        rw [ProxyState.undelivered, List.drop_drop]
      refine ⟨rfl, fun before => ?_, fun _ => ⟨empty, rfl⟩⟩
      change (x.toClient ++ x.ps.undelivered.take n) ++ List.drop _ _ = x.fromUpstream
      rw [rest, List.append_assoc, List.take_append_drop, before]

theorem flows_myOnRead {io : Io} {events : Interest} {rest : List Ready}
    (head : l.evlist = .client events :: rest) (read : events.read = true)
    (whole : l.exchange.ps.undelivered ≠ [] → cutShort l io = false) :
    Flows l.exchange (myOnRead io l.exchange) := by
  unfold myOnRead
  cases received : io.recv with
  | again => exact Flows.refl _
  | eof => exact ⟨rfl, id, fun waiting => ⟨waiting, rfl⟩⟩
  | failed => exact ⟨rfl, id, fun waiting => ⟨waiting, rfl⟩⟩
  | data data =>
    refine flows_bodyData fun waiting connected drained n taken => ?_
    have uncut := whole waiting
    rw [cutShort, head, received] at uncut
    simpa [read, connected, drained, Option.mem_def.mp taken] using uncut

/-- An event of the client reads nothing from the upstream. -/
theorem client_unread (events : Interest) (io : Io) (x : Exchange) :
    (dispatch io x (.client events)).fromUpstream = x.fromUpstream := by
  have stepped (x : Exchange) (e : Event) (same : (handle x e).fromUpstream = x.fromUpstream) :
      (step x e).fromUpstream = x.fromUpstream :=
    step_cases (P := fun y => y.fromUpstream = x.fromUpstream) rfl same
  have read (x : Exchange) : (myOnRead io x).fromUpstream = x.fromUpstream := by
    unfold myOnRead
    split
    · exact stepped _ _ (bodyData_download _ _ _).fromUpstream
    · rfl
    · rfl
    · rfl
  have written (x : Exchange) : (myOnWrite io x).fromUpstream = x.fromUpstream := by
    unfold myOnWrite
    split
    · rfl
    · exact stepped _ _ (clientWritable_framing _ _).fromUpstream
  unfold dispatch
  dsimp only
  split
  · rw [written]
    split
    · exact read x
    · rfl
  · split
    · exact read x
    · rfl

theorem flows_client {io : Io} {events : Interest} {rest : List Ready}
    (head : l.evlist = .client events :: rest) (stays : ClientStays io)
    (whole : l.exchange.ps.undelivered ≠ [] → cutShort l io = false) :
    Flows l.exchange (dispatch io l.exchange (.client events)) := by
  have read : Flows l.exchange (if events.read then myOnRead io l.exchange else l.exchange) := by
    split
    · rename_i readable
      exact flows_myOnRead head readable whole
    · exact Flows.refl _
  have written (x : Exchange) : Flows x (if events.write then myOnWrite io x else x) := by
    split
    · unfold myOnWrite
      split
      · exact Flows.refl x
      · exact flows_clientWritable stays.2
    · exact Flows.refl x
  exact read.trans (written _)

/-- The write part of an event of the upstream. -/
theorem upstreamWrite_idle (soerr : Bool) (r : WriteResult) (x : Exchange) :
    SameDownload x (step x (.upstreamWritable soerr r)) :=
  step_cases (.refl x) (upstreamWrite_download soerr r x)

/-- An event of the upstream, which is watched only while nothing waits. -/
theorem upstream_order {io : Io} (events : Interest) (stays : ClientStays io)
    (route : x.ps.keepaliveEnabled = false) (empty : x.ps.undelivered = [])
    (order : x.toClient = x.fromUpstream) :
    let y := dispatch io x (.upstream events)
    y.ps.keepaliveEnabled = false ∧ y.toClient ++ y.ps.undelivered = y.fromUpstream ∧
      (y.ps.undelivered ≠ [] → y.upstreamInterest = none) := by
  have read (y : Exchange) (same : SameDownload x y) :
      let z := if events.read then step y (.upstreamReadable io.clientSide io.read io.clientWrite)
        else y
      z.ps.keepaliveEnabled = false ∧ z.toClient ++ z.ps.undelivered = z.fromUpstream ∧
        (z.ps.undelivered ≠ [] → z.upstreamInterest = none) := by
    have nothing : y.ps.undelivered = [] := (undelivered_same same).trans empty
    have plain : y.ps.keepaliveEnabled = false := same.keepaliveEnabled.trans route
    have whole : y.toClient = y.fromUpstream := by rw [same.toClient, order, same.fromUpstream]
    dsimp only
    split
    · exact upstreamRead_order plain stays.1 nothing whole
    · refine ⟨plain, ?_, fun waiting => absurd nothing waiting⟩
      rw [nothing, List.append_nil, whole]
  have written : SameDownload x
      (if events.write then step x (.upstreamWritable io.soerr io.pendingWrite) else x) := by
    split
    · exact upstreamWrite_idle io.soerr io.pendingWrite x
    · exact .refl x
  exact read _ written

theorem Paced.idle (h : Paced l) {events : Interest} {rest : List Ready}
    (head : l.evlist = .upstream events :: rest) :
    l.exchange.ps.undelivered = [] ∧ l.exchange.toClient = l.exchange.fromUpstream := by
  have empty : l.exchange.ps.undelivered = [] := by
    by_contra waiting
    have unlisted := (h.paused waiting).2 (.upstream events)
      (by rw [head]; exact List.mem_cons_self)
    cases unlisted
  have order := h.order
  rw [empty, List.append_nil] at order
  exact ⟨empty, order⟩

theorem paced_next (h : Paced l) {io : Io} (stays : ClientStays io)
    (whole : l.exchange.ps.undelivered ≠ [] → cutShort l io = false) :
    Paced (loopStep l (.next io)) := by
  unfold loopStep
  dsimp only
  cases evlist : l.evlist with
  | nil => exact h
  | cons ready rest =>
    have once := h.once
    rw [evlist, List.map_cons, List.nodup_cons] at once
    cases ready with
    | client events =>
      have flows := flows_client evlist stays whole
      refine ⟨flows.route.trans h.route, once.2, flows.order h.order, fun waiting => ?_⟩
      obtain ⟨before, same⟩ := flows.paused waiting
      obtain ⟨unwatched, unlisted⟩ := h.paused before
      refine ⟨same.trans unwatched, fun other listed => ?_⟩
      exact unlisted other (by rw [evlist]; exact List.mem_cons_of_mem _ listed)
    | upstream events =>
      obtain ⟨empty, delivered⟩ := h.idle evlist
      obtain ⟨route, order, paused⟩ := upstream_order events stays h.route empty delivered
      refine ⟨route, once.2, order, fun waiting => ⟨paused waiting, fun other listed => ?_⟩⟩
      by_contra upstream
      rw [Bool.not_eq_false] at upstream
      exact once.1 (List.mem_map.mpr ⟨other, listed, upstream⟩)

theorem paced_step (l : Loop) (e : LoopEvent) (h : Paced l) (unhurried : Unhurried l e) :
    Paced (loopStep l e) := by
  cases e with
  | wait evlist =>
    obtain ⟨once, registered⟩ := unhurried
    unfold loopStep
    dsimp only
    split
    · refine ⟨h.route, once, h.order, fun waiting => ?_⟩
      have unwatched := (h.paused waiting).1
      refine ⟨unwatched, fun ready listed => ?_⟩
      cases ready with
      | client events => rfl
      | upstream events =>
        have reported := registered _ listed
        rw [Registered, unwatched] at reported
        cases reported
    · exact h
  | next io => exact paced_next h unhurried.1 unhurried.2

theorem silent_unhurried {e : LoopEvent} (silent : Silent l e) : Unhurried l e := by
  cases e with
  | wait evlist => exact silent
  | next io =>
    refine ⟨silent.1, fun _ => ?_⟩
    rw [cutShort, silent.2]
    split
    · rename_i again
      cases again
    · rfl

theorem Paced.no_read (h : Paced l) (waiting : l.exchange.ps.undelivered ≠ []) (e : LoopEvent) :
    (loopStep l e).exchange.fromUpstream = l.exchange.fromUpstream := by
  cases e with
  | wait evlist =>
    unfold loopStep
    dsimp only
    split
    · rfl
    · rfl
  | next io =>
    unfold loopStep
    dsimp only
    cases evlist : l.evlist with
    | nil => rfl
    | cons ready rest =>
      cases ready with
      | upstream events => exact absurd (h.idle evlist).1 waiting
      | client events => exact client_unread events io l.exchange

theorem Paced.at_eof (h : Paced l) {events : Interest} {rest : List Ready} {io : Io}
    (head : l.evlist = .upstream events :: rest) (readable : events.read = true)
    (eof : io.read = .eof) :
    (loopStep l (.next io)).exchange.ended = true ∧
      (loopStep l (.next io)).exchange.toClient =
        (loopStep l (.next io)).exchange.fromUpstream := by
  have whole := (h.idle head).2
  have written : SameDownload l.exchange
      (if events.write then step l.exchange (.upstreamWritable io.soerr io.pendingWrite)
      else l.exchange) := by
    split
    · exact upstreamWrite_idle io.soerr io.pendingWrite l.exchange
    · exact .refl _
  have ending (x : Exchange) (same : SameDownload l.exchange x) :
      let y := step x (.upstreamReadable io.clientSide io.read io.clientWrite)
      y.ended = true ∧ y.toClient = y.fromUpstream := by
    have order : x.toClient = x.fromUpstream := by rw [same.toClient, whole, same.fromUpstream]
    dsimp only
    unfold step
    split
    · rename_i ended
      exact ⟨ended, order⟩
    · rw [eof]
      exact ⟨rfl, order⟩
  unfold loopStep
  dsimp only
  rw [head]
  dsimp only
  unfold dispatch proxyOnUpstreamEvent
  dsimp only
  rw [if_pos readable]
  exact ending _ written

section Start

variable (p : HttpParser) (route : Route) (cd : Client) (upstreamFd : Nat) (reusedConn : Bool)
  (now : Int) (leftover : Bytes) (r : WriteResult)

theorem paced_opened (plain : route.upstream.keepaliveEnabled = false) :
    Paced (opened p route cd upstreamFd reusedConn now leftover r) := by
  have start : Paced ⟨proxyStart p route cd upstreamFd reusedConn now, []⟩ :=
    ⟨plain, List.nodup_nil, rfl, fun waiting => absurd rfl waiting⟩
  unfold opened
  dsimp only
  split
  · exact start
  · have flows : Flows (proxyStart p route cd upstreamFd reusedConn now)
        (step (proxyStart p route cd upstreamFd reusedConn now) (.bodyData leftover r)) :=
      flows_bodyData fun waiting => absurd rfl waiting
    exact ⟨flows.route.trans plain, List.nodup_nil, flows.order rfl,
      fun waiting => absurd rfl (flows.paused waiting).1⟩

/-- While the client stays connected and sends nothing, a response reaches it in order and
without loss, and is complete when the upstream ends it. -/
theorem response_in_order (plain : route.upstream.keepaliveEnabled = false) (es : List LoopEvent)
    (silent : Guarded loopStep Silent
      (opened p route cd upstreamFd reusedConn now leftover r) es) :
    let l := run loopStep (opened p route cd upstreamFd reusedConn now leftover r) es
    l.exchange.toClient ++ l.exchange.ps.undelivered = l.exchange.fromUpstream ∧
      (l.exchange.ps.undelivered ≠ [] →
        ∀ e, (loopStep l e).exchange.fromUpstream = l.exchange.fromUpstream) ∧
      ∀ events rest io, l.evlist = .upstream events :: rest → events.read = true →
        io.read = .eof →
        (loopStep l (.next io)).exchange.ended = true ∧
          (loopStep l (.next io)).exchange.toClient =
            (loopStep l (.next io)).exchange.fromUpstream := by
  have paced : Paced (run loopStep (opened p route cd upstreamFd reusedConn now leftover r) es) :=
    run_invariant paced_step (paced_opened p route cd upstreamFd reusedConn now leftover r plain)
      (silent.imp fun l e => silent_unhurried)
  exact ⟨paced.order, paced.no_read, fun events rest io head => paced.at_eof head⟩

/-- The same for what goes through a tunnel, while no data of its client is cut short when
a part of the upstream's data waits. -/
theorem tunnel_in_order (plain : route.upstream.keepaliveEnabled = false) (es : List LoopEvent)
    (unhurried : Guarded loopStep Unhurried
      (opened p route cd upstreamFd reusedConn now leftover r) es) :
    let l := run loopStep (opened p route cd upstreamFd reusedConn now leftover r) es
    l.exchange.toClient ++ l.exchange.ps.undelivered = l.exchange.fromUpstream := by
  have paced : Paced (run loopStep (opened p route cd upstreamFd reusedConn now leftover r) es) :=
    run_invariant paced_step (paced_opened p route cd upstreamFd reusedConn now leftover r plain)
      unhurried
  exact paced.order

end Start

def plainRoute : Route :=
  { sampleRoute with upstream := { sampleUpstream with keepaliveEnabled := false } }

/-- What an entry of `evlist` meets when nothing is short. -/
def ready : Io where
  clientSide := ⟨true, true⟩
  recv := .again
  bodyWrite := .wrote 65536
  soerr := false
  pendingWrite := .wrote 65536
  read := .again
  clientWrite := .wrote 65536
  drain := .wrote 65536

def get : Loop := opened (getParser 4) plainRoute sampleClient 9 false 0 [] .again

/-- The first read comes with the end of the upload, and the client takes it in two parts. -/
def getEvents : List LoopEvent :=
  [.wait [.upstream ⟨true, true⟩],
    .next { ready with read := .data (ascii "HTTP/1.1 200 OK"), clientWrite := .wrote 4 },
    .wait [.client ⟨false, true⟩], .next ready, .wait [.upstream ⟨true, false⟩]]

theorem response_in_order_sample :
    Guarded loopStep Silent get getEvents ∧
      (run loopStep get getEvents).exchange.toClient = ascii "HTTP/1.1 200 OK" ∧
      let l := run loopStep get getEvents
      l.exchange.toClient ++ l.exchange.ps.undelivered = l.exchange.fromUpstream ∧
        (l.exchange.ps.undelivered ≠ [] →
          ∀ e, (loopStep l e).exchange.fromUpstream = l.exchange.fromUpstream) ∧
        ∀ events rest io, l.evlist = .upstream events :: rest → events.read = true →
          io.read = .eof →
          (loopStep l (.next io)).exchange.ended = true ∧
            (loopStep l (.next io)).exchange.toClient =
              (loopStep l (.next io)).exchange.fromUpstream := by
  have silent : Guarded loopStep Silent get getEvents := by decide +kernel
  refine ⟨silent, by decide +kernel, ?_⟩
  exact response_in_order (getParser 4) plainRoute sampleClient 9 false 0 [] .again rfl getEvents
    silent

/-- `GET /chat HTTP/1.1` with `Upgrade: websocket`, parsed. -/
def upgradeParser : HttpParser := { getParser 4 with
  req := { (getParser 4).req with headers := [(ascii "upgrade", ascii "websocket")] } }

def tunnel : Loop := opened upgradeParser plainRoute sampleClient 9 false 0 [] .again

/-- The upstream sends `abc`, of which the client takes one byte; then the client sends `xyz`,
of which the upstream takes one byte. -/
def congested (short : WriteResult) : List LoopEvent :=
  [.wait [.upstream ⟨true, true⟩], .next ready,
    .wait [.upstream ⟨true, false⟩],
    .next { ready with read := .data (ascii "abc"), clientWrite := .wrote 1 },
    .wait [.client ⟨true, false⟩],
    .next { ready with recv := .data (ascii "xyz"), bodyWrite := short }]

/-- With the upstream registered again, its next data takes the place of what waits. -/
def overwritten : List LoopEvent :=
  congested (.wrote 1) ++ [.wait [.upstream ⟨true, false⟩],
    .next { ready with read := .data (ascii "def"), clientWrite := .again }]

theorem tunnel_in_order_sample :
    isWebsocket upgradeParser.req = true ∧
      Guarded loopStep Unhurried tunnel (congested (.wrote 3)) ∧
      (run loopStep tunnel (congested (.wrote 3))).exchange.ps.undelivered = ascii "bc" ∧
      let l := run loopStep tunnel (congested (.wrote 3))
      l.exchange.toClient ++ l.exchange.ps.undelivered = l.exchange.fromUpstream := by
  have unhurried : Guarded loopStep Unhurried tunnel (congested (.wrote 3)) := by decide +kernel
  refine ⟨by decide +kernel, unhurried, by decide +kernel, ?_⟩
  exact tunnel_in_order upgradeParser plainRoute sampleClient 9 false 0 [] .again rfl
    (congested (.wrote 3)) unhurried

theorem tunnel_loses_data :
    ¬ ∀ es : List LoopEvent, Guarded loopStep Open tunnel es →
      let l := run loopStep tunnel es
      l.exchange.toClient ++ l.exchange.ps.undelivered = l.exchange.fromUpstream := by
  intro lossless
  have kept := lossless overwritten (by decide +kernel)
  exact absurd kept (by decide +kernel)

end DownstreamFifo
