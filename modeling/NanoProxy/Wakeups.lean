import NanoProxy.DownstreamFifo
import NanoProxy.ForwardFifo

/-!
# Who wakes a connection up (include/request.h, include/socket_server.h)

What is buffered for a descriptor goes out when `event_wait` reports it writable, so that
the descriptor has to be registered for it. `event_set` replaces what was registered, and
six handlers call it. The loop is here taken one handler at a time.
-/

namespace Wakeups

open CLib HttpRequestParser OutboundRequest ResponseHead ProxyExchange ExchangeFrames
open ResponseFraming ForwardRelay Runs
open DownstreamFifo (Ready Io Polled covers myOnRead myOnWrite)
open ForwardFifo (Relay waiting)

/-- `EV_WRITE` is registered. -/
def wakes (registered : Option Interest) : Prop := ∃ i, registered = some i ∧ i.write = true

inductive Call where
  | upstreamWrite
  | upstreamRead
  | clientRead
  | clientWrite

/-- The handlers that `run_event_loop` calls for an entry of its list. -/
def calls : Ready → List Call
  | .upstream events =>
    (if events.write then [.upstreamWrite] else []) ++ if events.read then [.upstreamRead] else []
  | .client events =>
    (if events.read then [.clientRead] else []) ++ if events.write then [.clientWrite] else []

structure Loop where
  exchange : Exchange
  calls : List Call

def call (io : Io) (x : Exchange) : Call → Exchange
  | .upstreamWrite => step x (.upstreamWritable io.soerr io.pendingWrite)
  | .upstreamRead => step x (.upstreamReadable io.clientSide io.read io.clientWrite)
  | .clientRead => myOnRead io x
  | .clientWrite => myOnWrite io x

/-- `proxy_timeout_sweep`, when the exchange is due. -/
def proxyTimeoutSweep (x : Exchange) : Exchange := if x.ps.connected then x else cleanup x

inductive LoopEvent where
  | wait (evlist : List Ready)
  | next (io : Io)
  | timeout

def loopStep (l : Loop) : LoopEvent → Loop
  | .wait evlist => match l.calls with
    | [] => { l with calls := evlist.flatMap calls }
    | _ :: _ => l
  | .next io => match l.calls with
    | [] => l
    | c :: rest => ⟨call io l.exchange c, rest⟩
  | .timeout => { l with exchange := proxyTimeoutSweep l.exchange }

/-- A fresh exchange, with the body data that came along with the request. -/
def opened (p : HttpParser) (route : Route) (cd : Client) (upstreamFd : Nat) (reusedConn : Bool)
    (now : Int) (leftover : Bytes) (r : WriteResult) : Loop :=
  ⟨(DownstreamFifo.opened p route cd upstreamFd reusedConn now leftover r).exchange, []⟩

/-- The upstream is to be written to, or a connect is in progress. -/
def Owing (x : Exchange) : Prop := x.ps.connected = false ∨ x.ps.unsent ≠ []

/-- The upstream is paused until the client has taken `downstream_buf`, and then watched for
writing again. -/
def Deferred (x : Exchange) : Prop :=
  x.ps.upstreamPaused = true ∧ x.ps.undelivered ≠ [] ∧ wakes x.clientInterest ∧
    ∀ w, (step x (.clientWritable w)).ended = false →
      (step x (.clientWritable w)).ps.undelivered = [] →
        wakes (step x (.clientWritable w)).upstreamInterest

/-- What waits in either direction has a wake-up. -/
structure Awake (x : Exchange) : Prop where
  upstream : Owing x → wakes x.upstreamInterest ∨ Deferred x
  client : x.ps.undelivered ≠ [] → wakes x.clientInterest

/-- What `proxy_on_upstream_read` has for the client of the bytes `buf`. -/
def offered (cd : ClientSide) (buf : Bytes) (x : Exchange) : Bytes :=
  if !x.ps.keepaliveEnabled || x.ps.respHeadersDone then buf else
  let grown := x.ps.respHeaderBuf.getD [] ++ buf
  match headerBlockLen grown with
  | some n => rewriteHead (grown.take n)
      (poolable (grown.take n) && (cd.known && cd.keepAlive)) ++ grown.drop n
  | none => []

/-- Nothing waits in both directions: the client takes all that comes while something waits for
the upstream, and the upstream all that comes while something waits for the client. -/
def OneWay (io : Io) (x : Exchange) : Call → Prop
  | .upstreamRead => Owing x → ∀ buf, io.read = .data buf →
      ∀ n ∈ socketWrite io.clientSide.known (offered io.clientSide buf x).length io.clientWrite,
        (offered io.clientSide buf x).length ≤ n
  | .clientRead => io.recv ≠ .eof ∧ io.recv ≠ .failed ∧ (x.ps.undelivered ≠ [] → ¬Owing x →
      ∀ data, io.recv = .data data → ∀ n ∈ io.bodyWrite.taken data.length, data.length ≤ n)
  | _ => True

def Steady (l : Loop) : LoopEvent → Prop
  | .wait evlist => Polled l.exchange evlist
  | .next io => ∀ c ∈ l.calls.head?, OneWay io l.exchange c
  | .timeout => True

/-- What `event_wait` reports, for a client that stays connected. -/
def Watched (l : Loop) : LoopEvent → Prop
  | .wait evlist => Polled l.exchange evlist
  | .next io => io.recv ≠ .eof ∧ io.recv ≠ .failed
  | .timeout => True

instance decidableOwing (x : Exchange) : Decidable (Owing x) :=
  inferInstanceAs (Decidable (x.ps.connected = false ∨ x.ps.unsent ≠ []))

instance decidableWatched (l : Loop) : ∀ e, Decidable (Watched l e)
  | .wait evlist => inferInstanceAs (Decidable ((evlist.map Ready.isUpstream).Nodup ∧
      ∀ ready ∈ evlist, DownstreamFifo.Registered l.exchange ready))
  | .next io => inferInstanceAs (Decidable (io.recv ≠ .eof ∧ io.recv ≠ .failed))
  | .timeout => .isTrue trivial

variable {x y : Exchange} {l : Loop} {data : Bytes} {n : Nat} {w : WriteResult}

/-- Something waits in one direction at most. -/
structure Woken (x : Exchange) : Prop where
  upstream : Owing x → wakes x.upstreamInterest ∧ x.ps.undelivered = []
  client : x.ps.undelivered ≠ [] → wakes x.clientInterest
  paused : x.ps.clientPaused = true → x.ps.unsent ≠ []

theorem Woken.awake (h : Woken x) : Awake x where
  upstream := fun owing => Or.inl (h.upstream owing).1
  client := h.client

theorem Woken.cleanup (h : Woken x) : Woken (cleanup x) := ⟨h.upstream, h.client, h.paused⟩

theorem countBody_pending (n : Nat) (ps : ProxyState) :
    (countBody n ps).connected = ps.connected ∧ (countBody n ps).pending = ps.pending ∧
      (countBody n ps).pendingSent = ps.pendingSent ∧
      (countBody n ps).clientPaused = ps.clientPaused ∧
      (countBody n ps).downstreamBuf = ps.downstreamBuf ∧
      (countBody n ps).downstreamSent = ps.downstreamSent := by
  unfold countBody
  split
  · exact ⟨rfl, rfl, rfl, rfl, rfl, rfl⟩
  · exact ⟨rfl, rfl, rfl, rfl, rfl, rfl⟩

theorem drop_append_ne_nil {a b : Bytes} (waits : a.drop n ≠ []) : (a ++ b).drop n ≠ [] := by
  rw [Ne, List.drop_eq_nil_iff] at waits ⊢
  rw [List.length_append]
  omega

/-- The record of what was written takes no part. -/
theorem Woken.of_same (h : Woken x) (connected : y.ps.connected = x.ps.connected)
    (unsent : y.ps.unsent = x.ps.unsent) (undelivered : y.ps.undelivered = x.ps.undelivered)
    (clientPaused : y.ps.clientPaused = x.ps.clientPaused)
    (upstreamInterest : y.upstreamInterest = x.upstreamInterest)
    (clientInterest : y.clientInterest = x.clientInterest) : Woken y where
  upstream := by
    rw [Owing, connected, unsent, undelivered, upstreamInterest]
    exact h.upstream
  client := by
    rw [undelivered, clientInterest]
    exact h.client
  paused := by
    rw [clientPaused, unsent]
    exact h.paused

theorem bodyData_woken (h : Woken x) (whole : x.ps.undelivered ≠ [] → ¬Owing x →
    ∀ n ∈ w.taken data.length, data.length ≤ n) : Woken (proxyOnBodyData data w x) := by
  have owing_iff : Owing x ↔ (!x.ps.connected) = true ∨ x.ps.unsent ≠ [] := by
    rw [Owing, Bool.not_eq_true']
  unfold proxyOnBodyData
  split
  · rename_i buffered
    refine ⟨fun _ => h.upstream (owing_iff.mpr buffered), h.client, fun paused => ?_⟩
    exact drop_append_ne_nil (h.paused paused)
  rename_i direct
  cases taken : w.taken data.length with
  | none => exact h.cleanup
  | some n =>
    obtain ⟨connected, pending, pendingSent, clientPaused, buf, sent⟩ := countBody_pending n x.ps
    have undelivered : (countBody n x.ps).undelivered = x.ps.undelivered := by
      rw [ProxyState.undelivered, buf, sent]
      rfl
    dsimp only
    split
    · rename_i short
      have empty : x.ps.undelivered = [] := by
        by_contra waits
        have all := whole waits (fun owing => direct (owing_iff.mp owing)) n taken
        omega
      have rest : data.drop n ≠ [] := by
        rw [Ne, List.drop_eq_nil_iff]
        omega
      refine ⟨fun _ => ⟨⟨_, rfl, rfl⟩, undelivered.trans empty⟩, fun waits => ?_, fun _ => rest⟩
      exact absurd (undelivered.trans empty) waits
    · refine h.of_same connected ?_ undelivered clientPaused rfl rfl
      change ((countBody n x.ps).pending.getD []).drop (countBody n x.ps).pendingSent = x.ps.unsent
      rw [pending, pendingSent]
      rfl

theorem upstreamDrained_woken (client : x.ps.undelivered ≠ [] → wakes x.clientInterest)
    (connected : x.ps.connected = true) (sent : x.ps.unsent = [])
    (paused : x.ps.clientPaused = true → x.ps.undelivered = []) : Woken (upstreamDrained x) := by
  have settled : ¬Owing x := by
    rintro (unconnected | waits)
    · exact absurd (connected.symm.trans unconnected) Bool.false_ne_true.symm
    · exact waits sent
  unfold upstreamDrained
  dsimp only
  split
  · rename_i resumed
    refine ⟨fun owing => absurd owing settled, fun waits => ?_, fun still => ?_⟩
    · exact absurd (paused resumed) waits
    · cases still
  · rename_i running
    exact ⟨fun owing => absurd owing settled, client, fun still => absurd still running⟩

theorem upstreamWrite_woken (h : Woken x) (soerr : Bool) (r : WriteResult) :
    Woken (proxyOnUpstreamWrite soerr r x) := by
  have free (paused : x.ps.clientPaused = true) : x.ps.undelivered = [] :=
    (h.upstream (Or.inr (h.paused paused))).2
  unfold proxyOnUpstreamWrite
  split
  · exact h.cleanup
  dsimp only
  split
  · rename_i sent
    exact upstreamDrained_woken h.client rfl sent free
  rename_i unsent
  have owing : Owing x := Or.inr unsent
  split
  · refine ⟨fun _ => h.upstream owing, h.client, h.paused⟩
  rename_i n taken
  have le : n ≤ x.ps.unsent.length := WriteResult.taken_le taken
  split
  · exact upstreamDrained_woken h.client rfl rfl free
  · rename_i short
    have rest : (x.ps.pending.getD []).drop (x.ps.pendingSent + n) ≠ [] := by
      rw [← List.drop_drop]
      change x.ps.unsent.drop n ≠ []
      rw [Ne, List.drop_eq_nil_iff]
      exact fun all => short (le_antisymm le all)
    exact ⟨fun _ => h.upstream owing, h.client, fun _ => rest⟩

theorem deliver_woken (h : Woken x) (whole : Owing x → data.length ≤ n) :
    Woken (deliver data n x) := by
  unfold deliver
  dsimp only
  split
  · rename_i short
    have settled : ¬Owing x := fun owing => absurd (whole owing) (Nat.not_le.mpr short)
    refine ⟨fun owing => absurd owing settled, fun _ => ⟨_, rfl, rfl⟩, fun paused => ?_⟩
    exact absurd (Or.inr (h.paused paused)) settled
  · exact ⟨h.upstream, h.client, h.paused⟩

theorem writeOrBuffer_woken (h : Woken x) {cd : ClientSide}
    (whole : Owing x → ∀ n ∈ socketWrite cd.known data.length w, data.length ≤ n) :
    Woken (writeOrBuffer cd data w x) := by
  unfold writeOrBuffer
  split
  · exact h.cleanup
  · rename_i n taken
    exact deliver_woken h fun owing => whole owing n taken

theorem relay_woken (h : Woken x) {cd : ClientSide}
    (whole : Owing x → ∀ n ∈ socketWrite cd.known data.length w, data.length ≤ n) (count : Nat) :
    Woken (relay cd data count w x) := by
  have written := writeOrBuffer_woken h whole
  unfold relay
  dsimp only
  split
  · exact written
  unfold endWhenComplete
  split
  · exact ⟨written.upstream, written.client, written.paused⟩
  · exact ⟨written.upstream, written.client, written.paused⟩

theorem upstreamRead_woken (h : Woken x) {cd : ClientSide} {r : ReadResult}
    (whole : Owing x → ∀ buf, r = .data buf →
      ∀ n ∈ socketWrite cd.known (offered cd buf x).length w, (offered cd buf x).length ≤ n) :
    Woken (proxyOnUpstreamRead cd r w x) := by
  cases r with
  | again => exact h
  | eof => exact h.cleanup
  | failed => exact h.cleanup
  | data buf =>
    have received : Woken (receive buf x) := ⟨h.upstream, h.client, h.paused⟩
    have all (owing : Owing x) := whole owing buf rfl
    unfold offered at all
    unfold proxyOnUpstreamRead
    dsimp only
    cases route : x.ps.keepaliveEnabled with
    | false =>
      rw [route] at all
      rw [if_neg (by rw [show (receive buf x).ps.keepaliveEnabled = false from route]; simp)]
      exact writeOrBuffer_woken received all
    | true =>
      rw [route] at all
      rw [if_pos (show (receive buf x).ps.keepaliveEnabled = true from route)]
      unfold proxyRelayUpstreamKeepalive
      dsimp only
      cases done : x.ps.respHeadersDone with
      | true =>
        rw [done] at all
        rw [if_pos (show (receive buf x).ps.respHeadersDone = true from done)]
        exact relay_woken received all _
      | false =>
        rw [done] at all
        rw [if_neg (by rw [show (receive buf x).ps.respHeadersDone = false from done]; simp)]
        have grown : (receive buf x).ps.respHeaderBuf = x.ps.respHeaderBuf := rfl
        rw [grown]
        rw [Bool.not_true, Bool.or_false, if_neg Bool.false_ne_true] at all
        dsimp only at all
        cases head : headerBlockLen (x.ps.respHeaderBuf.getD [] ++ buf) with
        | some m =>
          rw [head] at all
          have framed : Woken (frameResponse ((x.ps.respHeaderBuf.getD [] ++ buf).take m)
              (receive buf x)) := ⟨h.upstream, h.client, h.paused⟩
          have pooled : (frameResponse ((x.ps.respHeaderBuf.getD [] ++ buf).take m)
              (receive buf x)).ps.respPoolable =
              poolable ((x.ps.respHeaderBuf.getD [] ++ buf).take m) := by
            change (x.ps.keepaliveEnabled && _) = _
            rw [route, Bool.true_and]
          unfold relayHead
          dsimp only at all ⊢
          rw [pooled]
          exact relay_woken framed all _
        | none =>
          dsimp only
          split
          · exact ⟨h.upstream, h.client, h.paused⟩
          · exact ⟨h.upstream, h.client, h.paused⟩

theorem clientWritable_woken (h : Woken x) (w : WriteResult) :
    Woken (proxyOnClientWritable w x) := by
  unfold proxyOnClientWritable
  dsimp only
  split
  · rename_i empty
    exact ⟨h.upstream, fun waits => absurd empty waits, h.paused⟩
  rename_i waits
  have settled : ¬Owing x := fun owing => waits (h.upstream owing).2
  split
  · exact h.cleanup
  split
  · split
    · refine ⟨fun owing => absurd owing settled, fun more => absurd rfl more, h.paused⟩
    · refine ⟨fun owing => absurd owing settled, fun more => absurd rfl more, h.paused⟩
  · exact ⟨fun owing => absurd owing settled, fun _ => h.client waits, h.paused⟩

theorem call_woken (h : Woken x) {io : Io} {c : Call} (oneWay : OneWay io x c) :
    Woken (call io x c) := by
  cases c with
  | upstreamWrite => exact step_cases h (upstreamWrite_woken h _ _)
  | upstreamRead => exact step_cases h (upstreamRead_woken h oneWay)
  | clientRead =>
    obtain ⟨open_, alive, whole⟩ := oneWay
    unfold call myOnRead
    dsimp only
    cases received : io.recv with
    | again => exact h
    | eof => exact absurd received open_
    | failed => exact absurd received alive
    | data data =>
      exact step_cases h (bodyData_woken h fun waits settled => whole waits settled data received)
  | clientWrite =>
    unfold call myOnWrite
    dsimp only
    split
    · exact h
    · exact step_cases h (clientWritable_woken h _)

theorem woken_step (l : Loop) (e : LoopEvent) (h : Woken l.exchange) (steady : Steady l e) :
    Woken (loopStep l e).exchange := by
  cases e with
  | wait evlist =>
    unfold loopStep
    dsimp only
    split
    · exact h
    · exact h
  | timeout =>
    unfold loopStep proxyTimeoutSweep
    dsimp only
    split
    · exact h
    · exact h.cleanup
  | next io =>
    unfold loopStep
    dsimp only
    cases calls : l.calls with
    | nil => exact h
    | cons c rest =>
      apply call_woken h
      apply steady c
      rw [calls]
      rfl

section Start

variable (p : HttpParser) (route : Route) (cd : Client) (upstreamFd : Nat) (reusedConn : Bool)
  (now : Int) (leftover : Bytes) (r : WriteResult)

theorem opened_woken :
    Woken (opened p route cd upstreamFd reusedConn now leftover r).exchange := by
  have start : Woken (proxyStart p route cd upstreamFd reusedConn now) := by
    refine ⟨fun _ => ⟨⟨_, rfl, rfl⟩, rfl⟩, fun waits => absurd rfl waits, ?_⟩
    rintro ⟨⟩
  unfold opened DownstreamFifo.opened
  dsimp only
  split
  · exact start
  · exact step_cases start (bodyData_woken start fun waits => absurd rfl waits)

end Start

/-- A relay, and what its upstream descriptor is registered for. -/
structure Forwarded where
  relay : Relay
  upstreamInterest : Option Interest

def forwardOnAccept (proto : ForwardProto) (upstreamFd : Nat) : Forwarded where
  relay := ForwardFifo.start proto upstreamFd
  upstreamInterest := some ⟨true, proto ≠ .udp⟩

/-- The calls of `event_set`: once `connect` has completed, and when the target has not taken
all of the client's data. -/
def eventSet (x : Forwarded) : ForwardFifo.Event → Option Interest
  | .upstream events io =>
    if events.write ∧ !x.relay.fs.connected ∧ !io.soerr then some ⟨true, false⟩
    else x.upstreamInterest
  | .downstreamData data r =>
    if x.relay.fs.upstreamProto ≠ .udp ∧ x.relay.fs.connected ∧
        (r.taken data.length).any (· < data.length) then some ⟨true, true⟩
    else x.upstreamInterest

/-- `forward_cleanup` takes the upstream out of the event set. -/
def forwardStep (x : Forwarded) (e : ForwardFifo.Event) : Forwarded :=
  let relay := ForwardFifo.step x.relay e
  ⟨relay, if relay.closed then none else if x.relay.closed then x.upstreamInterest else eventSet x e⟩

/-- `up_buf` waits for the target, or a connect is in progress. -/
def ForwardOwing (fs : ForwardState) : Prop := fs.connected = false ∨ waiting fs ≠ []

def ForwardAwake (x : Forwarded) : Prop :=
  x.relay.closed = false → ForwardOwing x.relay.fs → wakes x.upstreamInterest

/-- The flush that comes with the end of `connect` empties `up_buf`. -/
def Flushed (x : Forwarded) : ForwardFifo.Event → Prop
  | .upstream events io => covers x.upstreamInterest events = true ∧
      (events.write = true → x.relay.fs.connected = false → io.soerr = false →
        (io.flush.taken (waiting x.relay.fs).length).getD 0 = (waiting x.relay.fs).length)
  | .downstreamData _ _ => True

/-- What `event_wait` reports. -/
def Reported (x : Forwarded) : ForwardFifo.Event → Prop
  | .upstream events _ => covers x.upstreamInterest events = true
  | .downstreamData _ _ => True

/-- A datagram is never kept. -/
structure ForwardWoken (x : Forwarded) : Prop where
  awake : ForwardOwing x.relay.fs → wakes x.upstreamInterest
  datagram : x.relay.fs.upstreamProto = .udp → ¬ForwardOwing x.relay.fs

variable {fs fs' : ForwardState} {f : Forwarded}

/-- A flush leaves something only of what was there. -/
theorem upstreamWrite_owing {soerr : Bool} {r : WriteResult}
    (written : forwardOnUpstreamWrite soerr r fs = some fs') :
    fs'.upstreamProto = fs.upstreamProto ∧ fs'.connected = true ∧
      (waiting fs = [] ∨ (r.taken (waiting fs).length).getD 0 = (waiting fs).length →
        waiting fs' = []) := by
  unfold forwardOnUpstreamWrite at written
  split at written
  · cases written
  dsimp only at written
  split at written
  · rename_i empty
    cases written
    exact ⟨rfl, rfl, fun _ => empty⟩
  rename_i waits
  split at written
  · cases written
    exact ⟨rfl, rfl, fun _ => List.drop_nil⟩
  · rename_i short
    cases written
    refine ⟨rfl, rfl, fun all => ?_⟩
    rcases all with empty | all
    · exact absurd empty waits
    · exact absurd all short

theorem downstreamData_owing {r : WriteResult}
    (sent : forwardOnDownstreamData data r fs = some fs') :
    fs'.upstreamProto = fs.upstreamProto ∧ (fs.upstreamProto = .udp → fs' = fs) ∧
      (ForwardOwing fs' → ForwardOwing fs ∨ fs.upstreamProto ≠ .udp ∧ fs.connected = true ∧
        (r.taken data.length).any (· < data.length) = true) := by
  unfold forwardOnDownstreamData at sent
  split at sent
  · cases sent
    exact ⟨rfl, fun _ => rfl, Or.inl⟩
  rename_i stream
  split at sent
  · rename_i unconnected
    cases sent
    refine ⟨rfl, fun udp => absurd udp stream, fun _ => Or.inl (Or.inl ?_)⟩
    simpa using unconnected
  rename_i connected
  split at sent
  · cases sent
  rename_i n taken
  split at sent
  · rename_i short
    cases sent
    refine ⟨rfl, fun udp => absurd udp stream, fun _ => Or.inr ⟨stream, ?_, ?_⟩⟩
    · simpa using connected
    · rw [taken]
      exact decide_eq_true short
  · cases sent
    exact ⟨rfl, fun udp => absurd udp stream, Or.inl⟩

/-- The read part leaves the state of the upload alone. -/
theorem upstreamRead_fs (read : ReadResult) (known : Bool) (w : WriteResult) (x : Relay) :
    (ForwardFifo.onUpstreamRead read known w x).fs = x.fs := by
  cases read with
  | data buf => rfl
  | again => rfl
  | eof => rfl
  | failed => rfl

theorem forwardEvent_cases (events : Interest) (io : ForwardFifo.Io) (x : Relay) :
    (ForwardFifo.forwardOnUpstreamEvent events io x).closed = true ∨
      (events.write = false ∧ (ForwardFifo.forwardOnUpstreamEvent events io x).fs = x.fs) ∨
      ∃ fs', events.write = true ∧ forwardOnUpstreamWrite io.soerr io.flush x.fs = some fs' ∧
        (ForwardFifo.forwardOnUpstreamEvent events io x).fs = fs' := by
  have read (y : Relay) : (if events.read then ForwardFifo.onUpstreamRead io.read io.known io.write y
      else y).fs = y.fs := by
    split
    · exact upstreamRead_fs _ _ _ y
    · rfl
  unfold ForwardFifo.forwardOnUpstreamEvent ForwardFifo.writePart
  dsimp only
  cases write : events.write with
  | false =>
    right
    left
    rw [if_neg Bool.false_ne_true]
    split
    · exact ⟨rfl, rfl⟩
    · exact ⟨rfl, read x⟩
  | true =>
    rw [if_pos rfl]
    unfold ForwardFifo.onUpstreamWrite
    cases written : forwardOnUpstreamWrite io.soerr io.flush x.fs with
    | none => exact Or.inl rfl
    | some fs' =>
      refine Or.inr (Or.inr ⟨fs', rfl, rfl, ?_⟩)
      dsimp only
      split
      · rfl
      · exact read _

theorem forwardWoken_step (f : Forwarded) (e : ForwardFifo.Event)
    (h : f.relay.closed = false → ForwardWoken f) (flushed : Flushed f e)
    (live : (forwardStep f e).relay.closed = false) : ForwardWoken (forwardStep f e) := by
  have open_ : f.relay.closed = false := by
    by_contra closed
    rw [Bool.not_eq_false] at closed
    have same : (forwardStep f e).relay = f.relay := if_pos closed
    rw [same, closed] at live
    cases live
  obtain ⟨awake, datagram⟩ := h open_
  have interest : (forwardStep f e).upstreamInterest = eventSet f e := by
    change (if (forwardStep f e).relay.closed = true then _ else _) = _
    rw [live, open_]
    rfl
  cases e with
  | downstreamData data r =>
    have relay : (forwardStep f (.downstreamData data r)).relay =
        ForwardFifo.onDownstreamData data r f.relay := if_neg (by rw [open_]; simp)
    rw [relay] at live
    unfold ForwardFifo.onDownstreamData at live relay
    dsimp only at live relay
    cases sent : forwardOnDownstreamData data r f.relay.fs with
    | none =>
      rw [sent] at live
      cases live
    | some fs' =>
      rw [sent] at relay
      obtain ⟨proto, udp, owing⟩ := downstreamData_owing sent
      have now : (forwardStep f (.downstreamData data r)).relay.fs = fs' := by rw [relay]
      constructor
      · rw [now, interest, eventSet]
        intro waits
        rcases owing waits with before | cut
        · split
          · exact ⟨_, rfl, rfl⟩
          · exact awake before
        · rw [if_pos cut]
          exact ⟨_, rfl, rfl⟩
      · rw [now, proto]
        intro isUdp
        rw [udp isUdp]
        exact datagram isUdp
  | upstream events io =>
    have relay : (forwardStep f (.upstream events io)).relay =
        ForwardFifo.forwardOnUpstreamEvent events io f.relay := if_neg (by rw [open_]; simp)
    rw [relay] at live
    rcases forwardEvent_cases events io f.relay with closed | ⟨write, same⟩ | ⟨fs', write, written, now⟩
    · rw [live] at closed
      cases closed
    · constructor
      · rw [relay, same, interest, eventSet, if_neg (by rw [write]; simp)]
        exact awake
      · rw [relay, same]
        exact datagram
    · obtain ⟨proto, connected, emptied⟩ := upstreamWrite_owing written
      have settled (none : waiting fs' = []) : ¬ForwardOwing fs' := by
        rintro (unconnected | waits)
        · cases connected.symm.trans unconnected
        · exact waits none
      constructor
      · rw [relay, now, interest, eventSet]
        intro waits
        cases before : f.relay.fs.connected with
        | true =>
          rw [if_neg (by simp)]
          apply awake
          right
          intro empty
          exact settled (emptied (Or.inl empty)) waits
        | false =>
          have noError : io.soerr = false := by
            unfold forwardOnUpstreamWrite at written
            rw [before] at written
            cases soerr : io.soerr with
            | false => rfl
            | true =>
              rw [soerr] at written
              cases written
          exact absurd waits (settled (emptied (Or.inr (flushed.2 write before noError))))
      · rw [relay, now, proto]
        intro udp
        apply settled
        apply emptied
        left
        by_contra waits
        exact datagram udp (Or.inr waits)

theorem forwardOnAccept_woken (proto : ForwardProto) (upstreamFd : Nat) :
    ForwardWoken (forwardOnAccept proto upstreamFd) := by
  cases proto with
  | udp =>
    have settled : ¬ForwardOwing (forwardOnAccept .udp upstreamFd).relay.fs := by
      rintro (unconnected | waits)
      · cases unconnected
      · exact waits rfl
    exact ⟨fun owing => absurd owing settled, fun _ => settled⟩
  | tcp => exact ⟨fun _ => ⟨_, rfl, rfl⟩, by rintro ⟨⟩⟩
  | unix => exact ⟨fun _ => ⟨_, rfl, rfl⟩, by rintro ⟨⟩⟩

/-- What is buffered for a descriptor is woken up: of a proxied connection while something
waits in one direction only, and of a forwarded one when the end of `connect` leaves nothing
in `up_buf`. -/
theorem buffered_is_woken (p : HttpParser) (route : Route) (cd : Client) (upstreamFd : Nat)
    (reusedConn : Bool) (now : Int) (leftover : Bytes) (r : WriteResult) (es : List LoopEvent)
    (proto : ForwardProto) (targetFd : Nat) (events : List ForwardFifo.Event) :
    (Guarded loopStep Steady (opened p route cd upstreamFd reusedConn now leftover r) es →
      Awake (run loopStep (opened p route cd upstreamFd reusedConn now leftover r) es).exchange) ∧
    (Guarded forwardStep Flushed (forwardOnAccept proto targetFd) events →
      ForwardAwake (run forwardStep (forwardOnAccept proto targetFd) events)) := by
  constructor
  · intro steady
    have woken : Woken (run loopStep (opened p route cd upstreamFd reusedConn now leftover r)
        es).exchange :=
      run_invariant woken_step (opened_woken p route cd upstreamFd reusedConn now leftover r) steady
    exact woken.awake
  · intro flushed live
    have kept : (run forwardStep (forwardOnAccept proto targetFd) events).relay.closed = false →
        ForwardWoken (run forwardStep (forwardOnAccept proto targetFd) events) :=
      run_invariant forwardWoken_step (fun _ => forwardOnAccept_woken proto targetFd) flushed
    exact (kept live).awake

open DownstreamFifo (ready getEvents upgradeParser plainRoute)

/-- The client takes the response in two parts. -/
def oneWay : List LoopEvent :=
  [.wait [.upstream ⟨true, true⟩], .next ready,
    .next { ready with read := .data (ascii "HTTP/1.1 200 OK"), clientWrite := .wrote 4 }]

/-- The target takes all that came before the end of `connect`. -/
def early (flush : WriteResult) : List ForwardFifo.Event :=
  [.downstreamData (ascii "abc") .again,
    .upstream ⟨false, true⟩ ⟨false, flush, .again, true, .again⟩]

theorem buffered_is_woken_sample :
    Awake (run loopStep (opened (getParser 4) plainRoute sampleClient 9 false 0 [] .again)
        oneWay).exchange ∧
      ForwardAwake (run forwardStep (forwardOnAccept .tcp 9) (early (.wrote 3))) := by
  have woken := buffered_is_woken (getParser 4) plainRoute sampleClient 9 false 0 [] .again oneWay
    .tcp 9 (early (.wrote 3))
  constructor
  · apply woken.1
    refine ⟨?_, ?_, ?_, trivial⟩
    · exact ⟨by decide, by decide +kernel⟩
    · rintro _ ⟨⟩
      trivial
    · rintro _ ⟨⟩ owing
      exact absurd owing (by decide +kernel)
  · apply woken.2
    refine ⟨trivial, ⟨rfl, fun _ _ _ => ?_⟩, trivial⟩
    decide

/-- The client sends `xyz`, of which the upstream takes one byte, the upstream sends `abc`, of
which the client takes one byte, and then the client takes the rest. -/
def congested : List LoopEvent :=
  [.wait [.upstream ⟨true, true⟩], .next ready, .next ready,
    .wait [.client ⟨true, false⟩],
    .next { ready with recv := .data (ascii "xyz"), bodyWrite := .wrote 1 },
    .wait [.upstream ⟨true, false⟩],
    .next { ready with read := .data (ascii "abc"), clientWrite := .wrote 1 },
    .wait [.client ⟨false, true⟩], .next ready]

/-- The upstream is then registered for reading only, with `yz` unsent. A forward relay has
`bc` unsent after `connect` has completed. -/
theorem buffered_is_not_woken :
    (¬ ∀ es : List LoopEvent,
      Guarded loopStep Watched (opened upgradeParser plainRoute sampleClient 9 false 0 [] .again) es →
        let x := (run loopStep (opened upgradeParser plainRoute sampleClient 9 false 0 [] .again)
          es).exchange
        x.ended = false → Awake x) ∧
    ¬ ∀ es : List ForwardFifo.Event, Guarded forwardStep Reported (forwardOnAccept .tcp 9) es →
      ForwardAwake (run forwardStep (forwardOnAccept .tcp 9) es) := by
  constructor
  · intro awake
    have kept := awake congested (by decide +kernel) (by decide +kernel)
    have drained : (run loopStep (opened upgradeParser plainRoute sampleClient 9 false 0 [] .again)
        congested).exchange.ps.undelivered = [] := by decide +kernel
    have reading : (run loopStep (opened upgradeParser plainRoute sampleClient 9 false 0 [] .again)
        congested).exchange.upstreamInterest = some ⟨true, false⟩ := by decide +kernel
    rcases kept.upstream (by decide +kernel) with ⟨i, registered, write⟩ | deferred
    · cases reading.symm.trans registered
      cases write
    · exact deferred.2.1 drained
  · intro awake
    have reading : (run forwardStep (forwardOnAccept .tcp 9) (early (.wrote 1))).upstreamInterest =
        some ⟨true, false⟩ := by decide +kernel
    have waits : waiting (run forwardStep (forwardOnAccept .tcp 9) (early (.wrote 1))).relay.fs =
        ascii "bc" := by decide +kernel
    obtain ⟨i, registered, write⟩ := awake (early (.wrote 1)) ⟨trivial, rfl, trivial⟩
      (by decide +kernel) (Or.inr (by rw [waits]; decide))
    cases reading.symm.trans registered
    cases write

end Wakeups
