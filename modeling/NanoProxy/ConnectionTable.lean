import NanoProxy.EventLoop
import NanoProxy.ParserPasses
import Mathlib.Logic.Relation

/-!
# The connection table

Whatever a handler does to the slots is a sequence of moves, in any state of the other
tables: the flags of a slot change, its parser is fed or reset, a request is dispatched, a
connection is admitted or deleted.
-/

namespace ConnectionTable

open CLib HttpRequestParser ParserPasses ProxyExchange KeepalivePool ForwardRelay EventLoop
open Function

/-- `sending_body` with `send_remaining > 0` -/
def Sending (cd : ClientData) : Prop := cd.sendingBody = true ∧ cd.sendRemaining ≠ 0

instance (cd : ClientData) : Decidable (Sending cd) :=
  inferInstanceAs (Decidable (cd.sendingBody = true ∧ cd.sendRemaining ≠ 0))

/-- A request has been read, or is read by a handler that streams its body. -/
structure Requested (cd : ClientData) : Prop where
  read : 0 < cd.bytesRead
  headers : readingHeaders cd.parser = false
  complete : cd.parser.state = .done ∨ cd.parser.streamingBody = true

/-- `b` serves the request that `a` serves. -/
structure SameRequest (a b : ClientData) : Prop where
  fd : b.fd = a.fd
  conn : b.conn = a.conn
  peerIp : b.peerIp = a.peerIp
  bytesRead : b.bytesRead = a.bytesRead
  start : b.start = a.start
  waitingSince : b.waitingSince = a.waitingSince
  acceptTime : b.acceptTime = a.acceptTime
  state : b.parser.state = a.parser.state
  sending : Sending b → Sending a ∨ Requested a
  streaming : b.parser.streamingBody = true → a.parser.streamingBody = true ∨ Requested a

/-- What is asked of the connections that are admitted, and of the slots whose parser is
fed. -/
structure Rules where
  enroll : AcceptIo → Prop
  feed : ClientData → Prop

def noRules : Rules := ⟨fun _ => True, fun _ => True⟩

/-- What a handler does to the slots. -/
inductive Move (rules : Rules) (w : World) : World → Prop
  | other (w' : World) (clients : w'.clients = w.clients) (index : w'.fdToIndex = w.fdToIndex)
      (counts : w'.ipConnCounts = w.ipConnCounts) (nextConn : w'.nextConn = w.nextConn)
      (dispatched : w'.dispatched = w.dispatched) : Move rules w w'
  | flags (i : Nat) (cd : ClientData) (same : SameRequest (w.clients i) cd) :
      Move rules w (setClient i cd w)
  | reset (i : Nat) : Move rules w (resetParser i w)
  | count (i : Nat) (data : Bytes) : Move rules w (countRead i data w)
  | feed (i : Nat) (data : Bytes) (ok : rules.feed (w.clients i)) : Move rules w
      (storeParser i (httpParserFeed .default (w.clients i).parser data).1 data.length w)
  | request (c : Fd) (i : Nat) (data : Bytes) (index : w.fdToIndex c = some i)
      (some_data : data ≠ []) (positive : 0 < (httpParserFeed .default (w.clients i).parser data).2)
      (ok : rules.feed (w.clients i)) : Move rules w (noteDispatch i
        (storeParser i (httpParserFeed .default (w.clients i).parser data).1 data.length w))
  | http (i : Nat) (io : AcceptIo) (unread : (w.clients i).bytesRead = 0) :
      Move rules w (setClient i { w.clients i with
        isHttp := true, parser := httpParserInit io.fd, info := io.info } w)
  | enroll (io : AcceptIo) (i : Nat) (index : w.fdToIndex io.fd = some i)
      (unknown : (w.clients i).peerIp = [])
      (below : io.limited = true → w.ipConnCounts io.ip < io.limit) (ok : rules.enroll io) :
      Move rules w (enroll io i w)
  | drop (c : Fd) : Move rules w (connDel c w)

abbrev Moves (rules : Rules) : World → World → Prop := Relation.ReflTransGen (Move rules)

variable {rules : Rules} {w : World}

theorem Moves.other (w' : World) (clients : w'.clients = w.clients)
    (index : w'.fdToIndex = w.fdToIndex) (counts : w'.ipConnCounts = w.ipConnCounts)
    (nextConn : w'.nextConn = w.nextConn) (dispatched : w'.dispatched = w.dispatched) :
    Moves rules w w' := .single (.other w' clients index counts nextConn dispatched)

theorem Moves.flags (i : Nat) (cd : ClientData) (same : SameRequest (w.clients i) cd) :
    Moves rules w (setClient i cd w) := .single (.flags i cd same)

theorem resetParser_moves (i : Nat) (w : World) : Moves rules w (resetParser i w) :=
  .single (.reset i)

theorem closeFds_moves (fds : List Fd) (w : World) : Moves rules w (closeFds fds w) := by
  induction fds generalizing w with
  | nil => exact .refl
  | cons fd fds ih => exact .head (.other (closeFd fd w) rfl rfl rfl rfl rfl) (ih (closeFd fd w))

theorem releaseUpstream_moves (x : Exchange) (w : World) : Moves rules w (releaseUpstream x w) := by
  unfold releaseUpstream
  dsimp only
  split
  · refine .trans ?_ (closeFds_moves _ _)
    exact Moves.other _ rfl rfl rfl rfl rfl
  · exact Moves.other _ rfl rfl rfl rfl rfl

theorem releaseClient_moves (c : Fd) (x : Exchange) (w : World) :
    Moves rules w (releaseClient c x w) := by
  unfold releaseClient
  split
  · exact .refl
  rename_i i _
  have idle : Moves rules w (setClient i { w.clients i with
      proxyActive := false, proxyStreaming := false, sendingBody := false } w) := by
    refine Moves.flags i _ ⟨rfl, rfl, rfl, rfl, rfl, rfl, rfl, rfl, fun sending => ?_, Or.inl⟩
    exact absurd sending.1 Bool.false_ne_true
  dsimp only
  split
  · exact idle.trans (resetParser_moves i _)
  · exact idle.tail (.drop c)

theorem endExchange_moves (c : Fd) (x : Exchange) (w : World) :
    Moves rules w (endExchange c x w) := by
  have forgotten : Moves rules w (forgetExchange c x w) := Moves.other _ rfl rfl rfl rfl rfl
  exact (forgotten.trans (releaseUpstream_moves x _)).trans (releaseClient_moves c x _)

theorem storeExchange_moves (c : Fd) (x : Exchange) (w : World) :
    Moves rules w (storeExchange c x w) := by
  unfold storeExchange
  split
  · exact endExchange_moves c x w
  · exact Moves.other _ rfl rfl rfl rfl rfl

theorem noteDelivery_moves (c : Fd) (x y : Exchange) (w : World) :
    Moves rules w (noteDelivery c x y w) := by
  unfold noteDelivery
  split
  · exact .refl
  · exact Moves.other _ rfl rfl rfl rfl rfl

theorem readFd_moves (u : Fd) (r : ReadChoice) (w : World) : Moves rules w (readFd u r w).2 := by
  unfold readFd
  split
  · exact .refl
  split
  · exact .refl
  · split
    · exact .refl
    · exact Moves.other _ rfl rfl rfl rfl rfl
  · split
    · exact .refl
    · exact Moves.other _ rfl rfl rfl rfl rfl

theorem noteRead_moves (c u : Fd) (r : ReadResult) (w : World) :
    Moves rules w (noteRead c u r w) := by
  cases r with
  | data buf => exact Moves.other _ rfl rfl rfl rfl rfl
  | again => exact .refl
  | eof => exact .refl
  | failed => exact .refl

theorem proxyOnUpstreamWrite_moves (u : Fd) (soerr : Bool) (r : WriteResult) (w : World) :
    Moves rules w (EventLoop.proxyOnUpstreamWrite u soerr r w) := by
  unfold EventLoop.proxyOnUpstreamWrite
  split
  · exact .refl
  split
  · exact .refl
  · exact storeExchange_moves _ _ w

theorem proxyOnUpstreamRead_moves (u : Fd) (r : ReadChoice) (cw : WriteResult) (w : World) :
    Moves rules w (EventLoop.proxyOnUpstreamRead u r cw w) := by
  unfold EventLoop.proxyOnUpstreamRead
  split
  · exact .refl
  split
  · exact .refl
  rename_i c _ _ x _
  have noted : Moves rules w (noteRead c u (readFd u r w).1 (readFd u r w).2) :=
    (readFd_moves u r w).trans (noteRead_moves c u _ _)
  exact (noted.trans (noteDelivery_moves _ _ _ _)).trans (storeExchange_moves _ _ _)

theorem proxyOnBodyData_moves (c : Fd) (data : Bytes) (r : WriteResult) (w : World) :
    Moves rules w (EventLoop.proxyOnBodyData c data r w) := by
  unfold EventLoop.proxyOnBodyData
  split
  · exact .refl
  · exact storeExchange_moves _ _ w

theorem proxyOnClientWritable_moves (c : Fd) (cw : WriteResult) (w : World) :
    Moves rules w (EventLoop.proxyOnClientWritable c cw w) := by
  unfold EventLoop.proxyOnClientWritable
  split
  · exact .refl
  · exact (noteDelivery_moves _ _ _ _).trans (storeExchange_moves _ _ _)

theorem reusePooled_moves (route : Route) (peerClosed : Bool) (w : World) :
    Moves rules w (reusePooled route peerClosed w).2 ∧
      (reusePooled route peerClosed w).2.clients = w.clients := by
  unfold reusePooled
  split
  · exact ⟨.refl, rfl⟩
  split
  · exact ⟨.refl, rfl⟩
  dsimp only
  split
  · exact ⟨Moves.other _ rfl rfl rfl rfl rfl, rfl⟩
  · exact ⟨Moves.other _ rfl rfl rfl rfl rfl, rfl⟩

theorem startExchange_moves {i : Nat} {route : Route} {u : Fd} {reused : Bool}
    (requested : Requested (w.clients i)) : Moves rules w (startExchange i route u reused w) := by
  unfold startExchange
  dsimp only
  refine .trans ?_ (Moves.flags i _ ⟨rfl, rfl, rfl, rfl, rfl, rfl, rfl, rfl,
    fun _ => Or.inr requested, fun _ => Or.inr requested⟩)
  exact Moves.other _ rfl rfl rfl rfl rfl

theorem proxyHandler_moves {i : Nat} {route : Route} {io : DispatchIo}
    (requested : Requested (w.clients i)) : Moves rules w (proxyHandler i route io w) := by
  obtain ⟨reused, clients⟩ := @reusePooled_moves rules route io.peerClosed w
  unfold proxyHandler
  cases hpooled : reusePooled route io.peerClosed w with
  | mk pooled w₁ =>
    rw [hpooled] at reused clients
    have requested₁ : Requested (w₁.clients i) := by rwa [clients]
    cases pooled with
    | some u => exact reused.trans (startExchange_moves requested₁)
    | none =>
      dsimp only
      split
      · exact reused
      · exact reused.trans (startExchange_moves requested₁)

theorem finishSend_moves (i : Nat) (w : World) : Moves rules w (finishSend i w) := by
  unfold finishSend
  have sent : Moves rules w (setClient i { w.clients i with
      sendingBody := false, sendRemaining := 0 } w) := by
    refine Moves.flags i _ ⟨rfl, rfl, rfl, rfl, rfl, rfl, rfl, rfl, fun sending => ?_, Or.inl⟩
    exact absurd sending.1 Bool.false_ne_true
  dsimp only
  split
  · exact sent.trans (resetParser_moves i _)
  · exact sent.tail (.drop _)

theorem finishHead_moves (i : Nat) (w : World) : Moves rules w (finishHead i w) := by
  unfold finishHead
  split
  · exact resetParser_moves i w
  · exact .single (.drop _)

theorem contentHandler_moves {i : Nat} (reply : Reply) (requested : Requested (w.clients i)) :
    Moves rules w (contentHandler i reply w) := by
  cases reply with
  | written => exact .refl
  | head => exact finishHead_moves i w
  | sent => exact finishSend_moves i w
  | sending n =>
    exact Moves.flags i _ ⟨rfl, rfl, rfl, rfl, rfl, rfl, rfl, rfl,
      fun _ => Or.inr requested, Or.inl⟩
  | broken => exact .single (.drop _)

theorem persistOrClose_moves (i : Nat) (keepAlive : Bool) (w : World) :
    Moves rules w (persistOrClose i keepAlive w) := by
  unfold persistOrClose
  dsimp only
  split
  · exact .refl
  split
  · exact resetParser_moves i w
  split
  · exact .single (.drop _)
  · exact .refl

theorem bestHandler_moves {i : Nat} {io : DispatchIo} (requested : Requested (w.clients i)) :
    Moves rules w (bestHandler i io w) := by
  unfold bestHandler
  split
  · exact proxyHandler_moves requested
  · exact contentHandler_moves _ requested

theorem resumeSend_moves (c : Fd) (r : SendResult) (w : World) :
    Moves rules w (resumeSend c r w) := by
  unfold resumeSend
  split
  · exact .refl
  rename_i i _
  dsimp only
  split
  · exact .refl
  rename_i sending
  split
  · exact .single (.drop _)
  rename_i n
  generalize (w.clients i).sendRemaining - min n (w.clients i).sendRemaining = left
  have sent : Moves rules w (setClient i { w.clients i with sendRemaining := left } w) := by
    refine Moves.flags i _ ⟨rfl, rfl, rfl, rfl, rfl, rfl, rfl, rfl, fun _ => Or.inl ?_, Or.inl⟩
    simpa [Sending] using sending
  split
  · exact sent.trans (finishSend_moves i _)
  · exact sent

theorem forwardCleanup_moves (d : Fd) (w : World) : Moves rules w (forwardCleanup d w) := by
  unfold forwardCleanup
  split
  · exact .refl
  dsimp only
  split
  · exact Moves.other _ rfl rfl rfl rfl rfl
  · refine .trans ?_ (Moves.flags _ _ ⟨rfl, rfl, rfl, rfl, rfl, rfl, rfl, rfl, Or.inl, Or.inl⟩)
    exact Moves.other _ rfl rfl rfl rfl rfl

theorem forwardOnAccept_moves (c : Fd) (proto : ForwardProto) (connect : Option Fd) (w : World) :
    Moves rules w (forwardOnAccept c proto connect w) := by
  unfold forwardOnAccept
  split
  · exact Moves.other _ rfl rfl rfl rfl rfl
  dsimp only
  split
  · exact Moves.other _ rfl rfl rfl rfl rfl
  · refine .trans ?_ (Moves.flags _ _ ⟨rfl, rfl, rfl, rfl, rfl, rfl, rfl, rfl, Or.inl, Or.inl⟩)
    exact Moves.other _ rfl rfl rfl rfl rfl

theorem forwardOnUpstreamWrite_moves (u : Fd) (soerr : Bool) (r : WriteResult) (w : World) :
    Moves rules w (EventLoop.forwardOnUpstreamWrite u soerr r w) := by
  unfold EventLoop.forwardOnUpstreamWrite
  split
  · exact .refl
  split
  · exact .refl
  split
  · exact (forwardCleanup_moves _ w).tail (.drop _)
  · exact Moves.other _ rfl rfl rfl rfl rfl

theorem forwardOnUpstreamRead_moves (u : Fd) (r : ReadChoice) (w : World) :
    Moves rules w (forwardOnUpstreamRead u r w) := by
  have read := @readFd_moves rules u r w
  unfold forwardOnUpstreamRead
  split
  · exact .refl
  split
  · exact .refl
  split
  · rename_i w₁ result
    rw [result] at read
    exact read
  · rename_i w₁ _ result
    rw [result] at read
    exact (read.trans (forwardCleanup_moves _ _)).tail (.drop _)

theorem forwardOnDownstreamData_moves (d : Fd) (data : Bytes) (r : WriteResult) (w : World) :
    Moves rules w (EventLoop.forwardOnDownstreamData d data r w) := by
  unfold EventLoop.forwardOnDownstreamData
  split
  · exact .refl
  split
  · exact forwardCleanup_moves d w
  · exact Moves.other _ rfl rfl rfl rfl rfl

theorem forwardLeftover_moves (c : Fd) (i : Nat) (r : WriteResult) (w : World) :
    Moves rules w (forwardLeftover c i r w) := by
  unfold forwardLeftover
  dsimp only
  split
  · exact .refl
  split
  · exact .refl
  · refine .trans ?_ (proxyOnBodyData_moves _ _ _ _)
    exact Moves.flags i _ ⟨rfl, rfl, rfl, rfl, rfl, rfl, rfl, rfl, Or.inl, Or.inl⟩

theorem onHttpData_moves {c : Fd} {i : Nat} {data : Bytes} (index : w.fdToIndex c = some i)
    (some_data : data ≠ []) (io : DispatchIo) (ok : rules.feed (w.clients i)) :
    Moves rules w (onHttpData c i data io w) := by
  have fed := httpParserFeed_fed .default (w.clients i).parser data
  have stored : Move rules w (storeParser i _ data.length w) := .feed i data ok
  have noted (positive : 0 < (httpParserFeed .default (w.clients i).parser data).2) :=
    Move.request c i data index some_data positive ok
  unfold onHttpData
  generalize httpParserFeed .default (w.clients i).parser data = feed at *
  obtain ⟨parser, res⟩ := feed
  dsimp only at *
  split
  · exact .tail (.single stored) (.drop c)
  rename_i valid
  split
  · exact .single stored
  rename_i complete
  have positive : 0 < res := by omega
  have requested : Requested ((noteDispatch i (storeParser i parser data.length w)).clients i) := by
    have slot : (storeParser i parser data.length w).clients i = { w.clients i with
        parser := parser
        bytesRead := (w.clients i).bytesRead + data.length
        lastActivity := w.now } := update_self ..
    change Requested ((storeParser i parser data.length w).clients i)
    rw [slot]
    refine ⟨Nat.add_pos_right _ (List.length_pos_iff.mpr some_data),
      fed.behind (Or.inr positive), ?_⟩
    rcases fed.codes with rfl | rfl | ⟨_, done⟩ | ⟨_, streaming⟩
    · exact absurd positive (by decide)
    · exact absurd positive (by decide)
    · exact Or.inl done
    · exact Or.inr (fed.streamingBody.trans streaming)
  have dispatched : Moves rules w (httpDispatcher i io (storeParser i parser data.length w)) :=
    .head (noted positive) ((bestHandler_moves requested).trans (persistOrClose_moves i _ _))
  split
  · exact dispatched.trans (forwardLeftover_moves _ _ _ _)
  · exact dispatched

/-- What the rules ask of an event. -/
def Allowed (rules : Rules) (w : World) : EventLoop.Event → Prop
  | .accept io => rules.enroll io
  | .clientReadable c (.data _) _ => ∀ i ∈ w.fdToIndex c, (w.clients i).forwardActive = true ∨
      (w.clients i).isHttp = false ∨ (w.clients i).proxyStreaming = true ∨ rules.feed (w.clients i)
  | _ => True

theorem allowed_of_admitted {e : EventLoop.Event} (free : ∀ cd, rules.feed cd)
    (admitted : ∀ io, e = .accept io → rules.enroll io) : Allowed rules w e := by
  cases e with
  | accept io => exact admitted io rfl
  | clientReadable c r io =>
    cases r with
    | data buf => exact fun i _ => Or.inr (Or.inr (Or.inr (free (w.clients i))))
    | again => trivial
    | eof => trivial
    | failed => trivial
  | clientWritable c cw r => trivial
  | upstreamWritable u soerr r => trivial
  | upstreamReadable u r cw => trivial
  | timer now exchanges slots => trivial
  | arrive u data => trivial

theorem myOnRead_moves {c : Fd} {r : ReadResult} {io : DispatchIo}
    (allowed : Allowed rules w (.clientReadable c r io)) : Moves rules w (myOnRead c r io w) := by
  have close (i : Nat) : Moves rules w
      (connDel c (if (w.clients i).forwardActive then forwardCleanup c w else w)) := by
    split
    · exact (forwardCleanup_moves c w).tail (.drop c)
    · exact .single (.drop c)
  unfold myOnRead
  split
  · exact .refl
  rename_i i index
  split
  · exact .refl
  · rename_i b rest
    have counted : Moves rules w (countRead i (b :: rest) w) := .single (.count i (b :: rest))
    unfold onData
    dsimp only
    split
    · exact counted.trans (forwardOnDownstreamData_moves _ _ _ _)
    rename_i forwarding
    split
    · exact counted
    rename_i http
    split
    · exact counted.trans (proxyOnBodyData_moves _ _ _ _)
    rename_i streaming
    refine onHttpData_moves index (List.cons_ne_nil b rest) io ?_
    rcases allowed i index with forward | plain | streamed | ok
    · exact absurd forward forwarding
    · exact absurd plain (by simpa using http)
    · exact absurd streamed streaming
    · exact ok
  · exact close i

theorem myOnWrite_moves (c : Fd) (cw : WriteResult) (r : SendResult) (w : World) :
    Moves rules w (myOnWrite c cw r w) := by
  unfold myOnWrite
  split
  · exact .refl
  split
  · exact .refl
  split
  · exact proxyOnClientWritable_moves c cw w
  · exact resumeSend_moves c r w

theorem proxyTimeouts_moves (exchanges : List Fd) (w : World) :
    Moves rules w (exchanges.foldl proxyTimeout w) := by
  induction exchanges generalizing w with
  | nil => exact .refl
  | cons c rest ih =>
    have one : Moves rules w (proxyTimeout w c) := by
      unfold proxyTimeout
      split
      · exact .refl
      split
      · unfold proxyCleanup
        split
        · exact .refl
        · exact endExchange_moves _ _ w
      · exact .refl
    exact one.trans (ih _)

theorem connDels_moves (fds : List Fd) (w : World) :
    Moves rules w (fds.foldl (fun w fd => connDel fd w) w) := by
  induction fds generalizing w with
  | nil => exact .refl
  | cons fd rest ih => exact .head (.drop fd) (ih _)

theorem serverTimeoutSweep_moves (exchanges : List Fd) (slots : List Nat) (w : World) :
    Moves rules w (serverTimeoutSweep exchanges slots w) := by
  have stale : Moves rules w (connectionTimeoutSweep slots (exchanges.foldl proxyTimeout w)) :=
    (proxyTimeouts_moves exchanges w).trans (connDels_moves _ _)
  refine stale.trans (.trans ?_ (closeFds_moves _ _))
  exact Moves.other _ rfl rfl rfl rfl rfl

theorem attach_moves {io : AcceptIo} {i : Nat} (unread : (w.clients i).bytesRead = 0) :
    Moves rules w (attach io i w) := by
  have known : Moves rules w (setClient i { w.clients i with info := io.info } w) :=
    Moves.flags i _ ⟨rfl, rfl, rfl, rfl, rfl, rfl, rfl, rfl, Or.inl, Or.inl⟩
  unfold attach
  cases io.listener with
  | http =>
    have parsed : Moves rules w (setClient i { w.clients i with
        isHttp := true, parser := httpParserInit io.fd, info := io.info } w) :=
      .single (.http i io unread)
    dsimp only
    split
    · exact parsed.tail (.drop _)
    · exact parsed
  | socket =>
    dsimp only
    split
    · exact known.tail (.drop _)
    · exact known
  | forward proto =>
    dsimp only
    split
    · exact known.tail (.drop _)
    · exact known.trans (forwardOnAccept_moves _ _ _ _)

theorem setUpClient_moves {io : AcceptIo} {i : Nat} (index : w.fdToIndex io.fd = some i)
    (unknown : (w.clients i).peerIp = []) (unread : (w.clients i).bytesRead = 0)
    (ok : rules.enroll io) : Moves rules w (setUpClient io w) := by
  unfold setUpClient
  split
  · exact .single (.drop _)
  rename_i room
  rw [index]
  have admitted : Move rules w (enroll io i w) := by
    refine .enroll io i index unknown (fun limited => ?_) ok
    rw [limited, Bool.true_and, decide_eq_true_eq, Nat.not_le] at room
    exact room
  refine .head admitted (attach_moves ?_)
  simpa [enroll, setClient] using unread

/-- A new connection takes a slot, or finds none, before anything else happens. -/
inductive Entry (w : World) : EventLoop.Event → World → Prop
  | none (e : EventLoop.Event) : Entry w e w
  | slot (io : AcceptIo) (i : Nat) (nonzero : io.fd ≠ 0) (closed : w.sockets io.fd = none)
      (room : i < NUM_CLIENTS) (free : (w.clients i).fd = 0) :
      Entry w (.accept io) (register io.fd i (accept io.fd w))
  | full (io : AcceptIo) : Entry w (.accept io) (closeFd io.fd (accept io.fd w))

theorem freeSlot_some {n i j : Nat} (h : freeSlot w n i = some j) :
    j < i + n ∧ (w.clients j).fd = 0 := by
  induction n generalizing i with
  | zero => cases h
  | succ n ih =>
    rw [freeSlot] at h
    split at h
    · rename_i free
      cases h
      exact ⟨Nat.lt_add_of_pos_right (Nat.succ_pos n), free⟩
    · obtain ⟨room, free⟩ := ih h
      exact ⟨by omega, free⟩

theorem connAdd_some {fd : Fd} {w' : World} (h : connAdd fd w = some w') :
    ∃ i < NUM_CLIENTS, (w.clients i).fd = 0 ∧ w' = register fd i w := by
  unfold connAdd at h
  split at h
  · cases h
  split at h
  · cases h
  rename_i i found
  cases h
  obtain ⟨room, free⟩ := freeSlot_some found
  exact ⟨i, Nat.zero_add NUM_CLIENTS ▸ room, free, rfl⟩

theorem myOnAccept_moves {io : AcceptIo} (ok : rules.enroll io) :
    ∃ w₁, Entry w (.accept io) w₁ ∧ Moves rules w₁ (myOnAccept io w) := by
  unfold myOnAccept
  split
  · exact ⟨w, .none _, .refl⟩
  rename_i usable
  rw [not_or, Option.not_isSome_iff_eq_none] at usable
  obtain ⟨nonzero, closed⟩ := usable
  split
  · exact ⟨_, .full io, .refl⟩
  rename_i w₁ added
  obtain ⟨i, room, free, rfl⟩ := connAdd_some added
  refine ⟨_, .slot io i nonzero closed room free, setUpClient_moves (update_self ..) ?_ ?_ ok⟩
  · simp [register, setClient]
  · simp [register, setClient]

/-- Whatever happens, the table takes at most one new connection and makes moves. -/
theorem step_moves {e : EventLoop.Event} (allowed : Allowed rules w e) :
    ∃ w₁, Entry w e w₁ ∧ Moves rules w₁ (EventLoop.step w e) := by
  cases e with
  | accept io => exact myOnAccept_moves allowed
  | clientReadable c result io => exact ⟨w, .none _, myOnRead_moves allowed⟩
  | clientWritable c cw sent => exact ⟨w, .none _, myOnWrite_moves c cw sent w⟩
  | upstreamWritable u soerr written =>
    refine ⟨w, .none _, ?_⟩
    rw [EventLoop.step]
    split
    · exact (forwardOnUpstreamWrite_moves _ _ _ _).trans (proxyOnUpstreamWrite_moves _ _ _ _)
    · exact .refl
  | upstreamReadable u choice cw =>
    refine ⟨w, .none _, ?_⟩
    rw [EventLoop.step]
    split
    · exact (forwardOnUpstreamRead_moves _ _ _).trans (proxyOnUpstreamRead_moves _ _ _ _)
    · exact .refl
  | timer now exchanges slots =>
    refine ⟨w, .none _, .head ?_ (serverTimeoutSweep_moves exchanges slots _)⟩
    exact .other { w with now := now } rfl rfl rfl rfl rfl
  | arrive u data =>
    refine ⟨w, .none _, ?_⟩
    rw [EventLoop.step]
    split
    · exact .refl
    · exact Moves.other _ rfl rfl rfl rfl rfl

/-- What a new slot and every move keep is kept by every step. -/
theorem step_table_invariant {inv : World → Prop} {e : EventLoop.Event}
    (enter : ∀ {w₁}, Entry w e w₁ → inv w₁) (keep : ∀ {w w₁}, inv w → Move rules w w₁ → inv w₁)
    (allowed : Allowed rules w e) : inv (EventLoop.step w e) := by
  obtain ⟨w₁, entry, moves⟩ := step_moves allowed
  generalize EventLoop.step w e = w₂ at moves
  induction moves with
  | refl => exact enter entry
  | tail _ move ih => exact keep ih move

end ConnectionTable
