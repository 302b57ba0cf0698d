import NanoProxy.LoopSteps

/-!
# The calls that a step makes

For every function of the event loop, in the order in which it makes them, the calls that
give a slot a new connection or take one away, that set up, reset or destroy the parser of
a slot, and that store or clean up an exchange. `Does` says what each of them does to the
slots and to the keys of `proxy_states`.
-/

namespace CallTrace

open CLib HttpRequestParser ProxyExchange KeepalivePool ForwardRelay EventLoop
open LoopSteps Function

inductive Call where
  /-- `conn_add` has filled the slot `i`, with a parser of zeros. -/
  | connAdd (i : Nat)
  /-- `http_parser_init(&clients[i].parser)` of `my_on_accept` -/
  | parserInit (i : Nat)
  /-- `http_parser_reset(&clients[i].parser)` -/
  | parserReset (i : Nat)
  /-- `conn_del` of the connection `cd` in the slot `i` -/
  | connDel (i : Nat) (cd : ClientData)
  /-- `proxy_handler` stores its state for the client `c`. -/
  | proxyStore (c : Fd)
  /-- `proxy_handler` finds no upstream connection. -/
  | proxyUnreachable (c : Fd)
  /-- `proxy_cleanup(c)` with a state to clean up -/
  | proxyCleanup (c : Fd)

def connDelCalls (c : Fd) (w : World) : List Call :=
  if c < 1 then [] else
  match w.fdToIndex c with
  | none => []
  | some i => [.connDel i (w.clients i)]

def releaseClientCalls (c : Fd) (x : Exchange) (w : World) : List Call :=
  match w.fdToIndex c with
  | none => []
  | some i =>
    let w := setClient i { w.clients i with
      proxyActive := false, proxyStreaming := false, sendingBody := false } w
    if x.ps.respPoolable && httpShouldKeepAlive (w.clients i).parser.req
      then [.parserReset i] else connDelCalls c w

def endExchangeCalls (c : Fd) (x : Exchange) (w : World) : List Call :=
  .proxyCleanup c :: releaseClientCalls c x (releaseUpstream x (forgetExchange c x w))

def proxyCleanupCalls (c : Fd) (w : World) : List Call :=
  match w.proxyStates c with
  | none => []
  | some x => endExchangeCalls c x w

def storeExchangeCalls (c : Fd) (x : Exchange) (w : World) : List Call :=
  if x.ended then endExchangeCalls c x w else []

def proxyOnUpstreamWriteCalls (u : Fd) (soerr : Bool) (r : WriteResult) (w : World) : List Call :=
  match w.upstreamFdToClient u with
  | none => []
  | some c => match w.proxyStates c with
    | none => []
    | some x => storeExchangeCalls c (handle x (.upstreamWritable soerr r)) w

def proxyOnUpstreamReadCalls (u : Fd) (r : ReadChoice) (cw : WriteResult) (w : World) :
    List Call :=
  match w.upstreamFdToClient u with
  | none => []
  | some c => match w.proxyStates c with
    | none => []
    | some x =>
      let (result, w) := readFd u r w
      let w := noteRead c u result w
      let y := handle x (.upstreamReadable (clientSide w c) result cw)
      storeExchangeCalls c y (noteDelivery c x y w)

def proxyOnBodyDataCalls (c : Fd) (data : Bytes) (r : WriteResult) (w : World) : List Call :=
  match w.proxyStates c with
  | none => []
  | some x => storeExchangeCalls c (handle x (.bodyData data r)) w

def proxyOnClientWritableCalls (c : Fd) (cw : WriteResult) (w : World) : List Call :=
  match w.proxyStates c with
  | none => []
  | some x =>
    let y := handle x (.clientWritable cw)
    storeExchangeCalls c y (noteDelivery c x y w)

def proxyHandlerCalls (i : Nat) (route : Route) (io : DispatchIo) (w : World) : List Call :=
  match reusePooled route io.peerClosed w with
  | (some _, w) => [.proxyStore (w.clients i).fd]
  | (none, w) => match connectFresh io.connect w with
    | none => [.proxyUnreachable (w.clients i).fd]
    | some _ => [.proxyStore (w.clients i).fd]

def finishHeadCalls (i : Nat) (w : World) : List Call :=
  if httpShouldKeepAlive (w.clients i).parser.req then [.parserReset i]
  else connDelCalls (w.clients i).fd w

def finishSendCalls (i : Nat) (w : World) : List Call :=
  let w := setClient i { w.clients i with sendingBody := false, sendRemaining := 0 } w
  if httpShouldKeepAlive (w.clients i).parser.req then [.parserReset i]
  else connDelCalls (w.clients i).fd w

def contentHandlerCalls (i : Nat) (reply : Reply) (w : World) : List Call :=
  match reply with
  | .written => []
  | .head => finishHeadCalls i w
  | .sent => finishSendCalls i w
  | .sending _ => []
  | .broken => connDelCalls (w.clients i).fd w

def bestHandlerCalls (i : Nat) (io : DispatchIo) (w : World) : List Call :=
  match io.route with
  | some route => proxyHandlerCalls i route io w
  | none => contentHandlerCalls i io.reply w

def persistOrCloseCalls (i : Nat) (keepAlive : Bool) (w : World) : List Call :=
  let cd := w.clients i
  if cd.proxyActive then []
  else if keepAlive then [.parserReset i]
  else if !cd.sendingBody || cd.sendRemaining = 0 then connDelCalls cd.parser.fd w
  else []

def httpDispatcherCalls (i : Nat) (io : DispatchIo) (w : World) : List Call :=
  bestHandlerCalls i io (noteDispatch i w) ++
    persistOrCloseCalls i (httpShouldKeepAlive (w.clients i).parser.req)
      (bestHandler i io (noteDispatch i w))

def resumeSendCalls (c : Fd) (r : SendResult) (w : World) : List Call :=
  match w.fdToIndex c with
  | none => []
  | some i =>
    let cd := w.clients i
    if !cd.sendingBody || cd.sendRemaining = 0 then [] else
    match r with
    | .failed => connDelCalls cd.fd w
    | .sent n =>
      let left := cd.sendRemaining - min n cd.sendRemaining
      let w := setClient i { cd with sendRemaining := left } w
      if left = 0 then finishSendCalls i w else []

def forwardOnUpstreamWriteCalls (u : Fd) (soerr : Bool) (r : WriteResult) (w : World) :
    List Call :=
  match w.forwardUpstreamMap u with
  | none => []
  | some d => match w.forwardStates d with
    | none => []
    | some fs => match ForwardRelay.forwardOnUpstreamWrite soerr r fs with
      | none => connDelCalls d (forwardCleanup d w)
      | some _ => []

def forwardOnUpstreamReadCalls (u : Fd) (r : ReadChoice) (w : World) : List Call :=
  match w.forwardUpstreamMap u with
  | none => []
  | some d => match w.forwardStates d with
    | none => []
    | some _ => match readFd u r w with
      | (.data _, _) => []
      | (_, w) => connDelCalls d (forwardCleanup d w)

def attachCalls (io : AcceptIo) (i : Nat) (w : World) : List Call :=
  let started : List Call := match io.listener with
    | .http => [.parserInit i]
    | _ => []
  let w := match io.listener with
    | .http => setClient i { w.clients i with
        isHttp := true, parser := httpParserInit io.fd, info := io.info } w
    | _ => setClient i { w.clients i with info := io.info } w
  started ++ if !io.registered then connDelCalls io.fd w else []

def setUpClientCalls (io : AcceptIo) (w : World) : List Call :=
  if io.limited && io.limit ≤ w.ipConnCounts io.ip then connDelCalls io.fd w else
  match w.fdToIndex io.fd with
  | none => []
  | some i => attachCalls io i (enroll io i w)

def myOnAcceptCalls (io : AcceptIo) (w : World) : List Call :=
  if io.fd = 0 ∨ (w.sockets io.fd).isSome then [] else
  match freeSlot (accept io.fd w) NUM_CLIENTS 0 with
  | none => []
  | some i => .connAdd i :: setUpClientCalls io (register io.fd i (accept io.fd w))

def forwardLeftoverCalls (c : Fd) (i : Nat) (r : WriteResult) (w : World) : List Call :=
  let cd := w.clients i
  if !cd.proxyStreaming then [] else
  let leftover := cd.parser.buffer.data.drop cd.parser.pos
  if leftover = [] then [] else
  let parser := { cd.parser with pos := cd.parser.buffer.size }
  proxyOnBodyDataCalls c leftover r (setClient i { cd with parser := parser } w)

def onHttpDataCalls (c : Fd) (i : Nat) (data : Bytes) (io : DispatchIo) (w : World) : List Call :=
  let (parser, res) := httpParserFeed .default (w.clients i).parser data
  let w := storeParser i parser data.length w
  if res < 0 then connDelCalls c w
  else if res = 0 then []
  else if res = 2 then
    httpDispatcherCalls i io w ++ forwardLeftoverCalls c i io.bodyWrite (httpDispatcher i io w)
  else httpDispatcherCalls i io w

def onDataCalls (c : Fd) (i : Nat) (data : Bytes) (io : DispatchIo) (w : World) : List Call :=
  let cd := w.clients i
  if cd.forwardActive then []
  else if !cd.isHttp then []
  else if cd.proxyStreaming then proxyOnBodyDataCalls c data io.bodyWrite (countRead i data w)
  else onHttpDataCalls c i data io w

def myOnReadCalls (c : Fd) (r : ReadResult) (io : DispatchIo) (w : World) : List Call :=
  match w.fdToIndex c with
  | none => []
  | some i => match r with
    | .again => []
    | .data (b :: rest) => onDataCalls c i (b :: rest) io w
    | _ => connDelCalls c (if (w.clients i).forwardActive then forwardCleanup c w else w)

def myOnWriteCalls (c : Fd) (cw : WriteResult) (r : SendResult) (w : World) : List Call :=
  match w.fdToIndex c with
  | none => []
  | some i =>
    if (w.clients i).forwardActive then []
    else if (w.clients i).proxyActive then proxyOnClientWritableCalls c cw w
    else resumeSendCalls c r w

def proxyTimeoutCalls (w : World) (c : Fd) : List Call :=
  match w.proxyStates c with
  | none => []
  | some x => if connectTimedOut w.now x then proxyCleanupCalls c w else []

/-- The calls of a loop over `xs`. -/
def foldCalls {α : Type} (f : World → α → World) (calls : World → α → List Call) :
    World → List α → List Call
  | _, [] => []
  | w, x :: xs => calls w x ++ foldCalls f calls (f w x) xs

def connectionTimeoutSweepCalls (slots : List Nat) (w : World) : List Call :=
  foldCalls (fun w fd => connDel fd w) (fun w fd => connDelCalls fd w) w
    (slots.filterMap (staleFd w))

def serverTimeoutSweepCalls (exchanges : List Fd) (slots : List Nat) (w : World) : List Call :=
  foldCalls proxyTimeout proxyTimeoutCalls w exchanges ++
    connectionTimeoutSweepCalls slots (exchanges.foldl proxyTimeout w)

def stepCalls (w : World) : EventLoop.Event → List Call
  | .accept io => myOnAcceptCalls io w
  | .clientReadable c r io => myOnReadCalls c r io w
  | .clientWritable c cw r => myOnWriteCalls c cw r w
  | .upstreamWritable u soerr r =>
    if w.fdToIndex u = none then
      forwardOnUpstreamWriteCalls u soerr r w ++
        proxyOnUpstreamWriteCalls u soerr r (forwardOnUpstreamWrite u soerr r w)
    else []
  | .upstreamReadable u r cw =>
    if w.fdToIndex u = none then
      forwardOnUpstreamReadCalls u r w ++
        proxyOnUpstreamReadCalls u r cw (forwardOnUpstreamRead u r w)
    else []
  | .timer now exchanges slots => serverTimeoutSweepCalls exchanges slots { w with now := now }
  | .arrive _ _ => []

/-- The flags by which `my_on_read` and `my_on_write` route. -/
structure SameFlags (a b : ClientData) : Prop where
  proxyActive : b.proxyActive = a.proxyActive
  proxyStreaming : b.proxyStreaming = a.proxyStreaming
  forwardActive : b.forwardActive = a.forwardActive

/-- `fd_to_index` names slots that hold the descriptor. -/
def Indexed (w : World) : Prop := ∀ c i, w.fdToIndex c = some i → c ≠ 0 ∧ (w.clients i).fd = c

/-- One piece of a handler and its call, if it is one. The flags of a free slot stay as they
are; whether a parser may be reset in a free slot is up to `late`. -/
inductive Piece (late : Prop) (w : World) : List Call → World → Prop
  | other (w' : World) (clients : w'.clients = w.clients) (index : w'.fdToIndex = w.fdToIndex)
      (keys : ∀ c, (w'.proxyStates c).isSome = (w.proxyStates c).isSome) : Piece late w [] w'
  | slot (i : Nat) (cd : ClientData) (fd : cd.fd = (w.clients i).fd)
      (kept : (w.clients i).fd ≠ 0 ∨ SameFlags (w.clients i) cd) :
      Piece late w [] (setClient i cd w)
  | add (fd : Fd) (i : Nat) (nonzero : fd ≠ 0) (free : (w.clients i).fd = 0) :
      Piece late w [.connAdd i] (register fd i (accept fd w))
  | init (i : Nat) (cd : ClientData) (live : (w.clients i).fd ≠ 0)
      (fd : cd.fd = (w.clients i).fd) : Piece late w [.parserInit i] (setClient i cd w)
  | reset (i : Nat) (kept : (w.clients i).fd ≠ 0 ∨ late) :
      Piece late w [.parserReset i] (resetParser i w)
  | delete (c : Fd) (i : Nat) (nonzero : c ≠ 0) (index : w.fdToIndex c = some i) :
      Piece late w [.connDel i (w.clients i)] (connDel c w)
  | store (c : Fd) (x : Exchange) (w' : World) (clients : w'.clients = w.clients)
      (index : w'.fdToIndex = w.fdToIndex)
      (states : w'.proxyStates = update w.proxyStates c (some x)) :
      Piece late w [.proxyStore c] w'
  | unreachable (c : Fd) : Piece late w [.proxyUnreachable c] w
  | cleanup (c : Fd) (w' : World) (clients : w'.clients = w.clients)
      (index : w'.fdToIndex = w.fdToIndex)
      (states : w'.proxyStates = update w.proxyStates c none) :
      Piece late w [.proxyCleanup c] w'

/-- A handler, piece by piece. -/
inductive Does (late : Prop) : World → List Call → World → Prop
  | refl (w : World) : Does late w [] w
  | head {w w₁ w₂ : World} {cs ds : List Call} (piece : Piece late w cs w₁)
      (rest : Does late w₁ ds w₂) : Does late w (cs ++ ds) w₂

variable {late : Prop} {w w' : World}

theorem Does.single {cs : List Call} (piece : Piece late w cs w') : Does late w cs w' := by
  have whole := Does.head piece (.refl w')
  rwa [List.append_nil] at whole

theorem Does.trans {w₂ : World} {cs ds : List Call} (first : Does late w cs w')
    (rest : Does late w' ds w₂) : Does late w (cs ++ ds) w₂ := by
  induction first with
  | refl => exact rest
  | head piece _ ih =>
    rw [List.append_assoc]
    exact .head piece (ih rest)

/-- A piece without a call in front. -/
theorem Does.quiet {w₂ : World} {ds : List Call} (piece : Piece late w [] w')
    (rest : Does late w' ds w₂) : Does late w ds w₂ := .head piece rest

theorem Indexed.init : Indexed World.init := fun _ _ listed => nomatch listed

theorem Indexed.same (h : Indexed w) (clients : w'.clients = w.clients)
    (index : w'.fdToIndex = w.fdToIndex) : Indexed w' := by
  intro c i listed
  rw [clients]
  exact h c i (index ▸ listed)

theorem Indexed.slot (h : Indexed w) {i : Nat} {cd : ClientData}
    (fd : cd.fd = (w.clients i).fd) : Indexed (setClient i cd w) := by
  intro c j listed
  obtain ⟨nonzero, same⟩ := h c j listed
  refine ⟨nonzero, ?_⟩
  by_cases hj : j = i
  · subst hj
    rw [← same, ← fd]
    exact congrArg ClientData.fd (update_self ..)
  · rw [← same]
    exact congrArg ClientData.fd (update_of_ne hj ..)

theorem Indexed.register (h : Indexed w) {fd : Fd} {i : Nat} (nonzero : fd ≠ 0)
    (free : (w.clients i).fd = 0) : Indexed (register fd i (accept fd w)) := by
  intro c j
  have known := h c j
  simp only [EventLoop.register, accept, openFd, setClient, update_apply]
  grind

theorem Indexed.delete (h : Indexed w) (c : Fd) : Indexed (connDel c w) := by
  unfold connDel
  split
  · exact h
  split
  · exact h
  rename_i i index
  intro d j
  obtain ⟨_, fd⟩ := h c i index
  have known := h d j
  simp only [closeFd, setClient, update_apply]
  grind

theorem Indexed.piece (h : Indexed w) {cs : List Call} (piece : Piece late w cs w') :
    Indexed w' := by
  cases piece with
  | other w' clients index keys => exact h.same clients index
  | slot i cd fd kept => exact h.slot fd
  | add fd i nonzero free => exact h.register nonzero free
  | init i cd live fd => exact h.slot fd
  | reset i kept => exact h.slot rfl
  | delete c i nonzero index => exact h.delete c
  | store c x w' clients index states => exact h.same clients index
  | unreachable c => exact h
  | cleanup c w' clients index states => exact h.same clients index

theorem Indexed.does (h : Indexed w) {cs : List Call} (does : Does late w cs w') : Indexed w' := by
  induction does with
  | refl => exact h
  | head piece _ ih => exact ih (h.piece piece)

/-- Nothing that the calls are about. -/
theorem Does.other (w' : World) (clients : w'.clients = w.clients)
    (index : w'.fdToIndex = w.fdToIndex)
    (keys : ∀ c, (w'.proxyStates c).isSome = (w.proxyStates c).isSome) : Does late w [] w' :=
  .single (.other w' clients index keys)

theorem Does.slot (i : Nat) (cd : ClientData) (fd : cd.fd = (w.clients i).fd)
    (kept : (w.clients i).fd ≠ 0 ∨ SameFlags (w.clients i) cd) :
    Does late w [] (setClient i cd w) := .single (.slot i cd fd kept)

theorem connDel_does (c : Fd) (w : World) : Does late w (connDelCalls c w) (connDel c w) := by
  by_cases nonzero : c < 1
  · rw [connDelCalls, if_pos nonzero, connDel, if_pos nonzero]
    exact .refl w
  cases index : w.fdToIndex c with
  | none =>
    rw [connDelCalls, if_neg nonzero, connDel, if_neg nonzero, index]
    exact .refl w
  | some i =>
    rw [connDelCalls, if_neg nonzero, index]
    exact .single (.delete c i (Nat.one_le_iff_ne_zero.mp (Nat.le_of_not_lt nonzero)) index)

theorem closeFds_same (fds : List Fd) (w : World) :
    (closeFds fds w).clients = w.clients ∧ (closeFds fds w).fdToIndex = w.fdToIndex := by
  induction fds generalizing w with
  | nil => exact ⟨rfl, rfl⟩
  | cons fd fds ih => exact ih (closeFd fd w)

theorem closeFds_does (fds : List Fd) (w : World) : Does late w [] (closeFds fds w) := by
  obtain ⟨clients, index⟩ := closeFds_same fds w
  apply Does.other _ clients index
  intro c
  rw [(closeFds_tables fds w).1]

theorem releaseUpstream_same (x : Exchange) (w : World) :
    (releaseUpstream x w).clients = w.clients ∧
      (releaseUpstream x w).fdToIndex = w.fdToIndex := by
  unfold releaseUpstream
  dsimp only
  split
  · exact closeFds_same _ _
  · exact ⟨rfl, rfl⟩

theorem releaseClient_does (indexed : Indexed w) (c : Fd) (x : Exchange) :
    Does late w (releaseClientCalls c x w) (releaseClient c x w) := by
  unfold releaseClientCalls releaseClient
  cases index : w.fdToIndex c with
  | none => exact .refl w
  | some i =>
    obtain ⟨nonzero, fd⟩ := indexed c i index
    have live : (w.clients i).fd ≠ 0 := fd ▸ nonzero
    dsimp only
    refine .quiet (.slot i { w.clients i with
      proxyActive := false, proxyStreaming := false, sendingBody := false } rfl (Or.inl live)) ?_
    split
    · refine .single (.reset i (Or.inl ?_))
      simpa [setClient] using live
    · exact connDel_does c _

theorem endExchange_does (indexed : Indexed w) (c : Fd) (x : Exchange) :
    Does late w (endExchangeCalls c x w) (endExchange c x w) := by
  obtain ⟨clients, index⟩ := releaseUpstream_same x (forgetExchange c x w)
  obtain ⟨states, _⟩ := releaseUpstream_tables x (forgetExchange c x w)
  have cleaned : Piece late w [.proxyCleanup c] (releaseUpstream x (forgetExchange c x w)) :=
    .cleanup c _ clients index states
  exact .head cleaned (releaseClient_does (indexed.piece cleaned) c x)

theorem proxyCleanup_does (indexed : Indexed w) (c : Fd) :
    Does late w (proxyCleanupCalls c w) (proxyCleanup c w) := by
  unfold proxyCleanupCalls proxyCleanup
  cases w.proxyStates c with
  | none => exact .refl w
  | some x => exact endExchange_does indexed c x

theorem storeExchange_does (indexed : Indexed w) {c : Fd} {x : Exchange}
    (entry : w.proxyStates c = some x) (y : Exchange) :
    Does late w (storeExchangeCalls c y w) (storeExchange c y w) := by
  unfold storeExchangeCalls storeExchange
  split
  · exact endExchange_does indexed c y
  · refine .other _ rfl rfl fun d => ?_
    change (update w.proxyStates c (some y) d).isSome = _
    rw [update_apply]
    split
    · rename_i same
      rw [same, entry]
      rfl
    · rfl

theorem proxyOnUpstreamWrite_does (indexed : Indexed w) (u : Fd) (soerr : Bool)
    (r : WriteResult) : Does late w (proxyOnUpstreamWriteCalls u soerr r w)
      (EventLoop.proxyOnUpstreamWrite u soerr r w) := by
  unfold proxyOnUpstreamWriteCalls EventLoop.proxyOnUpstreamWrite
  cases w.upstreamFdToClient u with
  | none => exact .refl w
  | some c =>
    cases entry : w.proxyStates c with
    | none => simpa only [entry] using Does.refl w
    | some x => simpa only [entry] using storeExchange_does indexed entry _

theorem readFd_same (u : Fd) (r : ReadChoice) (w : World) :
    SameTables w (readFd u r w).2 := by
  rcases readFd_world u r w with same | ⟨s, n, _, drained⟩
  · rw [same]
    exact ⟨rfl, rfl, rfl, rfl⟩
  · rw [drained]
    exact ⟨rfl, rfl, rfl, rfl⟩

theorem noteRead_same (c u : Fd) (r : ReadResult) (w : World) :
    SameTables w (noteRead c u r w) := by
  cases r with
  | data buf => exact ⟨rfl, rfl, rfl, rfl⟩
  | again => exact ⟨rfl, rfl, rfl, rfl⟩
  | eof => exact ⟨rfl, rfl, rfl, rfl⟩
  | failed => exact ⟨rfl, rfl, rfl, rfl⟩

theorem noteDelivery_same (c : Fd) (x y : Exchange) (w : World) :
    SameTables w (noteDelivery c x y w) := by
  unfold noteDelivery
  split
  · exact ⟨rfl, rfl, rfl, rfl⟩
  · exact ⟨rfl, rfl, rfl, rfl⟩

theorem Does.sameTables (same : SameTables w w') : Does late w [] w' := by
  apply Does.other w' same.clients same.fdToIndex
  intro c
  rw [same.proxyStates]

theorem proxyOnUpstreamRead_does (indexed : Indexed w) (u : Fd) (r : ReadChoice)
    (cw : WriteResult) : Does late w (proxyOnUpstreamReadCalls u r cw w)
      (EventLoop.proxyOnUpstreamRead u r cw w) := by
  unfold proxyOnUpstreamReadCalls EventLoop.proxyOnUpstreamRead
  cases w.upstreamFdToClient u with
  | none => exact .refl w
  | some c =>
  dsimp only
  cases entry : w.proxyStates c with
  | none => exact .refl w
  | some x =>
  dsimp only
  have read := readFd_same u r w
  have noted := noteRead_same c u (readFd u r w).1 (readFd u r w).2
  generalize noteRead c u (readFd u r w).1 (readFd u r w).2 = w₁ at noted ⊢
  generalize handle x _ = y
  have delivered := noteDelivery_same c x y w₁
  have quiet : Does late w [] (noteDelivery c x y w₁) :=
    ((Does.sameTables read).trans (.sameTables noted)).trans (.sameTables delivered)
  refine quiet.trans (storeExchange_does (x := x) (indexed.does quiet) ?_ y)
  rw [delivered.proxyStates, noted.proxyStates, read.proxyStates, entry]

theorem proxyOnBodyData_does (indexed : Indexed w) (c : Fd) (data : Bytes) (r : WriteResult) :
    Does late w (proxyOnBodyDataCalls c data r w) (EventLoop.proxyOnBodyData c data r w) := by
  unfold proxyOnBodyDataCalls EventLoop.proxyOnBodyData
  cases entry : w.proxyStates c with
  | none => exact .refl w
  | some x => exact storeExchange_does indexed entry _

theorem proxyOnClientWritable_does (indexed : Indexed w) (c : Fd) (cw : WriteResult) :
    Does late w (proxyOnClientWritableCalls c cw w)
      (EventLoop.proxyOnClientWritable c cw w) := by
  unfold proxyOnClientWritableCalls EventLoop.proxyOnClientWritable
  cases entry : w.proxyStates c with
  | none => exact .refl w
  | some x =>
  dsimp only
  generalize handle x _ = y
  have delivered := noteDelivery_same c x y w
  have quiet : Does late w [] (noteDelivery c x y w) := .sameTables delivered
  refine quiet.trans (storeExchange_does (x := x) (indexed.does quiet) ?_ y)
  rw [delivered.proxyStates, entry]

theorem startExchange_does {i : Nat} (live : (w.clients i).fd ≠ 0) (route : Route) (u : Fd)
    (reused : Bool) :
    Does late w [.proxyStore (w.clients i).fd] (startExchange i route u reused w) := by
  have stored : Piece late w [.proxyStore (w.clients i).fd]
      (DescriptorTables.openExchange (w.clients i).fd u
        (proxyStart (w.clients i).parser route (w.clients i).info u reused w.now)
        ⟨(w.clients i).conn, .upstream (w.clients i).fd, inboxAt w u⟩ w) :=
    .store _ _ _ rfl rfl rfl
  refine .head stored (.slot i _ rfl (Or.inl ?_))
  exact live

theorem proxyHandler_does {i : Nat} (live : (w.clients i).fd ≠ 0) (route : Route)
    (io : DispatchIo) :
    Does late w (proxyHandlerCalls i route io w) (proxyHandler i route io w) := by
  obtain ⟨clients, index, states⟩ := reusePooled_same route io.peerClosed w
  have quiet : Piece late w [] (reusePooled route io.peerClosed w).2 := by
    apply Piece.other _ clients index
    intro c
    rw [states]
  have live₁ : ((reusePooled route io.peerClosed w).2.clients i).fd ≠ 0 := by rwa [clients]
  unfold proxyHandlerCalls proxyHandler
  generalize reusePooled route io.peerClosed w = taken at *
  obtain ⟨pooled, w₁⟩ := taken
  cases pooled with
  | some u => exact .quiet quiet (startExchange_does live₁ route u true)
  | none =>
    dsimp only
    cases connectFresh io.connect w₁ with
    | none => exact .quiet quiet (.single (.unreachable _))
    | some u => exact .quiet quiet (startExchange_does live₁ route u false)

theorem finishHead_does {i : Nat} (live : (w.clients i).fd ≠ 0) :
    Does late w (finishHeadCalls i w) (finishHead i w) := by
  unfold finishHeadCalls finishHead
  split
  · exact .single (.reset i (Or.inl live))
  · exact connDel_does _ w

theorem finishSend_does {i : Nat} (live : (w.clients i).fd ≠ 0) :
    Does late w (finishSendCalls i w) (finishSend i w) := by
  unfold finishSendCalls finishSend
  dsimp only
  refine .quiet (.slot i { w.clients i with sendingBody := false, sendRemaining := 0 } rfl
    (Or.inl live)) ?_
  split
  · refine .single (.reset i (Or.inl ?_))
    simpa [setClient] using live
  · exact connDel_does _ _

theorem contentHandler_does {i : Nat} (live : (w.clients i).fd ≠ 0) (reply : Reply) :
    Does late w (contentHandlerCalls i reply w) (contentHandler i reply w) := by
  cases reply with
  | written => exact .refl w
  | head => exact finishHead_does live
  | sent => exact finishSend_does live
  | sending n => exact .slot i _ rfl (Or.inl live)
  | broken => exact connDel_does _ w

theorem bestHandler_does {i : Nat} (live : (w.clients i).fd ≠ 0) (io : DispatchIo) :
    Does late w (bestHandlerCalls i io w) (bestHandler i io w) := by
  unfold bestHandlerCalls bestHandler
  cases io.route with
  | some route => exact proxyHandler_does live route io
  | none => exact contentHandler_does live io.reply

theorem persistOrClose_does {i : Nat} {keepAlive : Bool}
    (kept : (w.clients i).proxyActive = false → keepAlive = true →
      (w.clients i).fd ≠ 0 ∨ late) :
    Does late w (persistOrCloseCalls i keepAlive w) (persistOrClose i keepAlive w) := by
  unfold persistOrCloseCalls persistOrClose
  dsimp only
  split
  · exact .refl w
  rename_i unowned
  split
  · rename_i keepAlive
    exact .single (.reset i (kept (by simpa using unowned) keepAlive))
  split
  · exact connDel_does _ w
  · exact .refl w

/-- A handler has deleted the connection of a keep-alive request because its send failed. -/
structure SendBroke (cd : ClientData) (io : DispatchIo) : Prop where
  content : io.route = none
  broken : io.reply = .broken
  keepAlive : httpShouldKeepAlive cd.parser.req = true
  unowned : cd.proxyActive = false

/-- What is left of a slot after a handler that keeps the connection. -/
theorem resetParser_fd (i : Nat) (w : World) :
    ((resetParser i w).clients i).fd = (w.clients i).fd := by
  simp [resetParser, setClient]

theorem proxyHandler_fd (i : Nat) (route : Route) (io : DispatchIo) (w : World) :
    ((proxyHandler i route io w).clients i).fd = (w.clients i).fd := by
  obtain ⟨clients, _⟩ := reusePooled_same route io.peerClosed w
  unfold proxyHandler
  generalize reusePooled route io.peerClosed w = taken at *
  obtain ⟨pooled, w₁⟩ := taken
  have started (u : Fd) (reused : Bool) :
      ((startExchange i route u reused w₁).clients i).fd = (w.clients i).fd := by
    rw [← clients]
    simp [startExchange, setClient]
  cases pooled with
  | some u => exact started u true
  | none =>
    dsimp only
    cases connectFresh io.connect w₁ with
    | none => exact congrArg (fun f : Nat → ClientData => (f i).fd) clients
    | some u => exact started u false

theorem connDel_flags (c : Fd) (i : Nat) (w : World) :
    SameFlags (w.clients i) ((connDel c w).clients i) := by
  unfold connDel
  split
  · exact ⟨rfl, rfl, rfl⟩
  split
  · exact ⟨rfl, rfl, rfl⟩
  rename_i j _
  by_cases same : i = j
  · subst same
    constructor
    all_goals simp [closeFd, setClient]
  · constructor
    all_goals simp [closeFd, setClient, same]

/-- The connection is still there when `http_dispatcher` resets its parser, unless its send
failed. -/
theorem bestHandler_live {i : Nat} {io : DispatchIo} (live : (w.clients i).fd ≠ 0)
    (keepAlive : httpShouldKeepAlive (w.clients i).parser.req = true)
    (unowned : ((bestHandler i io w).clients i).proxyActive = false)
    (sound : ¬ SendBroke (w.clients i) io) : ((bestHandler i io w).clients i).fd ≠ 0 := by
  unfold bestHandler at *
  cases route : io.route with
  | some route => rwa [proxyHandler_fd]
  | none =>
    rw [route] at unowned
    dsimp only at *
    cases reply : io.reply with
    | written => exact live
    | head =>
      rw [contentHandler, finishHead, if_pos keepAlive, resetParser_fd]
      exact live
    | sent =>
      have kept : httpShouldKeepAlive ((setClient i { w.clients i with
          sendingBody := false, sendRemaining := 0 } w).clients i).parser.req = true := by
        simpa [setClient] using keepAlive
      rw [contentHandler, finishSend, if_pos kept, resetParser_fd]
      simpa [setClient] using live
    | sending n =>
      rw [contentHandler]
      simpa [setClient] using live
    | broken =>
      rw [reply, contentHandler, (connDel_flags _ i w).proxyActive] at unowned
      exact absurd ⟨route, reply, keepAlive, unowned⟩ sound

theorem httpDispatcher_does {i : Nat} {io : DispatchIo} (live : (w.clients i).fd ≠ 0)
    (sound : SendBroke (w.clients i) io → late) :
    Does late w (httpDispatcherCalls i io w) (httpDispatcher i io w) := by
  have noted : Piece late w [] (noteDispatch i w) := .other _ rfl rfl fun _ => rfl
  have handled : Does late (noteDispatch i w) (bestHandlerCalls i io (noteDispatch i w))
      (bestHandler i io (noteDispatch i w)) := bestHandler_does (w := noteDispatch i w) live io
  refine .quiet noted (handled.trans (persistOrClose_does ?_))
  intro unowned keepAlive
  by_cases broke : SendBroke (w.clients i) io
  · exact Or.inr (sound broke)
  · exact Or.inl (bestHandler_live (w := noteDispatch i w) live keepAlive unowned broke)

theorem resumeSend_does (indexed : Indexed w) (c : Fd) (r : SendResult) :
    Does late w (resumeSendCalls c r w) (resumeSend c r w) := by
  unfold resumeSendCalls resumeSend
  cases index : w.fdToIndex c with
  | none => exact .refl w
  | some i =>
    obtain ⟨nonzero, fd⟩ := indexed c i index
    have live : (w.clients i).fd ≠ 0 := fd ▸ nonzero
    dsimp only
    split
    · exact .refl w
    cases r with
    | failed => exact connDel_does _ w
    | sent n =>
      dsimp only
      generalize (w.clients i).sendRemaining - min n (w.clients i).sendRemaining = left
      refine .quiet (.slot i { w.clients i with sendRemaining := left } rfl (Or.inl live)) ?_
      split
      · apply finishSend_does
        simpa [setClient] using live
      · exact .refl _

theorem forwardCleanup_does (indexed : Indexed w) (d : Fd) :
    Does late w [] (forwardCleanup d w) := by
  unfold forwardCleanup
  split
  · exact .refl w
  rename_i fs _
  dsimp only
  have closed : Piece late w [] { closeFd fs.upstreamFd w with
      forwardUpstreamMap := update w.forwardUpstreamMap fs.upstreamFd none
      forwardStates := update w.forwardStates d none } := .other _ rfl rfl fun _ => rfl
  split
  · exact .single closed
  · rename_i i index
    obtain ⟨nonzero, fd⟩ := indexed d i index
    exact .quiet closed (.slot i _ rfl (Or.inl (fd ▸ nonzero)))

theorem forwardOnAccept_does (indexed : Indexed w) (c : Fd) (proto : ForwardProto)
    (connect : Option Fd) : Does late w [] (forwardOnAccept c proto connect w) := by
  unfold forwardOnAccept
  split
  · exact .other _ rfl rfl fun _ => rfl
  rename_i u _
  dsimp only
  have opened : Piece late w [] { openFd u ⟨connAt w c, .forward c, []⟩ w with
      forwardStates := update w.forwardStates c (some (forwardStart proto u))
      forwardUpstreamMap := update w.forwardUpstreamMap u (some c) } :=
    .other _ rfl rfl fun _ => rfl
  split
  · exact .single opened
  · rename_i i index
    obtain ⟨nonzero, fd⟩ := indexed c i index
    exact .quiet opened (.slot i _ rfl (Or.inl (fd ▸ nonzero)))

theorem forwardOnUpstreamWrite_does (indexed : Indexed w) (u : Fd) (soerr : Bool)
    (r : WriteResult) : Does late w (forwardOnUpstreamWriteCalls u soerr r w)
      (EventLoop.forwardOnUpstreamWrite u soerr r w) := by
  unfold forwardOnUpstreamWriteCalls EventLoop.forwardOnUpstreamWrite
  cases w.forwardUpstreamMap u with
  | none => exact .refl w
  | some d =>
  dsimp only
  cases w.forwardStates d with
  | none => exact .refl w
  | some fs =>
  dsimp only
  cases ForwardRelay.forwardOnUpstreamWrite soerr r fs with
  | none => exact (forwardCleanup_does indexed d).trans (connDel_does d _)
  | some fs' => exact .other _ rfl rfl fun _ => rfl

theorem forwardOnUpstreamRead_does (indexed : Indexed w) (u : Fd) (r : ReadChoice) :
    Does late w (forwardOnUpstreamReadCalls u r w) (forwardOnUpstreamRead u r w) := by
  unfold forwardOnUpstreamReadCalls forwardOnUpstreamRead
  cases w.forwardUpstreamMap u with
  | none => exact .refl w
  | some d =>
  dsimp only
  cases w.forwardStates d with
  | none => exact .refl w
  | some fs =>
  dsimp only
  have read : Does late w [] (readFd u r w).2 := .sameTables (readFd_same u r w)
  generalize readFd u r w = result at read ⊢
  obtain ⟨result, w₁⟩ := result
  have ended : Does late w (connDelCalls d (forwardCleanup d w₁))
      (connDel d (forwardCleanup d w₁)) :=
    read.trans ((forwardCleanup_does (indexed.does read) d).trans (connDel_does d _))
  cases result with
  | data buf => exact read
  | again => exact ended
  | eof => exact ended
  | failed => exact ended

theorem forwardOnDownstreamData_does (indexed : Indexed w) (d : Fd) (data : Bytes)
    (r : WriteResult) : Does late w [] (EventLoop.forwardOnDownstreamData d data r w) := by
  unfold EventLoop.forwardOnDownstreamData
  split
  · exact .refl w
  split
  · exact forwardCleanup_does indexed d
  · exact .other _ rfl rfl fun _ => rfl

theorem enroll_does (io : AcceptIo) (i : Nat) (w : World) : Does late w [] (enroll io i w) := by
  have counted : Piece late w [] { w with ipConnCounts := countIp io w.ipConnCounts } :=
    .other _ rfl rfl fun _ => rfl
  exact .quiet counted (.slot i _ rfl (Or.inr ⟨rfl, rfl, rfl⟩))

theorem attach_does (indexed : Indexed w) {io : AcceptIo} {i : Nat}
    (index : w.fdToIndex io.fd = some i) : Does late w (attachCalls io i w) (attach io i w) := by
  obtain ⟨nonzero, fd⟩ := indexed io.fd i index
  have live : (w.clients i).fd ≠ 0 := fd ▸ nonzero
  have known : Piece late w [] (setClient i { w.clients i with info := io.info } w) :=
    .slot i _ rfl (Or.inl live)
  have parsed : Piece late w [.parserInit i] (setClient i { w.clients i with
      isHttp := true, parser := httpParserInit io.fd, info := io.info } w) :=
    .init i _ live rfl
  unfold attachCalls attach
  cases io.listener with
  | http =>
    dsimp only
    refine .head parsed ?_
    split
    · exact connDel_does io.fd _
    · exact .refl _
  | socket =>
    dsimp only
    refine .head known ?_
    split
    · exact connDel_does io.fd _
    · exact .refl _
  | forward proto =>
    dsimp only
    refine .head known ?_
    split
    · exact connDel_does io.fd _
    · exact forwardOnAccept_does (indexed.piece known) io.fd proto io.connect

theorem setUpClient_does (indexed : Indexed w) (io : AcceptIo) :
    Does late w (setUpClientCalls io w) (setUpClient io w) := by
  unfold setUpClientCalls setUpClient
  split
  · exact connDel_does io.fd w
  cases index : w.fdToIndex io.fd with
  | none => exact .refl w
  | some i =>
    have enrolled : Does late w [] (enroll io i w) := enroll_does io i w
    refine enrolled.trans (attach_does (indexed.does enrolled) ?_)
    exact index

theorem myOnAccept_does (indexed : Indexed w) (io : AcceptIo) :
    Does late w (myOnAcceptCalls io w) (myOnAccept io w) := by
  unfold myOnAcceptCalls myOnAccept
  split
  · exact .refl w
  rename_i usable
  rw [not_or] at usable
  unfold connAdd
  rw [if_neg (Nat.not_lt.mpr (Nat.one_le_iff_ne_zero.mpr usable.1))]
  cases slot : freeSlot (accept io.fd w) NUM_CLIENTS 0 with
  | none => exact .other _ rfl rfl fun _ => rfl
  | some i =>
    have added : Piece late w [.connAdd i] (register io.fd i (accept io.fd w)) :=
      .add io.fd i usable.1 (ConnectionTable.freeSlot_some slot).2
    exact .head added (setUpClient_does (indexed.piece added) io)

theorem forwardLeftover_does (indexed : Indexed w) {c : Fd} {i : Nat}
    (r : WriteResult) : Does late w (forwardLeftoverCalls c i r w) (forwardLeftover c i r w) := by
  unfold forwardLeftoverCalls forwardLeftover
  dsimp only
  split
  · exact .refl w
  split
  · exact .refl w
  have drained : Piece late w [] (setClient i { w.clients i with
      parser := { (w.clients i).parser with pos := (w.clients i).parser.buffer.size } } w) :=
    .slot i _ rfl (Or.inr ⟨rfl, rfl, rfl⟩)
  exact .quiet drained (proxyOnBodyData_does (indexed.piece drained) c _ r)

/-- A read makes `http_dispatcher` come back from a handler whose send failed, with the
connection deleted and a keep-alive decision taken before. -/
def ResetsDeleted (w : World) : EventLoop.Event → Prop
  | .clientReadable c (.data buf) io => ∃ i, w.fdToIndex c = some i ∧ buf ≠ [] ∧
      (w.clients i).forwardActive = false ∧ (w.clients i).isHttp = true ∧
      (w.clients i).proxyStreaming = false ∧
      0 < (httpParserFeed .default (w.clients i).parser buf).2 ∧
      SendBroke { w.clients i with
        parser := (httpParserFeed .default (w.clients i).parser buf).1 } io
  | _ => False

theorem onHttpData_does (indexed : Indexed w) {c : Fd} {i : Nat} {data : Bytes} {io : DispatchIo}
    (index : w.fdToIndex c = some i)
    (sound : 0 < (httpParserFeed .default (w.clients i).parser data).2 → SendBroke
      { w.clients i with parser := (httpParserFeed .default (w.clients i).parser data).1 } io →
      late) : Does late w (onHttpDataCalls c i data io w) (onHttpData c i data io w) := by
  obtain ⟨nonzero, fd⟩ := indexed c i index
  unfold onHttpDataCalls onHttpData
  generalize httpParserFeed .default (w.clients i).parser data = feed at *
  obtain ⟨parser, res⟩ := feed
  dsimp only at *
  have stored : Piece late w [] (storeParser i parser data.length w) :=
    .slot i _ rfl (Or.inl (fd ▸ nonzero))
  have slot : (storeParser i parser data.length w).clients i = { w.clients i with
      parser := parser
      bytesRead := (w.clients i).bytesRead + data.length
      lastActivity := w.now } := update_self ..
  have live : ((storeParser i parser data.length w).clients i).fd ≠ 0 := by
    rw [slot]
    exact fd ▸ nonzero
  split
  · exact .quiet stored (connDel_does c _)
  split
  · exact .single stored
  have dispatched : Does late (storeParser i parser data.length w)
      (httpDispatcherCalls i io (storeParser i parser data.length w))
      (httpDispatcher i io (storeParser i parser data.length w)) := by
    apply httpDispatcher_does live
    rw [slot]
    rintro ⟨content, broken, keepAlive, unowned⟩
    exact sound (by omega) ⟨content, broken, keepAlive, unowned⟩
  split
  · have indexed₁ := (indexed.piece stored).does dispatched
    exact .quiet stored (dispatched.trans (forwardLeftover_does indexed₁ io.bodyWrite))
  · exact .quiet stored dispatched

theorem myOnRead_does (indexed : Indexed w) {c : Fd} {r : ReadResult} {io : DispatchIo}
    (sound : ResetsDeleted w (.clientReadable c r io) → late) :
    Does late w (myOnReadCalls c r io w) (myOnRead c r io w) := by
  unfold myOnReadCalls myOnRead
  cases index : w.fdToIndex c with
  | none => exact .refl w
  | some i =>
  obtain ⟨nonzero, fd⟩ := indexed c i index
  have live : (w.clients i).fd ≠ 0 := fd ▸ nonzero
  dsimp only
  have closed : Does late w
      (connDelCalls c (if (w.clients i).forwardActive then forwardCleanup c w else w))
      (connDel c (if (w.clients i).forwardActive then forwardCleanup c w else w)) := by
    split
    · exact (forwardCleanup_does indexed c).trans (connDel_does c _)
    · exact connDel_does c w
  cases r with
  | again => exact .refl w
  | eof => exact closed
  | failed => exact closed
  | data buf =>
  cases buf with
  | nil => exact closed
  | cons b rest =>
  dsimp only
  have counted : Piece late w [] (countRead i (b :: rest) w) := .slot i _ rfl (Or.inl live)
  have indexed₁ := indexed.piece counted
  unfold onDataCalls onData
  dsimp only
  split
  · exact .quiet counted (forwardOnDownstreamData_does indexed₁ c _ io.bodyWrite)
  rename_i forwarding
  split
  · exact .single counted
  rename_i http
  split
  · exact .quiet counted (proxyOnBodyData_does indexed₁ c _ io.bodyWrite)
  rename_i streaming
  refine onHttpData_does indexed index fun positive broke => sound ⟨i, index, ?_⟩
  refine ⟨List.cons_ne_nil b rest, ?_, ?_, ?_, positive, broke⟩
  · simpa using forwarding
  · simpa using http
  · simpa using streaming

theorem myOnWrite_does (indexed : Indexed w) (c : Fd) (cw : WriteResult) (r : SendResult) :
    Does late w (myOnWriteCalls c cw r w) (myOnWrite c cw r w) := by
  unfold myOnWriteCalls myOnWrite
  cases w.fdToIndex c with
  | none => exact .refl w
  | some i =>
  dsimp only
  split
  · exact .refl w
  split
  · exact proxyOnClientWritable_does indexed c cw
  · exact resumeSend_does indexed c r

theorem foldCalls_does {α : Type} {f : World → α → World} {calls : World → α → List Call}
    (one : ∀ w, Indexed w → ∀ x, Does late w (calls w x) (f w x)) (indexed : Indexed w)
    (xs : List α) : Does late w (foldCalls f calls w xs) (xs.foldl f w) := by
  induction xs generalizing w with
  | nil => exact .refl w
  | cons x xs ih =>
    have first := one w indexed x
    exact first.trans (ih (indexed.does first))

theorem serverTimeoutSweep_does (indexed : Indexed w) (exchanges : List Fd) (slots : List Nat) :
    Does late w (serverTimeoutSweepCalls exchanges slots w)
      (serverTimeoutSweep exchanges slots w) := by
  have timeouts : Does late w (foldCalls proxyTimeout proxyTimeoutCalls w exchanges)
      (exchanges.foldl proxyTimeout w) := by
    apply foldCalls_does _ indexed
    intro w indexed c
    unfold proxyTimeoutCalls proxyTimeout
    cases w.proxyStates c with
    | none => exact .refl w
    | some x =>
      dsimp only
      split
      · exact proxyCleanup_does indexed c
      · exact .refl w
  have stale (w : World) (indexed : Indexed w) :
      Does late w (connectionTimeoutSweepCalls slots w) (connectionTimeoutSweep slots w) :=
    foldCalls_does (fun w _ fd => connDel_does fd w) indexed _
  have swept (w : World) : Does late w [] (poolSweep w) := by
    have unpooled : Piece late w [] { w with
        keepalivePools := (keepalivePoolSweep w.keepalivePools w.now).2 } :=
      .other _ rfl rfl fun _ => rfl
    exact .quiet unpooled (closeFds_does _ _)
  have whole := (timeouts.trans (stale _ (indexed.does timeouts))).trans (swept _)
  rwa [List.append_nil] at whole

/-- Every step does what its calls say. -/
theorem step_does (indexed : Indexed w) {e : EventLoop.Event} (sound : ResetsDeleted w e → late) :
    Does late w (stepCalls w e) (EventLoop.step w e) := by
  cases e with
  | accept io => exact myOnAccept_does indexed io
  | clientReadable c r io => exact myOnRead_does indexed sound
  | clientWritable c cw r => exact myOnWrite_does indexed c cw r
  | upstreamWritable u soerr r =>
    unfold stepCalls EventLoop.step
    dsimp only
    split
    · have forwarded : Does late w _ _ := forwardOnUpstreamWrite_does indexed u soerr r
      exact forwarded.trans (proxyOnUpstreamWrite_does (indexed.does forwarded) u soerr r)
    · exact .refl w
  | upstreamReadable u r cw =>
    unfold stepCalls EventLoop.step
    dsimp only
    split
    · have forwarded : Does late w _ _ := forwardOnUpstreamRead_does indexed u r
      exact forwarded.trans (proxyOnUpstreamRead_does (indexed.does forwarded) u r cw)
    · exact .refl w
  | timer now exchanges slots =>
    have ticked : Piece late w [] { w with now := now } := .other _ rfl rfl fun _ => rfl
    exact .quiet ticked (serverTimeoutSweep_does (indexed.piece ticked) exchanges slots)
  | arrive u data =>
    unfold EventLoop.step
    dsimp only
    split
    · exact .refl w
    · exact .other _ rfl rfl fun _ => rfl

theorem Indexed.step (indexed : Indexed w) (e : EventLoop.Event) :
    Indexed (EventLoop.step w e) :=
  have does : Does True w (stepCalls w e) (EventLoop.step w e) :=
    step_does indexed fun _ => trivial
  indexed.does does

end CallTrace
