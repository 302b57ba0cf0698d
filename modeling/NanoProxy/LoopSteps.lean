import NanoProxy.DescriptorTables
import NanoProxy.ConnectionTable

/-!
# The handlers of the event loop as sequences of changes

One lemma for each handler, in the order of the model; the last one is about `step`.
-/

namespace LoopSteps

open CLib HttpRequestParser OutboundRequest ResponseHead ProxyExchange ExchangeFrames
open ResponseFraming KeepalivePool ForwardRelay EventLoop DescriptorTables Function
open ConnectionTable (connAdd_some)

section Handlers

variable {x : Exchange}

theorem socketWrite_unknown (len : Nat) (w : WriteResult) : socketWrite false len w = some 0 := by
  simp [socketWrite]

theorem deliver_zero (data : Bytes) (x : Exchange) :
    (deliver data 0 x).toClient = x.toClient := by
  unfold deliver
  dsimp only
  split
  · exact List.append_nil _
  · exact List.append_nil _

theorem relay_unknown {cs : ClientSide} (unknown : cs.known = false) (data : Bytes) (n : Nat)
    (w : WriteResult) (x : Exchange) : (relay cs data n w x).toClient = x.toClient := by
  have hwrite : (writeOrBuffer cs data w x).toClient = x.toClient := by
    unfold writeOrBuffer
    rw [unknown, socketWrite_unknown]
    exact deliver_zero data x
  unfold relay
  dsimp only
  split
  · exact hwrite
  · unfold endWhenComplete
    split
    · exact hwrite
    · exact hwrite

/-- Nothing is written to a client that is not in the table. -/
theorem upstreamRead_unknown {cs : ClientSide} (unknown : cs.known = false) (r : ReadResult)
    (w : WriteResult) (x : Exchange) :
    (ProxyExchange.proxyOnUpstreamRead cs r w x).toClient = x.toClient := by
  unfold ProxyExchange.proxyOnUpstreamRead
  split
  · rfl
  · rfl
  · rfl
  dsimp only
  split
  · unfold proxyRelayUpstreamKeepalive
    split
    · exact relay_unknown unknown _ _ _ _
    dsimp only
    split
    · exact relay_unknown unknown _ _ _ _
    split
    · unfold giveUpFraming
      rw [unknown, socketWrite_unknown]
      exact List.append_nil _
    · rfl
  · unfold writeOrBuffer
    rw [unknown, socketWrite_unknown]
    exact deliver_zero _ _

end Handlers

variable {rules : Rules} {w : World}

/-- A handler may turn `x` into `y`; what waits on the upstream connection differs by what it
reads. -/
def Allowed (rules : Rules) (x y : Exchange) (inbox rest : Bytes) : Prop :=
  rules.keep x inbox → if y.ended then rules.done y rest else rules.keep y rest

theorem resetParser_changes (i : Nat) (w : World) : Changes rules w (resetParser i w) :=
  .single (.slot i _ rfl rfl (.inl rfl))

theorem releaseClient_changes (c : Fd) (x : Exchange) (w : World) :
    Changes rules w (releaseClient c x w) := by
  unfold releaseClient
  split
  · exact .refl
  dsimp only
  split
  · refine .trans ?_ (resetParser_changes _ _)
    exact .single (.slot _ _ rfl rfl (.inl rfl))
  · refine .tail ?_ (.drop c)
    exact .single (.slot _ _ rfl rfl (.inl rfl))

theorem endExchange_changes {c : Fd} {x y : Exchange} (entry : w.proxyStates c = some x)
    (same : y.ps.upstreamFd = x.ps.upstreamFd)
    (ok : rules.keep x (inboxAt w x.ps.upstreamFd) → rules.done y (inboxAt w x.ps.upstreamFd)) :
    Changes rules w (endExchange c y w) :=
  .head (.finish c x y entry same ok) (releaseClient_changes c y _)

theorem storeExchange_changes {c : Fd} {x y : Exchange} (entry : w.proxyStates c = some x)
    (same : y.ps.upstreamFd = x.ps.upstreamFd)
    (ok : Allowed rules x y (inboxAt w x.ps.upstreamFd) (inboxAt w x.ps.upstreamFd)) :
    Changes rules w (storeExchange c y w) := by
  unfold storeExchange
  split
  · rename_i ended
    exact endExchange_changes entry same fun kept => (if_pos ended).mp (ok kept)
  · rename_i live
    exact .single (.advance c x y entry same fun kept => (if_neg live).mp (ok kept))

/-- An exchange and what waits for it change together. -/
theorem storeExchange_drain_changes {c u : Fd} {x y : Exchange} {s : Socket} {n : Nat}
    (opened : w.sockets u = some s) (entry : w.proxyStates c = some x)
    (mapped : w.upstreamFdToClient u = some c) (same : y.ps.upstreamFd = x.ps.upstreamFd)
    (ok : Allowed rules x y (inboxAt w x.ps.upstreamFd)
      (inboxAt (drain u s n w) x.ps.upstreamFd)) :
    Changes rules w (storeExchange c y (drain u s n w)) := by
  unfold storeExchange
  split
  · rename_i ended
    have last : Change rules w (releaseUpstream y (forgetExchange c y (drain u s n w))) :=
      .readLast c u x y s n opened entry mapped same fun kept => (if_pos ended).mp (ok kept)
    exact .head last (releaseClient_changes c y _)
  · rename_i live
    exact .single (.read c u x y s n opened entry mapped same
      fun kept => (if_neg live).mp (ok kept))

theorem proxyOnUpstreamWrite_changes {u : Fd} {soerr : Bool} {r : WriteResult}
    (ok : ∀ c x inbox, w.upstreamFdToClient u = some c → w.proxyStates c = some x →
      Allowed rules x (handle x (.upstreamWritable soerr r)) inbox inbox) :
    Changes rules w (proxyOnUpstreamWrite u soerr r w) := by
  unfold EventLoop.proxyOnUpstreamWrite
  split
  · exact .refl
  · rename_i c mapped
    split
    · exact .refl
    · rename_i x entry
      exact storeExchange_changes entry (handle_route _ _).upstreamFd (ok c x _ mapped entry)

/-- What a read leaves alone. -/
structure SameTables (w w' : World) : Prop where
  fdToIndex : w'.fdToIndex = w.fdToIndex
  clients : w'.clients = w.clients
  upstreamFdToClient : w'.upstreamFdToClient = w.upstreamFdToClient
  proxyStates : w'.proxyStates = w.proxyStates

theorem SameTables.clientSide {w' : World} (same : SameTables w w') (c : Fd) :
    clientSide w' c = clientSide w c := by
  unfold EventLoop.clientSide
  rw [same.fdToIndex, same.clients]

theorem readFd_world (u : Fd) (r : ReadChoice) (w : World) :
    (readFd u r w).2 = w ∨ ∃ s n, w.sockets u = some s ∧
      (readFd u r w).2 = drain u s n w := by
  unfold readFd
  split
  · exact Or.inl rfl
  · rename_i s opened
    split
    · exact Or.inl rfl
    · split
      · exact Or.inl rfl
      · exact Or.inr ⟨s, _, opened, rfl⟩
    · split
      · exact Or.inl rfl
      · exact Or.inr ⟨s, _, opened, rfl⟩

theorem readFd_tables (u : Fd) (r : ReadChoice) (w : World) :
    SameTables w (readFd u r w).2 := by
  rcases readFd_world u r w with same | ⟨s, n, opened, drained⟩
  · rw [same]
    exact ⟨rfl, rfl, rfl, rfl⟩
  · rw [drained]
    exact ⟨rfl, rfl, rfl, rfl⟩

theorem connAt_drain {u : Fd} {s : Socket} (opened : w.sockets u = some s) (n : Nat) (v : Fd) :
    connAt (drain u s n w) v = connAt w v := by
  unfold connAt drain openFd
  dsimp only
  by_cases same : v = u
  · rw [same, update_self, opened]
  · rw [update_of_ne same]

theorem noteRead_drain {c u v : Fd} {s : Socket} (opened : w.sockets v = some s) (n : Nat)
    (r : ReadResult) : noteRead c u r (drain v s n w) = drain v s n (noteRead c u r w) := by
  cases r with
  | data buf =>
    unfold noteRead
    dsimp only
    rw [connAt_drain opened]
    rfl
  | again => rfl
  | eof => rfl
  | failed => rfl

theorem noteDelivery_drain {c v : Fd} {x y : Exchange} {s : Socket} (opened : w.sockets v = some s)
    (n : Nat) : noteDelivery c x y (drain v s n w) = drain v s n (noteDelivery c x y w) := by
  unfold noteDelivery
  split
  · rfl
  · rw [connAt_drain opened]
    rfl

theorem inboxAt_same {w' : World} {u : Fd} (same : w'.sockets u = w.sockets u) :
    inboxAt w' u = inboxAt w u := by
  unfold inboxAt
  rw [same]

variable (rules) in
theorem noteRead_changes {c u : Fd} (mapped : w.upstreamFdToClient u = some c) (r : ReadResult) :
    Changes rules w (noteRead c u r w) ∧ SameTables w (noteRead c u r w) ∧
      (noteRead c u r w).sockets = w.sockets := by
  cases r with
  | data buf => exact ⟨.single (.source c u mapped), ⟨rfl, rfl, rfl, rfl⟩, rfl⟩
  | again => exact ⟨.refl, ⟨rfl, rfl, rfl, rfl⟩, rfl⟩
  | eof => exact ⟨.refl, ⟨rfl, rfl, rfl, rfl⟩, rfl⟩
  | failed => exact ⟨.refl, ⟨rfl, rfl, rfl, rfl⟩, rfl⟩

variable (rules) in
theorem noteDelivery_changes {c : Fd} {x y z : Exchange} (entry : w.proxyStates c = some z)
    (known : y.toClient = x.toClient ∨ w.fdToIndex c ≠ none) :
    Changes rules w (noteDelivery c x y w) ∧ SameTables w (noteDelivery c x y w) ∧
      (noteDelivery c x y w).sockets = w.sockets := by
  unfold noteDelivery
  split
  · exact ⟨.refl, ⟨rfl, rfl, rfl, rfl⟩, rfl⟩
  · rename_i written
    obtain ⟨i, index⟩ := Option.ne_none_iff_exists'.mp (known.resolve_left written)
    exact ⟨.single (.deliver c i z entry index), ⟨rfl, rfl, rfl, rfl⟩, rfl⟩

variable (rules) in
/-- The two records of a read. -/
theorem noted_changes {c u : Fd} {x y : Exchange} (mapped : w.upstreamFdToClient u = some c)
    (entry : w.proxyStates c = some x) (r : ReadResult)
    (known : y.toClient = x.toClient ∨ w.fdToIndex c ≠ none) :
    Changes rules w (noteDelivery c x y (noteRead c u r w)) ∧
      SameTables w (noteDelivery c x y (noteRead c u r w)) ∧
      (noteDelivery c x y (noteRead c u r w)).sockets = w.sockets := by
  obtain ⟨hnote, tables, sockets⟩ := noteRead_changes rules mapped r
  have entry₁ : (noteRead c u r w).proxyStates c = some x := by rw [tables.proxyStates, entry]
  obtain ⟨hdeliver, tables₁, sockets₁⟩ :=
    noteDelivery_changes rules entry₁ (known.imp_right fun listed => by rwa [tables.fdToIndex])
  exact ⟨hnote.trans hdeliver, ⟨tables₁.fdToIndex.trans tables.fdToIndex,
    tables₁.clients.trans tables.clients,
    tables₁.upstreamFdToClient.trans tables.upstreamFdToClient,
    tables₁.proxyStates.trans tables.proxyStates⟩, sockets₁.trans sockets⟩

theorem proxyOnUpstreamRead_changes {u : Fd} {r : ReadChoice} {cw : WriteResult}
    (ok : ∀ c x, w.upstreamFdToClient u = some c → w.proxyStates c = some x →
      Allowed rules x
        (handle x (.upstreamReadable (clientSide w c) (readFd u r w).1 cw))
        (inboxAt w x.ps.upstreamFd) (inboxAt (readFd u r w).2 x.ps.upstreamFd)) :
    Changes rules w (proxyOnUpstreamRead u r cw w) := by
  unfold EventLoop.proxyOnUpstreamRead
  split
  · exact .refl
  rename_i c mapped
  split
  · exact .refl
  rename_i x entry
  dsimp only
  have allowed := ok c x mapped entry
  have side : clientSide (noteRead c u (readFd u r w).1 (readFd u r w).2) c = clientSide w c := by
    have mapped₁ : (readFd u r w).2.upstreamFdToClient u = some c := by
      rw [(readFd_tables u r w).upstreamFdToClient, mapped]
    rw [(noteRead_changes rules mapped₁ _).2.1.clientSide, (readFd_tables u r w).clientSide]
  rw [side]
  have known : (handle x (.upstreamReadable (clientSide w c) (readFd u r w).1 cw)).toClient =
      x.toClient ∨ w.fdToIndex c ≠ none := by
    by_cases hindex : w.fdToIndex c = none
    · exact Or.inl (upstreamRead_unknown (by rw [clientSide, hindex]) _ cw x)
    · exact Or.inr hindex
  obtain ⟨hnoted, tables, sockets⟩ := noted_changes rules mapped entry (readFd u r w).1 known
  have entry₁ := (congrFun tables.proxyStates c).trans entry
  have boxes (v : Fd) := inboxAt_same (congrFun sockets v)
  rcases readFd_world u r w with same | ⟨s, n, opened, drained⟩
  · rw [same] at allowed ⊢
    refine hnoted.trans (storeExchange_changes entry₁ (handle_route _ _).upstreamFd ?_)
    rwa [boxes]
  · rw [drained] at allowed ⊢
    rw [noteRead_drain opened, noteDelivery_drain (by rwa [(noteRead_changes rules mapped _).2.2])]
    refine hnoted.trans (storeExchange_drain_changes ((congrFun sockets u).trans opened) entry₁
      ((congrFun tables.upstreamFdToClient u).trans mapped) (handle_route _ _).upstreamFd ?_)
    rw [boxes]
    have rest : inboxAt (drain u s n (noteDelivery c x
        (handle x (.upstreamReadable (clientSide w c) (readFd u r w).1 cw))
        (noteRead c u (readFd u r w).1 w))) x.ps.upstreamFd =
        inboxAt (drain u s n w) x.ps.upstreamFd := by
      refine inboxAt_same ?_
      unfold drain openFd
      dsimp only
      rw [sockets]
    rwa [rest]

theorem proxyOnBodyData_changes {c : Fd} {data : Bytes} {r : WriteResult}
    (ok : ∀ x, w.proxyStates c = some x → Allowed rules x (handle x (.bodyData data r))
      (inboxAt w x.ps.upstreamFd) (inboxAt w x.ps.upstreamFd)) :
    Changes rules w (proxyOnBodyData c data r w) := by
  unfold EventLoop.proxyOnBodyData
  split
  · exact .refl
  · rename_i x entry
    exact storeExchange_changes entry (handle_route _ _).upstreamFd (ok x entry)

theorem proxyOnClientWritable_changes {c : Fd} {i : Nat} {cw : WriteResult}
    (index : w.fdToIndex c = some i)
    (ok : ∀ x inbox, w.proxyStates c = some x →
      Allowed rules x (handle x (.clientWritable cw)) inbox inbox) :
    Changes rules w (proxyOnClientWritable c cw w) := by
  unfold EventLoop.proxyOnClientWritable
  split
  · exact .refl
  · rename_i x entry
    obtain ⟨hdeliver, tables, sockets⟩ := noteDelivery_changes rules entry (Or.inr (by
      rw [index]
      exact Option.some_ne_none i))
    refine hdeliver.trans (storeExchange_changes ?_ (handle_route _ _).upstreamFd ?_)
    · rw [tables.proxyStates, entry]
    · exact ok x _ entry

/-- What starting an exchange leaves alone before there is a connection. -/
structure SameClients (w w' : World) : Prop where
  fdToIndex : w'.fdToIndex = w.fdToIndex
  clients : w'.clients = w.clients
  stale : ∀ u, Stale w' u → Stale w u

variable (rules) in
theorem reusePooled_changes (h : Tables w) (route : Route) (peerClosed : Bool) :
    Changes rules w (reusePooled route peerClosed w).2 ∧
      SameClients w (reusePooled route peerClosed w).2 ∧
      ∀ u, (reusePooled route peerClosed w).1 = some u →
        Unused (reusePooled route peerClosed w).2 u ∧
          ∀ t, (reusePooled route peerClosed w).2.sockets u = some t → t.role = .idle := by
  unfold reusePooled
  split
  · exact ⟨.refl, ⟨rfl, rfl, fun _ => id⟩, fun _ taken => nomatch taken⟩
  cases htake : keepalivePoolTake w.keepalivePools route.upstream.host route.upstream.port with
  | mk taken pools => cases taken with
    | none => exact ⟨.refl, ⟨rfl, rfl, fun _ => id⟩, fun _ taken => nomatch taken⟩
    | some u =>
      have perm := take_pooled htake
      have unused := h.unpooled (show List.Perm _ ([u] ++ _) from perm) List.mem_cons_self
      dsimp only
      split
      · refine ⟨?_, ⟨rfl, rfl, fun v stale => ?_⟩, fun _ taken => nomatch taken⟩
        · exact .tail (.single (.unpool [u] pools perm)) (.shut u unused)
        · obtain ⟨closed, listed⟩ := stale
          have other : v ≠ u := by
            rintro rfl
            exact absurd unused.client (Option.isSome_iff_ne_none.mp listed)
          exact ⟨(update_of_ne other ..).symm.trans closed, listed⟩
      · refine ⟨.single (.reuse u pools perm), ⟨rfl, rfl, fun _ => id⟩, fun v taken => ?_⟩
        cases taken
        refine ⟨⟨unused.client, unused.upstream, unused.forward, unused.idle⟩, fun t opened => ?_⟩
        obtain ⟨s, pooled, role⟩ := h.idle u (perm.mem_iff.mpr List.mem_cons_self)
        cases pooled.symm.trans opened
        exact role

theorem connectFresh_some {connect : Option Fd} {u : Fd} (h : connectFresh connect w = some u) :
    connect = some u ∧ w.sockets u = none := by
  unfold connectFresh at h
  split at h
  · cases h
  · split at h
    · cases h
    · rename_i closed
      cases h
      exact ⟨rfl, Option.not_isSome_iff_eq_none.mp closed⟩

theorem startExchange_changes {c : Fd} {i : Nat} {route : Route} {u : Fd} {reused : Bool}
    (fd : (w.clients i).fd = c) (index : w.fdToIndex c = some i)
    (http : (w.clients i).isHttp = true) (unused : Unused w u)
    (idle : ∀ t, w.sockets u = some t → t.role = .idle) :
    Changes rules w (startExchange i route u reused w) := by
  subst fd
  unfold startExchange
  dsimp only
  refine .tail (.single (.start _ u i (proxyStart (w.clients i).parser route (w.clients i).info u
    reused w.now) ⟨(w.clients i).conn, .upstream (w.clients i).fd, inboxAt w u⟩ index http unused
    ⟨_, _, _, _, _, _, rfl⟩ rfl rfl rfl rfl idle)) ?_
  exact .slot i _ rfl rfl (.inl rfl)

theorem proxyHandler_changes (h : Tables w) {c : Fd} {i : Nat} {route : Route} {io : DispatchIo}
    (index : w.fdToIndex c = some i) (http : (w.clients i).isHttp = true)
    (current : ∀ u, io.connect = some u → ¬ Stale w u) :
    Changes rules w (proxyHandler i route io w) := by
  obtain ⟨hreuse, same, unused⟩ := reusePooled_changes rules h route io.peerClosed
  have tables := h.changes hreuse
  obtain ⟨_, fd, _⟩ := h.client c i index
  unfold proxyHandler
  cases hpooled : reusePooled route io.peerClosed w with
  | mk pooled w₁ =>
    rw [hpooled] at hreuse same unused tables
    have fd₁ : (w₁.clients i).fd = c := by rw [same.clients, fd]
    have index₁ : w₁.fdToIndex c = some i := by rw [same.fdToIndex, index]
    have http₁ : (w₁.clients i).isHttp = true := by rw [same.clients, http]
    cases pooled with
    | some u =>
      obtain ⟨free, idle⟩ := unused u rfl
      exact hreuse.trans (startExchange_changes fd₁ index₁ http₁ free idle)
    | none =>
      dsimp only
      split
      · exact hreuse
      · rename_i u fresh
        obtain ⟨connected, closed⟩ := connectFresh_some fresh
        have current₁ : ¬ Stale w₁ u := fun stale => current u connected (same.stale u stale)
        refine hreuse.trans
          (startExchange_changes fd₁ index₁ http₁ (tables.fresh closed current₁) ?_)
        intro t opened
        rw [closed] at opened
        cases opened

theorem finishSend_changes (i : Nat) (w : World) : Changes rules w (finishSend i w) := by
  unfold finishSend
  dsimp only
  split
  · refine .trans ?_ (resetParser_changes _ _)
    exact .single (.slot _ _ rfl rfl (.inl rfl))
  · refine .tail ?_ (.drop _)
    exact .single (.slot _ _ rfl rfl (.inl rfl))

theorem finishHead_changes (i : Nat) (w : World) : Changes rules w (finishHead i w) := by
  unfold finishHead
  split
  · exact resetParser_changes i w
  · exact .single (.drop _)

theorem contentHandler_changes (i : Nat) (reply : Reply) (w : World) :
    Changes rules w (contentHandler i reply w) := by
  cases reply with
  | written => exact .refl
  | head => exact finishHead_changes i w
  | sent => exact finishSend_changes i w
  | sending n => exact .single (.slot i _ rfl rfl (.inl rfl))
  | broken => exact .single (.drop _)

theorem bestHandler_changes (h : Tables w) {c : Fd} {i : Nat} {io : DispatchIo}
    (index : w.fdToIndex c = some i) (http : (w.clients i).isHttp = true)
    (current : ∀ u, io.connect = some u → ¬ Stale w u) :
    Changes rules w (bestHandler i io w) := by
  unfold bestHandler
  split
  · exact proxyHandler_changes h index http current
  · exact contentHandler_changes _ _ _

theorem persistOrClose_changes (i : Nat) (keepAlive : Bool) (w : World) :
    Changes rules w (persistOrClose i keepAlive w) := by
  unfold persistOrClose
  dsimp only
  split
  · exact .refl
  split
  · exact resetParser_changes _ _
  split
  · exact .single (.drop _)
  · exact .refl

theorem httpDispatcher_changes (h : Tables w) {c : Fd} {i : Nat} {io : DispatchIo}
    (index : w.fdToIndex c = some i) (http : (w.clients i).isHttp = true)
    (current : ∀ u, io.connect = some u → ¬ Stale w u) :
    Changes rules w (httpDispatcher i io w) := by
  have noted : Change rules w (noteDispatch i w) := .log _
  refine (Relation.ReflTransGen.head noted ?_).trans (persistOrClose_changes _ _ _)
  exact bestHandler_changes (h.change noted) index http current

theorem resumeSend_changes (c : Fd) (r : SendResult) (w : World) :
    Changes rules w (resumeSend c r w) := by
  unfold resumeSend
  split
  · exact .refl
  dsimp only
  split
  · exact .refl
  split
  · exact .single (.drop _)
  split
  · refine .trans ?_ (finishSend_changes _ _)
    exact .single (.slot _ _ rfl rfl (.inl rfl))
  · exact .single (.slot _ _ rfl rfl (.inl rfl))

theorem forwardCleanup_changes (d : Fd) (w : World) :
    Changes rules w (forwardCleanup d w) := by
  unfold forwardCleanup
  split
  · exact .refl
  rename_i fs entry
  dsimp only
  split
  · exact .single (.forwardClose d fs entry)
  · refine .tail (.single (.forwardClose d fs entry)) ?_
    exact .slot _ _ rfl rfl (.inl rfl)

theorem forwardOnAccept_changes (h : Tables w) {c : Fd} {i : Nat} {proto : ForwardProto}
    {connect : Option Fd} (index : w.fdToIndex c = some i) (plain : (w.clients i).isHttp = false)
    (current : ∀ u, connect = some u → ¬ Stale w u)
    (works : rules.refuse ∨ ∃ u, connect = some u ∧ w.sockets u = none) :
    Changes rules w (forwardOnAccept c proto connect w) := by
  unfold forwardOnAccept
  split
  · rename_i failed
    rcases works with ok | ⟨u, rfl, closed⟩
    · exact .single (.refuse c i index plain ok)
    · rw [connectFresh, closed] at failed
      cases failed
  rename_i u fresh
  obtain ⟨connected, closed⟩ := connectFresh_some fresh
  have unused := h.fresh closed (current u connected)
  have opened : Change rules w { openFd u ⟨connAt w c, .forward c, []⟩ w with
      forwardStates := update w.forwardStates c (some (forwardStart proto u))
      forwardUpstreamMap := update w.forwardUpstreamMap u (some c) } :=
    .forwardOpen c u _ _ unused rfl rfl
  dsimp only
  split
  · exact .single opened
  · refine .tail (.single opened) ?_
    exact .slot _ _ rfl rfl (.inl rfl)

theorem forwardOnUpstreamWrite_changes (u : Fd) (soerr : Bool) (r : WriteResult) (w : World) :
    Changes rules w (forwardOnUpstreamWrite u soerr r w) := by
  unfold EventLoop.forwardOnUpstreamWrite
  split
  · exact .refl
  split
  · exact .refl
  rename_i d _ _ fs entry
  split
  · exact (forwardCleanup_changes d w).tail (.drop d)
  · rename_i fs' written
    exact .single (.forwardKeep d fs fs' entry (forwardOnUpstreamWrite_upstreamFd written))

theorem forwardOnUpstreamRead_changes {u : Fd} (unproxied : w.upstreamFdToClient u = none)
    (r : ReadChoice) : Changes rules w (forwardOnUpstreamRead u r w) := by
  have hread : Changes rules w (readFd u r w).2 := by
    rcases readFd_world u r w with same | ⟨s, n, opened, drained⟩
    · rw [same]
    · rw [drained]
      exact .single (.drain u s n opened unproxied)
  unfold forwardOnUpstreamRead
  split
  · exact .refl
  rename_i d _
  split
  · exact .refl
  split
  · rename_i w₁ result
    rw [result] at hread
    exact hread
  · rename_i w₁ _ result
    rw [result] at hread
    exact (hread.trans (forwardCleanup_changes d _)).tail (.drop d)

theorem forwardOnDownstreamData_changes (d : Fd) (data : Bytes) (r : WriteResult) (w : World) :
    Changes rules w (forwardOnDownstreamData d data r w) := by
  unfold EventLoop.forwardOnDownstreamData
  split
  · exact .refl
  rename_i fs entry
  split
  · exact forwardCleanup_changes d w
  · rename_i fs' written
    exact .single (.forwardKeep d fs fs' entry (forwardOnDownstreamData_upstreamFd written))

theorem enroll_changes (io : AcceptIo) (i : Nat) (w : World) :
    Changes rules w (enroll io i w) :=
  .head (.count (countIp io w.ipConnCounts)) (.single (.slot i _ rfl rfl (.inl rfl)))

/-- A forward set-up gets its upstream connection. -/
def Connects (w : World) (io : AcceptIo) : Prop :=
  ∀ proto, io.listener = .forward proto → io.registered = true →
    ∃ u, io.connect = some u ∧ w.sockets u = none

theorem attach_changes (h : Tables w) {io : AcceptIo} {s : Socket} {i : Nat}
    (index : w.fdToIndex io.fd = some i) (opened : w.sockets io.fd = some s)
    (plain : (w.clients i).isHttp = false)
    (current : ∀ u, io.connect = some u → ¬ Stale w u)
    (works : rules.refuse ∨ Connects w io) : Changes rules w (attach io i w) := by
  obtain ⟨_, fd, _⟩ := h.client io.fd i index
  unfold attach
  cases hlistener : io.listener with
  | http =>
    dsimp only
    have parsed : Change rules w (setClient i { w.clients i with
        isHttp := true, parser := httpParserInit io.fd, info := io.info } w) :=
      .slot i _ rfl rfl (.inr ⟨rfl, s, by rw [fd, opened]⟩)
    split
    · exact .tail (.single parsed) (.drop _)
    · exact .single parsed
  | socket =>
    dsimp only
    have known : Change rules w (setClient i { w.clients i with info := io.info } w) :=
      .slot i _ rfl rfl (.inl rfl)
    split
    · exact .tail (.single known) (.drop _)
    · exact .single known
  | forward proto =>
    dsimp only
    have known : Change rules w (setClient i { w.clients i with info := io.info } w) :=
      .slot i _ rfl rfl (.inl rfl)
    split
    · exact .tail (.single known) (.drop _)
    · rename_i registered
      refine .head known (forwardOnAccept_changes (h.change known) index ?_ current ?_)
      · simp [setClient, plain]
      · exact works.imp_right fun connects => connects proto hlistener (by simpa using registered)

theorem setUpClient_changes (h : Tables w) {io : AcceptIo} {s : Socket} {i : Nat}
    (index : w.fdToIndex io.fd = some i) (opened : w.sockets io.fd = some s)
    (plain : (w.clients i).isHttp = false)
    (current : ∀ u, io.connect = some u → ¬ Stale w u)
    (works : rules.refuse ∨ Connects w io) : Changes rules w (setUpClient io w) := by
  unfold setUpClient
  split
  · exact .single (.drop _)
  rw [index]
  have admitted : Changes rules w (enroll io i w) := enroll_changes io i w
  refine admitted.trans (attach_changes (h.changes admitted) index opened ?_ current works)
  simp [enroll, setClient, plain]

/-- The numbers that the kernel hands out in an event. -/
def handedOut : EventLoop.Event → List Fd
  | .accept io => io.fd :: io.connect.toList
  | .clientReadable _ _ io => io.connect.toList
  | _ => []

/-- None of them is held in the tables for a client that is gone. -/
def Orderly (w : World) (e : EventLoop.Event) : Prop := ∀ fd ∈ handedOut e, ¬ Held w fd

/-- An orderly event gets no number that is left behind. -/
theorem Orderly.current {e : EventLoop.Event} (orderly : Orderly w e) :
    ∀ fd ∈ handedOut e, ¬ Stale w fd :=
  fun fd handed stale => orderly fd handed (Or.inl stale.2)

theorem myOnAccept_changes (h : Tables w) {io : AcceptIo} (ok : rules.new w io.fd)
    (current : ∀ u, io.connect = some u → ¬ Stale w u)
    (works : rules.refuse ∨ Connects (accept io.fd w) io) :
    Changes rules w (myOnAccept io w) := by
  unfold myOnAccept
  split
  · exact .refl
  rename_i usable
  rw [not_or, Option.not_isSome_iff_eq_none] at usable
  obtain ⟨nonzero, closed⟩ := usable
  split
  · exact .single (.reject io.fd closed)
  rename_i w₁ added
  obtain ⟨i, _, free, rfl⟩ := connAdd_some added
  have accepted : Change rules w (register io.fd i (accept io.fd w)) :=
    .accept io.fd i nonzero closed free ok
  refine .head accepted (setUpClient_changes (h.change accepted) (update_self ..)
    (update_self ..) ?_ ?_ works)
  · simp [register, setClient]
  · rintro u connect ⟨closed₁, listed⟩
    have other : u ≠ io.fd := by
      rintro rfl
      simp [register, setClient, accept, openFd] at closed₁
    refine current u connect ⟨?_, ?_⟩
    · simpa [register, setClient, accept, openFd, other] using closed₁
    · simpa [register, setClient, accept, openFd, other] using listed

theorem connDel_proxyStates (c : Fd) (w : World) : (connDel c w).proxyStates = w.proxyStates := by
  unfold connDel
  split
  · rfl
  split
  · rfl
  · rfl

/-- No exchange is started or ended, and no client begins to stream. -/
structure SameExchanges (w w' : World) : Prop where
  proxyStates : w'.proxyStates = w.proxyStates
  streaming : ∀ i, (w'.clients i).proxyStreaming = (w.clients i).proxyStreaming

theorem SameExchanges.refl (w : World) : SameExchanges w w := ⟨rfl, fun _ => rfl⟩

theorem SameExchanges.trans {w₁ w₂ : World} (h : SameExchanges w w₁) (h' : SameExchanges w₁ w₂) :
    SameExchanges w w₂ :=
  ⟨h'.proxyStates.trans h.proxyStates, fun i => (h'.streaming i).trans (h.streaming i)⟩

theorem setClient_exchanges {i : Nat} {cd : ClientData}
    (same : cd.proxyStreaming = (w.clients i).proxyStreaming) :
    SameExchanges w (setClient i cd w) := by
  refine ⟨rfl, fun j => ?_⟩
  change (update w.clients i cd j).proxyStreaming = _
  rw [update_apply]
  split
  · rename_i this
    rw [this, same]
  · rfl

theorem connDel_exchanges (c : Fd) (w : World) : SameExchanges w (connDel c w) := by
  refine ⟨connDel_proxyStates c w, ?_⟩
  unfold connDel
  split
  · exact fun _ => rfl
  split
  · exact fun _ => rfl
  · rename_i i _
    have freed : SameExchanges w (setClient i { w.clients i with
        fd := 0, sendingBody := false, sendRemaining := 0 } w) := setClient_exchanges rfl
    exact freed.streaming

theorem finishSend_exchanges (i : Nat) (w : World) : SameExchanges w (finishSend i w) := by
  have stopped : SameExchanges w (setClient i { w.clients i with
      sendingBody := false, sendRemaining := 0 } w) := setClient_exchanges rfl
  unfold finishSend
  dsimp only
  split
  · exact stopped.trans (setClient_exchanges rfl)
  · exact stopped.trans (connDel_exchanges _ _)

theorem finishHead_exchanges (i : Nat) (w : World) : SameExchanges w (finishHead i w) := by
  unfold finishHead
  split
  · exact setClient_exchanges rfl
  · exact connDel_exchanges _ _

theorem contentHandler_exchanges (i : Nat) (reply : Reply) (w : World) :
    SameExchanges w (contentHandler i reply w) := by
  cases reply with
  | written => exact .refl w
  | head => exact finishHead_exchanges i w
  | sent => exact finishSend_exchanges i w
  | sending n => exact setClient_exchanges rfl
  | broken => exact connDel_exchanges _ _

theorem persistOrClose_exchanges (i : Nat) (keepAlive : Bool) (w : World) :
    SameExchanges w (persistOrClose i keepAlive w) := by
  unfold persistOrClose
  dsimp only
  split
  · exact .refl w
  split
  · exact setClient_exchanges rfl
  split
  · exact connDel_exchanges _ _
  · exact .refl w

theorem reusePooled_same (route : Route) (peerClosed : Bool) (w : World) :
    (reusePooled route peerClosed w).2.clients = w.clients ∧
      (reusePooled route peerClosed w).2.fdToIndex = w.fdToIndex ∧
      (reusePooled route peerClosed w).2.proxyStates = w.proxyStates := by
  unfold reusePooled
  split
  · exact ⟨rfl, rfl, rfl⟩
  split
  · exact ⟨rfl, rfl, rfl⟩
  dsimp only
  split
  · exact ⟨rfl, rfl, rfl⟩
  · exact ⟨rfl, rfl, rfl⟩

/-- The exchange of the client `c` was there and `c` does not begin to stream, or it is new. -/
def StartedOr (w w' : World) (c : Fd) (i : Nat) (x : Exchange) : Prop :=
  Started x ∨ (w.proxyStates c = some x ∧
    (w'.clients i).proxyStreaming = (w.clients i).proxyStreaming)

theorem startExchange_entry {i : Nat} {route : Route} {u : Fd} {reused : Bool} {c : Fd}
    {x : Exchange} (fd : (w.clients i).fd = c)
    (entry : (startExchange i route u reused w).proxyStates c = some x) : Started x := by
  change update w.proxyStates (w.clients i).fd (some _) c = some x at entry
  rw [fd, update_self] at entry
  cases entry
  exact ⟨_, _, _, _, _, _, rfl⟩

theorem proxyHandler_entry {i : Nat} {route : Route} {io : DispatchIo} {c : Fd} {x : Exchange}
    (fd : (w.clients i).fd = c)
    (entry : (proxyHandler i route io w).proxyStates c = some x) :
    StartedOr w (proxyHandler i route io w) c i x := by
  obtain ⟨clients, _, states⟩ := reusePooled_same route io.peerClosed w
  unfold proxyHandler at entry ⊢
  cases hpooled : reusePooled route io.peerClosed w with
  | mk pooled w₁ =>
    rw [hpooled] at entry clients states
    have fd₁ : (w₁.clients i).fd = c := by rw [clients, fd]
    cases pooled with
    | some u => exact Or.inl (startExchange_entry fd₁ entry)
    | none =>
      dsimp only at entry ⊢
      cases fresh : connectFresh io.connect w₁ with
      | none =>
        rw [fresh] at entry
        exact Or.inr ⟨states ▸ entry, by rw [← clients]⟩
      | some u =>
        rw [fresh] at entry
        exact Or.inl (startExchange_entry fd₁ entry)

/-- A request leaves the exchanges alone but for the one that it starts. -/
theorem httpDispatcher_entry {i : Nat} {io : DispatchIo} {c : Fd} {x : Exchange}
    (fd : (w.clients i).fd = c)
    (entry : (httpDispatcher i io w).proxyStates c = some x) :
    StartedOr w (httpDispatcher i io w) c i x := by
  have persist := persistOrClose_exchanges i (httpShouldKeepAlive (w.clients i).parser.req)
    (bestHandler i io (noteDispatch i w))
  have handled : StartedOr w (bestHandler i io (noteDispatch i w)) c i x := by
    have entry₁ : (bestHandler i io (noteDispatch i w)).proxyStates c = some x :=
      persist.proxyStates ▸ entry
    unfold bestHandler at entry₁ ⊢
    cases hroute : io.route with
    | some route =>
      rw [hroute] at entry₁
      exact proxyHandler_entry (w := noteDispatch i w) fd entry₁
    | none =>
      rw [hroute] at entry₁
      have same := contentHandler_exchanges i io.reply (noteDispatch i w)
      exact Or.inr ⟨(congrFun same.proxyStates c).symm.trans entry₁, same.streaming i⟩
  exact handled.imp_right fun before => ⟨before.1, (persist.streaming i).trans before.2⟩

theorem connDel_now (c : Fd) (w : World) : (connDel c w).now = w.now := by
  unfold connDel
  split
  · rfl
  split
  · rfl
  · rfl

theorem closeFds_tables (fds : List Fd) (w : World) :
    (closeFds fds w).proxyStates = w.proxyStates ∧ (closeFds fds w).now = w.now := by
  induction fds generalizing w with
  | nil => exact ⟨rfl, rfl⟩
  | cons fd fds ih => exact ih (closeFd fd w)

theorem releaseUpstream_tables (x : Exchange) (w : World) :
    (releaseUpstream x w).proxyStates = w.proxyStates ∧ (releaseUpstream x w).now = w.now := by
  unfold releaseUpstream
  dsimp only
  split
  · exact closeFds_tables _ _
  · exact ⟨rfl, rfl⟩

theorem releaseClient_tables (c : Fd) (x : Exchange) (w : World) :
    (releaseClient c x w).proxyStates = w.proxyStates ∧ (releaseClient c x w).now = w.now := by
  unfold releaseClient
  split
  · exact ⟨rfl, rfl⟩
  dsimp only
  split
  · exact ⟨rfl, rfl⟩
  · exact ⟨connDel_proxyStates _ _, connDel_now _ _⟩

/-- `proxy_cleanup` removes one exchange. -/
theorem endExchange_tables (c : Fd) (x : Exchange) (w : World) :
    (endExchange c x w).proxyStates = update w.proxyStates c none ∧
      (endExchange c x w).now = w.now := by
  obtain ⟨clientStates, clientNow⟩ :=
    releaseClient_tables c x (releaseUpstream x (forgetExchange c x w))
  obtain ⟨upstreamStates, upstreamNow⟩ := releaseUpstream_tables x (forgetExchange c x w)
  exact ⟨clientStates.trans upstreamStates, clientNow.trans upstreamNow⟩

theorem forwardLeftover_changes {c : Fd} {i : Nat} {r : WriteResult}
    (ok : (w.clients i).proxyStreaming = true → ∀ x data inbox, w.proxyStates c = some x →
      Allowed rules x (handle x (.bodyData data r)) inbox inbox) :
    Changes rules w (forwardLeftover c i r w) := by
  unfold forwardLeftover
  dsimp only
  split
  · exact .refl
  rename_i streaming
  split
  · exact .refl
  · have streams : (w.clients i).proxyStreaming = true := by simpa using streaming
    refine .trans ?_ (proxyOnBodyData_changes fun x entry => ok streams x _ _ entry)
    exact .single (.slot i _ rfl rfl (.inl rfl))

/-- What the client sends goes to its upstream. -/
def streams (w : World) (c : Fd) : Bool :=
  match w.fdToIndex c with
  | some i => (w.clients i).proxyStreaming
  | none => false

/-- What an event may do to the tables. -/
def Permitted (rules : Rules) (w : World) : EventLoop.Event → Prop
  | .accept io => rules.new w io.fd ∧ (rules.refuse ∨ Connects (accept io.fd w) io)
  | .clientReadable c r io =>
      (∀ x data, w.proxyStates c = some x → streams w c = true → r = .data data →
        Allowed rules x (handle x (.bodyData data io.bodyWrite))
          (inboxAt w x.ps.upstreamFd) (inboxAt w x.ps.upstreamFd)) ∧
      ∀ x data inbox, Started x →
        Allowed rules x (handle x (.bodyData data io.bodyWrite)) inbox inbox
  | .clientWritable c cw _ => ∀ x inbox, w.proxyStates c = some x →
      Allowed rules x (handle x (.clientWritable cw)) inbox inbox
  | .upstreamWritable u soerr r => ∀ c x inbox, w.upstreamFdToClient u = some c →
      w.proxyStates c = some x →
      Allowed rules x (handle x (.upstreamWritable soerr r)) inbox inbox
  | .upstreamReadable u r cw => ∀ c x, w.upstreamFdToClient u = some c →
      w.proxyStates c = some x → Allowed rules x
        (handle x (.upstreamReadable (clientSide w c) (readFd u r w).1 cw))
        (inboxAt w x.ps.upstreamFd) (inboxAt (readFd u r w).2 x.ps.upstreamFd)
  | .timer now exchanges _ => ∀ c ∈ exchanges, ∀ x inbox, w.proxyStates c = some x →
      connectTimedOut now x = true → rules.keep x inbox → rules.done x inbox
  | _ => True

theorem onHttpData_changes (h : Tables w) {c : Fd} {i : Nat} {data : Bytes} {io : DispatchIo}
    (index : w.fdToIndex c = some i) (http : (w.clients i).isHttp = true)
    (current : ∀ u, io.connect = some u → ¬ Stale w u)
    (waiting : (w.clients i).proxyStreaming = false)
    (ok : ∀ x data inbox, Started x →
      Allowed rules x (handle x (.bodyData data io.bodyWrite)) inbox inbox) :
    Changes rules w (onHttpData c i data io w) := by
  obtain ⟨_, fd, _⟩ := h.client c i index
  unfold onHttpData
  dsimp only
  generalize httpParserFeed .default (w.clients i).parser data = feed
  obtain ⟨parser, res⟩ := feed
  dsimp only
  have fed : Change rules w (storeParser i parser data.length w) :=
    .slot i _ rfl rfl (.inl rfl)
  have http₁ : ((storeParser i parser data.length w).clients i).isHttp = true := by
    simpa [storeParser, setClient] using http
  have dispatched : Changes rules w
      (httpDispatcher i io (storeParser i parser data.length w)) :=
    .head fed (httpDispatcher_changes (h.change fed) index http₁ current)
  split
  · exact .tail (.single fed) (.drop c)
  split
  · exact .single fed
  split
  · refine dispatched.trans (forwardLeftover_changes ?_)
    intro streaming x left inbox entry
    have fd₁ : ((storeParser i parser data.length w).clients i).fd = c := by
      simpa [storeParser, setClient] using fd
    rcases httpDispatcher_entry fd₁ entry with started | ⟨_, same⟩
    · exact ok x left inbox started
    · rw [streaming] at same
      simp [storeParser, setClient, waiting] at same
  · exact dispatched

theorem myOnRead_changes (h : Tables w) {c : Fd} {r : ReadResult} {io : DispatchIo}
    (current : ∀ u, io.connect = some u → ¬ Stale w u)
    (permitted : Permitted rules w (.clientReadable c r io)) :
    Changes rules w (myOnRead c r io w) := by
  have close (i : Nat) : Changes rules w
      (connDel c (if (w.clients i).forwardActive then forwardCleanup c w else w)) := by
    split
    · exact (forwardCleanup_changes c w).tail (.drop c)
    · exact .single (.drop c)
  unfold myOnRead
  split
  · exact .refl
  rename_i i index
  split
  · exact .refl
  · rename_i b rest
    unfold onData
    dsimp only
    have counted : Changes rules w (countRead i (b :: rest) w) :=
      .single (.slot i _ rfl rfl (.inl rfl))
    split
    · exact counted.trans (forwardOnDownstreamData_changes _ _ _ _)
    split
    · exact counted
    split
    · rename_i streaming
      refine counted.trans (proxyOnBodyData_changes fun x entry => ?_)
      refine permitted.1 x _ entry ?_ rfl
      rw [streams, index]
      exact streaming
    · rename_i http streaming
      exact onHttpData_changes h index (by simpa using http) current
        (by simpa using streaming) permitted.2
  · exact close i

theorem myOnWrite_changes {c : Fd} {cw : WriteResult} {r : SendResult}
    (permitted : Permitted rules w (.clientWritable c cw r)) :
    Changes rules w (myOnWrite c cw r w) := by
  unfold myOnWrite
  split
  · exact .refl
  rename_i i index
  split
  · exact .refl
  split
  · exact proxyOnClientWritable_changes index permitted
  · exact resumeSend_changes c r w

theorem proxyTimeouts_changes (exchanges : List Fd)
    (ok : ∀ c ∈ exchanges, ∀ x inbox, w.proxyStates c = some x →
      connectTimedOut w.now x = true → rules.keep x inbox → rules.done x inbox) :
    Changes rules w (exchanges.foldl proxyTimeout w) := by
  induction exchanges generalizing w with
  | nil => exact .refl
  | cons c rest ih =>
    have one : Changes rules w (proxyTimeout w c) ∧ (proxyTimeout w c).now = w.now ∧
        ∀ d x, (proxyTimeout w c).proxyStates d = some x → w.proxyStates d = some x := by
      unfold proxyTimeout
      split
      · exact ⟨.refl, rfl, fun _ _ entry => entry⟩
      rename_i x entry
      split
      · rename_i late
        obtain ⟨states, now⟩ := endExchange_tables c x w
        rw [proxyCleanup, entry]
        refine ⟨endExchange_changes entry rfl (ok c List.mem_cons_self x _ entry late), now,
          fun d y entry₁ => ?_⟩
        rw [states, update_apply] at entry₁
        split at entry₁
        · cases entry₁
        · exact entry₁
      · exact ⟨.refl, rfl, fun _ _ entry => entry⟩
    obtain ⟨changes, now, entries⟩ := one
    refine changes.trans (ih ?_)
    intro d listed x inbox entry late
    rw [now] at late
    exact ok d (List.mem_cons_of_mem _ listed) x inbox (entries d x entry) late

theorem connDels_changes (fds : List Fd) (w : World) :
    Changes rules w (fds.foldl (fun w fd => connDel fd w) w) := by
  induction fds generalizing w with
  | nil => exact .refl
  | cons fd rest ih => exact .head (.drop fd) (ih _)

theorem closeFds_changes (fds : List Fd) (unused : ∀ u ∈ fds, Unused w u) :
    Changes rules w (closeFds fds w) := by
  induction fds generalizing w with
  | nil => exact .refl
  | cons fd rest ih =>
    refine .head (.shut fd (unused fd List.mem_cons_self)) (ih fun u listed => ?_)
    obtain ⟨client, upstream, forward, idle⟩ := unused u (List.mem_cons_of_mem _ listed)
    exact ⟨client, upstream, forward, idle⟩

theorem poolSweep_changes (h : Tables w) : Changes rules w (poolSweep w) := by
  have perm := sweep_pooled w.keepalivePools w.now
  have swept : Change rules w { w with
      keepalivePools := (keepalivePoolSweep w.keepalivePools w.now).2 } := .unpool _ _ perm
  exact .head swept (closeFds_changes _ fun u left => h.unpooled perm left)

theorem serverTimeoutSweep_changes (h : Tables w) (exchanges : List Fd) (slots : List Nat)
    (ok : ∀ c ∈ exchanges, ∀ x inbox, w.proxyStates c = some x →
      connectTimedOut w.now x = true → rules.keep x inbox → rules.done x inbox) :
    Changes rules w (serverTimeoutSweep exchanges slots w) := by
  have both : Changes rules w
      (connectionTimeoutSweep slots (exchanges.foldl proxyTimeout w)) :=
    (proxyTimeouts_changes exchanges ok).trans (connDels_changes _ _)
  exact both.trans (poolSweep_changes (h.changes both))

theorem forwardCleanup_upstreamFdToClient (d : Fd) (w : World) :
    (forwardCleanup d w).upstreamFdToClient = w.upstreamFdToClient := by
  unfold forwardCleanup
  split
  · rfl
  dsimp only
  split
  · rfl
  · rfl

theorem connDel_upstreamFdToClient (c : Fd) (w : World) :
    (connDel c w).upstreamFdToClient = w.upstreamFdToClient := by
  unfold connDel
  split
  · rfl
  split
  · rfl
  · rfl

/-- A descriptor is the upstream of a forwarded connection or of a proxied one, not both. -/
theorem one_upstream (h : Tables w) (u : Fd) :
    w.forwardUpstreamMap u = none ∨ w.upstreamFdToClient u = none := by
  cases mapped : w.forwardUpstreamMap u with
  | none => exact Or.inl rfl
  | some d =>
    obtain ⟨s, opened, role⟩ := h.forward u d mapped
    exact Or.inr (h.no_upstream opened (by simp [role]))

theorem forwardOnUpstreamWrite_upstreamFdToClient (u : Fd) (soerr : Bool) (r : WriteResult)
    (w : World) :
    (forwardOnUpstreamWrite u soerr r w).upstreamFdToClient = w.upstreamFdToClient := by
  unfold EventLoop.forwardOnUpstreamWrite
  split
  · rfl
  split
  · rfl
  split
  · rw [connDel_upstreamFdToClient, forwardCleanup_upstreamFdToClient]
  · rfl

theorem forwardOnUpstreamRead_upstreamFdToClient (u : Fd) (r : ReadChoice) (w : World) :
    (forwardOnUpstreamRead u r w).upstreamFdToClient = w.upstreamFdToClient := by
  have same := readFd_tables u r w
  unfold forwardOnUpstreamRead
  split
  · rfl
  split
  · rfl
  split
  · rename_i w₁ result
    rw [result] at same
    exact same.upstreamFdToClient
  · rename_i w₁ _ result
    rw [result] at same
    rw [connDel_upstreamFdToClient, forwardCleanup_upstreamFdToClient]
    exact same.upstreamFdToClient

theorem upstreamWritable_changes (h : Tables w) {u : Fd} {soerr : Bool} {r : WriteResult}
    (permitted : Permitted rules w (.upstreamWritable u soerr r)) :
    Changes rules w (proxyOnUpstreamWrite u soerr r (forwardOnUpstreamWrite u soerr r w)) := by
  rcases one_upstream h u with unmapped | unmapped
  · have same : forwardOnUpstreamWrite u soerr r w = w := by
      rw [EventLoop.forwardOnUpstreamWrite, unmapped]
    rw [same]
    exact proxyOnUpstreamWrite_changes permitted
  · refine (forwardOnUpstreamWrite_changes u soerr r w).trans (proxyOnUpstreamWrite_changes ?_)
    intro c x inbox mapped
    rw [forwardOnUpstreamWrite_upstreamFdToClient, unmapped] at mapped
    cases mapped

theorem upstreamReadable_changes (h : Tables w) {u : Fd} {r : ReadChoice} {cw : WriteResult}
    (permitted : Permitted rules w (.upstreamReadable u r cw)) :
    Changes rules w (proxyOnUpstreamRead u r cw (forwardOnUpstreamRead u r w)) := by
  rcases one_upstream h u with unmapped | unmapped
  · have same : forwardOnUpstreamRead u r w = w := by
      rw [forwardOnUpstreamRead, unmapped]
    rw [same]
    exact proxyOnUpstreamRead_changes permitted
  · refine (forwardOnUpstreamRead_changes unmapped r).trans (proxyOnUpstreamRead_changes ?_)
    intro c x mapped
    rw [forwardOnUpstreamRead_upstreamFdToClient, unmapped] at mapped
    cases mapped

/-- Every event but the arrival of bytes is a sequence of changes. -/
theorem step_changes (h : Tables w) {e : EventLoop.Event}
    (current : ∀ fd ∈ handedOut e, ¬ Stale w fd)
    (permitted : Permitted rules w e) :
    Changes rules w (EventLoop.step w e) ∨ ∃ u data s, e = .arrive u data ∧
      w.sockets u = some s ∧
      EventLoop.step w e = openFd u { s with inbox := s.inbox ++ data } w := by
  cases e with
  | accept io =>
    refine Or.inl (myOnAccept_changes h permitted.1 (fun u connect => current u ?_) permitted.2)
    exact List.mem_cons_of_mem _ (by simp [connect])
  | clientReadable c r io =>
    refine Or.inl (myOnRead_changes h (fun u connect => current u ?_) permitted)
    simp [handedOut, connect]
  | clientWritable c cw r => exact Or.inl (myOnWrite_changes permitted)
  | upstreamWritable u soerr r =>
    refine Or.inl ?_
    rw [EventLoop.step]
    split
    · exact upstreamWritable_changes h permitted
    · exact .refl
  | upstreamReadable u r cw =>
    refine Or.inl ?_
    rw [EventLoop.step]
    split
    · exact upstreamReadable_changes h permitted
    · exact .refl
  | timer now exchanges slots =>
    have ticked : Change rules w { w with now := now } := .tick now
    exact Or.inl (.head ticked (serverTimeoutSweep_changes (h.change ticked) _ _ permitted))
  | arrive u data =>
    rw [EventLoop.step]
    cases opened : w.sockets u with
    | none => exact Or.inl .refl
    | some s => exact Or.inr ⟨u, data, s, rfl, opened, rfl⟩

/-- An invariant that every change keeps, and the arrival of bytes too, is kept by every
step that gets no number left behind, and the tables stay right. -/
theorem step_invariant {inv : World → Prop}
    (change : ∀ {w w'}, Tables w → inv w → Change rules w w' → inv w')
    {e : EventLoop.Event} (h : Tables w) (holds : inv w)
    (current : ∀ fd ∈ handedOut e, ¬ Stale w fd)
    (permitted : Permitted rules w e)
    (arrive : ∀ u data s, e = .arrive u data → w.sockets u = some s →
      inv (openFd u { s with inbox := s.inbox ++ data } w)) :
    Tables (EventLoop.step w e) ∧ inv (EventLoop.step w e) := by
  have whole {w' : World} (changes : Changes rules w w') : inv w' := by
    induction changes with
    | refl => exact holds
    | tail before one ih => exact change (h.changes before) ih one
  rcases step_changes h current permitted with changes | ⟨u, data, s, event, opened, arrived⟩
  · exact ⟨h.changes changes, whole changes⟩
  · rw [arrived]
    exact ⟨h.socket opened rfl rfl, arrive u data s event opened⟩

end LoopSteps
