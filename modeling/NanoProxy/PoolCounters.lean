import NanoProxy.LoadBalancer
import NanoProxy.CallTrace
import NanoProxy.Lib.Runs

/-!
# The connection counters of the upstream pools

`proxy_handler` counts a request for the target that it has chosen before it validates the
URL, and `proxy_cleanup` counts down for the exchange that it finds. A count is lost when
the URL is refused and when the entry of `proxy_states` with its pool target is overwritten.
-/

namespace PoolCounters

open CLib HttpRequestParser ProxyExchange EventLoop CallTrace ListenerRouting LoadBalancer Runs
open Function

/-- `entries` holds `pool_name` and `pool_target_url` of every entry of `proxy_states`. -/
structure PoolTables where
  pools : UpstreamPools
  entries : List (Fd × Option PoolRef)

structure State where
  world : World
  tables : PoolTables

/-- An event of the loop, with the location of the request if it belongs to `proxy_handler`,
and what `rand()` returns there. -/
structure Event where
  loop : EventLoop.Event
  location : Option Location
  rand : Nat

def State.init (groups : List UpstreamGroup) : State := ⟨World.init, ⟨registered groups, []⟩⟩

/-- The slot whose request the event brings to `http_dispatcher`. -/
def dispatches (w : World) : EventLoop.Event → Option Nat
  | .clientReadable c (.data (b :: rest)) _ =>
    match w.fdToIndex c with
    | none => none
    | some i =>
      let cd := w.clients i
      if cd.forwardActive || !cd.isHttp || cd.proxyStreaming then none
      else if 0 < (httpParserFeed .default cd.parser (b :: rest)).2 then some i
      else none
  | _ => none

/-- The event with another handler. -/
def redirect (f : DispatchIo → DispatchIo) : EventLoop.Event → EventLoop.Event
  | .clientReadable c r io => .clientReadable c r (f io)
  | e => e

def content (io : DispatchIo) : DispatchIo := { io with route := none }

/-- 502 before a connection is tried -/
def badGateway (io : DispatchIo) : DispatchIo := { io with route := none, reply := .written }

def proxied (route : Route) (io : DispatchIo) : DispatchIo := { io with route := some route }

/-- `upstream_pool_dec_conn` for an exchange that may belong to no pool. -/
def release (ref : Option PoolRef) (pools : UpstreamPools) : UpstreamPools :=
  match ref with
  | none => pools
  | some ref => upstreamPoolDecConn ref pools

/-- `upstream_pool_mark_down` at the time `now` -/
def markDown (now : Option Int) (ref : Option PoolRef) (pools : UpstreamPools) : UpstreamPools :=
  match now, ref with
  | some now, some ref => upstreamPoolMarkDown ref now pools
  | _, _ => pools

/-- What a call does to the tables. `claim` is what `proxy_handler` has counted in this
event, `down` is set where `proxy_cleanup` comes after `upstream_pool_mark_down`. -/
def account (claim : Option PoolRef) (down : Option Int) (t : PoolTables) : Call → PoolTables
  | .proxyStore c => { t with entries := StringMap.put c claim t.entries }
  | .proxyUnreachable _ => { t with pools := release claim t.pools }
  | .proxyCleanup c =>
    let ref := (StringMap.get c t.entries).join
    ⟨release ref (markDown down ref t.pools), StringMap.erase c t.entries⟩
  | _ => t

/-- The event cleans up because a connection was not established. -/
def marksDown (w : World) : EventLoop.Event → Option Int
  | .upstreamWritable u soerr _ =>
    match w.upstreamFdToClient u with
    | none => none
    | some c => match w.proxyStates c with
      | none => none
      | some x => if !x.ps.connected && soerr then some w.now else none
  | .timer now _ _ => some now
  | _ => none

/-- What `proxy_handler` selects in the event, if it is called, and the pools after that. -/
def selection (s : State) (e : Event) : Option (Selection × UpstreamPools) :=
  match dispatches s.world e.loop, e.location with
  | some i, some loc =>
    some (selectUpstream loc (s.world.clients i) s.world.now e.rand s.tables.pools)
  | _, _ => none

/-- The event as the loop sees it, what `proxy_handler` has counted, and the pools then. -/
def serve (s : State) (e : Event) : EventLoop.Event × Option PoolRef × UpstreamPools :=
  match selection s e with
  | none => (redirect content e.loop, none, s.tables.pools)
  | some (.rejected _, pools) => (redirect badGateway e.loop, none, pools)
  | some (.unresolved ref, pools) => (redirect badGateway e.loop, none, release ref pools)
  | some (.selected ref route, pools) => (redirect (proxied route) e.loop, ref, pools)

def step (s : State) (e : Event) : State :=
  let (loop, claim, pools) := serve s e
  { world := EventLoop.step s.world loop
    tables := (stepCalls s.world loop).foldl (account claim (marksDown s.world loop))
      ⟨pools, s.tables.entries⟩ }

/-- The entries of `proxy_states` for a pool target. -/
def inFlight (t : PoolTables) (ref : PoolRef) : Nat :=
  t.entries.countP fun e => e.2 = some ref

/-- The counter of every target of every pool is the number of its entries in
`proxy_states`. -/
structure Exact (s : State) : Prop where
  keys : ∀ c, (StringMap.get c s.tables.entries).isSome = (s.world.proxyStates c).isSome
  counters : ∀ name pool, StringMap.get name s.tables.pools = some pool →
    ∀ url t, (url, t) ∈ pool.targets → t.activeConnections = inFlight s.tables ⟨name, url⟩

/-- No pool of the configuration lists a URL twice. -/
def Distinct (groups : List UpstreamGroup) : Prop := ∀ g ∈ groups, g.targets.Nodup

instance (groups : List UpstreamGroup) : Decidable (Distinct groups) :=
  inferInstanceAs (Decidable (∀ g ∈ groups, g.targets.Nodup))

def stores : Call → Bool
  | .proxyStore _ => true
  | _ => false

/-- The entry of `proxy_states` that belongs to the connection, if it names a pool target. -/
def ownRef (s : State) (i : Nat) : Option PoolRef :=
  (StringMap.get (s.world.clients i).fd s.tables.entries).join

/-- `proxy_handler` refuses no URL that a pool has chosen, and stores no state over one with
a pool target. -/
def Sound (s : State) (e : Event) : Prop :=
  match selection s e with
  | none => True
  | some (.rejected ref, _) => ref = none
  | some (.unresolved _, _) => True
  | some (.selected _ route, _) => ∀ i, dispatches s.world e.loop = some i →
    (stepCalls s.world (redirect (proxied route) e.loop)).any stores = true → ownRef s i = none

variable {w : World}

/-- `proxy_handler` has got as far as looking for an upstream connection. -/
def connects : Call → Bool
  | .proxyStore _ => true
  | .proxyUnreachable _ => true
  | _ => false

/-- None of the calls is one of `proxy_handler`. -/
def Quiet (cs : List Call) : Prop := ∀ call ∈ cs, connects call = false

theorem Quiet.nil : Quiet [] := fun _ listed => nomatch listed

theorem Quiet.cons {call : Call} {cs : List Call} (first : connects call = false)
    (rest : Quiet cs) : Quiet (call :: cs) := List.forall_mem_cons.mpr ⟨first, rest⟩

theorem Quiet.append {cs ds : List Call} (first : Quiet cs) (rest : Quiet ds) :
    Quiet (cs ++ ds) := List.forall_mem_append.mpr ⟨first, rest⟩

theorem connDelCalls_quiet (c : Fd) (w : World) : Quiet (connDelCalls c w) := by
  unfold connDelCalls
  split
  · exact .nil
  split
  · exact .nil
  · exact .cons rfl .nil

theorem endExchangeCalls_quiet (c : Fd) (x : Exchange) (w : World) :
    Quiet (endExchangeCalls c x w) := by
  apply Quiet.cons rfl
  unfold releaseClientCalls
  split
  · exact .nil
  dsimp only
  split
  · exact .cons rfl .nil
  · exact connDelCalls_quiet c _

theorem storeExchangeCalls_quiet (c : Fd) (x : Exchange) (w : World) :
    Quiet (storeExchangeCalls c x w) := by
  unfold storeExchangeCalls
  split
  · exact endExchangeCalls_quiet c x w
  · exact .nil

theorem proxyOnUpstreamWriteCalls_quiet (u : Fd) (soerr : Bool) (r : WriteResult) (w : World) :
    Quiet (proxyOnUpstreamWriteCalls u soerr r w) := by
  unfold proxyOnUpstreamWriteCalls
  split
  · exact .nil
  split
  · exact .nil
  · exact storeExchangeCalls_quiet _ _ w

theorem proxyOnUpstreamReadCalls_quiet (u : Fd) (r : ReadChoice) (cw : WriteResult) (w : World) :
    Quiet (proxyOnUpstreamReadCalls u r cw w) := by
  unfold proxyOnUpstreamReadCalls
  split
  · exact .nil
  split
  · exact .nil
  · exact storeExchangeCalls_quiet _ _ _

theorem proxyOnBodyDataCalls_quiet (c : Fd) (data : Bytes) (r : WriteResult) (w : World) :
    Quiet (proxyOnBodyDataCalls c data r w) := by
  unfold proxyOnBodyDataCalls
  split
  · exact .nil
  · exact storeExchangeCalls_quiet c _ w

theorem proxyOnClientWritableCalls_quiet (c : Fd) (cw : WriteResult) (w : World) :
    Quiet (proxyOnClientWritableCalls c cw w) := by
  unfold proxyOnClientWritableCalls
  split
  · exact .nil
  · exact storeExchangeCalls_quiet c _ _

theorem finishSendCalls_quiet (i : Nat) (w : World) : Quiet (finishSendCalls i w) := by
  unfold finishSendCalls
  dsimp only
  split
  · exact .cons rfl .nil
  · exact connDelCalls_quiet _ _

theorem finishHeadCalls_quiet (i : Nat) (w : World) : Quiet (finishHeadCalls i w) := by
  unfold finishHeadCalls
  split
  · exact .cons rfl .nil
  · exact connDelCalls_quiet _ w

theorem contentHandlerCalls_quiet (i : Nat) (reply : Reply) (w : World) :
    Quiet (contentHandlerCalls i reply w) := by
  cases reply with
  | written => exact .nil
  | head => exact finishHeadCalls_quiet i w
  | sent => exact finishSendCalls_quiet i w
  | sending n => exact .nil
  | broken => exact connDelCalls_quiet _ w

theorem persistOrCloseCalls_quiet (i : Nat) (keepAlive : Bool) (w : World) :
    Quiet (persistOrCloseCalls i keepAlive w) := by
  unfold persistOrCloseCalls
  dsimp only
  split
  · exact .nil
  split
  · exact .cons rfl .nil
  split
  · exact connDelCalls_quiet _ w
  · exact .nil

theorem resumeSendCalls_quiet (c : Fd) (r : SendResult) (w : World) :
    Quiet (resumeSendCalls c r w) := by
  unfold resumeSendCalls
  split
  · exact .nil
  dsimp only
  split
  · exact .nil
  split
  · exact connDelCalls_quiet _ w
  split
  · exact finishSendCalls_quiet _ _
  · exact .nil

theorem forwardOnUpstreamWriteCalls_quiet (u : Fd) (soerr : Bool) (r : WriteResult) (w : World) :
    Quiet (forwardOnUpstreamWriteCalls u soerr r w) := by
  unfold forwardOnUpstreamWriteCalls
  split
  · exact .nil
  split
  · exact .nil
  split
  · exact connDelCalls_quiet _ _
  · exact .nil

theorem forwardOnUpstreamReadCalls_quiet (u : Fd) (r : ReadChoice) (w : World) :
    Quiet (forwardOnUpstreamReadCalls u r w) := by
  unfold forwardOnUpstreamReadCalls
  split
  · exact .nil
  split
  · exact .nil
  split
  · exact .nil
  · exact connDelCalls_quiet _ _

theorem myOnAcceptCalls_quiet (io : AcceptIo) (w : World) : Quiet (myOnAcceptCalls io w) := by
  unfold myOnAcceptCalls
  split
  · exact .nil
  split
  · exact .nil
  apply Quiet.cons rfl
  unfold setUpClientCalls
  split
  · exact connDelCalls_quiet _ _
  split
  · exact .nil
  unfold attachCalls
  apply Quiet.append
  · cases io.listener with
    | http => exact .cons rfl .nil
    | socket => exact .nil
    | forward proto => exact .nil
  · split
    · exact connDelCalls_quiet _ _
    · exact .nil

theorem forwardLeftoverCalls_quiet (c : Fd) (i : Nat) (r : WriteResult) (w : World) :
    Quiet (forwardLeftoverCalls c i r w) := by
  unfold forwardLeftoverCalls
  dsimp only
  split
  · exact .nil
  split
  · exact .nil
  · exact proxyOnBodyDataCalls_quiet _ _ _ _

theorem foldCalls_quiet {α : Type} {f : World → α → World} {calls : World → α → List Call}
    (one : ∀ w x, Quiet (calls w x)) (w : World) (xs : List α) :
    Quiet (foldCalls f calls w xs) := by
  induction xs generalizing w with
  | nil => exact .nil
  | cons x xs ih => exact .append (one w x) (ih (f w x))

theorem serverTimeoutSweepCalls_quiet (exchanges : List Fd) (slots : List Nat) (w : World) :
    Quiet (serverTimeoutSweepCalls exchanges slots w) := by
  apply Quiet.append
  · apply foldCalls_quiet
    intro w c
    unfold proxyTimeoutCalls proxyCleanupCalls
    split
    · exact .nil
    split
    · split
      · exact .nil
      · exact endExchangeCalls_quiet c _ w
    · exact .nil
  · exact foldCalls_quiet (fun w fd => connDelCalls_quiet fd w) _ _

/-- The calls with which `http_dispatcher` begins, if its handler is `proxy_handler`. -/
def Opens (c : Fd) (route : Option Route) (cs : List Call) : Prop :=
  match route with
  | none => Quiet cs
  | some _ => ∃ rest, Quiet rest ∧ (cs = .proxyStore c :: rest ∨ cs = .proxyUnreachable c :: rest)

theorem Opens.append {c : Fd} {route : Option Route} {cs ds : List Call}
    (opens : Opens c route cs) (quiet : Quiet ds) : Opens c route (cs ++ ds) := by
  cases route with
  | none => exact Quiet.append opens quiet
  | some route =>
    obtain ⟨rest, quiet', stored | unreachable⟩ := opens
    · subst stored
      exact ⟨rest ++ ds, quiet'.append quiet, Or.inl rfl⟩
    · subst unreachable
      exact ⟨rest ++ ds, quiet'.append quiet, Or.inr rfl⟩

theorem bestHandlerCalls_opens (i : Nat) (io : DispatchIo) (w : World) :
    Opens (w.clients i).fd io.route (bestHandlerCalls i io w) := by
  unfold bestHandlerCalls
  cases io.route with
  | none => exact contentHandlerCalls_quiet i io.reply w
  | some route =>
    dsimp only
    obtain ⟨clients, _⟩ := LoopSteps.reusePooled_same route io.peerClosed w
    unfold proxyHandlerCalls
    generalize reusePooled route io.peerClosed w = taken at *
    obtain ⟨pooled, w₁⟩ := taken
    dsimp only at clients
    rw [← clients]
    cases pooled with
    | some u => exact ⟨[], .nil, Or.inl rfl⟩
    | none =>
      dsimp only
      split
      · exact ⟨[], .nil, Or.inr rfl⟩
      · exact ⟨[], .nil, Or.inl rfl⟩

theorem httpDispatcherCalls_opens (i : Nat) (io : DispatchIo) (w : World) :
    Opens (w.clients i).fd io.route (httpDispatcherCalls i io w) :=
  (bestHandlerCalls_opens i io (noteDispatch i w)).append (persistOrCloseCalls_quiet i _ _)

theorem onHttpDataCalls_opens {i : Nat} {data : Bytes} (c : Fd) (io : DispatchIo)
    (complete : 0 < (httpParserFeed .default (w.clients i).parser data).2) :
    Opens (w.clients i).fd io.route (onHttpDataCalls c i data io w) := by
  unfold onHttpDataCalls
  generalize httpParserFeed .default (w.clients i).parser data = feed at *
  obtain ⟨parser, res⟩ := feed
  dsimp only at *
  have fd : ((storeParser i parser data.length w).clients i).fd = (w.clients i).fd := by
    simp [storeParser, setClient]
  rw [if_neg (by omega), if_neg (by omega), ← fd]
  have opens := httpDispatcherCalls_opens i io (storeParser i parser data.length w)
  split
  · exact opens.append (forwardLeftoverCalls_quiet c i io.bodyWrite _)
  · exact opens

theorem onHttpDataCalls_quiet {i : Nat} {data : Bytes} (c : Fd) (io : DispatchIo)
    (incomplete : ¬ 0 < (httpParserFeed .default (w.clients i).parser data).2) :
    Quiet (onHttpDataCalls c i data io w) := by
  unfold onHttpDataCalls
  generalize httpParserFeed .default (w.clients i).parser data = feed at *
  obtain ⟨parser, res⟩ := feed
  dsimp only at *
  split
  · exact connDelCalls_quiet c _
  split
  · exact .nil
  · omega

theorem stepCalls_quiet {e : EventLoop.Event} (idle : dispatches w e = none) :
    Quiet (stepCalls w e) := by
  cases e with
  | accept io => exact myOnAcceptCalls_quiet io w
  | clientReadable c r io =>
    rw [stepCalls, myOnReadCalls]
    split
    · exact .nil
    rename_i i index
    split
    · exact .nil
    · rename_i b rest
      rw [dispatches, index] at idle
      unfold onDataCalls
      dsimp only at *
      split
      · exact .nil
      rename_i forwarding
      split
      · exact .nil
      rename_i http
      split
      · exact proxyOnBodyDataCalls_quiet _ _ _ _
      rename_i streaming
      apply onHttpDataCalls_quiet
      intro complete
      simp [forwarding, http, streaming, complete] at idle
    · exact connDelCalls_quiet c _
  | clientWritable c cw r =>
    rw [stepCalls, myOnWriteCalls]
    split
    · exact .nil
    split
    · exact .nil
    split
    · exact proxyOnClientWritableCalls_quiet c cw w
    · exact resumeSendCalls_quiet c r w
  | upstreamWritable u soerr r =>
    rw [stepCalls]
    split
    · apply Quiet.append
      · exact forwardOnUpstreamWriteCalls_quiet u soerr r w
      · exact proxyOnUpstreamWriteCalls_quiet u soerr r _
    · exact .nil
  | upstreamReadable u r cw =>
    rw [stepCalls]
    split
    · apply Quiet.append
      · exact forwardOnUpstreamReadCalls_quiet u r w
      · exact proxyOnUpstreamReadCalls_quiet u r cw _
    · exact .nil
  | timer now exchanges slots => exact serverTimeoutSweepCalls_quiet exchanges slots _
  | arrive u data => exact .nil

theorem dispatches_redirect (f : DispatchIo → DispatchIo) (e : EventLoop.Event) :
    dispatches w (redirect f e) = dispatches w e := by
  cases e with
  | clientReadable c r io =>
    cases r with
    | data buf => cases buf <;> rfl
    | again => rfl
    | eof => rfl
    | failed => rfl
  | _ => rfl

/-- The read that completes a request. -/
structure Completes (w : World) (i : Nat) (c : Fd) (data : Bytes) : Prop where
  index : w.fdToIndex c = some i
  forwarding : (w.clients i).forwardActive = false
  http : (w.clients i).isHttp = true
  streaming : (w.clients i).proxyStreaming = false
  complete : 0 < (httpParserFeed .default (w.clients i).parser data).2

theorem dispatches_some {e : EventLoop.Event} {i : Nat} (calls : dispatches w e = some i) :
    ∃ c b rest io, e = .clientReadable c (.data (b :: rest)) io ∧
      Completes w i c (b :: rest) := by
  unfold dispatches at calls
  split at calls
  · rename_i c b rest io
    split at calls
    · cases calls
    rename_i j index
    dsimp only at calls
    split at calls
    · cases calls
    rename_i parses
    split at calls
    · rename_i complete
      cases calls
      simp only [Bool.or_eq_true, Bool.not_eq_true', not_or, Bool.not_eq_true,
        Bool.not_eq_false] at parses
      obtain ⟨⟨forwarding, http⟩, streaming⟩ := parses
      exact ⟨c, b, rest, io, rfl, index, forwarding, http, streaming, complete⟩
    · cases calls
  · cases calls

theorem redirect_opens {e : EventLoop.Event} {i : Nat} {f : DispatchIo → DispatchIo}
    {route : Option Route} (chosen : ∀ io, (f io).route = route)
    (calls : dispatches w e = some i) :
    Opens (w.clients i).fd route (stepCalls w (redirect f e)) := by
  obtain ⟨c, b, rest, io, rfl, read⟩ := dispatches_some calls
  have calls : stepCalls w (redirect f (.clientReadable c (.data (b :: rest)) io)) =
      onHttpDataCalls c i (b :: rest) (f io) w := by
    simp [redirect, stepCalls, myOnReadCalls, read.index, onDataCalls, read.forwarding,
      read.http, read.streaming]
  rw [calls, ← chosen io]
  exact onHttpDataCalls_opens c (f io) read.complete

theorem redirect_quiet {f : DispatchIo → DispatchIo} (answers : ∀ io, (f io).route = none)
    (e : EventLoop.Event) : Quiet (stepCalls w (redirect f e)) := by
  cases calls : dispatches w e with
  | none => exact stepCalls_quiet ((dispatches_redirect f e).trans calls)
  | some i => exact redirect_opens answers calls

theorem Quiet.stores {cs : List Call} (quiet : Quiet cs) : cs.any stores = false := by
  apply List.any_eq_false.mpr
  intro call listed stored
  cases call with
  | proxyStore c => cases quiet _ listed
  | _ => cases stored

variable {t : PoolTables} {lost : List PoolRef} {claim : Option PoolRef}

/-- Every counter is the number of its entries and of its counts in `lost`. -/
structure Balanced (t : PoolTables) (lost : List PoolRef) : Prop where
  distinct : (t.entries.map (·.1)).Nodup
  named : ∀ e ∈ t.entries, ∀ ref, e.2 = some ref → Listed t.pools ref
  lostNamed : ∀ ref ∈ lost, Listed t.pools ref
  counted : ∀ ref, Listed t.pools ref → active t.pools ref = inFlight t ref + lost.count ref

theorem count_toList (claim : Option PoolRef) (ref : PoolRef) :
    claim.toList.count ref = (decide (claim = some ref)).toNat := by
  cases claim with
  | none => rfl
  | some own => by_cases same : own = ref <;> simp [same]

/-- The pool target of an entry. -/
theorem own_ref (own : Option (Option PoolRef)) (ref : PoolRef) :
    (own.any fun own => decide (own = some ref)) = decide (own.join = some ref) := by
  cases own with
  | none => rfl
  | some own => rfl

theorem Balanced.samePools {pools : UpstreamPools} (h : Balanced t lost)
    (listed : ∀ ref, Listed pools ref ↔ Listed t.pools ref)
    (same : ∀ ref, Listed t.pools ref → active pools ref = active t.pools ref) :
    Balanced { t with pools := pools } lost := by
  constructor
  · exact h.distinct
  · exact fun e inside ref own => (listed ref).mpr (h.named e inside ref own)
  · exact fun ref inside => (listed ref).mpr (h.lostNamed ref inside)
  · intro ref named
    have before := (listed ref).mp named
    exact (same ref before).trans (h.counted ref before)

theorem Balanced.markDown (h : Balanced t lost) (down : Option Int) (ref : Option PoolRef) :
    Balanced { t with pools := markDown down ref t.pools } lost := by
  cases down with
  | none => exact h
  | some now =>
    cases ref with
    | none => exact h
    | some ref =>
      apply h.samePools
      · exact fun own => listed_onTarget
      · exact fun own named => active_markDown now named

/-- `upstream_pool_inc_conn`: the count belongs to no entry yet. -/
theorem Balanced.inc {ref : PoolRef} (h : Balanced t lost) (named : Listed t.pools ref) :
    Balanced { t with pools := upstreamPoolIncConn ref t.pools } (ref :: lost) := by
  constructor
  · exact h.distinct
  · exact fun e inside own same => listed_onTarget.mpr (h.named e inside own same)
  · exact List.forall_mem_cons.mpr ⟨listed_onTarget.mpr named,
      fun own inside => listed_onTarget.mpr (h.lostNamed own inside)⟩
  · intro own listed
    have before : Listed t.pools own := listed_onTarget.mp listed
    rw [active_incConn before, h.counted own before, List.count_cons, Nat.add_assoc]
    simp [inFlight]

/-- `upstream_pool_dec_conn` for a count that belongs to no entry. -/
theorem Balanced.dec (h : Balanced t (claim.toList ++ lost)) :
    Balanced { t with pools := release claim t.pools } lost := by
  cases claim with
  | none => exact h
  | some ref =>
    constructor
    · exact h.distinct
    · exact fun e inside own same => listed_onTarget.mpr (h.named e inside own same)
    · exact fun own inside => listed_onTarget.mpr
        (h.lostNamed own (List.mem_append_right _ inside))
    · intro own listed
      have before : Listed t.pools own := listed_onTarget.mp listed
      have counted := h.counted own before
      rw [release, active_decConn before, counted, List.count_append, count_toList]
      by_cases same : ref = own
      · simp [same, inFlight]
        omega
      · simp [same, inFlight]

/-- `hmputs`: the count now belongs to the entry, and that of the entry before to none. -/
theorem Balanced.store (h : Balanced t (claim.toList ++ lost)) (c : Fd) :
    Balanced { t with entries := StringMap.put c claim t.entries }
      ((StringMap.get c t.entries).join.toList ++ lost) := by
  constructor
  · exact StringMap.put_keys h.distinct
  · apply StringMap.put_forall h.named
    rintro ref rfl
    exact h.lostNamed ref List.mem_cons_self
  · intro ref inside
    rcases List.mem_append.mp inside with old | lost
    · rw [Option.mem_toList, Option.join_eq_some_iff] at old
      exact h.named _ (StringMap.mem_of_get old) ref rfl
    · exact h.lostNamed ref (List.mem_append_right _ lost)
  · intro ref listed
    have counted := h.counted ref listed
    have moved := StringMap.countP_put (fun own => decide (own = some ref)) c claim t.entries
    rw [own_ref] at moved
    rw [List.count_append, count_toList] at counted ⊢
    unfold inFlight at *
    dsimp only at *
    omega

/-- `hmdel` -/
theorem Balanced.erase (h : Balanced t lost) (c : Fd) :
    Balanced { t with entries := StringMap.erase c t.entries }
      ((StringMap.get c t.entries).join.toList ++ lost) := by
  constructor
  · exact h.distinct.sublist (List.filter_sublist.map _)
  · exact fun e inside ref own => h.named e (List.mem_filter.mp inside).1 ref own
  · intro ref inside
    rcases List.mem_append.mp inside with old | lost
    · rw [Option.mem_toList, Option.join_eq_some_iff] at old
      exact h.named _ (StringMap.mem_of_get old) ref rfl
    · exact h.lostNamed ref lost
  · intro ref listed
    have counted := h.counted ref listed
    have moved := StringMap.countP_erase h.distinct (fun own => decide (own = some ref)) (k := c)
    rw [own_ref] at moved
    rw [List.count_append, count_toList]
    unfold inFlight at *
    dsimp only at *
    omega

theorem Balanced.cleanup (h : Balanced t lost) (down : Option Int) (c : Fd) :
    Balanced (account claim down t (.proxyCleanup c)) lost :=
  ((h.markDown down (StringMap.get c t.entries).join).erase c).dec

theorem Balanced.quiet (h : Balanced t lost) (down : Option Int) {cs : List Call}
    (quiet : Quiet cs) : Balanced (cs.foldl (account claim down) t) lost := by
  induction cs generalizing t with
  | nil => exact h
  | cons call cs ih =>
    obtain ⟨first, rest⟩ := List.forall_mem_cons.mp quiet
    rw [List.foldl_cons]
    refine ih ?_ rest
    cases call with
    | proxyStore c => cases first
    | proxyUnreachable c => cases first
    | proxyCleanup c => exact h.cleanup down c
    | connAdd i => exact h
    | parserInit i => exact h
    | parserReset i => exact h
    | connDel i cd => exact h

/-- The counts that the step loses: of a URL that is refused, and of an entry that is
overwritten. -/
def lostIn (s : State) (e : Event) : List PoolRef :=
  match selection s e, dispatches s.world e.loop with
  | some (.rejected ref, _), _ => ref.toList
  | some (.selected _ route, _), some i =>
    if (stepCalls s.world (redirect (proxied route) e.loop)).any stores
    then (ownRef s i).toList else []
  | _, _ => []

theorem toList_eq_nil {ref : Option PoolRef} : ref.toList = [] ↔ ref = none := by
  cases ref with
  | none => simp
  | some ref => simp

theorem selection_dispatches {s : State} {e : Event} {selected : Selection × UpstreamPools}
    (chosen : selection s e = some selected) : ∃ i, dispatches s.world e.loop = some i := by
  unfold selection at chosen
  split at chosen
  · rename_i i _ calls _
    exact ⟨i, calls⟩
  · cases chosen

theorem sound_iff (s : State) (e : Event) : Sound s e ↔ lostIn s e = [] := by
  unfold Sound lostIn
  cases chosen : selection s e with
  | none => exact ⟨fun _ => rfl, fun _ => trivial⟩
  | some selected =>
    obtain ⟨sel, pools⟩ := selected
    obtain ⟨i, here⟩ := selection_dispatches chosen
    rw [here]
    cases sel with
    | rejected ref => exact toList_eq_nil.symm
    | unresolved ref => exact ⟨fun _ => rfl, fun _ => trivial⟩
    | selected ref route =>
      dsimp only
      split
      · rename_i stored
        rw [toList_eq_nil]
        exact ⟨fun sound => sound i rfl stored, fun free j same _ => Option.some.inj same ▸ free⟩
      · rename_i unstored
        exact ⟨fun _ => rfl, fun _ _ _ stored => absurd stored unstored⟩

instance (s : State) (e : Event) : Decidable (Sound s e) :=
  decidable_of_iff (lostIn s e = []) (sound_iff s e).symm

/-- The target that is selected is counted. -/
theorem Balanced.selection {s : State} (h : Balanced s.tables lost) {e : Event} {sel : Selection}
    {pools : UpstreamPools} (chosen : selection s e = some (sel, pools)) :
    Balanced { s.tables with pools := pools } (sel.ref.toList ++ lost) := by
  unfold PoolCounters.selection at chosen
  split at chosen
  · rename_i i loc _ _
    unfold selectUpstream at chosen
    split at chosen
    · have same := upstreamPoolResolve_same (loc.realPath.drop 11) (s.world.clients i).info.addr
        (s.world.clients i).fd s.world.now e.rand s.tables.pools
      have named (url : Bytes) (found : (upstreamPoolResolve (loc.realPath.drop 11)
          (s.world.clients i).info.addr (s.world.clients i).fd s.world.now e.rand
          s.tables.pools).1 = some url) : Listed s.tables.pools ⟨loc.realPath.drop 11, url⟩ :=
        upstreamPoolResolve_listed found
      dsimp only at chosen
      generalize upstreamPoolResolve (loc.realPath.drop 11) (s.world.clients i).info.addr
        (s.world.clients i).fd s.world.now e.rand s.tables.pools = resolved at *
      obtain ⟨url, pools'⟩ := resolved
      have resolved : Balanced { s.tables with pools := pools' } lost := by
        apply h.samePools
        · intro ref
          rw [Listed, same, Listed]
        · intro ref _
          rw [active, same, active]
      cases url with
      | none =>
        cases chosen
        exact resolved
      | some url =>
        cases chosen
        rw [validate_ref]
        apply resolved.inc
        rw [Listed, same]
        exact named url rfl
    · cases chosen
      rw [validate_ref]
      exact h
  · cases chosen

/-- What a step does to the counters. -/
theorem Balanced.step {s : State} (h : Balanced s.tables lost) (e : Event) :
    Balanced (step s e).tables (lostIn s e ++ lost) := by
  unfold PoolCounters.step serve lostIn
  cases chosen : PoolCounters.selection s e with
  | none => exact h.quiet _ (redirect_quiet (fun _ => rfl) e.loop)
  | some selected =>
    obtain ⟨sel, pools⟩ := selected
    have counted := h.selection chosen
    obtain ⟨i, calls⟩ := selection_dispatches chosen
    rw [calls]
    cases sel with
    | rejected ref => exact counted.quiet _ (redirect_quiet (fun _ => rfl) e.loop)
    | unresolved ref => exact counted.dec.quiet _ (redirect_quiet (fun _ => rfl) e.loop)
    | selected ref route =>
      obtain ⟨rest, quiet, opens⟩ :=
        redirect_opens (f := proxied route) (fun _ => rfl) calls
      dsimp only
      rcases opens with stored | unreachable
      · rw [stored, List.any_cons, List.foldl_cons]
        exact (counted.store (s.world.clients i).fd).quiet _ quiet
      · rw [unreachable, List.any_cons, quiet.stores, List.foldl_cons]
        exact counted.dec.quiet _ quiet

/-- The keys of `entries` are those of `proxy_states`. -/
def Keyed (w : World) (t : PoolTables) : Prop :=
  ∀ c, (StringMap.get c t.entries).isSome = (w.proxyStates c).isSome

theorem Keyed.piece {w' : World} (h : Keyed w t) {down : Option Int} {cs : List Call}
    (piece : Piece True w cs w') : Keyed w' (cs.foldl (account claim down) t) := by
  cases piece with
  | other w' clients index keys => exact fun c => (h c).trans (keys c).symm
  | slot i cd fd kept => exact h
  | add fd i nonzero free => exact h
  | init i cd live fd => exact h
  | reset i kept => exact h
  | delete c i nonzero index =>
    intro d
    rw [LoopSteps.connDel_proxyStates]
    exact h d
  | store c x w' clients index states =>
    intro d
    rw [states, update_apply]
    change (StringMap.get d (StringMap.put c claim t.entries)).isSome = _
    rw [StringMap.get_put]
    by_cases same : c = d
    · simp [same]
    · rw [if_neg same, if_neg (Ne.symm same)]
      exact h d
  | unreachable c => exact h
  | cleanup c w' clients index states =>
    intro d
    rw [states, update_apply]
    change (StringMap.get d (StringMap.erase c t.entries)).isSome = _
    rw [StringMap.get_erase]
    by_cases same : c = d
    · simp [same]
    · rw [if_neg same, if_neg (Ne.symm same)]
      exact h d

theorem Keyed.does {w' : World} (h : Keyed w t) {down : Option Int} {cs : List Call}
    (does : Does True w cs w') : Keyed w' (cs.foldl (account claim down) t) := by
  induction does generalizing t with
  | refl => exact h
  | head piece _ ih =>
    rw [List.foldl_append]
    exact ih (h.piece piece)

theorem release_single {pools : UpstreamPools} (single : SingleTargets pools)
    (ref : Option PoolRef) : SingleTargets (release ref pools) := by
  cases ref with
  | none => exact single
  | some ref => exact single.onTarget _

theorem account_single (single : SingleTargets t.pools) {down : Option Int} (cs : List Call) :
    SingleTargets (cs.foldl (account claim down) t).pools := by
  induction cs generalizing t with
  | nil => exact single
  | cons call cs ih =>
    rw [List.foldl_cons]
    apply ih
    cases call with
    | proxyUnreachable c => exact release_single single claim
    | proxyCleanup c =>
      apply release_single
      unfold markDown
      split
      · exact single.onTarget _
      · exact single
    | _ => exact single

/-- What holds after every run. -/
structure Tracked (s : State) : Prop where
  indexed : Indexed s.world
  keyed : Keyed s.world s.tables
  single : SingleTargets s.tables.pools

theorem Tracked.init {groups : List UpstreamGroup} (distinct : Distinct groups) :
    Tracked (.init groups) where
  indexed := Indexed.init
  keyed := fun _ => rfl
  single := registered_single distinct

theorem serve_single {s : State} (single : SingleTargets s.tables.pools) (e : Event) :
    SingleTargets (serve s e).2.2 := by
  unfold serve
  cases chosen : selection s e with
  | none => exact single
  | some selected =>
    obtain ⟨sel, pools⟩ := selected
    have kept : SingleTargets pools := by
      unfold selection at chosen
      split at chosen
      · rename_i i loc _ _
        have kept := single.selectUpstream loc (s.world.clients i) s.world.now e.rand
        rw [Option.some.inj chosen] at kept
        exact kept
      · cases chosen
    cases sel with
    | rejected ref => exact kept
    | unresolved ref => exact release_single kept ref
    | selected ref route => exact kept

theorem Tracked.step (s : State) (e : Event) (h : Tracked s) : Tracked (step s e) where
  indexed := h.indexed.step _
  keyed := Keyed.does (t := ⟨(serve s e).2.2, s.tables.entries⟩) h.keyed
    (step_does h.indexed fun _ => trivial)
  single := account_single (serve_single h.single e) _

theorem Balanced.init (groups : List UpstreamGroup) :
    Balanced (State.init groups).tables [] where
  distinct := List.nodup_nil
  named := fun _ listed => nomatch listed
  lostNamed := fun _ listed => nomatch listed
  counted := fun ref _ => registered_active groups ref

/-- The counts that a run loses. -/
theorem Balanced.run {s : State} (h : Balanced s.tables lost) (es : List Event) :
    ∃ lost', Balanced (run PoolCounters.step s es).tables lost' ∧
      (lost' = [] ↔ lost = [] ∧ Guarded PoolCounters.step Sound s es) := by
  induction es generalizing s lost with
  | nil => exact ⟨lost, h, ⟨fun none => ⟨none, trivial⟩, And.left⟩⟩
  | cons e es ih =>
    obtain ⟨lost', balanced, none⟩ := ih (h.step e)
    refine ⟨lost', balanced, none.trans ?_⟩
    rw [List.append_eq_nil_iff, ← sound_iff, Guarded]
    constructor
    · rintro ⟨⟨sound, none⟩, rest⟩
      exact ⟨none, sound, rest⟩
    · rintro ⟨none, sound, rest⟩
      exact ⟨⟨sound, none⟩, rest⟩

/-- With no count lost the counters are exact, and only then. -/
theorem Balanced.exact_iff {s : State} (h : Balanced s.tables lost) (tracked : Tracked s) :
    Exact s ↔ lost = [] := by
  constructor
  · intro exact
    apply List.eq_nil_iff_forall_not_mem.mpr
    intro ref inside
    have named := h.lostNamed ref inside
    have counted := h.counted ref named
    obtain ⟨t, found⟩ := Option.isSome_iff_exists.mp named
    obtain ⟨pool, inPool, here⟩ := Option.bind_eq_some_iff.mp found
    have same : t.activeConnections = inFlight s.tables ref :=
      exact.counters ref.poolName pool inPool ref.targetUrl t (StringMap.mem_of_get here)
    rw [active, found] at counted
    dsimp only at counted
    have positive := List.count_pos_iff.mpr inside
    omega
  · rintro rfl
    refine ⟨tracked.keyed, fun name pool inPool url t listed => ?_⟩
    have distinct := tracked.single _ (StringMap.mem_of_get inPool)
    have found : findTarget s.tables.pools ⟨name, url⟩ = some t := by
      rw [findTarget, inPool]
      exact StringMap.get_of_mem distinct listed
    have counted := h.counted ⟨name, url⟩ (by rw [Listed, found]; rfl)
    rwa [active, found] at counted

/-- After a run the counters are exact if and only if `proxy_handler` has neither refused the
URL that a pool has chosen nor stored its state over one with a pool target. -/
theorem counters_exact_iff (groups : List UpstreamGroup) (distinct : Distinct groups)
    (es : List Event) :
    Exact (run step (.init groups) es) ↔ Guarded step Sound (.init groups) es := by
  obtain ⟨lost, balanced, none⟩ := (Balanced.init groups).run es
  have tracked : Tracked (run step (.init groups) es) :=
    run_always Tracked.step (Tracked.init distinct) es
  rw [balanced.exact_iff tracked, none]
  exact and_iff_right rfl

def apiPool (url : Bytes) : List UpstreamGroup := [⟨ascii "api", [url], none, 0, 0⟩]

/-- A client whose only request goes to the location `upstream://api`. -/
def apiRequest : List Event :=
  [⟨.accept (httpClient 5), none, 0⟩,
    ⟨.clientReadable 5 (.data (ascii "GET / HTTP/1.1\r\n\r\n"))
      ⟨none, .written, false, some 6, .again⟩, some ⟨ascii "upstream://api", none⟩, 0⟩]

theorem counters_exact_sample :
    let s := run step (.init (apiPool (ascii "http://10.0.0.1:8001"))) apiRequest
    inFlight s.tables ⟨ascii "api", ascii "http://10.0.0.1:8001"⟩ = 1 ∧ Exact s := by
  constructor
  · decide +kernel
  · apply (counters_exact_iff _ (by decide) _).mpr
    decide +kernel

/-- `https://` is registered like `http://`, but refused by `proxy_handler`. -/
theorem refused_target_counted : ¬ ∀ groups es, Exact (run step (.init groups) es) := by
  intro exact
  obtain ⟨lost, balanced, none⟩ :=
    (Balanced.init (apiPool (ascii "https://10.0.0.1:8001"))).run apiRequest
  have distinct : Distinct (apiPool (ascii "https://10.0.0.1:8001")) := by decide
  have tracked := run_always Tracked.step (Tracked.init distinct) apiRequest
  have guarded := (none.mp ((balanced.exact_iff tracked).mp (exact _ _))).2
  revert guarded
  decide +kernel

end PoolCounters
