import NanoProxy.EventLoop
import Mathlib.Logic.Relation

/-!
# What a step of the event loop can do

The tables of the loop hold descriptor numbers. `Tables` says that a number which they hold
is open for the purpose that the table has for it. Whatever a handler does is a sequence of
a few changes (`Change`), and every one of them keeps the tables right.
-/

namespace DescriptorTables

open CLib HttpRequestParser OutboundRequest ProxyExchange KeepalivePool ForwardRelay EventLoop
open Function

/-- The invariant of the tables. A forward set-up that failed leaves a closed descriptor in
`fd_to_index`. -/
structure Tables (w : World) : Prop where
  client : ∀ c i, w.fdToIndex c = some i → c ≠ 0 ∧ (w.clients i).fd = c ∧
    ((∃ s, w.sockets c = some s ∧ s.role = .client ∧ s.conn = (w.clients i).conn) ∨
      (w.sockets c = none ∧ (w.clients i).isHttp = false))
  upstream : ∀ u c, w.upstreamFdToClient u = some c →
    ∃ s, w.sockets u = some s ∧ s.role = .upstream c
  proxied : ∀ c x, w.proxyStates c = some x → w.upstreamFdToClient x.ps.upstreamFd = some c
  forward : ∀ u d, w.forwardUpstreamMap u = some d →
    ∃ s, w.sockets u = some s ∧ s.role = .forward d
  forwarded : ∀ d fs, w.forwardStates d = some fs → w.forwardUpstreamMap fs.upstreamFd = some d
  idle : ∀ u ∈ pooledFds w.keepalivePools, ∃ s, w.sockets u = some s ∧ s.role = .idle
  once : (pooledFds w.keepalivePools).Nodup

/-- No table holds `u` as an open descriptor. -/
structure Unused (w : World) (u : Fd) : Prop where
  client : w.fdToIndex u = none
  upstream : w.upstreamFdToClient u = none
  forward : w.forwardUpstreamMap u = none
  idle : u ∉ pooledFds w.keepalivePools

/-- A closed descriptor whose number is left in `fd_to_index`. -/
def Stale (w : World) (fd : Fd) : Prop := w.sockets fd = none ∧ (w.fdToIndex fd).isSome

/-- The tables hold `fd` as the number of a client. -/
def Held (w : World) (fd : Fd) : Prop :=
  (w.fdToIndex fd).isSome ∨ ∃ u, w.upstreamFdToClient u = some fd

/-- The tables of a new exchange. -/
def openExchange (c u : Fd) (x : Exchange) (s : Socket) (w : World) : World :=
  { openFd u s w with
    proxyStates := update w.proxyStates c (some x)
    upstreamFdToClient := update w.upstreamFdToClient u (some c)
    sources := update w.sources c [] }

/-- `n` of the bytes that wait on a connection are read. -/
def drain (u : Fd) (s : Socket) (n : Nat) (w : World) : World :=
  openFd u { s with inbox := s.inbox.drop n } w

/-- An exchange as `proxy_handler` starts it. -/
def Started (x : Exchange) : Prop :=
  ∃ p route cd u reused now, x = proxyStart p route cd u reused now

/-- What is asked of the changes: `new` of the descriptors of new clients, `refuse` where a
forward set-up fails, `keep` of the exchanges in the tables, and `done` of those that end, both
with the bytes that wait on their upstream connection. -/
structure Rules where
  new : World → Fd → Prop
  refuse : Prop
  keep : Exchange → Bytes → Prop
  done : Exchange → Bytes → Prop

inductive Change (r : Rules) (w : World) : World → Prop
  | accept (fd : Fd) (i : Nat) (nonzero : fd ≠ 0) (closed : w.sockets fd = none)
      (free : (w.clients i).fd = 0) (ok : r.new w fd) :
      Change r w (register fd i (accept fd w))
  | reject (fd : Fd) (closed : w.sockets fd = none) :
      Change r w (closeFd fd (accept fd w))
  | slot (i : Nat) (cd : ClientData) (fd : cd.fd = (w.clients i).fd)
      (conn : cd.conn = (w.clients i).conn)
      (http : cd.isHttp = (w.clients i).isHttp ∨
        (cd.isHttp = true ∧ ∃ s, w.sockets cd.fd = some s)) :
      Change r w (setClient i cd w)
  | count (counts : Bytes → Nat) : Change r w { w with ipConnCounts := counts }
  | log (ds : List (Nat × Nat)) : Change r w { w with dispatched := ds }
  | drop (c : Fd) : Change r w (connDel c w)
  | refuse (c : Fd) (i : Nat) (index : w.fdToIndex c = some i)
      (plain : (w.clients i).isHttp = false) (ok : r.refuse) : Change r w (closeFd c w)
  | shut (u : Fd) (unused : Unused w u) : Change r w (closeFd u w)
  | start (c u : Fd) (i : Nat) (x : Exchange) (s : Socket) (index : w.fdToIndex c = some i)
      (http : (w.clients i).isHttp = true) (unused : Unused w u) (fresh : Started x)
      (upstream : x.ps.upstreamFd = u) (role : s.role = .upstream c)
      (conn : s.conn = (w.clients i).conn) (inbox : s.inbox = inboxAt w u)
      (idle : ∀ t, w.sockets u = some t → t.role = .idle) : Change r w (openExchange c u x s w)
  | advance (c : Fd) (x y : Exchange) (entry : w.proxyStates c = some x)
      (same : y.ps.upstreamFd = x.ps.upstreamFd)
      (ok : r.keep x (inboxAt w x.ps.upstreamFd) → r.keep y (inboxAt w x.ps.upstreamFd)) :
      Change r w { w with proxyStates := update w.proxyStates c (some y) }
  | finish (c : Fd) (x y : Exchange) (entry : w.proxyStates c = some x)
      (same : y.ps.upstreamFd = x.ps.upstreamFd)
      (ok : r.keep x (inboxAt w x.ps.upstreamFd) → r.done y (inboxAt w x.ps.upstreamFd)) :
      Change r w (releaseUpstream y (forgetExchange c y w))
  | deliver (c : Fd) (i : Nat) (x : Exchange) (entry : w.proxyStates c = some x)
      (index : w.fdToIndex c = some i) : Change r w { w with
        delivered := w.delivered ++ (w.sources c).map fun o => (o, connAt w c) }
  | drain (u : Fd) (s : Socket) (n : Nat) (opened : w.sockets u = some s)
      (unproxied : w.upstreamFdToClient u = none) : Change r w (drain u s n w)
  | read (c u : Fd) (x y : Exchange) (s : Socket) (n : Nat) (opened : w.sockets u = some s)
      (entry : w.proxyStates c = some x) (mapped : w.upstreamFdToClient u = some c)
      (same : y.ps.upstreamFd = x.ps.upstreamFd)
      (ok : r.keep x (inboxAt w x.ps.upstreamFd) →
        r.keep y (inboxAt (drain u s n w) x.ps.upstreamFd)) :
      Change r w { drain u s n w with proxyStates := update w.proxyStates c (some y) }
  | readLast (c u : Fd) (x y : Exchange) (s : Socket) (n : Nat) (opened : w.sockets u = some s)
      (entry : w.proxyStates c = some x) (mapped : w.upstreamFdToClient u = some c)
      (same : y.ps.upstreamFd = x.ps.upstreamFd)
      (ok : r.keep x (inboxAt w x.ps.upstreamFd) →
        r.done y (inboxAt (drain u s n w) x.ps.upstreamFd)) :
      Change r w (releaseUpstream y (forgetExchange c y (drain u s n w)))
  | source (c u : Fd) (entry : w.upstreamFdToClient u = some c) :
      Change r w { w with sources := update w.sources c (connAt w u :: w.sources c) }
  | unpool (closed : List Fd) (pools : Pools)
      (perm : (pooledFds w.keepalivePools).Perm (closed ++ pooledFds pools)) :
      Change r w { w with keepalivePools := pools }
  | reuse (u : Fd) (pools : Pools)
      (perm : (pooledFds w.keepalivePools).Perm (u :: pooledFds pools)) :
      Change r w
        { w with keepalivePools := pools, reused := w.reused ++ [inboxAt w u] }
  | forwardOpen (c u : Fd) (fs : ForwardState) (s : Socket) (unused : Unused w u)
      (upstream : fs.upstreamFd = u) (role : s.role = .forward c) :
      Change r w { openFd u s w with
        forwardStates := update w.forwardStates c (some fs)
        forwardUpstreamMap := update w.forwardUpstreamMap u (some c) }
  | forwardKeep (d : Fd) (fs fs' : ForwardState) (entry : w.forwardStates d = some fs)
      (same : fs'.upstreamFd = fs.upstreamFd) :
      Change r w { w with forwardStates := update w.forwardStates d (some fs') }
  | forwardClose (d : Fd) (fs : ForwardState) (entry : w.forwardStates d = some fs) :
      Change r w { closeFd fs.upstreamFd w with
        forwardUpstreamMap := update w.forwardUpstreamMap fs.upstreamFd none
        forwardStates := update w.forwardStates d none }
  | tick (now : Int) : Change r w { w with now := now }

abbrev Changes (r : Rules) : World → World → Prop := Relation.ReflTransGen (Change r)

variable {r : Rules} {w w' : World}

theorem Tables.init : Tables World.init where
  client := fun _ _ h => nomatch h
  upstream := fun _ _ h => nomatch h
  proxied := fun _ _ h => nomatch h
  forward := fun _ _ h => nomatch h
  forwarded := fun _ _ h => nomatch h
  idle := fun _ h => absurd h List.not_mem_nil
  once := List.nodup_nil

/-- A closed descriptor that no table holds. -/
theorem Tables.fresh (h : Tables w) {u : Fd} (closed : w.sockets u = none)
    (current : ¬ Stale w u) : Unused w u where
  client := by
    rw [Stale, not_and, Option.not_isSome_iff_eq_none] at current
    exact current closed
  upstream := by
    rw [Option.eq_none_iff_forall_ne_some]
    intro c entry
    obtain ⟨s, opened, _⟩ := h.upstream u c entry
    rw [closed] at opened
    cases opened
  forward := by
    rw [Option.eq_none_iff_forall_ne_some]
    intro d entry
    obtain ⟨s, opened, _⟩ := h.forward u d entry
    rw [closed] at opened
    cases opened
  idle := by
    intro pooled
    obtain ⟨s, opened, _⟩ := h.idle u pooled
    rw [closed] at opened
    cases opened

section Roles

variable {u : Fd} {s : Socket}

theorem Tables.no_client (h : Tables w) (opened : w.sockets u = some s)
    (role : s.role ≠ .client) : w.fdToIndex u = none := by
  rw [Option.eq_none_iff_forall_ne_some]
  intro i entry
  obtain ⟨_, _, ⟨s', opened', role', _⟩ | ⟨closed, _⟩⟩ := h.client u i entry
  · rw [opened, Option.some.injEq] at opened'
    exact role (opened' ▸ role')
  · rw [opened] at closed
    cases closed

theorem Tables.no_upstream (h : Tables w) (opened : w.sockets u = some s)
    (role : ∀ c, s.role ≠ .upstream c) : w.upstreamFdToClient u = none := by
  rw [Option.eq_none_iff_forall_ne_some]
  intro c entry
  obtain ⟨s', opened', role'⟩ := h.upstream u c entry
  rw [opened, Option.some.injEq] at opened'
  exact role c (opened' ▸ role')

theorem Tables.no_forward (h : Tables w) (opened : w.sockets u = some s)
    (role : ∀ d, s.role ≠ .forward d) : w.forwardUpstreamMap u = none := by
  rw [Option.eq_none_iff_forall_ne_some]
  intro d entry
  obtain ⟨s', opened', role'⟩ := h.forward u d entry
  rw [opened, Option.some.injEq] at opened'
  exact role d (opened' ▸ role')

theorem Tables.no_pool (h : Tables w) (opened : w.sockets u = some s) (role : s.role ≠ .idle) :
    u ∉ pooledFds w.keepalivePools := by
  intro pooled
  obtain ⟨s', opened', role'⟩ := h.idle u pooled
  rw [opened, Option.some.injEq] at opened'
  exact role (opened' ▸ role')

end Roles

theorem Tables.register (h : Tables w) {fd : Fd} {i : Nat} (nonzero : fd ≠ 0)
    (closed : w.sockets fd = none) (free : (w.clients i).fd = 0) :
    Tables (register fd i (accept fd w)) := by
  obtain ⟨client, upstream, proxied, forward, forwarded, idle, once⟩ := h
  have conn : connAt (accept fd w) fd = w.nextConn := by simp [connAt, accept, openFd]
  constructor
  all_goals simp only [EventLoop.register, conn]
  all_goals simp only [accept, openFd, setClient, update_apply]
  all_goals grind

/-- Without a slot the descriptor is closed again. -/
theorem reject_eq {fd : Fd} (closed : w.sockets fd = none) :
    closeFd fd (accept fd w) = { w with nextConn := w.nextConn + 1 } := by
  unfold closeFd accept openFd
  simp only [update_idem]
  rw [← closed, update_eq_self]

theorem Tables.slot (h : Tables w) {i : Nat} {cd : ClientData} (fd : cd.fd = (w.clients i).fd)
    (conn : cd.conn = (w.clients i).conn)
    (http : cd.isHttp = (w.clients i).isHttp ∨
      (cd.isHttp = true ∧ ∃ s, w.sockets cd.fd = some s)) : Tables (setClient i cd w) := by
  obtain ⟨client, upstream, proxied, forward, forwarded, idle, once⟩ := h
  constructor
  all_goals simp only [setClient, update_apply]
  all_goals grind

theorem Tables.drop (h : Tables w) (c : Fd) : Tables (connDel c w) := by
  obtain ⟨client, upstream, proxied, forward, forwarded, idle, once⟩ := h
  unfold connDel
  split
  · constructor <;> assumption
  split
  · constructor <;> assumption
  · constructor
    all_goals simp only [closeFd, setClient, update_apply]
    all_goals grind

theorem Tables.refuse (h : Tables w) {c : Fd} {i : Nat} (index : w.fdToIndex c = some i)
    (plain : (w.clients i).isHttp = false) : Tables (closeFd c w) := by
  obtain ⟨client, upstream, proxied, forward, forwarded, idle, once⟩ := h
  constructor
  all_goals simp only [closeFd, update_apply]
  all_goals grind

theorem Tables.shut (h : Tables w) {u : Fd} (unused : Unused w u) : Tables (closeFd u w) := by
  obtain ⟨client, upstream, proxied, forward, forwarded, idle, once⟩ := h
  obtain ⟨noClient, noUpstream, noForward, noIdle⟩ := unused
  constructor
  all_goals simp only [closeFd, update_apply]
  all_goals grind

theorem Tables.start (h : Tables w) {c u : Fd} {x : Exchange} {s : Socket}
    (unused : Unused w u) (upstreamFd : x.ps.upstreamFd = u) (role : s.role = .upstream c) :
    Tables (openExchange c u x s w) := by
  obtain ⟨client, upstream, proxied, forward, forwarded, idle, once⟩ := h
  obtain ⟨noClient, noUpstream, noForward, noIdle⟩ := unused
  constructor
  all_goals simp only [openExchange, openFd, update_apply]
  all_goals grind

/-- `proxy_cleanup` leaves the upstream descriptor in no table. -/
theorem Tables.forget (h : Tables w) {c : Fd} {x y : Exchange} (entry : w.proxyStates c = some x)
    (same : y.ps.upstreamFd = x.ps.upstreamFd) :
    Tables (forgetExchange c y w) ∧ Unused (forgetExchange c y w) y.ps.upstreamFd := by
  have mapped := h.proxied c x entry
  rw [← same] at mapped
  obtain ⟨s, opened, role⟩ := h.upstream _ _ mapped
  constructor
  · obtain ⟨client, upstream, proxied, forward, forwarded, idle, once⟩ := h
    constructor
    all_goals simp only [forgetExchange, update_apply]
    all_goals grind
  · exact {
      client := h.no_client opened (by simp [role])
      upstream := update_self ..
      forward := h.no_forward opened (by simp [role])
      idle := h.no_pool opened (by simp [role]) }

/-- An unused descriptor goes to the pool. -/
theorem Tables.pool (h : Tables w) {u : Fd} {s : Socket} {pools : Pools} {xs : List Exchange}
    (unused : Unused w u) (role : s.role = .idle)
    (perm : (pooledFds pools).Perm (u :: pooledFds w.keepalivePools)) :
    Tables (openFd u s { w with keepalivePools := pools, pooled := xs }) := by
  obtain ⟨client, upstream, proxied, forward, forwarded, idle, once⟩ := h
  obtain ⟨noClient, noUpstream, noForward, noIdle⟩ := unused
  have distinct : (pooledFds pools).Nodup := perm.nodup_iff.mpr (List.nodup_cons.mpr ⟨noIdle, once⟩)
  have pooled : ∀ v, v ∈ pooledFds pools ↔ v = u ∨ v ∈ pooledFds w.keepalivePools := fun v => by
    rw [perm.mem_iff, List.mem_cons]
  constructor
  all_goals simp only [openFd, update_apply]
  all_goals grind

/-- The pool is full, and the descriptor is closed. -/
theorem Tables.overflow (h : Tables w) {u : Fd} {s : Socket} {pools : Pools} {xs : List Exchange}
    (unused : Unused w u) (perm : (pooledFds pools).Perm (pooledFds w.keepalivePools)) :
    Tables (closeFd u (openFd u s { w with keepalivePools := pools, pooled := xs })) := by
  obtain ⟨client, upstream, proxied, forward, forwarded, idle, once⟩ := h
  obtain ⟨noClient, noUpstream, noForward, noIdle⟩ := unused
  have distinct : (pooledFds pools).Nodup := perm.nodup_iff.mpr once
  have pooled : ∀ v, v ∈ pooledFds pools ↔ v ∈ pooledFds w.keepalivePools := fun v => perm.mem_iff
  constructor
  all_goals simp only [closeFd, openFd, update_apply]
  all_goals grind

theorem Tables.unpool (h : Tables w) {closed : List Fd} {pools : Pools}
    (perm : (pooledFds w.keepalivePools).Perm (closed ++ pooledFds pools)) :
    Tables { w with keepalivePools := pools } where
  client := h.client
  upstream := h.upstream
  proxied := h.proxied
  forward := h.forward
  forwarded := h.forwarded
  idle := fun u pooled => h.idle u (perm.mem_iff.mpr (List.mem_append_right _ pooled))
  once := (List.nodup_append.mp (perm.nodup_iff.mp h.once)).2.1

/-- What leaves the pool is in no table any more. -/
theorem Tables.unpooled (h : Tables w) {closed : List Fd} {pools : Pools}
    (perm : (pooledFds w.keepalivePools).Perm (closed ++ pooledFds pools)) {u : Fd}
    (left : u ∈ closed) : Unused { w with keepalivePools := pools } u := by
  obtain ⟨s, opened, role⟩ := h.idle u (perm.mem_iff.mpr (List.mem_append_left _ left))
  have distinct := (List.nodup_append.mp (perm.nodup_iff.mp h.once)).2.2
  exact {
    client := h.no_client opened (by simp [role])
    upstream := h.no_upstream opened (by simp [role])
    forward := h.no_forward opened (by simp [role])
    idle := fun stays => distinct u left u stays rfl }

/-- The upstream connection of an exchange is closed, or pooled, or closed for want of room
in the pool. -/
theorem releaseUpstream_cases (x : Exchange) (w : World) :
    releaseUpstream x w = closeFd x.ps.upstreamFd w ∨
      (x.ps.respPoolable = true ∧ x.ps.isWebsocket = false ∧ ∃ pools,
        (releaseUpstream x w = openFd x.ps.upstreamFd
            ⟨0, .idle, inboxAt w x.ps.upstreamFd⟩
            { w with keepalivePools := pools, pooled := w.pooled ++ [x] } ∧
          (pooledFds pools).Perm (x.ps.upstreamFd :: pooledFds w.keepalivePools)) ∨
        (releaseUpstream x w = closeFd x.ps.upstreamFd (openFd x.ps.upstreamFd
            ⟨0, .idle, inboxAt w x.ps.upstreamFd⟩
            { w with keepalivePools := pools, pooled := w.pooled ++ [x] }) ∧
          (pooledFds pools).Perm (pooledFds w.keepalivePools))) := by
  unfold releaseUpstream
  dsimp only
  split
  · rename_i poolable
    rw [Bool.and_eq_true, Bool.not_eq_true'] at poolable
    refine Or.inr ⟨poolable.1, poolable.2, ?_⟩
    cases hput : keepalivePoolPut w.keepalivePools x.ps.upstreamHost x.ps.upstreamPort
      x.ps.upstreamFd x.ps.keepalivePoolSize x.ps.keepaliveIdleTimeout w.now with
    | mk closed pools =>
      refine ⟨pools, ?_⟩
      rcases put_pooled hput with ⟨rfl, perm⟩ | ⟨rfl, perm⟩
      · exact Or.inr ⟨rfl, perm⟩
      · exact Or.inl ⟨rfl, perm⟩
  · exact Or.inl rfl

theorem Tables.finish (h : Tables w) {c : Fd} {x y : Exchange}
    (entry : w.proxyStates c = some x) (same : y.ps.upstreamFd = x.ps.upstreamFd) :
    Tables (releaseUpstream y (forgetExchange c y w)) := by
  obtain ⟨tables, unused⟩ := h.forget entry same
  rcases releaseUpstream_cases y (forgetExchange c y w) with
    closed | ⟨_, _, pools, ⟨pooled, perm⟩ | ⟨overflown, perm⟩⟩
  · rw [closed]
    exact tables.shut unused
  · rw [pooled]
    exact tables.pool unused rfl perm
  · rw [overflown]
    exact tables.overflow unused perm

/-- A change of a socket that keeps its connection and its role. -/
theorem Tables.socket (h : Tables w) {u : Fd} {s s' : Socket} (opened : w.sockets u = some s)
    (conn : s'.conn = s.conn) (role : s'.role = s.role) : Tables (openFd u s' w) := by
  obtain ⟨client, upstream, proxied, forward, forwarded, idle, once⟩ := h
  constructor
  all_goals simp only [openFd, update_apply]
  all_goals grind

theorem Tables.drain (h : Tables w) {u : Fd} {s : Socket} (opened : w.sockets u = some s)
    (n : Nat) : Tables (drain u s n w) :=
  h.socket opened rfl rfl

theorem Tables.advance (h : Tables w) {c : Fd} {x y : Exchange}
    (entry : w.proxyStates c = some x) (same : y.ps.upstreamFd = x.ps.upstreamFd) :
    Tables { w with proxyStates := update w.proxyStates c (some y) } := by
  obtain ⟨client, upstream, proxied, forward, forwarded, idle, once⟩ := h
  have mapped := proxied c x entry
  constructor
  all_goals simp only [update_apply]
  all_goals grind

theorem Tables.forwardOpen (h : Tables w) {c u : Fd} {fs : ForwardState} {s : Socket}
    (unused : Unused w u) (upstreamFd : fs.upstreamFd = u) (role : s.role = .forward c) :
    Tables { openFd u s w with
      forwardStates := update w.forwardStates c (some fs)
      forwardUpstreamMap := update w.forwardUpstreamMap u (some c) } := by
  obtain ⟨client, upstream, proxied, forward, forwarded, idle, once⟩ := h
  obtain ⟨noClient, noUpstream, noForward, noIdle⟩ := unused
  constructor
  all_goals simp only [openFd, update_apply]
  all_goals grind

theorem Tables.forwardKeep (h : Tables w) {d : Fd} {fs fs' : ForwardState}
    (entry : w.forwardStates d = some fs) (same : fs'.upstreamFd = fs.upstreamFd) :
    Tables { w with forwardStates := update w.forwardStates d (some fs') } := by
  obtain ⟨client, upstream, proxied, forward, forwarded, idle, once⟩ := h
  have mapped := forwarded d fs entry
  constructor
  all_goals simp only [update_apply]
  all_goals grind

theorem Tables.forwardClose (h : Tables w) {d : Fd} {fs : ForwardState}
    (entry : w.forwardStates d = some fs) : Tables { closeFd fs.upstreamFd w with
      forwardUpstreamMap := update w.forwardUpstreamMap fs.upstreamFd none
      forwardStates := update w.forwardStates d none } := by
  obtain ⟨client, upstream, proxied, forward, forwarded, idle, once⟩ := h
  have mapped := forwarded d fs entry
  obtain ⟨s, opened, role⟩ := forward _ _ mapped
  constructor
  all_goals simp only [closeFd, update_apply]
  all_goals grind

theorem Tables.change (h : Tables w) (change : Change r w w') : Tables w' := by
  cases change with
  | accept fd i nonzero closed free ok => exact h.register nonzero closed free
  | reject fd closed =>
    rw [reject_eq closed]
    exact ⟨h.client, h.upstream, h.proxied, h.forward, h.forwarded, h.idle, h.once⟩
  | slot i cd fd conn http => exact h.slot fd conn http
  | count counts =>
    exact ⟨h.client, h.upstream, h.proxied, h.forward, h.forwarded, h.idle, h.once⟩
  | log ds => exact ⟨h.client, h.upstream, h.proxied, h.forward, h.forwarded, h.idle, h.once⟩
  | drop c => exact h.drop c
  | refuse c i index plain ok => exact h.refuse index plain
  | shut u unused => exact h.shut unused
  | start c u i x s index http unused fresh upstream role conn inbox idle =>
    exact h.start unused upstream role
  | advance c x y entry same ok => exact h.advance entry same
  | finish c x y entry same ok => exact h.finish entry same
  | deliver c i x entry index =>
    exact ⟨h.client, h.upstream, h.proxied, h.forward, h.forwarded, h.idle, h.once⟩
  | drain u s n opened unproxied => exact h.drain opened n
  | read c u x y s n opened entry mapped same ok => exact (h.drain opened n).advance entry same
  | readLast c u x y s n opened entry mapped same ok => exact (h.drain opened n).finish entry same
  | source c u entry =>
    exact ⟨h.client, h.upstream, h.proxied, h.forward, h.forwarded, h.idle, h.once⟩
  | unpool closed pools perm => exact h.unpool perm
  | reuse u pools perm =>
    have left := h.unpool (show List.Perm _ ([u] ++ _) from perm)
    exact ⟨left.client, left.upstream, left.proxied, left.forward, left.forwarded, left.idle,
      left.once⟩
  | forwardOpen c u fs s unused upstream role => exact h.forwardOpen unused upstream role
  | forwardKeep d fs fs' entry same => exact h.forwardKeep entry same
  | forwardClose d fs entry => exact h.forwardClose entry
  | tick now => exact ⟨h.client, h.upstream, h.proxied, h.forward, h.forwarded, h.idle, h.once⟩

theorem Tables.changes (h : Tables w) (changes : Changes r w w') : Tables w' := by
  induction changes with
  | refl => exact h
  | tail _ change ih => exact ih.change change

end DescriptorTables
