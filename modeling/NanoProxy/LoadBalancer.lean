import Mathlib.Data.FinEnum
import NanoProxy.EventLoop
import NanoProxy.ListenerRouting

/-!
# Upstream pools (include/request.h)

The pools behind `upstream://` locations, and what `proxy_handler` does before it looks for
an upstream connection. The targets of a pool stand under their `full_url`; `host` and
`port`, which nothing reads, and the data of the health checks are left out.
-/

namespace LoadBalancer

open CLib RequestCodec OutboundRequest ProxyExchange EventLoop ListenerRouting

def MAX_UPSTREAM_TARGETS : Nat := 16
def DEFAULT_RETRY_TIMEOUT : Int := 30
def DEFAULT_PROXY_TIMEOUT : Int := 5
def INT_MAX : Nat := 2147483647

inductive Balance where
  | roundRobin
  | random
  | ipHash
  | connHash
  | leastConn
  deriving DecidableEq

structure UpstreamTarget where
  /-- 0 for a target that was never marked down -/
  unhealthyUntil : Int
  activeConnections : Nat
  deriving DecidableEq

structure UpstreamPool where
  targets : List (Bytes × UpstreamTarget)
  balance : Balance
  rrCounter : Nat
  retryTimeout : Int
  proxyTimeout : Int
  deriving DecidableEq

abbrev UpstreamPools := List (Bytes × UpstreamPool)

/-- An entry of `upstreams` in the configuration. -/
structure UpstreamGroup where
  name : Bytes
  targets : List Bytes
  balance : Option Bytes
  retryTimeout : Int
  proxyTimeout : Int

/-- `pool_name` and `pool_target_url` of an exchange. -/
structure PoolRef where
  poolName : Bytes
  targetUrl : Bytes
  deriving DecidableEq

def balanceMode (balance : Option Bytes) : Balance :=
  match balance with
  | none => .roundRobin
  | some name =>
    if name = ascii "random" then .random
    else if name = ascii "ip-hash" then .ipHash
    else if name = ascii "conn-hash" then .connHash
    else if name = ascii "least-conn" then .leastConn
    else .roundRobin

def upstreamPoolRegister (pools : UpstreamPools) (group : UpstreamGroup) : UpstreamPools :=
  StringMap.put group.name
    { targets := (group.targets.take MAX_UPSTREAM_TARGETS).map fun url => (url, ⟨0, 0⟩)
      balance := balanceMode group.balance
      rrCounter := 0
      retryTimeout := if 0 < group.retryTimeout then group.retryTimeout else DEFAULT_RETRY_TIMEOUT
      proxyTimeout :=
        if 0 < group.proxyTimeout then group.proxyTimeout else DEFAULT_PROXY_TIMEOUT } pools

/-- `main` registers the pools of the configuration. -/
def registered (groups : List UpstreamGroup) : UpstreamPools :=
  groups.foldl upstreamPoolRegister []

def targetHealthy (now : Int) (t : UpstreamTarget) : Bool :=
  t.unhealthyUntil = 0 || t.unhealthyUntil ≤ now

/-- The loop over `tries`; `index` is where it looks. -/
def firstHealthy (now : Int) (targets : List (Bytes × UpstreamTarget)) (index : Nat → Nat) :
    Option Bytes :=
  (List.range targets.length).findSome? fun tries => match targets[index tries]? with
    | some (url, t) => if targetHealthy now t then some url else none
    | none => none

/-- djb2 -/
def ipHash (clientIp : Bytes) : Nat :=
  clientIp.foldl (fun h b => (h * 2 ^ 5 % 2 ^ 64 + h + b.toNat) % 2 ^ 64) 5381

def connHash (clientFd : Nat) : Nat :=
  let h := clientFd % 2 ^ 32
  let h := h ^^^ (h >>> 16)
  let h := h * 0x45d9f3b % 2 ^ 32
  h ^^^ (h >>> 16)

/-- The healthy target with the fewest connections, the first of equals. -/
def leastConn (now : Int) (targets : List (Bytes × UpstreamTarget)) : Option Bytes :=
  let chosen := targets.foldl (fun chosen target =>
    let minConn := match chosen with
      | some (_, t) => t.activeConnections
      | none => INT_MAX
    if targetHealthy now target.2 && target.2.activeConnections < minConn then some target
    else chosen) (none : Option (Bytes × UpstreamTarget))
  chosen.map (·.1)

/-- The choice in one pool; `rand` is the result of `rand()`. -/
def chooseTarget (clientIp : Bytes) (clientFd : Nat) (now : Int) (rand : Nat)
    (pool : UpstreamPool) : Option Bytes :=
  let n := pool.targets.length
  match pool.balance with
  | .roundRobin =>
    firstHealthy now pool.targets fun tries => (pool.rrCounter + tries) % 2 ^ 32 % n
  | .random => firstHealthy now pool.targets fun tries => (rand % n + tries) % n
  | .ipHash => firstHealthy now pool.targets fun tries => (ipHash clientIp % n + tries) % n
  | .connHash => firstHealthy now pool.targets fun tries => (connHash clientFd % n + tries) % n
  | .leastConn => leastConn now pool.targets

/-- `pool->rr_counter++` -/
def countRoundRobin (pool : UpstreamPool) : UpstreamPool :=
  if pool.balance = .roundRobin then { pool with rrCounter := (pool.rrCounter + 1) % 2 ^ 32 }
  else pool

def upstreamPoolResolve (name clientIp : Bytes) (clientFd : Nat) (now : Int) (rand : Nat)
    (pools : UpstreamPools) : Option Bytes × UpstreamPools :=
  match StringMap.get name pools with
  | none => (none, pools)
  | some pool =>
    if pool.targets = [] then (none, pools) else
    (chooseTarget clientIp clientFd now rand pool, StringMap.adjust name countRoundRobin pools)

/-- Changes the first target of the pool with that URL. -/
def onTarget (ref : PoolRef) (f : UpstreamPool → UpstreamTarget → UpstreamTarget)
    (pools : UpstreamPools) : UpstreamPools :=
  StringMap.adjust ref.poolName
    (fun pool => { pool with targets := StringMap.adjust ref.targetUrl (f pool) pool.targets })
    pools

def upstreamPoolIncConn (ref : PoolRef) (pools : UpstreamPools) : UpstreamPools :=
  onTarget ref (fun _ t => { t with activeConnections := t.activeConnections + 1 }) pools

def upstreamPoolDecConn (ref : PoolRef) (pools : UpstreamPools) : UpstreamPools :=
  onTarget ref (fun _ t => if 0 < t.activeConnections
    then { t with activeConnections := t.activeConnections - 1 } else t) pools

def upstreamPoolMarkDown (ref : PoolRef) (now : Int) (pools : UpstreamPools) : UpstreamPools :=
  onTarget ref (fun pool t => { t with unhealthyUntil := now + pool.retryTimeout }) pools

def upstreamPoolGetProxyTimeout (name : Bytes) (pools : UpstreamPools) : Int :=
  match StringMap.get name pools with
  | none => DEFAULT_PROXY_TIMEOUT
  | some pool => pool.proxyTimeout

/-- `SAFE_STRTOL` of a decimal number -/
def safeStrtol (s : Bytes) : Int :=
  let (neg, number) := takeSign (s.dropWhile isspace)
  let digits := number.takeWhile isdigit
  let v : Int := if neg then -ofDigits 10 digits else ofDigits 10 digits
  if number.dropWhile isdigit ≠ [] then 0
  else if v < -2 ^ 63 ∨ 2 ^ 63 ≤ v then 0
  else v

def parsePort (s : Bytes) (fallback : Nat) : Nat :=
  let port := (safeStrtol s).bmod (2 ^ 32)
  if port ≤ 0 ∨ 65535 < port then fallback else port.toNat

def lastColon (s : Bytes) : Option Nat := (s.zipIdx.filter (·.1 = COLON)).getLast?.map (·.2)

/-- The host, a `char[256]`, and the port of a URL; none for one that is refused. -/
def parseUpstream (url : Bytes) : Option (Bytes × Nat) :=
  if !(ascii "http://").isPrefixOf url then none else
  match url.drop 7 with
  | 91 :: rest =>
    -- bracketed IPv6
    match memchr rest 93 0 with
    | none => none
    | some n =>
      let port := if rest[n + 1]? = some COLON then parsePort (rest.drop (n + 2)) 443 else 80
      some ((rest.take n).take 255, port)
  | host =>
    let authority := host.takeWhile (· ≠ SLASH)
    match lastColon authority with
    | some n => some ((host.take n).take 255, parsePort (host.drop (n + 1)) 80)
    | none => some (authority.take 255, 80)

theorem parsePort_range {s : Bytes} {fallback : Nat} (h : fallback ≤ 65535) :
    parsePort s fallback ≤ 65535 := by
  unfold parsePort
  dsimp only
  split
  · exact h
  · omega

theorem parseUpstream_range {url host : Bytes} {port : Nat}
    (parsed : parseUpstream url = some (host, port)) : host.length < 256 ∧ port ≤ 65535 := by
  unfold parseUpstream at parsed
  split at parsed
  · cases parsed
  split at parsed
  · split at parsed
    · cases parsed
    cases parsed
    refine ⟨Nat.lt_succ_of_le (List.length_take_le ..), ?_⟩
    split
    · exact parsePort_range (by decide)
    · decide
  · dsimp only at parsed
    split at parsed
    · cases parsed
      exact ⟨Nat.lt_succ_of_le (List.length_take_le ..), parsePort_range (by decide)⟩
    · cases parsed
      exact ⟨Nat.lt_succ_of_le (List.length_take_le ..), by decide⟩

/-- What `proxy_handler` knows when it looks for an upstream connection. -/
inductive Selection where
  /-- 502 because of the location or the URL, with the target that was counted -/
  | rejected (ref : Option PoolRef)
  /-- `getaddrinfo` fails for a host with blanks or control characters. -/
  | unresolved (ref : Option PoolRef)
  | selected (ref : Option PoolRef) (route : Route)

/-- The target that was counted. -/
def Selection.ref : Selection → Option PoolRef
  | .rejected ref => ref
  | .unresolved ref => ref
  | .selected ref _ => ref

/-- The URL that was chosen, for the pool target `ref` or for none. -/
def validate (loc : Location) (pools : UpstreamPools) (ref : Option PoolRef) (url : Bytes) :
    Selection :=
  match parsed : parseUpstream url with
  | none => .rejected ref
  | some (host, port) =>
    if resolves : ∀ b ∈ host, visible b = true then
      have range := parseUpstream_range parsed
      let timeout := match ref with
        | some ref => upstreamPoolGetProxyTimeout ref.poolName pools
        | none => DEFAULT_PROXY_TIMEOUT
      let ka := loc.proxyKeepalive.getD ⟨0, 0⟩
      .selected ref
        ⟨⟨host, port, loc.proxyKeepalive.isSome, range.1, resolves, range.2⟩,
          ka.poolSize, ka.idleTimeout, timeout⟩
    else .unresolved ref

/-- `proxy_handler` up to the parsed URL, for the location that it has found. -/
def selectUpstream (loc : Location) (cd : ClientData) (now : Int) (rand : Nat)
    (pools : UpstreamPools) : Selection × UpstreamPools :=
  if (ascii "upstream://").isPrefixOf loc.realPath then
    let name := loc.realPath.drop 11
    match upstreamPoolResolve name cd.info.addr cd.fd now rand pools with
    | (none, pools) => (.rejected none, pools)
    | (some chosen, pools) =>
      let ref := ⟨name, chosen⟩
      let pools := upstreamPoolIncConn ref pools
      (validate loc pools (some ref) chosen, pools)
  else (validate loc pools none loc.realPath, pools)

theorem validate_ref (loc : Location) (pools : UpstreamPools) (ref : Option PoolRef)
    (url : Bytes) : (validate loc pools ref url).ref = ref := by
  unfold validate
  split
  · rfl
  split
  · rfl
  · rfl

variable {pools : UpstreamPools} {ref ref' : PoolRef}

def findTarget (pools : UpstreamPools) (ref : PoolRef) : Option UpstreamTarget :=
  (StringMap.get ref.poolName pools).bind fun pool => StringMap.get ref.targetUrl pool.targets

def Listed (pools : UpstreamPools) (ref : PoolRef) : Prop := (findTarget pools ref).isSome = true

def active (pools : UpstreamPools) (ref : PoolRef) : Nat :=
  match findTarget pools ref with
  | some t => t.activeConnections
  | none => 0

theorem findTarget_onTarget (ref ref' : PoolRef) (f : UpstreamPool → UpstreamTarget → UpstreamTarget)
    (pools : UpstreamPools) :
    findTarget (onTarget ref f pools) ref' = (StringMap.get ref'.poolName pools).bind fun pool =>
      (StringMap.get ref'.targetUrl pool.targets).map fun t => if ref = ref' then f pool t else t := by
  unfold findTarget onTarget
  rw [StringMap.get_adjust]
  obtain ⟨name, url⟩ := ref
  obtain ⟨name', url'⟩ := ref'
  simp only [PoolRef.mk.injEq]
  cases StringMap.get name' pools with
  | none => simp
  | some pool =>
    by_cases sameName : name = name'
    · simp only [sameName, if_true, Option.map_some, Option.bind_some, StringMap.get_adjust,
        true_and]
      cases StringMap.get url' pool.targets with
      | none => simp
      | some t => by_cases sameUrl : url = url' <;> simp [sameUrl]
    · simp [sameName]

theorem listed_onTarget {f : UpstreamPool → UpstreamTarget → UpstreamTarget} :
    Listed (onTarget ref f pools) ref' ↔ Listed pools ref' := by
  unfold Listed
  rw [findTarget_onTarget, findTarget]
  cases StringMap.get ref'.poolName pools with
  | none => exact Iff.rfl
  | some pool => simp

theorem active_onTarget {f : UpstreamPool → UpstreamTarget → UpstreamTarget} {h : Nat → Nat}
    (counts : ∀ pool t, (f pool t).activeConnections = h t.activeConnections)
    (listed : Listed pools ref') :
    active (onTarget ref f pools) ref' =
      if ref = ref' then h (active pools ref') else active pools ref' := by
  unfold active
  rw [findTarget_onTarget]
  unfold Listed at listed
  unfold findTarget at *
  cases inPool : StringMap.get ref'.poolName pools with
  | none =>
    rw [inPool] at listed
    cases listed
  | some pool =>
    rw [inPool] at listed
    simp only [Option.bind_some] at listed ⊢
    cases found : StringMap.get ref'.targetUrl pool.targets with
    | none =>
      rw [found] at listed
      cases listed
    | some t =>
      dsimp only [Option.map_some]
      split
      · exact counts pool t
      · rfl

theorem active_incConn (listed : Listed pools ref') :
    active (upstreamPoolIncConn ref pools) ref' =
      active pools ref' + if ref = ref' then 1 else 0 := by
  rw [upstreamPoolIncConn, active_onTarget (h := (· + 1)) (fun _ _ => rfl) listed]
  split
  · rfl
  · rfl

theorem active_decConn (listed : Listed pools ref') :
    active (upstreamPoolDecConn ref pools) ref' =
      active pools ref' - if ref = ref' then 1 else 0 := by
  have counts (pool : UpstreamPool) (t : UpstreamTarget) :
      (if 0 < t.activeConnections then { t with activeConnections := t.activeConnections - 1 }
        else t).activeConnections = t.activeConnections - 1 := by
    split
    · rfl
    · omega
  rw [upstreamPoolDecConn, active_onTarget (h := (· - 1)) counts listed]
  split
  · rfl
  · rfl

theorem active_markDown (now : Int) (listed : Listed pools ref') :
    active (upstreamPoolMarkDown ref now pools) ref' = active pools ref' := by
  have counts (pool : UpstreamPool) (t : UpstreamTarget) :
      { t with unhealthyUntil := now + pool.retryTimeout }.activeConnections =
        t.activeConnections := rfl
  rw [upstreamPoolMarkDown, active_onTarget (h := id) counts listed]
  exact ite_self _

/-- The choice is a target of the pool. -/
theorem firstHealthy_mem {now : Int} {targets : List (Bytes × UpstreamTarget)}
    {index : Nat → Nat} {url : Bytes} (found : firstHealthy now targets index = some url) :
    ∃ t, (url, t) ∈ targets := by
  obtain ⟨tries, _, here⟩ := List.exists_of_findSome?_eq_some found
  split at here
  · rename_i url' t there
    split at here
    · cases here
      exact ⟨t, List.mem_of_getElem? there⟩
    · cases here
  · cases here

theorem leastConn_mem {now : Int} {targets : List (Bytes × UpstreamTarget)} {url : Bytes}
    (found : leastConn now targets = some url) : ∃ t, (url, t) ∈ targets := by
  obtain ⟨⟨url', t⟩, chosen, rfl⟩ := Option.map_eq_some_iff.mp found
  refine ⟨t, ?_⟩
  revert chosen
  apply List.foldlRecOn (motive := fun best => best = some (url', t) → (url', t) ∈ targets)
  · exact nofun
  · intro best ih target listed here
    split at here
    all_goals
      dsimp only at here
      split at here
      · cases here
        exact listed
      · exact ih here

theorem chooseTarget_mem {clientIp : Bytes} {clientFd rand : Nat} {now : Int}
    {pool : UpstreamPool} {url : Bytes}
    (found : chooseTarget clientIp clientFd now rand pool = some url) :
    ∃ t, (url, t) ∈ pool.targets := by
  unfold chooseTarget at found
  dsimp only at found
  split at found
  · exact firstHealthy_mem found
  · exact firstHealthy_mem found
  · exact firstHealthy_mem found
  · exact firstHealthy_mem found
  · exact leastConn_mem found

theorem countRoundRobin_targets (pool : UpstreamPool) :
    (countRoundRobin pool).targets = pool.targets := by
  unfold countRoundRobin
  split
  · rfl
  · rfl

/-- The choice leaves the targets as they are. -/
theorem upstreamPoolResolve_same (name clientIp : Bytes) (clientFd : Nat) (now : Int) (rand : Nat)
    (pools : UpstreamPools) (ref : PoolRef) :
    findTarget (upstreamPoolResolve name clientIp clientFd now rand pools).2 ref =
      findTarget pools ref := by
  unfold upstreamPoolResolve
  split
  · rfl
  split
  · rfl
  unfold findTarget
  dsimp only
  rw [StringMap.get_adjust]
  split
  · cases StringMap.get ref.poolName pools with
    | none => rfl
    | some pool => simp [countRoundRobin_targets]
  · rfl

theorem upstreamPoolResolve_listed {name clientIp : Bytes} {clientFd rand : Nat} {now : Int}
    {url : Bytes}
    (found : (upstreamPoolResolve name clientIp clientFd now rand pools).1 = some url) :
    Listed pools ⟨name, url⟩ := by
  unfold upstreamPoolResolve at found
  split at found
  · cases found
  rename_i pool inPool
  split at found
  · cases found
  obtain ⟨t, listed⟩ := chooseTarget_mem found
  rw [Listed, findTarget, inPool]
  exact StringMap.isSome_of_mem listed

/-- No two targets have one URL. -/
def UpstreamPool.Single (pool : UpstreamPool) : Prop := (pool.targets.map (·.1)).Nodup

def SingleTargets (pools : UpstreamPools) : Prop := ∀ entry ∈ pools, entry.2.Single

theorem SingleTargets.adjust (h : SingleTargets pools) {f : UpstreamPool → UpstreamPool}
    (keeps : ∀ pool, (f pool).targets.map (·.1) = pool.targets.map (·.1)) (name : Bytes) :
    SingleTargets (StringMap.adjust name f pools) := by
  refine StringMap.adjust_forall (p := fun entry : Bytes × UpstreamPool => entry.2.Single) h ?_
  intro pool distinct
  rw [UpstreamPool.Single, keeps]
  exact distinct

theorem SingleTargets.onTarget (h : SingleTargets pools)
    (f : UpstreamPool → UpstreamTarget → UpstreamTarget) :
    SingleTargets (onTarget ref f pools) :=
  h.adjust (fun _ => StringMap.adjust_keys ..) ref.poolName

theorem SingleTargets.selectUpstream (h : SingleTargets pools) (loc : Location)
    (cd : ClientData) (now : Int) (rand : Nat) :
    SingleTargets (selectUpstream loc cd now rand pools).2 := by
  have resolved (name : Bytes) :
      SingleTargets (upstreamPoolResolve name cd.info.addr cd.fd now rand pools).2 := by
    unfold upstreamPoolResolve
    split
    · exact h
    split
    · exact h
    · exact h.adjust (fun pool => by rw [countRoundRobin_targets]) name
  unfold LoadBalancer.selectUpstream
  split
  · have resolved := resolved (loc.realPath.drop 11)
    dsimp only
    generalize upstreamPoolResolve (loc.realPath.drop 11) cd.info.addr cd.fd now rand pools =
      result at *
    obtain ⟨url, pools'⟩ := result
    cases url with
    | none => exact resolved
    | some url => exact resolved.onTarget _
  · exact h

/-- A pool as it is registered. -/
theorem registered_forall {p : UpstreamPool → Prop} {groups : List UpstreamGroup}
    (new : ∀ g ∈ groups, ∀ pool : UpstreamPool, pool.targets =
      (g.targets.take MAX_UPSTREAM_TARGETS).map (fun url => (url, ⟨0, 0⟩)) → p pool) :
    ∀ entry ∈ registered groups, p entry.2 := by
  unfold registered
  apply List.foldlRecOn (motive := fun pools : UpstreamPools => ∀ entry ∈ pools, p entry.2)
  · exact fun _ listed => nomatch listed
  · intro pools old g listed
    exact StringMap.put_forall (p := fun entry : Bytes × UpstreamPool => p entry.2) old
      (new g listed _ rfl)

theorem registered_single {groups : List UpstreamGroup}
    (distinct : ∀ g ∈ groups, g.targets.Nodup) : SingleTargets (registered groups) := by
  apply registered_forall (p := UpstreamPool.Single)
  intro g listed pool targets
  rw [UpstreamPool.Single, targets, List.map_map]
  change ((g.targets.take MAX_UPSTREAM_TARGETS).map id).Nodup
  rw [List.map_id]
  exact (distinct g listed).sublist (List.take_sublist _ _)

theorem registered_active (groups : List UpstreamGroup) (ref : PoolRef) :
    active (registered groups) ref = 0 := by
  have zero : ∀ entry ∈ registered groups, ∀ target ∈ entry.2.targets,
      target.2.activeConnections = 0 := by
    apply registered_forall (p := fun pool => ∀ target ∈ pool.targets,
      target.2.activeConnections = 0)
    intro g _ pool targets target listed
    rw [targets] at listed
    obtain ⟨url, _, rfl⟩ := List.mem_map.mp listed
    rfl
  unfold active
  split
  · rename_i t found
    obtain ⟨pool, inPool, here⟩ := Option.bind_eq_some_iff.mp found
    exact zero _ (StringMap.mem_of_get inPool) _ (StringMap.mem_of_get here)
  · rfl

end LoadBalancer
