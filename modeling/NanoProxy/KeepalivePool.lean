import NanoProxy.ProxyExchange

/-!
# The pool of idle upstream connections (include/request.h)

`keepalive_pools` maps "host:port" to the idle connections of that upstream, the last one
put first to be taken. The functions give the descriptors that they close besides the new
pools.
-/

namespace KeepalivePool

open CLib

structure PooledConn where
  fd : Nat
  idleSince : Int
  idleTimeout : Int
  deriving DecidableEq

abbrev Pools := List (Bytes × List PooledConn)

/-- `keepalive_pool_key`, printed to a `char[300]`. -/
def keepalivePoolKey (host : Bytes) (port : Nat) : Bytes :=
  (host ++ ascii ":" ++ decimal port).take 299

/-- `keepalive_pools[shgeti(keepalive_pools, key)].value` -/
def conns (pools : Pools) (key : Bytes) : List PooledConn :=
  match pools with
  | [] => []
  | (k, cs) :: rest => if k = key then cs else conns rest key

/-- The assignment to that value, after `shput` where the key is new. -/
def setConns (pools : Pools) (key : Bytes) (new : List PooledConn) : Pools :=
  match pools with
  | [] => [(key, new)]
  | (k, cs) :: rest => if k = key then (k, new) :: rest else (k, cs) :: setConns rest key new

def keepalivePoolTake (pools : Pools) (host : Bytes) (port : Nat) : Option Nat × Pools :=
  let key := keepalivePoolKey host port
  match (conns pools key).getLast? with
  | none => (none, pools)
  | some pc => (some pc.fd, setConns pools key (conns pools key).dropLast)

def keepalivePoolPut (pools : Pools) (host : Bytes) (port fd : Nat) (poolSize idleTimeout : Int)
    (now : Int) : List Nat × Pools :=
  let key := keepalivePoolKey host port
  let idle := conns pools key
  if poolSize ≤ idle.length then ([fd], setConns pools key idle)
  else ([], setConns pools key (idle ++ [⟨fd, now, idleTimeout⟩]))

def expired (now : Int) (pc : PooledConn) : Bool :=
  0 < pc.idleTimeout && pc.idleTimeout < now - pc.idleSince

def keepalivePoolSweep (pools : Pools) (now : Int) : List Nat × Pools :=
  (pools.flatMap fun e => (e.2.filter (expired now)).map (·.fd),
    pools.map fun e => (e.1, e.2.filter fun pc => !expired now pc))

def pooledFds (pools : Pools) : List Nat := pools.flatMap fun e => e.2.map (·.fd)

variable {pools pools' : Pools} {host : Bytes} {port fd : Nat}

/-- An assignment exchanges the connections of one key. -/
theorem count_setConns (pools : Pools) (key : Bytes) (new : List PooledConn) (u : Nat) :
    (pooledFds (setConns pools key new)).count u + ((conns pools key).map (·.fd)).count u =
      (pooledFds pools).count u + (new.map (·.fd)).count u := by
  induction pools with
  | nil => simp [pooledFds, setConns, conns]
  | cons e rest ih =>
    obtain ⟨k, cs⟩ := e
    unfold setConns conns
    by_cases hk : k = key
    · rw [if_pos hk, if_pos hk]
      simp only [pooledFds, List.flatMap_cons, List.count_append]
      omega
    · rw [if_neg hk, if_neg hk]
      simp only [pooledFds, List.flatMap_cons, List.count_append] at ih ⊢
      omega

theorem take_pooled (h : keepalivePoolTake pools host port = (some fd, pools')) :
    (pooledFds pools).Perm (fd :: pooledFds pools') := by
  unfold keepalivePoolTake at h
  dsimp only at h
  split at h
  · cases (Prod.mk.inj h).1
  · rename_i pc hlast
    obtain ⟨hfd, rfl⟩ := Prod.mk.inj h
    rw [← Option.some.inj hfd, List.perm_iff_count]
    intro u
    have hset := count_setConns pools (keepalivePoolKey host port)
      (conns pools (keepalivePoolKey host port)).dropLast u
    have hsplit : conns pools (keepalivePoolKey host port) =
        (conns pools (keepalivePoolKey host port)).dropLast ++ [pc] :=
      (List.dropLast_append_getLast? pc hlast).symm
    have hcount := congrArg (fun l => (l.map (·.fd)).count u) hsplit
    simp only [List.map_append, List.map_singleton, List.count_append] at hcount
    rw [List.count_cons]
    simp only [List.count_singleton] at hcount
    omega

/-- A connection that is put is either pooled or closed. -/
theorem put_pooled {poolSize idleTimeout now : Int} {closed : List Nat}
    (h : keepalivePoolPut pools host port fd poolSize idleTimeout now = (closed, pools')) :
    (closed = [fd] ∧ (pooledFds pools').Perm (pooledFds pools)) ∨
      (closed = [] ∧ (pooledFds pools').Perm (fd :: pooledFds pools)) := by
  unfold keepalivePoolPut at h
  dsimp only at h
  split at h
  · obtain ⟨rfl, rfl⟩ := Prod.mk.inj h
    refine Or.inl ⟨rfl, List.perm_iff_count.mpr fun u => ?_⟩
    have hset := count_setConns pools (keepalivePoolKey host port)
      (conns pools (keepalivePoolKey host port)) u
    omega
  · obtain ⟨rfl, rfl⟩ := Prod.mk.inj h
    refine Or.inr ⟨rfl, List.perm_iff_count.mpr fun u => ?_⟩
    have hset := count_setConns pools (keepalivePoolKey host port)
      (conns pools (keepalivePoolKey host port) ++ [⟨fd, now, idleTimeout⟩]) u
    simp only [List.map_append, List.map_singleton, List.count_append,
      List.count_singleton] at hset
    rw [List.count_cons]
    omega

theorem sweep_pooled (pools : Pools) (now : Int) :
    (pooledFds pools).Perm
      ((keepalivePoolSweep pools now).1 ++ pooledFds (keepalivePoolSweep pools now).2) := by
  rw [List.perm_iff_count]
  intro u
  induction pools with
  | nil => rfl
  | cons e rest ih =>
    have hsplit := (List.filter_append_perm (expired now) e.2).map (·.fd) |>.count_eq u
    simp only [pooledFds, keepalivePoolSweep, List.flatMap_cons, List.map_cons, List.map_append,
      List.count_append] at ih hsplit ⊢
    omega

end KeepalivePool
