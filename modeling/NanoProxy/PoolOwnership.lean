import NanoProxy.KeepalivePool
import NanoProxy.RequestGrammar
import NanoProxy.Lib.Ledger
import NanoProxy.Lib.StringMap

/-!
# Who owns an idle connection (include/request.h)

Any calls of the three functions of the pool, each `put` with a descriptor that is not pooled.
The log of what happens to the descriptors is a linear ledger, and the pools hold what the
ledger holds, each descriptor under the key of the target it has been put in for.
-/

namespace PoolOwnership

open CLib KeepalivePool RequestGrammar Ledger Runs

/-- A host fits in the `char host[256]` of the callers; the port is an `int`. -/
structure Target where
  host : Bytes
  port : Nat
  short : host.length < 256
  int : port < 2 ^ 31
  deriving DecidableEq

def Target.key (t : Target) : Bytes := keepalivePoolKey t.host t.port

theorem key_whole (t : Target) : t.key = t.host ++ COLON :: decimal t.port := by
  have short := t.short
  have int := t.int
  have digits : (decimal t.port).length ≤ 10 := decimal_length (by decide) (by omega)
  rw [Target.key, keepalivePoolKey, List.append_assoc]
  refine List.take_of_length_le ?_
  rw [List.length_append, List.length_append]
  have colon : (ascii ":").length = 1 := rfl
  omega

/-- A text splits at its last colon. -/
theorem split_unique {h h' d d' : Bytes} (digits : COLON ∉ d) (digits' : COLON ∉ d')
    (same : h ++ COLON :: d = h' ++ COLON :: d') : h = h' ∧ d = d' := by
  have behind {h d : Bytes} (digits : COLON ∉ d) :
      (h ++ COLON :: d).reverse.takeWhile (· ≠ COLON) = d.reverse := by
    rw [List.reverse_append, List.reverse_cons, List.append_assoc,
      List.takeWhile_append_of_pos fun b listed => ?_]
    · exact List.append_nil _
    · exact decide_eq_true fun colon => digits (colon ▸ List.mem_reverse.mp listed)
  have tails : d = d' := by
    rw [← List.reverse_inj, ← behind (h := h) digits, ← behind (h := h') digits', same]
  subst tails
  exact ⟨List.append_cancel_right same, rfl⟩

theorem key_injective {t t' : Target} (same : t.key = t'.key) : t = t' := by
  have no_colon (n : Nat) : COLON ∉ decimal n := fun listed =>
    absurd (decimal_digits listed) (by decide)
  rw [key_whole, key_whole] at same
  obtain ⟨hosts, ports⟩ := split_unique (no_colon _) (no_colon _) same
  have ports := congrArg (ofDigits 10) ports
  rw [ofDigits_decimal, ofDigits_decimal] at ports
  cases t
  cases t'
  cases hosts
  cases ports
  rfl

/-- The loop over `r` in place, with `arrsetlen(conns, w)` behind it. -/
def sweepLoop (now : Int) : (left r w : Nat) → List PooledConn → List Nat →
    List Nat × List PooledConn
  | 0, _, w, conns, closed => (closed, conns.take w)
  | left + 1, r, w, conns, closed =>
    match conns[r]? with
    | none => (closed, conns.take w)
    | some pc =>
      if 0 < pc.idleTimeout ∧ pc.idleTimeout < now - pc.idleSince
        then sweepLoop now left (r + 1) w conns (closed ++ [pc.fd])
        else sweepLoop now left (r + 1) (w + 1) (conns.set w pc) closed

def sweep (pools : Pools) (now : Int) : List Nat × Pools :=
  (pools.flatMap fun e => (sweepLoop now e.2.length 0 0 e.2 []).1,
    pools.map fun e => (e.1, (sweepLoop now e.2.length 0 0 e.2 []).2))

/-- In front of `w` stands what is kept, from `r` on what has not been looked at. -/
theorem sweepLoop_eq (now : Int) (kept gap rest : List PooledConn) (closed : List Nat) :
    sweepLoop now rest.length (kept.length + gap.length) kept.length (kept ++ (gap ++ rest)) closed =
      (closed ++ (rest.filter (expired now)).map (·.fd),
        kept ++ rest.filter fun pc => !expired now pc) := by
  induction rest generalizing kept gap closed with
  | nil =>
    rw [List.length_nil, sweepLoop, List.take_left' rfl, List.filter_nil, List.filter_nil,
      List.map_nil, List.append_nil, List.append_nil]
  | cons pc rest ih =>
    have here : (kept ++ (gap ++ pc :: rest))[kept.length + gap.length]? = some pc := by
      rw [← List.append_assoc, ← List.length_append, List.getElem?_append_right (Nat.le_refl _),
        Nat.sub_self]
      rfl
    rw [List.length_cons, sweepLoop, here]
    dsimp only
    by_cases late : 0 < pc.idleTimeout ∧ pc.idleTimeout < now - pc.idleSince
    · have out : expired now pc = true := by simpa [expired] using late
      have more := ih kept (gap ++ [pc]) (closed ++ [pc.fd])
      rw [List.length_append, List.length_singleton, ← Nat.add_assoc, List.append_assoc gap] at more
      rw [if_pos late, List.filter_cons_of_pos out, List.filter_cons_of_neg (by simp [out])]
      exact more.trans (by rw [List.append_assoc]; rfl)
    · have stays : expired now pc = false := by simpa [expired] using late
      have moved : (kept ++ (gap ++ pc :: rest)).set kept.length pc =
          kept ++ [pc] ++ ((gap ++ [pc]).tail ++ rest) := by
        rw [List.set_append_right _ _ (Nat.le_refl _), Nat.sub_self]
        cases gap with
        | nil => simp
        | cons first gap => simp
      have more := ih (kept ++ [pc]) (gap ++ [pc]).tail closed
      rw [List.length_append, List.length_singleton, List.length_tail, List.length_append,
        List.length_singleton, Nat.add_sub_cancel, Nat.add_right_comm] at more
      rw [if_neg late, List.filter_cons_of_neg (by simp [stays]), List.filter_cons_of_pos
        (by simp [stays]), moved, more, List.append_assoc]
      rfl

theorem sweep_eq (pools : Pools) (now : Int) : sweep pools now = keepalivePoolSweep pools now := by
  have whole (conns : List PooledConn) : sweepLoop now conns.length 0 0 conns [] =
      ((conns.filter (expired now)).map (·.fd), conns.filter fun pc => !expired now pc) :=
    sweepLoop_eq now [] [] conns []
  unfold sweep keepalivePoolSweep
  simp only [whole]

inductive Op where
  | put (t : Target) (fd : Nat) (poolSize idleTimeout now : Int)
  | take (t : Target)
  | sweep (now : Int)

structure World where
  pools : Pools
  log : List (Entry Target Nat)

def World.init : World := { pools := [], log := [] }

def step (s : World) : Op → World
  | .put t fd poolSize idleTimeout now =>
    let (closed, pools) := keepalivePoolPut s.pools t.host t.port fd poolSize idleTimeout now
    { pools := pools, log := s.log ++ .put t fd :: closed.map .closed }
  | .take t =>
    match keepalivePoolTake s.pools t.host t.port with
    | (none, pools) => { s with pools := pools }
    | (some fd, pools) => { pools := pools, log := s.log ++ [.given t fd] }
  | .sweep now =>
    let (closed, pools) := sweep s.pools now
    { pools := pools, log := s.log ++ closed.map .closed }

/-- A descriptor that is put is not pooled already. -/
def Admitted (s : World) : Op → Prop
  | .put _ fd _ _ _ => fd ∉ pooledFds s.pools
  | _ => True

instance (s : World) (op : Op) : Decidable (Admitted s op) :=
  match op with
  | .put _ fd _ _ _ => inferInstanceAs (Decidable (fd ∉ pooledFds s.pools))
  | .take _ => inferInstanceAs (Decidable True)
  | .sweep _ => inferInstanceAs (Decidable True)

/-- The largest `pool_size` that has been used for a target, 0 without one. -/
def largest (t : Target) (n : Int) : List Op → Int
  | [] => n
  | .put t' _ poolSize _ _ :: ops => largest t (if t' = t then max n poolSize else n) ops
  | _ :: ops => largest t n ops

def idle (pools : Pools) (t : Target) : List Nat := (conns pools t.key).map (·.fd)

structure Owns (s : World) : Prop where
  keys : (s.pools.map (·.1)).Nodup
  linear : Linear s.log
  once : (pooledFds s.pools).Nodup
  held : ∀ t fd, held s.log fd = some t ↔ fd ∈ idle s.pools t
  known : ∀ fd ∈ pooledFds s.pools, ∃ t, fd ∈ idle s.pools t

variable {s : World} {pools : Pools}

theorem conns_eq (pools : Pools) (key : Bytes) :
    conns pools key = (StringMap.get key pools).getD [] := by
  induction pools with
  | nil => rfl
  | cons e pools ih =>
    rw [conns, StringMap.get_cons, ih]
    split <;> rfl

theorem setConns_eq (pools : Pools) (key : Bytes) (new : List PooledConn) :
    setConns pools key new = StringMap.put key new pools := by
  induction pools with
  | nil => rfl
  | cons e pools ih =>
    rw [setConns, StringMap.put, ih]

theorem conns_setConns (pools : Pools) (key key' : Bytes) (new : List PooledConn) :
    conns (setConns pools key new) key' = if key = key' then new else conns pools key' := by
  rw [conns_eq, setConns_eq, StringMap.get_put, conns_eq]
  split <;> rfl

theorem idle_setConns (pools : Pools) (t t' : Target) (new : List PooledConn) :
    idle (setConns pools t.key new) t' = if t = t' then new.map (·.fd) else idle pools t' := by
  rw [idle, conns_setConns]
  by_cases same : t = t'
  · rw [if_pos same, if_pos (congrArg Target.key same)]
  · rw [if_neg same, if_neg fun keys => same (key_injective keys)]
    rfl

theorem setConns_keys (key : Bytes) (new : List PooledConn) (keys : (pools.map (·.1)).Nodup) :
    ((setConns pools key new).map (·.1)).Nodup := by
  rw [setConns_eq]
  exact StringMap.put_keys keys

theorem idle_pooled {t : Target} {fd : Nat} (listed : fd ∈ idle pools t) : fd ∈ pooledFds pools := by
  rw [idle, conns_eq] at listed
  cases found : StringMap.get t.key pools with
  | none =>
    rw [found] at listed
    cases listed
  | some cs =>
    rw [found] at listed
    exact List.mem_flatMap.mpr ⟨_, StringMap.mem_of_get found, listed⟩

theorem conns_sweep (pools : Pools) (now : Int) (key : Bytes) :
    conns (sweep pools now).2 key = (conns pools key).filter fun pc => !expired now pc := by
  rw [sweep_eq, conns_eq, conns_eq]
  change (StringMap.get key (pools.map fun e => (e.1, e.2.filter fun pc => !expired now pc))).getD
    [] = _
  rw [StringMap.get_map]
  cases StringMap.get key pools <;> rfl

theorem sweep_keys (pools : Pools) (now : Int) :
    (sweep pools now).2.map (·.1) = pools.map (·.1) := by
  rw [sweep, List.map_map]
  rfl

/-- The ledger holds exactly what is pooled. -/
theorem held_none (owns : Owns s) (fd : Nat) :
    held s.log fd = none ↔ fd ∉ pooledFds s.pools := by
  constructor
  · intro free pooled
    obtain ⟨t, listed⟩ := owns.known fd pooled
    rw [(owns.held t fd).mpr listed] at free
    cases free
  · intro unpooled
    cases owner : held s.log fd with
    | none => rfl
    | some t => exact absurd (idle_pooled ((owns.held t fd).mp owner)) unpooled

theorem init_owns : Owns World.init := by
  constructor
  · exact List.nodup_nil
  · trivial
  · exact List.nodup_nil
  · exact fun t fd => ⟨nofun, nofun⟩
  · exact nofun

section Put

variable {t : Target} {fd : Nat}

/-- The pool is full, and the descriptor is closed at once. -/
theorem put_closes (owns : Owns s) (unpooled : fd ∉ pooledFds s.pools) :
    Owns ⟨setConns s.pools t.key (conns s.pools t.key), s.log ++ [.put t fd, .closed fd]⟩ := by
  have free := (held_none owns fd).mpr unpooled
  obtain ⟨linear, held'⟩ := owns.linear.put t free
  have kept : (held (s.log ++ [.put t fd]) fd).isSome := by
    rw [held', Function.update_self]
    rfl
  obtain ⟨linear', held''⟩ := linear.close kept
  rw [held', Function.update_idem, ← free, Function.update_eq_self, List.append_assoc] at held''
  rw [List.append_assoc] at linear'
  have same (t' : Target) :
      idle (setConns s.pools t.key (conns s.pools t.key)) t' = idle s.pools t' := by
    rw [idle_setConns]
    split
    · rename_i here
      rw [← here]
      rfl
    · rfl
  have perm : (pooledFds (setConns s.pools t.key (conns s.pools t.key))).Perm
      (pooledFds s.pools) := by
    refine List.perm_iff_count.mpr fun u => ?_
    have count := count_setConns s.pools t.key (conns s.pools t.key) u
    omega
  constructor
  · exact setConns_keys _ _ owns.keys
  · exact linear'
  · exact perm.nodup_iff.mpr owns.once
  · intro t' fd'
    change held (s.log ++ ([.put t fd] ++ [.closed fd])) fd' = _ ↔ _
    rw [held'', same]
    exact owns.held t' fd'
  · intro fd' pooled
    obtain ⟨t', listed⟩ := owns.known fd' (perm.subset pooled)
    exact ⟨t', by rwa [same]⟩

theorem put_pools (owns : Owns s) (unpooled : fd ∉ pooledFds s.pools) (since timeout : Int) :
    Owns ⟨setConns s.pools t.key (conns s.pools t.key ++ [⟨fd, since, timeout⟩]),
      s.log ++ [.put t fd]⟩ := by
  obtain ⟨linear, held'⟩ := owns.linear.put t ((held_none owns fd).mpr unpooled)
  have more (t' : Target) : idle
      (setConns s.pools t.key (conns s.pools t.key ++ [⟨fd, since, timeout⟩])) t' =
      if t = t' then idle s.pools t ++ [fd] else idle s.pools t' := by
    rw [idle_setConns, List.map_append]
    rfl
  have perm : (pooledFds (setConns s.pools t.key
      (conns s.pools t.key ++ [⟨fd, since, timeout⟩]))).Perm (fd :: pooledFds s.pools) := by
    refine List.perm_iff_count.mpr fun u => ?_
    have count := count_setConns s.pools t.key (conns s.pools t.key ++ [⟨fd, since, timeout⟩]) u
    simp only [List.map_append, List.map_singleton, List.count_append, List.count_singleton]
      at count
    rw [List.count_cons]
    omega
  have absent (t' : Target) : fd ∉ idle s.pools t' := fun listed => unpooled (idle_pooled listed)
  constructor
  · exact setConns_keys _ _ owns.keys
  · exact linear
  · exact perm.nodup_iff.mpr (List.nodup_cons.mpr ⟨unpooled, owns.once⟩)
  · intro t' fd'
    change held (s.log ++ [.put t fd]) fd' = _ ↔ _
    rw [held', more]
    by_cases here : fd' = fd
    · subst here
      rw [Function.update_self]
      by_cases same : t = t'
      · rw [if_pos same, same]
        exact ⟨fun _ => by simp, fun _ => rfl⟩
      · rw [if_neg same]
        exact ⟨fun h => absurd (Option.some.inj h) same, fun listed => absurd listed (absent t')⟩
    · rw [Function.update_of_ne here, owns.held]
      split
      · rename_i same
        rw [same, List.mem_append, List.mem_singleton, or_iff_left here]
      · rfl
  · intro fd' pooled
    rcases List.mem_cons.mp (perm.subset pooled) with rfl | old
    · exact ⟨t, by rw [more, if_pos rfl]; simp⟩
    · obtain ⟨t', listed⟩ := owns.known fd' old
      refine ⟨t', ?_⟩
      rw [more]
      split
      · rename_i same
        exact List.mem_append_left _ (same ▸ listed)
      · exact listed

theorem put_owns (owns : Owns s) (unpooled : fd ∉ pooledFds s.pools)
    (poolSize idleTimeout now : Int) : Owns (step s (.put t fd poolSize idleTimeout now)) := by
  unfold step keepalivePoolPut
  dsimp only
  by_cases full : poolSize ≤ (conns s.pools (keepalivePoolKey t.host t.port)).length
  · rw [if_pos full]
    exact put_closes owns unpooled
  · rw [if_neg full]
    exact put_pools owns unpooled now idleTimeout

end Put

theorem take_owns (owns : Owns s) (t : Target) : Owns (step s (.take t)) := by
  unfold step keepalivePoolTake
  dsimp only
  cases last : (conns s.pools (keepalivePoolKey t.host t.port)).getLast? with
  | none => exact owns
  | some pc =>
    have split : conns s.pools t.key = (conns s.pools t.key).dropLast ++ [pc] :=
      (List.dropLast_append_getLast? pc last).symm
    have given : idle s.pools t = ((conns s.pools t.key).dropLast.map (·.fd)) ++ [pc.fd] := by
      rw [idle]
      exact (congrArg (List.map (·.fd)) split).trans List.map_append
    have listed : pc.fd ∈ idle s.pools t := by
      rw [given]
      exact List.mem_append_right _ List.mem_cons_self
    obtain ⟨linear, held'⟩ := owns.linear.give ((owns.held t pc.fd).mpr listed)
    have taken : keepalivePoolTake s.pools t.host t.port =
        (some pc.fd, setConns s.pools t.key (conns s.pools t.key).dropLast) := by
      unfold keepalivePoolTake
      dsimp only
      rw [last]
      rfl
    have perm := take_pooled taken
    obtain ⟨gone, once⟩ := List.nodup_cons.mp (perm.nodup_iff.mp owns.once)
    have left (t' : Target) :
        idle (setConns s.pools t.key (conns s.pools t.key).dropLast) t' =
        if t = t' then (conns s.pools t.key).dropLast.map (·.fd) else idle s.pools t' :=
      idle_setConns s.pools t t' _
    have others (t' : Target) {fd : Nat} (other : fd ≠ pc.fd) :
        fd ∈ idle (setConns s.pools t.key (conns s.pools t.key).dropLast) t' ↔
          fd ∈ idle s.pools t' := by
      rw [left]
      split
      · rename_i same
        rw [← same, given, List.mem_append, List.mem_singleton, or_iff_left other]
      · rfl
    constructor
    · exact setConns_keys _ _ owns.keys
    · exact linear
    · exact once
    · intro t' fd
      change held (s.log ++ [.given t pc.fd]) fd = _ ↔
        fd ∈ idle (setConns s.pools t.key (conns s.pools t.key).dropLast) t'
      rw [held']
      by_cases here : fd = pc.fd
      · subst here
        rw [Function.update_self]
        exact ⟨nofun, fun listed => absurd (idle_pooled listed) gone⟩
      · rw [Function.update_of_ne here, owns.held, others t' here]
    · intro fd pooled
      have other : fd ≠ pc.fd := fun same => gone (same ▸ pooled)
      obtain ⟨t', listed⟩ := owns.known fd (perm.symm.subset (List.mem_cons_of_mem _ pooled))
      exact ⟨t', (others t' other).mpr listed⟩

theorem sweep_owns (owns : Owns s) (now : Int) : Owns (step s (.sweep now)) := by
  have perm := sweep_pooled s.pools now
  rw [← sweep_eq] at perm
  obtain ⟨distinct, once, apart⟩ := List.nodup_append.mp (perm.nodup_iff.mp owns.once)
  have kept : ∀ fd ∈ (sweep s.pools now).1, (held s.log fd).isSome := by
    intro fd listed
    obtain ⟨t, listed⟩ := owns.known fd (perm.symm.subset (List.mem_append_left _ listed))
    rw [(owns.held t fd).mpr listed]
    rfl
  obtain ⟨linear, held'⟩ := owns.linear.closeAll distinct kept
  have left (t : Target) (fd : Nat) : fd ∈ idle (sweep s.pools now).2 t ↔
      fd ∉ (sweep s.pools now).1 ∧ fd ∈ idle s.pools t := by
    constructor
    · intro listed
      refine ⟨fun closed => apart fd closed fd (idle_pooled listed) rfl, ?_⟩
      rw [idle, conns_sweep] at listed
      exact (List.filter_sublist.map _).subset listed
    · rintro ⟨open', listed⟩
      obtain ⟨pc, inside, rfl⟩ := List.mem_map.mp listed
      rw [idle, conns_sweep]
      refine List.mem_map.mpr ⟨pc, List.mem_filter.mpr ⟨inside, ?_⟩, rfl⟩
      by_contra late
      refine open' ?_
      rw [conns_eq] at inside
      rw [sweep_eq]
      cases found : StringMap.get t.key s.pools with
      | none =>
        rw [found] at inside
        cases inside
      | some cs =>
        rw [found] at inside
        refine List.mem_flatMap.mpr ⟨_, StringMap.mem_of_get found, ?_⟩
        exact List.mem_map.mpr ⟨pc, List.mem_filter.mpr ⟨inside, by simpa using late⟩, rfl⟩
  constructor
  · change ((sweep s.pools now).2.map (·.1)).Nodup
    rw [sweep_keys]
    exact owns.keys
  · exact linear
  · exact once
  · intro t fd
    change held (s.log ++ (sweep s.pools now).1.map .closed) fd = some t ↔
      fd ∈ idle (sweep s.pools now).2 t
    rw [held', left]
    by_cases closed : fd ∈ (sweep s.pools now).1
    · rw [if_pos closed]
      exact ⟨nofun, fun h => absurd closed h.1⟩
    · rw [if_neg closed, owns.held]
      exact ⟨fun h => ⟨closed, h⟩, And.right⟩
  · intro fd pooled
    have closed : fd ∉ (sweep s.pools now).1 := fun listed => apart fd listed fd pooled rfl
    obtain ⟨t, listed⟩ := owns.known fd (perm.symm.subset (List.mem_append_right _ pooled))
    exact ⟨t, (left t fd).mpr ⟨closed, listed⟩⟩

theorem step_owns {op : Op} (owns : Owns s) (admitted : Admitted s op) : Owns (step s op) := by
  cases op with
  | put t fd poolSize idleTimeout now => exact put_owns owns admitted poolSize idleTimeout now
  | take t => exact take_owns owns t
  | sweep now => exact sweep_owns owns now

theorem run_owns {ops : List Op} (admitted : Guarded step Admitted World.init ops) :
    Owns (run step World.init ops) :=
  run_invariant (fun _ _ owns admitted => step_owns owns admitted) init_owns admitted

theorem step_length_le (t : Target) {n : Int} (op : Op)
    (bound : ((conns s.pools t.key).length : Int) ≤ n) :
    ((conns (step s op).pools t.key).length : Int) ≤ largest t n [op] := by
  cases op with
  | put t' fd poolSize idleTimeout now =>
    have own : keepalivePoolKey t'.host t'.port = t'.key := rfl
    unfold step keepalivePoolPut largest largest
    dsimp only
    rw [own]
    by_cases same : t' = t
    · subst same
      rw [if_pos rfl]
      by_cases full : poolSize ≤ (conns s.pools t'.key).length
      · rw [if_pos full, conns_setConns, if_pos rfl]
        omega
      · rw [if_neg full, conns_setConns, if_pos rfl, List.length_append, List.length_singleton]
        omega
    · have other : t'.key ≠ t.key := fun keys => same (key_injective keys)
      rw [if_neg same]
      split
      · rw [conns_setConns, if_neg other]
        exact bound
      · rw [conns_setConns, if_neg other]
        exact bound
  | take t' =>
    unfold step keepalivePoolTake
    dsimp only
    cases (conns s.pools (keepalivePoolKey t'.host t'.port)).getLast? with
    | none => exact bound
    | some pc =>
      dsimp only
      rw [conns_setConns]
      split
      · rename_i same
        rw [same, List.length_dropLast]
        change _ ≤ n
        omega
      · exact bound
  | sweep now =>
    change ((conns (sweep s.pools now).2 t.key).length : Int) ≤ n
    rw [conns_sweep]
    have shorter := List.length_filter_le (fun pc => !expired now pc) (conns s.pools t.key)
    omega

theorem run_length_le (t : Target) {n : Int} (ops : List Op)
    (bound : ((conns s.pools t.key).length : Int) ≤ n) :
    ((conns (run step s ops).pools t.key).length : Int) ≤ largest t n ops := by
  induction ops generalizing s n with
  | nil => exact bound
  | cons op ops ih =>
    have first : largest t n (op :: ops) = largest t (largest t n [op]) ops := by
      cases op <;> rfl
    rw [first]
    exact ih (step_length_le t op bound)

/-- After any calls, each with a descriptor that is not pooled: the log is linear; what comes
next for a descriptor that has been put in is that it is handed out for its own target, or
closed, or nothing, and then it is pooled once, under its own key. A list never grows beyond the
largest pool size of its target, and a sweep closes what has been idle for too long and keeps the
rest in order. -/
theorem pool_owns (ops : List Op) (admitted : Guarded step Admitted World.init ops) :
    let s := run step World.init ops
    Owns s ∧
      (∀ (before after : List (Entry Target Nat)) (t : Target) (fd : Nat),
        s.log = before ++ .put t fd :: after →
        match after.find? (·.item = fd) with
        | none => fd ∈ idle s.pools t ∧ (pooledFds s.pools).count fd = 1
        | some (.put _ _) => False
        | some (.given t' _) => t' = t
        | some (.closed _) => True) ∧
      (∀ t : Target, ((conns s.pools t.key).length : Int) ≤ largest t 0 ops) ∧
      ∀ now, (sweep s.pools now).1 = s.pools.flatMap (fun e => (e.2.filter (expired now)).map (·.fd)) ∧
        ∀ key, conns (sweep s.pools now).2 key =
          (conns s.pools key).filter fun pc => !expired now pc := by
  intro s
  have owns : Owns s := run_owns admitted
  refine ⟨owns, ?_, fun t => run_length_le t ops (Int.le_refl 0), fun now => ⟨?_, conns_sweep _ now⟩⟩
  · intro before after t fd split
    have next := (split ▸ owns.linear : Linear (before ++ .put t fd :: after)).next
    rw [← split] at next
    cases found : after.find? (·.item = fd) with
    | none =>
      rw [found] at next
      have listed : fd ∈ idle s.pools t := (owns.held t fd).mp next
      exact ⟨listed, owns.once.count.trans (if_pos (idle_pooled listed))⟩
    | some e =>
      rw [found] at next
      cases e <;> exact next
  · rw [sweep_eq]
    rfl

theorem sample_short : (ascii "app").length < 256 := by decide

theorem sample_int : 8000 < 2 ^ 31 := by decide

def sampleTarget : Target := ⟨ascii "app", 8000, sample_short, sample_int⟩

/-- A connection that is pooled, reused and pooled again, one that is put into a full pool, and a
sweep that closes the first. -/
def sampleCalls : List Op :=
  [.put sampleTarget 5 1 60 0, .take sampleTarget, .put sampleTarget 5 1 60 10,
    .put sampleTarget 6 1 60 11, .sweep 100]

theorem pool_owns_sample : Guarded step Admitted World.init sampleCalls ∧
    Owns (run step World.init sampleCalls) :=
  ⟨by decide +kernel, (pool_owns sampleCalls (by decide +kernel)).1⟩

end PoolOwnership
