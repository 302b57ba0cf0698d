import NanoProxy.Lib.Runs
import NanoProxy.TargetSelection

/-!
# The penalty of a target

`upstream_pool_mark_down` keeps the time until which a target is not to be used with the first
target that has the URL. A second one of the same URL stays in use.
-/

namespace TargetPenalty

open CLib LoadBalancer TargetSelection Runs

/-- A call on the pools. -/
inductive Call where
  | resolve (name clientIp : Bytes) (clientFd rand : Nat)
  | incConn (ref : PoolRef)
  | decConn (ref : PoolRef)
  | markDown (ref : PoolRef)

/-- `now` is what `time(NULL)` gives. -/
structure Event where
  now : Nat
  call : Call

structure State where
  now : Nat
  pools : UpstreamPools

def State.init (groups : List UpstreamGroup) : State := ⟨0, registered groups⟩

def step (s : State) (e : Event) : State where
  now := e.now
  pools := match e.call with
    | .resolve name clientIp clientFd rand =>
      (upstreamPoolResolve name clientIp clientFd e.now rand s.pools).2
    | .incConn ref => upstreamPoolIncConn ref s.pools
    | .decConn ref => upstreamPoolDecConn ref s.pools
    | .markDown ref => upstreamPoolMarkDown ref e.now s.pools

/-- The time does not go back. -/
def InOrder (s : State) (e : Event) : Prop := s.now ≤ e.now

/-- A target that was marked down is not chosen before its time is over. -/
def SkipsMarkedDown (groups : List UpstreamGroup) (name : Bytes) (pool : UpstreamPool) : Prop :=
  ∀ (url : Bytes) (before later : List Event) (t now : Nat) (clientIp : Bytes)
    (clientFd rand : Nat),
    Guarded step InOrder (State.init groups) (before ++ ⟨t, .markDown ⟨name, url⟩⟩ :: later ++
      [⟨now, .resolve name clientIp clientFd rand⟩]) →
    (now : Int) < t + pool.retryTimeout →
    (upstreamPoolResolve name clientIp clientFd now rand
      (run step (State.init groups) (before ++ ⟨t, .markDown ⟨name, url⟩⟩ :: later)).pools).1 ≠
        some url

variable {groups : List UpstreamGroup} {name clientIp url : Bytes} {pool p : UpstreamPool}
  {pools : UpstreamPools} {clientFd rand : Nat} {limit : Int} {now : Nat}

/-- A pool as it is registered. -/
structure Fresh (pool : UpstreamPool) : Prop where
  few : pool.targets.length ≤ MAX_UPSTREAM_TARGETS
  healthy : ∀ e ∈ pool.targets, e.2 = ⟨0, 0⟩
  counter : pool.rrCounter = 0
  retry : 0 < pool.retryTimeout

theorem registered_fresh (groups : List UpstreamGroup) : ∀ entry ∈ registered groups, Fresh entry.2 := by
  unfold registered
  apply List.foldlRecOn (motive := fun pools : UpstreamPools => ∀ entry ∈ pools, Fresh entry.2)
  · exact List.forall_mem_nil _
  · intro pools old g _
    refine StringMap.put_forall (p := fun entry : Bytes × UpstreamPool => Fresh entry.2) old ?_
    constructor
    · dsimp only
      rw [List.length_map]
      exact List.length_take_le _ _
    · intro e listed
      obtain ⟨url, _, rfl⟩ := List.mem_map.mp listed
      rfl
    · rfl
    · dsimp only
      split
      · rename_i positive
        exact positive
      · decide

def onUrl (url : Bytes) (f : UpstreamTarget → UpstreamTarget) (pool : UpstreamPool) : UpstreamPool :=
  { pool with targets := StringMap.adjust url f pool.targets }

def down (time : Int) (t : UpstreamTarget) : UpstreamTarget := { t with unhealthyUntil := time }

/-- What a call does to a pool. -/
inductive Touched (name : Bytes) (e : Event) (pool : UpstreamPool) : UpstreamPool → Prop
  | same : Touched name e pool pool
  | counted : Touched name e pool (countRoundRobin pool)
  | connections (url : Bytes) (f : UpstreamTarget → UpstreamTarget)
      (health : ∀ t, (f t).unhealthyUntil = t.unhealthyUntil) : Touched name e pool (onUrl url f pool)
  | marked (url : Bytes) (here : e.call = .markDown ⟨name, url⟩) :
      Touched name e pool (onUrl url (down (e.now + pool.retryTimeout)) pool)

theorem step_touched {s : State} (found : StringMap.get name s.pools = some pool) (e : Event) :
    ∃ pool', StringMap.get name (step s e).pools = some pool' ∧ Touched name e pool pool' := by
  obtain ⟨now, call⟩ := e
  have onTarget_get (ref : PoolRef) (f : UpstreamPool → UpstreamTarget → UpstreamTarget) :
      StringMap.get name (onTarget ref f s.pools) = some (if ref.poolName = name then
        onUrl ref.targetUrl (f pool) pool else pool) := by
    rw [onTarget, StringMap.get_adjust, found]
    split
    · rfl
    · rfl
  cases call with
  | resolve other clientIp clientFd rand =>
    change ∃ pool', StringMap.get name
      (upstreamPoolResolve other clientIp clientFd now rand s.pools).2 = some pool' ∧ _
    unfold upstreamPoolResolve
    split
    · exact ⟨pool, found, .same⟩
    split
    · exact ⟨pool, found, .same⟩
    · dsimp only
      rw [StringMap.get_adjust, found]
      split
      · exact ⟨_, rfl, .counted⟩
      · exact ⟨pool, rfl, .same⟩
  | incConn ref =>
    refine ⟨_, onTarget_get ref _, ?_⟩
    split
    · exact .connections _ _ fun _ => rfl
    · exact .same
  | decConn ref =>
    refine ⟨_, onTarget_get ref _, ?_⟩
    split
    · apply Touched.connections
      intro t
      split
      · rfl
      · rfl
    · exact .same
  | markDown ref =>
    refine ⟨_, onTarget_get ref _, ?_⟩
    split
    · rename_i here
      exact .marked ref.targetUrl (by rw [← here])
    · exact .same

theorem Touched.keys {e : Event} (h : Touched name e pool p) :
    p.targets.map (·.1) = pool.targets.map (·.1) := by
  cases h with
  | same => rfl
  | counted => rw [countRoundRobin_targets]
  | connections => exact StringMap.adjust_keys ..
  | marked => exact StringMap.adjust_keys ..

theorem Touched.retry {e : Event} (h : Touched name e pool p) :
    p.retryTimeout = pool.retryTimeout := by
  cases h with
  | counted =>
    unfold countRoundRobin
    split
    · rfl
    · rfl
  | _ => rfl

/-- The targets of this URL are not to be used until then. -/
def Penalised (url : Bytes) (limit : Int) (pool : UpstreamPool) : Prop :=
  ∀ e ∈ pool.targets, e.1 = url → limit ≤ e.2.unhealthyUntil

theorem Penalised.touched {e : Event} (h : Penalised url limit pool)
    (touched : Touched name e pool p) (later : limit ≤ e.now + pool.retryTimeout) :
    Penalised url limit p := by
  cases touched with
  | same => exact h
  | counted =>
    rw [Penalised, countRoundRobin_targets]
    exact h
  | connections other f health =>
    apply StringMap.adjust_forall (p := fun e : Bytes × UpstreamTarget => e.1 = url →
      limit ≤ e.2.unhealthyUntil) h
    intro t old same
    rw [health]
    exact old same
  | marked other here =>
    apply StringMap.adjust_forall (p := fun e : Bytes × UpstreamTarget => e.1 = url →
      limit ≤ e.2.unhealthyUntil) h
    intro t _ _
    exact later

/-- Of targets with different URLs the only one of this URL is marked down. -/
theorem penalised_down (single : pool.Single) (url : Bytes) (time : Int) :
    Penalised url time (onUrl url (down time) pool) := by
  rintro ⟨u, t⟩ listed same
  dsimp only at same
  subst u
  have distinct : (onUrl url (down time) pool).Single := by
    rw [UpstreamPool.Single, onUrl, StringMap.adjust_keys]
    exact single
  have stored := StringMap.get_of_mem distinct listed
  rw [onUrl, StringMap.get_adjust, if_pos rfl] at stored
  obtain ⟨t', _, rfl⟩ := Option.map_eq_some_iff.mp stored
  exact Int.le_refl time

/-- A target that waits for its time is not chosen. -/
theorem Penalised.not_chosen (h : Penalised url limit pool) (early : (now : Int) < limit) :
    chooseTarget clientIp clientFd now rand pool ≠ some url := by
  intro found
  obtain ⟨t, listed, healthy⟩ := chooseTarget_healthy found
  have waits : limit ≤ t.unhealthyUntil := h _ listed rfl
  simp only [targetHealthy, Bool.or_eq_true, decide_eq_true_eq] at healthy
  omega

/-- The pool of that name has these targets and this timeout. -/
def Same (name : Bytes) (pool : UpstreamPool) (s : State) : Prop :=
  ∃ p, StringMap.get name s.pools = some p ∧ p.targets.map (·.1) = pool.targets.map (·.1) ∧
    p.retryTimeout = pool.retryTimeout

/-- Behind a mark-down at the time `t` -/
def Waits (name url : Bytes) (pool : UpstreamPool) (t : Nat) (s : State) : Prop :=
  t ≤ s.now ∧ ∃ p, StringMap.get name s.pools = some p ∧ p.retryTimeout = pool.retryTimeout ∧
    Penalised url (t + pool.retryTimeout) p

theorem Same.step {s : State} (h : Same name pool s) (e : Event) : Same name pool (step s e) := by
  obtain ⟨p, found, keys, retry⟩ := h
  obtain ⟨p', found', touched⟩ := step_touched found e
  exact ⟨p', found', touched.keys.trans keys, touched.retry.trans retry⟩

theorem Waits.step {s : State} {t : Nat} (h : Waits name url pool t s) (e : Event)
    (order : InOrder s e) : Waits name url pool t (step s e) := by
  obtain ⟨after, p, found, retry, waits⟩ := h
  obtain ⟨p', found', touched⟩ := step_touched found e
  have later : t ≤ e.now := Nat.le_trans after order
  refine ⟨later, p', found', touched.retry.trans retry, waits.touched touched ?_⟩
  rw [retry]
  omega

theorem waits_of_same {s : State} (h : Same name pool s) (single : pool.Single) (t : Nat) (url : Bytes) :
    Waits name url pool t (step s ⟨t, .markDown ⟨name, url⟩⟩) := by
  obtain ⟨p, found, keys, retry⟩ := h
  refine ⟨Nat.le_refl t, onUrl url (down (t + pool.retryTimeout)) p, ?_, retry, ?_⟩
  · change StringMap.get name (onTarget _ _ _) = _
    rw [onTarget, StringMap.get_adjust, if_pos rfl, found, ← retry]
    rfl
  · apply penalised_down
    rw [UpstreamPool.Single, keys]
    exact single

theorem skips_of_single (found : StringMap.get name (registered groups) = some pool)
    (single : pool.Single) : SkipsMarkedDown groups name pool := by
  intro url before later t now clientIp clientFd rand ordered early
  have same := @run_always _ _ step (Same name pool) (fun _ e h => h.step e) (State.init groups)
    ⟨pool, found, rfl, rfl⟩ before
  rw [List.append_assoc, guarded_append] at ordered
  obtain ⟨_, _, rest⟩ := ordered
  obtain ⟨middle, _⟩ := guarded_append.mp rest
  have waits := @run_invariant _ _ step InOrder (Waits name url pool t)
    (fun _ e h ok => h.step e ok) _ later (waits_of_same same single t url) middle
  obtain ⟨_, p, inPool, _, penalised⟩ := waits
  rw [run_append]
  change (upstreamPoolResolve name clientIp clientFd now rand
    (run step (step (run step (State.init groups) before) _) later).pools).1 ≠ some url
  rw [upstreamPoolResolve, inPool]
  dsimp only
  split
  · rintro ⟨⟩
  · exact penalised.not_chosen early

/-- A healthy target behind another one with the same URL -/
def Shadowed (url : Bytes) (pool : UpstreamPool) : Prop :=
  ∃ a b, pool.targets = a ++ (url, ⟨0, 0⟩) :: b ∧ url ∈ a.map (·.1)

theorem Shadowed.onUrl (h : Shadowed url pool) (other : Bytes) (f : UpstreamTarget → UpstreamTarget) :
    Shadowed url (onUrl other f pool) := by
  obtain ⟨a, b, targets, first⟩ := h
  unfold Shadowed TargetPenalty.onUrl
  dsimp only
  rw [targets, StringMap.adjust_append]
  split
  · exact ⟨_, b, rfl, by rw [StringMap.adjust_keys]; exact first⟩
  · rename_i absent
    have apart : url ≠ other := by
      rintro rfl
      exact absent first
    exact ⟨a, _, by rw [StringMap.adjust, if_neg apart], first⟩

theorem shadowed_of_repeated (fresh : Fresh pool) (repeated : ¬pool.Single) :
    ∃ url, Shadowed url pool := by
  unfold Shadowed
  have healthy := fresh.healthy
  unfold UpstreamPool.Single at repeated
  generalize pool.targets = targets at healthy repeated
  induction targets using List.reverseRecOn with
  | nil => exact absurd List.nodup_nil repeated
  | append_singleton targets e ih =>
    obtain ⟨before, last⟩ := List.forall_mem_append.mp healthy
    by_cases distinct : (targets.map (·.1)).Nodup
    · refine ⟨e.1, targets, [], ?_, ?_⟩
      · rw [← last e List.mem_cons_self]
      · by_contra absent
        apply repeated
        rw [List.map_append, List.map_singleton, List.nodup_append]
        refine ⟨distinct, List.nodup_singleton _, ?_⟩
        intro k listed k' here
        rw [List.mem_singleton.mp here]
        rintro rfl
        exact absent listed
    · obtain ⟨url, a, b, rfl, first⟩ := ih before distinct
      exact ⟨url, a, b ++ [e], by rw [List.append_assoc, List.cons_append], first⟩

/-- The pool after some mark-downs -/
structure Spared (name url : Bytes) (pool : UpstreamPool) (s : State) (p : UpstreamPool) : Prop where
  found : StringMap.get name s.pools = some p
  keys : p.targets.map (·.1) = pool.targets.map (·.1)
  shadowed : Shadowed url p
  counter : p.rrCounter = 0

theorem Spared.markDown {s : State} (h : Spared name url pool s p) (other : Bytes) :
    Spared name url pool (step s ⟨0, .markDown ⟨name, other⟩⟩)
      (onUrl other (down ((0 : Nat) + p.retryTimeout)) p) where
  found := by
    change StringMap.get name (onTarget _ _ _) = _
    rw [onTarget, StringMap.get_adjust, if_pos rfl, h.found]
    rfl
  keys := (StringMap.adjust_keys ..).trans h.keys
  shadowed := h.shadowed.onUrl other _
  counter := h.counter

/-- The choice falls on some target as long as one is spared. -/
theorem Spared.chosen {s : State} (h : Spared name url pool s p)
    (few : p.targets.length ≤ MAX_UPSTREAM_TARGETS) :
    ∃ u ∈ pool.targets.map (·.1), (upstreamPoolResolve name [] 0 (0 : Nat) 0 s.pools).1 = some u := by
  obtain ⟨a, b, targets, first⟩ := h.shadowed
  have listed : (url, ⟨0, 0⟩) ∈ p.targets := by
    rw [targets]
    exact List.mem_append_right _ List.mem_cons_self
  have reach : InReach (0 : Nat) p := by
    right
    split
    · refine ⟨a.length, (url, ⟨0, 0⟩), ?_, rfl, Or.inr ?_⟩
      · rw [targets, List.getElem?_append_right (Nat.le_refl _), Nat.sub_self]
        rfl
      · have positive : 0 < p.targets.length := List.length_pos_of_mem listed
        have less := Nat.mod_lt (2 ^ 32 % p.targets.length + (p.targets.length - 1 - a.length)) positive
        have sixteen : MAX_UPSTREAM_TARGETS = 16 := rfl
        rw [h.counter]
        omega
    · exact ⟨(url, ⟨0, 0⟩), listed, rfl, show 0 < INT_MAX by decide⟩
    · trivial
  have finds := (chooseTarget_iff [] 0 0 (0 : Nat) few (by rw [h.counter]; decide)).mpr reach
  rw [upstreamPoolResolve, h.found]
  dsimp only
  rw [if_neg (List.ne_nil_of_mem listed)]
  cases chosen : chooseTarget [] 0 (0 : Nat) 0 p with
  | none =>
    rw [chosen] at finds
    exact (Bool.false_ne_true (finds _ listed).symm).elim
  | some u =>
    rw [chosen] at finds
    obtain ⟨t, here, _⟩ := finds
    refine ⟨u, ?_, rfl⟩
    rw [← h.keys]
    exact List.mem_map_of_mem here

/-- The calls that mark these targets down -/
def markAll (name : Bytes) (urls : List Bytes) : List Event :=
  urls.map fun url => ⟨0, .markDown ⟨name, url⟩⟩

theorem spared_all {s : State} (h : Spared name url pool s p) (urls : List Bytes) :
    ∃ p, Spared name url pool (run step s (markAll name urls)) p := by
  induction urls generalizing s p with
  | nil => exact ⟨p, h⟩
  | cons other urls ih => exact ih (h.markDown other)

theorem guarded_zero {s : State} {es : List Event} (start : s.now = 0) (zero : ∀ e ∈ es, e.now = 0) :
    Guarded step InOrder s es := by
  induction es generalizing s with
  | nil => trivial
  | cons e es ih =>
    obtain ⟨now, zero⟩ := List.forall_mem_cons.mp zero
    exact ⟨by rw [InOrder, start]; exact Nat.zero_le _, ih now zero⟩

theorem single_of_skips (found : StringMap.get name (registered groups) = some pool)
    (skips : SkipsMarkedDown groups name pool) : pool.Single := by
  by_contra repeated
  have fresh := registered_fresh groups _ (StringMap.mem_of_get found)
  obtain ⟨url, shadowed⟩ := shadowed_of_repeated fresh repeated
  obtain ⟨p, spared⟩ := spared_all (s := State.init groups) ⟨found, rfl, shadowed, fresh.counter⟩
    (pool.targets.map (·.1))
  have few : p.targets.length ≤ MAX_UPSTREAM_TARGETS := by
    have lengths := congrArg List.length spared.keys
    rw [List.length_map, List.length_map] at lengths
    rw [lengths]
    exact fresh.few
  obtain ⟨u, listed, chosen⟩ := spared.chosen few
  -- the call that marked the chosen target down
  obtain ⟨before, later, all⟩ := List.append_of_mem listed
  have calls : markAll name (pool.targets.map (·.1)) =
      markAll name before ++ ⟨0, .markDown ⟨name, u⟩⟩ :: markAll name later := by
    rw [all, markAll, List.map_append]
    rfl
  have ordered : Guarded step InOrder (State.init groups) (markAll name before ++
      ⟨0, .markDown ⟨name, u⟩⟩ :: markAll name later ++ [⟨0, .resolve name [] 0 0⟩]) := by
    apply guarded_zero rfl
    rw [← calls]
    intro e here
    rcases List.mem_append.mp here with mark | last
    · obtain ⟨_, _, rfl⟩ := List.mem_map.mp mark
      rfl
    · rw [List.mem_singleton.mp last]
  apply skips u (markAll name before) (markAll name later) 0 0 [] 0 0 ordered
  · have positive : 0 < pool.retryTimeout := fresh.retry
    omega
  · rw [← calls, chosen]

/-- Targets that were marked down are skipped if and only if the URLs of the pool are different. -/
theorem skipsMarkedDown_iff (groups : List UpstreamGroup) (name : Bytes) (pool : UpstreamPool)
    (found : StringMap.get name (registered groups) = some pool) :
    SkipsMarkedDown groups name pool ↔ (pool.targets.map (·.1)).Nodup :=
  ⟨single_of_skips found, skips_of_single found⟩

def group (targets : List Bytes) : UpstreamGroup := ⟨ascii "app", targets, none, 0, 0⟩

def poolOf (targets : List Bytes) : UpstreamPool where
  targets := targets.map fun url => (url, ⟨0, 0⟩)
  balance := .roundRobin
  rrCounter := 0
  retryTimeout := 30
  proxyTimeout := 5

theorem skipsMarkedDown_sample :
    SkipsMarkedDown [group [ascii "http://a", ascii "http://b"]] (ascii "app")
      (poolOf [ascii "http://a", ascii "http://b"]) :=
  (skipsMarkedDown_iff [group [ascii "http://a", ascii "http://b"]] (ascii "app")
    (poolOf [ascii "http://a", ascii "http://b"]) (by decide)).mpr (by decide)

/-- A target that is listed twice is chosen a second after it was marked down. -/
theorem not_skipsMarkedDown : ¬∀ groups name pool,
    StringMap.get name (registered groups) = some pool → SkipsMarkedDown groups name pool := by
  intro always
  have skips := always [group [ascii "http://a", ascii "http://a"]] (ascii "app")
    (poolOf [ascii "http://a", ascii "http://a"]) (by decide)
  have ordered : Guarded step InOrder (State.init [group [ascii "http://a", ascii "http://a"]])
      [⟨100, .markDown ⟨ascii "app", ascii "http://a"⟩⟩, ⟨101, .resolve (ascii "app") [] 4 0⟩] :=
    ⟨Nat.zero_le 100, Nat.le_succ 100, trivial⟩
  exact skips (ascii "http://a") [] [] 100 101 [] 4 0 ordered (by decide) (by decide)

end TargetPenalty
