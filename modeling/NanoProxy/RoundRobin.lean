import NanoProxy.Lib.CyclicProbe
import NanoProxy.PoolCounters

/-!
# The turns of a round robin

Whatever else the loop does, a pool in this mode is asked for one target after the other. While
its targets are healthy each has its turn, but for the wrap of the counter.
-/

namespace RoundRobin

open CLib EventLoop CallTrace ListenerRouting LoadBalancer PoolCounters Runs CyclicProbe

/-- The same pool with other counts of connections and other times of health. -/
structure Same (p q : UpstreamPool) : Prop where
  balance : q.balance = p.balance
  rrCounter : q.rrCounter = p.rrCounter
  urls : q.targets.map (·.1) = p.targets.map (·.1)

theorem Same.refl (p : UpstreamPool) : Same p p := ⟨rfl, rfl, rfl⟩

theorem Same.trans {p q r : UpstreamPool} (h : Same p q) (h' : Same q r) : Same p r :=
  ⟨h'.balance.trans h.balance, h'.rrCounter.trans h.rrCounter, h'.urls.trans h.urls⟩

/-- The pool of that name is the same, up to its targets' data. -/
def Keeps (name : Bytes) (pool : UpstreamPool) (pools : UpstreamPools) : Prop :=
  ∃ q, StringMap.get name pools = some q ∧ Same pool q

variable {name : Bytes} {pool : UpstreamPool} {pools : UpstreamPools}

theorem Keeps.onTarget (h : Keeps name pool pools) (ref : PoolRef)
    (f : UpstreamPool → UpstreamTarget → UpstreamTarget) :
    Keeps name pool (onTarget ref f pools) := by
  obtain ⟨q, found, same⟩ := h
  rw [Keeps, LoadBalancer.onTarget, StringMap.get_adjust, found]
  split
  · exact ⟨_, rfl, same.trans ⟨rfl, rfl, StringMap.adjust_keys ..⟩⟩
  · exact ⟨q, rfl, same⟩

theorem Keeps.release (h : Keeps name pool pools) (ref : Option PoolRef) :
    Keeps name pool (release ref pools) := by
  cases ref with
  | none => exact h
  | some ref => exact h.onTarget ref _

theorem Keeps.markDown (h : Keeps name pool pools) (now : Option Int) (ref : Option PoolRef) :
    Keeps name pool (markDown now ref pools) := by
  cases now with
  | none => exact h
  | some now => cases ref with
    | none => exact h
    | some ref => exact h.onTarget ref _

theorem Keeps.account {t : PoolTables} (h : Keeps name pool t.pools) (claim : Option PoolRef)
    (down : Option Int) (call : Call) : Keeps name pool (account claim down t call).pools := by
  unfold PoolCounters.account
  split
  · exact h
  · exact h.release claim
  · exact (h.markDown down _).release _
  · exact h

theorem Keeps.accounts {t : PoolTables} (h : Keeps name pool t.pools) (claim : Option PoolRef)
    (down : Option Int) (calls : List Call) :
    Keeps name pool (calls.foldl (PoolCounters.account claim down) t).pools := by
  induction calls generalizing t with
  | nil => exact h
  | cons call calls ih => exact ih (h.account claim down call)

/-- The slot of the request that asks the pool. -/
def asks (name : Bytes) (s : State) (e : PoolCounters.Event) : Option Nat :=
  match dispatches s.world e.loop, e.location with
  | some i, some loc =>
    if (ascii "upstream://").isPrefixOf loc.realPath ∧ loc.realPath.drop 11 = name then some i
    else none
  | _, _ => none

/-- The target that the pool gives to it. -/
def pick (name : Bytes) (s : State) (e : PoolCounters.Event) : Option Bytes :=
  (asks name s e).bind fun i =>
    let cd := s.world.clients i
    (upstreamPoolResolve name cd.info.addr cd.fd s.world.now e.rand s.tables.pools).1

/-- The targets that the pool gives in a run. -/
def picks (name : Bytes) : State → List PoolCounters.Event → List Bytes
  | _, [] => []
  | s, e :: es => (pick name s e).toList ++ picks name (step s e) es

/-- When the pool is asked, no target is marked down. -/
def Healthy (name : Bytes) (s : State) (e : PoolCounters.Event) : Prop :=
  (asks name s e).isSome = true → ∀ pool ∈ StringMap.get name s.tables.pools,
    ∀ target ∈ pool.targets, targetHealthy s.world.now target.2 = true

instance (name : Bytes) (s : State) (e : PoolCounters.Event) : Decidable (Healthy name s e) :=
  inferInstanceAs (Decidable ((asks name s e).isSome = true →
    ∀ pool ∈ StringMap.get name s.tables.pools, ∀ target ∈ pool.targets,
      targetHealthy s.world.now target.2 = true))

theorem Keeps.selectUpstream {loc : Location} (h : Keeps name pool pools) (cd : ClientData)
    (now : Int) (rand : Nat)
    (other : ¬((ascii "upstream://").isPrefixOf loc.realPath ∧ loc.realPath.drop 11 = name)) :
    Keeps name pool (selectUpstream loc cd now rand pools).2 := by
  unfold LoadBalancer.selectUpstream
  split
  · rename_i upstream
    have different : loc.realPath.drop 11 ≠ name := fun same => other ⟨upstream, same⟩
    have resolved : Keeps name pool (upstreamPoolResolve (loc.realPath.drop 11) cd.info.addr cd.fd
        now rand pools).2 := by
      unfold upstreamPoolResolve
      split
      · exact h
      split
      · exact h
      · rw [Keeps, StringMap.get_adjust, if_neg different]
        exact h
    dsimp only
    generalize upstreamPoolResolve (loc.realPath.drop 11) cd.info.addr cd.fd now rand pools =
      result at *
    obtain ⟨url, pools'⟩ := result
    cases url with
    | none => exact resolved
    | some url => exact resolved.onTarget _ _
  · exact h

/-- The pool moves on by one. -/
theorem selectUpstream_turn {loc : Location} (found : StringMap.get name pools = some pool)
    (nonempty : pool.targets ≠ []) (cd : ClientData) (now : Int) (rand : Nat)
    (asked : (ascii "upstream://").isPrefixOf loc.realPath ∧ loc.realPath.drop 11 = name) :
    Keeps name (countRoundRobin pool) (selectUpstream loc cd now rand pools).2 := by
  obtain ⟨upstream, rfl⟩ := asked
  have resolved : Keeps (loc.realPath.drop 11) (countRoundRobin pool)
      (upstreamPoolResolve (loc.realPath.drop 11) cd.info.addr cd.fd now rand pools).2 := by
    rw [upstreamPoolResolve, found]
    dsimp only
    rw [if_neg nonempty, Keeps, StringMap.get_adjust, if_pos rfl, found]
    exact ⟨_, rfl, .refl _⟩
  unfold LoadBalancer.selectUpstream
  rw [if_pos upstream]
  dsimp only
  generalize upstreamPoolResolve (loc.realPath.drop 11) cd.info.addr cd.fd now rand pools =
    result at *
  obtain ⟨url, pools'⟩ := result
  cases url with
  | none => exact resolved
  | some url => exact resolved.onTarget _ _

/-- The target of the turn `j` after the count `c`. -/
def turn (urls : List Bytes) (c j : Nat) : Bytes :=
  urls.getD ((c + j) % 2 ^ 32 % urls.length) []

def urls (pool : UpstreamPool) : List Bytes := pool.targets.map (·.1)

theorem firstHealthy_first {now : Int} {targets : List (Bytes × UpstreamTarget)} {index : Nat → Nat}
    (healthy : ∀ target ∈ targets, targetHealthy now target.2 = true)
    (inside : index 0 < targets.length) :
    firstHealthy now targets index = some ((targets.map (·.1)).getD (index 0) []) := by
  obtain ⟨n, length⟩ : ∃ n, targets.length = n + 1 := ⟨targets.length - 1, by omega⟩
  have listed : targets[index 0] ∈ targets := List.getElem_mem inside
  rw [firstHealthy, length, List.range_succ_eq_map, List.findSome?_cons,
    List.getElem?_eq_getElem inside]
  dsimp only
  rw [if_pos (healthy _ listed), List.getD_eq_getElem?_getD, List.getElem?_map,
    List.getElem?_eq_getElem inside]
  rfl

theorem resolve_turn {ip : Bytes} {fd rand : Nat} {now : Int}
    (found : StringMap.get name pools = some pool) (mode : pool.balance = .roundRobin)
    (nonempty : pool.targets ≠ [])
    (healthy : ∀ target ∈ pool.targets, targetHealthy now target.2 = true) :
    (upstreamPoolResolve name ip fd now rand pools).1 = some (turn (urls pool) pool.rrCounter 0) := by
  have positive := List.length_pos_iff.mpr nonempty
  rw [upstreamPoolResolve, found]
  dsimp only
  rw [if_neg nonempty, chooseTarget, mode]
  dsimp only
  rw [firstHealthy_first healthy (Nat.mod_lt _ positive), turn, urls, List.length_map]

variable {s : State} {e : PoolCounters.Event}

/-- The pool between two events: the balance, the targets and the count of a round robin. -/
structure Rotates (name : Bytes) (urls : List Bytes) (c : Nat) (s : State) : Prop where
  pool : ∃ pool, StringMap.get name s.tables.pools = some pool ∧ pool.balance = .roundRobin ∧
    RoundRobin.urls pool = urls ∧ pool.rrCounter = c

theorem Keeps.rotates {t : State} (h : Keeps name pool t.tables.pools)
    (mode : pool.balance = .roundRobin) : Rotates name (urls pool) pool.rrCounter t := by
  obtain ⟨q, found, same⟩ := h
  exact ⟨q, found, same.balance.trans mode, same.urls, same.rrCounter⟩

theorem Keeps.step (h : Keeps name pool (serve s e).2.2) :
    Keeps name pool (step s e).tables.pools :=
  Keeps.accounts (t := ⟨(serve s e).2.2, s.tables.entries⟩) h _ _ _

/-- The pools behind the selection, and behind the refusal of a URL. -/
theorem Keeps.serve {sel : Selection} (chosen : selection s e = some (sel, pools))
    (h : Keeps name pool pools) : Keeps name pool (serve s e).2.2 := by
  unfold PoolCounters.serve
  rw [chosen]
  cases sel with
  | rejected ref => exact h
  | unresolved ref => exact h.release ref
  | selected ref route => exact h

/-- An event that asks another pool or none. -/
theorem step_other (found : StringMap.get name s.tables.pools = some pool)
    (other : asks name s e = none) : Keeps name pool (step s e).tables.pools := by
  have here : Keeps name pool s.tables.pools := ⟨pool, found, .refl pool⟩
  apply Keeps.step
  cases chosen : selection s e with
  | none =>
    unfold PoolCounters.serve
    rw [chosen]
    exact here
  | some selected =>
    obtain ⟨sel, pools⟩ := selected
    refine .serve chosen ?_
    unfold selection at chosen
    unfold asks at other
    split at chosen
    · rename_i i loc calls location
      rw [calls, location] at other
      dsimp only at other
      split at other
      · cases other
      rename_i different
      have kept := here.selectUpstream (s.world.clients i) s.world.now e.rand different
      rwa [Option.some.inj chosen] at kept
    · cases chosen

theorem asks_some {i : Nat} (asked : asks name s e = some i) :
    ∃ loc, selection s e = some
        (selectUpstream loc (s.world.clients i) s.world.now e.rand s.tables.pools) ∧
      ((ascii "upstream://").isPrefixOf loc.realPath ∧ loc.realPath.drop 11 = name) := by
  unfold asks at asked
  split at asked
  · rename_i j loc calls location
    split at asked
    · rename_i upstream
      cases asked
      refine ⟨loc, ?_, upstream⟩
      rw [selection, calls, location]
    · cases asked
  · cases asked

/-- An event that asks the pool. -/
theorem step_turn {i : Nat} (found : StringMap.get name s.tables.pools = some pool)
    (nonempty : pool.targets ≠ []) (asked : asks name s e = some i) :
    Keeps name (countRoundRobin pool) (step s e).tables.pools := by
  obtain ⟨loc, chosen, upstream⟩ := asks_some asked
  have turned := selectUpstream_turn found nonempty (s.world.clients i) s.world.now e.rand upstream
  apply Keeps.step
  exact .serve chosen turned

theorem turn_succ (urls : List Bytes) (c j : Nat) :
    turn urls ((c + 1) % 2 ^ 32) j = turn urls c (j + 1) := by
  have number : ((c + 1) % 2 ^ 32 + j) % 2 ^ 32 = (c + (j + 1)) % 2 ^ 32 := by omega
  rw [turn, turn, number]

/-- What the pool gives in a run are the turns from its count on. -/
theorem picks_turns {us : List Bytes} (es : List PoolCounters.Event) {c : Nat}
    (nonempty : us ≠ []) (rotates : Rotates name us c s)
    (healthy : Guarded PoolCounters.step (Healthy name) s es) :
    picks name s es = (List.range (picks name s es).length).map (turn us c) := by
  induction es generalizing s c with
  | nil => rfl
  | cons e es ih =>
    obtain ⟨⟨pool, found, mode, rfl, rfl⟩⟩ := rotates
    obtain ⟨here, later⟩ := healthy
    have targets : pool.targets ≠ [] := fun none => nonempty (List.map_eq_nil_iff.mpr none)
    rw [picks]
    cases asked : asks name s e with
    | none =>
      have nothing : pick name s e = none := by rw [pick, asked, Option.bind_none]
      rw [nothing]
      exact ih (Keeps.rotates (step_other found asked) mode) later
    | some i =>
      have ill := here (asked ▸ rfl) pool found
      have given : pick name s e = some (turn (urls pool) pool.rrCounter 0) := by
        rw [pick, asked, Option.bind_some]
        exact resolve_turn found mode targets ill
      have counted : countRoundRobin pool =
          { pool with rrCounter := (pool.rrCounter + 1) % 2 ^ 32 } := by
        rw [countRoundRobin, if_pos mode]
      have turned := step_turn found targets asked
      rw [counted] at turned
      have next : picks name (step s e) es = _ := ih (turned.rotates mode) later
      rw [given, Option.toList_some, List.singleton_append, List.length_cons,
        List.range_succ_eq_map, List.map_cons, List.map_map]
      refine congrArg _ (next.trans ?_)
      exact List.map_congr_left fun j _ => turn_succ (urls pool) pool.rrCounter j

theorem registered_zero (groups : List UpstreamGroup) :
    ∀ entry ∈ registered groups, entry.2.rrCounter = 0 := by
  unfold registered
  apply List.foldlRecOn
    (motive := fun pools : UpstreamPools => ∀ entry ∈ pools, entry.2.rrCounter = 0)
  · exact fun _ listed => absurd listed List.not_mem_nil
  · intro pools old g listed
    exact StringMap.put_forall (p := fun entry : Bytes × UpstreamPool => entry.2.rrCounter = 0) old
      rfl

theorem count_turns {us : List Bytes} (distinct : us.Nodup) {i : Nat} (here : i < us.length)
    (c m : Nat) :
    ((List.range m).map (turn us c)).count us[i] = turns (2 ^ 32) us.length c i m := by
  rw [List.count, List.countP_map, turns, Nat.count]
  refine List.countP_congr fun j _ => ?_
  have inside : (c + j) % 2 ^ 32 % us.length < us.length :=
    Nat.mod_lt _ (Nat.lt_of_le_of_lt (Nat.zero_le i) here)
  rw [decide_eq_true_iff, Function.comp_apply, beq_iff_eq, turn,
    List.getD_eq_getElem?_getD, List.getElem?_eq_getElem inside, Option.getD_some]
  exact distinct.getElem_inj_iff

/-- In every run of the server, while the targets of a round robin are healthy whenever it is
asked, no target is given more than one turn more than another, but for the wraps of the
counter, and these cost nothing if the number of targets divides the word. The pool lists no
target twice; one that it lists twice has two turns. -/
theorem picks_fair {groups : List UpstreamGroup}
    (found : StringMap.get name (registered groups) = some pool)
    (mode : pool.balance = .roundRobin) (single : (urls pool).Nodup)
    (es : List PoolCounters.Event)
    (healthy : Guarded PoolCounters.step (Healthy name) (State.init groups) es)
    {url url' : Bytes} (listed : url ∈ urls pool) (listed' : url' ∈ urls pool) :
    let given := picks name (State.init groups) es
    given.count url ≤ given.count url' + (given.length - 1) / 2 ^ 32 + 1 ∧
      ((urls pool).length ∣ 2 ^ 32 → given.count url ≤ given.count url' + 1) := by
  have entry := StringMap.mem_of_get found
  have zero : pool.rrCounter = 0 := registered_zero groups _ entry
  have rotates : Rotates name (urls pool) 0 (State.init groups) := ⟨pool, found, mode, rfl, zero⟩
  have all := picks_turns es (List.ne_nil_of_mem listed) rotates healthy
  obtain ⟨i, here, rfl⟩ := List.mem_iff_getElem.mp listed
  obtain ⟨k, there, rfl⟩ := List.mem_iff_getElem.mp listed'
  dsimp only
  generalize picks name (State.init groups) es = given at all
  have first := count_turns single here 0 given.length
  have second := count_turns single there 0 given.length
  rw [← all] at first second
  rw [first, second]
  refine ⟨?_, fun even => turns_even even here there⟩
  have turn := turns_le (m := given.length) (show 0 < 2 ^ 32 by decide) here there
  rwa [Nat.zero_add] at turn

def apiPools : List UpstreamGroup :=
  [⟨ascii "api", [ascii "http://10.0.0.1:8001", ascii "http://10.0.0.2:8001"], none, 0, 0⟩]

/-- Two clients with a request each for `upstream://api`. -/
def apiRequests : List PoolCounters.Event :=
  let request (c u : Fd) : List PoolCounters.Event :=
    [⟨.accept (httpClient c), none, 0⟩,
      ⟨.clientReadable c (.data (ascii "GET / HTTP/1.1\r\n\r\n"))
        ⟨none, .written, false, some u, .again⟩, some ⟨ascii "upstream://api", none⟩, 0⟩]
  request 5 6 ++ request 7 8

def apiTargets : UpstreamPool where
  targets := [(ascii "http://10.0.0.1:8001", ⟨0, 0⟩), (ascii "http://10.0.0.2:8001", ⟨0, 0⟩)]
  balance := .roundRobin
  rrCounter := 0
  retryTimeout := 30
  proxyTimeout := 5

theorem picks_fair_sample :
    let given := picks (ascii "api") (State.init apiPools) apiRequests
    given.count (ascii "http://10.0.0.1:8001") ≤
        given.count (ascii "http://10.0.0.2:8001") + (given.length - 1) / 2 ^ 32 + 1 ∧
      ((urls apiTargets).length ∣ 2 ^ 32 → given.count (ascii "http://10.0.0.1:8001") ≤
        given.count (ascii "http://10.0.0.2:8001") + 1) :=
  have found : StringMap.get (ascii "api") (registered apiPools) = some apiTargets := by decide
  picks_fair found rfl (by decide) apiRequests (by decide +kernel) (by decide) (by decide)

example : picks (ascii "api") (State.init apiPools) apiRequests =
    [ascii "http://10.0.0.1:8001", ascii "http://10.0.0.2:8001"] := by decide +kernel

end RoundRobin
