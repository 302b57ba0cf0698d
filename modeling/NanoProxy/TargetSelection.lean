import NanoProxy.Lib.CyclicProbe
import NanoProxy.LoadBalancer

/-!
# The choice of a healthy target

The loops of `upstream_pool_resolve` over the targets of a pool. The round robin counts in
32 bits, and passes over targets when the sum wraps.
-/

namespace TargetSelection

open CLib LoadBalancer CyclicProbe

variable {now : Int} {targets : List (Bytes × UpstreamTarget)} {index : Nat → Nat}
  {pool : UpstreamPool} {pools : UpstreamPools} {name clientIp url : Bytes} {clientFd rand : Nat}

/-- The URL of a healthy target, in the mode for few connections the one with the fewest; none
only if no target is healthy. -/
def FindsHealthy (now : Int) (pool : UpstreamPool) : Option Bytes → Prop
  | some url => ∃ t, (url, t) ∈ pool.targets ∧ targetHealthy now t = true ∧
      (pool.balance = .leastConn → ∀ other ∈ pool.targets, targetHealthy now other.2 = true →
        t.activeConnections ≤ other.2.activeConnections)
  | none => ∀ other ∈ pool.targets, targetHealthy now other.2 = false

/-- The round robin comes to the place `i`: behind the wrap of the counter, or before it among
as many places as there are numbers left. -/
def Visited (pool : UpstreamPool) (i : Nat) : Prop :=
  i + (2 ^ 32 - pool.rrCounter) < pool.targets.length ∨
    (2 ^ 32 % pool.targets.length + (pool.targets.length - 1 - i)) % pool.targets.length <
      2 ^ 32 - pool.rrCounter

/-- One of the healthy targets, if there are any, is in reach of the loop. -/
def InReach (now : Int) (pool : UpstreamPool) : Prop :=
  (∀ other ∈ pool.targets, targetHealthy now other.2 = false) ∨
    match pool.balance with
    | .roundRobin => ∃ (i : Nat) (e : Bytes × UpstreamTarget), pool.targets[i]? = some e ∧
        targetHealthy now e.2 = true ∧ Visited pool i
    | .leastConn => ∃ e ∈ pool.targets, targetHealthy now e.2 = true ∧
        e.2.activeConnections < INT_MAX
    | _ => True

theorem firstHealthy_none :
    firstHealthy now targets index = none ↔ ∀ tries < targets.length, ∀ e,
      targets[index tries]? = some e → targetHealthy now e.2 = false := by
  unfold firstHealthy
  rw [List.findSome?_eq_none_iff]
  simp only [List.mem_range]
  constructor
  · intro nothing tries few e here
    have there := nothing tries few
    rw [here] at there
    dsimp only at there
    split at there
    · cases there
    · rename_i ill
      exact Bool.eq_false_iff.mpr ill
  · intro ill tries few
    split
    · rename_i url t here
      rw [if_neg (by rw [ill tries few _ here]; exact Bool.false_ne_true)]
    · rfl

theorem firstHealthy_healthy (found : firstHealthy now targets index = some url) :
    ∃ t, (url, t) ∈ targets ∧ targetHealthy now t = true := by
  obtain ⟨tries, _, here⟩ := List.exists_of_findSome?_eq_some found
  split at here
  · rename_i url' t there
    split at here
    · rename_i healthy
      cases here
      exact ⟨t, List.mem_of_getElem? there, healthy⟩
    · cases here
  · cases here

/-- What the loop over `tries` finds is right if it is not nothing in spite of a healthy target. -/
theorem firstHealthy_iff (other : pool.balance ≠ .leastConn) :
    FindsHealthy now pool (firstHealthy now pool.targets index) ↔
      (∀ other ∈ pool.targets, targetHealthy now other.2 = false) ∨
        ∃ (i : Nat) (e : Bytes × UpstreamTarget), pool.targets[i]? = some e ∧
          targetHealthy now e.2 = true ∧ ∃ tries < pool.targets.length, index tries = i := by
  cases found : firstHealthy now pool.targets index with
  | none =>
    rw [firstHealthy_none] at found
    constructor
    · exact Or.inl
    · rintro (ill | ⟨i, e, here, healthy, tries, few, rfl⟩)
      · exact ill
      · rw [found tries few e here] at healthy
        cases healthy
  | some url =>
    obtain ⟨t, listed, healthy⟩ := firstHealthy_healthy found
    refine iff_of_true ⟨t, listed, healthy, fun same => absurd same other⟩ ?_
    right
    by_contra out
    have nothing : firstHealthy now pool.targets index = none := by
      rw [firstHealthy_none]
      intro tries few e here
      by_contra healthy
      exact out ⟨_, e, here, by simpa using healthy, tries, few, rfl⟩
    rw [found] at nothing
    cases nothing

/-- A start at any place comes to all. -/
theorem circle_finds (other : pool.balance ≠ .leastConn) (start : Nat) :
    FindsHealthy now pool (firstHealthy now pool.targets fun tries =>
      (start % pool.targets.length + tries) % pool.targets.length) := by
  rw [firstHealthy_iff other]
  by_cases ill : ∀ other ∈ pool.targets, targetHealthy now other.2 = false
  · exact Or.inl ill
  · right
    simp only [not_forall, Bool.not_eq_false] at ill
    obtain ⟨e, listed, healthy⟩ := ill
    obtain ⟨i, here⟩ := List.mem_iff_getElem?.mp listed
    obtain ⟨below, _⟩ := List.getElem?_eq_some_iff.mp here
    exact ⟨i, e, here, healthy, visits start below⟩

/-- What the loop for the fewest connections knows of the targets that it has seen. -/
def Fewest (now : Int) (seen : List (Bytes × UpstreamTarget)) :
    Option (Bytes × UpstreamTarget) → Prop
  | some e => e ∈ seen ∧ targetHealthy now e.2 = true ∧ e.2.activeConnections < INT_MAX ∧
      ∀ other ∈ seen, targetHealthy now other.2 = true →
        e.2.activeConnections ≤ other.2.activeConnections
  | none => ∀ other ∈ seen, targetHealthy now other.2 = true → INT_MAX ≤ other.2.activeConnections

theorem leastConn_fewest (now : Int) (targets : List (Bytes × UpstreamTarget)) :
    ∃ chosen, leastConn now targets = chosen.map (·.1) ∧ Fewest now targets chosen := by
  unfold leastConn
  refine ⟨_, rfl, ?_⟩
  induction targets using List.reverseRecOn with
  | nil => exact List.forall_mem_nil _
  | append_singleton seen target ih =>
    rw [List.foldl_concat]
    generalize seen.foldl _ none = chosen at ih
    cases chosen with
    | none =>
      dsimp only
      split
      · rename_i wins
        simp only [Bool.and_eq_true, decide_eq_true_eq] at wins
        refine ⟨List.mem_append_right _ List.mem_cons_self, wins.1, wins.2, ?_⟩
        intro other listed healthy
        rcases List.mem_append.mp listed with before | last
        · exact Nat.le_of_lt (Nat.lt_of_lt_of_le wins.2 (ih other before healthy))
        · rw [List.mem_singleton.mp last]
      · rename_i loses
        intro other listed healthy
        rcases List.mem_append.mp listed with before | last
        · exact ih other before healthy
        · rw [List.mem_singleton.mp last] at healthy ⊢
          simpa [healthy] using loses
    | some best =>
      obtain ⟨listed, healthy, few, least⟩ := ih
      dsimp only
      split
      · rename_i wins
        simp only [Bool.and_eq_true, decide_eq_true_eq] at wins
        refine ⟨List.mem_append_right _ List.mem_cons_self, wins.1, Nat.lt_trans wins.2 few, ?_⟩
        intro other listed' healthy'
        rcases List.mem_append.mp listed' with before | last
        · exact Nat.le_of_lt (Nat.lt_of_lt_of_le wins.2 (least other before healthy'))
        · rw [List.mem_singleton.mp last]
      · rename_i loses
        refine ⟨List.mem_append_left _ listed, healthy, few, ?_⟩
        intro other listed' healthy'
        rcases List.mem_append.mp listed' with before | last
        · exact least other before healthy'
        · rw [List.mem_singleton.mp last] at healthy' ⊢
          simpa [healthy'] using loses

theorem leastConn_iff (now : Int) (pool : UpstreamPool) :
    FindsHealthy now pool (leastConn now pool.targets) ↔
      (∀ other ∈ pool.targets, targetHealthy now other.2 = false) ∨
        ∃ e ∈ pool.targets, targetHealthy now e.2 = true ∧ e.2.activeConnections < INT_MAX := by
  obtain ⟨chosen, same, fewest⟩ := leastConn_fewest now pool.targets
  rw [same]
  cases chosen with
  | none =>
    constructor
    · exact Or.inl
    · rintro (ill | ⟨e, listed, healthy, few⟩)
      · exact ill
      · exact absurd few (Nat.not_lt.mpr (fewest e listed healthy))
  | some e =>
    obtain ⟨listed, healthy, few, least⟩ := fewest
    exact iff_of_true ⟨e.2, listed, healthy, fun _ => least⟩ (Or.inr ⟨e, listed, healthy, few⟩)

theorem chooseTarget_iff (clientIp : Bytes) (clientFd rand : Nat) (now : Int)
    (few : pool.targets.length ≤ MAX_UPSTREAM_TARGETS) (counter : pool.rrCounter < 2 ^ 32) :
    FindsHealthy now pool (chooseTarget clientIp clientFd now rand pool) ↔ InReach now pool := by
  have fits : pool.targets.length ≤ 2 ^ 32 := Nat.le_trans few (by decide)
  unfold chooseTarget InReach
  dsimp only
  cases mode : pool.balance with
  | roundRobin =>
    dsimp only
    rw [firstHealthy_iff (by rw [mode]; decide)]
    apply or_congr_right
    apply exists_congr
    intro i
    apply exists_congr
    intro e
    apply and_congr_right
    intro here
    apply and_congr_right
    intro _
    obtain ⟨below, _⟩ := List.getElem?_eq_some_iff.mp here
    exact wrapping_iff counter below fits
  | random => exact iff_of_true (circle_finds (by rw [mode]; decide) rand) (Or.inr trivial)
  | ipHash => exact iff_of_true (circle_finds (by rw [mode]; decide) _) (Or.inr trivial)
  | connHash => exact iff_of_true (circle_finds (by rw [mode]; decide) _) (Or.inr trivial)
  | leastConn => exact leastConn_iff now pool

/-- What is chosen is healthy. -/
theorem chooseTarget_healthy (found : chooseTarget clientIp clientFd now rand pool = some url) :
    ∃ t, (url, t) ∈ pool.targets ∧ targetHealthy now t = true := by
  unfold chooseTarget at found
  dsimp only at found
  split at found
  · exact firstHealthy_healthy found
  · exact firstHealthy_healthy found
  · exact firstHealthy_healthy found
  · exact firstHealthy_healthy found
  · obtain ⟨chosen, same, fewest⟩ := leastConn_fewest now pool.targets
    rw [found] at same
    obtain ⟨⟨_, t⟩, rfl, rfl⟩ := Option.map_eq_some_iff.mp same.symm
    exact ⟨t, fewest.1, fewest.2.1⟩

/-- The choice is right if and only if the round robin, or the comparison with `INT_MAX`, leaves
a healthy target in reach. -/
theorem findsHealthy_iff (name clientIp : Bytes) (clientFd : Nat) (now : Int) (rand : Nat)
    (pools : UpstreamPools) (pool : UpstreamPool) (found : StringMap.get name pools = some pool)
    (some_target : pool.targets ≠ []) (few : pool.targets.length ≤ MAX_UPSTREAM_TARGETS)
    (counter : pool.rrCounter < 2 ^ 32) :
    FindsHealthy now pool (upstreamPoolResolve name clientIp clientFd now rand pools).1 ↔
      InReach now pool := by
  rw [upstreamPoolResolve, found]
  dsimp only
  rw [if_neg some_target]
  exact chooseTarget_iff clientIp clientFd rand now few counter

/-- Only the last target is healthy. -/
def threeTargets (rrCounter : Nat) : UpstreamPool where
  targets := [(ascii "http://127.0.0.1:8001", ⟨100, 0⟩), (ascii "http://127.0.0.1:8002", ⟨100, 0⟩),
    (ascii "http://127.0.0.1:8003", ⟨0, 0⟩)]
  balance := .roundRobin
  rrCounter := rrCounter
  retryTimeout := 30
  proxyTimeout := 5

theorem findsHealthy_sample : FindsHealthy 70 (threeTargets 7)
    (upstreamPoolResolve (ascii "app") [] 4 70 0 [(ascii "app", threeTargets 7)]).1 := by
  apply (findsHealthy_iff (ascii "app") [] 4 70 0 [(ascii "app", threeTargets 7)] (threeTargets 7)
    (by decide) (by decide) (by decide) (by decide)).mpr
  exact Or.inr ⟨2, _, rfl, by decide, Or.inr (by decide)⟩

/-- At the last number of the counter the loop looks at the first target twice. -/
theorem not_findsHealthy : ¬∀ name clientIp clientFd now rand pools pool,
    StringMap.get name pools = some pool → pool.targets ≠ [] →
    pool.targets.length ≤ MAX_UPSTREAM_TARGETS → pool.rrCounter < 2 ^ 32 →
      FindsHealthy now pool (upstreamPoolResolve name clientIp clientFd now rand pools).1 := by
  intro always
  have finds := always (ascii "app") [] 4 70 0 [(ascii "app", threeTargets 4294967295)]
    (threeTargets 4294967295) (by decide) (by decide) (by decide) (by decide)
  have nothing : (upstreamPoolResolve (ascii "app") [] 4 70 0
      [(ascii "app", threeTargets 4294967295)]).1 = none := by decide
  rw [nothing] at finds
  have ill := finds (ascii "http://127.0.0.1:8003", ⟨0, 0⟩) (by decide)
  exact absurd ill (by decide)

end TargetSelection
