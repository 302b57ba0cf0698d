import NanoProxy.ConnectionTable
import NanoProxy.Lib.Runs
import Mathlib.Data.Set.Card

/-!
# The limit on connections from one address

`ip_conn_counts` may count connections that are gone: a descriptor that is closed behind the
back of the table is handed out again and takes a second slot. It never counts too few of
those that `fd_to_index` still reaches.
-/

namespace IpLimit

open CLib KeepalivePool EventLoop ConnectionTable Runs Function

variable {m : Nat} {w w' : World}

/-- The connections from `ip` that `fd_to_index` reaches. -/
def registered (w : World) (ip : Bytes) : Set Fd :=
  {fd | ∃ i, w.fdToIndex fd = some i ∧ (w.clients i).peerIp = ip}

/-- `max_connections_per_ip` is `m` when a connection is accepted. -/
def FixedLimit (m : Nat) (e : EventLoop.Event) : Prop := ∀ io, e = .accept io → io.limit = m

structure Capped (m : Nat) (w : World) : Prop where
  index : ∀ fd i, w.fdToIndex fd = some i → fd ≠ 0 ∧ (w.clients i).fd = fd
  counted : ∀ ip, ip ≠ [] → (registered w ip).encard ≤ w.ipConnCounts ip
  below : ∀ ip, ip ≠ [] → w.ipConnCounts ip ≤ m

theorem Capped.init : Capped m World.init where
  index := fun _ _ listed => nomatch listed
  counted := by
    intro ip _
    have empty : registered World.init ip = ∅ := by
      ext fd
      simp [registered, World.init]
    rw [empty, Set.encard_empty]
    exact zero_le
  below := fun _ _ => Nat.zero_le m

/-- No new connection is reached, and no counter changes. -/
theorem Capped.fewer (h : Capped m w)
    (index : ∀ fd i, w'.fdToIndex fd = some i → fd ≠ 0 ∧ (w'.clients i).fd = fd)
    (counts : w'.ipConnCounts = w.ipConnCounts)
    (subset : ∀ ip, ip ≠ [] → registered w' ip ⊆ registered w ip) : Capped m w' where
  index := index
  counted := by
    intro ip known
    rw [counts]
    exact (Set.encard_le_encard (subset ip known)).trans (h.counted ip known)
  below := by
    rw [counts]
    exact h.below

/-- A slot keeps its descriptor and its address. -/
theorem Capped.slot (h : Capped m w) {i : Nat} {cd : ClientData} (fd : cd.fd = (w.clients i).fd)
    (peerIp : cd.peerIp = (w.clients i).peerIp) : Capped m (setClient i cd w) := by
  have same (j : Nat) : ((setClient i cd w).clients j).fd = (w.clients j).fd ∧
      ((setClient i cd w).clients j).peerIp = (w.clients j).peerIp := by
    change (update w.clients i cd j).fd = _ ∧ (update w.clients i cd j).peerIp = _
    grind [update_apply]
  refine h.fewer ?_ rfl ?_
  · intro c j listed
    rw [(same j).1]
    exact h.index c j listed
  · rintro ip _ c ⟨j, listed, address⟩
    exact ⟨j, listed, (same j).2.symm.trans address⟩

/-- The slot of a new connection has no address yet. -/
theorem Capped.register (h : Capped m w) {fd : Fd} {i : Nat} (nonzero : fd ≠ 0)
    (free : (w.clients i).fd = 0) : Capped m (register fd i (accept fd w)) := by
  have index := h.index
  refine h.fewer ?_ rfl ?_
  · intro c j
    simp only [EventLoop.register, accept, openFd, setClient, update_apply]
    grind
  · intro ip known c
    simp only [registered, EventLoop.register, accept, openFd, setClient, update_apply,
      Set.mem_ofPred_eq]
    grind

/-- A connection is admitted while its address has fewer than `m`. -/
theorem Capped.enroll (h : Capped m w) {io : AcceptIo} {i : Nat} (positive : 0 < m)
    (index : w.fdToIndex io.fd = some i)
    (below : io.limited = true → w.ipConnCounts io.ip < io.limit) (fixed : io.limit = m) :
    Capped m (enroll io i w) := by
  have indices := h.index
  have limited (known : io.ip ≠ []) : io.limited = true := by
    simp [AcceptIo.limited, known, fixed, positive]
  have counts (ip : Bytes) : (EventLoop.enroll io i w).ipConnCounts ip =
      if io.limited = true ∧ ip = io.ip then w.ipConnCounts ip + 1 else w.ipConnCounts ip := by
    change countIp io w.ipConnCounts ip = _
    unfold countIp
    grind [update_apply]
  have reached (ip : Bytes) (known : ip ≠ []) : registered (EventLoop.enroll io i w) ip ⊆
      if ip = io.ip then insert io.fd (registered w ip) else registered w ip := by
    intro c
    simp only [registered, EventLoop.enroll, setClient, update_apply, Set.mem_ofPred_eq]
    grind
  constructor
  · intro c j
    simp only [EventLoop.enroll, setClient, update_apply]
    grind
  · intro ip known
    have grown := Set.encard_le_encard (reached ip known)
    have before := h.counted ip known
    rw [counts]
    by_cases same : ip = io.ip
    · rw [if_pos same] at grown
      rw [if_pos ⟨limited (same ▸ known), same⟩, Nat.cast_add_one]
      exact (grown.trans (Set.encard_insert_le _ _)).trans (add_le_add_left before 1)
    · rw [if_neg same] at grown
      rw [if_neg fun both => same both.2]
      exact grown.trans before
  · intro ip known
    rw [counts]
    split
    · rename_i both
      obtain ⟨checked, rfl⟩ := both
      exact fixed ▸ below checked
    · exact h.below ip known

/-- `conn_del` takes a connection from those that are reached, and from its counter. -/
theorem Capped.drop (h : Capped m w) (c : Fd) : Capped m (connDel c w) := by
  have indices := h.index
  unfold connDel
  split
  · exact h
  split
  · exact h
  rename_i i index
  have member : c ∈ registered w (w.clients i).peerIp := ⟨i, index, rfl⟩
  have counts (ip : Bytes) (known : ip ≠ []) : releaseIp (w.clients i).peerIp w.ipConnCounts ip =
      if ip = (w.clients i).peerIp then w.ipConnCounts ip - 1 else w.ipConnCounts ip := by
    unfold releaseIp
    grind [update_apply]
  constructor
  · intro d j
    simp only [closeFd, setClient, update_apply]
    grind
  · intro ip known
    change _ ≤ ((releaseIp (w.clients i).peerIp w.ipConnCounts ip : ℕ) : ℕ∞)
    have left : registered (closeFd c { setClient i { w.clients i with
        fd := 0, sendingBody := false, sendRemaining := 0 } w with
        fdToIndex := update w.fdToIndex c none
        ipConnCounts := releaseIp (w.clients i).peerIp w.ipConnCounts }) ip ⊆
        registered w ip \ {c} := by
      intro d
      simp only [registered, closeFd, setClient, update_apply, Set.mem_ofPred_eq, Set.mem_sdiff,
        Set.mem_singleton_iff]
      grind
    have fewer := Set.encard_le_encard left
    have before := h.counted ip known
    rw [counts ip known]
    split
    · rename_i same
      rw [← same] at member
      rw [← Set.encard_sdiff_singleton_add_one member] at before
      rw [ENat.natCast_sub, Nat.cast_one]
      exact fewer.trans (ENat.le_sub_of_add_le_right ENat.one_ne_top before)
    · exact (fewer.trans (Set.encard_le_encard Set.sdiff_subset)).trans before
  · intro ip known
    change releaseIp (w.clients i).peerIp w.ipConnCounts ip ≤ m
    rw [counts ip known]
    have before := h.below ip known
    split
    · omega
    · exact before

/-- Every admission is checked against `m`. -/
def limitRules (m : Nat) : Rules := ⟨fun io => io.limit = m, fun _ => True⟩

theorem Capped.move (positive : 0 < m) (h : Capped m w) (move : Move (limitRules m) w w') :
    Capped m w' := by
  cases move with
  | other w' clients index counts nextConn dispatched =>
    refine h.fewer ?_ counts ?_
    · rw [clients, index]
      exact h.index
    · intro ip _
      rw [registered, clients, index]
      exact subset_rfl
  | flags i cd same => exact h.slot same.fd same.peerIp
  | reset i => exact h.slot rfl rfl
  | count i data => exact h.slot rfl rfl
  | feed i data ok => exact h.slot rfl rfl
  | request c i data index some_data positive ok =>
    generalize (HttpRequestParser.httpParserFeed .default (w.clients i).parser data).1 = parser
    have fed : Capped m (storeParser i parser data.length w) := h.slot rfl rfl
    exact fed.fewer fed.index rfl fun _ _ => subset_rfl
  | http i io unread => exact h.slot rfl rfl
  | enroll io i index unknown below ok => exact h.enroll positive index below ok
  | drop c => exact h.drop c

theorem capped_step (positive : 0 < m) (w : World) (e : EventLoop.Event) (h : Capped m w)
    (fixed : FixedLimit m e) : Capped m (EventLoop.step w e) := by
  refine step_table_invariant (fun entry => ?_) (fun h move => h.move positive move)
    (allowed_of_admitted (fun _ => trivial) fixed)
  cases entry with
  | none e => exact h
  | slot io i nonzero closed room free => exact h.register nonzero free
  | full io => exact h.fewer h.index rfl fun _ _ => subset_rfl

/-- While the limit is `m`, no address has more than `m` registered connections. -/
theorem connections_capped (m : Nat) (positive : 0 < m) (es : List EventLoop.Event)
    (fixed : ∀ e ∈ es, FixedLimit m e) (ip : Bytes) (known : ip ≠ []) :
    (registered (run EventLoop.step World.init es) ip).encard ≤ m := by
  have capped : Capped m (run EventLoop.step World.init es) :=
    run_invariant (capped_step positive) Capped.init (guarded_of_forall fixed)
  exact (capped.counted ip known).trans (Nat.cast_le.mpr (capped.below ip known))

/-- One connection is allowed and two come; the forward set-up of the first one fails, and the
kernel hands its descriptor out again. -/
def crowded : List EventLoop.Event :=
  [.accept ⟨.forward .tcp, 5, noClient, ascii "10.0.0.1", 1, true, none⟩,
    .accept ⟨.http, 5, noClient, ascii "10.0.0.1", 1, true, none⟩,
    .accept ⟨.http, 6, noClient, ascii "10.0.0.2", 1, true, none⟩]

theorem connections_capped_sample :
    (run EventLoop.step World.init crowded).fdToIndex 6 = some 1 ∧
      (registered (run EventLoop.step World.init crowded) (ascii "10.0.0.2")).encard ≤ (1 : ℕ) := by
  refine ⟨by decide +kernel, connections_capped 1 (by decide) crowded ?_ (ascii "10.0.0.2") (by decide)⟩
  intro e listed io accepted
  subst accepted
  simp only [crowded, List.mem_cons, List.not_mem_nil, or_false, EventLoop.Event.accept.injEq] at listed
  rcases listed with rfl | rfl | rfl
  · rfl
  · rfl
  · rfl

end IpLimit
