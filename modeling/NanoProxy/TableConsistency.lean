import NanoProxy.LoopSteps
import Mathlib.Data.Finset.Card

/-!
# Consistency of the connection table

Slots, `fd_to_index` and the counters of addresses say the same, as long as every forward
set-up gets its upstream connection: the other path of `forward_on_accept` closes the
descriptor of the client and leaves its slot behind.
-/

namespace TableConsistency

open CLib ProxyExchange KeepalivePool EventLoop ConnectionTable DescriptorTables LoopSteps Runs
open Function

variable {w w' : World}

/-- The slots that hold a connection from `ip`. -/
def slotsOf (w : World) (ip : Bytes) : Finset Nat :=
  (Finset.range NUM_CLIENTS).filter fun i => (w.clients i).fd ≠ 0 ∧ (w.clients i).peerIp = ip

theorem mem_slotsOf {ip : Bytes} {i : Nat} : i ∈ slotsOf w ip ↔
    i < NUM_CLIENTS ∧ (w.clients i).fd ≠ 0 ∧ (w.clients i).peerIp = ip := by
  rw [slotsOf, Finset.mem_filter, Finset.mem_range]

structure Consistent (w : World) : Prop where
  index : ∀ fd i, w.fdToIndex fd = some i → i < NUM_CLIENTS ∧ fd ≠ 0 ∧ (w.clients i).fd = fd
  slots : ∀ i, (w.clients i).fd ≠ 0 → w.fdToIndex (w.clients i).fd = some i
  counts : ∀ ip, ip ≠ [] → w.ipConnCounts ip = (slotsOf w ip).card

theorem Consistent.init : Consistent World.init where
  index := fun _ _ listed => nomatch listed
  slots := fun _ used => absurd rfl used
  counts := by
    intro ip _
    have empty : slotsOf World.init ip = ∅ := by
      ext i
      simp [mem_slotsOf, World.init, ClientData.free]
    rw [empty]
    rfl

theorem slotsOf_congr {ip : Bytes} (same : ∀ i, (w'.clients i).fd ≠ 0 ∧ (w'.clients i).peerIp = ip ↔
    (w.clients i).fd ≠ 0 ∧ (w.clients i).peerIp = ip) : slotsOf w' ip = slotsOf w ip := by
  ext i
  rw [mem_slotsOf, mem_slotsOf, same]

theorem Consistent.slot (h : Consistent w) {i : Nat} {cd : ClientData}
    (fd : cd.fd = (w.clients i).fd) (peerIp : cd.peerIp = (w.clients i).peerIp) :
    Consistent (setClient i cd w) := by
  have same (j : Nat) : ((setClient i cd w).clients j).fd = (w.clients j).fd ∧
      ((setClient i cd w).clients j).peerIp = (w.clients j).peerIp := by
    change (update w.clients i cd j).fd = _ ∧ (update w.clients i cd j).peerIp = _
    grind [update_apply]
  constructor
  · intro c j listed
    rw [(same j).1]
    exact h.index c j listed
  · intro j
    rw [(same j).1]
    exact h.slots j
  · intro ip known
    have kept : slotsOf (setClient i cd w) ip = slotsOf w ip :=
      slotsOf_congr fun j => by rw [(same j).1, (same j).2]
    rw [kept]
    exact h.counts ip known

/-- The kernel hands out a number that is not in the table. -/
theorem Consistent.register (h : Consistent w) {fd : Fd} {i : Nat} (nonzero : fd ≠ 0)
    (room : i < NUM_CLIENTS) (free : (w.clients i).fd = 0) (unlisted : w.fdToIndex fd = none) :
    Consistent (register fd i (accept fd w)) := by
  obtain ⟨index, slots, counts⟩ := h
  constructor
  · intro c j
    simp only [EventLoop.register, accept, openFd, setClient, update_apply]
    grind
  · intro j
    simp only [EventLoop.register, accept, openFd, setClient, update_apply]
    grind
  · intro ip known
    rw [slotsOf_congr fun j => ?_]
    · exact counts ip known
    · simp only [EventLoop.register, accept, openFd, setClient, update_apply]
      grind

theorem Consistent.enroll (h : Consistent w) {io : AcceptIo} {i : Nat}
    (index : w.fdToIndex io.fd = some i) (unknown : (w.clients i).peerIp = [])
    (limit : 0 < io.limit) : Consistent (enroll io i w) := by
  obtain ⟨indices, slots, counts⟩ := h
  obtain ⟨room, nonzero, fd⟩ := indices io.fd i index
  constructor
  · intro c j
    simp only [EventLoop.enroll, setClient, update_apply]
    grind
  · intro j
    simp only [EventLoop.enroll, setClient, update_apply]
    grind
  · intro ip known
    change countIp io w.ipConnCounts ip = _
    by_cases same : ip = io.ip
    · subst same
      have limited : io.limited = true := by simp [AcceptIo.limited, known, limit]
      have grown : slotsOf (EventLoop.enroll io i w) io.ip = insert i (slotsOf w io.ip) := by
        ext j
        simp only [Finset.mem_insert, mem_slotsOf, EventLoop.enroll, setClient, update_apply]
        grind
      have new : i ∉ slotsOf w io.ip := by
        rw [mem_slotsOf, unknown]
        exact fun counted => known counted.2.2.symm
      rw [grown, Finset.card_insert_of_notMem new, countIp, if_pos limited, update_self,
        counts io.ip known]
    · rw [slotsOf_congr fun j => ?_]
      · rw [← counts ip known]
        unfold countIp
        split
        · exact update_of_ne same ..
        · rfl
      · simp only [EventLoop.enroll, setClient, update_apply]
        grind

theorem Consistent.drop (h : Consistent w) (c : Fd) : Consistent (connDel c w) := by
  obtain ⟨indices, slots, counts⟩ := h
  unfold connDel
  split
  · exact ⟨indices, slots, counts⟩
  split
  · exact ⟨indices, slots, counts⟩
  rename_i i index
  obtain ⟨room, nonzero, fd⟩ := indices c i index
  constructor
  · intro d j
    simp only [closeFd, setClient, update_apply]
    grind
  · intro j
    simp only [closeFd, setClient, update_apply]
    grind
  · intro ip known
    change releaseIp (w.clients i).peerIp w.ipConnCounts ip = _
    by_cases same : ip = (w.clients i).peerIp
    · have counted : i ∈ slotsOf w ip := mem_slotsOf.mpr ⟨room, fd ▸ nonzero, same.symm⟩
      have shrunk : slotsOf (closeFd c { setClient i { w.clients i with
          fd := 0, sendingBody := false, sendRemaining := 0 } w with
          fdToIndex := update w.fdToIndex c none
          ipConnCounts := releaseIp (w.clients i).peerIp w.ipConnCounts }) ip =
          (slotsOf w ip).erase i := by
        ext j
        simp only [Finset.mem_erase, mem_slotsOf, closeFd, setClient, update_apply]
        grind
      rw [shrunk, Finset.card_erase_of_mem counted, ← same, releaseIp, if_neg known, update_self,
        counts ip known]
    · rw [slotsOf_congr fun j => ?_]
      · rw [← counts ip known]
        unfold releaseIp
        split
        · rfl
        · exact update_of_ne same ..
      · simp only [closeFd, setClient, update_apply]
        grind

/-- The counters are in use. -/
def countingRules : ConnectionTable.Rules := ⟨fun io => 0 < io.limit, fun _ => True⟩

theorem Consistent.move (h : Consistent w) (move : Move countingRules w w') : Consistent w' := by
  cases move with
  | other w' clients index counts nextConn dispatched =>
    obtain ⟨indices, slots, counted⟩ := h
    constructor
    · rw [clients, index]
      exact indices
    · rw [clients, index]
      exact slots
    · intro ip known
      rw [counts, slotsOf, clients]
      exact counted ip known
  | flags i cd same => exact h.slot same.fd same.peerIp
  | reset i => exact h.slot rfl rfl
  | count i data => exact h.slot rfl rfl
  | feed i data ok => exact h.slot rfl rfl
  | request c i data index some_data positive ok =>
    generalize (HttpRequestParser.httpParserFeed .default (w.clients i).parser data).1 = parser
    have fed : Consistent (storeParser i parser data.length w) := h.slot rfl rfl
    exact ⟨fed.index, fed.slots, fed.counts⟩
  | http i io unread => exact h.slot rfl rfl
  | enroll io i index unknown below ok => exact h.enroll index unknown ok
  | drop c => exact h.drop c

/-- No forward set-up may fail. -/
abbrev connected : DescriptorTables.Rules where
  new := fun _ _ => True
  refuse := False
  keep := fun _ _ => True
  done := fun _ _ => True

/-- The descriptors in `fd_to_index` are open. -/
def Opened (w : World) : Prop := ∀ c i, w.fdToIndex c = some i → (w.sockets c).isSome = true

theorem Opened.current (h : Opened w) (fd : Fd) : ¬ Stale w fd := by
  rintro ⟨closed, listed⟩
  obtain ⟨i, index⟩ := Option.isSome_iff_exists.mp listed
  have opened := h fd i index
  rw [closed] at opened
  cases opened

/-- A descriptor that is closed is not in the index. -/
theorem Opened.close (h : Opened w) {u : Fd} (unlisted : w.fdToIndex u = none) :
    Opened (closeFd u w) := by
  intro c i index
  have other : c ≠ u := by
    rintro rfl
    exact absurd (unlisted.symm.trans index) (Option.some_ne_none i).symm
  change (update w.sockets u none c).isSome = true
  rw [update_of_ne other]
  exact h c i index

theorem Opened.openFd (h : Opened w) (u : Fd) (s : Socket) : Opened (openFd u s w) := by
  intro c i index
  change (update w.sockets u (some s) c).isSome = true
  rw [update_apply]
  split
  · rfl
  · exact h c i index

theorem Opened.finish (tables : Tables w) (h : Opened w) {c : Fd} {x y : Exchange}
    (entry : w.proxyStates c = some x) (same : y.ps.upstreamFd = x.ps.upstreamFd) :
    Opened (releaseUpstream y (forgetExchange c y w)) := by
  obtain ⟨_, unused⟩ := tables.forget entry same
  have forgotten : Opened (forgetExchange c y w) := h
  rcases releaseUpstream_cases y (forgetExchange c y w) with
    closed | ⟨_, _, pools, ⟨pooled, _⟩ | ⟨overflown, _⟩⟩
  · rw [closed]
    exact forgotten.close unused.client
  · rw [pooled]
    exact Opened.openFd (w := { forgetExchange c y w with
      keepalivePools := pools, pooled := w.pooled ++ [y] }) forgotten _ _
  · rw [overflown]
    exact (Opened.openFd (w := { forgetExchange c y w with
      keepalivePools := pools, pooled := w.pooled ++ [y] }) forgotten _ _).close unused.client

theorem Opened.change (tables : Tables w) (h : Opened w) (change : Change connected w w') :
    Opened w' := by
  cases change with
  | accept fd i nonzero closed free ok =>
    intro c j
    simp only [register, accept, EventLoop.openFd, setClient, update_apply]
    have opened := h c j
    grind
  | reject fd closed =>
    rw [reject_eq closed]
    exact h
  | slot i cd fd conn http => exact h
  | count counts => exact h
  | log ds => exact h
  | drop c =>
    unfold connDel
    split
    · exact h
    split
    · exact h
    · intro d j
      simp only [closeFd, setClient, update_apply]
      have opened := h d j
      grind
  | refuse c i index plain ok => exact ok.elim
  | shut u unused => exact h.close unused.client
  | start c u i x s index http unused fresh upstream role conn inbox idle => exact h.openFd u s
  | advance c x y entry same ok => exact h
  | finish c x y entry same ok => exact h.finish tables entry same
  | deliver c i x entry index => exact h
  | drain u s n opened unproxied => exact h.openFd u _
  | read c u x y s n opened entry mapped same ok => exact h.openFd u _
  | readLast c u x y s n opened entry mapped same ok =>
    exact Opened.finish (tables.drain opened n) (h.openFd u _) entry same
  | source c u entry => exact h
  | unpool closed pools perm => exact h
  | reuse u pools perm => exact h
  | forwardOpen c u fs s unused upstream role => exact h.openFd u s
  | forwardKeep d fs fs' entry same => exact h
  | forwardClose d fs entry =>
    obtain ⟨s, opened, role⟩ := tables.forward _ _ (tables.forwarded d fs entry)
    exact h.close (tables.no_client opened (by simp [role]))
  | tick now => exact h

/-- Slots and index are inverse, what they hold is open, and the counter of an address is the
number of its slots. -/
structure InStep (w : World) : Prop where
  inverse : ∀ i f, (w.clients i).fd = f ∧ f ≠ 0 ↔ w.fdToIndex f = some i
  opened : ∀ f i, w.fdToIndex f = some i → (w.sockets f).isSome = true
  distinct : ∀ i j, (w.clients i).fd ≠ 0 → (w.clients i).fd = (w.clients j).fd → i = j
  counted : ∀ ip, ip ≠ [] → w.ipConnCounts ip = (slotsOf w ip).card

/-- The counters are in use, as they are for every configuration, and a forward set-up gets
its upstream connection. -/
def Works (w : World) (e : EventLoop.Event) : Prop :=
  ∀ io, e = .accept io → 0 < io.limit ∧ Connects (accept io.fd w) io

theorem Works.permitted {e : EventLoop.Event} (works : Works w e) : Permitted connected w e := by
  have allowed (x y : Exchange) (inbox rest : Bytes) : Allowed connected x y inbox rest := by
    intro _
    split
    · trivial
    · trivial
  cases e with
  | accept io => exact ⟨trivial, Or.inr (works io rfl).2⟩
  | clientReadable c r io =>
    exact ⟨fun _ _ _ _ _ => allowed _ _ _ _, fun _ _ _ _ => allowed _ _ _ _⟩
  | clientWritable c cw r => exact fun _ _ _ => allowed _ _ _ _
  | upstreamWritable u soerr r => exact fun _ _ _ _ _ => allowed _ _ _ _
  | upstreamReadable u r cw => exact fun _ _ _ _ => allowed _ _ _ _
  | timer now exchanges slots => exact fun _ _ _ _ _ _ _ => trivial
  | arrive u data => trivial

theorem Consistent.entry (h : Consistent w) (opened : Opened w) {e : EventLoop.Event}
    (entry : Entry w e w') : Consistent w' := by
  cases entry with
  | none e => exact h
  | slot io i nonzero closed room free =>
    refine h.register nonzero room free ?_
    rw [Option.eq_none_iff_forall_ne_some]
    intro j index
    have held := opened io.fd j index
    rw [closed] at held
    cases held
  | full io => exact ⟨h.index, h.slots, h.counts⟩

theorem consistent_step (w : World) (e : EventLoop.Event)
    (h : (Tables w ∧ Opened w) ∧ Consistent w) (works : Works w e) :
    (Tables (EventLoop.step w e) ∧ Opened (EventLoop.step w e)) ∧
      Consistent (EventLoop.step w e) := by
  obtain ⟨⟨tables, opened⟩, consistent⟩ := h
  constructor
  · exact step_invariant Opened.change tables opened (fun fd _ => opened.current fd)
      works.permitted fun u data s _ _ => opened.openFd u _
  · exact step_table_invariant (fun entry => consistent.entry opened entry)
      (fun h move => h.move move) (allowed_of_admitted (fun _ => trivial) fun io accepted =>
        (works io accepted).1)

/-- While no forward set-up fails, the connection table is in step. -/
theorem connection_table_consistent (es : List EventLoop.Event)
    (works : Guarded EventLoop.step Works World.init es) :
    InStep (run EventLoop.step World.init es) := by
  have initial : Opened World.init := fun _ _ index => nomatch index
  obtain ⟨⟨_, opened⟩, consistent⟩ :=
    run_invariant consistent_step ⟨⟨Tables.init, initial⟩, Consistent.init⟩ works
  refine ⟨fun i f => ⟨?_, ?_⟩, opened, ?_, consistent.counts⟩
  · rintro ⟨rfl, used⟩
    exact consistent.slots i used
  · intro index
    obtain ⟨_, nonzero, fd⟩ := consistent.index f i index
    exact ⟨fd, nonzero⟩
  · intro i j used same
    have index := consistent.slots i used
    rw [same] at used index
    exact Option.some_injective _ (index.symm.trans (consistent.slots j used))

def forwarded (connect : Option Fd) : EventLoop.Event :=
  .accept ⟨.forward .tcp, 5, noClient, ascii "10.0.0.1", 50, true, connect⟩

theorem connection_table_consistent_sample :
    (run EventLoop.step World.init [forwarded (some 6)]).fdToIndex 5 = some 0 ∧
      InStep (run EventLoop.step World.init [forwarded (some 6)]) := by
  refine ⟨by decide +kernel, connection_table_consistent [forwarded (some 6)] ⟨?_, trivial⟩⟩
  intro io accepted
  cases accepted
  refine ⟨by decide, fun proto _ _ => ⟨6, rfl, by rfl⟩⟩

theorem closed_descriptor_listed :
    ¬ ∀ es : List EventLoop.Event, InStep (run EventLoop.step World.init es) := by
  intro inStep
  have held := (inStep [forwarded none]).opened 5 0 (by decide +kernel)
  exact absurd held (by decide +kernel)

end TableConsistency
