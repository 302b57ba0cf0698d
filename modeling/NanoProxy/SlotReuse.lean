import NanoProxy.CallTrace
import NanoProxy.Lib.Runs

/-!
# What a new connection finds in its slot

`conn_add` leaves `proxy_active`, `proxy_streaming` and `forward_active` as the previous
connection of the slot had them, and these flags decide who gets the bytes of a connection.
They are clear in a free slot as long as `conn_del` is called only after `proxy_cleanup` or
`forward_cleanup` has cleared them.
-/

namespace SlotReuse

open CLib HttpRequestParser ProxyExchange ForwardRelay EventLoop ConnectionTable CallTrace Runs
open Function

variable {w v w' : World}

/-- The branches of `my_on_read`. -/
inductive Reader where
  | relay
  | socket
  | stream
  | parser
  deriving DecidableEq

/-- The branches of `my_on_write`. -/
inductive Writer where
  | relay
  | proxy
  | send
  deriving DecidableEq

def reader (cd : ClientData) : Reader :=
  if cd.forwardActive then .relay
  else if !cd.isHttp then .socket
  else if cd.proxyStreaming then .stream
  else .parser

def writer (cd : ClientData) : Writer :=
  if cd.forwardActive then .relay
  else if cd.proxyActive then .proxy
  else .send

structure Unflagged (cd : ClientData) : Prop where
  proxyActive : cd.proxyActive = false
  proxyStreaming : cd.proxyStreaming = false
  forwardActive : cd.forwardActive = false

instance (cd : ClientData) : Decidable (Unflagged cd) :=
  decidable_of_iff (cd.proxyActive = false ∧ cd.proxyStreaming = false ∧ cd.forwardActive = false)
    ⟨fun ⟨a, s, f⟩ => ⟨a, s, f⟩, fun ⟨a, s, f⟩ => ⟨a, s, f⟩⟩

/-- The flags have been cleared before `conn_del`. -/
def Clears : Call → Prop
  | .connDel _ cd => Unflagged cd
  | _ => True

instance : ∀ call, Decidable (Clears call)
  | .connAdd _ => .isTrue trivial
  | .parserInit _ => .isTrue trivial
  | .parserReset _ => .isTrue trivial
  | .connDel _ cd => inferInstanceAs (Decidable (Unflagged cd))
  | .proxyStore _ => .isTrue trivial
  | .proxyUnreachable _ => .isTrue trivial
  | .proxyCleanup _ => .isTrue trivial

/-- No connection is deleted in the step while it belongs to the proxy or to a relay. -/
def Released (w : World) (e : EventLoop.Event) : Prop := ∀ call ∈ stepCalls w e, Clears call

instance (w : World) (e : EventLoop.Event) : Decidable (Released w e) :=
  inferInstanceAs (Decidable (∀ call ∈ stepCalls w e, Clears call))

/-- The flags of a free slot are clear. -/
structure Cleared (w : World) : Prop where
  indexed : Indexed w
  free : ∀ i, (w.clients i).fd = 0 → Unflagged (w.clients i)

theorem Unflagged.same {a b : ClientData} (h : Unflagged a) (same : SameFlags a b) :
    Unflagged b where
  proxyActive := same.proxyActive.trans h.proxyActive
  proxyStreaming := same.proxyStreaming.trans h.proxyStreaming
  forwardActive := same.forwardActive.trans h.forwardActive

theorem Cleared.init : Cleared World.init where
  indexed := Indexed.init
  free := fun _ _ => ⟨rfl, rfl, rfl⟩

theorem free_slot (h : ∀ i, (w.clients i).fd = 0 → Unflagged (w.clients i)) {i : Nat}
    {cd : ClientData} (kept : cd.fd = 0 → Unflagged cd) :
    ∀ j, ((setClient i cd w).clients j).fd = 0 → Unflagged ((setClient i cd w).clients j) := by
  intro j
  by_cases same : j = i
  · subst same
    have slot : (setClient j cd w).clients j = cd := update_self ..
    rw [slot]
    exact kept
  · have slot : (setClient i cd w).clients j = w.clients j := update_of_ne same ..
    rw [slot]
    exact h j

theorem Cleared.piece (h : Cleared w) {cs : List Call} (piece : Piece True w cs w')
    (clears : ∀ call ∈ cs, Clears call) : Cleared w' := by
  refine ⟨h.indexed.piece piece, ?_⟩
  cases piece with
  | other w' clients index keys =>
    rw [clients]
    exact h.free
  | slot i cd fd kept =>
    apply free_slot h.free
    intro free
    rcases kept with live | same
    · exact absurd (fd ▸ free) live
    · exact (h.free i (fd ▸ free)).same same
  | add fd i nonzero free =>
    apply free_slot (w := { accept fd w with fdToIndex := update w.fdToIndex fd (some i) }) h.free
    exact fun unused => absurd unused nonzero
  | init i cd live fd =>
    apply free_slot h.free
    exact fun free => absurd (fd ▸ free) live
  | reset i kept =>
    apply free_slot h.free
    intro free
    obtain ⟨active, streaming, forward⟩ := h.free i free
    exact ⟨active, streaming, forward⟩
  | delete c i nonzero index =>
    obtain ⟨active, streaming, forward⟩ : Unflagged (w.clients i) :=
      clears _ List.mem_cons_self
    unfold connDel
    rw [if_neg (Nat.not_lt.mpr (Nat.one_le_iff_ne_zero.mpr nonzero)), index]
    apply free_slot h.free
    exact fun _ => ⟨active, streaming, forward⟩
  | store c x w' clients index states =>
    rw [clients]
    exact h.free
  | unreachable c => exact h.free
  | cleanup c w' clients index states =>
    rw [clients]
    exact h.free

theorem Cleared.does (h : Cleared w) {cs : List Call} (does : Does True w cs w')
    (clears : ∀ call ∈ cs, Clears call) : Cleared w' := by
  induction does with
  | refl => exact h
  | head piece _ ih =>
    apply ih
    · exact h.piece piece fun call listed => clears call (List.mem_append_left _ listed)
    · exact fun call listed => clears call (List.mem_append_right _ listed)

theorem Cleared.step (w : World) (e : EventLoop.Event) (h : Cleared w) (released : Released w e) :
    Cleared (EventLoop.step w e) :=
  h.does (step_does h.indexed fun _ => trivial) released

/-- `conn_add` fills the slot `i` for a descriptor that was not in use. -/
structure Fills (w : World) (fd : Fd) (i : Nat) (w₁ : World) : Prop where
  unused : w.sockets fd = none
  added : connAdd fd (accept fd w) = some w₁
  index : w₁.fdToIndex fd = some i

/-- `my_on_accept` gets a descriptor that was not in use and keeps the connection, in the
slot `i`. -/
structure Admits (w : World) (io : AcceptIo) (i : Nat) : Prop where
  nonzero : io.fd ≠ 0
  unused : w.sockets io.fd = none
  slot : (EventLoop.step w (.accept io)).fdToIndex io.fd = some i
  opened : ((EventLoop.step w (.accept io)).sockets io.fd).isSome = true

/-- `w` and `v` differ at most in what the slot `i` was left with. -/
def SameBut (i : Nat) (w v : World) : Prop := ∃ cd, v = setClient i cd w

theorem Fills.eq {fd : Fd} {i : Nat} (fills : Fills w fd i w') :
    (w.clients i).fd = 0 ∧ w' = register fd i (accept fd w) := by
  obtain ⟨_, added, index⟩ := fills
  obtain ⟨j, _, free, rfl⟩ := connAdd_some added
  have same : (register fd j (accept fd w)).fdToIndex fd = some j := update_self ..
  rw [same] at index
  cases index
  exact ⟨free, rfl⟩

/-- `conn_add` leaves the flags of the slot as they are. -/
theorem register_flags (fd : Fd) (i : Nat) (w : World) :
    SameFlags (w.clients i) ((register fd i (accept fd w)).clients i) := by
  constructor
  all_goals simp [register, setClient, accept, openFd]

theorem Cleared.fills (h : Cleared w) {fd : Fd} {i : Nat} (fills : Fills w fd i w') :
    Unflagged (w'.clients i) := by
  obtain ⟨free, rfl⟩ := fills.eq
  exact (h.free i free).same (register_flags fd i w)

/-- The routing of a connection that a listener has just got. -/
def listenerRoutes : Listener → Reader × Writer
  | .http => (.parser, .send)
  | .socket => (.socket, .send)
  | .forward _ => (.relay, .relay)

theorem connDel_index (c : Fd) (w : World) (nonzero : c ≠ 0) :
    (connDel c w).fdToIndex c = none := by
  unfold connDel
  rw [if_neg (Nat.not_lt.mpr (Nat.one_le_iff_ne_zero.mpr nonzero))]
  split
  · assumption
  · exact update_self ..

theorem forwardOnAccept_relays {c : Fd} {i j : Nat} {proto : ForwardProto} {connect : Option Fd}
    (index : w.fdToIndex c = some i)
    (slot : (forwardOnAccept c proto connect w).fdToIndex c = some j)
    (opened : ((forwardOnAccept c proto connect w).sockets c).isSome = true) :
    ((forwardOnAccept c proto connect w).clients j).forwardActive = true := by
  unfold forwardOnAccept at *
  cases fresh : connectFresh connect w with
  | none =>
    rw [fresh] at opened
    simp [closeFd] at opened
  | some u =>
    rw [fresh] at slot
    simp only [openFd, index] at slot ⊢
    cases index.symm.trans slot
    simp [setClient]

theorem attach_routes {io : AcceptIo} {i : Nat} (nonzero : io.fd ≠ 0)
    (index : w.fdToIndex io.fd = some i) (unflagged : Unflagged (w.clients i))
    (plain : (w.clients i).isHttp = false) {j : Nat}
    (slot : (attach io i w).fdToIndex io.fd = some j)
    (opened : ((attach io i w).sockets io.fd).isSome = true) :
    reader ((attach io i w).clients j) = (listenerRoutes io.listener).1 ∧
      writer ((attach io i w).clients j) = (listenerRoutes io.listener).2 := by
  obtain ⟨active, streaming, forward⟩ := unflagged
  have deleted (w' : World) : (connDel io.fd w').fdToIndex io.fd ≠ some j := by
    rw [connDel_index io.fd w' nonzero]
    exact nofun
  unfold attach at *
  cases listener : io.listener with
  | http =>
    rw [listener] at slot
    dsimp only at *
    split at slot
    · exact absurd slot (deleted _)
    · rename_i registered
      rw [if_neg registered]
      rw [setClient, index] at slot
      cases slot
      simp [reader, writer, listenerRoutes, setClient, active, streaming, forward]
  | socket =>
    rw [listener] at slot
    dsimp only at *
    split at slot
    · exact absurd slot (deleted _)
    · rename_i registered
      rw [if_neg registered]
      rw [setClient, index] at slot
      cases slot
      simp [reader, writer, listenerRoutes, setClient, active, forward, plain]
  | forward proto =>
    rw [listener] at slot opened
    dsimp only at *
    split at slot
    · exact absurd slot (deleted _)
    rename_i registered
    rw [if_neg registered] at opened ⊢
    have relays := forwardOnAccept_relays
      (w := setClient i { w.clients i with info := io.info } w) index slot opened
    simp [reader, writer, listenerRoutes, relays]

theorem Cleared.admits (h : Cleared w) {io : AcceptIo} {i : Nat} (admits : Admits w io i) :
    reader ((EventLoop.step w (.accept io)).clients i) = (listenerRoutes io.listener).1 ∧
      writer ((EventLoop.step w (.accept io)).clients i) = (listenerRoutes io.listener).2 := by
  obtain ⟨nonzero, unused, slot, opened⟩ := admits
  rw [EventLoop.step] at *
  unfold myOnAccept at *
  have usable : ¬(io.fd = 0 ∨ (w.sockets io.fd).isSome) := by simp [nonzero, unused]
  rw [if_neg usable] at *
  cases added : connAdd io.fd (accept io.fd w) with
  | none =>
    rw [added] at opened
    simp [closeFd] at opened
  | some w₁ =>
    rw [added] at slot opened
    dsimp only at *
    obtain ⟨j, _, free, rfl⟩ := connAdd_some added
    have index : (register io.fd j (accept io.fd w)).fdToIndex io.fd = some j := update_self ..
    have unflagged := (h.free j free).same (register_flags io.fd j w)
    have plain : ((register io.fd j (accept io.fd w)).clients j).isHttp = false := by
      simp [register, setClient]
    generalize register io.fd j (accept io.fd w) = w₂ at *
    unfold setUpClient at *
    split at slot
    · rw [connDel_index io.fd w₂ nonzero] at slot
      cases slot
    · rename_i room
      rw [if_neg room] at opened ⊢
      rw [index] at slot opened ⊢
      dsimp only at *
      refine attach_routes (w := enroll io j w₂) nonzero index ?_ ?_ slot opened
      · obtain ⟨active, streaming, forward⟩ := unflagged
        constructor
        all_goals simp [enroll, setClient, *]
      · simp [enroll, setClient, plain]

/-- What a free slot was left with, its flags apart, is gone after `conn_add`. -/
theorem register_same {i : Nat} (same : SameBut i w v)
    (flags : SameFlags (w.clients i) (v.clients i)) (fd : Fd) :
    register fd i (accept fd w) = register fd i (accept fd v) := by
  obtain ⟨cd, rfl⟩ := same
  obtain ⟨active, streaming, forward⟩ := flags
  simp only [setClient, update_self] at active streaming forward
  simp [register, accept, openFd, setClient, connAt, active, streaming, forward]

theorem freeSlot_same {i : Nat} (same : ∀ j, (w.clients j).fd = (v.clients j).fd) (n : Nat) :
    freeSlot w n i = freeSlot v n i := by
  induction n generalizing i with
  | zero => rfl
  | succ n ih => rw [freeSlot, freeSlot, same i, ih]

/-- Two states that differ in what a free slot was left with become one when a connection
gets the slot. -/
theorem accept_same (hw : Cleared w) (hv : Cleared v) {io : AcceptIo} {i : Nat}
    (same : SameBut i w v) (fills : Fills w io.fd i w') (free : (v.clients i).fd = 0) :
    EventLoop.step w (.accept io) = EventLoop.step v (.accept io) := by
  obtain ⟨unused, _⟩ := fills.eq
  have flags : SameFlags (w.clients i) (v.clients i) := by
    obtain ⟨active, streaming, forward⟩ := hw.free i unused
    exact (fun ⟨a, s, f⟩ => ⟨a.trans active.symm, s.trans streaming.symm, f.trans forward.symm⟩)
      (hv.free i free)
  have sockets : v.sockets = w.sockets := by
    obtain ⟨cd, rfl⟩ := same
    rfl
  have fds (j : Nat) : ((accept io.fd w).clients j).fd = ((accept io.fd v).clients j).fd := by
    change (w.clients j).fd = (v.clients j).fd
    by_cases here : j = i
    · rw [here, unused, free]
    · obtain ⟨cd, rfl⟩ := same
      exact congrArg ClientData.fd (update_of_ne here ..).symm
  have added : connAdd io.fd (accept io.fd v) = connAdd io.fd (accept io.fd w) := by
    obtain ⟨_, added, index⟩ := fills
    rw [added]
    unfold connAdd at added ⊢
    split at added
    · cases added
    rename_i nonzero
    rw [if_neg nonzero]
    rw [freeSlot_same fds] at added
    split at added
    · cases added
    rename_i j slot
    cases added
    have here : j = i := by
      have filled : (register io.fd j (accept io.fd w)).fdToIndex io.fd = some j :=
        update_self ..
      exact Option.some.inj (filled.symm.trans index)
    subst here
    rw [← register_same same flags]
  have nonzero : io.fd ≠ 0 := by
    intro zero
    have refused : connAdd io.fd (accept io.fd w) = none := if_pos (by rw [zero]; decide)
    cases refused.symm.trans fills.added
  simp [EventLoop.step, myOnAccept, sockets, added, fills.added, fills.unused, nonzero]

/-- What a connection gets from the slot when it comes in through `io`, in the states `w` and
`v`: clear flags, the same routing in both, and the same future if the states differ in what
the slot was left with at most. -/
structure InheritsNothing (w v : World) (io : AcceptIo) : Prop where
  flags : ∀ i w₁, Fills w io.fd i w₁ → Unflagged (w₁.clients i)
  routes : ∀ i j, Admits w io i → Admits v io j →
    reader ((EventLoop.step w (.accept io)).clients i) =
        reader ((EventLoop.step v (.accept io)).clients j) ∧
      writer ((EventLoop.step w (.accept io)).clients i) =
        writer ((EventLoop.step v (.accept io)).clients j)
  future : ∀ i w₁, SameBut i w v → Fills w io.fd i w₁ → (v.clients i).fd = 0 → ∀ gs,
    run EventLoop.step w (.accept io :: gs) = run EventLoop.step v (.accept io :: gs)

/-- In runs that release every connection before they delete it, a new connection inherits
nothing. -/
theorem slot_inherits_nothing (es fs : List EventLoop.Event)
    (hes : Guarded EventLoop.step Released World.init es)
    (hfs : Guarded EventLoop.step Released World.init fs) (io : AcceptIo) :
    InheritsNothing (run EventLoop.step World.init es) (run EventLoop.step World.init fs) io := by
  have hw : Cleared (run EventLoop.step World.init es) :=
    run_invariant Cleared.step Cleared.init hes
  have hv : Cleared (run EventLoop.step World.init fs) :=
    run_invariant Cleared.step Cleared.init hfs
  constructor
  · intro i w₁ fills
    exact hw.fills fills
  · intro i j left right
    obtain ⟨readLeft, writeLeft⟩ := hw.admits left
    obtain ⟨readRight, writeRight⟩ := hv.admits right
    exact ⟨readLeft.trans readRight.symm, writeLeft.trans writeRight.symm⟩
  · intro i w₁ same fills free gs
    exact congrArg (fun w => run EventLoop.step w gs) (accept_same hw hv same fills free)

def upgrade : ReadResult :=
  .data (ascii "GET / HTTP/1.1\r\nUpgrade: websocket\r\n\r\n")

/-- A WebSocket whose upstream closes its side. -/
def cleanedUp : List EventLoop.Event :=
  [.accept (httpClient 5),
    .clientReadable 5 upgrade (proxiedIo (some 6)),
    .upstreamReadable 6 .eof .again]

/-- A connection without a request. -/
def silent : List EventLoop.Event := [.accept (httpClient 5), .clientReadable 5 .eof answeredIo]

theorem slot_inherits_nothing_sample :
    InheritsNothing (run EventLoop.step World.init cleanedUp)
      (run EventLoop.step World.init silent) (httpClient 5) :=
  slot_inherits_nothing cleanedUp silent (by decide +kernel) (by decide +kernel) (httpClient 5)

/-- A WebSocket whose client closes its side. -/
def abandoned : List EventLoop.Event :=
  [.accept (httpClient 5),
    .clientReadable 5 upgrade (proxiedIo (some 6)),
    .clientReadable 5 .eof answeredIo]

/-- The next connection starts as a WebSocket, and its bytes bypass the parser. -/
theorem websocket_flags_inherited :
    ¬ InheritsNothing (run EventLoop.step World.init abandoned)
      (run EventLoop.step World.init silent) (httpClient 5) := by
  intro clean
  have abandoned₀ : Admits (run EventLoop.step World.init abandoned) (httpClient 5) 0 :=
    ⟨by decide, by decide +kernel, by decide +kernel, by decide +kernel⟩
  have silent₀ : Admits (run EventLoop.step World.init silent) (httpClient 5) 0 :=
    ⟨by decide, by decide +kernel, by decide +kernel, by decide +kernel⟩
  exact absurd (clean.routes 0 0 abandoned₀ silent₀).1 (by decide +kernel)

end SlotReuse
