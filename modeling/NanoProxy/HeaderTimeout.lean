import NanoProxy.ConnectionTable
import NanoProxy.Lib.Runs

/-!
# The header timeout (`connection_timeout_sweep`)

The sweep compares the time since `accept`, while the parser of a connection that is kept
alive goes back to its first state for every request, also below a body that is still being
sent. Only the first request of a connection is timed as the timeout is meant.
-/

namespace HeaderTimeout

open CLib HttpRequestParser ParserPasses ProxyExchange EventLoop ConnectionTable Runs Function

/-- `g_conn_timeouts` -/
structure ConnectionTimeouts where
  headerTimeout : Int
  bodyTimeout : Int
  idleTimeout : Int

/-- `stale_reason` -/
inductive Reason where
  | header
  | body
  | idle
  deriving DecidableEq

/-- Why a slot is collected, if it is. -/
def staleReason (t : ConnectionTimeouts) (now : Int) (cd : ClientData) : Option Reason :=
  if cd.fd = 0 ∨ cd.forwardActive ∨ cd.proxyActive ∨ cd.proxyStreaming then none
  else if cd.isHttp ∧ readingHeaders cd.parser ∧ 0 < t.headerTimeout ∧
      t.headerTimeout ≤ now - cd.acceptTime then some .header
  else if cd.isHttp ∧ cd.parser.state = .body ∧ 0 < t.bodyTimeout ∧
      t.bodyTimeout ≤ now - cd.lastActivity then some .body
  else if 0 < t.idleTimeout ∧ t.idleTimeout ≤ now - cd.lastActivity then some .idle
  else none

/-- `stale_fds`: one sweep collects 256 slots at most. -/
def staleSlots (t : ConnectionTimeouts) (w : World) : List (Nat × Reason) :=
  ((List.range NUM_CLIENTS).filterMap fun i =>
    (staleReason t w.now (w.clients i)).map fun reason => (i, reason)).take 256

/-- `connection_timeout_sweep` comes after `proxy_timeout_sweep`. -/
def atSweep (now : Int) (exchanges : List Fd) (w : World) : World :=
  exchanges.foldl proxyTimeout { w with now := now }

variable {t : ConnectionTimeouts} {now : Int} {w w' : World}

theorem staleReason_header {cd : ClientData} (stale : staleReason t now cd = some .header) :
    readingHeaders cd.parser = true ∧ t.headerTimeout ≤ now - cd.acceptTime := by
  unfold staleReason at stale
  split at stale
  · cases stale
  split at stale
  · rename_i header
    exact ⟨header.2.1, header.2.2.2⟩
  split at stale
  · cases stale
  split at stale
  · cases stale
  · cases stale

theorem staleSlots_reason {i : Nat} {reason : Reason} (stale : (i, reason) ∈ staleSlots t w) :
    staleReason t w.now (w.clients i) = some reason := by
  obtain ⟨j, _, collected⟩ := List.mem_filterMap.mp (List.mem_of_mem_take stale)
  obtain ⟨found, reason', pair⟩ := Option.map_eq_some_iff.mp collected
  cases pair
  exact reason'

/-- The first slot is collected first. -/
theorem staleSlots_zero {reason : Reason}
    (stale : staleReason t w.now (w.clients 0) = some reason) :
    (0, reason) ∈ staleSlots t w := by
  rw [staleSlots, show NUM_CLIENTS = 9999 + 1 from rfl, List.range_succ_eq_map,
    List.filterMap_cons_some (by rw [stale]; rfl), List.take_succ_cons]
  exact List.mem_cons_self

/-- A connection whose parser has not been reset yet has waited since it was accepted, and
sends nothing while it reads the headers of its first request. -/
structure Waits (cd : ClientData) : Prop where
  start : cd.start ≤ cd.bytesRead
  since : cd.start = 0 → cd.waitingSince = cd.acceptTime
  sends : Sending cd → 0 < cd.bytesRead
  first : Sending cd → cd.start = 0 → readingHeaders cd.parser = false

theorem Waits.free : Waits .free where
  start := Nat.le_refl _
  since := fun _ => rfl
  sends := fun sending => absurd rfl sending.2
  first := fun sending => absurd rfl sending.2

theorem Waits.flags {a b : ClientData} (h : Waits a) (same : SameRequest a b) : Waits b where
  start := by
    rw [same.start, same.bytesRead]
    exact h.start
  since := by
    rw [same.start, same.waitingSince, same.acceptTime]
    exact h.since
  sends := by
    intro sends
    rw [same.bytesRead]
    rcases same.sending sends with before | requested
    · exact h.sends before
    · exact requested.read
  first := by
    intro sends
    have headers : readingHeaders b.parser = readingHeaders a.parser := by
      rw [readingHeaders, same.state, readingHeaders]
    rw [same.start, headers]
    rcases same.sending sends with before | requested
    · exact h.first before
    · exact fun _ => requested.headers

theorem Waits.reset (h : ∀ i, Waits (w.clients i)) (i : Nat) :
    ∀ j, Waits ((resetParser i w).clients j) := by
  intro j
  change Waits (update w.clients i _ j)
  rw [update_apply]
  split
  · obtain ⟨start, since, sends, first⟩ := h i
    refine ⟨Nat.le_refl _, ?_, sends, ?_⟩
    · intro unread
      dsimp only at unread ⊢
      rw [if_pos (Or.inl unread)]
      exact since (Nat.eq_zero_of_le_zero (unread ▸ start))
    · intro sending unread
      exact absurd unread (Nat.ne_of_gt (sends sending))
  · exact h j

theorem Waits.entry (h : ∀ i, Waits (w.clients i)) {e : EventLoop.Event} (entry : Entry w e w') :
    ∀ i, Waits (w'.clients i) := by
  cases entry with
  | none e => exact h
  | slot io i nonzero closed room free =>
    intro j
    change Waits (update w.clients i _ j)
    rw [update_apply]
    split
    · exact ⟨Nat.le_refl _, fun _ => rfl, fun sending => absurd rfl sending.2,
        fun sending => absurd rfl sending.2⟩
    · exact h j
  | full io => exact h

theorem Waits.move {rules : Rules} (h : ∀ i, Waits (w.clients i)) (move : Move rules w w') :
    ∀ i, Waits (w'.clients i) := by
  have one (i : Nat) (cd : ClientData) (waits : Waits cd) (j : Nat) :
      Waits (update w.clients i cd j) := by
    rw [update_apply]
    split
    · exact waits
    · exact h j
  -- bytes that the parser is fed do not bring it back before the end of the headers
  have fed (i : Nat) (data : Bytes) (j : Nat) : Waits ((storeParser i
      (httpParserFeed .default (w.clients i).parser data).1 data.length w).clients j) := by
    refine one i _ ?_ j
    obtain ⟨start, since, sends, first⟩ := h i
    refine ⟨Nat.le_trans start (Nat.le_add_right _ _), since,
      fun sending => Nat.lt_of_lt_of_le (sends sending) (Nat.le_add_right _ _), ?_⟩
    exact fun sending unreset =>
      (httpParserFeed_fed _ _ _).behind (Or.inl (first sending unreset))
  cases move with
  | other w' clients index counts nextConn dispatched =>
    rw [clients]
    exact h
  | flags i cd same => exact one i cd ((h i).flags same)
  | reset i => exact Waits.reset h i
  | count i data =>
    refine one i _ ?_
    obtain ⟨start, since, sends, first⟩ := h i
    exact ⟨Nat.le_trans start (Nat.le_add_right _ _), since,
      fun sending => Nat.lt_of_lt_of_le (sends sending) (Nat.le_add_right _ _), first⟩
  | feed i data ok => exact fed i data
  | request c i data index some_data positive ok => exact fed i data
  | http i io unread =>
    refine one i _ ?_
    obtain ⟨start, since, sends, first⟩ := h i
    exact ⟨start, since, sends, fun sending _ => absurd unread (Nat.ne_of_gt (sends sending))⟩
  | enroll io i index unknown below ok =>
    obtain ⟨start, since, sends, first⟩ := h i
    exact one i _ ⟨start, since, sends, first⟩
  | drop c =>
    unfold connDel
    split
    · exact h
    split
    · exact h
    rename_i i _
    obtain ⟨start, since, sends, first⟩ := h i
    refine one i _ ⟨start, since, fun sending => ?_, fun sending => ?_⟩
    · exact absurd sending.1 Bool.false_ne_true
    · exact absurd sending.1 Bool.false_ne_true

theorem waits_step (w : World) (e : EventLoop.Event) (h : ∀ i, Waits (w.clients i)) :
    ∀ i, Waits ((EventLoop.step w e).clients i) := by
  have allowed : Allowed noRules w e := allowed_of_admitted (fun _ => trivial) fun _ _ => trivial
  exact step_table_invariant (fun entry => Waits.entry h entry)
    (fun h move => Waits.move h move) allowed

/-- What the sweep finds after any run. -/
theorem waits_atSweep (es : List EventLoop.Event) (now : Int) (exchanges : List Fd) :
    ∀ i, Waits ((atSweep now exchanges (run EventLoop.step World.init es)).clients i) := by
  have initial (i : Nat) : Waits (World.init.clients i) := Waits.free
  have reached : ∀ i, Waits ((run EventLoop.step World.init es).clients i) :=
    run_always waits_step initial es
  generalize run EventLoop.step World.init es = w at *
  have moves : Moves noRules { w with now := now } (atSweep now exchanges w) :=
    proxyTimeouts_moves exchanges _
  generalize atSweep now exchanges w = w' at moves
  induction moves with
  | refl => exact reached
  | tail _ move ih => exact Waits.move ih move

/-- Whatever has happened, a connection that the sweep picks for the header timeout while it is
still at its first request has waited for it, with no response in progress. -/
theorem header_timeout_first (t : ConnectionTimeouts) (es : List EventLoop.Event) (now : Int)
    (exchanges : List Fd) (i : Nat)
    (picked : (i, Reason.header) ∈
      staleSlots t (atSweep now exchanges (run EventLoop.step World.init es)))
    (first : ((atSweep now exchanges (run EventLoop.step World.init es)).clients i).start = 0) :
    let w := atSweep now exchanges (run EventLoop.step World.init es)
    ¬ Sending (w.clients i) ∧ t.headerTimeout ≤ w.now - (w.clients i).waitingSince := by
  intro w
  have waits : Waits (w.clients i) := waits_atSweep es now exchanges i
  obtain ⟨headers, waited⟩ := staleReason_header (staleSlots_reason picked)
  change t.headerTimeout ≤ w.now - (w.clients i).acceptTime at waited
  change readingHeaders (w.clients i).parser = true at headers
  constructor
  · intro sending
    exact Bool.false_ne_true ((waits.first sending first).symm.trans headers)
  · rw [waits.since first]
    exact waited

def defaults : ConnectionTimeouts := ⟨10, 30, 60⟩

def client : EventLoop.Event := .accept (httpClient 5)

theorem header_timeout_sample :
    let w := atSweep 10 [] (run EventLoop.step World.init [client])
    ¬ Sending (w.clients 0) ∧ defaults.headerTimeout ≤ w.now - (w.clients 0).waitingSince :=
  header_timeout_first defaults [client] 10 [] 0 (staleSlots_zero (by decide +kernel))
    (by decide +kernel)

/-- Behind the first request `accept_time` says nothing: whenever a connection began to wait at a
later second, some `header_timeout` picks it in that very second. -/
theorem staleReason_late {cd : ClientData} (http : cd.isHttp = true) (used : cd.fd ≠ 0)
    (free : ¬(cd.forwardActive ∨ cd.proxyActive ∨ cd.proxyStreaming))
    (headers : readingHeaders cd.parser = true) (late : cd.acceptTime < cd.waitingSince) :
    ∃ t : ConnectionTimeouts, staleReason t cd.waitingSince cd = some .header ∧
      cd.waitingSince - cd.waitingSince < t.headerTimeout := by
  refine ⟨⟨cd.waitingSince - cd.acceptTime, 0, 0⟩, ?_, by dsimp only; omega⟩
  unfold staleReason
  rw [if_neg (by rw [not_or]; exact ⟨used, free⟩), if_pos ⟨http, headers, by dsimp only; omega,
    Int.le_refl _⟩]

/-- A request that comes after nine seconds, and that is answered at once. -/
def answered : List EventLoop.Event :=
  [client, .timer 9 [] [], .clientReadable 5 (.data (ascii "GET / HTTP/1.1\r\n\r\n")) answeredIo]

theorem header_timeout_early :
    ¬ ∀ (t : ConnectionTimeouts) (es : List EventLoop.Event) (now : Int) (exchanges : List Fd)
      (i : Nat), (i, Reason.header) ∈
        staleSlots t (atSweep now exchanges (run EventLoop.step World.init es)) →
      let w := atSweep now exchanges (run EventLoop.step World.init es)
      ¬ Sending (w.clients i) ∧ t.headerTimeout ≤ w.now - (w.clients i).waitingSince := by
  intro right
  have waited := (right defaults answered 10 [] 0 (staleSlots_zero (by decide +kernel))).2
  exact absurd waited (by decide +kernel)

end HeaderTimeout
