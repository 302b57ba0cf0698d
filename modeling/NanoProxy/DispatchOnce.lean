import NanoProxy.ConnectionTable
import NanoProxy.Lib.Runs

/-!
# At most one dispatch for each request

A request is named by its connection and by the place in the stream where its parser was
last reset. The parser returns 1 again for whatever it is fed before it is reset, so that
the reads of `my_on_read` decide how often a request is dispatched.
-/

namespace DispatchOnce

open CLib HttpRequestParser ParserPasses ProxyExchange KeepalivePool ForwardRelay EventLoop
open ConnectionTable Runs Function

/-- The parser streams a body only once its request is complete. -/
structure Slot (cd : ClientData) : Prop where
  start : cd.start ≤ cd.bytesRead
  streaming : cd.parser.streamingBody = true →
    cd.parser.state = .done ∨ cd.parser.state = .error

/-- `b` is a later state of the slot with the same connection; a complete request stays
complete until the parser is reset behind it. -/
structure Later (a b : ClientData) : Prop where
  conn : b.conn = a.conn
  bytesRead : a.bytesRead ≤ b.bytesRead
  start : a.start ≤ b.start
  done : b.start = a.start → a.start < a.bytesRead → a.parser.state = .done →
    b.parser.state = .done

theorem Later.refl (a : ClientData) : Later a a :=
  ⟨rfl, Nat.le_refl _, Nat.le_refl _, fun _ _ h => h⟩

/-- Nothing is accepted or dispatched between `w` and `w'`. -/
structure Calm (w w' : World) : Prop where
  nextConn : w'.nextConn = w.nextConn
  dispatched : w'.dispatched = w.dispatched
  index : ∀ c i, w'.fdToIndex c = some i → w.fdToIndex c = some i
  later : ∀ i, Later (w.clients i) (w'.clients i)
  slots : ∀ i, Slot (w'.clients i)

variable {w w' : World}

/-- What does not touch the connection table is calm. -/
theorem Calm.same (slots : ∀ i, Slot (w.clients i)) (clients : w'.clients = w.clients)
    (index : w'.fdToIndex = w.fdToIndex) (nextConn : w'.nextConn = w.nextConn)
    (dispatched : w'.dispatched = w.dispatched) : Calm w w' where
  nextConn := nextConn
  dispatched := dispatched
  index := fun c i listed => by rwa [index] at listed
  later := fun i => by rw [clients]; exact .refl _
  slots := fun i => by rw [clients]; exact slots i

theorem Calm.refl (slots : ∀ i, Slot (w.clients i)) : Calm w w := .same slots rfl rfl rfl rfl

theorem setClient_calm (slots : ∀ i, Slot (w.clients i)) {i : Nat} {cd : ClientData}
    (later : Later (w.clients i) cd) (slot : Slot cd) : Calm w (setClient i cd w) where
  nextConn := rfl
  dispatched := rfl
  index := fun _ _ listed => listed
  later := by
    intro j
    change Later (w.clients j) (update w.clients i cd j)
    rw [update_apply]
    split
    · rename_i same
      rw [same]
      exact later
    · exact .refl _
  slots := by
    intro j
    change Slot (update w.clients i cd j)
    rw [update_apply]
    split
    · exact slot
    · exact slots j

theorem flags_calm (slots : ∀ i, Slot (w.clients i)) {i : Nat} {cd : ClientData}
    (same : SameRequest (w.clients i) cd) : Calm w (setClient i cd w) := by
  refine setClient_calm slots
    ⟨same.conn, Nat.le_of_eq same.bytesRead.symm, Nat.le_of_eq same.start.symm, ?_⟩ ⟨?_, ?_⟩
  · intro _ _ done
    rw [same.state]
    exact done
  · rw [same.start, same.bytesRead]
    exact (slots i).start
  · intro streamed
    rw [same.state]
    rcases same.streaming streamed with before | requested
    · exact (slots i).streaming before
    · rcases requested.complete with done | streaming
      · exact Or.inl done
      · exact (slots i).streaming streaming

theorem connDel_calm (slots : ∀ i, Slot (w.clients i)) (c : Fd) : Calm w (connDel c w) := by
  unfold connDel
  split
  · exact .refl slots
  split
  · exact .refl slots
  rename_i i index
  have freed : Calm w (setClient i { w.clients i with
      fd := 0, sendingBody := false, sendRemaining := 0 } w) :=
    setClient_calm slots ⟨rfl, Nat.le_refl _, Nat.le_refl _, fun _ _ done => done⟩
      ⟨(slots i).start, (slots i).streaming⟩
  exact {
    nextConn := rfl
    dispatched := rfl
    index := by
      intro d j listed
      change update w.fdToIndex c none d = some j at listed
      rw [update_apply] at listed
      split at listed
      · cases listed
      · exact listed
    later := freed.later
    slots := freed.slots }

theorem resetParser_calm (slots : ∀ i, Slot (w.clients i)) (i : Nat) :
    Calm w (resetParser i w) := by
  refine setClient_calm slots ⟨rfl, Nat.le_refl _, (slots i).start, ?_⟩ ⟨Nat.le_refl _, ?_⟩
  · intro same read _
    exact absurd same (Nat.ne_of_gt read)
  · exact fun streamed => absurd streamed Bool.false_ne_true

theorem countRead_calm (slots : ∀ i, Slot (w.clients i)) (i : Nat) (data : Bytes) :
    Calm w (countRead i data w) := by
  refine setClient_calm slots ⟨rfl, Nat.le_add_right _ _, Nat.le_refl _, fun _ _ done => done⟩ ?_
  exact ⟨Nat.le_trans (slots i).start (Nat.le_add_right _ _), (slots i).streaming⟩

theorem feed_calm (slots : ∀ i, Slot (w.clients i)) {i : Nat} (data : Bytes)
    (waiting : (w.clients i).parser.state ≠ .done) :
    Calm w (storeParser i (httpParserFeed .default (w.clients i).parser data).1 data.length w) := by
  have fed := httpParserFeed_fed .default (w.clients i).parser data
  refine setClient_calm slots ⟨rfl, Nat.le_add_right _ _, Nat.le_refl _, ?_⟩ ⟨?_, ?_⟩
  · exact fun _ _ done => absurd done waiting
  · exact Nat.le_trans (slots i).start (Nat.le_add_right _ _)
  · intro streamed
    have before := (slots i).streaming (fed.streamingBody.symm.trans streamed)
    exact Or.inr (httpParserFeed_error (before.resolve_left waiting)).1

theorem http_calm (slots : ∀ i, Slot (w.clients i)) {i : Nat} (io : AcceptIo)
    (unread : (w.clients i).bytesRead = 0) : Calm w (setClient i { w.clients i with
      isHttp := true, parser := httpParserInit io.fd, info := io.info } w) := by
  refine setClient_calm slots ⟨rfl, Nat.le_refl _, Nat.le_refl _, ?_⟩ ⟨(slots i).start, ?_⟩
  · intro _ read _
    rw [unread] at read
    exact absurd read (Nat.not_lt_zero _)
  · exact fun streamed => absurd streamed Bool.false_ne_true

theorem enroll_calm (slots : ∀ i, Slot (w.clients i)) (io : AcceptIo) (i : Nat) :
    Calm w (enroll io i w) := by
  have known : Calm w (setClient i { w.clients i with peerIp := io.ip } w) :=
    setClient_calm slots ⟨rfl, Nat.le_refl _, Nat.le_refl _, fun _ _ done => done⟩
      ⟨(slots i).start, (slots i).streaming⟩
  exact ⟨rfl, rfl, known.index, known.later, known.slots⟩

/-- The places of the requests on the connection of a slot lie before the place of the
current one, or the current one is complete and was dispatched itself. -/
structure Once (w : World) : Prop where
  nodup : w.dispatched.Nodup
  logged : ∀ k s, (k, s) ∈ w.dispatched → k < w.nextConn
  known : ∀ i, (w.clients i).conn < w.nextConn
  distinct : ∀ i j, (w.clients i).conn ≠ 0 → (w.clients i).conn = (w.clients j).conn → i = j
  listed : ∀ c i, w.fdToIndex c = some i → (w.clients i).conn ≠ 0
  slots : ∀ i, Slot (w.clients i)
  current : ∀ i s, (w.clients i).conn ≠ 0 → ((w.clients i).conn, s) ∈ w.dispatched →
    s < (w.clients i).start ∨ (s = (w.clients i).start ∧
      (w.clients i).parser.state = .done ∧ (w.clients i).start < (w.clients i).bytesRead)

theorem Once.init : Once World.init where
  nodup := List.nodup_nil
  logged := fun _ _ h => absurd h List.not_mem_nil
  known := fun _ => Nat.zero_lt_one
  distinct := fun _ _ h => absurd rfl h
  listed := fun _ _ h => nomatch h
  slots := fun _ => ⟨Nat.le_refl _, fun h => absurd h Bool.false_ne_true⟩
  current := fun _ _ h => absurd rfl h

theorem Once.calm (h : Once w) (calm : Calm w w') : Once w' where
  nodup := by
    rw [calm.dispatched]
    exact h.nodup
  logged := by
    rw [calm.dispatched, calm.nextConn]
    exact h.logged
  known := by
    intro i
    rw [(calm.later i).conn, calm.nextConn]
    exact h.known i
  distinct := by
    intro i j
    rw [(calm.later i).conn, (calm.later j).conn]
    exact h.distinct i j
  listed := by
    intro c i index
    rw [(calm.later i).conn]
    exact h.listed c i (calm.index c i index)
  slots := calm.slots
  current := by
    intro i s
    have later := calm.later i
    rw [later.conn, calm.dispatched]
    intro nonzero logged
    rcases h.current i s nonzero logged with before | ⟨here, done, read⟩
    · exact Or.inl (Nat.lt_of_lt_of_le before later.start)
    · rcases Nat.eq_or_lt_of_le later.start with same | moved
      · refine Or.inr ⟨here.trans same, later.done same.symm read done, ?_⟩
        rw [← same]
        exact Nat.lt_of_lt_of_le read later.bytesRead
      · exact Or.inl (here ▸ moved)

theorem Once.reject (h : Once w) (fd : Fd) : Once (closeFd fd (accept fd w)) where
  nodup := h.nodup
  logged := fun k s logged => Nat.lt_succ_of_lt (h.logged k s logged)
  known := fun i => Nat.lt_succ_of_lt (h.known i)
  distinct := h.distinct
  listed := h.listed
  slots := h.slots
  current := h.current

/-- A new connection has a number of its own. -/
theorem Once.register (h : Once w) (fd : Fd) (i : Nat) : Once (register fd i (accept fd w)) := by
  have conn : connAt (accept fd w) fd = w.nextConn := by simp [connAt, accept, openFd]
  obtain ⟨nodup, logged, known, distinct, listed, slots, current⟩ := h
  have positive := known i
  constructor
  all_goals simp only [EventLoop.register, conn]
  all_goals simp only [accept, openFd, setClient, update_apply]
  · exact nodup
  · exact fun k s entry => Nat.lt_succ_of_lt (logged k s entry)
  · grind
  · grind
  · grind
  · intro j
    split
    · exact ⟨Nat.le_refl _, fun streamed => absurd streamed Bool.false_ne_true⟩
    · exact slots j
  · grind

theorem Once.dispatch (h : Once w) {i : Nat}
    (fresh : ((w.clients i).conn, (w.clients i).start) ∉ w.dispatched)
    (done : (w.clients i).parser.state = .done)
    (read : (w.clients i).start < (w.clients i).bytesRead) : Once (noteDispatch i w) where
  nodup := by
    change (w.dispatched ++ [_]).Nodup
    rw [List.nodup_append]
    refine ⟨h.nodup, List.nodup_cons.mpr ⟨List.not_mem_nil, List.nodup_nil⟩, ?_⟩
    intro a logged b same equal
    rw [List.mem_singleton.mp same] at equal
    exact fresh (equal ▸ logged)
  logged := by
    intro k s entry
    change (k, s) ∈ w.dispatched ++ [_] at entry
    rcases List.mem_append.mp entry with before | new
    · exact h.logged k s before
    · cases List.mem_singleton.mp new
      exact h.known i
  known := h.known
  distinct := h.distinct
  listed := h.listed
  slots := h.slots
  current := by
    intro j s nonzero entry
    change ((w.clients j).conn, s) ∈ w.dispatched ++ [_] at entry
    rcases List.mem_append.mp entry with before | new
    · exact h.current j s nonzero before
    · obtain ⟨conn, start⟩ := Prod.mk.inj (List.mem_singleton.mp new)
      cases h.distinct j i nonzero conn
      exact Or.inr ⟨start, done, read⟩

/-- A request that is complete now was not complete before, so it has not been dispatched. -/
theorem Once.request (h : Once w) {c : Fd} {i : Nat} {data : Bytes}
    (index : w.fdToIndex c = some i) (some_data : data ≠ [])
    (positive : 0 < (httpParserFeed .default (w.clients i).parser data).2)
    (waiting : (w.clients i).parser.state ≠ .done) : Once (noteDispatch i
      (storeParser i (httpParserFeed .default (w.clients i).parser data).1 data.length w)) := by
  have fed := httpParserFeed_fed .default (w.clients i).parser data
  have stored := h.calm (feed_calm h.slots data waiting)
  have failing : (w.clients i).parser.streamingBody = true →
      (httpParserFeed .default (w.clients i).parser data).2 = -1 := by
    intro streamed
    exact (httpParserFeed_error (((h.slots i).streaming streamed).resolve_left waiting)).2
  generalize httpParserFeed .default (w.clients i).parser data = feed at *
  obtain ⟨parser, code⟩ := feed
  dsimp only at *
  have done : parser.state = .done := by
    rcases fed.codes with rfl | rfl | ⟨_, done⟩ | ⟨_, streamed⟩
    · exact absurd positive (by decide)
    · exact absurd positive (by decide)
    · exact done
    · rw [failing streamed] at positive
      exact absurd positive (by decide)
  have slot : (storeParser i parser data.length w).clients i = { w.clients i with
      parser := parser
      bytesRead := (w.clients i).bytesRead + data.length
      lastActivity := w.now } := update_self ..
  refine stored.dispatch ?_ ?_ ?_
  · rw [slot]
    intro logged
    rcases h.current i _ (h.listed c i index) logged with before | ⟨_, complete, _⟩
    · exact absurd before (Nat.lt_irrefl _)
    · exact waiting complete
  · rw [slot]
    exact done
  · rw [slot]
    have grows := List.length_pos_iff.mpr some_data
    have start := (h.slots i).start
    dsimp only
    omega

/-- `my_on_read` hands no bytes to a parser that still holds a complete request. -/
def Waiting (w : World) : EventLoop.Event → Prop
  | .clientReadable c (.data _) _ => ∀ i ∈ w.fdToIndex c, (w.clients i).forwardActive = true ∨
      (w.clients i).isHttp = false ∨ (w.clients i).proxyStreaming = true ∨
      (w.clients i).parser.state ≠ .done
  | _ => True

instance decidableWaiting (w : World) : ∀ e, Decidable (Waiting w e)
  | .accept _ => .isTrue trivial
  | .clientReadable c (.data _) _ => inferInstanceAs (Decidable (∀ i ∈ w.fdToIndex c,
      (w.clients i).forwardActive = true ∨ (w.clients i).isHttp = false ∨
      (w.clients i).proxyStreaming = true ∨ (w.clients i).parser.state ≠ .done))
  | .clientReadable _ .again _ => .isTrue trivial
  | .clientReadable _ .eof _ => .isTrue trivial
  | .clientReadable _ .failed _ => .isTrue trivial
  | .clientWritable _ _ _ => .isTrue trivial
  | .upstreamWritable _ _ _ => .isTrue trivial
  | .upstreamReadable _ _ _ => .isTrue trivial
  | .timer _ _ _ => .isTrue trivial
  | .arrive _ _ => .isTrue trivial

/-- No parser is fed that holds a complete request. -/
def waitingRules : Rules := ⟨fun _ => True, fun cd => cd.parser.state ≠ .done⟩

theorem Once.move (h : Once w) (move : Move waitingRules w w') : Once w' := by
  cases move with
  | other w' clients index counts nextConn dispatched =>
    exact h.calm (.same h.slots clients index nextConn dispatched)
  | flags i cd same => exact h.calm (flags_calm h.slots same)
  | reset i => exact h.calm (resetParser_calm h.slots i)
  | count i data => exact h.calm (countRead_calm h.slots i data)
  | feed i data waiting => exact h.calm (feed_calm h.slots data waiting)
  | request c i data index some_data positive waiting =>
    exact h.request index some_data positive waiting
  | http i io unread => exact h.calm (http_calm h.slots io unread)
  | enroll io i index unknown below ok => exact h.calm (enroll_calm h.slots io i)
  | drop c => exact h.calm (connDel_calm h.slots c)

theorem allowed_of_waiting {e : EventLoop.Event} (waiting : Waiting w e) :
    Allowed waitingRules w e := by
  cases e with
  | accept io => trivial
  | clientReadable c r io => cases r <;> exact waiting
  | clientWritable c cw r => trivial
  | upstreamWritable u soerr r => trivial
  | upstreamReadable u r cw => trivial
  | timer now exchanges slots => trivial
  | arrive u data => trivial

theorem Once.step (w : World) (e : EventLoop.Event) (h : Once w) (waiting : Waiting w e) :
    Once (EventLoop.step w e) := by
  refine step_table_invariant (fun entry => ?_) Once.move (allowed_of_waiting waiting)
  cases entry with
  | none e => exact h
  | slot io i nonzero closed room free => exact h.register io.fd i
  | full io => exact h.reject io.fd

/-- While `my_on_read` hands no bytes to a parser that holds a complete request, no request
is dispatched twice. -/
theorem dispatched_once (es : List EventLoop.Event)
    (waiting : Guarded EventLoop.step Waiting World.init es) :
    (run EventLoop.step World.init es).dispatched.Nodup :=
  (run_invariant Once.step Once.init waiting).nodup

def get : ReadResult := .data (ascii "GET / HTTP/1.1\r\n\r\n")

def twoRequests : List EventLoop.Event :=
  [.accept (httpClient 5), .clientReadable 5 get answeredIo,
    .clientReadable 5 get (proxiedIo (some 6))]

theorem dispatched_once_sample :
    (run EventLoop.step World.init twoRequests).dispatched = [(1, 0), (1, 18)] ∧
      (run EventLoop.step World.init twoRequests).dispatched.Nodup :=
  ⟨by decide +kernel, dispatched_once twoRequests (by decide +kernel)⟩

/-- A request is proxied, and a line end comes after it. -/
def lateLineEnd : List EventLoop.Event :=
  [.accept (httpClient 5), .clientReadable 5 get (proxiedIo (some 6)),
    .clientReadable 5 (.data (ascii "\r\n")) (proxiedIo (some 7))]

theorem dispatched_again :
    ¬ ∀ es : List EventLoop.Event, (run EventLoop.step World.init es).dispatched.Nodup := by
  intro once
  exact absurd (once lateLineEnd) (by decide +kernel)

end DispatchOnce
