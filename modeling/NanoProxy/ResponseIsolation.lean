import NanoProxy.LoopSteps

/-!
# Isolation of responses between clients

Two tables tie an upstream connection to its client, and both name the client by its
descriptor. `conn_del` leaves them alone, so that a number which is handed out again stands
for another client there.
-/

namespace ResponseIsolation

open CLib ProxyExchange KeepalivePool ForwardRelay EventLoop DescriptorTables LoopSteps Runs
open Function

variable {w w' : World}

/-- The descriptor of a new client is held for no other. -/
abbrev unheld : Rules where
  new := fun w fd => ¬ Held w fd
  refuse := True
  keep := fun _ _ => True
  done := fun _ _ => True

/-- What was opened, read and written on behalf of a client belongs to the connection that
has its descriptor. -/
structure Isolated (w : World) : Prop where
  opened : ∀ u c i s, w.upstreamFdToClient u = some c → w.fdToIndex c = some i →
    w.sockets u = some s → (w.clients i).isHttp = true ∧ s.conn = (w.clients i).conn
  read : ∀ c x i, w.proxyStates c = some x → w.fdToIndex c = some i →
    ∀ o ∈ w.sources c, o = (w.clients i).conn
  written : ∀ e ∈ w.delivered, e.1 = e.2

theorem Isolated.init : Isolated World.init where
  opened := fun _ _ _ _ h => nomatch h
  read := fun _ _ _ h => nomatch h
  written := fun _ h => absurd h List.not_mem_nil

/-- A change that opens nothing for a client and moves no bytes. -/
theorem Isolated.frame (h : Isolated w)
    (upstream : ∀ u c, w'.upstreamFdToClient u = some c → w.upstreamFdToClient u = some c)
    (entries : ∀ c y, w'.proxyStates c = some y → ∃ x, w.proxyStates c = some x)
    (index : ∀ c i, w'.fdToIndex c = some i → w.fdToIndex c = some i)
    (clients : ∀ i, (w'.clients i).conn = (w.clients i).conn ∧
      ((w.clients i).isHttp = true → (w'.clients i).isHttp = true))
    (sockets : ∀ u c t, w'.upstreamFdToClient u = some c → w'.sockets u = some t →
      ∃ s, w.sockets u = some s ∧ s.conn = t.conn)
    (sources : w'.sources = w.sources) (delivered : w'.delivered = w.delivered) : Isolated w' where
  opened := by
    intro u c i t mapped listed connected
    obtain ⟨s, before, conn⟩ := sockets u c t mapped connected
    obtain ⟨http, owner⟩ := h.opened u c i s (upstream u c mapped) (index c i listed) before
    exact ⟨(clients i).2 http, by rw [← conn, owner, (clients i).1]⟩
  read := by
    intro c y i entry listed o
    obtain ⟨x, before⟩ := entries c y entry
    rw [sources, (clients i).1]
    exact h.read c x i before (index c i listed) o
  written := by
    rw [delivered]
    exact h.written

theorem Isolated.register (h : Isolated w) (tables : Tables w) {fd : Fd} {i : Nat}
    (closed : w.sockets fd = none) (free : (w.clients i).fd = 0) (unheld : ¬ Held w fd) :
    Isolated (register fd i (accept fd w)) := by
  have hclient := tables.client
  have hupstream := tables.upstream
  have hproxied := tables.proxied
  rw [Held, not_or, not_exists] at unheld
  have conn : connAt (accept fd w) fd = w.nextConn := by simp [connAt, accept, openFd]
  obtain ⟨opened, read, written⟩ := h
  constructor
  all_goals simp only [EventLoop.register, conn]
  all_goals simp only [accept, openFd, setClient, update_apply]
  all_goals grind

theorem Isolated.start (h : Isolated w) {c u : Fd} {i : Nat} {x : Exchange} {s : Socket}
    (index : w.fdToIndex c = some i) (http : (w.clients i).isHttp = true)
    (conn : s.conn = (w.clients i).conn) : Isolated (openExchange c u x s w) where
  opened := by
    intro v d j t mapped listed connected
    change update w.upstreamFdToClient u (some c) v = some d at mapped
    change update w.sockets u (some s) v = some t at connected
    rw [update_apply] at mapped connected
    split at mapped
    · rename_i same
      rw [if_pos same] at connected
      cases mapped
      cases connected
      cases index.symm.trans listed
      exact ⟨http, conn⟩
    · rename_i other
      rw [if_neg other] at connected
      exact h.opened v d j t mapped listed connected
  read := by
    intro d y j entry listed o source
    change update w.proxyStates c (some x) d = some y at entry
    change o ∈ update w.sources c [] d at source
    rw [update_apply] at entry source
    split at entry
    · rename_i same
      rw [if_pos same] at source
      cases source
    · rename_i other
      rw [if_neg other] at source
      exact h.read d y j entry listed o source
  written := h.written

theorem connAt_client (h : Tables w) {c : Fd} {i : Nat} (index : w.fdToIndex c = some i)
    (http : (w.clients i).isHttp = true) : connAt w c = (w.clients i).conn := by
  obtain ⟨_, _, ⟨t, client, _, owner⟩ | ⟨_, plain⟩⟩ := h.client c i index
  · rw [connAt, client]
    exact owner
  · rw [http] at plain
    cases plain

/-- The bytes of an exchange go to the client on whose behalf they were read. -/
theorem Isolated.deliver (h : Isolated w) (tables : Tables w) {c : Fd} {i : Nat} {x : Exchange}
    (entry : w.proxyStates c = some x) (index : w.fdToIndex c = some i) :
    Isolated { w with
      delivered := w.delivered ++ (w.sources c).map fun o => (o, connAt w c) } where
  opened := h.opened
  read := h.read
  written := by
    have mapped := tables.proxied c x entry
    obtain ⟨s, connected, _⟩ := tables.upstream _ _ mapped
    obtain ⟨http, _⟩ := h.opened _ c i s mapped index connected
    have conn := connAt_client tables index http
    intro e
    rw [List.mem_append, List.mem_map]
    rintro (before | ⟨o, source, rfl⟩)
    · exact h.written e before
    · exact (h.read c x i entry index o source).trans conn.symm

/-- Bytes are read on behalf of the client that the upstream connection was opened for. -/
theorem Isolated.source (h : Isolated w) (tables : Tables w) {c u : Fd}
    (mapped : w.upstreamFdToClient u = some c) :
    Isolated { w with sources := update w.sources c (connAt w u :: w.sources c) } where
  opened := h.opened
  read := by
    intro d x i entry index o source
    change o ∈ update w.sources c (connAt w u :: w.sources c) d at source
    rw [update_apply] at source
    split at source
    · rename_i same
      subst same
      rcases List.mem_cons.mp source with rfl | before
      · obtain ⟨s, connected, _⟩ := tables.upstream _ _ mapped
        rw [connAt, connected]
        exact (h.opened u d i s mapped index connected).2
      · exact h.read d x i entry index o before
    · exact h.read d x i entry index o source
  written := h.written

theorem Isolated.finish (h : Isolated w) (tables : Tables w) {c : Fd} {x y : Exchange}
    (entry : w.proxyStates c = some x) (same : y.ps.upstreamFd = x.ps.upstreamFd) :
    Isolated (releaseUpstream y (forgetExchange c y w)) := by
  have forgotten : Isolated (forgetExchange c y w) := by
    refine h.frame ?_ ?_ (fun _ _ listed => listed) (fun _ => ⟨rfl, id⟩)
      (fun u c t _ connected => ⟨t, connected, rfl⟩) rfl rfl
    · intro u d mapped
      change update w.upstreamFdToClient y.ps.upstreamFd none u = some d at mapped
      grind [update_apply]
    · intro d z stored
      change update w.proxyStates c none d = some z at stored
      grind [update_apply]
  obtain ⟨_, unused⟩ := tables.forget entry same
  have unmapped := unused.upstream
  rcases releaseUpstream_cases y (forgetExchange c y w) with
    closed | ⟨_, _, pools, ⟨pooled, _⟩ | ⟨overflown, _⟩⟩
  · rw [closed]
    refine forgotten.frame (fun _ _ mapped => mapped) (fun _ z stored => ⟨z, stored⟩)
      (fun _ _ listed => listed) (fun _ => ⟨rfl, id⟩) ?_ rfl rfl
    simp only [closeFd, update_apply]
    grind
  · rw [pooled]
    refine forgotten.frame (fun _ _ mapped => mapped) (fun _ z stored => ⟨z, stored⟩)
      (fun _ _ listed => listed) (fun _ => ⟨rfl, id⟩) ?_ rfl rfl
    simp only [openFd, update_apply]
    grind
  · rw [overflown]
    refine forgotten.frame (fun _ _ mapped => mapped) (fun _ z stored => ⟨z, stored⟩)
      (fun _ _ listed => listed) (fun _ => ⟨rfl, id⟩) ?_ rfl rfl
    simp only [closeFd, openFd, update_apply]
    grind

/-- A change of sockets that no upstream entry is about, or that keeps their connection. -/
theorem Isolated.sockets (h : Isolated w) {f : Fd → Option Socket}
    (same : ∀ u c t, w.upstreamFdToClient u = some c → f u = some t →
      ∃ s, w.sockets u = some s ∧ s.conn = t.conn) : Isolated { w with sockets := f } :=
  h.frame (fun _ _ mapped => mapped) (fun _ x entry => ⟨x, entry⟩) (fun _ _ listed => listed)
    (fun _ => ⟨rfl, id⟩) same rfl rfl

theorem Isolated.advance (h : Isolated w) {c : Fd} {x y : Exchange}
    (entry : w.proxyStates c = some x) :
    Isolated { w with proxyStates := update w.proxyStates c (some y) } := by
  refine h.frame (fun _ _ mapped => mapped) ?_ (fun _ _ listed => listed) (fun _ => ⟨rfl, id⟩)
    (fun _ _ t _ connected => ⟨t, connected, rfl⟩) rfl rfl
  intro d z stored
  change update w.proxyStates c (some y) d = some z at stored
  grind [update_apply]

theorem Isolated.drain (h : Isolated w) {u : Fd} {s : Socket} (connected : w.sockets u = some s)
    (n : Nat) : Isolated (drain u s n w) := by
  refine h.sockets ?_
  grind [update_apply]

theorem Isolated.change (tables : Tables w) (h : Isolated w) (change : Change unheld w w') :
    Isolated w' := by
  cases change with
  | accept fd i nonzero closed free ok => exact h.register tables closed free ok
  | reject fd closed =>
    rw [reject_eq closed]
    exact ⟨h.opened, h.read, h.written⟩
  | slot i cd fd conn http =>
    refine h.frame (fun _ _ mapped => mapped) (fun _ x entry => ⟨x, entry⟩)
      (fun _ _ listed => listed) ?_ (fun _ _ t _ connected => ⟨t, connected, rfl⟩) rfl rfl
    intro j
    change (update w.clients i cd j).conn = _ ∧ (_ → (update w.clients i cd j).isHttp = true)
    grind [update_apply]
  | count counts => exact ⟨h.opened, h.read, h.written⟩
  | log ds => exact ⟨h.opened, h.read, h.written⟩
  | drop c =>
    unfold connDel
    split
    · exact h
    split
    · exact h
    rename_i i index
    refine h.frame (fun _ _ mapped => mapped) (fun _ x entry => ⟨x, entry⟩) ?_ ?_ ?_ rfl rfl
    · simp only [closeFd, setClient, update_apply]
      grind
    · intro j
      simp only [closeFd, setClient, update_apply]
      grind
    · simp only [closeFd, setClient, update_apply]
      grind
  | refuse c i index plain ok =>
    refine h.sockets ?_
    grind [update_apply]
  | shut u unused =>
    refine h.sockets ?_
    grind [update_apply]
  | start c u i x s index http unused fresh upstream role conn inbox idle =>
    exact h.start index http conn
  | advance c x y entry same ok => exact h.advance entry
  | finish c x y entry same ok => exact h.finish tables entry same
  | deliver c i x entry index => exact h.deliver tables entry index
  | drain u s n connected unproxied => exact h.drain connected n
  | read c u x y s n connected entry mapped same ok => exact (h.drain connected n).advance entry
  | readLast c u x y s n connected entry mapped same ok =>
    exact (h.drain connected n).finish (tables.drain connected n) entry same
  | source c u mapped => exact h.source tables mapped
  | unpool closed pools perm => exact ⟨h.opened, h.read, h.written⟩
  | reuse u pools perm => exact ⟨h.opened, h.read, h.written⟩
  | forwardOpen c u fs s unused upstream role =>
    have unmapped := unused.upstream
    have moved : Isolated (openFd u s w) := by
      refine h.sockets ?_
      grind [update_apply]
    exact ⟨moved.opened, moved.read, moved.written⟩
  | forwardKeep d fs fs' entry same => exact ⟨h.opened, h.read, h.written⟩
  | forwardClose d fs entry =>
    have mapped := tables.forwarded d fs entry
    obtain ⟨s, connected, role⟩ := tables.forward _ _ mapped
    have moved : Isolated (closeFd fs.upstreamFd w) := by
      refine h.sockets ?_
      grind [update_apply]
    exact ⟨moved.opened, moved.read, moved.written⟩
  | tick now => exact ⟨h.opened, h.read, h.written⟩

/-- Arriving bytes change no owner. -/
theorem Isolated.arrive (h : Isolated w) {u : Fd} {data : Bytes} {s : Socket}
    (connected : w.sockets u = some s) :
    Isolated (openFd u { s with inbox := s.inbox ++ data } w) := by
  refine h.sockets ?_
  grind [update_apply]

theorem permitted_of_orderly {e : EventLoop.Event} (orderly : Orderly w e) :
    Permitted unheld w e := by
  have allowed (x y : Exchange) (inbox rest : Bytes) : Allowed unheld x y inbox rest := by
    intro _
    split
    · trivial
    · trivial
  cases e with
  | accept io => exact ⟨orderly io.fd List.mem_cons_self, Or.inl trivial⟩
  | clientReadable c r io =>
    exact ⟨fun _ _ _ _ _ => allowed _ _ _ _, fun _ _ _ _ => allowed _ _ _ _⟩
  | clientWritable c cw r => exact fun _ _ _ => allowed _ _ _ _
  | upstreamWritable u soerr r => exact fun _ _ _ _ _ => allowed _ _ _ _
  | upstreamReadable u r cw => exact fun _ _ _ _ => allowed _ _ _ _
  | timer now exchanges slots => exact fun _ _ _ _ _ _ _ => trivial
  | arrive u data => trivial

theorem isolated_step (w : World) (e : EventLoop.Event) (h : Tables w ∧ Isolated w)
    (orderly : Orderly w e) :
    Tables (EventLoop.step w e) ∧ Isolated (EventLoop.step w e) :=
  step_invariant Isolated.change h.1 h.2 orderly.current (permitted_of_orderly orderly)
    fun _ _ _ _ connected => h.2.arrive connected

/-- While the kernel hands out no number that the tables hold for a client that is gone, a
response goes to the connection that it was read for. -/
theorem responses_isolated (es : List EventLoop.Event)
    (orderly : Guarded EventLoop.step Orderly World.init es) :
    let w := run EventLoop.step World.init es
    (∀ e ∈ w.delivered, e.1 = e.2) ∧
      ∀ c x i, w.proxyStates c = some x → w.fdToIndex c = some i →
        ∀ o ∈ w.sources c, o = connAt w c := by
  obtain ⟨tables, isolated⟩ :=
    run_invariant isolated_step ⟨Tables.init, Isolated.init⟩ orderly
  refine ⟨isolated.written, fun c x i entry index o source => ?_⟩
  have mapped := tables.proxied c x entry
  obtain ⟨s, connected, _⟩ := tables.upstream _ _ mapped
  have owned := isolated.opened _ c i s mapped index connected
  exact (isolated.read c x i entry index o source).trans
    (connAt_client tables index owned.1).symm

def get : ReadResult := .data (ascii "GET / HTTP/1.1\r\n\r\n")

def response : Bytes := ascii "HTTP/1.1 200 OK\r\nContent-Length: 6\r\n\r\nsecret"

def answered : List EventLoop.Event :=
  [.accept (httpClient 5), .clientReadable 5 get (proxiedIo (some 6)),
    .upstreamWritable 6 false (.wrote 1000), .arrive 6 response,
    .upstreamReadable 6 (.upTo 1000) (.wrote 1000)]

theorem answered_orderly : Guarded EventLoop.step Orderly World.init answered := by
  refine ⟨?_, ?_, ?_, ?_, ?_, trivial⟩
  · intro fd _
    rintro (listed | ⟨u, mapped⟩)
    · cases listed
    · cases mapped
  · intro fd handed
    cases List.mem_singleton.mp handed
    rintro (listed | ⟨u, mapped⟩)
    · exact absurd listed (by decide +kernel)
    · have none : (EventLoop.step World.init (.accept (httpClient 5))).upstreamFdToClient u =
          none := by rfl
      rw [none] at mapped
      cases mapped
  · exact fun fd handed => absurd handed List.not_mem_nil
  · exact fun fd handed => absurd handed List.not_mem_nil
  · exact fun fd handed => absurd handed List.not_mem_nil

theorem responses_isolated_sample :
    (run EventLoop.step World.init answered).delivered = [(1, 1)] ∧
      let w := run EventLoop.step World.init answered
      (∀ e ∈ w.delivered, e.1 = e.2) ∧
        ∀ c x i, w.proxyStates c = some x → w.fdToIndex c = some i →
          ∀ o ∈ w.sources c, o = connAt w c :=
  ⟨by decide +kernel, responses_isolated answered answered_orderly⟩

/-- The client leaves before its response, and the next one gets its descriptor. -/
def reusedNumber : List EventLoop.Event :=
  [.accept (httpClient 5), .clientReadable 5 get (proxiedIo (some 6)),
    .upstreamWritable 6 false (.wrote 1000), .clientReadable 5 .eof answeredIo,
    .accept (httpClient 5), .arrive 6 response, .upstreamReadable 6 (.upTo 1000) (.wrote 1000)]

theorem response_of_another :
    ¬ ∀ es : List EventLoop.Event,
      ∀ e ∈ (run EventLoop.step World.init es).delivered, e.1 = e.2 := by
  intro isolated
  have owner := isolated reusedNumber (1, 2) (by decide +kernel)
  exact absurd owner (by decide)

end ResponseIsolation
