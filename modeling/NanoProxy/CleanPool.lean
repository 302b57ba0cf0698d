import NanoProxy.LoopSteps
import NanoProxy.UpstreamFifo

/-!
# What an upstream connection has behind it when it is pooled

`resp_poolable` is decided from the header block alone, and every end of an exchange goes
through `proxy_cleanup`. A connection is pooled at the boundary of a message if the upstream
sends one response and no more, for a request that it has all of, and if nothing else ends the
exchange before the proxy has read that response.
-/

namespace CleanPool

open CLib ResponseHead ProxyExchange ExchangeFrames ResponseFraming KeepalivePool EventLoop
open DescriptorTables LoopSteps Runs Function

variable {x y : Exchange} {w w' : World}

/-- `proxy_cleanup` hands the upstream connection to the pool. -/
def Poolable (x : Exchange) : Prop := x.ps.respPoolable = true ∧ x.ps.isWebsocket = false

instance (x : Exchange) : Decidable (Poolable x) := inferInstanceAs (Decidable (_ ∧ _))

/-- The request is written, and what was read is one response with all of its body. -/
def CleanBoundary (x : Exchange) : Prop :=
  x.ps.unsent = [] ∧ ∃ n ∈ headerBlockLen x.fromUpstream,
    contentLength (x.fromUpstream.take n) = (x.fromUpstream.length - n : Nat)

instance (x : Exchange) : Decidable (CleanBoundary x) :=
  inferInstanceAs (Decidable (_ ∧ ∃ n ∈ headerBlockLen x.fromUpstream, _))

/-- How many body bytes are still to come behind a header block that lets the connection be
pooled. -/
def missing (s : Bytes) : Option Int :=
  match headerBlockLen s with
  | none => none
  | some n => if poolable (s.take n)
      then some (contentLength (s.take n) - (s.length - n : Nat)) else none

/-- On a keep-alive route, unless the headers have already ruled the pool out. -/
def Eligible (x : Exchange) : Prop :=
  x.ps.isWebsocket = false ∧ x.ps.keepaliveEnabled = true ∧
    (x.ps.respHeadersDone = true → x.ps.respPoolable = true)

instance (x : Exchange) : Decidable (Eligible x) := inferInstanceAs (Decidable (_ ∧ _ ∧ (_ → _)))

/-- The upstream has been sent all that the client has sent. -/
def Written (x : Exchange) : Prop := x.ps.connected = true ∧ x.ps.unsent = []

instance (x : Exchange) : Decidable (Written x) := inferInstanceAs (Decidable (_ ∧ _))

/-- The upstream has sent one response at most, and all of it only to a request that it has. -/
def Answers (x : Exchange) (sent : Bytes) : Prop :=
  Eligible x → ∀ m ∈ missing sent, 0 ≤ m ∧ (m = 0 → Written x)

instance (x : Exchange) (sent : Bytes) : Decidable (Answers x sent) :=
  inferInstanceAs (Decidable (_ → ∀ m ∈ missing sent, _))

/-- What the upstream of an exchange has sent, read or not. -/
def sent (w : World) (x : Exchange) : Bytes := x.fromUpstream ++ inboxAt w x.ps.upstreamFd

abbrev clean : Rules where
  new := fun _ _ => True
  refuse := True
  keep := fun x inbox => Framing x ∧ x.ended = false ∧ Answers x (x.fromUpstream ++ inbox)
  done := fun y inbox => Poolable y → CleanBoundary y ∧ inbox = []

/-- An error other than EAGAIN. -/
def Fatal (r : WriteResult) : Prop := r = .pipe ∨ r = .failed

instance (r : WriteResult) : Decidable (Fatal r) := inferInstanceAs (Decidable (_ ∨ _))

theorem fatal_of_taken {len : Nat} {r : WriteResult} (none : r.taken len = none) : Fatal r := by
  cases r with
  | wrote n => cases none
  | again => cases none
  | pipe => exact Or.inl rfl
  | failed => exact Or.inr rfl

theorem failed_of_socketWrite {known : Bool} {len : Nat} {r : WriteResult}
    (none : socketWrite known len r = none) : known = true ∧ r = .failed := by
  unfold socketWrite at none
  split at none
  · cases none
  rename_i some
  rw [Bool.or_eq_true, not_or, Bool.not_eq_true', Bool.not_eq_false] at some
  refine ⟨some.1, ?_⟩
  split at none
  · cases none
  · rename_i other
    rcases fatal_of_taken none with pipe | failed
    · exact absurd pipe other
    · exact failed

/-- The client does not take what is read for it. -/
def Refuses (cd : ClientSide) (cw : WriteResult) : Prop := cd.known = true ∧ cw = .failed

instance (cd : ClientSide) (cw : WriteResult) : Decidable (Refuses cd cw) :=
  inferInstanceAs (Decidable (_ ∧ _))

/-- A response that may be pooled is read to its end, and refused at its last read at most. -/
def ReadsOn (cd : ClientSide) (r : ReadResult) (cw : WriteResult) (x : Exchange) : Prop :=
  match r with
  | .data buf => Refuses cd cw → Eligible x → ∀ m ∈ missing (x.fromUpstream ++ buf), m ≤ 0
  | .again => True
  | _ => ¬ Poolable x

instance (cd : ClientSide) (r : ReadResult) (cw : WriteResult) (x : Exchange) :
    Decidable (ReadsOn cd r cw x) :=
  match r with
  | .data buf => inferInstanceAs (Decidable (_ → _ → ∀ m ∈ missing (x.fromUpstream ++ buf), _))
  | .again => .isTrue trivial
  | .eof => inferInstanceAs (Decidable (¬ Poolable x))
  | .failed => inferInstanceAs (Decidable (¬ Poolable x))

/-- The upstream takes the body bytes in `r` at once. -/
def TakenWhole (r : ReadResult) (bodyWrite : WriteResult) : Prop :=
  match r with
  | .data data => ∀ n ∈ bodyWrite.taken data.length, n = data.length
  | _ => True

instance (r : ReadResult) (bodyWrite : WriteResult) : Decidable (TakenWhole r bodyWrite) :=
  match r with
  | .data data => inferInstanceAs (Decidable (∀ n ∈ bodyWrite.taken data.length, _))
  | .again => .isTrue trivial
  | .eof => .isTrue trivial
  | .failed => .isTrue trivial

/-- The upstream sends what it announces, to a request that it has, and nothing on an idle
connection; no error, end or timeout ends an exchange that may be pooled; every event of an
upstream connection goes to the exchange that was started on it. -/
def Undisturbed (w : World) : EventLoop.Event → Prop
  | .accept _ => True
  | .clientReadable c r io => ∀ x ∈ w.proxyStates c, streams w c = true → Written x →
      (Poolable x → ¬ Fatal io.bodyWrite) ∧
        (Eligible x → missing (sent w x) = some 0 → TakenWhole r io.bodyWrite)
  | .clientWritable c cw _ => ∀ x ∈ w.proxyStates c, Poolable x →
      x.ps.undelivered ≠ [] → cw ≠ .failed
  | .upstreamWritable u soerr r => ∀ c ∈ w.upstreamFdToClient u, ∀ x ∈ w.proxyStates c,
      x.ps.upstreamFd = u ∧ (Poolable x →
        (soerr = true → x.ps.connected = true) ∧ (x.ps.unsent ≠ [] → ¬ Fatal r))
  | .upstreamReadable u r cw => ∀ c ∈ w.upstreamFdToClient u, ∀ x ∈ w.proxyStates c,
      x.ps.upstreamFd = u ∧ ReadsOn (clientSide w c) (readFd u r w).1 cw x
  | .timer now exchanges _ => ∀ c ∈ exchanges, ∀ x ∈ w.proxyStates c,
      connectTimedOut now x = true → ¬ Poolable x
  | .arrive u data => (∀ s ∈ w.sockets u, s.role ≠ .idle) ∧
      ∀ c ∈ w.upstreamFdToClient u, ∀ x ∈ w.proxyStates c,
        x.ps.upstreamFd = u → Answers x (sent w x ++ data)

/-- Besides, the kernel hands out no number that a failed forward set-up has left behind. -/
def Careful (w : World) (e : EventLoop.Event) : Prop :=
  (∀ fd ∈ handedOut e, ¬ Stale w fd) ∧ Undisturbed w e

instance (w : World) (e : EventLoop.Event) : Decidable (Undisturbed w e) :=
  match e with
  | .accept _ => .isTrue trivial
  | .clientReadable c _ _ => inferInstanceAs (Decidable (∀ x ∈ w.proxyStates c, _))
  | .clientWritable c _ _ => inferInstanceAs (Decidable (∀ x ∈ w.proxyStates c, _))
  | .upstreamWritable u _ _ => inferInstanceAs (Decidable (∀ c ∈ w.upstreamFdToClient u, _))
  | .upstreamReadable u _ _ => inferInstanceAs (Decidable (∀ c ∈ w.upstreamFdToClient u, _))
  | .timer _ exchanges _ => inferInstanceAs (Decidable (∀ c ∈ exchanges, _))
  | .arrive u _ => inferInstanceAs (Decidable ((∀ s ∈ w.sockets u, _) ∧
      ∀ c ∈ w.upstreamFdToClient u, _))

instance (w : World) (fd : Fd) : Decidable (Stale w fd) := inferInstanceAs (Decidable (_ ∧ _))

instance (w : World) (e : EventLoop.Event) : Decidable (Careful w e) :=
  inferInstanceAs (Decidable (_ ∧ _))

theorem missing_eq {s : Bytes} {n : Nat} (head : headerBlockLen s = some n)
    (pool : poolable (s.take n) = true) :
    missing s = some (contentLength (s.take n) - (s.length - n : Nat)) := by
  rw [missing, head]
  exact if_pos pool

theorem missing_append {s : Bytes} {m : Int} (h : missing s = some m) (t : Bytes) :
    missing (s ++ t) = some (m - t.length) := by
  unfold missing at h
  split at h
  · cases h
  rename_i n head
  split at h
  · rename_i pool
    cases h
    have fits := headerBlockLen_le head
    have block : (s ++ t).take n = s.take n := List.take_append_of_le_length fits
    rw [missing_eq (headerBlockLen_append head t) (by rw [block, pool]), block, List.length_append]
    congr 1
    omega
  · cases h

theorem Poolable.same (same : SameFraming x y) (route : SameRoute x y) :
    Poolable y ↔ Poolable x := by
  unfold Poolable
  rw [same.respPoolable, route.isWebsocket]

theorem Eligible.same (same : SameFraming x y) (route : SameRoute x y) :
    Eligible y ↔ Eligible x := by
  unfold Eligible
  rw [same.respPoolable, same.respHeadersDone, same.keepaliveEnabled, route.isWebsocket]

theorem upstreamWrite_live {soerr : Bool} {r : WriteResult} (live : x.ended = false)
    (established : soerr = true → x.ps.connected = true) (written : x.ps.unsent ≠ [] → ¬ Fatal r) :
    (ProxyExchange.proxyOnUpstreamWrite soerr r x).ended = false := by
  unfold ProxyExchange.proxyOnUpstreamWrite
  split
  · rename_i failed
    rw [Bool.and_eq_true, Bool.not_eq_true'] at failed
    exact absurd (established failed.2) (by rw [failed.1]; decide)
  dsimp only
  split
  · rw [(upstreamDrained_upload _).2]
    exact live
  rename_i waiting
  split
  · rename_i none
    exact absurd (fatal_of_taken none) (written waiting)
  split
  · rw [(upstreamDrained_upload _).2]
    exact live
  · exact live

theorem written_of_upload (same : SameUpload x y) (written : Written x) : Written y := by
  refine ⟨same.connected.trans written.1, ?_⟩
  rw [ProxyState.unsent, same.pending, same.pendingSent]
  exact written.2

theorem upstreamWrite_written (soerr : Bool) (r : WriteResult) (written : Written x) :
    Written (ProxyExchange.proxyOnUpstreamWrite soerr r x) := by
  obtain ⟨connected, nothing⟩ := written
  unfold ProxyExchange.proxyOnUpstreamWrite
  rw [if_neg (by simp [connected])]
  dsimp only
  split
  · have same := (upstreamDrained_upload { x with ps := { x.ps with connected := true } }).1
    exact written_of_upload same ⟨rfl, nothing⟩
  · rename_i waiting
    exact absurd nothing waiting

theorem countBody_upload (n : Nat) (ps : ProxyState) :
    (countBody n ps).connected = ps.connected ∧ (countBody n ps).pending = ps.pending ∧
      (countBody n ps).pendingSent = ps.pendingSent := by
  unfold countBody
  split
  · exact ⟨rfl, rfl, rfl⟩
  · exact ⟨rfl, rfl, rfl⟩

/-- Nothing is left of what the upstream takes at once. -/
theorem bodyData_written {data : Bytes} {r : WriteResult} (written : Written x)
    (whole : ∀ n ∈ r.taken data.length, n = data.length) :
    Written (ProxyExchange.proxyOnBodyData data r x) := by
  obtain ⟨connected, nothing⟩ := written
  unfold ProxyExchange.proxyOnBodyData
  rw [if_neg (by simp [connected, nothing])]
  split
  · exact ⟨connected, nothing⟩
  · rename_i n taken
    dsimp only
    rw [if_neg (by rw [whole n taken]; exact lt_irrefl _)]
    obtain ⟨sameConnected, pending, pendingSent⟩ := countBody_upload n x.ps
    unfold Written ProxyState.unsent
    rw [sameConnected, pending, pendingSent]
    exact ⟨connected, nothing⟩

/-- The request of a new exchange is still to be written. -/
theorem not_written_of_started (fresh : Started x) : ¬ Written x := by
  obtain ⟨p, route, cd, u, reused, now, rfl⟩ := fresh
  rintro ⟨_, nothing⟩
  exact UpstreamFifo.outboundRequest_ne_nil p route.upstream cd nothing

theorem bodyData_live {data : Bytes} {r : WriteResult} (live : x.ended = false)
    (written : x.ps.connected = true → x.ps.unsent = [] → ¬ Fatal r) :
    (ProxyExchange.proxyOnBodyData data r x).ended = false := by
  unfold ProxyExchange.proxyOnBodyData
  split
  · exact live
  rename_i free
  rw [not_or, Bool.not_eq_true', Bool.not_eq_false, not_not] at free
  split
  · rename_i none
    exact absurd (fatal_of_taken none) (written free.1 free.2)
  · dsimp only
    split
    · exact live
    · exact live

theorem clientWritable_live {cw : WriteResult} (live : x.ended = false)
    (written : x.ps.undelivered ≠ [] → cw ≠ .failed) :
    (ProxyExchange.proxyOnClientWritable cw x).ended = false := by
  unfold ProxyExchange.proxyOnClientWritable
  dsimp only
  split
  · exact live
  rename_i waiting
  split
  · rename_i none
    exact absurd (failed_of_socketWrite none).2 (written waiting)
  split
  · split
    · exact live
    · exact live
  · exact live

/-- A handler that reads nothing from the upstream. -/
theorem allowed_of_same {inbox : Bytes} (same : SameFraming x y) (route : SameRoute x y)
    (live : x.ended = false → Poolable x → y.ended = false)
    (written : Eligible x → missing (x.fromUpstream ++ inbox) = some 0 → Written x → Written y) :
    Allowed clean x y inbox inbox := by
  rintro ⟨framing, going, answers⟩
  split
  · rename_i ended
    intro poolable
    have open₁ := live going ((Poolable.same same route).mp poolable)
    rw [ended] at open₁
    cases open₁
  · rename_i goes
    refine ⟨framing.of_same same, by simpa using goes, fun eligible m left => ?_⟩
    have before := (Eligible.same same route).mp eligible
    rw [same.fromUpstream] at left
    obtain ⟨fits, last⟩ := answers before m left
    refine ⟨fits, fun zero => written before ?_ (last zero)⟩
    rw [← zero]
    exact left

theorem CleanBoundary.relayed (h : CleanBoundary x) (live : x.ended = false) (cd : ClientSide)
    (data : Bytes) (n : Nat) (cw : WriteResult) : CleanBoundary (relay cd data n cw x) := by
  have upload := relay_upload cd data n cw x
  have unsent : (relay cd data n cw x).ps.unsent = x.ps.unsent := by
    rw [ProxyState.unsent, upload.pending, upload.pendingSent]
    rfl
  unfold CleanBoundary
  rw [(relay_response cd data n cw live).1, unsent]
  exact h

/-- A relay ends the exchange when the client refuses the write or the body is complete. -/
theorem relay_ended {cd : ClientSide} {data : Bytes} {n : Nat} {cw : WriteResult}
    (live : x.ended = false) (ended : (relay cd data n cw x).ended = true) :
    (cd.known = true ∧ cw = .failed) ∨
      x.ps.respContentLength ≤ (x.ps.respBodyRelayed + n : Nat) := by
  cases written : socketWrite cd.known data.length cw with
  | none => exact Or.inl (failed_of_socketWrite written)
  | some m =>
    obtain ⟨same, going⟩ := deliver_framing data m x
    rw [relay_some live written] at ended
    unfold endWhenComplete at ended
    split at ended
    · rename_i complete
      have reached := complete.2
      change (deliver data m x).ps.respContentLength ≤
        ((deliver data m x).ps.respBodyRelayed + n : Nat) at reached
      rw [same.respContentLength, same.respBodyRelayed] at reached
      exact Or.inr reached
    · change (deliver data m x).ended = true at ended
      rw [going, live] at ended
      cases ended

/-- The end of an exchange whose upstream sends one response is clean. -/
theorem relay_clean {cd : ClientSide} {data rest : Bytes} {n k : Nat} {cw : WriteResult}
    (live : x.ended = false) (head : headerBlockLen x.fromUpstream = some n)
    (pool : poolable (x.fromUpstream.take n) = true)
    (length : x.ps.respContentLength = contentLength (x.fromUpstream.take n))
    (counted : x.ps.respBodyRelayed + k = x.fromUpstream.length - n)
    (answers : ∀ m ∈ missing (x.fromUpstream ++ rest), 0 ≤ m ∧ (m = 0 → Written x))
    (refuses : Refuses cd cw → ∀ m ∈ missing x.fromUpstream, m ≤ 0)
    (ended : (relay cd data k cw x).ended = true) :
    CleanBoundary (relay cd data k cw x) ∧ rest = [] := by
  have left := missing_eq head pool
  obtain ⟨fits, last⟩ := answers _ (missing_append left rest)
  have reached :
      contentLength (x.fromUpstream.take n) - (x.fromUpstream.length - n : Nat) ≤ 0 := by
    rcases relay_ended live ended with refused | complete
    · exact refuses refused _ left
    · rw [length, counted] at complete
      omega
  have nothing : rest.length = 0 := by omega
  have boundary : CleanBoundary x := ⟨(last (by omega)).2, n, head, by omega⟩
  exact ⟨boundary.relayed live cd data k cw, List.length_eq_zero_iff.mp nothing⟩

/-- While an exchange goes on, its framing is exact. -/
theorem framing_live {cd : ClientSide} {buf : Bytes} {cw : WriteResult} (h : Framing x)
    (live : x.ended = false)
    (goes : (ProxyExchange.proxyOnUpstreamRead cd (.data buf) cw x).ended = false) :
    Framing (ProxyExchange.proxyOnUpstreamRead cd (.data buf) cw x) := by
  cases route : x.ps.keepaliveEnabled with
  | false => exact read_plain h route
  | true =>
    by_cases refused : socketWrite cd.known (chunk cd x buf).length cw = none
    · have fresh (undone : x.ps.respHeadersDone = false) : x.ps.respBodyRelayed = 0 :=
        (h.fresh route undone).1
      by_cases head : x.ps.respHeadersDone = true ∨ headerBlockLen (grown x buf) ≠ none
      · obtain ⟨z, n, _, relays⟩ := read_relays cd cw route fresh head
        rw [relays, relay_none refused] at goes
        cases goes
      · rw [not_or, Bool.not_eq_true, not_not] at head
        have nothing : chunk cd x buf = [] := by simp [chunk, head]
        rw [nothing] at refused
        exact absurd rfl (socketWrite_none refused)
    · exact framing_read h live refused

theorem read_unpooled {cd : ClientSide} {buf : Bytes} {cw : WriteResult}
    (route : x.ps.keepaliveEnabled = false) :
    (ProxyExchange.proxyOnUpstreamRead cd (.data buf) cw x).ps.keepaliveEnabled = false ∧
      (ProxyExchange.proxyOnUpstreamRead cd (.data buf) cw x).ps.respPoolable =
        x.ps.respPoolable := by
  unfold ProxyExchange.proxyOnUpstreamRead writeOrBuffer
  dsimp only
  rw [if_neg (by simp [receive, route])]
  split
  · exact ⟨route, rfl⟩
  · rename_i m _
    obtain ⟨same, _⟩ := deliver_framing buf m (receive buf x)
    exact ⟨same.keepaliveEnabled.trans route, same.respPoolable⟩

/-- The read that completes the headers, or that reads on after them. -/
theorem read_clean {cd : ClientSide} {buf rest : Bytes} {cw : WriteResult} (framing : Framing x)
    (live : x.ended = false) (answers : Answers x (x.fromUpstream ++ (buf ++ rest)))
    (refuses : Refuses cd cw → Eligible x → ∀ m ∈ missing (x.fromUpstream ++ buf), m ≤ 0)
    (ended : (ProxyExchange.proxyOnUpstreamRead cd (.data buf) cw x).ended = true)
    (pool : Poolable (ProxyExchange.proxyOnUpstreamRead cd (.data buf) cw x)) :
    CleanBoundary (ProxyExchange.proxyOnUpstreamRead cd (.data buf) cw x) ∧ rest = [] := by
  obtain ⟨pool, plain⟩ := pool
  rw [(upstreamRead_upload cd (.data buf) cw x).isWebsocket] at plain
  rw [← List.append_assoc] at answers
  cases route : x.ps.keepaliveEnabled with
  | false =>
    rw [(read_unpooled route).2, framing.pool_off route] at pool
    cases pool
  | true =>
    cases framing with
    | waiting undone buffered _ _ relayed _ =>
      have whole : grown x buf = x.fromUpstream ++ buf := by rw [grown, buffered]
      cases head : headerBlockLen (grown x buf) with
      | none =>
        have going : (ProxyExchange.proxyOnUpstreamRead cd (.data buf) cw x).ended = x.ended := by
          rw [read_unfinished route undone head]
          split <;> rfl
        rw [going, live] at ended
        cases ended
      | some n =>
        rw [read_head route undone head] at ended pool ⊢
        have framed : (frameResponse ((grown x buf).take n) (receive buf x)).ended = false := live
        have eligible : Eligible x :=
          ⟨plain, route, fun done => absurd done (by rw [undone]; decide)⟩
        rw [(relay_response _ _ _ _ framed).2.2] at pool
        change (x.ps.keepaliveEnabled && poolable ((grown x buf).take n)) = true at pool
        rw [route, Bool.true_and, whole] at pool
        rw [whole] at head
        refine relay_clean framed head pool ?_ ?_ (answers eligible)
          (fun refused => refuses refused eligible) ended
        · rw [whole]
          rfl
        · change x.ps.respBodyRelayed + ((grown x buf).drop n).length = _
          rw [relayed, whole, List.length_drop, Nat.zero_add]
          rfl
    | framed n done head length relayed pool₀ =>
      have fits := headerBlockLen_le head
      have block : (x.fromUpstream ++ buf).take n = x.fromUpstream.take n :=
        List.take_append_of_le_length fits
      have received : (receive buf x).ended = false := live
      rw [read_done route done] at ended pool ⊢
      rw [(relay_response _ _ _ _ received).2.2] at pool
      have eligible : Eligible x := ⟨plain, route, fun _ => pool⟩
      have poolableBlock : poolable ((x.fromUpstream ++ buf).take n) = true := by
        change x.ps.respPoolable = true at pool
        rw [pool₀, route, Bool.true_and] at pool
        rwa [block]
      refine relay_clean received (headerBlockLen_append head buf) poolableBlock ?_ ?_
        (answers eligible) (fun refused => refuses refused eligible) ended
      · change x.ps.respContentLength = contentLength ((x.fromUpstream ++ buf).take n)
        rw [block, length]
      · change x.ps.respBodyRelayed + buf.length = (x.fromUpstream ++ buf).length - n
        rw [relayed, List.length_append]
        omega
    | raw done _ pool₀ =>
      have received : (receive buf x).ended = false := live
      rw [read_done route done, (relay_response _ _ _ _ received).2.2] at pool
      exact absurd pool₀ (by rw [show x.ps.respPoolable = true from pool]; decide)
    | plain off _ => exact absurd off (by rw [route]; decide)

/-- What is read of a response that may be pooled is recorded, and rules nothing out that the
headers have not ruled out. -/
theorem read_response (cd : ClientSide) (buf : Bytes) (cw : WriteResult) (live : x.ended = false)
    (route : x.ps.keepaliveEnabled = true) :
    (ProxyExchange.proxyOnUpstreamRead cd (.data buf) cw x).fromUpstream = x.fromUpstream ++ buf ∧
      (x.ps.respHeadersDone = true →
        (ProxyExchange.proxyOnUpstreamRead cd (.data buf) cw x).ps.respHeadersDone = true ∧
          (ProxyExchange.proxyOnUpstreamRead cd (.data buf) cw x).ps.respPoolable =
            x.ps.respPoolable) := by
  cases stage : x.ps.respHeadersDone with
  | true =>
    rw [read_done route stage]
    have received : (receive buf x).ended = false := live
    obtain ⟨same, done, pool⟩ := relay_response cd buf buf.length cw received
    exact ⟨same, fun _ => ⟨done.trans stage, pool⟩⟩
  | false =>
    refine ⟨?_, fun done => absurd done Bool.false_ne_true⟩
    cases head : headerBlockLen (grown x buf) with
    | none =>
      rw [read_unfinished route stage head]
      split
      · rfl
      · rfl
    | some n =>
      rw [read_head route stage head]
      have framed : (frameResponse ((grown x buf).take n) (receive buf x)).ended = false := live
      exact (relay_response cd _ _ cw framed).1

theorem read_answers {cd : ClientSide} {buf rest : Bytes} {cw : WriteResult}
    (live : x.ended = false) (answers : Answers x (x.fromUpstream ++ (buf ++ rest))) :
    Answers (ProxyExchange.proxyOnUpstreamRead cd (.data buf) cw x)
      ((ProxyExchange.proxyOnUpstreamRead cd (.data buf) cw x).fromUpstream ++ rest) := by
  have upload := upstreamRead_upload cd (.data buf) cw x
  rintro ⟨plain, route, pool⟩ m left
  rw [upload.isWebsocket] at plain
  have before : x.ps.keepaliveEnabled = true := by
    rw [← Bool.not_eq_false]
    intro off
    rw [(read_unpooled off).1] at route
    cases route
  obtain ⟨read, framed⟩ := read_response cd buf cw live before
  have eligible : Eligible x := by
    refine ⟨plain, before, fun done => ?_⟩
    obtain ⟨done₁, same⟩ := framed done
    rw [← same]
    exact pool done₁
  rw [read, List.append_assoc] at left
  obtain ⟨fits, last⟩ := answers eligible m left
  exact ⟨fits, fun zero => written_of_upload upload (last zero)⟩

theorem read_allowed {cd : ClientSide} {buf rest : Bytes} {cw : WriteResult}
    (refuses : Refuses cd cw → Eligible x → ∀ m ∈ missing (x.fromUpstream ++ buf), m ≤ 0) :
    Allowed clean x (ProxyExchange.proxyOnUpstreamRead cd (.data buf) cw x) (buf ++ rest) rest := by
  rintro ⟨framing, live, answers⟩
  split
  · rename_i ended
    exact read_clean framing live answers refuses ended
  · rename_i goes
    rw [Bool.not_eq_true] at goes
    exact ⟨framing_live framing live goes, goes, read_answers live answers⟩

theorem framing_of_started (fresh : Started x) :
    Framing x ∧ x.ended = false ∧ x.ps.respPoolable = false := by
  obtain ⟨p, route, cd, u, reused, now, rfl⟩ := fresh
  exact ⟨framing_start p route cd u reused now, rfl, rfl⟩

/-- What was read had been waiting. -/
theorem readFd_inbox (u : Fd) (r : ReadChoice) (w : World) :
    match (readFd u r w).1 with
    | .data buf => inboxAt w u = buf ++ inboxAt (readFd u r w).2 u
    | _ => (readFd u r w).2 = w := by
  cases opened : w.sockets u with
  | none =>
    unfold readFd
    rw [opened]
  | some s =>
    have taken (n : Nat) : inboxAt w u = s.inbox.take n ++ inboxAt (drain u s n w) u := by
      unfold inboxAt drain openFd
      dsimp only
      rw [opened, update_self]
      exact (List.take_append_drop n s.inbox).symm
    unfold readFd
    rw [opened]
    cases r with
    | failed => rfl
    | eof =>
      dsimp only
      by_cases empty : s.inbox = []
      · rw [if_pos empty]
      · rw [if_neg empty]
        exact taken CHUNK_SIZE
    | upTo n =>
      dsimp only
      by_cases empty : s.inbox = []
      · rw [if_pos empty]
      · rw [if_neg empty]
        exact taken _

theorem permitted_of_undisturbed {e : EventLoop.Event} (undisturbed : Undisturbed w e) :
    Permitted clean w e := by
  cases e with
  | accept io => exact ⟨trivial, Or.inl trivial⟩
  | clientReadable c r io =>
    constructor
    · intro x data entry streaming read
      have stream := undisturbed x entry streaming
      refine allowed_of_same (bodyData_download data _ x).toSameFraming
        (handle_route x (.bodyData data io.bodyWrite)) (fun live poolable => bodyData_live live ?_)
        fun eligible whole written => bodyData_written written ?_
      · exact fun connected nothing => (stream ⟨connected, nothing⟩).1 poolable
      · have taken := (stream written).2 eligible whole
        rw [read] at taken
        exact taken
    · intro x data inbox fresh
      refine allowed_of_same (bodyData_download data _ x).toSameFraming
        (handle_route x (.bodyData data io.bodyWrite)) (fun live poolable => bodyData_live live ?_)
        fun _ _ written => absurd written (not_written_of_started fresh)
      exact absurd poolable.1 (by rw [(framing_of_started fresh).2.2]; decide)
  | clientWritable c cw r =>
    intro x inbox entry
    exact allowed_of_same (clientWritable_framing cw x) (handle_route x (.clientWritable cw))
      (fun live poolable => clientWritable_live live (undisturbed x entry poolable))
      fun _ _ written => written_of_upload (clientWritable_upload cw x) written
  | upstreamWritable u soerr r =>
    intro c x inbox mapped entry
    refine allowed_of_same (upstreamWrite_download soerr r x).toSameFraming
      (handle_route x (.upstreamWritable soerr r)) (fun live poolable => ?_)
      fun _ _ written => upstreamWrite_written soerr r written
    obtain ⟨established, written⟩ := (undisturbed c mapped x entry).2 poolable
    exact upstreamWrite_live live established written
  | upstreamReadable u r cw =>
    intro c x mapped entry
    obtain ⟨own, reads⟩ := undisturbed c mapped x entry
    have waiting := readFd_inbox u r w
    rw [own]
    generalize readFd u r w = read at reads waiting
    obtain ⟨result, w'⟩ := read
    cases result with
    | data buf =>
      dsimp only at waiting
      rw [waiting]
      exact read_allowed reads
    | again =>
      rw [show w' = w from waiting]
      exact allowed_of_same (SameFraming.refl x) ⟨rfl, rfl⟩ (fun live _ => live) fun _ _ => id
    | eof =>
      rw [show w' = w from waiting]
      exact allowed_of_same ⟨rfl, rfl, rfl, rfl, rfl, rfl, rfl⟩ ⟨rfl, rfl⟩
        (fun _ poolable => absurd poolable reads) fun _ _ => id
    | failed =>
      rw [show w' = w from waiting]
      exact allowed_of_same ⟨rfl, rfl, rfl, rfl, rfl, rfl, rfl⟩ ⟨rfl, rfl⟩
        (fun _ poolable => absurd poolable reads) fun _ _ => id
  | timer now exchanges slots =>
    intro c listed x inbox entry late _ poolable
    exact absurd poolable (undisturbed c listed x entry late)
  | arrive u data => trivial

structure Clean (w : World) : Prop where
  kept : ∀ c x, w.proxyStates c = some x →
    Framing x ∧ x.ended = false ∧ Answers x (sent w x)
  idle : ∀ u s, w.sockets u = some s → s.role = .idle → s.inbox = []
  pooled : ∀ x ∈ w.pooled, CleanBoundary x
  reused : ∀ b ∈ w.reused, b = []

theorem Clean.init : Clean World.init where
  kept := fun _ _ entry => nomatch entry
  idle := fun _ _ opened => nomatch opened
  pooled := fun _ pooled => absurd pooled List.not_mem_nil
  reused := fun _ reused => absurd reused List.not_mem_nil

/-- A connection that is not open, or idle, has nothing waiting. -/
theorem Clean.nothing (h : Clean w) {u : Fd}
    (idle : ∀ s, w.sockets u = some s → s.role = .idle) : inboxAt w u = [] := by
  unfold inboxAt
  split
  · rename_i s opened
    exact h.idle u s opened (idle s opened)
  · rfl

theorem no_upstream_closed (tables : Tables w) {u : Fd} (closed : w.sockets u = none) :
    w.upstreamFdToClient u = none := by
  rw [Option.eq_none_iff_forall_ne_some]
  intro c mapped
  obtain ⟨s, opened, _⟩ := tables.upstream u c mapped
  rw [closed] at opened
  cases opened

theorem client_unproxied (tables : Tables w) {c : Fd} {i : Nat} (index : w.fdToIndex c = some i) :
    w.upstreamFdToClient c = none := by
  rw [Option.eq_none_iff_forall_ne_some]
  intro d mapped
  obtain ⟨s, opened, role⟩ := tables.upstream c d mapped
  rw [tables.no_client opened (by simp [role])] at index
  cases index

/-- No exchange runs over a descriptor that is no upstream. -/
theorem elsewhere (tables : Tables w) {u : Fd} (unproxied : w.upstreamFdToClient u = none) (c : Fd)
    (x : Exchange) (entry : w.proxyStates c = some x) : x.ps.upstreamFd ≠ u := by
  rintro rfl
  rw [tables.proxied c x entry] at unproxied
  cases unproxied

/-- A socket changes that no exchange runs over. -/
theorem Clean.socket (h : Clean w) {u : Fd} {s : Option Socket}
    (other : ∀ c x, w.proxyStates c = some x → x.ps.upstreamFd ≠ u)
    (idle : ∀ t, s = some t → t.role = .idle → t.inbox = []) :
    Clean { w with sockets := update w.sockets u s } where
  kept := by
    intro c x entry
    have same : inboxAt { w with sockets := update w.sockets u s } x.ps.upstreamFd =
        inboxAt w x.ps.upstreamFd := inboxAt_same (update_of_ne (other c x entry) ..)
    rw [sent, same]
    exact h.kept c x entry
  idle := by
    intro v t opened role
    change update w.sockets u s v = some t at opened
    rw [update_apply] at opened
    split at opened
    · exact idle t opened role
    · exact h.idle v t opened role
  pooled := h.pooled
  reused := h.reused

theorem Clean.close (h : Clean w) (tables : Tables w) {u : Fd}
    (unproxied : w.upstreamFdToClient u = none) : Clean (closeFd u w) :=
  h.socket (elsewhere tables unproxied) fun _ open₁ => nomatch open₁

theorem Clean.entry (h : Clean w) {c : Fd}
    (kept : Framing x ∧ x.ended = false ∧ Answers x (sent w x)) :
    Clean { w with proxyStates := update w.proxyStates c (some x) } where
  kept := by
    intro d z stored
    change update w.proxyStates c (some x) d = some z at stored
    rw [update_apply] at stored
    split at stored
    · cases stored
      exact kept
    · exact h.kept d z stored
  idle := h.idle
  pooled := h.pooled
  reused := h.reused

theorem Clean.forget (h : Clean w) (c : Fd) (y : Exchange) : Clean (forgetExchange c y w) where
  kept := by
    intro d z stored
    change update w.proxyStates c none d = some z at stored
    rw [update_apply] at stored
    split at stored
    · cases stored
    · exact h.kept d z stored
  idle := h.idle
  pooled := h.pooled
  reused := h.reused

/-- A connection on which nothing waits goes to the pool, at a boundary. -/
theorem Clean.pool (h : Clean w) (pools : Pools) (boundary : CleanBoundary y) :
    Clean { w with keepalivePools := pools, pooled := w.pooled ++ [y] } where
  kept := h.kept
  idle := h.idle
  pooled := List.forall_mem_append.mpr ⟨h.pooled, List.forall_mem_singleton.mpr boundary⟩
  reused := h.reused

theorem Clean.release (h : Clean w)
    (other : ∀ c x, w.proxyStates c = some x → x.ps.upstreamFd ≠ y.ps.upstreamFd)
    (done : Poolable y → CleanBoundary y ∧ inboxAt w y.ps.upstreamFd = []) :
    Clean (releaseUpstream y w) := by
  rcases releaseUpstream_cases y w with
    closed | ⟨poolable, plain, pools, ⟨pooled, _⟩ | ⟨overflown, _⟩⟩
  · rw [closed]
    exact h.socket other fun _ open₁ => nomatch open₁
  · rw [pooled]
    obtain ⟨boundary, nothing⟩ := done ⟨poolable, plain⟩
    refine (h.pool pools boundary).socket other fun t idle _ => ?_
    cases idle
    exact nothing
  · rw [overflown]
    obtain ⟨boundary, nothing⟩ := done ⟨poolable, plain⟩
    have opened := (h.pool pools boundary).socket (s := some
      ⟨0, .idle, inboxAt w y.ps.upstreamFd⟩) other fun t idle _ => by
        cases idle
        exact nothing
    exact opened.socket other fun _ open₁ => nomatch open₁

theorem Clean.finish (h : Clean w) (tables : Tables w) {c : Fd} (entry : w.proxyStates c = some x)
    (same : y.ps.upstreamFd = x.ps.upstreamFd)
    (done : Poolable y → CleanBoundary y ∧ inboxAt w x.ps.upstreamFd = []) :
    Clean (releaseUpstream y (forgetExchange c y w)) := by
  obtain ⟨forgotten, unused⟩ := tables.forget entry same
  rw [← same] at done
  exact (h.forget c y).release (elsewhere forgotten unused.upstream) done

/-- What is read leaves nothing behind where nothing waits. -/
theorem Clean.drain (h : Clean w) {u : Fd} {s : Socket} (opened : w.sockets u = some s) (n : Nat)
    (other : ∀ c x, w.proxyStates c = some x → x.ps.upstreamFd ≠ u) : Clean (drain u s n w) := by
  refine h.socket other fun t idle role => ?_
  cases idle
  have nothing := h.idle u s opened role
  change s.inbox.drop n = []
  rw [nothing, List.drop_nil]

/-- Without the entry of its client, no exchange runs over an upstream. -/
theorem elsewhere_without (tables : Tables w) {c u : Fd}
    (mapped : w.upstreamFdToClient u = some c) (d : Fd) (z : Exchange)
    (stored : update w.proxyStates c none d = some z) : z.ps.upstreamFd ≠ u := by
  rw [update_apply] at stored
  split at stored
  · cases stored
  · rename_i apart
    rintro rfl
    have theirs := tables.proxied d z stored
    rw [mapped] at theirs
    cases theirs
    exact apart rfl

theorem Clean.read (h : Clean w) (tables : Tables w) {c u : Fd} {s : Socket} {n : Nat}
    (opened : w.sockets u = some s) (mapped : w.upstreamFdToClient u = some c)
    (kept : Framing y ∧ y.ended = false ∧ Answers y (sent (DescriptorTables.drain u s n w) y)) :
    Clean { DescriptorTables.drain u s n w with
      proxyStates := update w.proxyStates c (some y) } := by
  have without : Clean { w with proxyStates := update w.proxyStates c none } :=
    ⟨(h.forget c y).kept, h.idle, h.pooled, h.reused⟩
  have drained := Clean.entry (c := c) (without.drain opened n (elsewhere_without tables mapped)) kept
  simpa [DescriptorTables.drain, openFd] using drained

theorem Clean.readLast (h : Clean w) (tables : Tables w) {c u : Fd} {s : Socket} {n : Nat}
    (opened : w.sockets u = some s) (entry : w.proxyStates c = some x)
    (mapped : w.upstreamFdToClient u = some c) (same : y.ps.upstreamFd = x.ps.upstreamFd)
    (done : Poolable y →
      CleanBoundary y ∧ inboxAt (DescriptorTables.drain u s n w) x.ps.upstreamFd = []) :
    Clean (releaseUpstream y (forgetExchange c y (DescriptorTables.drain u s n w))) := by
  obtain ⟨forgotten, unused⟩ := tables.forget entry same
  rw [← same] at done
  have drained : Clean (forgetExchange c y (DescriptorTables.drain u s n w)) :=
    (h.forget c y).drain opened n (elsewhere_without tables mapped)
  exact drained.release (elsewhere forgotten unused.upstream) done

theorem Clean.drop (h : Clean w) (tables : Tables w) (c : Fd) : Clean (connDel c w) := by
  unfold connDel
  split
  · exact h
  split
  · exact h
  rename_i i index
  have closed := h.close tables (client_unproxied tables index)
  exact ⟨closed.kept, closed.idle, closed.pooled, closed.reused⟩

/-- Nothing has been sent to a new exchange. -/
theorem answers_of_started (fresh : Started x) (nothing : inboxAt w x.ps.upstreamFd = []) :
    Answers x (sent w x) := by
  have unread : x.fromUpstream = [] := by
    obtain ⟨p, route, cd, u, reused, now, rfl⟩ := fresh
    rfl
  rw [sent, unread, nothing]
  exact fun _ _ left => nomatch left

theorem Clean.change (tables : Tables w) (h : Clean w) (change : Change clean w w') : Clean w' := by
  cases change with
  | accept fd i nonzero closed free ok =>
    have opened := h.socket (s := some ⟨w.nextConn, .client, []⟩)
      (elsewhere tables (no_upstream_closed tables closed)) fun t client _ => by
        cases client
        rfl
    exact ⟨opened.kept, opened.idle, opened.pooled, opened.reused⟩
  | reject fd closed =>
    rw [reject_eq closed]
    exact ⟨h.kept, h.idle, h.pooled, h.reused⟩
  | slot i cd fd conn http => exact ⟨h.kept, h.idle, h.pooled, h.reused⟩
  | count counts => exact ⟨h.kept, h.idle, h.pooled, h.reused⟩
  | log ds => exact ⟨h.kept, h.idle, h.pooled, h.reused⟩
  | drop c => exact h.drop tables c
  | refuse c i index plain ok => exact h.close tables (client_unproxied tables index)
  | shut u unused => exact h.close tables unused.upstream
  | start c u i x s index http unused fresh upstream role conn inbox idle =>
    obtain ⟨framing, live, _⟩ := framing_of_started fresh
    have nothing : s.inbox = [] := inbox.trans (h.nothing idle)
    have opened := h.socket (s := some s) (elsewhere tables unused.upstream) fun t same _ => by
      cases same
      exact nothing
    have started := opened.entry (c := c) ⟨framing, live, ?_⟩
    · exact ⟨started.kept, started.idle, started.pooled, started.reused⟩
    · refine answers_of_started fresh ?_
      unfold inboxAt
      rw [upstream]
      dsimp only
      rw [update_self]
      exact nothing
  | advance c x y entry same ok =>
    have kept := ok (h.kept c x entry)
    rw [← same] at kept
    exact h.entry kept
  | finish c x y entry same ok => exact h.finish tables entry same (ok (h.kept c x entry))
  | deliver c i x entry index => exact ⟨h.kept, h.idle, h.pooled, h.reused⟩
  | drain u s n opened unproxied => exact h.drain opened n (elsewhere tables unproxied)
  | read c u x y s n opened entry mapped same ok =>
    have kept := ok (h.kept c x entry)
    rw [← same] at kept
    exact h.read tables opened mapped kept
  | readLast c u x y s n opened entry mapped same ok =>
    exact h.readLast tables opened entry mapped same (ok (h.kept c x entry))
  | source c u mapped => exact ⟨h.kept, h.idle, h.pooled, h.reused⟩
  | unpool left pools perm => exact ⟨h.kept, h.idle, h.pooled, h.reused⟩
  | reuse u pools perm =>
    obtain ⟨s, opened, role⟩ := tables.idle u (perm.mem_iff.mpr List.mem_cons_self)
    have nothing : inboxAt w u = [] := h.nothing fun t same => by
      cases opened.symm.trans same
      exact role
    exact ⟨h.kept, h.idle, h.pooled, List.forall_mem_append.mpr
      ⟨h.reused, List.forall_mem_singleton.mpr nothing⟩⟩
  | forwardOpen c u fs s unused upstream role =>
    have opened := h.socket (s := some s) (elsewhere tables unused.upstream) fun t same idle => by
      cases same
      rw [role] at idle
      cases idle
    exact ⟨opened.kept, opened.idle, opened.pooled, opened.reused⟩
  | forwardKeep d fs fs' entry same => exact ⟨h.kept, h.idle, h.pooled, h.reused⟩
  | forwardClose d fs entry =>
    obtain ⟨s, opened, role⟩ := tables.forward _ _ (tables.forwarded d fs entry)
    have closed := h.close tables (tables.no_upstream opened (by simp [role]))
    exact ⟨closed.kept, closed.idle, closed.pooled, closed.reused⟩
  | tick now => exact ⟨h.kept, h.idle, h.pooled, h.reused⟩

/-- Bytes arrive for the exchange that runs over the connection. -/
theorem Clean.arrive (h : Clean w) (tables : Tables w) {u : Fd} {data : Bytes} {s : Socket}
    (opened : w.sockets u = some s) (undisturbed : Undisturbed w (.arrive u data)) :
    Clean (openFd u { s with inbox := s.inbox ++ data } w) where
  kept := by
    intro c x entry
    obtain ⟨framing, live, answers⟩ := h.kept c x entry
    refine ⟨framing, live, ?_⟩
    by_cases this : x.ps.upstreamFd = u
    · have mapped := tables.proxied c x entry
      rw [this] at mapped
      have arrived : inboxAt (openFd u { s with inbox := s.inbox ++ data } w) u =
          inboxAt w u ++ data := by
        unfold inboxAt openFd
        dsimp only
        rw [update_self, opened]
      rw [sent, this, arrived, ← this, ← List.append_assoc]
      exact undisturbed.2 c mapped x entry this
    · rw [sent, inboxAt_same (update_of_ne this ..)]
      exact answers
  idle := by
    intro v t opened₁ role
    change update w.sockets u _ v = some t at opened₁
    rw [update_apply] at opened₁
    split at opened₁
    · cases opened₁
      exact absurd role (undisturbed.1 s opened)
    · exact h.idle v t opened₁ role
  pooled := h.pooled
  reused := h.reused

theorem clean_step (w : World) (e : EventLoop.Event) (h : Tables w ∧ Clean w)
    (careful : Careful w e) : Tables (EventLoop.step w e) ∧ Clean (EventLoop.step w e) :=
  step_invariant Clean.change h.1 h.2 careful.1 (permitted_of_undisturbed careful.2)
    fun _ _ _ event opened => h.2.arrive h.1 opened (event ▸ careful.2)

/-- In a careful run, every connection that is handed to the pool is at the boundary of a
message, and one that is reused has nothing left on it. -/
theorem pooled_clean (es : List EventLoop.Event)
    (careful : Guarded EventLoop.step Careful World.init es) :
    (∀ x ∈ (run EventLoop.step World.init es).pooled, CleanBoundary x) ∧
      ∀ b ∈ (run EventLoop.step World.init es).reused, b = [] := by
  obtain ⟨_, clean⟩ := run_invariant clean_step ⟨Tables.init, Clean.init⟩ careful
  exact ⟨clean.pooled, clean.reused⟩

/-- A request that is proxied, on a pooled connection or on a new one. -/
def request (connect : Option Fd) : EventLoop.Event :=
  .clientReadable 5 (.data (ascii "GET / HTTP/1.1\r\n\r\n")) (proxiedIo connect)

def response : Bytes := ascii "HTTP/1.1 200 OK\r\nContent-Length: 5\r\n\r\nhello"

/-- Two requests, the second one on the connection of the first. -/
def twoRequests : List EventLoop.Event :=
  [.accept (httpClient 5), request (some 6), .upstreamWritable 6 false (.wrote 1000),
    .arrive 6 response, .upstreamReadable 6 (.upTo 1000) (.wrote 1000), request none]

theorem pooled_clean_sample :
    (run EventLoop.step World.init twoRequests).reused = [[]] ∧
      (∀ x ∈ (run EventLoop.step World.init twoRequests).pooled, CleanBoundary x) ∧
      ∀ b ∈ (run EventLoop.step World.init twoRequests).reused, b = [] :=
  ⟨by decide +kernel, pooled_clean twoRequests (by decide +kernel)⟩

/-- The upstream closes its connection in the middle of the body. -/
def shortBody : List EventLoop.Event :=
  [.accept (httpClient 5), request (some 6), .upstreamWritable 6 false (.wrote 1000),
    .arrive 6 (response.dropLast), .upstreamReadable 6 (.upTo 1000) (.wrote 1000),
    .upstreamReadable 6 .eof .again]

theorem short_body_pooled :
    ¬ ∀ es : List EventLoop.Event,
      (∀ x ∈ (run EventLoop.step World.init es).pooled, CleanBoundary x) ∧
        ∀ b ∈ (run EventLoop.step World.init es).reused, b = [] := by
  intro clean
  exact absurd (clean shortBody).1 (by decide +kernel)

end CleanPool
