import NanoProxy.ExchangeFrames

/-!
# Response framing in an exchange

What the response fields of a `proxy_state_t` say about the bytes read from the
upstream, whatever the other events of the exchange do.
-/

namespace ResponseFraming

open CLib ResponseHead ProxyExchange ExchangeFrames

variable {x y : Exchange} {cs : ClientSide} {buf : Bytes} {w : WriteResult}

/-- The three stages of a response on a keep-alive route, and the routes without. -/
inductive Framing (x : Exchange) : Prop where
  | waiting (undone : x.ps.respHeadersDone = false)
      (buffered : x.ps.respHeaderBuf.getD [] = x.fromUpstream)
      (head : headerBlockLen x.fromUpstream = none) (length : x.ps.respContentLength = -1)
      (relayed : x.ps.respBodyRelayed = 0) (pool : x.ps.respPoolable = false)
  | framed (n : Nat) (done : x.ps.respHeadersDone = true)
      (head : headerBlockLen x.fromUpstream = some n)
      (length : x.ps.respContentLength = contentLength (x.fromUpstream.take n))
      (relayed : x.ps.respBodyRelayed = x.fromUpstream.length - n)
      (pool : x.ps.respPoolable = (x.ps.keepaliveEnabled && poolable (x.fromUpstream.take n)))
  | raw (done : x.ps.respHeadersDone = true) (length : x.ps.respContentLength = -1)
      (pool : x.ps.respPoolable = false)
  | plain (route : x.ps.keepaliveEnabled = false) (pool : x.ps.respPoolable = false)

theorem Framing.of_same (h : Framing x) (same : SameFraming x y) : Framing y := by
  cases h with
  | waiting undone buffered head length relayed pool =>
    exact .waiting (same.respHeadersDone.trans undone)
      (by rw [same.respHeaderBuf, same.fromUpstream, buffered])
      (by rw [same.fromUpstream, head]) (same.respContentLength.trans length)
      (same.respBodyRelayed.trans relayed) (same.respPoolable.trans pool)
  | framed n done head length relayed pool =>
    exact .framed n (same.respHeadersDone.trans done) (by rw [same.fromUpstream, head])
      (by rw [same.respContentLength, same.fromUpstream, length])
      (by rw [same.respBodyRelayed, same.fromUpstream, relayed])
      (by rw [same.respPoolable, same.keepaliveEnabled, same.fromUpstream, pool])
  | raw done length pool =>
    exact .raw (same.respHeadersDone.trans done) (same.respContentLength.trans length)
      (same.respPoolable.trans pool)
  | plain route pool =>
    exact .plain (same.keepaliveEnabled.trans route) (same.respPoolable.trans pool)

/-- Body data registers the upstream again only when its write is short. -/
theorem bodyData_interest (data : Bytes) (r : WriteResult) (x : Exchange) :
    (proxyOnBodyData data r x).upstreamInterest = x.upstreamInterest ∨
      x.ps.connected = true ∧ x.ps.unsent = [] ∧ ∃ n, r.taken data.length = some n ∧
        n < data.length := by
  unfold proxyOnBodyData
  by_cases hqueue : (!x.ps.connected) = true ∨ x.ps.unsent ≠ []
  · rw [if_pos hqueue]
    exact Or.inl rfl
  rw [if_neg hqueue]
  rw [not_or, not_not] at hqueue
  cases hn : r.taken data.length with
  | none => exact Or.inl rfl
  | some n =>
    dsimp only
    by_cases hshort : n < data.length
    · exact Or.inr ⟨by simpa using hqueue.1, hqueue.2, n, rfl, hshort⟩
    · rw [if_neg hshort]
      exact Or.inl rfl

/-- The bytes before the end of the headers is seen. -/
def grown (x : Exchange) (buf : Bytes) : Bytes := x.ps.respHeaderBuf.getD [] ++ buf

/-- What a read of `buf` makes the proxy write, once the headers are complete. -/
def chunk (cs : ClientSide) (x : Exchange) (buf : Bytes) : Bytes :=
  if x.ps.respHeadersDone then buf else
  match headerBlockLen (grown x buf) with
  | some n => rewriteHead ((grown x buf).take n) ((x.ps.keepaliveEnabled &&
      poolable ((grown x buf).take n)) && (cs.known && cs.keepAlive)) ++ (grown x buf).drop n
  | none => []

/-- With `buf` the body has reached Content-Length. -/
def completes (x : Exchange) (buf : Bytes) : Bool :=
  if x.ps.respHeadersDone then
    0 ≤ x.ps.respContentLength && x.ps.respContentLength ≤ x.ps.respBodyRelayed + buf.length
  else match headerBlockLen (grown x buf) with
    | some n => 0 ≤ contentLength ((grown x buf).take n) &&
        contentLength ((grown x buf).take n) ≤ ((grown x buf).drop n).length
    | none => false

theorem deliver_framing (data : Bytes) (n : Nat) (x : Exchange) :
    SameFraming x (deliver data n x) ∧ (deliver data n x).ended = x.ended := by
  unfold deliver
  dsimp only
  split
  · exact ⟨⟨rfl, rfl, rfl, rfl, rfl, rfl, rfl⟩, rfl⟩
  · exact ⟨⟨rfl, rfl, rfl, rfl, rfl, rfl, rfl⟩, rfl⟩

theorem endWhenComplete_framing (x : Exchange) : SameFraming x (endWhenComplete x) := by
  unfold endWhenComplete
  split
  · exact ⟨rfl, rfl, rfl, rfl, rfl, rfl, rfl⟩
  · exact SameFraming.refl x

theorem relay_some {data : Bytes} {n m : Nat} (live : x.ended = false)
    (hw : socketWrite cs.known data.length w = some m) :
    relay cs data n w x = endWhenComplete (countRelayed n (deliver data m x)) := by
  unfold relay writeOrBuffer
  rw [hw]
  dsimp only
  rw [(deliver_framing data m x).2, live, if_neg Bool.false_ne_true]

theorem relay_none {data : Bytes} {n : Nat} (hw : socketWrite cs.known data.length w = none) :
    relay cs data n w x = cleanup x := by
  unfold relay writeOrBuffer
  rw [hw]
  exact if_pos rfl

/-- A relayed write adds to the count and changes no other part of the framing. -/
theorem relay_framing {data : Bytes} {n m : Nat} (live : x.ended = false)
    (hw : socketWrite cs.known data.length w = some m) :
    SameFraming (countRelayed n x) (relay cs data n w x) := by
  have h := (deliver_framing data m x).1
  rw [relay_some live hw]
  refine SameFraming.trans ?_ (endWhenComplete_framing _)
  exact ⟨h.fromUpstream, h.keepaliveEnabled, h.respHeadersDone, h.respHeaderBuf,
    h.respContentLength, congrArg (· + n) h.respBodyRelayed, h.respPoolable⟩

/-- A relay adds nothing to what is known of the response, whether or not the client takes
the write. -/
theorem relay_response (cs : ClientSide) (data : Bytes) (n : Nat) (w : WriteResult)
    (live : x.ended = false) :
    (relay cs data n w x).fromUpstream = x.fromUpstream ∧
      (relay cs data n w x).ps.respHeadersDone = x.ps.respHeadersDone ∧
      (relay cs data n w x).ps.respPoolable = x.ps.respPoolable := by
  cases written : socketWrite cs.known data.length w with
  | none =>
    rw [relay_none written]
    exact ⟨rfl, rfl, rfl⟩
  | some m =>
    have same := @relay_framing x cs w data n m live written
    exact ⟨same.fromUpstream, same.respHeadersDone, same.respPoolable⟩

/-- The read of a keep-alive route by the stage of its response. -/
theorem read_done (ka : x.ps.keepaliveEnabled = true) (done : x.ps.respHeadersDone = true) :
    proxyOnUpstreamRead cs (.data buf) w x = relay cs buf buf.length w (receive buf x) := by
  simp [proxyOnUpstreamRead, proxyRelayUpstreamKeepalive, receive, ka, done]

theorem read_head {n : Nat} (ka : x.ps.keepaliveEnabled = true)
    (undone : x.ps.respHeadersDone = false) (head : headerBlockLen (grown x buf) = some n) :
    proxyOnUpstreamRead cs (.data buf) w x =
      relay cs (chunk cs x buf) ((grown x buf).drop n).length w
        (frameResponse ((grown x buf).take n) (receive buf x)) := by
  have hgrown : (receive buf x).ps.respHeaderBuf.getD [] ++ buf = grown x buf := rfl
  unfold proxyOnUpstreamRead proxyRelayUpstreamKeepalive
  dsimp only
  rw [hgrown, head, if_pos (by simpa [receive] using ka), if_neg (by simp [receive, undone])]
  simp [relayHead, chunk, undone, head, frameResponse, receive]

theorem read_unfinished (ka : x.ps.keepaliveEnabled = true)
    (undone : x.ps.respHeadersDone = false) (head : headerBlockLen (grown x buf) = none) :
    proxyOnUpstreamRead cs (.data buf) w x =
      if 16384 < (grown x buf).length then giveUpFraming cs (grown x buf) w (receive buf x)
      else { receive buf x with ps := { x.ps with respHeaderBuf := some (grown x buf) } } := by
  have hgrown : (receive buf x).ps.respHeaderBuf.getD [] ++ buf = grown x buf := rfl
  unfold proxyOnUpstreamRead proxyRelayUpstreamKeepalive
  dsimp only
  rw [hgrown, head, if_pos (by simpa [receive] using ka), if_neg (by simp [receive, undone])]
  rfl

/-- The exchange at the write of a read, with the number of body bytes in the chunk. -/
structure AtWrite (x : Exchange) (buf : Bytes) (y : Exchange) (n : Nat) : Prop where
  ended : y.ended = x.ended
  fromUpstream : y.fromUpstream = x.fromUpstream ++ buf
  toClient : y.toClient = x.toClient
  downstreamBuf : y.ps.downstreamBuf = x.ps.downstreamBuf
  pending : y.ps.pending = x.ps.pending
  keepaliveEnabled : y.ps.keepaliveEnabled = x.ps.keepaliveEnabled
  done : y.ps.respHeadersDone = true
  length : x.ps.respHeadersDone = true → y.ps.respContentLength = x.ps.respContentLength
  complete : completes x buf = true ↔
    0 ≤ y.ps.respContentLength ∧ y.ps.respContentLength ≤ (y.ps.respBodyRelayed + n : Nat)

/-- Once the headers are complete, a read relays its chunk. -/
theorem read_relays (cs : ClientSide) (w : WriteResult) (ka : x.ps.keepaliveEnabled = true)
    (fresh : x.ps.respHeadersDone = false → x.ps.respBodyRelayed = 0)
    (head : x.ps.respHeadersDone = true ∨ headerBlockLen (grown x buf) ≠ none) :
    ∃ y n, AtWrite x buf y n ∧
      proxyOnUpstreamRead cs (.data buf) w x = relay cs (chunk cs x buf) n w y := by
  cases hdone : x.ps.respHeadersDone with
  | true =>
    refine ⟨receive buf x, buf.length, ⟨rfl, rfl, rfl, rfl, rfl, rfl, hdone, fun _ => rfl, ?_⟩, ?_⟩
    · simp [completes, hdone, receive]
    · rw [read_done ka hdone, chunk, if_pos hdone]
  | false =>
    obtain ⟨n, hn⟩ := Option.ne_none_iff_exists'.mp (head.resolve_left (by rw [hdone]; simp))
    refine ⟨frameResponse ((grown x buf).take n) (receive buf x), ((grown x buf).drop n).length,
      ⟨rfl, rfl, rfl, rfl, rfl, rfl, rfl, fun h => absurd h (by rw [hdone]; decide), ?_⟩,
      read_head ka hdone hn⟩
    have hzero : (frameResponse ((grown x buf).take n) (receive buf x)).ps.respBodyRelayed = 0 :=
      fresh hdone
    rw [hzero, Nat.zero_add, completes, if_neg (by rw [hdone]; decide), hn]
    simp only [Bool.and_eq_true, decide_eq_true_eq]
    rfl

theorem Framing.fresh (h : Framing x) (ka : x.ps.keepaliveEnabled = true)
    (undone : x.ps.respHeadersDone = false) :
    x.ps.respBodyRelayed = 0 ∧ x.ps.respContentLength = -1 ∧
      x.ps.respHeaderBuf.getD [] = x.fromUpstream := by
  cases h with
  | waiting _ buffered _ length relayed _ => exact ⟨relayed, length, buffered⟩
  | framed n done => exact absurd done (by rw [undone]; decide)
  | raw done => exact absurd done (by rw [undone]; decide)
  | plain off => exact absurd off (by rw [ka]; decide)

theorem Framing.pool_off (h : Framing x) (route : x.ps.keepaliveEnabled = false) :
    x.ps.respPoolable = false := by
  cases h with
  | waiting undone buffered head length relayed pool => exact pool
  | framed n done head length relayed pool => rw [pool, route, Bool.false_and]
  | raw done length pool => exact pool
  | plain route pool => exact pool

theorem read_plain (h : Framing x) (route : x.ps.keepaliveEnabled = false) :
    Framing (proxyOnUpstreamRead cs (.data buf) w x) := by
  have hpool := h.pool_off route
  unfold proxyOnUpstreamRead writeOrBuffer
  dsimp only
  rw [if_neg (by simp [receive, route])]
  split
  · exact .plain route hpool
  · rename_i m _
    have hsame := (deliver_framing buf m (receive buf x)).1
    exact .plain (hsame.keepaliveEnabled.trans route) (hsame.respPoolable.trans hpool)

/-- A read keeps the framing exact, unless the client refuses the write. -/
theorem framing_read (h : Framing x) (live : x.ended = false)
    (ok : socketWrite cs.known (chunk cs x buf).length w ≠ none) :
    Framing (proxyOnUpstreamRead cs (.data buf) w x) := by
  obtain ⟨m, hm⟩ := Option.ne_none_iff_exists'.mp ok
  by_cases route : x.ps.keepaliveEnabled = false
  · exact read_plain h route
  rw [Bool.not_eq_false] at route
  cases h with
  | waiting undone buffered head length relayed pool =>
    have hgrown : grown x buf = x.fromUpstream ++ buf := by rw [grown, buffered]
    cases hhead : headerBlockLen (grown x buf) with
    | none =>
      rw [read_unfinished route undone hhead]
      split
      · exact .raw rfl length rfl
      · exact .waiting undone hgrown (by rw [← hhead, hgrown]; rfl) length relayed pool
    | some n =>
      rw [read_head route undone hhead]
      refine Framing.of_same ?_ (relay_framing live hm)
      refine .framed n rfl (by rw [← hhead, hgrown]; rfl) ?_ ?_ ?_
      · rw [hgrown]
        rfl
      · change x.ps.respBodyRelayed + _ = (x.fromUpstream ++ buf).length - n
        rw [relayed, hgrown, List.length_drop, Nat.zero_add]
      · rw [hgrown]
        rfl
  | framed n done head length relayed pool =>
    have hle := headerBlockLen_le head
    have htake : (x.fromUpstream ++ buf).take n = x.fromUpstream.take n :=
      List.take_append_of_le_length hle
    rw [read_done route done]
    rw [chunk, if_pos done] at hm
    refine Framing.of_same ?_ (relay_framing live hm)
    refine .framed n done (headerBlockLen_append head buf) ?_ ?_ ?_
    · change x.ps.respContentLength = contentLength ((x.fromUpstream ++ buf).take n)
      rw [htake, length]
    · change x.ps.respBodyRelayed + buf.length = (x.fromUpstream ++ buf).length - n
      rw [relayed, List.length_append]
      omega
    · change x.ps.respPoolable = (_ && poolable ((x.fromUpstream ++ buf).take n))
      rw [htake, pool]
      rfl
  | raw done length pool =>
    rw [read_done route done]
    rw [chunk, if_pos done] at hm
    have hraw : Framing (countRelayed buf.length (receive buf x)) := .raw done length pool
    exact hraw.of_same (relay_framing live hm)
  | plain off pool => exact absurd route (by rw [off]; decide)

theorem framing_start (p : HttpRequestParser.HttpParser) (route : Route)
    (cd : OutboundRequest.Client) (upstreamFd : Nat) (reusedConn : Bool) (now : Int) :
    Framing (proxyStart p route cd upstreamFd reusedConn now) :=
  .waiting rfl rfl rfl rfl rfl rfl

end ResponseFraming
