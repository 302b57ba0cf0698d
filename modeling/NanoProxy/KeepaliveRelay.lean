import NanoProxy.ResponseFraming

/-!
# Delivery on the keep-alive relay path (include/request.h)

Body bytes count as relayed when they are read. The exchange ends with the count, and
`proxy_cleanup` then frees whatever of the last read the client has not taken.
-/

namespace KeepaliveRelay

open CLib HttpRequestParser OutboundRequest ResponseHead ProxyExchange ExchangeFrames
open ResponseFraming Runs

variable {x : Exchange} {cs : ClientSide}

/-- What the client is to get for the bytes of a response. -/
def relayedText (cs : ClientSide) (response : Bytes) : Bytes :=
  match headerBlockLen response with
  | some n => rewriteHead (response.take n)
      (poolable (response.take n) && (cs.known && cs.keepAlive)) ++ response.drop n
  | none => []

/-- Nothing of the response is left in `downstream_buf`. -/
def Delivered (cs : ClientSide) (x : Exchange) : Prop :=
  x.ps.downstreamBuf = none ∧ x.toClient = relayedText cs x.fromUpstream

/-- `epoll` reports an upstream only while it is registered, the client stays the same,
and no body data of the client is cut short while a part of the response waits for it:
that would register the paused upstream again. -/
def Admitted (cs : ClientSide) (x : Exchange) : Event → Prop
  | .upstreamWritable _ _ => x.upstreamInterest ≠ none
  | .upstreamReadable cs' _ _ => cs' = cs ∧ x.upstreamInterest ≠ none
  | .bodyData data r => x.ps.downstreamBuf = none ∨ x.ps.connected = false ∨
      x.ps.unsent ≠ [] ∨ ∀ n ∈ r.taken data.length, data.length ≤ n
  | .clientWritable _ => True

instance decidableAdmitted (cs : ClientSide) (x : Exchange) : ∀ e, Decidable (Admitted cs x e)
  | .upstreamWritable _ _ => inferInstanceAs (Decidable (x.upstreamInterest ≠ none))
  | .upstreamReadable cs' _ _ =>
    inferInstanceAs (Decidable (cs' = cs ∧ x.upstreamInterest ≠ none))
  | .bodyData data r => inferInstanceAs (Decidable (x.ps.downstreamBuf = none ∨
      x.ps.connected = false ∨ x.ps.unsent ≠ [] ∨ ∀ n ∈ r.taken data.length, data.length ≤ n))
  | .clientWritable _ => .isTrue trivial

/-- A live exchange of a keep-alive route. -/
structure Relaying (cs : ClientSide) (x : Exchange) : Prop where
  route : x.ps.keepaliveEnabled = true
  framing : Framing x
  paused : x.upstreamInterest ≠ none → x.ps.downstreamBuf = none
  silent : x.ps.respHeadersDone = false → x.ps.downstreamBuf = none ∧ x.toClient = []
  delivered : 0 ≤ x.ps.respContentLength →
    x.toClient ++ x.ps.undelivered = relayedText cs x.fromUpstream

theorem Relaying.of_same {y : Exchange} (h : Relaying cs x) (same : SameDownload x y)
    (paused : y.upstreamInterest ≠ none → y.ps.downstreamBuf = none) : Relaying cs y := by
  have hun : y.ps.undelivered = x.ps.undelivered := by
    rw [ProxyState.undelivered, same.downstreamBuf, same.downstreamSent]
    rfl
  exact {
    route := same.keepaliveEnabled.trans h.route
    framing := h.framing.of_same same.toSameFraming
    paused := paused
    silent := by rw [same.respHeadersDone, same.downstreamBuf, same.toClient]; exact h.silent
    delivered := by
      rw [same.respContentLength, same.toClient, hun, same.fromUpstream]
      exact h.delivered }

theorem endWhenComplete_download (x : Exchange) : SameDownload x (endWhenComplete x) ∧
    (endWhenComplete x).upstreamInterest = x.upstreamInterest := by
  unfold endWhenComplete
  split
  · exact ⟨cleanup_download x, rfl⟩
  · exact ⟨.refl x, rfl⟩

/-- What the client of a relayed write has got, and what waits for it. -/
theorem relay_delivery {data : Bytes} {n m : Nat} {w : WriteResult} (live : x.ended = false)
    (empty : x.ps.downstreamBuf = none) (hw : socketWrite cs.known data.length w = some m) :
    let y := relay cs data n w x
    y.toClient = x.toClient ++ data.take m ∧ y.ps.undelivered = data.drop m ∧
      (y.ps.downstreamBuf = none ↔ m = data.length) ∧
      (y.upstreamInterest ≠ none → y.ps.downstreamBuf = none) := by
  have hle := socketWrite_le hw
  obtain ⟨hsame, hinterest⟩ := endWhenComplete_download (countRelayed n (deliver data m x))
  dsimp only
  rw [relay_some live hw, hsame.toClient, hsame.downstreamBuf, hinterest, ProxyState.undelivered,
    hsame.downstreamBuf, hsame.downstreamSent]
  unfold deliver countRelayed
  dsimp only
  by_cases hshort : m < data.length
  · rw [if_pos hshort]
    refine ⟨rfl, rfl, ?_, fun hne => absurd rfl hne⟩
    simp only [reduceCtorEq, false_iff]
    omega
  · rw [if_neg hshort]
    dsimp only
    rw [empty, List.drop_eq_nil_of_le (Nat.not_lt.mp hshort)]
    refine ⟨rfl, List.drop_nil, ⟨fun _ => by omega, fun _ => rfl⟩, fun _ => rfl⟩

/-- The chunk of a read continues the text for the client. -/
theorem relayedText_chunk (h : Relaying cs x) (empty : x.ps.downstreamBuf = none) {buf : Bytes}
    (length : x.ps.respHeadersDone = true → 0 ≤ x.ps.respContentLength)
    (head : x.ps.respHeadersDone = false → headerBlockLen (grown x buf) ≠ none) :
    x.toClient ++ chunk cs x buf = relayedText cs (x.fromUpstream ++ buf) := by
  cases hdone : x.ps.respHeadersDone with
  | true =>
    have hnonneg := length hdone
    have htext := h.delivered hnonneg
    rw [ProxyState.undelivered, empty, Option.getD_none, List.drop_nil, List.append_nil] at htext
    cases h.framing with
    | waiting undone => exact absurd undone (by rw [hdone]; decide)
    | framed n _ hhead _ _ _ =>
      have hle := headerBlockLen_le hhead
      rw [chunk, if_pos hdone, htext, relayedText, relayedText, hhead,
        headerBlockLen_append hhead buf]
      dsimp only
      rw [List.take_append_of_le_length hle, List.drop_append_of_le_length hle, List.append_assoc]
    | raw _ unknown => exact absurd hnonneg (by rw [unknown]; decide)
    | plain off => exact absurd off (by rw [h.route]; decide)
  | false =>
    obtain ⟨n, hn⟩ := Option.ne_none_iff_exists'.mp (head hdone)
    obtain ⟨-, -, hbuffered⟩ := h.framing.fresh h.route hdone
    have hgrown : grown x buf = x.fromUpstream ++ buf := by rw [grown, hbuffered]
    rw [(h.silent hdone).2, List.nil_append, chunk, if_neg (by rw [hdone]; decide), relayedText,
      ← hgrown, hn]
    dsimp only
    rw [h.route, Bool.true_and]

theorem relaying_read (h : Relaying cs x) (live : x.ended = false)
    (registered : x.upstreamInterest ≠ none) {buf : Bytes} {w : WriteResult}
    (goes : (proxyOnUpstreamRead cs (.data buf) w x).ended = false) :
    Relaying cs (proxyOnUpstreamRead cs (.data buf) w x) := by
  have hempty := h.paused registered
  by_cases hhead : x.ps.respHeadersDone = true ∨ headerBlockLen (grown x buf) ≠ none
  · obtain ⟨y, n, hy, heq⟩ := read_relays cs w h.route (fun hu => (h.framing.fresh h.route hu).1)
      hhead
    cases hw : socketWrite cs.known (chunk cs x buf).length w with
    | none =>
      rw [heq, relay_none hw] at goes
      cases goes
    | some m =>
      have hgoes : socketWrite cs.known (chunk cs x buf).length w ≠ none := by rw [hw]; simp
      have hframing := framing_read h.framing live hgoes
      have hylive : y.ended = false := hy.ended.trans live
      obtain ⟨htext, hrest, -, hpaused⟩ := relay_delivery (n := n) hylive
        (hy.downstreamBuf.trans hempty) hw
      have hsame := relay_framing (n := n) hylive hw
      rw [heq] at hframing ⊢
      exact {
        route := hsame.keepaliveEnabled.trans (hy.keepaliveEnabled.trans h.route)
        framing := hframing
        paused := hpaused
        silent := fun hu => absurd (hsame.respHeadersDone.trans hy.done) (by rw [hu]; decide)
        delivered := fun hnonneg => by
          have hyfrom : (countRelayed n y).fromUpstream = x.fromUpstream ++ buf := hy.fromUpstream
          have hylength : (countRelayed n y).ps.respContentLength = y.ps.respContentLength := rfl
          rw [hsame.respContentLength, hylength] at hnonneg
          rw [htext, hrest, hy.toClient, List.append_assoc, List.take_append_drop,
            hsame.fromUpstream, hyfrom]
          refine relayedText_chunk h hempty (fun hd => ?_) fun hu => ?_
          · rw [← hy.length hd]
            exact hnonneg
          · exact hhead.resolve_left (by rw [hu]; decide) }
  · rw [not_or, Bool.not_eq_true, not_not] at hhead
    obtain ⟨hundone, hnone⟩ := hhead
    obtain ⟨-, hunknown, -⟩ := h.framing.fresh h.route hundone
    have hchunk : chunk cs x buf = [] := by
      rw [chunk, if_neg (by rw [hundone]; decide), hnone]
    have hgoes : socketWrite cs.known (chunk cs x buf).length w ≠ none := by
      simp [hchunk, socketWrite]
    have hframing := framing_read h.framing live hgoes
    have hnever : ¬ 0 ≤ x.ps.respContentLength := by
      rw [hunknown]
      decide
    rw [read_unfinished h.route hundone hnone] at hframing ⊢
    split
    · rename_i hlong
      rw [if_pos hlong] at hframing
      exact {
        route := h.route
        framing := hframing
        paused := fun _ => hempty
        silent := fun hu => by cases hu
        delivered := fun hnonneg => absurd hnonneg hnever }
    · rename_i hshort
      rw [if_neg hshort] at hframing
      exact {
        route := h.route
        framing := hframing
        paused := fun _ => hempty
        silent := fun _ => h.silent hundone
        delivered := fun hnonneg => absurd hnonneg hnever }

theorem relaying_clientWritable (h : Relaying cs x) (w : WriteResult) :
    Relaying cs (proxyOnClientWritable w x) := by
  unfold proxyOnClientWritable
  dsimp only
  by_cases hnil : x.ps.undelivered = []
  · rw [if_pos hnil]
    exact ⟨h.route, h.framing.of_same ⟨rfl, rfl, rfl, rfl, rfl, rfl, rfl⟩, h.paused, h.silent,
      h.delivered⟩
  have hbusy : x.ps.downstreamBuf ≠ none := fun hnone => hnil (by
    rw [ProxyState.undelivered, hnone]
    exact List.drop_nil)
  rw [if_neg hnil]
  cases socketWrite true x.ps.undelivered.length w with
  | none =>
    exact ⟨h.route, h.framing.of_same ⟨rfl, rfl, rfl, rfl, rfl, rfl, rfl⟩, h.paused, h.silent,
      h.delivered⟩
  | some n =>
    dsimp only
    by_cases hall : n = x.ps.undelivered.length
    · -- the buffer is empty again and the upstream goes on
      rw [if_pos hall, hall, List.take_length]
      have htext : 0 ≤ x.ps.respContentLength →
          (x.toClient ++ x.ps.undelivered) ++ [] = relayedText cs x.fromUpstream := fun hnonneg => by
        rw [List.append_nil, h.delivered hnonneg]
      split
      · exact ⟨h.route, h.framing.of_same ⟨rfl, rfl, rfl, rfl, rfl, rfl, rfl⟩, fun _ => rfl,
          fun hu => absurd (h.silent hu).1 hbusy, htext⟩
      · exact ⟨h.route, h.framing.of_same ⟨rfl, rfl, rfl, rfl, rfl, rfl, rfl⟩, fun _ => rfl,
          fun hu => absurd (h.silent hu).1 hbusy, htext⟩
    · rw [if_neg hall]
      have hdrop : (x.ps.downstreamBuf.getD []).drop (x.ps.downstreamSent + n) =
          x.ps.undelivered.drop n := by
        rw [ProxyState.undelivered, List.drop_drop]
      exact {
        route := h.route
        framing := h.framing.of_same ⟨rfl, rfl, rfl, rfl, rfl, rfl, rfl⟩
        paused := h.paused
        silent := fun hu => absurd (h.silent hu).1 hbusy
        delivered := fun hnonneg => by
          change (x.toClient ++ x.ps.undelivered.take n) ++ List.drop _ _ = _
          rw [hdrop, List.append_assoc, List.take_append_drop]
          exact h.delivered hnonneg }

/-- One admitted event, unless it ends the exchange. -/
theorem relaying_step (h : Relaying cs x) (live : x.ended = false) {e : Event}
    (admitted : Admitted cs x e) (goes : (step x e).ended = false) : Relaying cs (step x e) := by
  have hstep := step_live live e
  rw [hstep] at goes ⊢
  cases e with
  | upstreamWritable soerr r =>
    have hsame := upstreamWrite_download soerr r x
    refine h.of_same hsame fun _ => ?_
    exact hsame.downstreamBuf.trans (h.paused admitted)
  | bodyData data r =>
    have hsame := bodyData_download data r x
    refine h.of_same hsame fun hreg => ?_
    change (proxyOnBodyData data r x).upstreamInterest ≠ none at hreg
    refine hsame.downstreamBuf.trans ?_
    rcases bodyData_interest data r x with hint | ⟨hconn, hunsent, n, hn, hshort⟩
    · exact h.paused (by rw [← hint]; exact hreg)
    · rcases admitted with hempty | hoff | hqueue | hwhole
      · exact hempty
      · exact absurd hoff (by rw [hconn]; decide)
      · exact absurd hunsent hqueue
      · exact absurd (hwhole n hn) (by omega)
  | upstreamReadable cs' r w =>
    obtain ⟨rfl, hreg⟩ := admitted
    cases r with
    | data buf => exact relaying_read h live hreg goes
    | again => exact h
    | eof => cases goes
    | failed => cases goes
  | clientWritable w => exact relaying_clientWritable h w

theorem relaying_start (p : HttpParser) (route : Route) (cd : Client) (upstreamFd : Nat)
    (reusedConn : Bool) (now : Int) (ka : route.upstream.keepaliveEnabled = true) :
    Relaying cs (proxyStart p route cd upstreamFd reusedConn now) where
  route := ka
  framing := framing_start p route cd upstreamFd reusedConn now
  paused := fun _ => rfl
  silent := fun _ => ⟨rfl, rfl⟩
  delivered := fun hnonneg => by
    change (0 : Int) ≤ -1 at hnonneg
    omega

theorem relaying_run {es : List Event} (h : x.ended = false → Relaying cs x)
    (admitted : Guarded step (Admitted cs) x es) :
    (run step x es).ended = false → Relaying cs (run step x es) := by
  refine run_live ?_ h admitted
  intro x e hx live he goes
  exact relaying_step hx live he goes

theorem completes_head {buf : Bytes} (complete : completes x buf = true) :
    (x.ps.respHeadersDone = true → 0 ≤ x.ps.respContentLength) ∧
      (x.ps.respHeadersDone = false → headerBlockLen (grown x buf) ≠ none) := by
  unfold completes at complete
  cases hdone : x.ps.respHeadersDone with
  | true =>
    rw [if_pos hdone, Bool.and_eq_true, decide_eq_true_eq] at complete
    exact ⟨fun _ => complete.1, fun h => by cases h⟩
  | false =>
    rw [if_neg (by rw [hdone]; decide)] at complete
    refine ⟨fun h => (by cases h), fun _ hnone => ?_⟩
    rw [hnone] at complete
    cases complete

/-- The exchange ends with a read exactly when everything was delivered if the client took
the whole chunk of that read. -/
theorem delivered_read (h : Relaying cs x) (live : x.ended = false)
    (registered : x.upstreamInterest ≠ none) {buf : Bytes} {w : WriteResult}
    (complete : completes x buf = true) :
    (proxyOnUpstreamRead cs (.data buf) w x).ended = true ∧
      (Delivered cs (proxyOnUpstreamRead cs (.data buf) w x) ↔
        socketWrite cs.known (chunk cs x buf).length w = some (chunk cs x buf).length) := by
  have hempty := h.paused registered
  obtain ⟨hlength, hhead⟩ := completes_head complete
  have htext := relayedText_chunk h hempty hlength hhead
  have hready : x.ps.respHeadersDone = true ∨ headerBlockLen (grown x buf) ≠ none := by
    cases hdone : x.ps.respHeadersDone with
    | true => exact Or.inl rfl
    | false => exact Or.inr (hhead hdone)
  obtain ⟨y, n, hy, heq⟩ := read_relays cs w h.route (fun hu => (h.framing.fresh h.route hu).1)
    hready
  have hylive : y.ended = false := hy.ended.trans live
  rw [heq]
  unfold Delivered
  cases hw : socketWrite cs.known (chunk cs x buf).length w with
  | none =>
    -- a refused write delivers nothing of a chunk that is not empty
    have hne := socketWrite_none hw
    rw [relay_none hw]
    refine ⟨rfl, ⟨fun hdel => absurd hdel.2 ?_, fun hsome => by cases hsome⟩⟩
    change y.toClient ≠ relayedText cs y.fromUpstream
    rw [hy.fromUpstream, hy.toClient, ← htext]
    intro heq
    exact hne (by simpa using heq)
  | some m =>
    obtain ⟨htaken, hrest, hall, -⟩ := relay_delivery (n := n) hylive
      (hy.downstreamBuf.trans hempty) hw
    have hsame := relay_framing (n := n) hylive hw
    have hfrom : (relay cs (chunk cs x buf) n w y).fromUpstream = x.fromUpstream ++ buf :=
      hsame.fromUpstream.trans hy.fromUpstream
    constructor
    · rw [relay_some hylive hw]
      have hd := (deliver_framing (chunk cs x buf) m y).1
      rw [endWhenComplete, if_pos]
      · rfl
      · have hc := hy.complete.mp complete
        change 0 ≤ (deliver (chunk cs x buf) m y).ps.respContentLength ∧
          (deliver (chunk cs x buf) m y).ps.respContentLength ≤
            ((deliver (chunk cs x buf) m y).ps.respBodyRelayed + n : Nat)
        rw [hd.respContentLength, hd.respBodyRelayed]
        exact hc
    · rw [hall, htaken, hfrom, hy.toClient, ← htext, Option.some.injEq]
      constructor
      · exact fun hdel => hdel.1
      · intro hm
        refine ⟨hm, ?_⟩
        rw [hm, List.take_length]

/-- Complete delivery on the keep-alive relay path holds exactly when the client takes all
of the read that completes the body. -/
theorem delivered_iff (p : HttpParser) (route : Route) (cd : Client) (upstreamFd : Nat)
    (reusedConn : Bool) (now : Int) (ka : route.upstream.keepaliveEnabled = true)
    (cs : ClientSide) (es : List Event)
    (admitted : Guarded step (Admitted cs) (proxyStart p route cd upstreamFd reusedConn now) es)
    (buf : Bytes) (w : WriteResult) :
    let x := run step (proxyStart p route cd upstreamFd reusedConn now) es
    let y := step x (.upstreamReadable cs (.data buf) w)
    x.ended = false → x.upstreamInterest ≠ none → completes x buf = true →
      y.ended = true ∧ (Delivered cs y ↔
        socketWrite cs.known (chunk cs x buf).length w = some (chunk cs x buf).length) := by
  intro x y live registered complete
  have h : Relaying cs x := relaying_run (fun _ => relaying_start p route cd upstreamFd reusedConn
    now ka) admitted live
  have hy : y = proxyOnUpstreamRead cs (.data buf) w x := step_live live _
  rw [hy]
  exact delivered_read h live registered complete

def sampleSide : ClientSide := ⟨true, true⟩

/-- The request goes out, the head arrives with two bytes of the body, and the client takes
it in two parts. -/
def sampleEvents : List Event :=
  [.upstreamWritable false (.wrote 4096),
    .upstreamReadable sampleSide
      (.data (ascii "HTTP/1.1 200 OK\r\nContent-Length: 5\r\n\r\nhe")) (.wrote 10),
    .clientWritable (.wrote 4096)]

theorem delivered_iff_sample :
    let x := run step sampleStart sampleEvents
    let y := step x (.upstreamReadable sampleSide (.data (ascii "llo")) (.wrote 3))
    y.ended = true ∧ (Delivered sampleSide y ↔
      socketWrite true (chunk sampleSide x (ascii "llo")).length (.wrote 3) =
        some (chunk sampleSide x (ascii "llo")).length) :=
  delivered_iff (getParser 4) sampleRoute sampleClient 9 false 0 rfl sampleSide
    sampleEvents (by decide +kernel) (ascii "llo") (.wrote 3) (by decide +kernel)
    (by decide +kernel) (by decide +kernel)

/-- A response that comes in one read, of which the client takes ten bytes: the exchange
ends and the rest is freed. -/
theorem last_read_cut_short :
    let response := ascii "HTTP/1.1 200 OK\r\nContent-Length: 5\r\n\r\nhello"
    let x := run step sampleStart [.upstreamWritable false (.wrote 4096)]
    let y := step x (.upstreamReadable sampleSide (.data response) (.wrote 10))
    x.ended = false ∧ completes x response = true ∧ y.ended = true ∧
      y.ps.downstreamBuf ≠ none ∧ y.toClient = ascii "HTTP/1.1 2" ∧
      ¬ Delivered sampleSide y := by
  unfold Delivered
  decide +kernel

end KeepaliveRelay
