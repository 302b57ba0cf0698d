import NanoProxy.ExchangeFrames

/-!
# Client to upstream (include/request.h)

The request that `proxy_handler` builds and the body data that follows it reach the
upstream in order, whichever way they take: the initial `pending`, an append to it, or a
direct write whose rest is buffered.
-/

namespace UpstreamFifo

open CLib StringBuffer HttpRequestParser OutboundRequest ProxyExchange ExchangeFrames Runs

/-- The data that an event offers to the upstream. -/
def body : Event → Bytes
  | .bodyData data _ => data
  | _ => []

/-- No error ends the exchange: a connect or a write on the upstream may be short, or not
possible yet, and the other side of the exchange goes on. -/
def Calm (x : Exchange) : Event → Prop
  | .upstreamWritable soerr r =>
    (x.ps.connected = true ∨ soerr = false) ∧
      (x.ps.unsent = [] ∨ r.taken x.ps.unsent.length ≠ none)
  | .bodyData data r => x.ps.connected = false ∨ x.ps.unsent ≠ [] ∨ r.taken data.length ≠ none
  | e => (step x e).ended = false

instance decidableCalm (x : Exchange) : ∀ e, Decidable (Calm x e)
  | .upstreamWritable soerr r => inferInstanceAs (Decidable
      ((x.ps.connected = true ∨ soerr = false) ∧
        (x.ps.unsent = [] ∨ r.taken x.ps.unsent.length ≠ none)))
  | .bodyData data r => inferInstanceAs (Decidable
      (x.ps.connected = false ∨ x.ps.unsent ≠ [] ∨ r.taken data.length ≠ none))
  | .upstreamReadable cs r w => inferInstanceAs (Decidable
      ((step x (.upstreamReadable cs r w)).ended = false))
  | .clientWritable w => inferInstanceAs (Decidable ((step x (.clientWritable w)).ended = false))

/-- What was written and what is pending is the request and everything offered. -/
structure Fifo (request offered : Bytes) (x : Exchange) : Prop where
  live : x.ended = false
  order : x.toUpstream ++ x.ps.unsent = request ++ offered
  pending : x.ps.pending ≠ none ↔ x.ps.unsent ≠ []
  start : x.ps.pending = none → x.ps.pendingSent = 0
  connecting : x.ps.connected = false → x.ps.unsent ≠ []

/-- A buffer to which nothing has been appended is as it was made. -/
def Filled (sb : StringBuf) : Prop := sb.data ≠ [] ∨ sb = stringbufInit 2048

theorem append_ne_nil {sb : StringBuf} (src : Bytes) (h : sb.data ≠ []) :
    (append sb src).data ≠ [] := by
  unfold append
  cases happ : stringbufAppend sb src with
  | none => exact h
  | some sb' =>
    rw [Option.getD_some, (stringbufAppend_data happ).2]
    exact List.append_ne_nil_of_left_ne_nil h _

theorem filled_append {sb : StringBuf} (src : Bytes) (h : Filled sb) : Filled (append sb src) := by
  unfold append
  cases happ : stringbufAppend sb src with
  | none => exact h
  | some sb' =>
    obtain ⟨hsrc, hdata⟩ := stringbufAppend_data happ
    refine Or.inl ?_
    rw [Option.getD_some, hdata]
    exact List.append_ne_nil_of_right_ne_nil _ hsrc

theorem filled_appendf {sb : StringBuf} (text : Bytes) (h : Filled sb) :
    Filled (appendf sb text) := by
  rcases h with hdata | rfl
  · unfold appendf
    cases happ : stringbufAppendf sb text with
    | none => exact Or.inl hdata
    | some sb' =>
      refine Or.inl ?_
      rw [Option.getD_some, stringbufAppendf_data happ]
      exact List.append_ne_nil_of_left_ne_nil hdata _
  · by_cases htext : text = []
    · exact Or.inr (by rw [htext]; decide)
    · unfold appendf
      cases happ : stringbufAppendf (stringbufInit 2048) text with
      | none => exact Or.inr rfl
      | some sb' =>
        refine Or.inl ?_
        rw [Option.getD_some, stringbufAppendf_data happ]
        exact List.append_ne_nil_of_right_ne_nil _ htext

theorem filled_putHeaders {sb : StringBuf} (hs : Headers) (h : Filled sb) :
    Filled (putHeaders hs sb) := by
  unfold putHeaders
  induction hs generalizing sb with
  | nil => exact h
  | cons e hs ih =>
    rw [List.foldl_cons]
    split
    · exact ih h
    · exact ih (filled_appendf _ h)

theorem filled_putConnection {sb : StringBuf} (req : HttpRequest) (up : Upstream)
    (h : Filled sb) : Filled (putConnection req up sb) := by
  unfold putConnection
  split
  · exact filled_append _ h
  split
  · exact filled_append _ h
  · exact filled_append _ h

theorem filled_putIdentity {sb : StringBuf} (req : HttpRequest) (cd : Client) (h : Filled sb) :
    Filled (putIdentity req cd sb) := by
  unfold putIdentity
  split
  · cases shget req.headers (ascii "x-forwarded-for") with
    | none => exact filled_appendf _ (filled_appendf _ h)
    | some value => exact filled_appendf _ (filled_appendf _ h)
  · exact h

theorem filled_putFraming {sb : StringBuf} (p : HttpParser) (h : Filled sb) :
    Filled (putFraming p sb) := by
  unfold putFraming
  split
  · split
    · exact filled_append _ h
    split
    · exact filled_appendf _ h
    · exact h
  split
  · exact filled_appendf _ h
  · exact h

theorem outboundRequest_ne_nil (p : HttpParser) (up : Upstream) (cd : Client) :
    (outboundRequest p up cd).data ≠ [] := by
  have hline := filled_putHeaders p.req.headers (filled_appendf
    (formatString p.req.method ++ ascii " " ++ formatString p.req.uri ++ ascii " HTTP/1.1\r\n")
    (Or.inr rfl))
  have hhost := filled_putIdentity p.req cd (filled_putConnection p.req up (filled_appendf
    (ascii "Host: " ++ up.host ++ ascii ":" ++ decimal up.port ++ ascii "\r\n") hline))
  have hfilled := filled_putFraming p (filled_appendf (ascii "X-Forwarded-Proto: " ++
    ascii (if cd.tls then "https" else "http") ++ ascii "\r\n") hhost)
  have hhead : (outboundHead p up cd).data ≠ [] := by
    rcases hfilled with hdata | hinit
    · exact append_ne_nil _ hdata
    · change (append (putFraming p _) _).data ≠ []
      rw [hinit]
      decide
  unfold outboundRequest
  dsimp only
  split
  · exact append_ne_nil _ hhead
  · exact hhead

section Steps

variable {request offered : Bytes} {x : Exchange}

theorem fifo_start (p : HttpParser) (route : Route) (cd : Client) (upstreamFd : Nat)
    (reusedConn : Bool) (now : Int) :
    Fifo (outboundRequest p route.upstream cd).data []
      (proxyStart p route cd upstreamFd reusedConn now) := by
  have hne := outboundRequest_ne_nil p route.upstream cd
  exact {
    live := rfl
    order := by simp [proxyStart, proxyState, ProxyState.unsent]
    pending := by simpa [proxyStart, proxyState, ProxyState.unsent] using hne
    start := fun h => by cases h
    connecting := fun _ => by simpa [proxyStart, proxyState, ProxyState.unsent] using hne }

theorem unsent_append {ps : ProxyState} (h : ps.unsent ≠ []) (data : Bytes) :
    (ps.pending.getD [] ++ data).drop ps.pendingSent = ps.unsent ++ data := by
  have hlt : ps.pendingSent < (ps.pending.getD []).length := by
    by_contra hge
    exact h (List.drop_eq_nil_of_le (by omega))
  rw [List.drop_append_of_le_length hlt.le]
  rfl

theorem Fifo.of_same {y : Exchange} (h : Fifo request offered x) (same : SameUpload x y)
    (live : y.ended = false) : Fifo request offered y := by
  have hunsent : y.ps.unsent = x.ps.unsent := by
    rw [ProxyState.unsent, same.pending, same.pendingSent]
    rfl
  exact {
    live := live
    order := by rw [same.toUpstream, hunsent, h.order]
    pending := by rw [same.pending, hunsent, h.pending]
    start := by rw [same.pending, same.pendingSent]; exact h.start
    connecting := by rw [same.connected, hunsent]; exact h.connecting }

theorem Fifo.drained (h : Fifo request offered x) : Fifo request offered (upstreamDrained x) :=
  h.of_same (upstreamDrained_upload x).1 ((upstreamDrained_upload x).2.trans h.live)

theorem fifo_upstreamWrite (h : Fifo request offered x) {soerr : Bool} {r : WriteResult}
    (calm : Calm x (.upstreamWritable soerr r)) :
    Fifo request offered (proxyOnUpstreamWrite soerr r x) := by
  obtain ⟨hconn, hwrite⟩ := calm
  unfold proxyOnUpstreamWrite
  rw [if_neg (by rcases hconn with hc | hc <;> simp [hc])]
  have hsame : ({ x.ps with connected := true } : ProxyState).unsent = x.ps.unsent := rfl
  have hconnected : Fifo request offered { x with ps := { x.ps with connected := true } } :=
    { live := h.live, order := h.order, pending := h.pending, start := h.start,
      connecting := fun hfalse => by cases hfalse }
  dsimp only
  rw [hsame]
  by_cases hnil : x.ps.unsent = []
  · rw [if_pos hnil]
    exact hconnected.drained
  rw [if_neg hnil]
  obtain ⟨n, hn⟩ := Option.ne_none_iff_exists'.mp (hwrite.resolve_left hnil)
  rw [hn]
  dsimp only
  by_cases hall : n = x.ps.unsent.length
  · -- the whole buffer went out and is freed
    rw [if_pos hall]
    refine Fifo.drained ?_
    exact {
      live := h.live
      order := by
        change (x.toUpstream ++ x.ps.unsent.take n) ++ [] = _
        rw [hall, List.take_length, List.append_nil, h.order]
      pending := by simp [ProxyState.unsent]
      start := fun _ => rfl
      connecting := fun hfalse => by cases hfalse }
  · rw [if_neg hall]
    have hlt : n < x.ps.unsent.length := by
      have := WriteResult.taken_le hn
      omega
    have hdrop : (x.ps.pending.getD []).drop (x.ps.pendingSent + n) = x.ps.unsent.drop n := by
      rw [ProxyState.unsent, List.drop_drop]
    have hrest : x.ps.unsent.drop n ≠ [] := by
      rw [Ne, List.drop_eq_nil_iff]
      omega
    exact {
      live := h.live
      order := by
        change (x.toUpstream ++ x.ps.unsent.take n) ++ List.drop _ _ = _
        rw [hdrop, List.append_assoc, List.take_append_drop, h.order]
      pending := by
        change x.ps.pending ≠ none ↔ List.drop _ _ ≠ []
        rw [hdrop, h.pending]
        exact ⟨fun _ => hrest, fun _ => hnil⟩
      start := fun hnone => absurd hnone (h.pending.mpr hnil)
      connecting := fun hfalse => by cases hfalse }

theorem countBody_queue (n : Nat) (ps : ProxyState) :
    (countBody n ps).pending = ps.pending ∧ (countBody n ps).pendingSent = ps.pendingSent ∧
      (countBody n ps).connected = ps.connected := by
  unfold countBody
  split
  · exact ⟨rfl, rfl, rfl⟩
  · exact ⟨rfl, rfl, rfl⟩

theorem fifo_bodyData (h : Fifo request offered x) {data : Bytes} {r : WriteResult}
    (calm : Calm x (.bodyData data r)) :
    Fifo request (offered ++ data) (proxyOnBodyData data r x) := by
  unfold proxyOnBodyData
  dsimp only
  by_cases hqueue : x.ps.connected = false ∨ x.ps.unsent ≠ []
  · -- behind what is pending already
    have hne : x.ps.unsent ≠ [] := hqueue.elim h.connecting id
    have hdrop := unsent_append hne data
    have hlong : x.ps.unsent ++ data ≠ [] := List.append_ne_nil_of_left_ne_nil hne _
    rw [if_pos (by simpa using hqueue)]
    exact {
      live := h.live
      order := by
        change x.toUpstream ++ List.drop _ (x.ps.pending.getD [] ++ data) = _
        rw [hdrop, ← List.append_assoc, h.order, List.append_assoc]
      pending := by
        change some _ ≠ none ↔ List.drop _ (x.ps.pending.getD [] ++ data) ≠ []
        rw [hdrop]
        exact ⟨fun _ => hlong, fun _ => by simp⟩
      start := fun hnone => by cases hnone
      connecting := fun _ => by
        change List.drop _ (x.ps.pending.getD [] ++ data) ≠ []
        rw [hdrop]
        exact hlong }
  · rw [not_or, not_not] at hqueue
    obtain ⟨hconn, hnil⟩ := hqueue
    have hwrite := (calm.resolve_left hconn).resolve_left (not_not.mpr hnil)
    obtain ⟨n, hn⟩ := Option.ne_none_iff_exists'.mp hwrite
    have hnone : x.ps.pending = none := not_not.mp (mt h.pending.mp (not_not.mpr hnil))
    obtain ⟨hpending, hsent, hconnected⟩ := countBody_queue n x.ps
    have hwritten : x.toUpstream = request ++ offered := by
      rw [← h.order, hnil, List.append_nil]
    rw [if_neg (by simpa [hnil] using hconn), hn]
    dsimp only
    by_cases hshort : n < data.length
    · -- the rest is buffered
      have hrest : data.drop n ≠ [] := by
        rw [Ne, List.drop_eq_nil_iff]
        omega
      rw [if_pos hshort]
      exact {
        live := h.live
        order := by
          change (x.toUpstream ++ data.take n) ++ data.drop n = _
          rw [List.append_assoc, List.take_append_drop, hwritten, List.append_assoc]
        pending := ⟨fun _ => hrest, fun _ => by simp⟩
        start := fun hnone => by cases hnone
        connecting := fun _ => hrest }
    · rw [if_neg hshort]
      have hempty : (countBody n x.ps).unsent = [] := by
        rw [ProxyState.unsent, hpending, hnone]
        exact List.drop_nil
      exact {
        live := h.live
        order := by
          change (x.toUpstream ++ data.take n) ++ (countBody n x.ps).unsent = _
          rw [hempty, List.append_nil, List.take_of_length_le (by omega), hwritten,
            List.append_assoc]
        pending := by
          change (countBody n x.ps).pending ≠ none ↔ (countBody n x.ps).unsent ≠ []
          rw [hpending, hnone, hempty]
          simp
        start := fun _ => by
          change (countBody n x.ps).pendingSent = 0
          rw [hsent, h.start hnone]
        connecting := fun hfalse => by
          change (countBody n x.ps).connected = false at hfalse
          rw [hconnected] at hfalse
          exact absurd hnil (h.connecting hfalse) }

/-- One event, of any kind, appends what it offers. -/
theorem fifo_step (h : Fifo request offered x) {e : Event} (calm : Calm x e) :
    Fifo request (offered ++ body e) (step x e) := by
  have hstep := step_live h.live e
  cases e with
  | upstreamWritable soerr r =>
    change Fifo request (offered ++ []) _
    rw [hstep, List.append_nil]
    exact fifo_upstreamWrite h calm
  | bodyData data r =>
    rw [hstep]
    exact fifo_bodyData h calm
  | upstreamReadable cs r w =>
    have hsame := upstreamRead_upload cs r w x
    change Fifo request (offered ++ []) _
    rw [List.append_nil]
    exact h.of_same (by rw [hstep]; exact hsame) calm
  | clientWritable w =>
    have hsame := clientWritable_upload w x
    change Fifo request (offered ++ []) _
    rw [List.append_nil]
    exact h.of_same (by rw [hstep]; exact hsame) calm

end Steps

theorem fifo_run {request offered : Bytes} {x : Exchange} (h : Fifo request offered x)
    {es : List Event} (calm : Guarded step Calm x es) :
    Fifo request (offered ++ es.flatMap body) (run step x es) := by
  induction es generalizing x offered with
  | nil => simpa [run] using h
  | cons e es ih =>
    rw [List.flatMap_cons, ← List.append_assoc]
    exact ih (fifo_step h calm.1) calm.2

/-- Client to upstream, a proxied connection is a lossless FIFO. -/
theorem upstream_fifo (p : HttpParser) (route : Route) (cd : Client) (upstreamFd : Nat)
    (reusedConn : Bool) (now : Int) (es : List Event)
    (calm : Guarded step Calm (proxyStart p route cd upstreamFd reusedConn now) es) :
    let x := run step (proxyStart p route cd upstreamFd reusedConn now) es
    x.toUpstream ++ x.ps.unsent =
        (outboundRequest p route.upstream cd).data ++ es.flatMap body ∧
      (x.ps.pending ≠ none ↔ x.ps.unsent ≠ []) ∧ x.ended = false := by
  have h := fifo_run (fifo_start p route cd upstreamFd reusedConn now) calm
  rw [List.nil_append] at h
  exact ⟨h.order, h.pending, h.live⟩

/-- Body data before the connection is up, a short write, data behind it, and a write
that the socket does not take yet. -/
def sampleEvents : List Event :=
  [.bodyData (ascii "ab") .again, .upstreamWritable false (.wrote 40),
    .bodyData (ascii "cd") .failed, .upstreamWritable false .again]

theorem upstream_fifo_sample :
    let x := run step (proxyStart (getParser 4) sampleRoute sampleClient 9 false 0) sampleEvents
    x.toUpstream ++ x.ps.unsent =
        (outboundRequest (getParser 4) sampleRoute.upstream sampleClient).data ++
          sampleEvents.flatMap body ∧
      (x.ps.pending ≠ none ↔ x.ps.unsent ≠ []) ∧ x.ended = false :=
  upstream_fifo (getParser 4) sampleRoute sampleClient 9 false 0 sampleEvents (by decide +kernel)

end UpstreamFifo
