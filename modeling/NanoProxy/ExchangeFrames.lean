import NanoProxy.ProxyExchange

/-!
# What the handlers of an exchange leave alone

A handler serves one way of the exchange; the other way, and what `proxy_handler` has fixed,
stay as they are.
-/

namespace ExchangeFrames

open CLib ResponseHead ProxyExchange

variable {x y : Exchange}

/-- What `proxy_handler` fixes for good. -/
structure SameRoute (x y : Exchange) : Prop where
  upstreamFd : y.ps.upstreamFd = x.ps.upstreamFd
  isWebsocket : y.ps.isWebsocket = x.ps.isWebsocket

theorem SameRoute.trans {z : Exchange} (h : SameRoute x y) (h' : SameRoute y z) :
    SameRoute x z :=
  ⟨h'.upstreamFd.trans h.upstreamFd, h'.isWebsocket.trans h.isWebsocket⟩

/-- The whole way to the upstream. -/
structure SameUpload (x y : Exchange) : Prop extends SameRoute x y where
  toUpstream : y.toUpstream = x.toUpstream
  pending : y.ps.pending = x.ps.pending
  pendingSent : y.ps.pendingSent = x.ps.pendingSent
  connected : y.ps.connected = x.ps.connected

theorem SameUpload.trans {z : Exchange} (h : SameUpload x y) (h' : SameUpload y z) :
    SameUpload x z where
  toSameRoute := h.toSameRoute.trans h'.toSameRoute
  toUpstream := h'.toUpstream.trans h.toUpstream
  pending := h'.pending.trans h.pending
  pendingSent := h'.pendingSent.trans h.pendingSent
  connected := h'.connected.trans h.connected

/-- What was read from the upstream, and what the proxy knows of the response. -/
structure SameFraming (x y : Exchange) : Prop where
  fromUpstream : y.fromUpstream = x.fromUpstream
  keepaliveEnabled : y.ps.keepaliveEnabled = x.ps.keepaliveEnabled
  respHeadersDone : y.ps.respHeadersDone = x.ps.respHeadersDone
  respHeaderBuf : y.ps.respHeaderBuf = x.ps.respHeaderBuf
  respContentLength : y.ps.respContentLength = x.ps.respContentLength
  respBodyRelayed : y.ps.respBodyRelayed = x.ps.respBodyRelayed
  respPoolable : y.ps.respPoolable = x.ps.respPoolable

theorem SameFraming.refl (x : Exchange) : SameFraming x x := ⟨rfl, rfl, rfl, rfl, rfl, rfl, rfl⟩

theorem SameFraming.trans {z : Exchange} (h : SameFraming x y) (h' : SameFraming y z) :
    SameFraming x z where
  fromUpstream := h'.fromUpstream.trans h.fromUpstream
  keepaliveEnabled := h'.keepaliveEnabled.trans h.keepaliveEnabled
  respHeadersDone := h'.respHeadersDone.trans h.respHeadersDone
  respHeaderBuf := h'.respHeaderBuf.trans h.respHeaderBuf
  respContentLength := h'.respContentLength.trans h.respContentLength
  respBodyRelayed := h'.respBodyRelayed.trans h.respBodyRelayed
  respPoolable := h'.respPoolable.trans h.respPoolable

/-- The whole way to the client. -/
structure SameDownload (x y : Exchange) : Prop extends SameFraming x y, SameRoute x y where
  toClient : y.toClient = x.toClient
  downstreamBuf : y.ps.downstreamBuf = x.ps.downstreamBuf
  downstreamSent : y.ps.downstreamSent = x.ps.downstreamSent

theorem SameDownload.refl (x : Exchange) : SameDownload x x :=
  ⟨.refl x, ⟨rfl, rfl⟩, rfl, rfl, rfl⟩

theorem SameDownload.trans {z : Exchange} (h : SameDownload x y) (h' : SameDownload y z) :
    SameDownload x z where
  toSameFraming := h.toSameFraming.trans h'.toSameFraming
  toSameRoute := h.toSameRoute.trans h'.toSameRoute
  toClient := h'.toClient.trans h.toClient
  downstreamBuf := h'.downstreamBuf.trans h.downstreamBuf
  downstreamSent := h'.downstreamSent.trans h.downstreamSent

theorem cleanup_download (x : Exchange) : SameDownload x (cleanup x) :=
  ⟨⟨rfl, rfl, rfl, rfl, rfl, rfl, rfl⟩, ⟨rfl, rfl⟩, rfl, rfl, rfl⟩

theorem upstreamDrained_download (x : Exchange) : SameDownload x (upstreamDrained x) := by
  unfold upstreamDrained
  dsimp only
  split
  · exact ⟨⟨rfl, rfl, rfl, rfl, rfl, rfl, rfl⟩, ⟨rfl, rfl⟩, rfl, rfl, rfl⟩
  · exact ⟨⟨rfl, rfl, rfl, rfl, rfl, rfl, rfl⟩, ⟨rfl, rfl⟩, rfl, rfl, rfl⟩

theorem upstreamWrite_download (soerr : Bool) (r : WriteResult) (x : Exchange) :
    SameDownload x (proxyOnUpstreamWrite soerr r x) := by
  unfold proxyOnUpstreamWrite
  split
  · exact ⟨⟨rfl, rfl, rfl, rfl, rfl, rfl, rfl⟩, ⟨rfl, rfl⟩, rfl, rfl, rfl⟩
  dsimp only
  split
  · have h : SameDownload x { x with ps := { x.ps with connected := true } } :=
      ⟨⟨rfl, rfl, rfl, rfl, rfl, rfl, rfl⟩, ⟨rfl, rfl⟩, rfl, rfl, rfl⟩
    exact h.trans (upstreamDrained_download _)
  split
  · exact ⟨⟨rfl, rfl, rfl, rfl, rfl, rfl, rfl⟩, ⟨rfl, rfl⟩, rfl, rfl, rfl⟩
  split
  · refine SameDownload.trans ?_ (upstreamDrained_download _)
    exact ⟨⟨rfl, rfl, rfl, rfl, rfl, rfl, rfl⟩, ⟨rfl, rfl⟩, rfl, rfl, rfl⟩
  · exact ⟨⟨rfl, rfl, rfl, rfl, rfl, rfl, rfl⟩, ⟨rfl, rfl⟩, rfl, rfl, rfl⟩

/-- The countdown of the request body touches nothing else. -/
theorem countBody_download (n : Nat) (ps : ProxyState) :
    (countBody n ps).keepaliveEnabled = ps.keepaliveEnabled ∧
      (countBody n ps).respHeadersDone = ps.respHeadersDone ∧
      (countBody n ps).respHeaderBuf = ps.respHeaderBuf ∧
      (countBody n ps).respContentLength = ps.respContentLength ∧
      (countBody n ps).respBodyRelayed = ps.respBodyRelayed ∧
      (countBody n ps).respPoolable = ps.respPoolable ∧
      (countBody n ps).downstreamBuf = ps.downstreamBuf ∧
      (countBody n ps).downstreamSent = ps.downstreamSent ∧
      (countBody n ps).upstreamFd = ps.upstreamFd ∧
      (countBody n ps).isWebsocket = ps.isWebsocket := by
  unfold countBody
  split
  · exact ⟨rfl, rfl, rfl, rfl, rfl, rfl, rfl, rfl, rfl, rfl⟩
  · exact ⟨rfl, rfl, rfl, rfl, rfl, rfl, rfl, rfl, rfl, rfl⟩

theorem bodyData_download (data : Bytes) (r : WriteResult) (x : Exchange) :
    SameDownload x (proxyOnBodyData data r x) := by
  unfold proxyOnBodyData
  split
  · exact ⟨⟨rfl, rfl, rfl, rfl, rfl, rfl, rfl⟩, ⟨rfl, rfl⟩, rfl, rfl, rfl⟩
  split
  · exact ⟨⟨rfl, rfl, rfl, rfl, rfl, rfl, rfl⟩, ⟨rfl, rfl⟩, rfl, rfl, rfl⟩
  · rename_i n _
    obtain ⟨hka, hdone, hbuf, hlength, hrelayed, hpool, hdown, hsent, hfd, hws⟩ :=
      countBody_download n x.ps
    dsimp only
    split
    · exact ⟨⟨rfl, hka, hdone, hbuf, hlength, hrelayed, hpool⟩, ⟨hfd, hws⟩, rfl, hdown, hsent⟩
    · exact ⟨⟨rfl, hka, hdone, hbuf, hlength, hrelayed, hpool⟩, ⟨hfd, hws⟩, rfl, hdown, hsent⟩

theorem upstreamDrained_upload (x : Exchange) :
    SameUpload x (upstreamDrained x) ∧ (upstreamDrained x).ended = x.ended := by
  unfold upstreamDrained
  dsimp only
  split
  · exact ⟨⟨⟨rfl, rfl⟩, rfl, rfl, rfl, rfl⟩, rfl⟩
  · exact ⟨⟨⟨rfl, rfl⟩, rfl, rfl, rfl, rfl⟩, rfl⟩

theorem clientWritable_framing (w : WriteResult) (x : Exchange) :
    SameFraming x (proxyOnClientWritable w x) := by
  unfold proxyOnClientWritable
  dsimp only
  split
  · exact ⟨rfl, rfl, rfl, rfl, rfl, rfl, rfl⟩
  split
  · exact ⟨rfl, rfl, rfl, rfl, rfl, rfl, rfl⟩
  split
  · split
    · exact ⟨rfl, rfl, rfl, rfl, rfl, rfl, rfl⟩
    · exact ⟨rfl, rfl, rfl, rfl, rfl, rfl, rfl⟩
  · exact ⟨rfl, rfl, rfl, rfl, rfl, rfl, rfl⟩

theorem writeOrBuffer_upload (cs : ClientSide) (data : Bytes) (w : WriteResult) (x : Exchange) :
    SameUpload x (writeOrBuffer cs data w x) := by
  unfold writeOrBuffer deliver
  cases socketWrite cs.known data.length w with
  | none => exact ⟨⟨rfl, rfl⟩, rfl, rfl, rfl, rfl⟩
  | some n =>
    dsimp only
    split
    · exact ⟨⟨rfl, rfl⟩, rfl, rfl, rfl, rfl⟩
    · exact ⟨⟨rfl, rfl⟩, rfl, rfl, rfl, rfl⟩

theorem endWhenComplete_upload (x : Exchange) : SameUpload x (endWhenComplete x) := by
  unfold endWhenComplete
  split
  · exact ⟨⟨rfl, rfl⟩, rfl, rfl, rfl, rfl⟩
  · exact ⟨⟨rfl, rfl⟩, rfl, rfl, rfl, rfl⟩

theorem relay_upload (cs : ClientSide) (data : Bytes) (n : Nat) (w : WriteResult) (x : Exchange) :
    SameUpload x (relay cs data n w x) := by
  have hwrite := writeOrBuffer_upload cs data w x
  unfold relay
  dsimp only
  split
  · exact hwrite
  · have hcount : SameUpload (writeOrBuffer cs data w x)
        (countRelayed n (writeOrBuffer cs data w x)) := ⟨⟨rfl, rfl⟩, rfl, rfl, rfl, rfl⟩
    exact (hwrite.trans hcount).trans (endWhenComplete_upload _)

theorem relayKeepalive_upload (cs : ClientSide) (buf : Bytes) (w : WriteResult) (x : Exchange) :
    SameUpload x (proxyRelayUpstreamKeepalive cs buf w x) := by
  unfold proxyRelayUpstreamKeepalive
  dsimp only
  split
  · exact relay_upload _ _ _ _ _
  split
  · rename_i n _
    have hframe : SameUpload x
        (frameResponse ((x.ps.respHeaderBuf.getD [] ++ buf).take n) x) :=
      ⟨⟨rfl, rfl⟩, rfl, rfl, rfl, rfl⟩
    exact hframe.trans (relay_upload _ _ _ _ _)
  split
  · exact ⟨⟨rfl, rfl⟩, rfl, rfl, rfl, rfl⟩
  · exact ⟨⟨rfl, rfl⟩, rfl, rfl, rfl, rfl⟩

theorem upstreamRead_upload (cs : ClientSide) (r : ReadResult) (w : WriteResult) (x : Exchange) :
    SameUpload x (proxyOnUpstreamRead cs r w x) := by
  cases r with
  | again => exact ⟨⟨rfl, rfl⟩, rfl, rfl, rfl, rfl⟩
  | eof => exact ⟨⟨rfl, rfl⟩, rfl, rfl, rfl, rfl⟩
  | failed => exact ⟨⟨rfl, rfl⟩, rfl, rfl, rfl, rfl⟩
  | data buf =>
    have hreceive : SameUpload x (receive buf x) := ⟨⟨rfl, rfl⟩, rfl, rfl, rfl, rfl⟩
    unfold proxyOnUpstreamRead
    dsimp only
    split
    · exact hreceive.trans (relayKeepalive_upload _ _ _ _)
    · exact hreceive.trans (writeOrBuffer_upload _ _ _ _)

theorem clientWritable_upload (w : WriteResult) (x : Exchange) :
    SameUpload x (proxyOnClientWritable w x) := by
  unfold proxyOnClientWritable
  dsimp only
  split
  · exact ⟨⟨rfl, rfl⟩, rfl, rfl, rfl, rfl⟩
  cases socketWrite true x.ps.undelivered.length w with
  | none => exact ⟨⟨rfl, rfl⟩, rfl, rfl, rfl, rfl⟩
  | some n =>
    dsimp only
    split
    · split
      · exact ⟨⟨rfl, rfl⟩, rfl, rfl, rfl, rfl⟩
      · exact ⟨⟨rfl, rfl⟩, rfl, rfl, rfl, rfl⟩
    · exact ⟨⟨rfl, rfl⟩, rfl, rfl, rfl, rfl⟩

/-- An exchange keeps its upstream connection and its kind. -/
theorem handle_route (x : Exchange) (e : Event) : SameRoute x (handle x e) := by
  cases e with
  | upstreamWritable soerr r => exact (upstreamWrite_download soerr r x).toSameRoute
  | bodyData data r => exact (bodyData_download data r x).toSameRoute
  | upstreamReadable cs r w => exact (upstreamRead_upload cs r w x).toSameRoute
  | clientWritable w => exact (clientWritable_upload w x).toSameRoute

end ExchangeFrames
