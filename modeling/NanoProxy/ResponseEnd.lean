import NanoProxy.MessageLength
import NanoProxy.Lib.Runs

/-!
# The end of a response by counted bytes

Over the runs of an exchange on a keep-alive route, whatever its other events do, a read ends
the exchange when as many bytes follow the head as `resp_content_length` says.
-/

namespace ResponseEnd

open CLib HttpRequestParser OutboundRequest RequestDecoder ResponseHead ProxyExchange
  ExchangeFrames ResponseFraming MessageLength HeadFields Runs

variable {x y : Exchange} {cs : ClientSide} {buf block more method : Bytes} {w : WriteResult}

theorem strstr_found {needle s : Bytes} {n : Nat} (found : strstr needle s = some n) :
    needle <+: s.drop n := by
  induction s generalizing n with
  | nil => cases found
  | cons b s ih =>
    rw [strstr] at found
    split at found
    · rename_i here
      cases found
      exact here
    · obtain ⟨k, later, rfl⟩ := Option.map_eq_some_iff.mp found
      exact ih later

theorem strstr_none {needle s : Bytes} (nonempty : needle ≠ []) (missing : strstr needle s = none)
    (n : Nat) : ¬needle <+: s.drop n := by
  induction s generalizing n with
  | nil =>
    rw [List.drop_nil]
    exact fun here => nonempty (List.prefix_nil.mp here)
  | cons b s ih =>
    rw [strstr] at missing
    split at missing
    · cases missing
    · rename_i other
      cases n with
      | zero => exact other
      | succ n => exact ih (Option.map_eq_none_iff.mp missing) n

/-- A prefix that contains the head has it. -/
theorem headerBlockLen_take {n k : Nat} (head : headerBlockLen buf = some n) (inside : n ≤ k) :
    headerBlockLen (buf.take k) = some n := by
  have behind {m : Nat} (found : headerBlockLen (buf.take k) = some m) : m = n := by
    have whole := headerBlockLen_append found (buf.drop k)
    rw [List.take_append_drop, head] at whole
    exact (Option.some.inj whole).symm
  cases found : headerBlockLen (buf.take k) with
  | some m => rw [behind found]
  | none =>
    rw [headerBlockLen, Option.map_eq_some_iff] at head
    obtain ⟨i, here, rfl⟩ := head
    rw [headerBlockLen, Option.map_eq_none_iff, cstr, ← List.take_takeWhile, ← cstr] at found
    have cut : CRLF ++ CRLF <+: ((cstr buf).take k).drop i := by
      rw [List.drop_take, List.prefix_take_iff]
      exact ⟨strstr_found here, Nat.le_sub_of_add_le' inside⟩
    exact absurd cut (strstr_none (by decide) found i)

/-- What the proxy knows of the response. -/
inductive Stage (x : Exchange) : Prop where
  | waiting (undone : x.ps.respHeadersDone = false)
      (buffered : x.ps.respHeaderBuf.getD [] = x.fromUpstream)
      (head : headerBlockLen x.fromUpstream = none)
      (relayed : x.ps.respBodyRelayed = 0) (length : x.ps.respContentLength = -1)
  | framed (n : Nat) (done : x.ps.respHeadersDone = true)
      (head : headerBlockLen x.fromUpstream = some n)
      (length : x.ps.respContentLength = contentLength (x.fromUpstream.take n))
      (relayed : x.ps.respBodyRelayed = x.fromUpstream.length - n)
  | raw (k : Nat) (done : x.ps.respHeadersDone = true) (length : x.ps.respContentLength = -1)
      (long : 16384 < k) (inside : k ≤ x.fromUpstream.length)
      (head : headerBlockLen (x.fromUpstream.take k) = none)

/-- An exchange of a keep-alive route, as long as it goes on. -/
structure Staged (x : Exchange) : Prop where
  route : x.ps.keepaliveEnabled = true
  stage : Stage x

theorem Staged.undone (h : Staged x) (undone : x.ps.respHeadersDone = false) :
    x.ps.respHeaderBuf.getD [] = x.fromUpstream ∧ headerBlockLen x.fromUpstream = none ∧
      x.ps.respContentLength = -1 := by
  cases h.stage with
  | waiting _ buffered head _ length => exact ⟨buffered, head, length⟩
  | framed _ done => exact absurd (undone.symm.trans done) Bool.false_ne_true
  | raw _ done => exact absurd (undone.symm.trans done) Bool.false_ne_true

theorem Staged.of_same (h : Staged x) (same : SameFraming x y) : Staged y := by
  refine ⟨same.keepaliveEnabled.trans h.route, ?_⟩
  cases h.stage with
  | waiting undone buffered head relayed length =>
    exact .waiting (same.respHeadersDone.trans undone)
      (by rw [same.respHeaderBuf, same.fromUpstream, buffered]) (by rw [same.fromUpstream, head])
      (same.respBodyRelayed.trans relayed) (same.respContentLength.trans length)
  | framed n done head length relayed =>
    exact .framed n (same.respHeadersDone.trans done) (by rw [same.fromUpstream, head])
      (by rw [same.respContentLength, same.fromUpstream, length])
      (by rw [same.respBodyRelayed, same.fromUpstream, relayed])
  | raw k done length long inside head =>
    exact .raw k (same.respHeadersDone.trans done) (same.respContentLength.trans length) long
      (by rw [same.fromUpstream]; exact inside) (by rw [same.fromUpstream]; exact head)

theorem staged_start (p : HttpParser) (route : Route) (cd : Client) (upstreamFd : Nat)
    (reusedConn : Bool) (now : Int) (ka : route.upstream.keepaliveEnabled = true) :
    Staged (proxyStart p route cd upstreamFd reusedConn now) :=
  ⟨ka, .waiting rfl rfl rfl rfl rfl⟩

/-- The number of body bytes with which the exchange is at its end. -/
def Complete (x : Exchange) : Prop :=
  0 ≤ x.ps.respContentLength ∧ x.ps.respContentLength ≤ (x.ps.respBodyRelayed : Int)

/-- A write that the client takes. -/
theorem relay_ends {data : Bytes} (live : x.ended = false)
    (ok : socketWrite cs.known data.length w ≠ none) (n : Nat) :
    SameFraming (countRelayed n x) (relay cs data n w x) ∧
      ((relay cs data n w x).ended = true ↔ Complete (countRelayed n x)) := by
  obtain ⟨m, taken⟩ := Option.ne_none_iff_exists'.mp ok
  refine ⟨relay_framing live taken, ?_⟩
  have same := (deliver_framing data m x).1
  have still := (deliver_framing data m x).2
  rw [relay_some live taken, endWhenComplete, Complete]
  have length : (countRelayed n (deliver data m x)).ps.respContentLength =
      (countRelayed n x).ps.respContentLength := same.respContentLength
  have relayed : (countRelayed n (deliver data m x)).ps.respBodyRelayed =
      (countRelayed n x).ps.respBodyRelayed := congrArg (· + n) same.respBodyRelayed
  rw [length, relayed]
  split
  · rename_i complete
    exact ⟨fun _ => complete, fun _ => rfl⟩
  · rename_i incomplete
    change (deliver data m x).ended = true ↔ _
    rw [still, live]
    exact ⟨fun h => (Bool.false_ne_true h).elim, fun h => absurd h incomplete⟩

/-- What a read of `buf` leaves of the response, and whether it is the last. -/
theorem staged_read (h : Staged x) (live : x.ended = false)
    (ok : socketWrite cs.known (chunk cs x buf).length w ≠ none) :
    let y := proxyOnUpstreamRead cs (.data buf) w x
    Staged y ∧ y.fromUpstream = x.fromUpstream ++ buf ∧ (y.ended = true ↔ Complete y) := by
  dsimp only
  cases h.stage with
  | waiting undone buffered _ relayed length =>
    have all : grown x buf = x.fromUpstream ++ buf := by rw [grown, buffered]
    cases head : headerBlockLen (grown x buf) with
    | none =>
      rw [read_unfinished h.route undone head]
      split
      · rename_i long
        rw [all] at long head
        refine ⟨⟨h.route, .raw _ rfl length long (Nat.le_refl _) ?_⟩, rfl, ?_⟩
        · change headerBlockLen ((x.fromUpstream ++ buf).take _) = none
          rw [List.take_length, head]
        · rw [Complete]
          change x.ended = true ↔ 0 ≤ x.ps.respContentLength ∧ _
          rw [live, length]
          exact ⟨fun h => (Bool.false_ne_true h).elim, fun h => absurd h.1 (by decide)⟩
      · refine ⟨⟨h.route, .waiting undone all (by rw [← head, all]; rfl) relayed length⟩, rfl, ?_⟩
        rw [Complete]
        change x.ended = true ↔ 0 ≤ x.ps.respContentLength ∧ _
        rw [live, length]
        exact ⟨fun h => (Bool.false_ne_true h).elim, fun h => absurd h.1 (by decide)⟩
    | some n =>
      rw [read_head h.route undone head]
      have inner : (frameResponse ((grown x buf).take n) (receive buf x)).ended = false := live
      obtain ⟨same, ends⟩ := relay_ends inner ok ((grown x buf).drop n).length
      refine ⟨Staged.of_same ?_ same, same.fromUpstream, ?_⟩
      · refine ⟨h.route, .framed n rfl ?_ ?_ ?_⟩
        · change headerBlockLen (x.fromUpstream ++ buf) = some n
          rw [← all, head]
        · change contentLength _ = contentLength ((x.fromUpstream ++ buf).take n)
          rw [all]
        · change x.ps.respBodyRelayed + _ = (x.fromUpstream ++ buf).length - n
          rw [relayed, all, List.length_drop, Nat.zero_add]
      · rw [ends, Complete, Complete, same.respContentLength, same.respBodyRelayed]
  | framed n done head length relayed =>
    have le := headerBlockLen_le head
    rw [read_done h.route done]
    rw [chunk, if_pos done] at ok
    have inner : (receive buf x).ended = false := live
    obtain ⟨same, ends⟩ := relay_ends inner ok buf.length
    refine ⟨Staged.of_same ?_ same, same.fromUpstream, ?_⟩
    · refine ⟨h.route, .framed n done (headerBlockLen_append head buf) ?_ ?_⟩
      · change x.ps.respContentLength = contentLength ((x.fromUpstream ++ buf).take n)
        rw [List.take_append_of_le_length le, length]
      · change x.ps.respBodyRelayed + buf.length = (x.fromUpstream ++ buf).length - n
        rw [relayed, List.length_append]
        omega
    · rw [ends, Complete, Complete, same.respContentLength, same.respBodyRelayed]
  | raw k done length long inside head =>
    rw [read_done h.route done]
    rw [chunk, if_pos done] at ok
    have inner : (receive buf x).ended = false := live
    obtain ⟨same, ends⟩ := relay_ends inner ok buf.length
    refine ⟨Staged.of_same ?_ same, same.fromUpstream, ?_⟩
    · refine ⟨h.route, .raw k done length long ?_ ?_⟩
      · change k ≤ (x.fromUpstream ++ buf).length
        rw [List.length_append]
        omega
      · change headerBlockLen ((x.fromUpstream ++ buf).take k) = none
        rw [List.take_append_of_le_length inside, head]
    · rw [ends, Complete, Complete, same.respContentLength, same.respBodyRelayed]

theorem read_refused (h : Staged x)
    (refused : socketWrite cs.known (chunk cs x buf).length w = none) :
    (proxyOnUpstreamRead cs (.data buf) w x).ended = true := by
  cases done : x.ps.respHeadersDone with
  | true =>
    rw [chunk, if_pos done] at refused
    rw [read_done h.route done, relay_none refused]
    rfl
  | false =>
    cases head : headerBlockLen (grown x buf) with
    | none =>
      have empty : chunk cs x buf = [] := by
        rw [chunk, if_neg (by rw [done]; exact Bool.false_ne_true), head]
      exact absurd (congrArg List.length empty) (socketWrite_none refused)
    | some n =>
      rw [read_head h.route done head, relay_none refused]
      rfl

theorem staged_step (h : Staged x) (live : x.ended = false) (e : Event)
    (goes : (step x e).ended = false) : Staged (step x e) := by
  rw [step_live live] at goes ⊢
  cases e with
  | upstreamWritable soerr r => exact h.of_same (upstreamWrite_download soerr r x).toSameFraming
  | bodyData data r => exact h.of_same (bodyData_download data r x).toSameFraming
  | clientWritable w => exact h.of_same (clientWritable_framing w x)
  | upstreamReadable cs r w =>
    cases r with
    | data buf =>
      have taken : socketWrite cs.known (chunk cs x buf).length w ≠ none := by
        intro refused
        have ended := read_refused h refused
        change (proxyOnUpstreamRead cs (.data buf) w x).ended = false at goes
        rw [ended] at goes
        cases goes
      exact (staged_read h live taken).1
    | again => exact h
    | eof => cases goes
    | failed => cases goes

theorem staged_run (es : List Event) (h : x.ended = false → Staged x) :
    (run step x es).ended = false → Staged (run step x es) := by
  have free : Guarded step (fun _ _ => True) x es := guarded_of_forall fun _ _ => trivial
  refine run_live ?_ h free
  intro x e staged live _ goes
  exact staged_step staged live e goes

/-- A framed response is complete when the counted bytes are there. -/
theorem complete_framed (length : x.ps.respContentLength = contentLength block)
    (relayed : x.ps.respBodyRelayed = more.length) :
    Complete x ↔ ∃ n, counted block = some n ∧ n ≤ more.length := by
  rw [Complete, length, relayed, counted]
  split
  · rename_i positive
    constructor
    · rintro ⟨_, enough⟩
      exact ⟨_, rfl, by omega⟩
    · rintro ⟨n, same, enough⟩
      cases same
      exact ⟨positive, by omega⟩
  · rename_i negative
    constructor
    · exact fun complete => absurd complete.1 negative
    · rintro ⟨n, same, _⟩
      cases same

theorem complete_iff (h : Staged x) (head : headerBlockLen block = some block.length)
    (all : x.fromUpstream = block ++ more) (size : counted block ≠ none → block.length ≤ 16385) :
    Complete x ↔ ∃ n, counted block = some n ∧ n ≤ more.length := by
  have found : headerBlockLen x.fromUpstream = some block.length := by
    rw [all, headerBlockLen_append head]
  cases h.stage with
  | waiting _ _ missing => exact (Option.some_ne_none _ (found.symm.trans missing)).elim
  | framed n _ found' length relayed =>
    rw [found] at found'
    cases found'
    rw [all, List.take_left] at length
    rw [all, List.length_append, Nat.add_sub_cancel_left] at relayed
    exact complete_framed length relayed
  | raw k _ length long inside missing =>
    -- the head that was given up is longer than the limit
    have longer : k < block.length := by
      by_contra short
      have whole := headerBlockLen_take found (Nat.le_of_not_lt short)
      rw [missing] at whole
      cases whole
    rw [Complete, length]
    constructor
    · exact fun complete => absurd complete.1 (by decide)
    · rintro ⟨n, same, _⟩
      have few := size (by rw [same]; exact Option.some_ne_none n)
      omega

/-- Whatever happens to an exchange with this method and this response head: a read that the
client takes ends it if and only if the bytes of the message are there. -/
def EndsExactly (method block : Bytes) : Prop :=
  ∀ (p : HttpParser) (route : Route) (cd : Client) (upstreamFd : Nat) (reusedConn : Bool)
    (now : Int) (es : List Event) (x : Exchange) (cs : ClientSide) (buf more : Bytes)
    (w : WriteResult),
    p.req.method = some method → route.upstream.keepaliveEnabled = true →
    run step (proxyStart p route cd upstreamFd reusedConn now) es = x → x.ended = false →
    x.fromUpstream ++ buf = block ++ more → socketWrite cs.known (chunk cs x buf).length w ≠ none →
      ((step x (.upstreamReadable cs (.data buf) w)).ended = true ↔
        ∃ n, messageLength method block = some n ∧ n ≤ more.length)

def clientOf : ClientSide := ⟨true, false⟩

/-- A new exchange with a request of this method. -/
def freshExchange (method : Bytes) : Exchange :=
  proxyStart { getParser 4 with req := { (getParser 4).req with method := some method } }
    sampleRoute sampleClient 9 false 0

theorem some_taken (data : Bytes) : socketWrite clientOf.known data.length (.wrote 0) ≠ none := by
  unfold socketWrite
  split
  · exact Option.some_ne_none _
  · exact Option.some_ne_none _

theorem EndsExactly.fresh (h : EndsExactly method block) (es : List Event) (x : Exchange)
    (buf more : Bytes) (reached : run step (freshExchange method) es = x)
    (live : x.ended = false) (all : x.fromUpstream ++ buf = block ++ more) :
    (step x (.upstreamReadable clientOf (.data buf) (.wrote 0))).ended = true ↔
      ∃ n, messageLength method block = some n ∧ n ≤ more.length :=
  h _ sampleRoute sampleClient 9 false 0 es x clientOf buf more (.wrote 0) rfl rfl reached live all
    (some_taken _)

/-- A response that comes with one read. -/
theorem ends_at_once (head : headerBlockLen block = some block.length) (method more : Bytes)
    (ok : socketWrite clientOf.known
      (chunk clientOf (freshExchange method) (block ++ more)).length w ≠ none) :
    (step (freshExchange method) (.upstreamReadable clientOf (.data (block ++ more)) w)).ended =
      true ↔ ∃ n, counted block = some n ∧ n ≤ more.length := by
  have found : headerBlockLen (grown (freshExchange method) (block ++ more)) = some block.length :=
    headerBlockLen_append head more
  change (proxyOnUpstreamRead clientOf (.data (block ++ more)) w
    (freshExchange method)).ended = true ↔ _
  rw [read_head (by rfl) (by rfl) found]
  have live : (frameResponse ((grown (freshExchange method) (block ++ more)).take block.length)
      (receive (block ++ more) (freshExchange method))).ended = false := rfl
  rw [(relay_ends live ok _).2]
  apply complete_framed
  · change contentLength ((block ++ more).take block.length) = _
    rw [List.take_left]
  · change 0 + ((block ++ more).drop block.length).length = _
    rw [List.drop_left, Nat.zero_add]

/-- A head that is given up before its end. -/
theorem given_up (head : headerBlockLen block = some block.length) (long : 16385 < block.length)
    (method : Bytes) :
    let x := step (freshExchange method)
      (.upstreamReadable clientOf (.data (block.take 16385)) (.wrote 0))
    x.ended = false ∧ x.fromUpstream = block.take 16385 ∧ ∀ buf,
      (step x (.upstreamReadable clientOf (.data buf) (.wrote 0))).ended = false := by
  have missing : headerBlockLen (grown (freshExchange method) (block.take 16385)) = none := by
    change headerBlockLen (block.take 16385) = none
    cases found : headerBlockLen (block.take 16385) with
    | none => rfl
    | some m =>
      have le := headerBlockLen_le found
      have whole := headerBlockLen_append found (block.drop 16385)
      rw [List.take_append_drop, head, Option.some.injEq] at whole
      rw [List.length_take] at le
      omega
  have size : 16384 < (grown (freshExchange method) (block.take 16385)).length := by
    change 16384 < (block.take 16385).length
    rw [List.length_take]
    omega
  have read : step (freshExchange method)
      (.upstreamReadable clientOf (.data (block.take 16385)) (.wrote 0)) =
        giveUpFraming clientOf (grown (freshExchange method) (block.take 16385)) (.wrote 0)
          (receive (block.take 16385) (freshExchange method)) := by
    change proxyOnUpstreamRead clientOf (.data (block.take 16385)) (.wrote 0)
      (freshExchange method) = _
    rw [read_unfinished (by rfl) (by rfl) missing, if_pos size]
  dsimp only
  rw [read]
  refine ⟨rfl, rfl, fun buf => ?_⟩
  generalize raw : giveUpFraming clientOf (grown (freshExchange method) (block.take 16385))
    (.wrote 0) (receive (block.take 16385) (freshExchange method)) = x
  have live : x.ended = false := by rw [← raw]; rfl
  have route : x.ps.keepaliveEnabled = true := by rw [← raw]; rfl
  have done : x.ps.respHeadersDone = true := by rw [← raw]; rfl
  have length : x.ps.respContentLength = -1 := by rw [← raw]; rfl
  have ends := (relay_ends (show (receive buf x).ended = false from live) (some_taken buf)
    buf.length).2
  rw [step_live live]
  change (proxyOnUpstreamRead clientOf (.data buf) (.wrote 0) x).ended = false
  rw [read_done route done, ← Bool.not_eq_true, ends, Complete]
  change ¬(0 ≤ x.ps.respContentLength ∧ _)
  rw [length]
  exact fun complete => absurd complete.1 (by decide)

/-- The exchange ends exactly with the message if and only if the proxy can read its length. -/
theorem endsExactly_iff (method block : Bytes) (head : headerBlockLen block = some block.length) :
    EndsExactly method block ↔ LengthReadable method block := by
  rw [lengthReadable_iff]
  constructor
  · intro exact_end
    constructor
    · have same (k : Nat) : (∃ n, counted block = some n ∧ n ≤ k) ↔
          ∃ n, messageLength method block = some n ∧ n ≤ k := by
        have once := exact_end.fresh [] (freshExchange method) (block ++ List.replicate k 0)
          (List.replicate k 0) rfl rfl rfl
        rw [ends_at_once head _ _ (some_taken _), List.length_replicate] at once
        exact once
      apply Option.ext
      intro n
      constructor
      · intro here
        obtain ⟨m, there, le⟩ := (same n).mp ⟨n, here, Nat.le_refl n⟩
        obtain ⟨n', again, le'⟩ := (same m).mpr ⟨m, there, Nat.le_refl m⟩
        rw [here] at again
        cases again
        rw [there, Nat.le_antisymm le le']
      · intro there
        obtain ⟨m, here, le⟩ := (same n).mpr ⟨n, there, Nat.le_refl n⟩
        obtain ⟨n', again, le'⟩ := (same m).mp ⟨m, here, Nat.le_refl m⟩
        rw [there] at again
        cases again
        rw [here, Nat.le_antisymm le le']
    · intro has_length
      obtain ⟨n, length⟩ := Option.ne_none_iff_exists'.mp has_length
      by_contra long
      obtain ⟨live, read, never⟩ := given_up head (Nat.lt_of_not_le long) method
      have all : block.take 16385 ++ (block.drop 16385 ++ List.replicate n 0) =
          block ++ List.replicate n 0 := by
        rw [← List.append_assoc, List.take_append_drop]
      have last := exact_end.fresh [.upstreamReadable clientOf (.data (block.take 16385)) (.wrote 0)]
        _ (block.drop 16385 ++ List.replicate n 0) (List.replicate n 0) rfl live
        ((congrArg (· ++ _) read).trans all)
      have ended := last.mpr ⟨n, length, by rw [List.length_replicate]⟩
      exact Bool.false_ne_true ((never _).symm.trans ended)
  · rintro ⟨same, size⟩ p route cd upstreamFd reusedConn now es x cs buf more w _ ka rfl live all taken
    have staged := staged_run es (fun _ => staged_start p route cd upstreamFd reusedConn now ka) live
    obtain ⟨after, read, ends⟩ := staged_read staged live taken
    rw [all] at read
    rw [step_live live, ← same]
    change (proxyOnUpstreamRead cs (.data buf) w _).ended = true ↔ _
    rw [ends]
    exact complete_iff after head read (by rw [same]; exact size)

/-- `HTTP/1.1 200 OK` with a Content-Length -/
def okHead (length : Bytes) : Bytes :=
  ascii "HTTP/1.1 200 OK\r\nContent-Length: " ++ length ++ ascii "\r\n\r\n"

theorem endsExactly_sample : EndsExactly (ascii "GET") (okHead [53]) := by
  apply (endsExactly_iff (ascii "GET") (okHead [53]) (by decide)).mpr
  have length : (rawValues (ascii "Content-Length") (okHead [53])).head? = some [32, 53, 13] := by
    decide
  unfold LengthReadable
  rw [length]
  refine Or.inr ⟨by decide, ?_⟩
  rw [if_neg (by decide)]
  exact ⟨by decide, by decide, by decide, Or.inr ⟨by decide, by decide⟩⟩

/-- The answer to a HEAD request has no body, but the proxy waits for it. -/
theorem not_endsExactly : ¬∀ method block, headerBlockLen block = some block.length →
    EndsExactly method block := by
  intro always
  have head : headerBlockLen (okHead [53]) = some (okHead [53]).length := by decide
  have at_once := (always (ascii "HEAD") (okHead [53]) head).fresh [] _ (okHead [53] ++ []) []
    rfl rfl rfl
  have ended := at_once.mpr ⟨0, by decide, Nat.le_refl 0⟩
  have waits : ¬∃ n, counted (okHead [53]) = some n ∧ n ≤ ([] : Bytes).length := by
    rintro ⟨n, length, le⟩
    have five : counted (okHead [53]) = some 5 := by decide
    rw [five] at length
    cases length
    cases le
  exact waits ((ends_at_once head (ascii "HEAD") [] (some_taken _)).mp ended)

end ResponseEnd
