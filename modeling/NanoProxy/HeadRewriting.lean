import NanoProxy.ResponseEnd
import NanoProxy.KeepaliveRelay
import Mathlib.Data.List.Flatten

/-!
# The rewritten head of a response

The client of a keep-alive route gets the head of the upstream line by line, but for the
Connection lines, and the bytes of the body behind it.
-/

namespace HeadRewriting

open CLib StringBuffer OutboundRequest RequestDecoder ResponseHead ProxyExchange ResponseFraming
  MessageLength HeadFields ResponseEnd Runs

variable {line status t body : Bytes} {headers : List Bytes} {finalKa : Bool}

def NoCrlf (line : Bytes) : Prop := ¬CRLF <:+: line

instance : DecidablePred NoCrlf := fun line => inferInstanceAs (Decidable (¬CRLF <:+: line))

def linesText (lines : List Bytes) : Bytes := lines.flatMap (· ++ CRLF)

/-- A status line and header lines, with the blank line. -/
def headText (status : Bytes) (headers : List Bytes) : Bytes :=
  linesText (status :: headers) ++ CRLF

structure WellFormed (status : Bytes) (headers : List Bytes) : Prop where
  first : NoCrlf status
  lines : ∀ line ∈ headers, line ≠ [] ∧ NoCrlf line
  no_nul : 0 ∉ headText status headers

def isConnection (line : Bytes) : Bool := lower (line.take 11) == ascii "connection:"

def connectionLine (finalKa : Bool) : Bytes :=
  ascii "Connection: " ++ ascii (if finalKa then "keep-alive" else "close")

/-- The head with the Connection line of the proxy at its end. -/
def rewritten (status : Bytes) (headers : List Bytes) (finalKa : Bool) : Bytes :=
  headText status (headers.filter (!isConnection ·) ++ [connectionLine finalKa])

/-- A line break begins behind the line and not in it. -/
theorem crlf_behind {b : UInt8} (plain : NoCrlf (b :: line)) (t : Bytes) :
    ¬CRLF <+: b :: (line ++ (CRLF ++ t)) := by
  rintro ⟨u, same⟩
  obtain ⟨rfl, behind⟩ := List.cons.inj same
  cases line with
  | nil => exact absurd (List.cons.inj behind).1 (by decide)
  | cons c line =>
    obtain ⟨rfl, _⟩ := List.cons.inj behind
    exact plain (List.prefix_append [CR, LF] line).isInfix

theorem NoCrlf.tail {b : UInt8} (plain : NoCrlf (b :: line)) : NoCrlf line :=
  fun inside => plain (inside.trans (List.suffix_cons b line).isInfix)

theorem strstr_crlf (plain : NoCrlf line) (t : Bytes) :
    strstr CRLF (line ++ (CRLF ++ t)) = some line.length := by
  induction line with
  | nil => exact if_pos ⟨t, rfl⟩
  | cons b line ih =>
    rw [List.cons_append, strstr, if_neg (crlf_behind plain t), ih plain.tail]
    rfl

/-- The blank line begins behind the line, or is looked for behind its end. -/
theorem strstr_blank (plain : NoCrlf line) (t : Bytes) :
    strstr (CRLF ++ CRLF) (line ++ (CRLF ++ t)) = if CRLF <+: t then some line.length
      else (strstr (CRLF ++ CRLF) t).map (line.length + 2 + ·) := by
  induction line with
  | nil =>
    change strstr (CRLF ++ CRLF) (CR :: LF :: t) = _
    have here : CRLF ++ CRLF <+: CR :: LF :: t ↔ CRLF <+: t :=
      List.prefix_append_right_inj CRLF
    have next : ¬CRLF ++ CRLF <+: LF :: t := by
      rintro ⟨u, same⟩
      exact absurd (List.cons.inj same).1 (by decide)
    rw [strstr, strstr, if_neg next]
    by_cases blank : CRLF <+: t
    · rw [if_pos (here.mpr blank), if_pos blank]
      rfl
    · rw [if_neg (mt here.mp blank), if_neg blank, Option.map_map]
      congr 1
      funext n
      simp only [Function.comp_apply, List.length_nil]
      omega
  | cons b line ih =>
    have other : ¬CRLF ++ CRLF <+: b :: (line ++ (CRLF ++ t)) := fun here =>
      crlf_behind plain t ((List.prefix_append CRLF CRLF).trans here)
    rw [List.cons_append, strstr, if_neg other, ih plain.tail]
    split
    · rfl
    · rw [Option.map_map]
      congr 1
      funext n
      simp only [Function.comp_apply, List.length_cons]
      omega

theorem linesText_cons (line : Bytes) (lines : List Bytes) :
    linesText (line :: lines) = line ++ (CRLF ++ linesText lines) := by
  rw [linesText, List.flatMap_cons, List.append_assoc]
  rfl

theorem linesText_append (lines more : List Bytes) :
    linesText (lines ++ more) = linesText lines ++ linesText more := List.flatMap_append

theorem strstr_head (plain : NoCrlf line) (each : ∀ l ∈ headers, l ≠ [] ∧ NoCrlf l) :
    strstr (CRLF ++ CRLF) (linesText (line :: headers) ++ CRLF) =
      some ((linesText (line :: headers)).length - 2) := by
  induction headers generalizing line with
  | nil =>
    have whole : linesText [line] ++ CRLF = line ++ (CRLF ++ CRLF) := by simp [linesText]
    rw [whole, strstr_blank plain, if_pos (List.prefix_refl CRLF)]
    simp [linesText, CRLF]
  | cons next headers ih =>
    obtain ⟨⟨nonempty, plain'⟩, others⟩ := List.forall_mem_cons.mp each
    obtain ⟨b, next, rfl⟩ := List.exists_cons_of_ne_nil nonempty
    have not_blank : ¬CRLF <+: linesText ((b :: next) :: headers) ++ CRLF := by
      rw [linesText_cons, List.append_assoc, List.append_assoc]
      exact crlf_behind plain' _
    rw [linesText_cons line, List.append_assoc, List.append_assoc, strstr_blank plain,
      if_neg not_blank, ih plain' others, Option.map_some]
    have two : CRLF.length = 2 := rfl
    rw [linesText_cons (b :: next)]
    simp only [List.length_append, two, Option.some.injEq]
    omega

/-- The header block of a well-formed head is the whole of it. -/
theorem headerBlockLen_headText (h : WellFormed status headers) :
    headerBlockLen (headText status headers) = some (headText status headers).length := by
  have whole : cstr (headText status headers) = headText status headers := by
    rw [cstr, List.takeWhile_eq_self_iff]
    intro b listed
    rw [bne_iff_ne]
    rintro rfl
    exact h.no_nul listed
  have two : CRLF.length = 2 := rfl
  rw [headerBlockLen, whole, headText, strstr_head h.first h.lines, Option.map_some,
    linesText_cons]
  simp only [List.length_append, two, Option.some.injEq]
  omega

/-- A buffer that has room for what is put into it. -/
theorem append_room {sb : StringBuf} {src : Bytes} (room : sb.size + src.length < sb.capacity)
    (small : sb.capacity ≤ STRINGBUF_MAX_CAP) :
    append sb src = { sb with data := sb.data ++ src } := by
  unfold append stringbufAppend
  by_cases empty : src.length = 0
  · rw [if_pos empty, List.eq_nil_of_length_eq_zero empty, List.append_nil]
    rfl
  · have max : STRINGBUF_MAX_CAP = 67108864 := rfl
    have ssize : SSIZE_MAX = 9223372036854775807 := rfl
    rw [if_neg empty, if_neg (by omega), stringbufReserve, if_neg (by omega)]
    dsimp only
    rw [if_pos (by omega)]
    dsimp only
    rw [if_neg (by omega)]
    rfl

theorem appendf_room {sb : StringBuf} {text : Bytes} (room : sb.size + text.length < sb.capacity)
    (small : sb.capacity ≤ STRINGBUF_MAX_CAP) :
    (appendf sb text).data = sb.data ++ text := by
  have max : STRINGBUF_MAX_CAP = 67108864 := rfl
  have ssize : SSIZE_MAX = 9223372036854775807 := rfl
  unfold appendf stringbufAppendf
  rw [if_neg (by omega), stringbufReserve, if_neg (by omega)]
  dsimp only
  rw [if_pos (by omega)]
  rfl

/-- A line and its end. -/
theorem append_line {sb : StringBuf} (room : sb.size + line.length + 2 < sb.capacity)
    (small : sb.capacity ≤ STRINGBUF_MAX_CAP) :
    append (append sb line) CRLF = { sb with data := sb.data ++ (line ++ CRLF) } := by
  have two : CRLF.length = 2 := rfl
  have ending : ({ sb with data := sb.data ++ line } : StringBuf).size + CRLF.length < sb.capacity := by
    change (sb.data ++ line).length + 2 < sb.capacity
    rw [List.length_append]
    exact room
  rw [append_room (by omega) small, append_room ending small, List.append_assoc]

theorem isConnection_iff (line : Bytes) :
    (11 ≤ line.length ∧ lower (line.take 11) = ascii "connection:") ↔ isConnection line = true := by
  rw [isConnection, beq_iff_eq, and_iff_right_iff_imp]
  intro same
  have lengths := congrArg List.length same
  have eleven : (ascii "connection:").length = 11 := by decide
  rw [lower, List.length_map, List.length_take, eleven] at lengths
  omega

theorem rebuildLines_eq {fuel : Nat} {sb : StringBuf} (each : ∀ l ∈ headers, l ≠ [] ∧ NoCrlf l)
    (enough : (linesText headers).length ≤ fuel)
    (room : sb.size + (linesText headers).length < sb.capacity)
    (small : sb.capacity ≤ STRINGBUF_MAX_CAP) :
    rebuildLines fuel false (linesText headers) sb =
      { sb with data := sb.data ++ linesText (headers.filter (!isConnection ·)) } := by
  induction headers generalizing fuel sb with
  | nil =>
    cases fuel <;> simp [rebuildLines, linesText]
  | cons line headers ih =>
    obtain ⟨⟨nonempty, plain⟩, others⟩ := List.forall_mem_cons.mp each
    have positive := List.length_pos_iff.mpr nonempty
    have two : CRLF.length = 2 := rfl
    have length : (linesText (line :: headers)).length =
        line.length + (2 + (linesText headers).length) := by
      rw [linesText_cons, List.length_append, List.length_append, two]
    cases fuel with
    | zero => omega
    | succ fuel =>
      have some_line : linesText (line :: headers) ≠ [] := by
        intro empty
        rw [empty, List.length_nil] at length
        omega
      have taken : (linesText (line :: headers)).take line.length = line := by
        rw [linesText_cons, List.take_left]
      have left : (linesText (line :: headers)).drop (line.length + 2) = linesText headers := by
        rw [linesText_cons, ← List.append_assoc]
        exact List.drop_left' (by rw [List.length_append, two])
      have found : strstr CRLF (linesText (line :: headers)) = some line.length := by
        rw [linesText_cons, strstr_crlf plain]
      rw [rebuildLines, if_neg some_line, found]
      dsimp only [Option.getD_some]
      rw [taken, left, if_neg Bool.false_ne_true, List.filter_cons]
      by_cases connection : isConnection line = true
      · rw [if_pos ((isConnection_iff line).mpr connection), connection,
          ih others (by omega) (by omega) small]
        rfl
      · have later : ({ sb with data := sb.data ++ (line ++ CRLF) } : StringBuf).size +
            (linesText headers).length < sb.capacity := by
          change (sb.data ++ (line ++ CRLF)).length + _ < sb.capacity
          have size : sb.size = sb.data.length := rfl
          rw [List.length_append, List.length_append, two]
          omega
        rw [if_neg (mt (isConnection_iff line).mp connection), if_pos positive,
          append_line (by omega) small, ih others (by omega) later small,
          Bool.eq_false_iff.mpr connection]
        simp only [Bool.not_false, if_true, linesText_cons, List.append_assoc]

/-- The block of the client is the rewritten head. -/
theorem rewriteHead_eq (h : WellFormed status headers)
    (small : (headText status headers).length ≤ 16384) (finalKa : Bool) :
    rewriteHead (headText status headers) finalKa = rewritten status headers finalKa := by
  have two : CRLF.length = 2 := rfl
  have length : (headText status headers).length =
      status.length + (2 + (linesText headers).length) + 2 := by
    rw [headText, linesText_cons, List.length_append, List.length_append, List.length_append, two]
  have text : (headText status headers).take ((headText status headers).length - 2) =
      status ++ (CRLF ++ linesText headers) := by
    rw [headText, ← linesText_cons]
    exact List.take_left' (by rw [List.length_append, two]; omega)
  have some_text : status ++ (CRLF ++ linesText headers) ≠ [] := by
    intro empty
    have none := congrArg List.length empty
    simp only [List.length_append, two, List.length_nil] at none
    omega
  have taken : (status ++ (CRLF ++ linesText headers)).take status.length = status := List.take_left
  have left : (status ++ (CRLF ++ linesText headers)).drop (status.length + 2) =
      linesText headers := by
    rw [← List.append_assoc]
    exact List.drop_left' (by rw [List.length_append, two])
  obtain ⟨n, size⟩ : ∃ n, (headText status headers).length = n + 1 :=
    ⟨(headText status headers).length - 1, by omega⟩
  have init : stringbufInit (n + 1 + 32) = ⟨[], n + 1 + 32, true⟩ := by
    rw [stringbufInit, if_neg (by omega)]
  have cap : n + 1 + 32 ≤ STRINGBUF_MAX_CAP := by
    have max : STRINGBUF_MAX_CAP = 67108864 := rfl
    omega
  have first : (⟨[], n + 1 + 32, true⟩ : StringBuf).size + status.length + 2 < n + 1 + 32 := by
    change 0 + status.length + 2 < n + 1 + 32
    omega
  have others : (⟨[] ++ (status ++ CRLF), n + 1 + 32, true⟩ : StringBuf).size +
      (linesText headers).length < n + 1 + 32 := by
    change ([] ++ (status ++ CRLF)).length + _ < n + 1 + 32
    rw [List.nil_append, List.length_append, two]
    omega
  have last : (⟨[] ++ (status ++ CRLF) ++ linesText (headers.filter (!isConnection ·)), n + 1 + 32,
      true⟩ : StringBuf).size + (ascii "Connection: " ++
        ascii (if finalKa then "keep-alive" else "close") ++ ascii "\r\n\r\n").length <
          n + 1 + 32 := by
    have kept : (linesText (headers.filter (!isConnection ·))).length ≤ (linesText headers).length :=
      (List.filter_sublist.flatMap _).length_le
    have value : (ascii (if finalKa then "keep-alive" else "close")).length ≤ 10 := by
      cases finalKa <;> decide
    have name : (ascii "Connection: ").length = 12 := by decide
    have blank : (ascii "\r\n\r\n").length = 4 := by decide
    change ([] ++ (status ++ CRLF) ++ linesText _).length + _ < n + 1 + 32
    simp only [List.nil_append, List.length_append, two, name, blank]
    omega
  rw [size] at text length
  rw [rewriteHead, size, text, init, rebuildLines, if_neg some_text, strstr_crlf h.first, Option.getD_some]
  dsimp only
  rw [taken, left, if_pos rfl, append_line first cap, rebuildLines_eq h.lines (by omega) others cap,
    appendf_room last cap, rewritten, headText, linesText_cons, linesText_append]
  have blank : ascii "\r\n\r\n" = CRLF ++ CRLF := by decide
  simp only [linesText, connectionLine, blank, List.flatMap_cons, List.flatMap_nil,
    List.nil_append, List.append_nil, List.append_assoc]

variable {x : Exchange} {cs : ClientSide} {buf rest more : Bytes} {w : WriteResult}

/-- What the upstream sends in a run. -/
def upstreamBytes (es : List Event) : Bytes :=
  es.flatMap fun
    | .upstreamReadable _ (.data buf) _ => buf
    | _ => []

/-- The client takes what a read brings for it, and no other event ends the exchange. -/
def Smooth (x : Exchange) (e : Event) : Prop :=
  x.ended = true ∨ match e with
    | .upstreamReadable cs (.data buf) w =>
      socketWrite cs.known (chunk cs x buf).length w = some (chunk cs x buf).length
    | e => (step x e).ended = false

/-- In every run with this response the client gets the rewritten head and the body. -/
def RewritesHead (status : Bytes) (headers : List Bytes) (body : Bytes) : Prop :=
  ∀ p route cd upstreamFd reusedConn now es, route.upstream.keepaliveEnabled = true →
    Guarded step Smooth (proxyStart p route cd upstreamFd reusedConn now) es →
    upstreamBytes es = headText status headers ++ body →
      ∃ finalKa, (run step (proxyStart p route cd upstreamFd reusedConn now) es).toClient =
        rewritten status headers finalKa ++ body

/-- The number at the beginning of the first Content-Length does not cut the body off. -/
def LengthAllows (block body : Bytes) : Prop :=
  ∀ raw, (rawValues (ascii "Content-Length") block).head? = some raw →
    Negative raw ∨ body.length ≤ ofDigits 10 (numeral raw).2 ∧ body.length < 2 ^ 63

theorem lengthAllows_iff (block body : Bytes) :
    LengthAllows block body ↔ ∀ n, counted block = some n → body.length ≤ n := by
  unfold LengthAllows
  cases present : (rawValues (ascii "Content-Length") block).head? with
  | none =>
    rw [counted_none present]
    constructor
    · rintro _ _ ⟨⟩
    · rintro _ _ ⟨⟩
  | some raw =>
    by_cases negative : Negative raw
    · rw [counted_negative present negative]
      constructor
      · rintro _ _ ⟨⟩
      · rintro _ _ ⟨⟩
        exact Or.inl negative
    · rw [counted_some present negative]
      constructor
      · rintro allows n ⟨⟩
        have fits := (allows raw rfl).resolve_left negative
        omega
      · rintro fits _ ⟨⟩
        have fits := fits _ rfl
        right
        omega

/-- What went to the client by now. -/
structure Relayed (status : Bytes) (headers : List Bytes) (x : Exchange) : Prop where
  staged : Staged x
  empty : x.ps.downstreamBuf = none
  silent : x.ps.respHeadersDone = false → x.toClient = []
  sent : x.ps.respHeadersDone = true → ∃ finalKa more,
    x.fromUpstream = headText status headers ++ more ∧
      x.toClient = rewritten status headers finalKa ++ more

/-- A part of the response that has a head has the head of the response. -/
theorem part_head {block part : Bytes} {n : Nat} (head : headerBlockLen block = some block.length)
    (all : part ++ rest = block ++ body) (found : headerBlockLen part = some n) :
    n = block.length ∧ ∃ more, part = block ++ more := by
  have whole := headerBlockLen_append found rest
  rw [all, headerBlockLen_append head, Option.some.injEq] at whole
  refine ⟨whole.symm, part.drop n, ?_⟩
  have le := headerBlockLen_le found
  have first := congrArg (List.take n) all
  rw [List.take_append_of_le_length le, ← whole, List.take_left, whole] at first
  rw [← first, List.take_append_drop]

theorem part_short {block part : Bytes} (head : headerBlockLen block = some block.length)
    (all : part ++ rest = block ++ body) (missing : headerBlockLen part = none) :
    part.length < block.length := by
  by_contra long
  have first := congrArg (List.take block.length) all
  rw [List.take_append_of_le_length (Nat.le_of_not_lt long), List.take_left] at first
  have found := headerBlockLen_append head (part.drop block.length)
  rw [← first, List.length_take_of_le (Nat.le_of_not_lt long), List.take_append_drop,
    missing] at found
  cases found

theorem relayed_read (wf : WellFormed status headers)
    (small : (headText status headers).length ≤ 16384) (h : Relayed status headers x)
    (live : x.ended = false) (all : x.fromUpstream ++ buf ++ rest = headText status headers ++ body)
    (taken : socketWrite cs.known (chunk cs x buf).length w = some (chunk cs x buf).length) :
    Relayed status headers (proxyOnUpstreamRead cs (.data buf) w x) := by
  have head := headerBlockLen_headText wf
  obtain ⟨staged, read, -⟩ := staged_read h.staged live (by rw [taken]; exact Option.some_ne_none _)
  cases done : x.ps.respHeadersDone with
  | true =>
    obtain ⟨finalKa, more, from_eq, sent⟩ := h.sent done
    rw [read_done h.staged.route done] at staged read ⊢
    rw [chunk, if_pos done] at taken
    have inner : (receive buf x).ended = false := live
    have framing := relay_framing (n := buf.length) inner taken
    obtain ⟨client, _, buffered, _⟩ := KeepaliveRelay.relay_delivery (n := buf.length) inner h.empty taken
    have done' := framing.respHeadersDone.trans done
    refine ⟨staged, buffered.mpr rfl, fun undone => ?_, fun _ => ⟨finalKa, more ++ buf, ?_, ?_⟩⟩
    · rw [done'] at undone
      cases undone
    · rw [read, from_eq, List.append_assoc]
    · rw [client, List.take_length]
      change x.toClient ++ buf = _
      rw [sent, List.append_assoc]
  | false =>
    have grown_eq : grown x buf = x.fromUpstream ++ buf := by
      rw [grown, (h.staged.undone done).1]
    cases found : headerBlockLen (grown x buf) with
    | none =>
      have short := part_short head all (by rw [← grown_eq, found])
      rw [read_unfinished h.staged.route done found, if_neg (by rw [grown_eq]; omega)] at staged ⊢
      refine ⟨staged, h.empty, fun _ => h.silent done, fun done' => ?_⟩
      change x.ps.respHeadersDone = true at done'
      rw [done] at done'
      cases done'
    | some n =>
      obtain ⟨rfl, more, part⟩ := part_head head all (by rw [← grown_eq, found])
      rw [read_head h.staged.route done found] at staged read ⊢
      have inner : (frameResponse ((grown x buf).take (headText status headers).length)
        (receive buf x)).ended = false := live
      have framing := relay_framing
        (n := ((grown x buf).drop (headText status headers).length).length) inner taken
      obtain ⟨client, _, buffered, _⟩ := KeepaliveRelay.relay_delivery
        (n := ((grown x buf).drop (headText status headers).length).length) inner h.empty taken
      refine ⟨staged, buffered.mpr rfl, fun undone => ?_, fun _ =>
        ⟨(x.ps.keepaliveEnabled && poolable (headText status headers)) && (cs.known && cs.keepAlive),
          more, read.trans part, ?_⟩⟩
      · rw [framing.respHeadersDone] at undone
        cases undone
      · rw [client, List.take_length]
        change x.toClient ++ chunk cs x buf = _
        rw [h.silent done, List.nil_append, chunk, if_neg (by rw [done]; exact Bool.false_ne_true),
          found]
        dsimp only
        rw [grown_eq, part, List.take_left, List.drop_left, rewriteHead_eq wf small]

/-- The other events do not touch the response. -/
theorem Relayed.of_same {y : Exchange} (h : Relayed status headers x)
    (same : ExchangeFrames.SameDownload x y) : Relayed status headers y where
  staged := h.staged.of_same same.toSameFraming
  empty := same.downstreamBuf.trans h.empty
  silent undone := same.toClient.trans (h.silent (same.respHeadersDone.symm.trans undone))
  sent done := by
    obtain ⟨finalKa, more, part, sent⟩ := h.sent (same.respHeadersDone.symm.trans done)
    exact ⟨finalKa, more, same.fromUpstream.trans part, same.toClient.trans sent⟩

theorem clientWritable_same (empty : x.ps.downstreamBuf = none) (w : WriteResult) :
    ExchangeFrames.SameDownload x (proxyOnClientWritable w x) := by
  have nothing : x.ps.undelivered = [] := by
    rw [ProxyState.undelivered, empty]
    exact List.drop_nil
  unfold proxyOnClientWritable
  dsimp only
  rw [if_pos nothing]
  exact ⟨⟨rfl, rfl, rfl, rfl, rfl, rfl, rfl⟩, ⟨rfl, rfl⟩, rfl, rfl, rfl⟩

/-- An event that is no read keeps the exchange and reads nothing. -/
theorem relayed_other (h : Relayed status headers x) (live : x.ended = false) {e : Event}
    (other : ∀ cs buf w, e ≠ .upstreamReadable cs (.data buf) w) (smooth : Smooth x e) :
    Relayed status headers (step x e) ∧ (step x e).ended = false ∧
      (step x e).fromUpstream = x.fromUpstream := by
  have goes : (step x e).ended = false := by
    rcases smooth with ended | goes
    · rw [live] at ended
      cases ended
    · cases e with
      | upstreamReadable cs r w =>
        cases r with
        | data buf => exact absurd rfl (other cs buf w)
        | again => exact goes
        | eof => exact goes
        | failed => exact goes
      | _ => exact goes
  have stepped := step_live live e
  have same : ExchangeFrames.SameDownload x (handle x e) := by
    rw [stepped] at goes
    cases e with
    | upstreamWritable soerr r => exact ExchangeFrames.upstreamWrite_download soerr r x
    | bodyData data r => exact ExchangeFrames.bodyData_download data r x
    | clientWritable w => exact clientWritable_same h.empty w
    | upstreamReadable cs r w =>
      cases r with
      | data buf => exact absurd rfl (other cs buf w)
      | again => exact .refl x
      | eof => cases goes
      | failed => cases goes
  refine ⟨?_, goes, ?_⟩
  · rw [stepped]
    exact h.of_same same
  · rw [stepped]
    exact same.fromUpstream

theorem read_eq {e : Event} : (∃ cs buf w, e = .upstreamReadable cs (.data buf) w) ∨
    ((∀ cs buf w, e ≠ .upstreamReadable cs (.data buf) w) ∧ upstreamBytes [e] = []) := by
  cases e with
  | upstreamReadable cs r w =>
    cases r with
    | data buf => exact Or.inl ⟨cs, buf, w, rfl⟩
    | _ =>
      right
      constructor
      · rintro _ _ _ ⟨⟩
      · rfl
  | _ =>
    right
    constructor
    · rintro _ _ _ ⟨⟩
    · rfl

/-- At the counted end of the body the client has all of it. -/
theorem relayed_complete (wf : WellFormed status headers)
    (small : (headText status headers).length ≤ 16384)
    (fits : ∀ n, counted (headText status headers) = some n → body.length ≤ n)
    (h : Relayed status headers x) (complete : Complete x)
    (all : x.fromUpstream ++ rest = headText status headers ++ body) :
    ∃ finalKa, x.toClient = rewritten status headers finalKa ++ body := by
  have done : x.ps.respHeadersDone = true := by
    rw [← Bool.not_eq_false]
    intro undone
    have counted := complete.1
    rw [(h.staged.undone undone).2.2] at counted
    exact absurd counted (by decide)
  obtain ⟨finalKa, more, part, sent⟩ := h.sent done
  obtain ⟨n, length, enough⟩ :=
    (complete_iff h.staged (headerBlockLen_headText wf) part (fun _ => by omega)).mp complete
  rw [part, List.append_assoc, List.append_cancel_left_eq] at all
  have none_left : rest = [] := by
    have lengths := congrArg List.length all
    have le := fits n length
    rw [List.length_append] at lengths
    exact List.eq_nil_of_length_eq_zero (by omega)
  rw [none_left, List.append_nil] at all
  exact ⟨finalKa, by rw [sent, all]⟩

theorem relayed_run {es : List Event} (wf : WellFormed status headers)
    (small : (headText status headers).length ≤ 16384)
    (fits : ∀ n, counted (headText status headers) = some n → body.length ≤ n)
    (h : Relayed status headers x) (live : x.ended = false) (smooth : Guarded step Smooth x es)
    (all : x.fromUpstream ++ upstreamBytes es = headText status headers ++ body) :
    ∃ finalKa, (run step x es).toClient = rewritten status headers finalKa ++ body := by
  induction es generalizing x with
  | nil =>
    cases done : x.ps.respHeadersDone with
    | true =>
      obtain ⟨finalKa, more, part, sent⟩ := h.sent done
      refine ⟨finalKa, ?_⟩
      change x.fromUpstream ++ [] = _ at all
      rw [List.append_nil, part, List.append_cancel_left_eq] at all
      exact sent.trans (by rw [all])
    | false =>
      have found := headerBlockLen_append (headerBlockLen_headText wf) body
      rw [← all] at found
      change headerBlockLen (x.fromUpstream ++ []) = _ at found
      rw [List.append_nil, (h.staged.undone done).2.1] at found
      cases found
  | cons e es ih =>
    obtain ⟨now, later⟩ := smooth
    change ∃ finalKa, (run step (step x e) es).toClient = _
    have bytes : upstreamBytes (e :: es) = upstreamBytes [e] ++ upstreamBytes es := by
      rw [upstreamBytes, upstreamBytes, upstreamBytes, List.flatMap_cons, List.flatMap_singleton]
    rw [bytes, ← List.append_assoc] at all
    rcases read_eq (e := e) with ⟨cs, buf, w, rfl⟩ | ⟨other, nothing⟩
    · have stepped : step x (.upstreamReadable cs (.data buf) w) =
          proxyOnUpstreamRead cs (.data buf) w x := step_live live _
      have taken : socketWrite cs.known (chunk cs x buf).length w =
          some (chunk cs x buf).length := now.resolve_left (by rw [live]; exact Bool.false_ne_true)
      have own : upstreamBytes [.upstreamReadable cs (.data buf) w] = buf := List.append_nil buf
      rw [own] at all
      have next := relayed_read wf small h live all taken
      obtain ⟨_, read, ends⟩ :=
        staged_read h.staged live (by rw [taken]; exact Option.some_ne_none _)
      rw [stepped] at later ⊢
      rw [← read] at all
      cases goes : (proxyOnUpstreamRead cs (.data buf) w x).ended with
      | false => exact ih next goes later all
      | true =>
        rw [run_ended goes]
        exact relayed_complete wf small fits next (ends.mp goes) all
    · obtain ⟨next, goes, read⟩ := relayed_other h live other now
      rw [nothing, List.append_nil, ← read] at all
      exact ih next goes later all

/-- Two rewritten heads of one response are told apart by their Connection line alone. -/
theorem rewritten_inj {a b : Bool} {s t : Bytes}
    (same : rewritten status headers a ++ s = rewritten status headers b ++ t) : s = t := by
  have split (finalKa : Bool) (s : Bytes) : rewritten status headers finalKa ++ s =
      linesText (status :: headers.filter (!isConnection ·)) ++ (ascii "Connection: " ++
        (ascii (if finalKa then "keep-alive" else "close") ++ (CRLF ++ (CRLF ++ s)))) := by
    rw [rewritten, headText, ← List.cons_append, linesText_append]
    simp only [linesText, connectionLine, List.flatMap_cons, List.flatMap_nil, List.append_nil,
      List.append_assoc]
  rw [split, split, List.append_cancel_left_eq, List.append_cancel_left_eq] at same
  cases a with
  | true =>
    cases b with
    | true => exact List.append_cancel_left (List.append_cancel_left (List.append_cancel_left same))
    | false => exact absurd (List.cons.inj same).1 (by decide)
  | false =>
    cases b with
    | true => exact absurd (List.cons.inj same).1 (by decide)
    | false => exact List.append_cancel_left (List.append_cancel_left (List.append_cancel_left same))

theorem relayed_start (p : HttpRequestParser.HttpParser) (route : Route) (cd : Client)
    (upstreamFd : Nat) (reusedConn : Bool) (now : Int)
    (ka : route.upstream.keepaliveEnabled = true) :
    Relayed status headers (proxyStart p route cd upstreamFd reusedConn now) where
  staged := staged_start p route cd upstreamFd reusedConn now ka
  empty := rfl
  silent _ := rfl
  sent done := by cases done

theorem all_taken (len : Nat) : socketWrite clientOf.known len (.wrote len) = some len := by
  unfold socketWrite
  split
  · rename_i empty
    have zero : len = 0 := by simpa [clientOf] using empty
    rw [zero]
  · rename_i some_bytes
    have positive : len ≠ 0 := by simpa [clientOf] using some_bytes
    change some (min (max len 1) len) = some len
    congr 1
    omega

theorem RewritesHead.fresh (h : RewritesHead status headers body) {es : List Event}
    (start : freshExchange [] = x) (smooth : Guarded step Smooth x es)
    (bytes : upstreamBytes es = headText status headers ++ body) :
    ∃ finalKa, (run step x es).toClient = rewritten status headers finalKa ++ body := by
  rw [← start] at smooth ⊢
  exact h _ sampleRoute sampleClient 9 false 0 es rfl smooth bytes

/-- The body comes in two reads, and is counted to its end in the first. -/
theorem fits_of_rewrites {n : Nat} (wf : WellFormed status headers)
    (small : (headText status headers).length ≤ 16384)
    (rewrites : RewritesHead status headers body)
    (length : counted (headText status headers) = some n) : body.length ≤ n := by
  by_contra short
  have head := headerBlockLen_headText wf
  generalize part : headText status headers ++ body.take n = first
  generalize start : freshExchange [] = x
  have live : x.ended = false := by rw [← start]; rfl
  have relayed : Relayed status headers x := by
    rw [← start]
    exact relayed_start _ _ _ _ _ _ rfl
  have nothing : x.fromUpstream = [] := by rw [← start]; rfl
  have taken := all_taken (chunk clientOf x first).length
  have ok := Option.ne_none_iff_exists'.mpr ⟨_, taken⟩
  have all : x.fromUpstream ++ first ++ [] = headText status headers ++ body.take n := by
    rw [nothing, List.nil_append, List.append_nil, part]
  have stepped : step x (.upstreamReadable clientOf (.data first)
      (.wrote (chunk clientOf x first).length)) =
        proxyOnUpstreamRead clientOf (.data first) (.wrote (chunk clientOf x first).length) x :=
    step_live live _
  obtain ⟨_, read, ends⟩ := staged_read relayed.staged live ok
  have next := relayed_read wf small relayed live all taken
  have counted_end : n ≤ (body.take n).length := by
    rw [List.length_take]
    omega
  have ended : (proxyOnUpstreamRead clientOf (.data first)
      (.wrote (chunk clientOf x first).length) x).ended = true := by
    rw [← stepped, ← start, ← part]
    apply (ends_at_once head [] (body.take n) ?_).mpr
    · exact ⟨n, length, counted_end⟩
    · rw [part, start]
      exact ok
  rw [List.append_nil] at all
  have fits (m : Nat) (length' : counted (headText status headers) = some m) :
      (body.take n).length ≤ m := by
    rw [length, Option.some.injEq] at length'
    rw [List.length_take]
    omega
  have half : (proxyOnUpstreamRead clientOf (.data first)
      (.wrote (chunk clientOf x first).length) x).fromUpstream ++ [] =
        headText status headers ++ body.take n := by
    rw [read, List.append_nil, all]
  obtain ⟨_, cut_off⟩ := relayed_complete wf small fits next (ends.mp ended) half
  have bytes : upstreamBytes [.upstreamReadable clientOf (.data first)
      (.wrote (chunk clientOf x first).length), .upstreamReadable clientOf (.data (body.drop n))
        (.wrote 0)] = headText status headers ++ body := by
    change first ++ (body.drop n ++ []) = _
    rw [List.append_nil, ← part, List.append_assoc, List.take_append_drop]
  rw [← stepped] at ended cut_off
  have smooth : Guarded step Smooth x [.upstreamReadable clientOf (.data first)
      (.wrote (chunk clientOf x first).length), .upstreamReadable clientOf (.data (body.drop n))
        (.wrote 0)] := ⟨Or.inr taken, Or.inl ended, trivial⟩
  obtain ⟨_, whole⟩ := rewrites.fresh start smooth bytes
  change (run step (step x _) _).toClient = _ at whole
  rw [run_ended ended, cut_off] at whole
  have lengths := congrArg List.length (rewritten_inj whole)
  rw [List.length_take] at lengths
  omega

/-- The proxy passes the response on under a rewritten head if and only if the number at the
beginning of its Content-Length is not smaller than the body. -/
theorem rewritesHead_iff (status : Bytes) (headers : List Bytes) (body : Bytes)
    (wf : WellFormed status headers) (small : (headText status headers).length ≤ 16384) :
    RewritesHead status headers body ↔ LengthAllows (headText status headers) body := by
  rw [lengthAllows_iff]
  constructor
  · intro rewrites n length
    exact fits_of_rewrites wf small rewrites length
  · intro fits p route cd upstreamFd reusedConn now es ka smooth sent
    exact relayed_run wf small fits (relayed_start p route cd upstreamFd reusedConn now ka) rfl smooth
      sent

def okLine : Bytes := ascii "HTTP/1.1 200 OK"

def lengthLine (length : Bytes) : Bytes := ascii "Content-Length: " ++ length

theorem rewritesHead_sample :
    RewritesHead okLine [ascii "Connection: close", lengthLine [50]] (ascii "ok") ∧
      rewritten okLine [ascii "Connection: close", lengthLine [50]] true =
        ascii "HTTP/1.1 200 OK\r\nContent-Length: 2\r\nConnection: keep-alive\r\n\r\n" := by
  constructor
  · apply (rewritesHead_iff okLine [ascii "Connection: close", lengthLine [50]] (ascii "ok")
      ⟨by decide +kernel, by decide +kernel, by decide +kernel⟩ (by decide)).mpr
    have value : (rawValues (ascii "Content-Length") (headText okLine
        [ascii "Connection: close", lengthLine [50]])).head? = some [32, 50, 13] := by decide
    intro raw present
    rw [value, Option.some.injEq] at present
    rw [← present]
    exact Or.inr ⟨by decide, by decide⟩
  · decide

/-- The last digit of this length is the 64th byte of the value. -/
def longLength : Bytes := List.replicate 63 48 ++ [53]

theorem not_rewritesHead : ¬∀ status headers body, WellFormed status headers →
    (headText status headers).length ≤ 16384 →
    (∀ n, messageLength (ascii "GET") (headText status headers) = some n → n = body.length) →
      RewritesHead status headers body := by
  intro always
  have wf : WellFormed okLine [lengthLine longLength] :=
    ⟨by decide +kernel, by decide +kernel, by decide +kernel⟩
  have five : messageLength (ascii "GET") (headText okLine [lengthLine longLength]) = some 5 := by
    decide
  have rewrites := always okLine [lengthLine longLength] (ascii "hello") wf (by decide) (by
    intro n length
    rw [five] at length
    cases length
    rfl)
  have zero : counted (headText okLine [lengthLine longLength]) = some 0 := by decide
  have le := fits_of_rewrites wf (by decide) rewrites zero
  exact absurd le (by decide)

end HeadRewriting
