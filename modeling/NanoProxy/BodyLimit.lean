import NanoProxy.MessageEnd

/-!
# The largest body that is received

`MAX_BODY_SIZE` bounds the body, `STRINGBUF_MAX_CAP` the receive buffer. The buffer keeps the
head in front of a body until the body is complete, and holds one byte more than the message.
-/

namespace BodyLimit

open CLib StringBuffer HttpRequestParser RequestDecoder ParserRefinement Segmentation
open RequestGrammar RequestCodec RequestWire AnyReads MessageEnd Incremental
open HeaderTable (Keeps)

/-- The limits of a build with `-DMAX_BODY_SIZE`. -/
def build (maxBodySize : Nat) : Limits := { Limits.default with maxBodySize := maxBodySize }

theorem build_sane (maxBodySize : Nat) : Sane (build maxBodySize) :=
  ⟨default_sane.version, default_sane.value⟩

/-- A message that needs the whole capacity of the buffer is never completed. -/
theorem refused_long {lim : Limits} (sane : Sane lim) {message : Bytes} {s : DecodeState}
    (run : (decoder lim).run .start message = .complete s [])
    (long : STRINGBUF_MAX_CAP ≤ message.length) (fd : Nat) (cut : Cut message) (q : HttpParser) :
    feedReads lim (httpParserInit fd) cut.reads ≠ (q, 1) := by
  intro accepted
  obtain ⟨pre, post, t, l, split, early, -, small⟩ := feedReads_accepted sane fd accepted
  have joined : message = pre.flatten ++ post.flatten := by
    rw [← cut.joined, split, List.flatten_append]
  rw [joined, Decoder.run_append, early] at run
  have nothing : l ++ post.flatten = [] := (Outcome.complete.inj run).2
  rw [joined, (List.append_eq_nil_iff.mp nothing).2, List.append_nil] at long
  exact absurd small (Nat.not_lt.mpr long)

/-- A message that leaves room for the NUL is received whole. -/
theorem received_short {lim : Limits} (sane : Sane lim) {message : Bytes} {s : DecodeState}
    (run : (decoder lim).run .start message = .complete s [])
    (short : message.length < STRINGBUF_MAX_CAP) (fd : Nat) (cut : Cut message) :
    ∃ q, feedReads lim (httpParserInit fd) cut.reads = (q, 1) ∧ q.req = s.req := by
  have received := feedReads_cut sane fd short cut
  rw [run] at received
  exact ⟨_, Prod.ext rfl received.1, received.2.2.1⟩

theorem wire_counted {r : WireRequest} {body : Bytes} (counted : r.body = .counted body) :
    r.wire = r.read ∧ r.stored = body := by
  constructor
  · rw [WireRequest.wire, WireRequest.read, WireRequest.bodyRead, counted]
    rfl
  · rw [WireRequest.stored, counted]

theorem run_wire {maxBodySize : Nat} (large : Limits.default.maxBodySize ≤ maxBodySize)
    (word : maxBodySize < 2 ^ 64) {r : WireRequest} {body : Bytes}
    (counted : r.body = .counted body) (fits : r.Fits (build maxBodySize)) :
    (decoder (build maxBodySize)).run .start r.wire = .complete ⟨.finished, r.parsed⟩ [] := by
  have run := @run_request (build maxBodySize) r (default_order.trans large) word []
  rwa [if_pos fits, List.append_nil, ← (wire_counted counted).1] at run

/-- A counted body within the limits is received when head and body together stay below the
capacity of the buffer, and in no other case, as long as the table keeps its keys. -/
theorem body_received_iff (σ : UInt64) (maxBodySize : Nat)
    (large : Limits.default.maxBodySize ≤ maxBodySize) (word : maxBodySize < 2 ^ 64)
    (r : WireRequest) (body : Bytes) (counted : r.body = .counted body)
    (fits : r.Fits (build maxBodySize)) (keeps : Keeps σ (entries r.fields)) (fd : Nat)
    (cut : Cut r.wire) :
    (∃ q, HeaderTable.feedReads σ (build maxBodySize) (HeaderTable.httpParserInit fd) cut.reads =
        some (q, 1) ∧ q.parser.req.body = body) ↔
      r.wire.length < STRINGBUF_MAX_CAP := by
  have run := run_wire large word counted fits
  have whole := keeps_wire (build maxBodySize) keeps []
  rw [List.append_nil, ← cut.joined] at whole
  obtain ⟨table, kept⟩ := KeptHeaders.feedReads_kept (build_sane maxBodySize) fd cut.reads whole
  rw [kept]
  constructor
  · rintro ⟨q, accepted, -⟩
    by_contra long
    refine refused_long (build_sane _) run (Nat.not_lt.mp long) fd cut
      (feedReads (build maxBodySize) (httpParserInit fd) cut.reads).1 (Prod.ext rfl ?_)
    exact (Prod.mk.inj (Option.some.inj accepted)).2
  · intro short
    obtain ⟨q, accepted, stored⟩ := received_short (build_sane _) run short fd cut
    rw [accepted]
    refine ⟨_, rfl, ?_⟩
    change q.req.body = body
    rw [stored]
    exact (wire_counted counted).2

theorem contentLength_ne : ascii "Content-Length" ≠ [] := by decide

theorem contentLength_token : ∀ b ∈ ascii "Content-Length", tchar b = true :=
  List.all_eq_true.mp (by decide)

theorem numeral_trimmed {numeral : Bytes} (decimal : ∀ b ∈ numeral, isdigit b = true) :
    Trimmed numeral := trimmed_of_no_space fun b hb => (isdigit_plain (decimal b hb)).1

theorem numeral_bytes {numeral : Bytes} (decimal : ∀ b ∈ numeral, isdigit b = true) :
    ∀ b ∈ numeral, b ≠ CR ∧ b ≠ LF ∧ b ≠ 0 := by
  intro b hb
  have plain := xdigit_plain (digit_plain (decimal b hb)).2
  exact ⟨fun cr => absurd plain.2.1.1 (by rw [cr]; decide), plain.2.2.2.2.2, plain.2.2.2.1⟩

def lengthField (numeral : Bytes) (decimal : ∀ b ∈ numeral, isdigit b = true) : FieldLine where
  name := ascii "Content-Length"
  before := [SP]
  value := numeral
  after := []
  name_ne := contentLength_ne
  name_token := contentLength_token
  before_white := space_white
  after_white := nothing_white
  value_trimmed := numeral_trimmed decimal
  value_bytes := numeral_bytes decimal

theorem lengthField_announces {numeral body : Bytes} (decimal : ∀ b ∈ numeral, isdigit b = true)
    (ne : numeral ≠ []) (value : ofDigits 10 numeral = body.length) :
    (Body.counted body).Announced [lengthField numeral decimal] := by
  have values : contentLengths [lengthField numeral decimal] = [numeral] := by
    have name : lower (ascii "Content-Length") = ascii "content-length" := by decide
    simp [contentLengths, valuesOf, entries, FieldLine.entry, lengthField, name]
  have none : transferEncodings [lengthField numeral decimal] = [] := by
    have name : lower (ascii "Content-Length") ≠ ascii "transfer-encoding" := by decide
    simp [transferEncodings, valuesOf, entries, FieldLine.entry, lengthField, name]
  refine ⟨none, ?_, ?_⟩
  · rw [values]
    exact List.cons_ne_nil _ _
  · rw [values]
    exact List.forall_mem_singleton.mpr ⟨ne, decimal, value⟩

/-- `POST / HTTP/1.1` with a counted body. -/
def post (numeral body : Bytes) (decimal : ∀ b ∈ numeral, isdigit b = true) (ne : numeral ≠ [])
    (value : ofDigits 10 numeral = body.length) : WireRequest where
  method := ascii "POST"
  uri := ascii "/"
  version := ascii "HTTP/1.1"
  fields := [lengthField numeral decimal]
  body := .counted body
  method_visible := post_visible
  uri_visible := slash_visible
  version_visible := http11_visible
  pieces := post_pieces
  announced := lengthField_announces decimal ne value

def abc : WireRequest :=
  post (ascii "3") (ascii "abc") (List.all_eq_true.mp (by decide)) (by decide) (by decide)

theorem body_received_abc :
    (∃ q, HeaderTable.feedReads StbDs.firstSeed (build (2 ^ 27))
        (HeaderTable.httpParserInit 4) (byteCut abc.wire).reads = some (q, 1) ∧
        q.parser.req.body = ascii "abc") ↔
      abc.wire.length < STRINGBUF_MAX_CAP :=
  body_received_iff StbDs.firstSeed (2 ^ 27) (by decide) (by decide) abc (ascii "abc") rfl
    (by decide) (HeaderTable.keeps_distinct (by decide)) 4 (byteCut abc.wire)

/-- A body of `MAX_BODY_SIZE` bytes. -/
def largest : WireRequest :=
  post (ascii "67108864") (List.replicate (2 ^ 26) 0) (List.all_eq_true.mp (by decide)) (by decide)
    (by rw [List.length_replicate]; decide)

theorem largest_fits : largest.Fits (build Limits.default.maxBodySize) := by
  have head : StartFits (build Limits.default.maxBodySize) (ascii "POST") (ascii "/")
      (ascii "HTTP/1.1") := by decide
  have field : (lengthField (ascii "67108864") (List.all_eq_true.mp (by decide))).Fits
      (build Limits.default.maxBodySize) := by decide
  refine ⟨⟨head, List.forall_mem_singleton.mpr field, by decide⟩, ?_⟩
  change (List.replicate (2 ^ 26) (0 : UInt8)).length ≤ _
  rw [List.length_replicate]
  decide

/-- The limit of the default build is out of reach: a body of 64 MiB is refused. -/
theorem body_received_fails :
    ¬ ∀ (σ : UInt64) (maxBodySize : Nat), Limits.default.maxBodySize ≤ maxBodySize →
      maxBodySize < 2 ^ 64 →
      ∀ (r : WireRequest) (body : Bytes), r.body = .counted body → r.Fits (build maxBodySize) →
      ∀ (fd : Nat) (cut : Cut r.wire),
        ∃ q, HeaderTable.feedReads σ (build maxBodySize) (HeaderTable.httpParserInit fd)
          cut.reads = some (q, 1) ∧ q.parser.req.body = body := by
  intro always
  have long : STRINGBUF_MAX_CAP ≤ largest.wire.length := by
    change _ ≤ (largest.head ++ List.replicate (2 ^ 26) 0).length
    rw [List.length_append, List.length_replicate]
    exact Nat.le_add_left _ _
  have run := run_wire (Nat.le_refl _) default_word (r := largest) rfl largest_fits
  obtain ⟨q, accepted, -⟩ := always StbDs.firstSeed Limits.default.maxBodySize
    (Nat.le_refl _) default_word largest _ rfl largest_fits 0 (byteCut largest.wire)
  have keeps : Keeps StbDs.firstSeed (entries largest.fields) :=
    HeaderTable.keeps_distinct (by decide)
  have whole := keeps_wire (build Limits.default.maxBodySize) keeps []
  rw [List.append_nil, ← (byteCut largest.wire).joined] at whole
  obtain ⟨table, kept⟩ := KeptHeaders.feedReads_kept (build_sane _) 0 (byteCut largest.wire).reads
    whole
  rw [kept] at accepted
  have code := (Prod.mk.inj (Option.some.inj accepted)).2
  generalize fed : feedReads (build Limits.default.maxBodySize) (httpParserInit 0)
    (byteCut largest.wire).reads = result at code
  obtain ⟨p, _⟩ := result
  cases code
  exact refused_long (build_sane _) run long 0 (byteCut largest.wire) p fed

end BodyLimit
