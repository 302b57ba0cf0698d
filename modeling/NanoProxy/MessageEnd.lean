import NanoProxy.KeptHeaders
import NanoProxy.RequestWire

/-!
# Where the parser takes a message to end

The read that is answered with 1 completes the bytes that the parser reads for a request, and
what it leaves in its buffer is what followed them. A chunked message goes on there: the parser
stops at the line of the last chunk and leaves the blank line behind it.
-/

namespace MessageEnd

open CLib StringBuffer HttpRequestParser RequestDecoder ParserRefinement Segmentation
open RequestGrammar RequestCodec RequestWire AnyReads Incremental
open HeaderTable (TableParser Keeps)
open RequestLines (fieldsOf)

/-- Whatever follows `m` and however the bytes are cut: once a read is answered with 1, all of
`m` was there, and the buffer is left with what followed it. -/
def ConsumesExactly (σ : UInt64) (m : Bytes) : Prop :=
  ∀ (fd : Nat) (rest : Bytes) (front : List Bytes) (last : Bytes) (behind : List Bytes)
    (p q : TableParser), (front ++ last :: behind).flatten = m ++ rest →
    HeaderTable.feedReads σ .default (HeaderTable.httpParserInit fd) front = some (p, 0) →
    HeaderTable.httpParserFeed σ .default p last = some (q, 1) →
    ∃ r, front.flatten ++ last = m ++ r ∧ r <+: rest ∧ q.parser.buffer.data.drop q.parser.pos = r

def IsChunked (r : WireRequest) : Prop := ∃ chunks last, r.body = .chunked chunks last

/-- The end of a message that the parser does not read. -/
def unread (r : WireRequest) : Bytes :=
  match r.body with
  | .chunked _ _ => if r.codingKnown then CRLF else r.body.wire
  | _ => []

theorem wire_eq (r : WireRequest) : r.wire = r.read ++ unread r := by
  rw [WireRequest.wire, WireRequest.read, List.append_assoc]
  congr 1
  rw [unread, WireRequest.bodyRead]
  cases r.body with
  | none => rfl
  | counted body => exact (List.append_nil body).symm
  | chunked chunks last =>
    dsimp only
    split
    · rfl
    · rfl

theorem unread_nil {r : WireRequest} : unread r = [] ↔ ¬ IsChunked r := by
  constructor
  · rintro empty ⟨chunks, last, kind⟩
    rw [unread, kind] at empty
    dsimp only at empty
    split at empty
    · cases empty
    · simp [Body.wire, CRLF] at empty
  · intro plain
    rw [unread]
    cases kind : r.body with
    | none => rfl
    | counted body => rfl
    | chunked chunks last => exact absurd ⟨chunks, last, kind⟩ plain

theorem default_order : Limits.default.maxChunkSize ≤ Limits.default.maxBodySize := by decide

theorem default_word : Limits.default.maxBodySize < 2 ^ 64 := by decide

theorem run_default (r : WireRequest) (rest : Bytes) :
    (decoder .default).run .start (r.read ++ rest) =
      if r.Fits .default then .complete ⟨.finished, r.parsed⟩ rest else .failed :=
  run_request r default_order default_word rest

/-- The fields that are put are those of the head. -/
theorem fieldsOf_wire (lim : Limits) (r : WireRequest) (rest : Bytes) :
    ∃ more, entries r.fields = fieldsOf lim (r.head ++ rest) ++ more := by
  let lines := r.fields.map fun f => f.text ++ [CR]
  have plain : ∀ line ∈ lines, LF ∉ line := by
    intro line hline
    obtain ⟨f, -, rfl⟩ := List.mem_map.mp hline
    exact f.line_one
  have visible_one {s : Bytes} (seen : ∀ b ∈ s, visible b = true) : LF ∉ s := fun lf =>
    (visible_ne (seen _ lf)).2.2.1 rfl
  have one : LF ∉ requestLineText r.method r.uri r.version ++ [CR] := by
    have seps : LF ≠ SP ∧ LF ≠ CR := by decide
    simp [requestLineText, visible_one r.method_visible, visible_one r.uri_visible,
      visible_one r.version_visible, seps]
  have joined : fieldLines r.fields = joinLines lines := by
    rw [fieldLines, joinLines, List.flatMap_map]
    simp [CRLF]
  have split : r.head ++ rest = (requestLineText r.method r.uri r.version ++ [CR]) ++
      LF :: (joinLines lines ++ ([CR] ++ LF :: rest)) := by
    rw [← joined]
    simp [WireRequest.head, CRLF]
  have stored : lines.map lineEntry = entries r.fields := by
    rw [entries, List.map_map]
    exact List.map_congr_left fun f _ => f.line_entry
  rw [split, ← stored]
  exact RequestLines.fieldsOf_head lim one plain (by decide) (by decide)

theorem keeps_wire {σ : UInt64} {r : WireRequest} (lim : Limits)
    (keeps : Keeps σ (entries r.fields)) (rest : Bytes) :
    Keeps σ (fieldsOf lim (r.wire ++ rest)) := by
  obtain ⟨more, split⟩ := fieldsOf_wire lim r (r.body.wire ++ rest)
  rw [split, ← List.append_assoc] at keeps
  exact keeps.append_left

/-- What a read that completes a message completes. -/
theorem accepted_at {r : WireRequest} {fd : Nat} {rest last : Bytes} {front behind : List Bytes}
    {p q : HttpParser} (joined : (front ++ last :: behind).flatten = r.wire ++ rest)
    (waited : feedReads .default (httpParserInit fd) front = (p, 0))
    (accepted : httpParserFeed .default p last = (q, 1)) :
    r.Fits .default ∧ r.read.length < STRINGBUF_MAX_CAP ∧
      ∃ l, front.flatten ++ last = r.read ++ l ∧ l ++ behind.flatten = unread r ++ rest ∧
        q.buffer.data.drop q.pos = l := by
  obtain ⟨s, l, waits⟩ := feedReads_pending default_sane fd waited
  have split : (front ++ last :: behind).flatten = front.flatten ++ last ++ behind.flatten := by simp
  rcases waiting_feed default_sane waits last with code | ⟨_, _, code, _⟩ | ⟨t, l', -, run, done, small⟩
  · rw [accepted] at code
    cases code
  · rw [accepted] at code
    cases code
  rw [accepted] at done
  have whole : (decoder .default).run .start (front.flatten ++ last ++ behind.flatten) =
      .complete t (l' ++ behind.flatten) := by
    rw [Decoder.run_append, run]
    rfl
  have message : front.flatten ++ last ++ behind.flatten = r.read ++ (unread r ++ rest) := by
    rw [← split, joined, wire_eq, List.append_assoc]
  rw [message, run_default] at whole
  by_cases fits : r.Fits .default
  swap
  · rw [if_neg fits] at whole
    cases whole
  rw [if_pos fits] at whole
  have behind_eq : unread r ++ rest = l' ++ behind.flatten := (Outcome.complete.inj whole).2
  rw [behind_eq, ← List.append_assoc] at message
  have taken : front.flatten ++ last = r.read ++ l' := List.append_cancel_right message
  refine ⟨fits, ?_, l', taken, behind_eq.symm, done.rest⟩
  rw [taken, List.length_append] at small
  omega

/-- The same of the table's parser, as long as it keeps its keys. -/
theorem accepted_in_table {σ : UInt64} {r : WireRequest} {fd : Nat} {rest last : Bytes}
    {front behind : List Bytes} {p q : TableParser} (keeps : Keeps σ (entries r.fields))
    (joined : (front ++ last :: behind).flatten = r.wire ++ rest)
    (waited : HeaderTable.feedReads σ .default (HeaderTable.httpParserInit fd) front = some (p, 0))
    (accepted : HeaderTable.httpParserFeed σ .default p last = some (q, 1)) :
    r.Fits .default ∧ r.read.length < STRINGBUF_MAX_CAP ∧
      ∃ l, front.flatten ++ last = r.read ++ l ∧ l ++ behind.flatten = unread r ++ rest ∧
        q.parser.buffer.data.drop q.parser.pos = l := by
  have whole := keeps_wire .default keeps rest
  have split : (front ++ last :: behind).flatten = front.flatten ++ last ++ behind.flatten := by simp
  rw [← joined, split] at whole
  obtain ⟨waited', table, fed⟩ :=
    KeptHeaders.feed_after default_sane (KeptHeaders.keeps_before whole) waited
  rw [accepted] at fed
  obtain ⟨same, code⟩ := Prod.mk.inj (Option.some.inj fed)
  exact accepted_at joined waited' (Prod.ext (congrArg TableParser.parser same).symm code.symm)

/-- A message that is read to its end is consumed exactly. -/
theorem consumes_plain {σ : UInt64} {r : WireRequest} (keeps : Keeps σ (entries r.fields))
    (plain : ¬ IsChunked r) : ConsumesExactly σ r.wire := by
  intro fd rest front last behind p q joined waited accepted
  obtain ⟨-, -, l, taken, left, kept⟩ := accepted_in_table keeps joined waited accepted
  rw [unread_nil.mpr plain, List.nil_append] at left
  refine ⟨l, ?_, ⟨behind.flatten, left⟩, kept⟩
  rw [taken, wire_eq, unread_nil.mpr plain, List.append_nil]

theorem read_ne (r : WireRequest) : r.read ≠ [] := by
  intro empty
  have start : r.method = [] := by
    simp [WireRequest.read, WireRequest.head, requestLineText] at empty
  exact r.pieces.1 start

/-- One byte a read. -/
def byteReads (s : Bytes) : List Bytes := s.map fun b => [b]

theorem byteReads_flatten (s : Bytes) : (byteReads s).flatten = s := by
  induction s with
  | nil => rfl
  | cons b s ih => exact congrArg (b :: ·) ih

def byteCut (s : Bytes) : Cut s where
  reads := byteReads s
  nonempty r hr := by
    obtain ⟨b, -, rfl⟩ := List.mem_map.mp hr
    exact List.cons_ne_nil b []
  bounded r hr := by
    obtain ⟨b, -, rfl⟩ := List.mem_map.mp hr
    exact (by decide : 1 ≤ MAX_MSG_SIZE)
  joined := byteReads_flatten s

/-- Fed byte by byte, a message is accepted at the last byte that the parser reads. -/
theorem accepted_at_read {r : WireRequest} (fits : r.Fits .default)
    (short : r.read.length < STRINGBUF_MAX_CAP) :
    ∃ front last p q, front.flatten ++ last = r.read ∧
      feedReads .default (httpParserInit 0) front = (p, 0) ∧
      httpParserFeed .default p last = (q, 1) := by
  obtain ⟨s, b, split⟩ : ∃ s b, r.read = s ++ [b] :=
    ⟨_, _, (List.dropLast_append_getLast (read_ne r)).symm⟩
  have run : (decoder .default).run .start (s ++ [b]) = .complete ⟨.finished, r.parsed⟩ [] := by
    rw [← split, ← List.append_nil r.read, run_default, if_pos fits]
  obtain ⟨t, l, pending⟩ := Decoder.run_prefix_pending run (List.cons_ne_nil b [])
  have length : s.length + 1 = r.read.length := by rw [split, List.length_append]; rfl
  have before := feedReads_cut default_sane 0 (s := s) (by omega) (byteCut s)
  rw [pending] at before
  have whole := feedReads_cut default_sane 0 (s := s ++ [b]) (by rw [← split]; exact short)
    (byteCut (s ++ [b]))
  rw [run] at whole
  obtain ⟨p, waited⟩ : ∃ p, feedReads .default (httpParserInit 0) (byteReads s) = (p, 0) :=
    ⟨_, Prod.ext rfl before.1⟩
  have step : feedReads .default (httpParserInit 0) (byteReads (s ++ [b])) =
      httpParserFeed .default p [b] := by
    rw [byteReads, List.map_append]
    exact (feedReads_append_zero waited [[b]]).trans (feedReads_single _ _ _)
  refine ⟨byteReads s, [b], p, (httpParserFeed .default p [b]).1, ?_, waited, ?_⟩
  · rw [byteReads_flatten, split]
  · have code : (feedReads .default (httpParserInit 0) (byteReads (s ++ [b]))).2 = 1 := whole.1
    rw [step] at code
    exact Prod.ext rfl code

/-- The end of a chunked message stays behind. -/
theorem leaves_end {σ : UInt64} {r : WireRequest} (keeps : Keeps σ (entries r.fields))
    (chunked : IsChunked r) (fits : r.Fits .default) (short : r.read.length < STRINGBUF_MAX_CAP) :
    ¬ ConsumesExactly σ r.wire := by
  intro exactly
  obtain ⟨front, last, p, q, taken, waited, accepted⟩ := accepted_at_read fits short
  have joined : (front ++ last :: [unread r]).flatten = r.wire ++ [] := by
    rw [List.append_nil, wire_eq, ← taken]
    simp
  have whole := keeps_wire .default keeps []
  have split : r.wire ++ [] = front.flatten ++ last ++ unread r := by
    rw [List.append_nil, wire_eq, taken]
  rw [split] at whole
  have prior := KeptHeaders.keeps_before (KeptHeaders.keeps_before whole)
  obtain ⟨table, waited'⟩ := KeptHeaders.feedReads_kept default_sane 0 front prior
  rw [waited] at waited'
  obtain ⟨-, table', accepted'⟩ :=
    KeptHeaders.feed_after default_sane (KeptHeaders.keeps_before whole) waited'
  rw [accepted] at accepted'
  obtain ⟨l, all, -⟩ := exactly 0 [] front last [unread r] _ _ joined waited' accepted'
  have length := congrArg List.length all
  rw [taken, wire_eq, List.length_append, List.length_append] at length
  have empty : unread r = [] := List.length_eq_zero_iff.mp (by omega)
  exact unread_nil.mp empty chunked

/-- Where the table keeps its keys, exactly the chunked messages that the parser accepts are left
with their end unread. -/
theorem consumesExactly_iff (σ : UInt64) (r : WireRequest) (keeps : Keeps σ (entries r.fields)) :
    ConsumesExactly σ r.wire ↔
      ¬ IsChunked r ∨ ¬ r.Fits .default ∨ STRINGBUF_MAX_CAP ≤ r.read.length := by
  constructor
  · intro exactly
    by_contra none
    rw [not_or, not_or, not_not, not_not, Nat.not_le] at none
    exact leaves_end keeps none.1 none.2.1 none.2.2 exactly
  · rintro (plain | unfit | long)
    · exact consumes_plain keeps plain
    · intro fd rest front last behind p q joined waited accepted
      exact absurd (accepted_in_table keeps joined waited accepted).1 unfit
    · intro fd rest front last behind p q joined waited accepted
      exact absurd (accepted_in_table keeps joined waited accepted).2.1 (Nat.not_lt.mpr long)

theorem transferEncoding_ne : ascii "Transfer-Encoding" ≠ [] := by decide

def chunkedField : FieldLine where
  name := ascii "Transfer-Encoding"
  before := [SP]
  value := ascii "chunked"
  after := []
  name_ne := transferEncoding_ne
  name_token := sampleField.name_token
  before_white := space_white
  after_white := nothing_white
  value_trimmed := sampleField.value_trimmed
  value_bytes := sampleField.value_bytes

theorem zero_ne : ascii "0" ≠ [] := by decide

theorem zero_hex : ∀ b ∈ ascii "0", isxdigit b = true :=
  List.forall_mem_singleton.mpr (by decide)

theorem no_extension_start : ∀ b, ([] : Bytes).head? = some b → b = SEMI := nofun

theorem no_extension_bytes : ∀ b ∈ ([] : Bytes), b ≠ CR ∧ b ≠ LF := List.forall_mem_nil _

theorem zero_size : ofDigits 16 (ascii "0") = 0 := by decide

def zeroLine : LastLine where
  digits := ascii "0"
  extension := []
  digits_ne := zero_ne
  digits_hex := zero_hex
  extension_start := no_extension_start
  extension_bytes := no_extension_bytes
  zero := zero_size

theorem chunkedField_announces : (Body.chunked [] zeroLine).Announced [chunkedField] :=
  ⟨by decide, ascii "chunked", by decide, by decide⟩

/-- `POST / HTTP/1.1`, `Transfer-Encoding: chunked`, and a body of no bytes. -/
def emptyChunked : WireRequest where
  method := ascii "POST"
  uri := ascii "/"
  version := ascii "HTTP/1.1"
  fields := [chunkedField]
  body := .chunked [] zeroLine
  method_visible := post_visible
  uri_visible := slash_visible
  version_visible := http11_visible
  pieces := post_pieces
  announced := chunkedField_announces

theorem consumesExactly_chunked :
    ConsumesExactly StbDs.firstSeed emptyChunked.wire ↔
      ¬ IsChunked emptyChunked ∨ ¬ emptyChunked.Fits .default ∨
        STRINGBUF_MAX_CAP ≤ emptyChunked.read.length :=
  consumesExactly_iff StbDs.firstSeed emptyChunked (HeaderTable.keeps_distinct (by decide))

theorem consumesExactly_fails : ¬ ∀ (σ : UInt64) (r : WireRequest), ConsumesExactly σ r.wire :=
  fun exactly => leaves_end (r := emptyChunked) (HeaderTable.keeps_distinct (by decide))
    ⟨[], zeroLine, rfl⟩ (by decide) (by decide) (exactly StbDs.firstSeed emptyChunked)

end MessageEnd
