import NanoProxy.Segmentation
import NanoProxy.RequestGrammar

/-!
# Well-formed requests are decoded

`Request` carries the proof that it is well formed. `Request.message` is what the
parser has to see, `Request.wire` what a client sends: behind the last chunk there
is one more blank line that the parser never reads.
-/

namespace RequestCodec

open CLib StringBuffer HttpRequestParser RequestDecoder RequestGrammar
open Incremental ParserRefinement Segmentation

def visible (b : UInt8) : Bool := 33 ≤ b && b ≤ 126

/-- The bytes of a token: visible, and none of the separators. -/
def tchar (b : UInt8) : Bool :=
  visible b && !(ascii "\"(),/:;<=>?@[\\]\x7b\x7d").contains b

structure Field where
  name : Bytes
  value : Bytes
  name_token : ∀ b ∈ name, tchar b = true
  name_length : 1 ≤ name.length ∧ name.length ≤ 256
  value_trimmed : Trimmed value
  value_bytes : ∀ b ∈ value, b ≠ CR ∧ b ≠ LF ∧ b ≠ 0
  value_length : value.length ≤ 4096

/-- A chunk with the numeral that announces it. -/
structure Chunk where
  numeral : Bytes
  data : Bytes
  numeral_hex : ∀ b ∈ numeral, isxdigit b = true
  numeral_length : numeral.length < 32
  data_length : 1 ≤ data.length ∧ data.length ≤ 2 ^ 20
  announces : ofDigits 16 numeral = data.length

/-- The last chunk: any run of zeros. -/
structure Zero where
  numeral : Bytes
  numeral_zeros : ∀ b ∈ numeral, b = 48
  numeral_length : 1 ≤ numeral.length ∧ numeral.length < 32

inductive Framing where
  | none
  | counted (body : Bytes)
  | chunked (chunks : List Chunk) (last : Zero)

def Framing.body : Framing → Bytes
  | .none => []
  | .counted body => body
  | .chunked chunks _ => chunks.flatMap Chunk.data

def Chunk.wire (c : Chunk) : Bytes := c.numeral ++ CRLF ++ c.data ++ CRLF

/-- The bytes behind the head, up to the one that completes the message. -/
def Framing.wire : Framing → Bytes
  | .none => []
  | .counted body => body
  | .chunked chunks last => chunks.flatMap Chunk.wire ++ last.numeral ++ CRLF

/-- The blank line that ends an empty trailer section. -/
def Framing.trailer : Framing → Bytes
  | .chunked _ _ => CRLF
  | _ => []

def headerList (fields : List Field) : Headers := fields.map fun f => (f.name, f.value)

/-- The headers announce the body in the way it is sent. -/
def Framing.Announced (hs : Headers) : Framing → Prop
  | .none => ascii "content-length" ∉ keys (table hs) ∧
      ∀ v, (ascii "transfer-encoding", v) ∈ table hs → strcaseeq v (ascii "chunked") = false
  | .counted body => ∃ v, (ascii "content-length", v) ∈ table hs ∧ v ≠ [] ∧
      (∀ b ∈ v, isdigit b = true) ∧ ofDigits 10 v = body.length
  | .chunked _ _ => ascii "content-length" ∉ keys (table hs) ∧
      ∃ v, (ascii "transfer-encoding", v) ∈ table hs ∧ strcaseeq v (ascii "chunked") = true

structure Request where
  method : Bytes
  uri : Bytes
  version : Bytes
  fields : List Field
  framing : Framing
  method_visible : ∀ b ∈ method, visible b = true
  method_length : 1 ≤ method.length ∧ method.length ≤ 16
  uri_visible : ∀ b ∈ uri, visible b = true
  uri_length : 1 ≤ uri.length ∧ uri.length ≤ 4096
  version_visible : ∀ b ∈ version, visible b = true
  version_length : 1 ≤ version.length ∧ version.length ≤ 8
  fields_distinct : (keys (table (headerList fields))).Nodup
  fields_count : fields.length ≤ 128
  announced : framing.Announced (headerList fields)

namespace Request

def head (r : Request) : Bytes := RequestGrammar.head r.method r.uri r.version (headerList r.fields)

def message (r : Request) : Bytes := r.head ++ r.framing.wire

def wire (r : Request) : Bytes := r.message ++ r.framing.trailer

/-- What the parser should make of it. -/
def parsed (r : Request) : HttpRequest where
  method := some r.method
  uri := some r.uri
  version := some r.version
  headers := table (headerList r.fields)
  body := r.framing.body

end Request

theorem visible_ne {b : UInt8} (h : visible b = true) : b ≠ SP ∧ b ≠ 0 ∧ b ≠ LF ∧ b ≠ CR := by
  refine ⟨?_, ?_, ?_, ?_⟩ <;> rintro rfl <;> revert h <;> decide

theorem visible_not_space {b : UInt8} (h : visible b = true) : isspace b = false := by
  have key := forall_byte (p := fun b => !visible b || !isspace b) (by decide +kernel) b
  simpa [h] using key

theorem tchar_visible {b : UInt8} (h : tchar b = true) : visible b = true :=
  (Bool.and_eq_true _ _ ▸ h).1

theorem tchar_ne_colon {b : UInt8} (h : tchar b = true) : b ≠ COLON := by
  rintro rfl
  revert h
  decide

theorem trimmed_of_no_space {s : Bytes} (h : ∀ b ∈ s, isspace b = false) : Trimmed s :=
  ⟨fun b hb => h b (List.mem_of_mem_head? hb), fun b hb => h b (List.mem_of_getLast? hb)⟩

theorem readable_token {lim : Limits} {name value : Bytes} (token : ∀ b ∈ name, tchar b = true)
    (name_ne : name ≠ []) (bytes : (0 : UInt8) ∉ value ∧ LF ∉ value) (trimmed : Trimmed value)
    (fits : name.length ≤ lim.maxHeaderNameSize ∧ value.length ≤ lim.maxHeaderValueSize)
    (line_fits : name.length + value.length + 3 ≤ lim.maxHeaderLineSize) :
    Readable lim name value where
  name_ne := name_ne
  name_bytes := ⟨fun h => tchar_ne_colon (token _ h) rfl,
    fun h => (visible_ne (tchar_visible (token _ h))).2.1 rfl,
    fun h => (visible_ne (tchar_visible (token _ h))).2.2.1 rfl⟩
  name_trimmed := trimmed_of_no_space fun b hb => visible_not_space (tchar_visible (token b hb))
  name_fits := fits.1
  value_bytes := bytes
  value_trimmed := trimmed
  value_fits := fits.2
  line_fits := line_fits

theorem Field.readable (f : Field) : Readable .default f.name f.value := by
  refine readable_token f.name_token (List.length_pos_iff.mp f.name_length.1)
    ⟨fun h => (f.value_bytes _ h).2.2 rfl, fun h => (f.value_bytes _ h).2.1 rfl⟩ f.value_trimmed
    ⟨f.name_length.2, f.value_length⟩ ?_
  have := f.name_length.2
  have := f.value_length
  change _ ≤ 8192
  omega

theorem Request.readable (r : Request) : ReadableStart .default r.method r.uri r.version where
  method_ne := List.length_pos_iff.mp r.method_length.1
  method_bytes := ⟨fun h => (visible_ne (r.method_visible _ h)).1 rfl,
    fun h => (visible_ne (r.method_visible _ h)).2.1 rfl,
    fun h => (visible_ne (r.method_visible _ h)).2.2.1 rfl⟩
  method_fits := r.method_length.2
  uri_ne := List.length_pos_iff.mp r.uri_length.1
  uri_bytes := ⟨fun h => (visible_ne (r.uri_visible _ h)).1 rfl,
    fun h => (visible_ne (r.uri_visible _ h)).2.1 rfl,
    fun h => (visible_ne (r.uri_visible _ h)).2.2.1 rfl⟩
  uri_fits := r.uri_length.2
  version_ne := List.length_pos_iff.mp r.version_length.1
  version_bytes := ⟨fun h => (visible_ne (r.version_visible _ h)).2.1 rfl,
    fun h => (visible_ne (r.version_visible _ h)).2.2.1 rfl⟩
  version_fits := r.version_length.2
  line_fits := by
    have := r.method_length.2
    have := r.uri_length.2
    have := r.version_length.2
    change _ ≤ 8192
    omega

/-- A chunk-size line that holds nothing but its numeral. -/
theorem decodeChunkSize_numeral {lim : Limits} {ds : Bytes} {bodyLen : Nat} (hne : ds ≠ [])
    (hex : ∀ b ∈ ds, isxdigit b = true) (short : ds.length < 32)
    (hval : ofDigits 16 ds ≤ lim.maxChunkSize) (small : lim.maxChunkSize < 2 ^ 64)
    (room : bodyLen + ofDigits 16 ds ≤ lim.maxBodySize) :
    decodeChunkSize lim bodyLen (ds ++ [CR]) = some (ofDigits 16 ds) := by
  have hplain : decodeChunkSize lim bodyLen (ds ++ [] ++ [CR]) = _ :=
    decodeChunkSize_plain hne hex (fun b hb => by cases hb)
  rw [List.append_nil] at hplain
  rw [hplain, if_pos ⟨short, lt_of_le_of_lt hval small, hval, by omega⟩]

theorem run_chunkSize {lim : Limits} {ds : Bytes} {req : HttpRequest} (hne : ds ≠ [])
    (hex : ∀ b ∈ ds, isxdigit b = true) (short : ds.length < 32)
    (hval : ofDigits 16 ds ≤ lim.maxChunkSize) (small : lim.maxChunkSize < 2 ^ 64)
    (room : req.body.length + ofDigits 16 ds ≤ lim.maxBodySize) (rest : Bytes) :
    (decoder lim).run ⟨.chunkSize, req⟩ (ds ++ CRLF ++ rest) =
      match ofDigits 16 ds with
      | 0 => .complete ⟨.finished, req⟩ rest
      | n + 1 => (decoder lim).run ⟨.chunkData (n + 1), req⟩ rest := by
  have hsplit : ds ++ CRLF ++ rest = (ds ++ [CR]) ++ LF :: rest := by simp [CRLF]
  have hlf : LF ∉ ds ++ [CR] := by
    rw [List.mem_append]
    rintro (h | h)
    · exact (xdigit_plain (hex _ h)).2.2.2.2.2 rfl
    · exact absurd h (by decide)
  rw [hsplit, run_sizeLine hlf, decodeChunkSize_numeral hne hex short hval small room]
  cases ofDigits 16 ds <;> rfl

theorem run_chunkData {lim : Limits} {data : Bytes} {req : HttpRequest} (rest : Bytes) :
    (decoder lim).run ⟨.chunkData data.length, req⟩ (data ++ CRLF ++ rest) =
      (decoder lim).run ⟨.chunkSize, { req with body := req.body ++ data }⟩ rest := by
  have hsplit : data ++ CRLF ++ rest = data ++ (CRLF ++ rest) := List.append_assoc _ _ _
  have hm : (decoder lim).step ⟨.chunkData data.length, req⟩ (data ++ (CRLF ++ rest)) =
      .eat (data.length + 2) ⟨.chunkSize, { req with body := req.body ++ data }⟩ := by
    change move lim ⟨.chunkData data.length, req⟩ (data ++ (CRLF ++ rest)) = _
    simp only [move]
    rw [if_neg (by simp [CRLF]), List.drop_left' rfl, List.take_left' (by rfl), if_neg (by simp),
      List.take_left' rfl]
    rfl
  rw [hsplit, Decoder.run_eat hm, ← List.drop_drop, List.drop_left' rfl, List.drop_left' (by rfl)]

theorem Chunk.numeral_ne (c : Chunk) : c.numeral ≠ [] := by
  intro hnil
  have hpos := c.data_length.1
  rw [← c.announces, hnil] at hpos
  exact absurd hpos (by decide)

theorem run_chunks {lim : Limits} (small : 2 ^ 20 ≤ lim.maxChunkSize ∧ lim.maxChunkSize < 2 ^ 64)
    (chunks : List Chunk) (req : HttpRequest)
    (room : req.body.length + (chunks.flatMap Chunk.data).length ≤ lim.maxBodySize) (rest : Bytes) :
    (decoder lim).run ⟨.chunkSize, req⟩ (chunks.flatMap Chunk.wire ++ rest) =
      (decoder lim).run ⟨.chunkSize, { req with body := req.body ++ chunks.flatMap Chunk.data }⟩
        rest := by
  induction chunks generalizing req with
  | nil => simp
  | cons c chunks ih =>
    rw [List.flatMap_cons, List.length_append] at room
    have hsplit : (c :: chunks).flatMap Chunk.wire ++ rest =
        c.numeral ++ CRLF ++ (c.data ++ CRLF ++ (chunks.flatMap Chunk.wire ++ rest)) := by
      simp [Chunk.wire]
    have hlen := c.data_length
    obtain ⟨n, hn⟩ : ∃ n, c.data.length = n + 1 := ⟨c.data.length - 1, by omega⟩
    rw [hsplit, run_chunkSize c.numeral_ne c.numeral_hex c.numeral_length
      (by rw [c.announces]; omega) small.2 (by rw [c.announces]; omega)]
    rw [c.announces, hn]
    dsimp only
    rw [← hn, run_chunkData, ih]
    · simp
    · rw [List.length_append]
      omega

theorem Zero.hex (z : Zero) : ∀ b ∈ z.numeral, isxdigit b = true := by
  intro b hb
  rw [z.numeral_zeros b hb]
  decide

theorem Zero.value (z : Zero) : ofDigits 16 z.numeral = 0 := by
  have key : ∀ ds : Bytes, (∀ b ∈ ds, b = 48) →
      ds.foldl (fun acc b => acc * 16 + digitVal b) 0 = 0 := by
    intro ds
    induction ds with
    | nil => simp
    | cons d ds ih =>
      intro h
      rw [List.foldl_cons, h d List.mem_cons_self]
      exact ih fun b hb => h b (List.mem_cons_of_mem d hb)
  exact key z.numeral z.numeral_zeros

theorem Framing.body_length_le (f : Framing) : f.body.length ≤ f.wire.length := by
  cases f with
  | none => exact Nat.le_refl _
  | counted body => exact Nat.le_refl _
  | chunked chunks last =>
    have key : (chunks.flatMap Chunk.data).length ≤ (chunks.flatMap Chunk.wire).length := by
      induction chunks with
      | nil => simp
      | cons c chunks ih =>
        simp only [List.flatMap_cons, List.length_append, Chunk.wire]
        omega
    simp only [Framing.body, Framing.wire, List.length_append]
    omega

/-- The phase in which the headers of a well-formed request leave the decoder. -/
def Framing.phase : Framing → Phase
  | .none => .finished
  | .counted body => if body.length = 0 then .finished else .counted body.length
  | .chunked _ _ => .chunkSize

theorem decodeFraming_announced {lim : Limits} {hs : Headers} {f : Framing}
    (nodup : (keys (table hs)).Nodup) (h : f.Announced hs) (fits : f.body.length ≤ lim.maxBodySize)
    (small : lim.maxBodySize < 2 ^ 64) : decodeFraming lim (table hs) = some f.phase := by
  unfold decodeFraming
  cases f with
  | none =>
    obtain ⟨hcl, hte⟩ := h
    rw [shget_none hcl]
    cases hg : shget (table hs) (ascii "transfer-encoding") with
    | none => rfl
    | some v =>
      have hv : strcaseeq v (ascii "chunked") = false := hte v (shget_mem hg)
      simp only [hv]
      rfl
  | counted body =>
    obtain ⟨v, hmem, hne, hdigits, hval⟩ := h
    change body.length ≤ _ at fits
    have hnum := strtoull_decimal hne hdigits (by rw [hval]; omega)
    rw [hval] at hnum
    simp only [shget_of_mem nodup hmem, hnum]
    rw [if_pos ⟨trivial, trivial, fits⟩]
    rfl
  | chunked chunks last =>
    obtain ⟨hcl, v, hmem, hv⟩ := h
    simp only [shget_none hcl, shget_of_mem nodup hmem, hv]
    rfl

theorem Request.run_message (r : Request) (fits : r.framing.body.length ≤ Limits.default.maxBodySize)
    (rest : Bytes) :
    (decoder .default).run .start (r.message ++ rest) = .complete ⟨.finished, r.parsed⟩ rest := by
  have hcount : (headerList r.fields).length ≤ Limits.default.maxHeaders := by
    rw [headerList, List.length_map]
    exact r.fields_count
  have hreadable : ∀ h ∈ headerList r.fields, Readable .default h.1 h.2 := by
    intro h hh
    obtain ⟨f, -, rfl⟩ := List.mem_map.mp hh
    exact f.readable
  rw [Request.message, List.append_assoc, Request.head,
    run_head r.readable hreadable r.fields_distinct hcount, afterHead,
    decodeFraming_announced r.fields_distinct r.announced fits (by decide)]
  unfold Request.parsed
  cases hf : r.framing with
  | none => rfl
  | counted body =>
    by_cases h0 : body.length = 0
    · have hnil := List.length_eq_zero_iff.mp h0
      subst hnil
      rfl
    · simp only [Framing.phase, if_neg h0, Framing.wire, Framing.body]
      rw [run_counted _ _ _ _ (by omega), if_pos (by simp)]
      simp
  | chunked chunks last =>
    rw [hf] at fits
    have hsplit : (Framing.chunked chunks last).wire ++ rest =
        chunks.flatMap Chunk.wire ++ (last.numeral ++ CRLF ++ rest) := by simp [Framing.wire]
    simp only [Framing.phase, Framing.body]
    rw [hsplit, run_chunks ⟨by decide, by decide⟩ chunks _ (by simpa [Framing.body] using fits),
      run_chunkSize (List.length_pos_iff.mp last.numeral_length.1) last.hex last.numeral_length.2
        (by rw [last.value]; exact Nat.zero_le _) (by decide)
        (by rw [last.value]; simpa [Framing.body] using fits),
      last.value]
    simp

/-- Every return value of `http_parser_feed`, and the parser behind the last read. -/
def feedEach (lim : Limits) (p : HttpParser) : List Bytes → List Int × HttpParser
  | [] => ([], p)
  | data :: reads =>
    let (p, code) := httpParserFeed lim p data
    let (codes, p) := feedEach lim p reads
    (code :: codes, p)

theorem feedEach_append_zero {lim : Limits} {p : HttpParser} {reads : List Bytes} (last : Bytes)
    (h : (feedReads lim p reads).2 = 0) :
    feedEach lim p (reads ++ [last]) =
      (List.replicate reads.length 0 ++ [(feedReads lim p (reads ++ [last])).2],
        (feedReads lim p (reads ++ [last])).1) := by
  induction reads generalizing p with
  | nil =>
    simp only [List.nil_append, feedEach, feedReads]
    split
    · rename_i heq
      simp [heq]
    · simp
  | cons r reads ih =>
    by_cases h0 : (httpParserFeed lim p r).2 = 0
    · obtain ⟨q, hstep⟩ : ∃ q, httpParserFeed lim p r = (q, 0) := ⟨_, by rw [← h0]⟩
      rw [feedReads_cons_zero hstep] at h
      rw [List.cons_append, feedReads_cons_zero hstep, feedEach, hstep]
      dsimp only
      rw [ih h]
      rfl
    · rw [feedReads_cons_stop h0] at h
      exact absurd h h0

/-- The read that brings the joined length up to `n`. -/
theorem exists_reaching_read {n : Nat} (reads : List Bytes) (pos : 0 < n)
    (h : n ≤ reads.flatten.length) :
    ∃ pre last post, reads = pre ++ last :: post ∧ pre.flatten.length < n ∧
      n ≤ pre.flatten.length + last.length := by
  induction reads generalizing n with
  | nil =>
    simp only [List.flatten_nil, List.length_nil] at h
    omega
  | cons r reads ih =>
    by_cases hr : n ≤ r.length
    · exact ⟨[], r, reads, rfl, pos, by simpa using hr⟩
    · rw [List.flatten_cons, List.length_append] at h
      obtain ⟨pre, last, post, rfl, hpre, hlast⟩ := ih (n := n - r.length) (by omega) (by omega)
      refine ⟨r :: pre, last, post, rfl, ?_, ?_⟩
      · rw [List.flatten_cons, List.length_append]
        omega
      · rw [List.flatten_cons, List.length_append]
        omega

/-- The message lies between the reads before the reaching one and those up to it. -/
theorem split_message {message rest tail last : Bytes} {pre : List Bytes}
    (hjoin : (pre ++ [last]).flatten ++ tail = message ++ rest)
    (hpre : pre.flatten.length < message.length)
    (hlast : message.length ≤ (pre ++ [last]).flatten.length) :
    ∃ e x, message = pre.flatten ++ e ∧ e ≠ [] ∧ (pre ++ [last]).flatten = message ++ x := by
  have hmessage : message <+: message ++ rest := List.prefix_append _ _
  have hfirst : pre.flatten <+: message := by
    refine List.prefix_of_prefix_length_le ⟨last ++ tail, ?_⟩ hmessage hpre.le
    rw [← hjoin]
    simp
  obtain ⟨x, hx⟩ := List.prefix_of_prefix_length_le hmessage ⟨tail, hjoin⟩ hlast
  obtain ⟨e, he⟩ := hfirst
  refine ⟨e, x, he.symm, ?_, hx.symm⟩
  rintro rfl
  rw [← he, List.append_nil] at hpre
  exact lt_irrefl _ hpre

theorem Request.message_pos (r : Request) : 0 < r.message.length := by
  have := r.method_length.1
  simp only [Request.message, Request.head, RequestGrammar.head, requestLineText,
    List.length_append, List.length_cons]
  omega

theorem Request.fits {r : Request} (short : r.wire.length < STRINGBUF_MAX_CAP) :
    r.framing.body.length ≤ Limits.default.maxBodySize := by
  have hle := r.framing.body_length_le
  have hcap : STRINGBUF_MAX_CAP = Limits.default.maxBodySize := by decide
  simp only [Request.wire, Request.message, List.length_append] at short
  omega

/-- Reads that hold less than the message leave the parser waiting. -/
theorem feed_before (fd : Nat) {r : Request} (short : r.wire.length < STRINGBUF_MAX_CAP)
    {s : Bytes} (cut : Cut s) {e : Bytes} (hsplit : r.message = s ++ e) (he : e ≠ []) :
    ∃ t l, ReadsMatch .default fd s (feedReads .default (httpParserInit fd) cut.reads)
      (.pending t l) := by
  have hcomplete := r.run_message (Request.fits short) []
  rw [List.append_nil, hsplit] at hcomplete
  obtain ⟨t, l, hpending⟩ := Decoder.run_prefix_pending hcomplete he
  have hlen : s.length < STRINGBUF_MAX_CAP := by
    have := congrArg List.length hsplit
    rw [Request.wire, List.length_append, this, List.length_append] at short
    omega
  have hmatch := feedReads_cut default_sane fd hlen cut
  rw [hpending] at hmatch
  exact ⟨t, l, hmatch⟩

/-- Reads that reach behind the message complete it. -/
theorem feed_reaching (fd : Nat) {r : Request} (short : r.wire.length < STRINGBUF_MAX_CAP)
    {s : Bytes} (cut : Cut s) (room : s.length < STRINGBUF_MAX_CAP) {x : Bytes}
    (hsplit : s = r.message ++ x) :
    ReadsMatch .default fd s (feedReads .default (httpParserInit fd) cut.reads)
      (.complete ⟨.finished, r.parsed⟩ x) := by
  have hmatch := feedReads_cut default_sane fd room cut
  have hrun : (decoder .default).run .start s = .complete ⟨.finished, r.parsed⟩ x := by
    rw [hsplit]
    exact r.run_message (Request.fits short) x
  rwa [hrun] at hmatch

/-- Every well-formed request is decoded: the reads before the one that completes the
message return 0, that read returns 1, and the parser holds the request. -/
theorem feed_request (fd : Nat) (r : Request) (short : r.wire.length < STRINGBUF_MAX_CAP)
    (cut : Cut r.wire) :
    ∃ pre last post, cut.reads = pre ++ last :: post ∧
      pre.flatten.length < r.message.length ∧
      r.message.length ≤ pre.flatten.length + last.length ∧
      ∃ q, feedEach .default (httpParserInit fd) (pre ++ [last]) =
          (List.replicate pre.length 0 ++ [1], q) ∧ q.req = r.parsed := by
  have hwire : cut.reads.flatten = r.message ++ r.framing.trailer := cut.joined
  have hreach : r.message.length ≤ cut.reads.flatten.length := by
    rw [hwire, List.length_append]
    omega
  obtain ⟨pre, last, post, hreads, hpre, hlast⟩ :=
    exists_reaching_read cut.reads r.message_pos hreach
  refine ⟨pre, last, post, hreads, hpre, hlast, ?_⟩
  have hreads' : cut.reads = (pre ++ [last]) ++ post := by simp [hreads]
  have hjoin : (pre ++ [last]).flatten ++ post.flatten = r.message ++ r.framing.trailer := by
    rw [← hwire, hreads]
    simp
  have hlen : (pre ++ [last]).flatten.length = pre.flatten.length + last.length := by simp
  obtain ⟨e, x, he, hene, hx⟩ := split_message hjoin hpre (by rw [hlen]; exact hlast)
  have hroom : (pre ++ [last]).flatten.length < STRINGBUF_MAX_CAP := by
    have := congrArg List.length hjoin
    rw [List.length_append] at this
    rw [Request.wire, ← this] at short
    omega
  obtain ⟨t, l, hfront⟩ := feed_before fd short (cut.front hreads) he hene
  have hfront' := feed_reaching fd short (cut.front hreads') hroom hx
  have hzero : (feedReads .default (httpParserInit fd) pre).2 = 0 := hfront.1
  have hone : (feedReads .default (httpParserInit fd) (pre ++ [last])).2 = 1 := hfront'.1
  refine ⟨(feedReads .default (httpParserInit fd) (pre ++ [last])).1, ?_, hfront'.2.2.1⟩
  rw [feedEach_append_zero last hzero, hone]

theorem http11_visible : ∀ b ∈ ascii "HTTP/1.1", visible b = true :=
  List.all_eq_true.mp (by decide)

theorem http11_length : 1 ≤ (ascii "HTTP/1.1").length ∧ (ascii "HTTP/1.1").length ≤ 8 := by
  decide

def sampleField : Field where
  name := ascii "Transfer-Encoding"
  value := ascii "chunked"
  name_token := List.all_eq_true.mp (by decide)
  name_length := by decide
  value_trimmed := ⟨by simp [isspace, ascii], by simp [isspace, ascii]⟩
  value_bytes := by simp [ascii, CR, LF]
  value_length := by decide

def sampleChunk : Chunk :=
  ⟨ascii "3", ascii "abc", List.all_eq_true.mp (by decide), by decide, by decide, by decide⟩

def sampleRequest : Request where
  method := ascii "POST"
  uri := ascii "/a"
  version := ascii "HTTP/1.1"
  fields := [sampleField]
  framing := .chunked [sampleChunk] ⟨ascii "0", List.forall_mem_singleton.mpr rfl, by decide⟩
  method_visible := List.all_eq_true.mp (by decide)
  method_length := by decide
  uri_visible := List.all_eq_true.mp (by decide)
  uri_length := by decide
  version_visible := http11_visible
  version_length := http11_length
  fields_distinct := by decide
  fields_count := by decide
  announced := ⟨by decide, ascii "chunked", by decide, by decide⟩

/-- One byte a read. -/
def sampleRequestCut : Cut sampleRequest.wire :=
  ⟨sampleRequest.wire.map fun b => [b], by decide, by decide, by decide⟩

theorem feed_request_sample :
    ∃ pre last post, sampleRequestCut.reads = pre ++ last :: post ∧
      pre.flatten.length < sampleRequest.message.length ∧
      sampleRequest.message.length ≤ pre.flatten.length + last.length ∧
      ∃ q, feedEach .default (httpParserInit 4) (pre ++ [last]) =
          (List.replicate pre.length 0 ++ [1], q) ∧ q.req = sampleRequest.parsed :=
  feed_request 4 sampleRequest (by decide) sampleRequestCut

end RequestCodec
