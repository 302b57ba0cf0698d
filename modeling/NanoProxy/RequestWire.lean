import NanoProxy.RequestCodec

/-!
# Requests as clients may write them

`RequestCodec.Request` is written in one way. Here a header may repeat, its value may stand
between spaces and tabs, a chunk-size line may carry an extension, and nothing has a largest
length: `WireRequest.Fits` says which requests the limits of a build admit.
-/

namespace RequestWire

open CLib HttpRequestParser RequestDecoder RequestGrammar RequestCodec Incremental

/-- The optional white space of a header line. -/
def ows (b : UInt8) : Bool := b == 32 || b == 9

structure FieldLine where
  name : Bytes
  before : Bytes
  value : Bytes
  after : Bytes
  name_ne : name ≠ []
  name_token : ∀ b ∈ name, tchar b = true
  before_white : ∀ b ∈ before, ows b = true
  after_white : ∀ b ∈ after, ows b = true
  value_trimmed : Trimmed value
  value_bytes : ∀ b ∈ value, b ≠ CR ∧ b ≠ LF ∧ b ≠ 0

/-- The line without its terminator. -/
def FieldLine.text (f : FieldLine) : Bytes := f.name ++ COLON :: (f.before ++ (f.value ++ f.after))

/-- What the table is given for the line. -/
def FieldLine.entry (f : FieldLine) : Bytes × Bytes := (lower f.name, f.value)

def FieldLine.Fits (lim : Limits) (f : FieldLine) : Prop :=
  f.text.length < lim.maxHeaderLineSize ∧ f.name.length ≤ lim.maxHeaderNameSize ∧
    f.value.length ≤ lim.maxHeaderValueSize

instance (lim : Limits) (f : FieldLine) : Decidable (f.Fits lim) :=
  inferInstanceAs (Decidable (_ ∧ _))

/-- A chunk-size line: a hexadecimal numeral, and an extension behind a semicolon or nothing. -/
structure SizeLine where
  digits : Bytes
  extension : Bytes
  digits_ne : digits ≠ []
  digits_hex : ∀ b ∈ digits, isxdigit b = true
  extension_start : ∀ b, extension.head? = some b → b = SEMI
  extension_bytes : ∀ b ∈ extension, b ≠ CR ∧ b ≠ LF

namespace SizeLine

def text (z : SizeLine) : Bytes := z.digits ++ z.extension

def size (z : SizeLine) : Nat := ofDigits 16 z.digits

end SizeLine

structure ChunkWire where
  line : SizeLine
  data : Bytes
  data_ne : data ≠ []
  announces : line.size = data.length

def ChunkWire.wire (c : ChunkWire) : Bytes := c.line.text ++ CRLF ++ (c.data ++ CRLF)

structure LastLine extends SizeLine where
  zero : toSizeLine.size = 0

inductive Body where
  | none
  | counted (body : Bytes)
  | chunked (chunks : List ChunkWire) (last : LastLine)

def entries (fields : List FieldLine) : List (Bytes × Bytes) := fields.map FieldLine.entry

def contentLengths (fields : List FieldLine) : List Bytes :=
  valuesOf (entries fields) (ascii "content-length")

def transferEncodings (fields : List FieldLine) : List Bytes :=
  valuesOf (entries fields) (ascii "transfer-encoding")

/-- The last element of a list of transfer codings. -/
def lastCoding (value : Bytes) : Bytes := trim (value.rtakeWhile (· != 44))

/-- The headers announce the body in the way it is sent. -/
def Body.Announced (fields : List FieldLine) : Body → Prop
  | .none => contentLengths fields = [] ∧ transferEncodings fields = []
  | .counted body => transferEncodings fields = [] ∧ contentLengths fields ≠ [] ∧
      ∀ v ∈ contentLengths fields,
        v ≠ [] ∧ (∀ b ∈ v, isdigit b = true) ∧ ofDigits 10 v = body.length
  | .chunked _ _ => contentLengths fields = [] ∧
      ∃ v, (transferEncodings fields).getLast? = some v ∧
        strcaseeq (lastCoding v) (ascii "chunked") = true

structure WireRequest where
  method : Bytes
  uri : Bytes
  version : Bytes
  fields : List FieldLine
  body : Body
  method_visible : ∀ b ∈ method, visible b = true
  uri_visible : ∀ b ∈ uri, visible b = true
  version_visible : ∀ b ∈ version, visible b = true
  pieces : method ≠ [] ∧ uri ≠ [] ∧ version ≠ []
  announced : body.Announced fields

def fieldLines (fields : List FieldLine) : Bytes := fields.flatMap fun f => f.text ++ CRLF

/-- The bytes behind the head. -/
def Body.wire : Body → Bytes
  | .none => []
  | .counted body => body
  | .chunked chunks last => chunks.flatMap ChunkWire.wire ++ last.text ++ CRLF ++ CRLF

namespace WireRequest

variable (r : WireRequest)

def head : Bytes := requestLineText r.method r.uri r.version ++ CRLF ++ (fieldLines r.fields ++ CRLF)

/-- The whole message. -/
def wire : Bytes := r.head ++ r.body.wire

/-- The one coding that the parser knows is the whole value of the last header. -/
def codingKnown : Bool :=
  match (transferEncodings r.fields).getLast? with
  | some v => strcaseeq v (ascii "chunked")
  | none => false

/-- The bytes behind the head that the parser reads. -/
def bodyRead : Bytes :=
  match r.body with
  | .none => []
  | .counted body => body
  | .chunked chunks last =>
    if r.codingKnown then chunks.flatMap ChunkWire.wire ++ last.text ++ CRLF else []

def read : Bytes := r.head ++ r.bodyRead

/-- The body as the parser stores it. -/
def stored : Bytes :=
  match r.body with
  | .none => []
  | .counted body => body
  | .chunked chunks _ => if r.codingKnown then chunks.flatMap ChunkWire.data else []

def parsed : HttpRequest where
  method := some r.method
  uri := some r.uri
  version := some r.version
  headers := shputAll [] (entries r.fields)
  body := r.stored

def HeadFits (lim : Limits) : Prop :=
  StartFits lim r.method r.uri r.version ∧ (∀ f ∈ r.fields, f.Fits lim) ∧
    (shputAll [] (entries r.fields)).length ≤ lim.maxHeaders

end WireRequest

def ChunksFit (lim : Limits) (bodyLen : Nat) (chunks : List ChunkWire) (last : LastLine) : Prop :=
  (∀ c ∈ chunks, c.line.text.length < 32 ∧ c.data.length ≤ lim.maxChunkSize) ∧
    last.text.length < 32 ∧
    bodyLen + (chunks.flatMap ChunkWire.data).length ≤ lim.maxBodySize

instance (lim : Limits) (bodyLen : Nat) (chunks : List ChunkWire) (last : LastLine) :
    Decidable (ChunksFit lim bodyLen chunks last) := inferInstanceAs (Decidable (_ ∧ _))

namespace WireRequest

variable (lim : Limits) (r : WireRequest)

def BodyFits : Prop :=
  match r.body with
  | .none => True
  | .counted body => body.length ≤ lim.maxBodySize
  | .chunked chunks last => r.codingKnown = true → ChunksFit lim 0 chunks last

def Fits : Prop := r.HeadFits lim ∧ r.BodyFits lim

instance : Decidable (r.HeadFits lim) := inferInstanceAs (Decidable (_ ∧ _))

instance : Decidable (r.BodyFits lim) :=
  match h : r.body with
  | .none => .isTrue (by simp only [BodyFits, h])
  | .counted body =>
    decidable_of_iff (body.length ≤ lim.maxBodySize) (by simp only [BodyFits, h])
  | .chunked chunks last =>
    decidable_of_iff (r.codingKnown = true → ChunksFit lim 0 chunks last)
      (by simp only [BodyFits, h])

instance : Decidable (r.Fits lim) := inferInstanceAs (Decidable (_ ∧ _))

end WireRequest

theorem ows_space {b : UInt8} (white : ows b = true) : isspace b = true ∧ b ≠ LF ∧ b ≠ 0 := by
  have key := forall_byte (p := fun b => !ows b || (isspace b && b != LF && b != 0))
    (by decide +kernel) b
  simpa [white, and_assoc] using key

namespace FieldLine

variable (f : FieldLine)

theorem name_plain : COLON ∉ f.name ∧ (0 : UInt8) ∉ f.name ∧ LF ∉ f.name :=
  ⟨fun h => tchar_ne_colon (f.name_token _ h) rfl,
    fun h => (visible_ne (tchar_visible (f.name_token _ h))).2.1 rfl,
    fun h => (visible_ne (tchar_visible (f.name_token _ h))).2.2.1 rfl⟩

theorem name_trimmed : Trimmed f.name :=
  trimmed_of_no_space fun b hb => visible_not_space (tchar_visible (f.name_token b hb))

theorem line_one : LF ∉ f.text ++ [CR] := by
  intro h
  rw [text, List.mem_append, List.mem_append, List.mem_cons, List.mem_append, List.mem_append,
    List.mem_singleton] at h
  rcases h with (h | h | h | h | h) | h
  · exact f.name_plain.2.2 h
  · exact absurd h (by decide)
  · exact (ows_space (f.before_white _ h)).2.1 rfl
  · exact (f.value_bytes _ h).2.1 rfl
  · exact (ows_space (f.after_white _ h)).2.1 rfl
  · exact absurd h (by decide)

theorem line_nonblank : chomp (f.text ++ [CR]) ≠ [] := by
  rw [chomp_crlf, text]
  exact List.append_ne_nil_of_left_ne_nil f.name_ne _

theorem line_fields :
    fieldName (f.text ++ [CR]) = f.name ∧ fieldValue (f.text ++ [CR]) = f.value := by
  have whole : f.text ++ [CR] = f.name ++ COLON :: (f.before ++ (f.value ++ (f.after ++ [CR]))) := by
    simp [text]
  have behind : ∀ b ∈ f.after ++ [CR], isspace b = true := by
    intro b hb
    rcases List.mem_append.mp hb with white | last
    · exact (ows_space (f.after_white b white)).1
    · rw [List.mem_singleton.mp last]
      decide
  rw [whole]
  exact field_padded f.name_plain.1 f.name_trimmed
    (fun b hb => (ows_space (f.before_white b hb)).1) behind f.value_trimmed

theorem line_entry : lineEntry (f.text ++ [CR]) = f.entry := by
  rw [lineEntry, f.line_fields.1, f.line_fields.2, cstr_eq_self f.name_plain.2.1,
    cstr_eq_self fun h => (f.value_bytes _ h).2.2 rfl]
  rfl

theorem line_fits (lim : Limits) : LineFits lim (f.text ++ [CR]) ↔ f.Fits lim := by
  have length : (f.text ++ [CR]).length = f.text.length + 1 := List.length_append
  rw [LineFits, f.line_fields.1, f.line_fields.2, length]
  constructor
  · rintro ⟨short, -, ⟨-, name⟩, value⟩
    exact ⟨short, name, value⟩
  · rintro ⟨short, name, value⟩
    exact ⟨short, by simp [text], ⟨List.length_pos_iff.mpr f.name_ne, name⟩, value⟩

end FieldLine

theorem SizeLine.line_one (z : SizeLine) : LF ∉ z.text ++ [CR] := by
  intro h
  rw [text, List.mem_append, List.mem_append, List.mem_singleton] at h
  rcases h with (h | h) | h
  · exact (xdigit_plain (z.digits_hex _ h)).2.2.2.2.2 rfl
  · exact (z.extension_bytes _ h).2 rfl
  · exact absurd h (by decide)

section Runs

variable {lim : Limits}

theorem run_fields (fields : List FieldLine) (req : HttpRequest)
    (count : req.headers.length ≤ lim.maxHeaders) (rest : Bytes) :
    (decoder lim).run ⟨.headers, req⟩ (fieldLines fields ++ rest) =
      if (∀ f ∈ fields, f.Fits lim) ∧
          (shputAll req.headers (entries fields)).length ≤ lim.maxHeaders
      then (decoder lim).run
        ⟨.headers, { req with headers := shputAll req.headers (entries fields) }⟩ rest
      else .failed := by
  let lines := fields.map fun f => f.text ++ [CR]
  have plain : ∀ line ∈ lines, LF ∉ line ∧ chomp line ≠ [] := by
    intro line hline
    obtain ⟨f, -, rfl⟩ := List.mem_map.mp hline
    exact ⟨f.line_one, f.line_nonblank⟩
  have joined : fieldLines fields = joinLines lines := by
    rw [fieldLines, joinLines, List.flatMap_map]
    simp [CRLF]
  have stored : lines.map lineEntry = entries fields := by
    rw [entries, List.map_map]
    exact List.map_congr_left fun f _ => f.line_entry
  have fits : (∀ line ∈ lines, LineFits lim line) ↔ ∀ f ∈ fields, f.Fits lim := by
    rw [List.forall_mem_map]
    exact forall₂_congr fun f _ => f.line_fits lim
  rw [joined, run_lines lines plain req count, stored]
  exact if_congr (and_congr_left fun _ => fits) rfl rfl

theorem run_head (r : WireRequest) (rest : Bytes) :
    (decoder lim).run .start (r.head ++ rest) =
      if r.HeadFits lim
      then afterHead lim { r.parsed with body := [] } rest else .failed := by
  have plain {s : Bytes} (seen : ∀ b ∈ s, visible b = true) :
      SP ∉ s ∧ (0 : UInt8) ∉ s ∧ LF ∉ s :=
    ⟨fun h => (visible_ne (seen _ h)).1 rfl, fun h => (visible_ne (seen _ h)).2.1 rfl,
      fun h => (visible_ne (seen _ h)).2.2.1 rfl⟩
  have method := plain r.method_visible
  have uri := plain r.uri_visible
  have version := plain r.version_visible
  have one : LF ∉ requestLineText r.method r.uri r.version ++ [CR] := by
    have seps : LF ≠ SP ∧ LF ≠ CR := by decide
    simp [requestLineText, method.2.2, uri.2.2, version.2.2, seps]
  have split : r.head ++ rest = (requestLineText r.method r.uri r.version ++ [CR]) ++
      LF :: (fieldLines r.fields ++ (CRLF ++ rest)) := by
    simp [WireRequest.head, CRLF]
  rw [split, run_startLine one,
    decodeRequestLine_plain ⟨method.1, method.2.1⟩ ⟨uri.1, uri.2.1⟩ version.2.1]
  by_cases start : StartFits lim r.method r.uri r.version
  · rw [if_pos start]
    dsimp only
    rw [run_fields _ _ (Nat.zero_le _)]
    have room : 0 < lim.maxHeaderLineSize := by
      have := start.1
      omega
    rw [run_blank room]
    refine if_congr ?_ rfl rfl
    exact ⟨fun h => ⟨start, h⟩, fun h => h.2⟩
  · rw [if_neg start, if_neg fun h => start h.1]

theorem decode_size {bodyLen : Nat} (z : SizeLine) (word : lim.maxChunkSize < 2 ^ 64)
    (order : lim.maxChunkSize ≤ lim.maxBodySize) :
    decodeChunkSize lim bodyLen (z.text ++ [CR]) =
      if z.text.length < 32 ∧ z.size ≤ lim.maxChunkSize ∧ bodyLen + z.size ≤ lim.maxBodySize
      then some z.size else none := by
  rw [SizeLine.text, decodeChunkSize_plain z.digits_ne z.digits_hex z.extension_start]
  refine if_congr ?_ rfl rfl
  change _ ∧ z.size < 2 ^ 64 ∧ z.size ≤ _ ∧ bodyLen ≤ _ - z.size ↔ _
  omega

/-- The chunks of a body, up to the line of the last one. -/
theorem run_chunkWires (word : lim.maxChunkSize < 2 ^ 64)
    (order : lim.maxChunkSize ≤ lim.maxBodySize) (chunks : List ChunkWire) (last : LastLine)
    (req : HttpRequest) (rest : Bytes) :
    (decoder lim).run ⟨.chunkSize, req⟩
        (chunks.flatMap ChunkWire.wire ++ last.text ++ CRLF ++ rest) =
      if ChunksFit lim req.body.length chunks last
      then .complete ⟨.finished, { req with body := req.body ++ chunks.flatMap ChunkWire.data }⟩ rest
      else .failed := by
  induction chunks generalizing req with
  | nil =>
    have split : ([] : List ChunkWire).flatMap ChunkWire.wire ++ last.text ++ CRLF ++ rest =
        (last.text ++ [CR]) ++ LF :: rest := by simp [CRLF]
    rw [split, run_sizeLine last.line_one, decode_size last.toSizeLine word order, last.zero]
    by_cases fits : last.text.length < 32 ∧ req.body.length ≤ lim.maxBodySize
    · rw [if_pos ⟨fits.1, Nat.zero_le _, fits.2⟩, if_pos]
      · simp
      · exact ⟨fun c hc => absurd hc List.not_mem_nil, fits.1, fits.2⟩
    · rw [if_neg fun h => fits ⟨h.1, h.2.2⟩, if_neg fun h => fits ⟨h.2.1, h.2.2⟩]
  | cons c chunks ih =>
    have split : (c :: chunks).flatMap ChunkWire.wire ++ last.text ++ CRLF ++ rest =
        (c.line.text ++ [CR]) ++ LF :: (c.data ++ CRLF ++
          (chunks.flatMap ChunkWire.wire ++ last.text ++ CRLF ++ rest)) := by
      simp [ChunkWire.wire, CRLF]
    have total : ((c :: chunks).flatMap ChunkWire.data).length =
        c.data.length + (chunks.flatMap ChunkWire.data).length := by
      rw [List.flatMap_cons, List.length_append]
    obtain ⟨n, hn⟩ : ∃ n, c.data.length = n + 1 :=
      Nat.exists_eq_succ_of_ne_zero fun h => c.data_ne (List.length_eq_zero_iff.mp h)
    rw [split, run_sizeLine c.line.line_one, decode_size c.line word order, c.announces]
    by_cases fits : c.line.text.length < 32 ∧ c.data.length ≤ lim.maxChunkSize ∧
        req.body.length + c.data.length ≤ lim.maxBodySize
    · rw [if_pos fits, hn]
      dsimp only
      rw [← hn, run_chunkData, ih]
      refine if_congr ?_ (by simp) rfl
      unfold ChunksFit
      rw [List.forall_mem_cons, total, List.length_append, Nat.add_assoc]
      exact and_congr_left fun _ => ⟨fun h => ⟨⟨fits.1, fits.2.1⟩, h⟩, fun h => h.2⟩
    · rw [if_neg fits, if_neg]
      rintro ⟨each, -, whole⟩
      have here := each c List.mem_cons_self
      rw [total] at whole
      exact fits ⟨here.1, here.2, by omega⟩

theorem strtoull_announced {v : Bytes} (ne : v ≠ []) (decimal : ∀ b ∈ v, isdigit b = true) :
    strtoull v 10 = if 2 ^ 64 ≤ ofDigits 10 v then ⟨2 ^ 64 - 1, [], true⟩
      else ⟨ofDigits 10 v, [], false⟩ :=
  strtoull_plain ne (fun b hb => (digit_plain (decimal b hb)).1)
    (fun b hb => (xdigit_plain (digit_plain (decimal b hb)).2).2.1)
    (fun b hb => (xdigit_plain (digit_plain (decimal b hb)).2).2.2.1)

/-- The headers of a well-formed request lead to its body, if that is not too long. -/
theorem framing_counted {fields : List FieldLine} {body : Bytes} (word : lim.maxBodySize < 2 ^ 64)
    (announced : (Body.counted body).Announced fields) :
    decodeFraming lim (shputAll [] (entries fields)) =
      if body.length ≤ lim.maxBodySize
      then some (if body.length = 0 then .finished else .counted body.length) else none := by
  obtain ⟨-, present, each⟩ := announced
  obtain ⟨ne, decimal, value⟩ := each _ (List.getLast_mem present)
  have stored : shget (shputAll [] (entries fields)) (ascii "content-length") =
      some ((contentLengths fields).getLast present) := by
    rw [shget_shputAll_nil]
    exact List.getLast?_eq_some_getLast present
  unfold decodeFraming
  simp only [stored, strtoull_announced ne decimal, value]
  by_cases big : 2 ^ 64 ≤ body.length
  · rw [if_pos big, if_neg, if_neg (by omega)]
    rintro ⟨range, -⟩
    cases range
  · rw [if_neg big]
    exact if_congr ⟨fun h => h.2.2, fun h => ⟨rfl, rfl, h⟩⟩ rfl rfl

theorem framing_chunked {r : WireRequest} (none : contentLengths r.fields = []) :
    decodeFraming lim (shputAll [] (entries r.fields)) =
      some (if r.codingKnown then .chunkSize else .finished) := by
  have length : shget (shputAll [] (entries r.fields)) (ascii "content-length") = Option.none := by
    rw [shget_shputAll_nil]
    exact congrArg List.getLast? none
  unfold decodeFraming WireRequest.codingKnown transferEncodings
  simp only [length, shget_shputAll_nil]
  cases (valuesOf (entries r.fields) (ascii "transfer-encoding")).getLast? with
  | none => rfl
  | some v =>
    dsimp only
    split <;> rfl

/-- What the decoder makes of a request that something else follows. -/
theorem run_request (r : WireRequest) (order : lim.maxChunkSize ≤ lim.maxBodySize)
    (word : lim.maxBodySize < 2 ^ 64) (rest : Bytes) :
    (decoder lim).run .start (r.read ++ rest) =
      if r.Fits lim then .complete ⟨.finished, r.parsed⟩ rest else .failed := by
  rw [WireRequest.read, List.append_assoc, run_head]
  by_cases head : r.HeadFits lim
  swap
  · rw [if_neg head, if_neg fun h => head h.1]
  have fits : r.Fits lim ↔ r.BodyFits lim := ⟨fun h => h.2, fun h => ⟨head, h⟩⟩
  have announced := r.announced
  rw [if_pos head, if_congr fits rfl rfl, afterHead]
  cases kind : r.body with
  | none =>
    rw [kind] at announced
    have known : r.codingKnown = false := by
      rw [WireRequest.codingKnown, announced.2]
      rfl
    have read : r.bodyRead = [] := by rw [WireRequest.bodyRead, kind]
    have stored : r.stored = [] := by rw [WireRequest.stored, kind]
    rw [if_pos (by simp only [WireRequest.BodyFits, kind])]
    simp only [WireRequest.parsed, framing_chunked announced.1, known, read, stored]
    rfl
  | counted body =>
    rw [kind] at announced
    have read : r.bodyRead = body := by rw [WireRequest.bodyRead, kind]
    have stored : r.stored = body := by rw [WireRequest.stored, kind]
    have short : r.BodyFits lim ↔ body.length ≤ lim.maxBodySize := by
      simp only [WireRequest.BodyFits, kind]
    rw [if_congr short rfl rfl]
    simp only [WireRequest.parsed, framing_counted word announced, read, stored]
    by_cases small : body.length ≤ lim.maxBodySize
    · rw [if_pos small, if_pos small]
      by_cases empty : body.length = 0
      · rw [if_pos empty, List.length_eq_zero_iff.mp empty]
        rfl
      · rw [if_neg empty]
        dsimp only
        rw [run_counted _ _ _ _ (Nat.pos_of_ne_zero empty), if_pos (by simp)]
        simp
    · rw [if_neg small, if_neg small]
  | chunked chunks last =>
    rw [kind] at announced
    by_cases known : r.codingKnown = true
    · have read : r.bodyRead = chunks.flatMap ChunkWire.wire ++ last.text ++ CRLF := by
        simp only [WireRequest.bodyRead, kind, known, if_true]
      have stored : r.stored = chunks.flatMap ChunkWire.data := by
        simp only [WireRequest.stored, kind, known, if_true]
      have small : r.BodyFits lim ↔ ChunksFit lim 0 chunks last := by
        simp only [WireRequest.BodyFits, kind, known, true_imp_iff]
      rw [if_congr small rfl rfl]
      simp only [WireRequest.parsed, framing_chunked announced.1, known, if_true, read, stored]
      rw [run_chunkWires (by omega) order]
      rfl
    · have read : r.bodyRead = [] := by simp only [WireRequest.bodyRead, kind, if_neg known]
      have stored : r.stored = [] := by simp only [WireRequest.stored, kind, if_neg known]
      have small : r.BodyFits lim := by
        simp only [WireRequest.BodyFits, kind]
        exact fun h => absurd h known
      rw [if_pos small]
      simp only [WireRequest.parsed, framing_chunked announced.1, if_neg known, read, stored]
      rfl

end Runs

theorem post_visible : ∀ b ∈ ascii "POST", visible b = true := List.all_eq_true.mp (by decide)

theorem slash_visible : ∀ b ∈ ascii "/", visible b = true := List.all_eq_true.mp (by decide)

theorem post_pieces : ascii "POST" ≠ [] ∧ ascii "/" ≠ [] ∧ ascii "HTTP/1.1" ≠ [] := by decide

theorem space_white : ∀ b ∈ [SP], ows b = true := List.forall_mem_singleton.mpr (by decide)

theorem nothing_white : ∀ b ∈ ([] : Bytes), ows b = true := List.forall_mem_nil _

end RequestWire
