import NanoProxy.MockHeader
import NanoProxy.Lib.Runs
import NanoProxy.Lib.SeekFile

/-!
# Recording a response and playing it back (include/mock.h)

The recorder writes four sections behind the 256 bytes of the header, and takes their places
from the position of the file. `Transcript` is the layout of the sections. The place of the
response is taken in front of its delimiter, and the end of the request only at the end of the
recording, so that the range of the response starts with the delimiter and the range of the
request goes on over the response.
-/

namespace MockRecording

open CLib HttpRequestParser RequestGrammar RequestDecoder ResponseHead MockHeader SeekFile Runs

/-- Contents of the files by their paths -/
abbrev Disk := Bytes → Option Bytes

structure MockRecorder where
  f : File UInt8
  filepath : Bytes
  requestWritten : Bool
  responseStarted : Bool
  startTime : Int
  upstreamUrl : Option Bytes
  requestBodyBytes : Nat
  responseBodyBytes : Nat
  responseStatus : Int
  responseStartTime : Int
  headerSize : Nat
  metaOffset : Nat
  metaLen : Nat
  requestOffset : Nat
  requestLen : Nat
  responseOffset : Nat
  responseLen : Nat
  summaryOffset : Nat
  summaryLen : Nat

/-- What the library calls of `mock_recorder_begin` give: the time, which paths `fopen` can
create, whether `calloc` succeeds, and how large a file can get. Positions are `long`. -/
structure Surroundings where
  now : Int
  creates : Bytes → Bool
  allocates : Bool
  limit : Nat
  long : limit < 2 ^ 63

/-- One text for each `fprintf` or `fwrite` -/
def MockRecorder.puts (rec : MockRecorder) (texts : List Bytes) : MockRecorder :=
  { rec with f := rec.f.writeAll texts }

def snprintf (size : Nat) (text : Bytes) : Bytes := text.take (size - 1)

/-- `%.*s`: a negative precision is none. -/
def precise (n : Int) (s : Bytes) : Bytes := if n < 0 then s else s.take n.toNat

def keeps (c : UInt8) : Bool :=
  (97 ≤ c && c ≤ 122) || (65 ≤ c && c ≤ 90) || isdigit c || c == 95 || c == 45 || c == 46

def mockMakeKey (method uri : Option Bytes) (outsz : Nat) : Bytes :=
  let method := method.getD (ascii "GET")
  let uri := uri.getD (ascii "/")
  let ulen := (uri.takeWhile (· != 63)).length
  (snprintf outsz (method ++ ascii "_" ++ precise (toInt ulen) uri)).map fun c =>
    if keeps c then c else 95

def metaLine (now : Int) (upstreamUrl : Option Bytes) : Bytes :=
  ascii "\x7b\"recorded_at\":" ++ number now ++ ascii ",\"upstream\":\"" ++ upstreamUrl.getD [] ++
    ascii "\",\"latency_ms\":0\x7d\n\n"

def requestLine (req : HttpRequest) : Bytes :=
  req.method.getD (ascii "GET") ++ SP :: req.uri.getD (ascii "/") ++
    SP :: req.version.getD (ascii "HTTP/1.1") ++ CRLF

def headerField (field : Bytes × Bytes) : Bytes := field.1 ++ ascii ": " ++ field.2 ++ CRLF

/-- The file and what `mock_recorder_begin` sets before it writes. -/
def opened (env : Surroundings) (filepath : Bytes) (req : HttpRequest)
    (upstreamUrl : Option Bytes) : MockRecorder where
  f := (create env.limit).seek 256
  filepath := filepath
  requestWritten := false
  responseStarted := false
  startTime := env.now
  upstreamUrl := upstreamUrl
  requestBodyBytes := req.body.length
  responseBodyBytes := 0
  responseStatus := 0
  responseStartTime := 0
  headerSize := 256
  metaOffset := 0
  metaLen := 0
  requestOffset := 0
  requestLen := 0
  responseOffset := 0
  responseLen := 0
  summaryOffset := 0
  summaryLen := 0

def writeMeta (rec : MockRecorder) : MockRecorder :=
  let placed := { rec with metaOffset := rec.f.pos }
  let written := placed.puts [ascii "---META---\n", metaLine rec.startTime rec.upstreamUrl]
  { written with metaLen := written.f.pos - written.metaOffset }

def writeRequest (req : HttpRequest) (rec : MockRecorder) : MockRecorder :=
  let placed := { rec with requestOffset := rec.f.pos }
  { placed.puts ([ascii "---REQUEST---\n", requestLine req] ++ req.headers.map headerField ++
      [CRLF, req.body]) with requestWritten := true }

/-- `fopen` with the two names that are tried -/
def openPath (env : Surroundings) (dir : Bytes) (req : HttpRequest) : Option Bytes :=
  let key := mockMakeKey req.method req.uri 256
  let timed := snprintf 512 (dir ++ ascii "/" ++ key ++ ascii "_" ++ number env.now ++ ascii ".mock")
  let simple := snprintf 512 (dir ++ ascii "/" ++ key ++ ascii ".mock")
  if env.creates timed then some timed else if env.creates simple then some simple else none

def mockRecorderBegin (env : Surroundings) (recordDir : Option Bytes) (req : Option HttpRequest)
    (upstreamUrl : Option Bytes) : Option MockRecorder :=
  match recordDir, req with
  | some dir, some req =>
    match openPath env dir req with
    | none => none
    | some filepath =>
      if env.allocates then some (writeRequest req (writeMeta (opened env filepath req upstreamUrl)))
      else none
  | _, _ => none

/-- `data` is `none` for NULL. -/
def mockRecorderAppendRequestBody (rec : MockRecorder) (data : Option Bytes) : MockRecorder × Int :=
  match data with
  | none => (rec, 0)
  | some bytes =>
    if bytes = [] then (rec, 0)
    else if rec.f.room bytes ≠ bytes.length then (rec.puts [bytes], -1)
    else ({ rec.puts [bytes] with requestBodyBytes := rec.requestBodyBytes + bytes.length }, 0)

/-- The status that is taken from the first bytes, with what is in the memory behind them. -/
def crudeStatus (status : Int) (first behind : Bytes) : Int :=
  let p := cstr (first ++ behind)
  if ascii "HTTP/" <+: p then
    match p.dropWhile (· != SP) with
    | [] => status
    | _ :: sp => atoi sp
  else status

def responseLine : Bytes := ascii "\n---RESPONSE---\n"

def mockRecorderBeginResponse (rec : MockRecorder) (now : Int) (first : Option Bytes)
    (behind : Bytes) : MockRecorder :=
  if rec.responseStarted then rec
  else
    let placed := { rec with responseStartTime := now, responseOffset := rec.f.pos }
    let written := placed.puts [responseLine]
    let counted := match first with
      | none => written
      | some bytes =>
        if bytes = [] then written
        else { written.puts [bytes] with
          responseStatus := crudeStatus rec.responseStatus bytes behind
          responseBodyBytes := rec.responseBodyBytes + bytes.length }
    { counted with responseStarted := true }

def mockRecorderAppendResponseBody (rec : MockRecorder) (data : Option Bytes) : MockRecorder × Int :=
  match data with
  | none => (rec, 0)
  | some bytes =>
    if ¬rec.responseStarted ∨ bytes = [] then (rec, 0)
    else if rec.f.room bytes ≠ bytes.length then (rec.puts [bytes], -1)
    else ({ rec.puts [bytes] with responseBodyBytes := rec.responseBodyBytes + bytes.length }, 0)

def summaryLine (latencyMs : Int) (rec : MockRecorder) : Bytes :=
  ascii "\x7b\"latency_ms\":" ++ number latencyMs ++
    ascii ",\"request_body_bytes\":" ++ number rec.requestBodyBytes ++
    ascii ",\"response_status\":" ++ number rec.responseStatus ++
    ascii ",\"response_body_bytes\":" ++ number rec.responseBodyBytes ++ ascii "\x7d\n"

def latencyMs (rec : MockRecorder) : Int :=
  if 0 < rec.responseStartTime then (rec.responseStartTime - rec.startTime) * 1000 else 0

/-- `mock_recorder_finish` up to the summary -/
def writeSummary (rec : MockRecorder) : MockRecorder :=
  let measured := { rec with
    requestLen := if rec.requestLen = 0 ∧ 0 < rec.requestOffset
      then rec.f.pos - rec.requestOffset else rec.requestLen
    responseLen := if 0 < rec.responseOffset then rec.f.pos - rec.responseOffset else rec.responseLen
    summaryOffset := rec.f.pos }
  let written := measured.puts [ascii "\n---SUMMARY---\n", summaryLine (latencyMs rec) rec]
  { written with summaryLen := written.f.pos - written.summaryOffset }

/-- The numbers of the header line -/
def header (rec : MockRecorder) : MockReader :=
  ⟨rec.headerSize, rec.metaOffset, rec.metaLen, rec.requestOffset, rec.requestLen,
    rec.responseOffset, rec.responseLen, rec.summaryOffset, rec.summaryLen,
    rec.requestBodyBytes, rec.responseBodyBytes, rec.responseStatus⟩

/-- The file as `mock_recorder_finish` closes it -/
def finishedFile (rec : MockRecorder) : File UInt8 :=
  ((writeSummary rec).f.seek 0).write (headerLine (header (writeSummary rec)))

def mockRecorderFinish (disk : Disk) (rec : MockRecorder) : Disk :=
  Function.update disk rec.filepath (some (finishedFile rec).data)

def mockReaderOpen (disk : Disk) (path : Option Bytes) (behind : Bytes) (allocates : Bool) :
    Option MockReader :=
  match path.bind disk with
  | none => none
  | some file => if allocates then readHeader file behind else none

/-- A reader may be NULL. -/
def mockReaderResponseStart (r : Option MockReader) : Int := r.elim (-1) (·.responseOff)

def mockReaderResponseLength (r : Option MockReader) : Int := r.elim 0 (·.responseLen)

inductive Call where
  | appendRequestBody (data : Option Bytes)
  | beginResponse (now : Int) (first : Option Bytes) (behind : Bytes)
  | appendResponseBody (data : Option Bytes)
  deriving DecidableEq

def step (rec : MockRecorder) : Call → MockRecorder
  | .appendRequestBody data => (mockRecorderAppendRequestBody rec data).1
  | .beginResponse now first behind => mockRecorderBeginResponse rec now first behind
  | .appendResponseBody data => (mockRecorderAppendResponseBody rec data).1

def Call.isBeginResponse : Call → Bool
  | .beginResponse _ _ _ => true
  | _ => false

/-- The raw response bytes of the calls; the flag says that the response has begun. -/
def rawResponse : Bool → List Call → Bytes
  | _, [] => []
  | started, .appendRequestBody _ :: calls => rawResponse started calls
  | false, .beginResponse _ first _ :: calls => first.getD [] ++ rawResponse true calls
  | true, .beginResponse _ _ _ :: calls => rawResponse true calls
  | false, .appendResponseBody _ :: calls => rawResponse false calls
  | true, .appendResponseBody data :: calls => data.getD [] ++ rawResponse true calls

/-- The sections of a recording. The response is what follows its delimiter. -/
structure Transcript where
  metaText : Bytes
  request : Bytes
  response : Option Bytes

def Transcript.text (t : Transcript) : Bytes :=
  t.metaText ++ t.request ++ t.response.elim [] (responseLine ++ ·)

def Transcript.append (t : Transcript) (data : Bytes) : Transcript :=
  match t.response with
  | none => { t with request := t.request ++ data }
  | some response => { t with response := some (response ++ data) }

def Transcript.step (t : Transcript) : Call → Transcript
  | .appendRequestBody data => t.append (data.getD [])
  | .beginResponse _ first _ =>
    if t.response.isSome then t else { t with response := some (first.getD []) }
  | .appendResponseBody data => if t.response.isSome then t.append (data.getD []) else t

def transcriptBegin (now : Int) (req : HttpRequest) (upstreamUrl : Option Bytes) : Transcript where
  metaText := ascii "---META---\n" ++ metaLine now upstreamUrl
  request := ascii "---REQUEST---\n" ++ requestLine req ++ req.headers.flatMap headerField ++ CRLF ++
    req.body
  response := none

/-- All writes up to the end of `mock_recorder_finish` are whole. -/
def WritesSucceed (rec : MockRecorder) : Prop := (finishedFile rec).error = false

def bytesAt (file : Bytes) (offset length : Int) : Bytes :=
  slice file offset.toNat (offset + length).toNat

def summarySection (rec : MockRecorder) : Bytes :=
  ascii "\n---SUMMARY---\n" ++ summaryLine (latencyMs rec) rec

/-- The range of the response holds the raw response, the ranges follow each other, and each
holds its own section. -/
structure PlaysBack (file : Bytes) (r : MockReader) (t : Transcript) (raw summary : Bytes) :
    Prop where
  response : bytesAt file (mockReaderResponseStart (some r)) (mockReaderResponseLength (some r)) = raw
  metaFirst : r.metaOff + r.metaLen ≤ r.requestOff
  requestNext : r.requestOff + r.requestLen ≤ r.responseOff
  summaryLast : r.responseOff + r.responseLen ≤ r.summaryOff
  metaSection : bytesAt file r.metaOff r.metaLen = t.metaText
  requestSection : bytesAt file r.requestOff r.requestLen = t.request
  summarySection : bytesAt file r.summaryOff r.summaryLen = summary

variable {rec : MockRecorder} {t : Transcript}

theorem append_text (t : Transcript) (data : Bytes) : (t.append data).text = t.text ++ data := by
  unfold Transcript.append
  split
  · rename_i waiting
    simp only [Transcript.text, waiting, Option.elim_none, List.append_nil, List.append_assoc]
  · rename_i response begun
    simp only [Transcript.text, begun, Option.elim_some, List.append_assoc]

theorem append_metaText (t : Transcript) (data : Bytes) : (t.append data).metaText = t.metaText := by
  unfold Transcript.append
  split <;> rfl

theorem append_isSome (t : Transcript) (data : Bytes) :
    (t.append data).response.isSome = t.response.isSome := by
  unfold Transcript.append
  split <;> simp_all

/-- The fields in the middle of a recording -/
structure Recorded (rec : MockRecorder) (t : Transcript) : Prop where
  file : Appending rec.f 256 t.text
  long : rec.f.limit < 2 ^ 63
  headerSize : rec.headerSize = 256
  metaOffset : rec.metaOffset = 256
  metaLen : rec.metaLen = t.metaText.length
  requestOffset : rec.requestOffset = 256 + t.metaText.length
  requestLen : rec.requestLen = 0
  started : rec.responseStarted = t.response.isSome
  responseOffset : t.response.isSome → rec.responseOffset = rec.requestOffset + t.request.length
  requestBody : rec.requestBodyBytes ≤ t.text.length
  responseBody : rec.responseBodyBytes ≤ t.text.length
  status : Conversion.d.Fits rec.responseStatus

theorem puts_clear (texts : List Bytes) (clear : (rec.puts texts).f.error = false) :
    rec.f.error = false := writeAll_clear clear

theorem Recorded.append (h : Recorded rec t) (data : Bytes) {requestBody responseBody : Nat}
    (clear : (rec.puts [data]).f.error = false)
    (requestSize : requestBody ≤ rec.requestBodyBytes + data.length)
    (responseSize : responseBody ≤ rec.responseBodyBytes + data.length) :
    Recorded { rec.puts [data] with
      requestBodyBytes := requestBody
      responseBodyBytes := responseBody } (t.append data) := by
  have size : (t.append data).text.length = t.text.length + data.length := by
    rw [append_text, List.length_append]
  have requestBefore := h.requestBody
  have responseBefore := h.responseBody
  refine ⟨?_, h.long, h.headerSize, h.metaOffset, ?_, ?_, h.requestLen, ?_, ?_, ?_, ?_, h.status⟩
  · rw [append_text]
    exact h.file.write clear
  · rw [append_metaText]
    exact h.metaLen
  · rw [append_metaText]
    exact h.requestOffset
  · rw [append_isSome]
    exact h.started
  · intro begun
    rw [append_isSome] at begun
    have place := h.responseOffset begun
    obtain ⟨response, there⟩ := Option.isSome_iff_exists.mp begun
    rw [Transcript.append, there]
    exact place
  · rw [size]
    exact Nat.le_trans requestSize (Nat.add_le_add_right requestBefore _)
  · rw [size]
    exact Nat.le_trans responseSize (Nat.add_le_add_right responseBefore _)

theorem append_nil (t : Transcript) : t.append [] = t := by
  unfold Transcript.append
  split
  · rw [List.append_nil]
  · rename_i response there
    rw [List.append_nil, ← there]

theorem toInt_fits (v : Int) : Conversion.d.Fits (toInt v) := by
  have lower : -2 ^ 31 ≤ toInt v := Int.le_bmod (by decide)
  have upper : toInt v < 2 ^ 31 := Int.bmod_lt (by decide)
  exact ⟨lower, upper⟩

theorem crudeStatus_fits {status : Int} (fits : Conversion.d.Fits status) (first behind : Bytes) :
    Conversion.d.Fits (crudeStatus status first behind) := by
  unfold crudeStatus
  dsimp only
  split
  · split
    · exact fits
    · exact toInt_fits _
  · exact fits

theorem Recorded.appendRequestBody (h : Recorded rec t) {data : Option Bytes}
    (clear : (mockRecorderAppendRequestBody rec data).1.f.error = false) :
    Recorded (mockRecorderAppendRequestBody rec data).1 (t.append (data.getD [])) := by
  cases data with
  | none =>
    rw [Option.getD_none, append_nil]
    exact h
  | some bytes =>
    rw [Option.getD_some]
    by_cases empty : bytes = []
    · rw [mockRecorderAppendRequestBody, if_pos empty, empty, append_nil]
      exact h
    by_cases short : rec.f.room bytes ≠ bytes.length
    · rw [mockRecorderAppendRequestBody, if_neg empty, if_pos short] at clear
      exact absurd (write_clear clear).2 short
    rw [mockRecorderAppendRequestBody, if_neg empty, if_neg short] at clear ⊢
    exact h.append bytes clear (Nat.le_refl _) (Nat.le_add_right _ _)

theorem Recorded.appendResponseBody (h : Recorded rec t) {data : Option Bytes}
    (clear : (mockRecorderAppendResponseBody rec data).1.f.error = false) :
    Recorded (mockRecorderAppendResponseBody rec data).1
      (if t.response.isSome then t.append (data.getD []) else t) := by
  rw [← h.started]
  cases data with
  | none =>
    rw [Option.getD_none, append_nil, ite_self]
    exact h
  | some bytes =>
    rw [Option.getD_some]
    by_cases waiting : ¬rec.responseStarted
    · rw [mockRecorderAppendResponseBody, if_pos (Or.inl waiting), if_neg waiting]
      exact h
    rw [if_pos (not_not.mp waiting)]
    by_cases empty : bytes = []
    · rw [mockRecorderAppendResponseBody, if_pos (Or.inr empty), empty, append_nil]
      exact h
    have takes : ¬(¬rec.responseStarted ∨ bytes = []) := not_or.mpr ⟨waiting, empty⟩
    by_cases short : rec.f.room bytes ≠ bytes.length
    · rw [mockRecorderAppendResponseBody, if_neg takes, if_pos short] at clear
      exact absurd (write_clear clear).2 short
    rw [mockRecorderAppendResponseBody, if_neg takes, if_neg short] at clear ⊢
    exact h.append bytes clear (Nat.le_add_right _ _) (Nat.le_refl _)

/-- The delimiter of the response, with nothing behind it. -/
theorem Recorded.placed (h : Recorded rec t) (waiting : t.response = none) (now : Int)
    (clear : (rec.puts [responseLine]).f.error = false) :
    Recorded
      { ({ rec with responseStartTime := now, responseOffset := rec.f.pos }).puts [responseLine]
        with responseStarted := true }
      { t with response := some [] } := by
  have text : t.text ++ responseLine = ({ t with response := some [] } : Transcript).text := by
    rw [Transcript.text, Transcript.text, waiting, Option.elim_none, Option.elim_some,
      List.append_nil, List.append_nil]
  have size : ({ t with response := some [] } : Transcript).text.length =
      t.text.length + responseLine.length := by
    rw [← text, List.length_append]
  have place : rec.f.pos = rec.requestOffset + t.request.length := by
    rw [h.file.pos, h.requestOffset, Transcript.text, waiting, Option.elim_none, List.append_nil,
      List.length_append, Nat.add_assoc]
  refine ⟨?_, h.long, h.headerSize, h.metaOffset, h.metaLen, h.requestOffset, h.requestLen, rfl,
    fun _ => place, ?_, ?_, h.status⟩
  · rw [← text]
    exact h.file.write clear
  · rw [size]
    exact Nat.le_trans h.requestBody (Nat.le_add_right _ _)
  · rw [size]
    exact Nat.le_trans h.responseBody (Nat.le_add_right _ _)

theorem Recorded.beginResponse (h : Recorded rec t) {now : Int} {first : Option Bytes}
    {behind : Bytes} (clear : (mockRecorderBeginResponse rec now first behind).f.error = false) :
    Recorded (mockRecorderBeginResponse rec now first behind)
      (if t.response.isSome then t else { t with response := some (first.getD []) }) := by
  rw [← h.started]
  by_cases begun : rec.responseStarted
  · rw [mockRecorderBeginResponse, if_pos begun, if_pos begun]
    exact h
  have waiting : t.response = none := by
    rw [h.started] at begun
    exact Option.not_isSome_iff_eq_none.mp begun
  rw [mockRecorderBeginResponse, if_neg begun] at clear ⊢
  rw [if_neg begun]
  cases first with
  | none => exact h.placed waiting now clear
  | some bytes =>
    rw [Option.getD_some]
    dsimp only at clear ⊢
    by_cases empty : bytes = []
    · rw [if_pos empty] at clear ⊢
      rw [empty]
      exact h.placed waiting now clear
    · rw [if_neg empty] at clear ⊢
      have before := h.placed waiting now (puts_clear [bytes] clear)
      have after := before.append bytes clear (Nat.le_add_right _ _) (Nat.le_refl _)
      exact { after with status := crudeStatus_fits h.status bytes behind }

theorem step_recorded (h : Recorded rec t) {c : Call} (clear : (step rec c).f.error = false) :
    Recorded (step rec c) (t.step c) := by
  cases c with
  | appendRequestBody data => exact h.appendRequestBody clear
  | beginResponse now first behind => exact h.beginResponse clear
  | appendResponseBody data => exact h.appendResponseBody clear

/-- An error indicator that is set stays set. -/
theorem step_clear {c : Call} (clear : (step rec c).f.error = false) : rec.f.error = false := by
  cases c with
  | appendRequestBody data =>
    cases data with
    | none => exact clear
    | some bytes =>
      rw [step, mockRecorderAppendRequestBody] at clear
      split at clear
      · exact clear
      · split at clear <;> exact puts_clear [bytes] clear
  | appendResponseBody data =>
    cases data with
    | none => exact clear
    | some bytes =>
      rw [step, mockRecorderAppendResponseBody] at clear
      split at clear
      · exact clear
      · split at clear <;> exact puts_clear [bytes] clear
  | beginResponse now first behind =>
    rw [step, mockRecorderBeginResponse] at clear
    split at clear
    · exact clear
    · cases first with
      | none => exact puts_clear [responseLine] clear
      | some bytes =>
        dsimp only at clear
        split at clear
        · exact puts_clear [responseLine] clear
        · exact puts_clear [responseLine, bytes] clear

theorem run_clear {calls : List Call} (clear : (run step rec calls).f.error = false) :
    rec.f.error = false := by
  induction calls generalizing rec with
  | nil => exact clear
  | cons c calls ih => exact step_clear (ih clear)

theorem run_recorded (h : Recorded rec t) {calls : List Call}
    (clear : (run step rec calls).f.error = false) :
    Recorded (run step rec calls) (run Transcript.step t calls) := by
  induction calls generalizing rec t with
  | nil => exact h
  | cons c calls ih => exact ih (step_recorded h (run_clear clear)) clear

/-- The path is the one of a file that could be created. -/
theorem mockRecorderBegin_eq {env : Surroundings} {recordDir upstreamUrl : Option Bytes}
    {req : HttpRequest}
    (begun : mockRecorderBegin env recordDir (some req) upstreamUrl = some rec) :
    ∃ filepath, rec = writeRequest req (writeMeta (opened env filepath req upstreamUrl)) := by
  unfold mockRecorderBegin at begun
  split at begun
  · rename_i dir request same
    cases same
    split at begun
    · cases begun
    · rename_i filepath _
      split at begun
      · exact ⟨filepath, (Option.some.inj begun).symm⟩
      · cases begun
  · cases begun

theorem writeMeta_file {env : Surroundings} {filepath : Bytes} {req : HttpRequest}
    {upstreamUrl : Option Bytes}
    (clear : (writeMeta (opened env filepath req upstreamUrl)).f.error = false) :
    Appending (writeMeta (opened env filepath req upstreamUrl)).f 256
      (transcriptBegin env.now req upstreamUrl).metaText := by
  have written := (appending_seek (α := UInt8) env.limit 256).writeAll clear
  rw [List.nil_append, List.flatten_cons, List.flatten_singleton] at written
  exact written

theorem writeRequest_file {req : HttpRequest} {done : Bytes}
    (h : Appending rec.f 256 done) (clear : (writeRequest req rec).f.error = false) :
    Appending (writeRequest req rec).f 256 (done ++ (ascii "---REQUEST---\n" ++ requestLine req ++
      req.headers.flatMap headerField ++ CRLF ++ req.body)) := by
  have written := h.writeAll clear
  simp only [List.flatten_append, List.flatten_cons, List.flatten_nil, List.append_nil,
    List.append_assoc, ← List.flatMap_def] at written ⊢
  exact written

theorem writeRequest_clear {req : HttpRequest} (clear : (writeRequest req rec).f.error = false) :
    rec.f.error = false := puts_clear _ clear

theorem writeRequest_offset (req : HttpRequest) (rec : MockRecorder) :
    (writeRequest req rec).requestOffset = rec.f.pos := rfl

theorem writeMeta_len (req : HttpRequest) (rec : MockRecorder) :
    (writeRequest req (writeMeta rec)).metaLen = (writeMeta rec).f.pos - rec.f.pos := rfl

theorem zero_fits : Conversion.d.Fits 0 := ⟨by decide, by decide⟩

theorem begin_recorded {env : Surroundings} {recordDir upstreamUrl : Option Bytes}
    {req : HttpRequest}
    (begun : mockRecorderBegin env recordDir (some req) upstreamUrl = some rec)
    (clear : rec.f.error = false) : Recorded rec (transcriptBegin env.now req upstreamUrl) := by
  obtain ⟨filepath, rfl⟩ := mockRecorderBegin_eq begun
  have metaFile := writeMeta_file (writeRequest_clear clear)
  have whole := writeRequest_file metaFile clear
  have metaPos := metaFile.pos
  have text : (transcriptBegin env.now req upstreamUrl).text =
      (transcriptBegin env.now req upstreamUrl).metaText ++
        (transcriptBegin env.now req upstreamUrl).request := List.append_nil _
  have limit : (writeRequest req (writeMeta (opened env filepath req upstreamUrl))).f.limit =
      env.limit := writeAll_limit.trans writeAll_limit
  have bodySize : req.body.length ≤ (transcriptBegin env.now req upstreamUrl).text.length := by
    rw [text, transcriptBegin]
    simp only [List.length_append]
    omega
  refine ⟨?_, ?_, rfl, rfl, ?_, ?_, rfl, rfl, nofun, bodySize, Nat.zero_le _,
    zero_fits⟩
  · rw [text]
    exact whole
  · rw [limit]
    exact env.long
  · rw [writeMeta_len, metaPos]
    exact Nat.add_sub_cancel_left 256 _
  · rw [writeRequest_offset, metaPos]

/-- The numbers of the header line, from the sections. -/
structure Places (r : MockReader) (t : Transcript) (response summary : Bytes) : Prop where
  headerSize : r.headerSize = 256
  metaOff : r.metaOff = 256
  metaLen : r.metaLen = t.metaText.length
  requestOff : r.requestOff = 256 + t.metaText.length
  requestLen : r.requestLen = t.request.length + (responseLine.length + response.length)
  responseOff : r.responseOff = 256 + t.metaText.length + t.request.length
  responseLen : r.responseLen = responseLine.length + response.length
  summaryOff : r.summaryOff =
    256 + t.metaText.length + t.request.length + (responseLine.length + response.length)
  summaryLen : r.summaryLen = summary.length
  reqBodyBytes : 0 ≤ r.reqBodyBytes ∧ r.reqBodyBytes ≤ t.text.length
  respBodyBytes : 0 ≤ r.respBodyBytes ∧ r.respBodyBytes ≤ t.text.length
  status : Conversion.d.Fits r.status

variable {response : Bytes}

theorem text_response (begun : t.response = some response) :
    t.text = t.metaText ++ t.request ++ (responseLine ++ response) := by
  rw [Transcript.text, begun, Option.elim_some]

theorem text_length (begun : t.response = some response) : t.text.length =
    t.metaText.length + t.request.length + (responseLine.length + response.length) := by
  rw [text_response begun, List.length_append, List.length_append, List.length_append]

theorem writeSummary_f (rec : MockRecorder) : (writeSummary rec).f =
    rec.f.writeAll [ascii "\n---SUMMARY---\n", summaryLine (latencyMs rec) rec] := by
  simp only [writeSummary, MockRecorder.puts]

theorem header_writeSummary (rec : MockRecorder) : header (writeSummary rec) =
    ⟨rec.headerSize, rec.metaOffset, rec.metaLen, rec.requestOffset, (writeSummary rec).requestLen,
      rec.responseOffset, (writeSummary rec).responseLen, rec.f.pos,
      ((writeSummary rec).f.pos - rec.f.pos : Nat), rec.requestBodyBytes, rec.responseBodyBytes,
      rec.responseStatus⟩ := by
  simp only [header, writeSummary, MockRecorder.puts]

theorem finished_clear (writes : WritesSucceed rec) : (writeSummary rec).f.error = false :=
  (write_clear writes).1

theorem recording_clear (writes : WritesSucceed rec) : rec.f.error = false := by
  have clear := finished_clear writes
  rw [writeSummary_f] at clear
  exact writeAll_clear clear

theorem summary_file (h : Recorded rec t) (writes : WritesSucceed rec) :
    Appending (writeSummary rec).f 256 (t.text ++ summarySection rec) := by
  have clear := finished_clear writes
  rw [writeSummary_f] at clear ⊢
  have written := h.file.writeAll clear
  rw [List.flatten_cons, List.flatten_singleton] at written
  exact written

/-- Every place is one of the file, and fits in a `long`. -/
theorem end_inside (h : Recorded rec t) (writes : WritesSucceed rec) :
    256 + (t.text.length + (summarySection rec).length) < 2 ^ 63 := by
  have last := finished_clear writes
  rw [writeSummary_f] at last
  change ((rec.f.write (ascii "\n---SUMMARY---\n")).write
    (summaryLine (latencyMs rec) rec)).error = false at last
  have some_line : summaryLine (latencyMs rec) rec ≠ [] := by
    rw [summaryLine]
    exact List.append_ne_nil_of_right_ne_nil _ (by decide)
  have inside := write_inside last some_line
  rw [write_pos (write_clear last).1, h.file.pos, write_limit] at inside
  have long := h.long
  rw [summarySection, List.length_append]
  omega

/-- The request ends where the summary starts, as does the response. -/
theorem writeSummary_lengths (h : Recorded rec t) (begun : t.response.isSome) :
    (writeSummary rec).requestLen = rec.f.pos - rec.requestOffset ∧
      (writeSummary rec).responseLen = rec.f.pos - rec.responseOffset := by
  have requestOffset := h.requestOffset
  have responseOffset := h.responseOffset begun
  have behind : 0 < rec.requestOffset ∧ 0 < rec.responseOffset := by omega
  simp only [writeSummary, MockRecorder.puts]
  exact ⟨if_pos ⟨h.requestLen, behind.1⟩, if_pos behind.2⟩

theorem header_places (h : Recorded rec t) (begun : t.response = some response)
    (writes : WritesSucceed rec) :
    Places (header (writeSummary rec)) t response (summarySection rec) := by
  have isSome : t.response.isSome := by rw [begun, Option.isSome_some]
  have pos : rec.f.pos =
      256 + t.metaText.length + t.request.length + (responseLine.length + response.length) := by
    rw [h.file.pos, text_length begun]
    omega
  have endPos : (writeSummary rec).f.pos = rec.f.pos + (summarySection rec).length := by
    rw [(summary_file h writes).pos, h.file.pos, List.length_append, Nat.add_assoc]
  have requestOffset := h.requestOffset
  have responseOffset := h.responseOffset isSome
  have requestBody := h.requestBody
  have responseBody := h.responseBody
  obtain ⟨requestLen, responseLen⟩ := writeSummary_lengths h isSome
  rw [header_writeSummary]
  constructor <;> dsimp only
  · exact congrArg Nat.cast h.headerSize
  · exact congrArg Nat.cast h.metaOffset
  · exact congrArg Nat.cast h.metaLen
  · omega
  · omega
  · omega
  · omega
  · omega
  · omega
  · omega
  · omega
  · exact h.status

theorem Places.fits {r : MockReader} {summary : Bytes} (places : Places r t response summary)
    (begun : t.response = some response)
    (inside : 256 + (t.text.length + summary.length) < 2 ^ 63) : AllFit columns r.values := by
  have size := text_length begun
  have bytes {v : Int} (count : 0 ≤ v ∧ v ≤ t.text.length) : Conversion.zu.Fits v :=
    ⟨count.1, by omega⟩
  have place {v : Int} {n : Nat} (same : v = n) (small : n < 2 ^ 63) : Conversion.ld.Fits v :=
    ⟨by omega, by omega⟩
  refine .cons (place places.headerSize (by decide)) ?_
  refine .cons (place places.metaOff (by decide)) ?_
  refine .cons (place places.metaLen (by omega)) ?_
  refine .cons (place (n := 256 + t.metaText.length) places.requestOff (by omega)) ?_
  refine .cons (place (n := t.request.length + (responseLine.length + response.length))
    places.requestLen (by omega)) ?_
  refine .cons (place (n := 256 + t.metaText.length + t.request.length)
    places.responseOff (by omega)) ?_
  refine .cons (place (n := responseLine.length + response.length) places.responseLen (by omega)) ?_
  refine .cons (place (n := 256 + t.metaText.length + t.request.length +
    (responseLine.length + response.length)) places.summaryOff (by omega)) ?_
  refine .cons (place places.summaryLen (by omega)) ?_
  exact .cons (bytes places.reqBodyBytes) (.cons (bytes places.respBodyBytes)
    (.cons places.status .nil))

theorem finished_data (h : Recorded rec t) (writes : WritesSucceed rec) :
    (finishedFile rec).data =
      headerLine (header (writeSummary rec)) ++ (t.text ++ summarySection rec) :=
  (summary_file h writes).finish (headerLine_length _) (by decide) writes

/-- The reader opens the file, and has the places of the sections. -/
theorem reader_opens (h : Recorded rec t) (begun : t.response = some response)
    (writes : WritesSucceed rec) (disk : Disk) (behind : Bytes) :
    mockReaderOpen (mockRecorderFinish disk rec) (some rec.filepath) behind true =
      some (header (writeSummary rec)) := by
  have there : (some rec.filepath).bind (mockRecorderFinish disk rec) =
      some (finishedFile rec).data := Function.update_self _ _ _
  rw [mockReaderOpen, there]
  dsimp only
  rw [if_pos rfl, finished_data h writes]
  have fits := (header_places h begun writes).fits begun (end_inside h writes)
  exact readHeader_headerLine fits _ behind

theorem bytesAt_middle {file middle : Bytes} {offset length : Int} (front back : Bytes)
    (split : file = front ++ (middle ++ back)) (start : offset = front.length)
    (size : length = middle.length) : bytesAt file offset length = middle := by
  have stop : (offset + length).toNat = front.length + middle.length := by omega
  have begins : offset.toNat = front.length := by omega
  rw [bytesAt, begins, stop, slice_eq_take_drop, split, List.drop_left' rfl,
    Nat.add_sub_cancel_left, List.take_left' rfl]

/-- What is in the four ranges: the response has its delimiter in front, and the request has
the whole response behind it. -/
theorem reader_ranges (h : Recorded rec t) (begun : t.response = some response)
    (writes : WritesSucceed rec) {r : MockReader} (opened : r = header (writeSummary rec)) :
    bytesAt (finishedFile rec).data r.metaOff r.metaLen = t.metaText ∧
    bytesAt (finishedFile rec).data r.requestOff r.requestLen =
      t.request ++ (responseLine ++ response) ∧
    bytesAt (finishedFile rec).data r.responseOff r.responseLen = responseLine ++ response ∧
    bytesAt (finishedFile rec).data r.summaryOff r.summaryLen = summarySection rec ∧
    bytesAt (finishedFile rec).data (r.responseOff + responseLine.length)
      (r.responseLen - responseLine.length) = response := by
  subst opened
  have places := header_places h begun writes
  have line := headerLine_length (header (writeSummary rec))
  rw [finished_data h writes, text_response begun]
  generalize headerLine (header (writeSummary rec)) = front at *
  generalize summarySection rec = summary at *
  refine ⟨?_, ?_, ?_, ?_, ?_⟩
  · refine bytesAt_middle front (t.request ++ (responseLine ++ response) ++ summary)
      (by simp only [List.append_assoc]) ?_ places.metaLen
    rw [places.metaOff, line]
    rfl
  · refine bytesAt_middle (front ++ t.metaText) summary (by simp only [List.append_assoc]) ?_ ?_
    · rw [places.requestOff, List.length_append, line]
      omega
    · rw [places.requestLen, List.length_append, List.length_append]
      omega
  · refine bytesAt_middle (front ++ (t.metaText ++ t.request)) summary
      (by simp only [List.append_assoc]) ?_ ?_
    · rw [places.responseOff, List.length_append, List.length_append, line]
      omega
    · rw [places.responseLen, List.length_append]
      omega
  · refine bytesAt_middle (front ++ (t.metaText ++ t.request ++ (responseLine ++ response))) []
      (by simp only [List.append_assoc, List.append_nil]) ?_ places.summaryLen
    rw [places.summaryOff, List.length_append, List.length_append, List.length_append,
      List.length_append, line]
    omega
  · refine bytesAt_middle (front ++ (t.metaText ++ t.request) ++ responseLine) summary
      (by simp only [List.append_assoc]) ?_ ?_
    · rw [places.responseOff, List.length_append, List.length_append, List.length_append, line]
      omega
    · rw [places.responseLen]
      omega

theorem step_begun {c : Call} (begun : t.response.isSome) : (t.step c).response.isSome := by
  cases c with
  | appendRequestBody data => rwa [Transcript.step, append_isSome]
  | beginResponse now first behind => rwa [Transcript.step, if_pos begun]
  | appendResponseBody data => rwa [Transcript.step, if_pos begun, append_isSome]

theorem step_beginResponse (t : Transcript) {c : Call} (begins : c.isBeginResponse) :
    (t.step c).response.isSome := by
  cases c with
  | beginResponse now first behind =>
    by_cases already : t.response.isSome
    · exact step_begun already
    · rw [Transcript.step, if_neg already, Option.isSome_some]
  | appendRequestBody data => cases begins
  | appendResponseBody data => cases begins

theorem run_begun {calls : List Call}
    (begun : t.response.isSome ∨ calls.any Call.isBeginResponse) :
    (run Transcript.step t calls).response.isSome := by
  induction calls generalizing t with
  | nil => exact begun.resolve_right Bool.false_ne_true
  | cons c calls ih =>
    rw [List.any_cons, Bool.or_eq_true] at begun
    rcases begun with already | first | later
    · exact ih (Or.inl (step_begun already))
    · exact ih (Or.inl (step_beginResponse t first))
    · exact ih (Or.inr later)

theorem append_response (t : Transcript) (data : Bytes) (begun : t.response.isSome) :
    (t.append data).response.getD [] = t.response.getD [] ++ data := by
  obtain ⟨response, there⟩ := Option.isSome_iff_exists.mp begun
  rw [Transcript.append, there]
  rfl

/-- Behind the delimiter is at least the raw response. -/
theorem rawResponse_length (calls : List Call) (t : Transcript) :
    (t.response.getD []).length + (rawResponse t.response.isSome calls).length ≤
      ((run Transcript.step t calls).response.getD []).length := by
  induction calls generalizing t with
  | nil => exact Nat.le_refl _
  | cons c calls ih =>
    have later := ih (t.step c)
    refine Nat.le_trans ?_ later
    cases begun : t.response.isSome with
    | false =>
      have waiting : t.response = none := Option.not_isSome_iff_eq_none.mp (by rw [begun]; decide)
      cases c with
      | appendRequestBody data =>
        rw [Transcript.step, append_isSome, begun, rawResponse, waiting]
        exact Nat.add_le_add_right (Nat.zero_le _) _
      | beginResponse now first behind =>
        rw [Transcript.step, if_neg (by rw [begun]; decide), rawResponse, List.length_append, waiting]
        exact Nat.le_of_eq (Nat.zero_add _)
      | appendResponseBody data =>
        rw [Transcript.step, if_neg (by rw [begun]; decide), begun, rawResponse]
    | true =>
      cases c with
      | appendRequestBody data =>
        rw [Transcript.step, append_isSome, begun, append_response t _ begun, List.length_append,
          rawResponse]
        omega
      | beginResponse now first behind =>
        rw [Transcript.step, if_pos begun, begun, rawResponse]
      | appendResponseBody data =>
        rw [Transcript.step, if_pos begun, append_isSome, begun, append_response t _ begun,
          List.length_append, rawResponse, List.length_append]
        omega

section Session

variable {env : Surroundings} {recordDir upstreamUrl : Option Bytes} {req : HttpRequest}
  {calls : List Call}

theorem session_recorded
    (begun : mockRecorderBegin env recordDir (some req) upstreamUrl = some rec)
    (writes : WritesSucceed (run step rec calls)) :
    Recorded (run step rec calls)
      (run Transcript.step (transcriptBegin env.now req upstreamUrl) calls) :=
  run_recorded (begin_recorded begun (run_clear (recording_clear writes))) (recording_clear writes)

/-- The range of the response has the delimiter in it, so it is longer than the response. -/
theorem recording_never_plays_back
    (begun : mockRecorderBegin env recordDir (some req) upstreamUrl = some rec)
    (responded : calls.any Call.isBeginResponse)
    (writes : WritesSucceed (run step rec calls)) (disk : Disk) (behind : Bytes) (allocates : Bool) :
    ¬∃ file r, mockRecorderFinish disk (run step rec calls) (run step rec calls).filepath = some file ∧
      mockReaderOpen (mockRecorderFinish disk (run step rec calls))
        (some (run step rec calls).filepath) behind allocates = some r ∧
      PlaysBack file r (run Transcript.step (transcriptBegin env.now req upstreamUrl) calls)
        (rawResponse false calls) (summarySection (run step rec calls)) := by
  rintro ⟨file, r, closed, opened, plays⟩
  have recorded := session_recorded begun writes
  obtain ⟨response, there⟩ := Option.isSome_iff_exists.mp
    (run_begun (t := transcriptBegin env.now req upstreamUrl) (Or.inr responded))
  have same : file = (finishedFile (run step rec calls)).data := by
    rw [mockRecorderFinish, Function.update_self] at closed
    exact (Option.some.inj closed).symm
  have numbers : r = header (writeSummary (run step rec calls)) := by
    cases allocates with
    | false =>
      rw [mockReaderOpen] at opened
      split at opened <;> cases opened
    | true =>
      rw [reader_opens recorded there writes] at opened
      exact (Option.some.inj opened).symm
  obtain ⟨-, -, range, -, -⟩ := reader_ranges recorded there writes numbers
  rw [← same] at range
  have longer := congrArg List.length (range.symm.trans plays.response)
  have shorter := rawResponse_length calls (transcriptBegin env.now req upstreamUrl)
  rw [there, Option.getD_some] at shorter
  have delimiter : responseLine.length = 16 := by decide
  have nothing : (transcriptBegin env.now req upstreamUrl).response.isSome = false := rfl
  rw [nothing] at shorter
  rw [List.length_append, delimiter] at longer
  omega

theorem sample_long : 4096 < 2 ^ 63 := by decide

def sampleSurroundings : Surroundings := ⟨1700000000, fun _ => true, true, 4096, sample_long⟩

def sampleRequest : HttpRequest := ⟨some (ascii "GET"), some (ascii "/a?b"), none, [], []⟩

def sampleCalls : List Call :=
  [.beginResponse 1700000001 (some (ascii "HTTP/1.1 204 No Content\r\n\r\n")) []]

def sampleRecorder : MockRecorder :=
  writeRequest sampleRequest (writeMeta
    (opened sampleSurroundings (ascii "mocks/GET__a_1700000000.mock") sampleRequest none))

theorem sample_begun : mockRecorderBegin sampleSurroundings (some (ascii "mocks"))
    (some sampleRequest) none = some sampleRecorder := by
  have path : openPath sampleSurroundings (ascii "mocks") sampleRequest =
      some (ascii "mocks/GET__a_1700000000.mock") := by decide +kernel
  rw [mockRecorderBegin, path]
  rfl

instance (rec : MockRecorder) : Decidable (WritesSucceed rec) :=
  inferInstanceAs (Decidable ((finishedFile rec).error = false))

theorem sample_writes : WritesSucceed (run step sampleRecorder sampleCalls) := by decide +kernel

theorem recording_never_plays_back_sample : sampleCalls.any Call.isBeginResponse ∧
    WritesSucceed (run step sampleRecorder sampleCalls) ∧
    ¬∃ file r, mockRecorderFinish (fun _ => none) (run step sampleRecorder sampleCalls)
        (run step sampleRecorder sampleCalls).filepath = some file ∧
      mockReaderOpen (mockRecorderFinish (fun _ => none) (run step sampleRecorder sampleCalls))
        (some (run step sampleRecorder sampleCalls).filepath) [] true = some r ∧
      PlaysBack file r (run Transcript.step (transcriptBegin 1700000000 sampleRequest none) sampleCalls)
        (rawResponse false sampleCalls) (summarySection (run step sampleRecorder sampleCalls)) :=
  ⟨rfl, sample_writes, recording_never_plays_back sample_begun rfl sample_writes _ [] true⟩

/-- The reader finds the delimiter in front of the response. -/
theorem sample_response_range : ∃ file r,
    mockRecorderBegin sampleSurroundings (some (ascii "mocks")) (some sampleRequest) none =
      some sampleRecorder ∧
    WritesSucceed (run step sampleRecorder sampleCalls) ∧
    mockRecorderFinish (fun _ => none) (run step sampleRecorder sampleCalls)
      (ascii "mocks/GET__a_1700000000.mock") = some file ∧
    mockReaderOpen (mockRecorderFinish (fun _ => none) (run step sampleRecorder sampleCalls))
      (some (ascii "mocks/GET__a_1700000000.mock")) [] true = some r ∧
    bytesAt file (mockReaderResponseStart (some r)) (mockReaderResponseLength (some r)) =
      ascii "\n---RESPONSE---\nHTTP/1.1 204 No Content\r\n\r\n" ∧
    ¬PlaysBack file r (run Transcript.step (transcriptBegin 1700000000 sampleRequest none) sampleCalls)
      (rawResponse false sampleCalls) (summarySection (run step sampleRecorder sampleCalls)) := by
  have range : bytesAt (finishedFile (run step sampleRecorder sampleCalls)).data 359 43 =
      ascii "\n---RESPONSE---\nHTTP/1.1 204 No Content\r\n\r\n" := by decide +kernel
  refine ⟨(finishedFile (run step sampleRecorder sampleCalls)).data,
    ⟨256, 256, 68, 324, 78, 359, 43, 402, 105, 0, 27, 204⟩, sample_begun, sample_writes, ?_, ?_,
    range, ?_⟩
  · exact Function.update_self _ _ _
  · decide +kernel
  · intro plays
    have wrong := range.symm.trans plays.response
    exact absurd wrong (by decide +kernel)

/-- The calls of a session: pieces of the request body, the first bytes of the response, and
pieces of its body. -/
def session (requestBody : List (Option Bytes)) (now : Int) (first : Option Bytes) (behind : Bytes)
    (responseBody : List (Option Bytes)) : List Call :=
  requestBody.map .appendRequestBody ++
    .beginResponse now first behind :: responseBody.map .appendResponseBody

variable {requestBody responseBody : List (Option Bytes)} {now : Int} {first : Option Bytes}
  {behind : Bytes}

theorem run_requestBody (waiting : t.response = none) :
    run Transcript.step t (requestBody.map .appendRequestBody) =
      { t with request := t.request ++ requestBody.flatMap (·.getD []) } := by
  induction requestBody generalizing t with
  | nil => rw [List.flatMap_nil, List.append_nil]; rfl
  | cons data requestBody ih =>
    have next : t.step (.appendRequestBody data) = { t with request := t.request ++ data.getD [] } := by
      rw [Transcript.step, Transcript.append, waiting]
    rw [List.map_cons, List.flatMap_cons, ← List.append_assoc]
    change run Transcript.step (t.step _) _ = _
    rw [next]
    exact ih waiting

theorem run_responseBody (begun : t.response = some response) :
    run Transcript.step t (responseBody.map .appendResponseBody) =
      { t with response := some (response ++ responseBody.flatMap (·.getD [])) } := by
  induction responseBody generalizing t response with
  | nil => rw [List.flatMap_nil, List.append_nil, ← begun]; rfl
  | cons data responseBody ih =>
    have next : t.step (.appendResponseBody data) =
        { t with response := some (response ++ data.getD []) } := by
      rw [Transcript.step, begun, if_pos Option.isSome_some, Transcript.append, begun]
    rw [List.map_cons, List.flatMap_cons, ← List.append_assoc]
    change run Transcript.step (t.step _) _ = _
    rw [next]
    exact ih rfl

theorem rawResponse_session : rawResponse false (session requestBody now first behind responseBody) =
    first.getD [] ++ responseBody.flatMap (·.getD []) := by
  have started : rawResponse true (responseBody.map .appendResponseBody) =
      responseBody.flatMap (·.getD []) := by
    induction responseBody with
    | nil => rfl
    | cons data responseBody ih => rw [List.map_cons, rawResponse, ih, List.flatMap_cons]
  induction requestBody with
  | nil => rw [session, List.map_nil, List.nil_append, rawResponse, started]
  | cons data requestBody ih => exact ih

theorem run_session (waiting : t.response = none) :
    run Transcript.step t (session requestBody now first behind responseBody) =
      ⟨t.metaText, t.request ++ requestBody.flatMap (·.getD []),
        some (first.getD [] ++ responseBody.flatMap (·.getD []))⟩ := by
  rw [session, run_append, run_requestBody waiting]
  have begins : ({ t with request := t.request ++ requestBody.flatMap (·.getD []) } : Transcript).step
      (.beginResponse now first behind) =
      ⟨t.metaText, t.request ++ requestBody.flatMap (·.getD []), some (first.getD [])⟩ := by
    rw [Transcript.step, waiting, if_neg (by decide)]
  change run Transcript.step (Transcript.step _ _) _ = _
  rw [begins]
  exact run_responseBody rfl

/-- The raw response of a session is in the file, behind the delimiter. -/
theorem session_behind_delimiter {calls : List Call}
    (inOrder : calls = session requestBody now first behind responseBody)
    (begun : mockRecorderBegin env recordDir (some req) upstreamUrl = some rec)
    (writes : WritesSucceed (run step rec calls)) (disk : Disk) (memory : Bytes) : ∃ file r,
      mockRecorderFinish disk (run step rec calls) (run step rec calls).filepath = some file ∧
      mockReaderOpen (mockRecorderFinish disk (run step rec calls))
        (some (run step rec calls).filepath) memory true = some r ∧
      bytesAt file (mockReaderResponseStart (some r) + responseLine.length)
        (mockReaderResponseLength (some r) - responseLine.length) = rawResponse false calls := by
  have recorded := session_recorded begun writes
  have there : (run Transcript.step (transcriptBegin env.now req upstreamUrl) calls).response =
      some (rawResponse false calls) := by
    rw [inOrder, run_session rfl, rawResponse_session]
  obtain ⟨-, -, -, -, raw⟩ := reader_ranges recorded there writes rfl
  exact ⟨_, _, Function.update_self _ _ _, reader_opens recorded there writes disk memory, raw⟩

end Session

end MockRecording
