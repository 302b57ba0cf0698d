import NanoProxy.JsonBuffer
import NanoProxy.JsonRoundTrip
import NanoProxy.OutboundRequest

/-!
# Log lines (include/logger.h)

In its JSON mode the logger writes an object in each line. It escapes quotes, backslashes and
line ends, and drops carriage returns; other control characters go through. The access log has
the request line of a client in it.
-/

namespace LogLines

open CLib HttpRequestParser RequestDecoder RequestCodec AcceptedRequest OutboundRequest JsonGrammar
open JsonWriter JsonBuffer JsonReading JsonRoundTrip

inductive NpLogLevel where
  | trace
  | debug
  | info
  | warn
  | error
  | fatal
  | off
  deriving DecidableEq

def npLevelName : NpLogLevel → Bytes
  | .trace => ascii "TRACE"
  | .debug => ascii "DEBUG"
  | .info => ascii "INFO"
  | .warn => ascii "WARN"
  | .error => ascii "ERROR"
  | .fatal => ascii "FATAL"
  | .off => ascii "?????"

inductive NpLogSubsystem where
  | config
  | server
  | conn
  | http
  | proxy
  | forward
  | timeout
  | dns
  | access
  deriving DecidableEq

def npSubName : NpLogSubsystem → Bytes
  | .config => ascii "config"
  | .server => ascii "server"
  | .conn => ascii "conn"
  | .http => ascii "http"
  | .proxy => ascii "proxy"
  | .forward => ascii "forward"
  | .timeout => ascii "timeout"
  | .dns => ascii "dns"
  | .access => ascii "access"

def printable (b : UInt8) : Bool := 32 ≤ b && b ≤ 126 && b != 34 && b != 92

/-- What `strftime` makes of the time, and the milliseconds. -/
structure Clock where
  iso : Bytes
  clf : Bytes
  ms : Nat
  iso_printable : ∀ b ∈ iso, printable b = true
  clf_printable : ∀ b ∈ clf, printable b = true
  clf_length : clf.length < 64

def sampleClock : Clock where
  iso := ascii "2026-03-01T12:30:05"
  clf := ascii "01/Mar/2026:12:30:05 +0000"
  ms := 7
  iso_printable := List.all_eq_true.mp rfl
  clf_printable := List.all_eq_true.mp rfl
  clf_length := by decide

/-- `%03ld` -/
def padded (n : Nat) : Bytes := List.replicate (3 - (decimal n).length) 48 ++ decimal n

/-- The loop that escapes into `escaped[4096]`. -/
def escapeLoop (escaped : Bytes) : Bytes → Bytes
  | [] => escaped
  | b :: msg =>
    if 4096 - 2 ≤ escaped.length then escaped
    else if b = 34 ∨ b = 92 then escapeLoop (escaped ++ [92, b]) msg
    else if b = LF then escapeLoop (escaped ++ [92, 110]) msg
    else if b = CR then escapeLoop escaped msg
    else escapeLoop (escaped ++ [b]) msg

/-- The `fprintf` of the JSON mode, without the line end. -/
def jsonObject (clock : Clock) (level sub escaped : Bytes) : Bytes :=
  ascii "\x7b\"ts\":\"" ++ clock.iso ++ ascii "." ++ padded clock.ms ++ ascii "Z\",\"level\":\"" ++
    level ++ ascii "\",\"sub\":\"" ++ sub ++ ascii "\",\"msg\":\"" ++ escaped ++ ascii "\"\x7d"

/-- `vsnprintf` into `msg[2048]` -/
def formatted (text : Bytes) : Bytes := (cstr text).take 2047

/-- `np_log` in the JSON mode, for the text that the format gives. -/
def npLog (clock : Clock) (level : NpLogLevel) (subsystem : NpLogSubsystem) (text : Bytes) :
    Bytes :=
  jsonObject clock (npLevelName level) (npSubName subsystem) (escapeLoop [] (formatted text)) ++
    [LF]

/-- The trailing line ends of a message are stripped. -/
def stripped (msg : Bytes) : Bytes := msg.rdropWhile fun b => b == LF || b == CR

def npAccessLog (json : Bool) (clock : Clock) (text : Bytes) : Bytes :=
  if json then
    jsonObject clock (ascii "INFO") (ascii "access") (escapeLoop [] (stripped (formatted text))) ++
      [LF]
  else text

/-- `action` of `http_dispatcher` -/
def action (req : HttpRequest) : Bytes :=
  (req.method.getD [] ++ SP :: (req.uri.getD [] ++ SP :: req.version.getD [])).take 511

/-- The text of `default_access_log`. -/
def accessText (cd : Client) (clock : Clock) (action : Bytes) (status : Int32) (br bw : UInt64) :
    Bytes :=
  cd.addr ++ ascii " - - [" ++ clock.clf ++ ascii "] \"" ++ action ++ ascii "\" " ++
    formatInt status.toInt64 ++ SP :: (decimal br.toNat ++ SP :: (decimal bw.toNat ++ [LF]))

/-- What the loop writes for a byte when there is room. -/
def escapePiece (b : UInt8) : Bytes :=
  if b = 34 ∨ b = 92 then [92, b] else if b = LF then [92, 110] else if b = CR then [] else [b]

theorem escapePiece_length (b : UInt8) : (escapePiece b).length ≤ 2 := by
  unfold escapePiece
  split
  · exact Nat.le_refl 2
  split
  · exact Nat.le_refl 2
  split
  · exact Nat.zero_le 2
  · exact Nat.le_succ 1

/-- A message of 2047 bytes fits, whatever it is. -/
theorem escapeLoop_eq {msg escaped : Bytes} (room : escaped.length + 2 * msg.length ≤ 4094) :
    escapeLoop escaped msg = escaped ++ msg.flatMap escapePiece := by
  induction msg generalizing escaped with
  | nil => exact (List.append_nil escaped).symm
  | cons b msg ih =>
    have piece := escapePiece_length b
    rw [List.length_cons] at room
    have next := @ih (escaped ++ escapePiece b) (by rw [List.length_append]; omega)
    rw [List.flatMap_cons, ← List.append_assoc, ← next, escapeLoop, if_neg (by omega)]
    unfold escapePiece
    split
    · rfl
    split
    · rfl
    split
    · rw [List.append_nil]
    · rfl

/-- The control characters that the loop leaves as they are. -/
def Control (b : UInt8) : Prop := b < 32 ∧ b ≠ LF ∧ b ≠ CR

instance (b : UInt8) : Decidable (Control b) :=
  inferInstanceAs (Decidable (b < 32 ∧ b ≠ LF ∧ b ≠ CR))

/-- The message that a reader of the line gets. -/
def message (msg : Bytes) : Bytes := msg.filter (· != CR)

theorem escapePiece_text {b : UInt8} (plain : ¬Control b) :
    escapePiece b = if b = CR then [] else (escaped b).text := by
  have all := forall_byte (p := fun b => decide (Control b) ||
    decide (escapePiece b = if b = CR then [] else (escaped b).text)) (by decide +kernel) b
  simpa [plain] using all

/-- Without control characters the loop writes the characters of a JSON string. -/
theorem escaped_text {msg : Bytes} (plain : ∀ b ∈ msg, ¬Control b) :
    msg.flatMap escapePiece = ((message msg).map escaped).flatMap StrChar.text := by
  induction msg with
  | nil => rfl
  | cons b msg ih =>
    obtain ⟨here, plain⟩ := List.forall_mem_cons.mp plain
    rw [List.flatMap_cons, ih plain, escapePiece_text here]
    by_cases return_ : b = CR
    · rw [if_pos return_, message, message, List.filter_cons_of_neg (by simpa using return_),
        List.nil_append]
    · rw [if_neg return_, message, message, List.filter_cons_of_pos (by simpa using return_),
        List.map_cons, List.flatMap_cons]

theorem escapePiece_quoting {b : UInt8} (plain : ¬Control b) :
    quoting .inside (escapePiece b) = some .inside := by
  have all := forall_byte (p := fun b => decide (Control b) ||
    decide (quoting .inside (escapePiece b) = some .inside)) (by decide +kernel) b
  simpa [plain] using all

/-- A control character stands raw in the string. -/
theorem escaped_control {msg : Bytes} (control : ∃ b ∈ msg, Control b) :
    quoting .inside (msg.flatMap escapePiece) = none := by
  induction msg with
  | nil =>
    obtain ⟨b, listed, _⟩ := control
    cases listed
  | cons b msg ih =>
    rw [List.flatMap_cons, quoting_append]
    by_cases here : Control b
    · have stops := forall_byte (p := fun b => !decide (Control b) ||
        decide (quoting .inside (escapePiece b) = none)) (by decide +kernel) b
      have stopped : quoting .inside (escapePiece b) = none := by simpa [here] using stops
      rw [stopped, Option.bind_none]
    · obtain ⟨c, listed, later⟩ := control
      rw [escapePiece_quoting here, Option.bind_some]
      refine ih ⟨c, (List.mem_cons.mp listed).resolve_left ?_, later⟩
      rintro rfl
      exact here later

theorem escaped_no_newline (msg : Bytes) : LF ∉ msg.flatMap escapePiece := by
  intro listed
  obtain ⟨b, _, inside⟩ := List.mem_flatMap.mp listed
  have all := forall_byte (p := fun b => !(escapePiece b).contains LF) (by decide +kernel) b
  rw [List.contains_iff_mem.mpr inside] at all
  cases all

def plainChars (t : Bytes) : List StrChar := t.map StrChar.plain

theorem plainChars_valid {t : Bytes} (clean : ∀ b ∈ t, printable b = true) :
    ∀ c ∈ plainChars t, c.Valid := by
  intro c listed
  obtain ⟨b, inside, rfl⟩ := List.mem_map.mp listed
  have here := clean b inside
  simp only [printable, Bool.and_eq_true, decide_eq_true_eq, bne_iff_ne] at here
  exact ⟨here.1.1.1, here.1.2, here.2⟩

theorem plainChars_text (t : Bytes) : (plainChars t).flatMap StrChar.text = t := by
  induction t with
  | nil => rfl
  | cons b t ih => exact congrArg (b :: ·) ih

/-- The value of `ts`. -/
def timestamp (clock : Clock) : Bytes := clock.iso ++ ascii "." ++ padded clock.ms ++ ascii "Z"

theorem digit_printable {b : UInt8} (digit : isdigit b = true) : printable b = true := by
  have all := forall_byte (p := fun b => !isdigit b || printable b) (by decide +kernel) b
  simpa [digit] using all

theorem timestamp_printable (clock : Clock) : ∀ b ∈ timestamp clock, printable b = true := by
  intro b listed
  simp only [timestamp, padded, List.mem_append, List.mem_replicate] at listed
  rcases listed with ((iso | dot) | zero | digit) | zone
  · exact clock.iso_printable b iso
  · cases List.mem_singleton.mp dot
    rfl
  · rw [zero.2]
    rfl
  · exact digit_printable (RequestGrammar.decimal_digits digit)
  · cases List.mem_singleton.mp zone
    rfl

/-- A member without space. -/
def member (key : Bytes) (chars : List StrChar) : Member :=
  ⟨[], plainChars key, [], ⟨[], stringText chars, [], .string chars⟩⟩

theorem member_text (key : Bytes) (chars : List StrChar) :
    (member key chars).text = 34 :: (key ++ 34 :: 58 :: stringText chars) := by
  simp [member, Member.text, Element.text, stringText, plainChars_text]

theorem member_unquoted {key : Bytes} {chars : List StrChar}
    (keyed : ∀ b ∈ key, printable b = true) (valid : ∀ c ∈ chars, c.Valid) :
    Unquoted (member key chars).text := by
  have nothing : Unquoted [] := rfl
  have name := unquoted_string (plainChars_valid keyed)
  have value := nothing.append ((unquoted_string valid).append nothing)
  exact nothing.append (name.append (nothing.append (.cons (by decide) value)))

section Objects

variable (clock : Clock) (level sub : Bytes)

/-- The members in front of the message. -/
def heading : List Member :=
  [member (ascii "ts") (plainChars (timestamp clock)), member (ascii "level") (plainChars level),
    member (ascii "sub") (plainChars sub)]

/-- What a reader of the line gets. -/
def entry (chars : List StrChar) : Json :=
  .object [(plainChars (ascii "ts"), .string (plainChars (timestamp clock))),
    (plainChars (ascii "level"), .string (plainChars level)),
    (plainChars (ascii "sub"), .string (plainChars sub)),
    (plainChars (ascii "msg"), .string chars)]

/-- The text of the object up to the message. -/
def front : Bytes :=
  123 :: (commas ((heading clock level sub).map Member.text) ++ ascii ",\"msg\":")

theorem jsonObject_eq (escaped : Bytes) :
    jsonObject clock level sub escaped =
      front clock level sub ++ 34 :: (escaped ++ [34, 125]) := by
  simp [jsonObject, front, heading, commas, List.intercalate_cons_cons, member_text, stringText,
    plainChars_text, timestamp, ascii]

theorem jsonObject_members (chars : List StrChar) :
    jsonObject clock level sub (chars.flatMap StrChar.text) =
      123 :: (commas ((heading clock level sub ++ [member (ascii "msg") chars]).map Member.text) ++
        [125]) := by
  simp [jsonObject_eq, front, heading, commas, List.intercalate_cons_cons, member_text, stringText,
    ascii]

variable {level sub : Bytes} (level_printable : ∀ b ∈ level, printable b = true)
  (sub_printable : ∀ b ∈ sub, printable b = true)

include level_printable sub_printable

theorem heading_valid :
    ∀ m ∈ heading clock level sub, ∃ key chars, m = member key chars ∧
      (∀ b ∈ key, printable b = true) ∧ ∀ c ∈ chars, c.Valid := by
  intro m listed
  simp only [heading, List.mem_cons, List.not_mem_nil, or_false] at listed
  rcases listed with rfl | rfl | rfl
  · exact ⟨_, _, rfl, List.all_eq_true.mp rfl, plainChars_valid (timestamp_printable clock)⟩
  · exact ⟨_, _, rfl, List.all_eq_true.mp rfl, plainChars_valid level_printable⟩
  · exact ⟨_, _, rfl, List.all_eq_true.mp rfl, plainChars_valid sub_printable⟩

theorem front_unquoted : Unquoted (front clock level sub) := by
  have each : ∀ t ∈ (heading clock level sub).map Member.text, Unquoted t := by
    intro t listed
    obtain ⟨m, inside, rfl⟩ := List.mem_map.mp listed
    obtain ⟨key, chars, rfl, keyed, valid⟩ :=
      heading_valid clock level_printable sub_printable m inside
    exact member_unquoted keyed valid
  have key : Unquoted (ascii ",\"msg\":") := rfl
  exact .cons (by decide) ((unquoted_commas each).append key)

/-- Characters of a JSON string make a JSON object. -/
theorem jsonObject_entry {chars : List StrChar} (valid : ∀ c ∈ chars, c.Valid) :
    RfcText (jsonObject clock level sub (chars.flatMap StrChar.text))
      (entry clock level sub chars) := by
  have members : ∀ m ∈ heading clock level sub ++ [member (ascii "msg") chars],
      ∃ key chars, m = member key chars ∧ (∀ b ∈ key, printable b = true) ∧
        ∀ c ∈ chars, c.Valid := by
    refine List.forall_mem_append.mpr ⟨heading_valid clock level_printable sub_printable,
      List.forall_mem_singleton.mpr ⟨_, _, rfl, List.all_eq_true.mp rfl, valid⟩⟩
  have value : Value Rfc (jsonObject clock level sub (chars.flatMap StrChar.text))
      (entry clock level sub chars) := by
    rw [jsonObject_members]
    refine .object (by simp [heading]) (fun m listed => ?_) (fun m listed => ?_)
      fun m listed => ?_
    all_goals obtain ⟨key, chars, rfl, keyed, valid⟩ := members m listed
    · exact ⟨nofun, nofun, nofun, nofun⟩
    · exact plainChars_valid keyed
    · exact .string valid
  exact ⟨[], _, [], [], by rw [List.append_nil, List.append_nil, List.nil_append], nofun, value,
    nofun, rfl⟩

/-- The object is JSON just when no control character is left in the message. -/
theorem jsonObject_text (msg : Bytes) :
    (∃ tree, RfcText (jsonObject clock level sub (msg.flatMap escapePiece)) tree) ↔
      ∀ b ∈ msg, ¬Control b := by
  constructor
  · rintro ⟨tree, text⟩ b listed control
    have scanned := text.unquoted
    rw [jsonObject_eq, Unquoted, quoting_append, front_unquoted clock level_printable sub_printable,
      Option.bind_some, quoting_cons, Quoting.step, if_pos rfl, Option.bind_some, quoting_append,
      escaped_control ⟨b, listed, control⟩] at scanned
    cases scanned
  · intro plain
    rw [escaped_text plain]
    exact ⟨_, jsonObject_entry clock level_printable sub_printable (escaped_all _)⟩

theorem jsonObject_no_newline (msg : Bytes) :
    LF ∉ jsonObject clock level sub (msg.flatMap escapePiece) := by
  have plain {t : Bytes} (clean : ∀ b ∈ t, printable b = true) : LF ∉ t := fun listed =>
    absurd (clean LF listed) (by decide)
  have stamp := plain (timestamp_printable clock)
  simp only [timestamp, List.mem_append, not_or] at stamp
  simp only [jsonObject, List.mem_append, not_or]
  refine ⟨⟨⟨⟨⟨⟨⟨⟨⟨⟨by decide, stamp.1.1.1⟩, stamp.1.1.2⟩, stamp.1.2⟩, by decide⟩,
    plain level_printable⟩, by decide⟩, plain sub_printable⟩, by decide⟩,
    escaped_no_newline msg⟩, by decide⟩

end Objects

theorem npLevelName_printable (level : NpLogLevel) :
    ∀ b ∈ npLevelName level, printable b = true := by
  cases level <;> exact List.all_eq_true.mp rfl

theorem npSubName_printable (subsystem : NpLogSubsystem) :
    ∀ b ∈ npSubName subsystem, printable b = true := by
  cases subsystem <;> exact List.all_eq_true.mp rfl

theorem formatted_length (text : Bytes) : (formatted text).length ≤ 2047 := List.length_take_le _ _

theorem escapeLoop_formatted (text : Bytes) :
    escapeLoop [] (formatted text) = (formatted text).flatMap escapePiece := by
  have short := formatted_length text
  exact escapeLoop_eq (by rw [List.length_nil]; omega)

/-- An entry is one line. It is JSON just when the message has no control characters besides
line ends, and then the message is read back without the carriage returns. -/
theorem npLog_line (clock : Clock) (level : NpLogLevel) (subsystem : NpLogSubsystem)
    (text : Bytes) :
    ∃ object, npLog clock level subsystem text = object ++ [LF] ∧ LF ∉ object ∧
      ((∃ tree, RfcText object tree) ↔ ∀ b ∈ formatted text, ¬Control b) ∧
      ((∀ b ∈ formatted text, ¬Control b) →
        ∃ chars, RfcText object (entry clock (npLevelName level) (npSubName subsystem) chars) ∧
          decode chars = message (formatted text)) := by
  have levels := npLevelName_printable level
  have subs := npSubName_printable subsystem
  refine ⟨_, by rw [npLog, escapeLoop_formatted], jsonObject_no_newline clock levels subs _,
    jsonObject_text clock levels subs _, fun plain => ?_⟩
  rw [escaped_text plain]
  exact ⟨_, jsonObject_entry clock levels subs (escaped_all _), decode_map _⟩

theorem npLog_line_sample :
    ∃ object, npLog sampleClock .info .server (ascii "listening\r\n") = object ++ [LF] ∧
      LF ∉ object ∧
      ((∃ tree, RfcText object tree) ↔ ∀ b ∈ formatted (ascii "listening\r\n"), ¬Control b) ∧
      ((∀ b ∈ formatted (ascii "listening\r\n"), ¬Control b) →
        ∃ chars, RfcText object (entry sampleClock (ascii "INFO") (ascii "server") chars) ∧
          decode chars = message (formatted (ascii "listening\r\n"))) :=
  npLog_line sampleClock .info .server (ascii "listening\r\n")

example : npLog sampleClock .info .server (ascii "listening\r\n") =
    ascii "\x7b\"ts\":\"2026-03-01T12:30:05.007Z\",\"level\":\"INFO\",\"sub\":\"server\"," ++
      ascii "\"msg\":\"listening\\n\"\x7d\n" := by decide

/-- The parts of a start line are C strings on one line. -/
def OneLineStart (req : HttpRequest) : Prop :=
  OneLine (req.method.getD []) ∧ OneLine (req.uri.getD []) ∧ OneLine (req.version.getD [])

theorem oneLineStart_invariant : LineInvariant (fun _ => True) OneLineStart where
  start := by
    intro line req newline _ decoded
    unfold decodeRequestLine at decoded
    dsimp only at decoded
    split at decoded
    · cases decoded
      exact ⟨cstr_oneLine newline fun b listed => (List.takeWhile_prefix _).mem listed,
        cstr_oneLine newline fun b listed =>
          List.mem_of_mem_drop ((List.takeWhile_prefix _).mem listed),
        cstr_oneLine newline fun b listed => mem_chomp (List.mem_of_mem_drop listed)⟩
    · cases decoded
  header _ _ _ inv := inv
  body _ inv := inv

theorem action_oneLine {req : HttpRequest} (start : OneLineStart req) : OneLine (action req) := by
  obtain ⟨method, uri, version⟩ := start
  have outside {c : UInt8} (space : c ≠ SP) (m : c ∉ req.method.getD []) (u : c ∉ req.uri.getD [])
      (v : c ∉ req.version.getD []) : c ∉ action req := by
    intro listed
    have whole := (List.take_prefix _ _).mem listed
    simp only [List.mem_append, List.mem_cons, m, u, v, space, or_self] at whole
  exact ⟨outside (by decide) method.1 uri.1 version.1, outside (by decide) method.2 uri.2 version.2⟩

section Access

variable (cd : Client) (clock : Clock) (act : Bytes) (status : Int32) (br bw : UInt64)

/-- The text without its line end. -/
def accessLine : Bytes :=
  cd.addr ++ ascii " - - [" ++ clock.clf ++ ascii "] \"" ++ act ++ ascii "\" " ++
    formatInt status.toInt64 ++ SP :: (decimal br.toNat ++ SP :: decimal bw.toNat)

theorem accessText_eq :
    accessText cd clock act status br bw = accessLine cd clock act status br bw ++ [LF] := by
  simp [accessText, accessLine]

theorem formatInt_visible {n : Int64} {b : UInt8} (listed : b ∈ formatInt n) :
    visible b = true := by
  unfold formatInt at listed
  split at listed
  · rcases List.mem_cons.mp listed with rfl | listed
    · rfl
    · exact digit_visible (RequestGrammar.decimal_digits listed)
  · exact digit_visible (RequestGrammar.decimal_digits listed)

variable {cd clock act status br bw} in
/-- Only the action has other bytes than printable ones. -/
theorem accessLine_mem {b : UInt8} (listed : b ∈ accessLine cd clock act status br bw) :
    b ∈ act ∨ 32 ≤ b := by
  have low {c : UInt8} (h : visible c = true) : 32 ≤ c := by
    have all := forall_byte (p := fun c => !visible c || decide (32 ≤ c)) (by decide +kernel) c
    simpa [h] using all
  have literal {t : Bytes} (clean : t.all (fun c => decide (32 ≤ c)) = true) (h : b ∈ t) :
      b ∈ act ∨ 32 ≤ b := Or.inr (of_decide_eq_true (List.all_eq_true.mp clean b h))
  have digits {n : Nat} (h : b ∈ decimal n) : b ∈ act ∨ 32 ≤ b :=
    Or.inr (low (digit_visible (RequestGrammar.decimal_digits h)))
  simp only [accessLine, List.mem_append, List.mem_cons] at listed
  rcases listed with
    ((((((addr | dash) | clf) | quote) | inside) | quote) | code) | rfl | read | rfl | wrote
  · exact Or.inr (low (cd.addr_visible b addr))
  · exact literal rfl dash
  · have clean := clock.clf_printable b clf
    simp only [printable, Bool.and_eq_true, decide_eq_true_eq] at clean
    exact Or.inr clean.1.1.1
  · exact literal rfl quote
  · exact Or.inl inside
  · exact literal rfl quote
  · exact Or.inr (low (formatInt_visible code))
  · exact Or.inr (by decide)
  · exact digits read
  · exact Or.inr (by decide)
  · exact digits wrote

theorem accessText_length (short : act.length ≤ 511) :
    (accessText cd clock act status br bw).length ≤ 2047 := by
  have addr := cd.addr_length
  have clf := clock.clf_length
  have code := formatInt_length status.toInt64
  have count (n : UInt64) : (decimal n.toNat).length ≤ 20 :=
    decimal_length (by decide) (lt_trans n.toNat_lt (by decide))
  have read := count br
  have wrote := count bw
  have marks : (ascii " - - [").length = 6 ∧ (ascii "] \"").length = 3 ∧
      (ascii "\" ").length = 2 := by decide
  simp only [accessText, List.length_append, List.length_cons, List.length_nil, marks]
  omega

/-- The line ends in a digit. -/
theorem stripped_accessText :
    stripped (accessText cd clock act status br bw) = accessLine cd clock act status br bw := by
  have digits := RequestGrammar.decimal_ne_nil bw.toNat
  rw [accessText_eq, stripped, List.rdropWhile_concat_pos _ _ _ rfl,
    List.rdropWhile_eq_self_iff]
  intro nonempty ends
  have last : (accessLine cd clock act status br bw).getLast nonempty =
      (decimal bw.toNat).getLast digits := by
    simp [accessLine, digits]
  rw [last] at ends
  have digit := RequestGrammar.decimal_digits (List.getLast_mem digits)
  have none := forall_byte (p := fun b => !isdigit b || !(b == LF || b == CR)) (by decide +kernel)
    ((decimal bw.toNat).getLast digits)
  rw [digit, ends] at none
  cases none

end Access

/-- The access log of a request has one line in either mode. In the JSON mode it is JSON just
when the method, the target and the version that the parser has stored have no control
characters besides carriage returns, as far as `action` has room for them. -/
theorem accessLog_line {fd : Nat} {q : HttpParser} (h : AcceptedReads fd q) (cd : Client)
    (clock : Clock) (status : Int32) (br bw : UInt64) :
    ∃ line object, LF ∉ line ∧ LF ∉ object ∧
      npAccessLog false clock (accessText cd clock (action q.req) status br bw) = line ++ [LF] ∧
      npAccessLog true clock (accessText cd clock (action q.req) status br bw) = object ++ [LF] ∧
      ((∃ tree, RfcText object tree) ↔ ∀ b ∈ action q.req, ¬Control b) ∧
      ((∀ b ∈ action q.req, ¬Control b) →
        ∃ chars, RfcText object (entry clock (ascii "INFO") (ascii "access") chars) ∧
          decode chars = message line) := by
  have oneLine := action_oneLine (h.preserves oneLineStart_invariant fun _ _ => trivial)
  have whole : formatted (accessText cd clock (action q.req) status br bw) =
      accessText cd clock (action q.req) status br bw := by
    have nul : 0 ∉ accessText cd clock (action q.req) status br bw := by
      rw [accessText_eq, List.mem_append, List.mem_singleton]
      rintro (listed | same)
      · exact (accessLine_mem listed).elim oneLine.1 (by decide)
      · cases same
    rw [formatted, RequestGrammar.cstr_eq_self nul]
    exact List.take_of_length_le
      (accessText_length cd clock _ status br bw (List.length_take_le _ _))
  have control : (∀ b ∈ accessLine cd clock (action q.req) status br bw, ¬Control b) ↔
      ∀ b ∈ action q.req, ¬Control b := by
    constructor
    · intro plain b listed
      exact plain b (by simp [accessLine, listed])
    · intro plain b listed
      refine (accessLine_mem listed).elim (plain b) fun printed low => ?_
      exact absurd low.1 (by simpa using printed)
  have escaped_eq :
      escapeLoop [] (stripped (formatted (accessText cd clock (action q.req) status br bw))) =
        (accessLine cd clock (action q.req) status br bw).flatMap escapePiece := by
    have short := accessText_length cd clock (action q.req) status br bw (List.length_take_le _ _)
    rw [accessText_eq, List.length_append] at short
    rw [whole, stripped_accessText]
    exact escapeLoop_eq (by rw [List.length_nil]; omega)
  have levels : ∀ b ∈ ascii "INFO", printable b = true := List.all_eq_true.mp rfl
  have subs : ∀ b ∈ ascii "access", printable b = true := List.all_eq_true.mp rfl
  refine ⟨accessLine cd clock (action q.req) status br bw, _, fun listed => ?_,
    jsonObject_no_newline clock levels subs _, ?_, ?_,
    (jsonObject_text clock levels subs _).trans control, fun plain => ?_⟩
  · exact (accessLine_mem listed).elim oneLine.2 (by decide)
  · exact accessText_eq cd clock _ status br bw
  · rw [npAccessLog, if_pos rfl, escaped_eq]
  · rw [escaped_text (control.mpr plain)]
    exact ⟨_, jsonObject_entry clock levels subs (escaped_all _), decode_map _⟩

theorem accessLog_line_sample :
    ∃ line object, LF ∉ line ∧ LF ∉ object ∧
      npAccessLog false sampleClock
        (accessText sampleClient sampleClock (action sampleParser.req) 200 94 1024) =
          line ++ [LF] ∧
      npAccessLog true sampleClock
        (accessText sampleClient sampleClock (action sampleParser.req) 200 94 1024) =
          object ++ [LF] ∧
      ((∃ tree, RfcText object tree) ↔ ∀ b ∈ action sampleParser.req, ¬Control b) ∧
      ((∀ b ∈ action sampleParser.req, ¬Control b) →
        ∃ chars, RfcText object (entry sampleClock (ascii "INFO") (ascii "access") chars) ∧
          decode chars = message line) :=
  accessLog_line sampleAccepted sampleClient sampleClock 200 94 1024

end LogLines
