import NanoProxy.RequestGrammar

/-!
# The response builder (include/http.h, http_build_response)

Every line is formatted into a scratch array of 64 or 512 bytes and copied from there. `snprintf`
cuts a text that is too long for its array but returns the length of the whole text, and the
builder copies as many bytes as were returned. `Built.overrun` is such a copy from behind the
array, where C leaves the behaviour undefined.
-/

namespace ResponseBuilder

open CLib RequestGrammar

/-- A string of C. -/
structure CString where
  bytes : Bytes
  no_nul : (0 : UInt8) ∉ bytes

structure HttpHeader where
  key : CString
  value : CString

/-- `body` is `none` while its pointer is NULL; otherwise it points to `bodyLen` bytes. -/
structure HttpResponse where
  statusCode : Int32
  reasonPhrase : Option CString
  headers : List HttpHeader
  body : Option Bytes
  bodyLen : Nat
  bodyLen_size : bodyLen < 2 ^ 64
  body_object : ∀ b, body = some b → b.length = bodyLen ∧ bodyLen < 2 ^ 63

/-- What `snprintf(array, size, …)` leaves at the front of the array, and what it returns, as a
`size_t`: for a text that has no length in an `int` that is -1. -/
def snprintf (size : Nat) (text : Bytes) : Bytes × Nat :=
  (text.take (size - 1) ++ [0], if text.length < 2 ^ 31 then text.length else 2 ^ 64 - 1)

def strlen (array : Bytes) : Nat := (array.takeWhile (· != 0)).length

inductive Built where
  | refused
  | overrun
  | done (out : Bytes)
  deriving DecidableEq

def Built.bind : Built → (Bytes → Built) → Built
  | .done out, next => next out
  | built, _ => built

def hasLineBreak (s : Bytes) : Bool := s.any fun b => b == CR || b == LF

/-- `%d` -/
def formatInt (n : Int32) : Bytes :=
  if n < 0 then 45 :: decimal n.toInt.natAbs else decimal n.toInt.natAbs

def reasonText (resp : HttpResponse) : Bytes :=
  match resp.reasonPhrase with
  | some reason => reason.bytes
  | none => []

def statusText (resp : HttpResponse) : Bytes :=
  ascii "HTTP/1.1 " ++ formatInt resp.statusCode ++ [SP] ++ reasonText resp ++ CRLF

def headerText (h : HttpHeader) : Bytes := h.key.bytes ++ ascii ": " ++ h.value.bytes ++ CRLF

def lengthText (resp : HttpResponse) : Bytes :=
  ascii "Content-Length: " ++ decimal resp.bodyLen ++ CRLF

/-- A line that goes through a scratch array of `size` bytes. -/
def putLine (bufSize size : Nat) (text out : Bytes) : Built :=
  let (array, hlen) := snprintf size text
  if bufSize ≤ (out.length + hlen) % 2 ^ 64 then .refused
  else if size < hlen then .overrun
  else .done (out ++ array.take hlen)

def putHeaders (bufSize : Nat) : List HttpHeader → Bytes → Built
  | [], out => .done out
  | h :: headers, out =>
    if hasLineBreak h.value.bytes then .refused
    else (putLine bufSize 512 (headerText h) out).bind (putHeaders bufSize headers)

/-- Bytes that are copied from where they are. -/
def putBytes (bufSize : Nat) (bytes out : Bytes) : Built :=
  if bufSize ≤ (out.length + bytes.length) % 2 ^ 64 then .refused else .done (out ++ bytes)

def putBody (bufSize : Nat) (resp : HttpResponse) (out : Bytes) : Built :=
  match resp.body with
  | some body => if 0 < resp.bodyLen then putBytes bufSize body out else .done out
  | none => .done out

def httpBuildResponse (resp : HttpResponse) (bufSize : Nat) : Built :=
  if hasLineBreak (reasonText resp) then .refused
  else
    let (statusLine, _) := snprintf 64 (statusText resp)
    let len := strlen statusLine
    if bufSize ≤ len then .refused
    else
      (((putHeaders bufSize resp.headers (statusLine.take len)).bind
        (putLine bufSize 64 (lengthText resp))).bind (putBytes bufSize CRLF)).bind
        (putBody bufSize resp)

def render (resp : HttpResponse) : Bytes :=
  statusText resp ++ resp.headers.flatMap headerText ++ lengthText resp ++ CRLF ++
    resp.body.getD []

/-- The builder refuses, or it gives exactly the response; and what it gives has no CR or LF in
the phrase or in a value. -/
def Exact (resp : HttpResponse) (bufSize : Nat) : Prop :=
  httpBuildResponse resp bufSize = .refused ∨
    (httpBuildResponse resp bufSize = .done (render resp) ∧
      hasLineBreak (reasonText resp) = false ∧
      ∀ h ∈ resp.headers, hasLineBreak h.value.bytes = false)

/-- The length of the header lines. -/
def total (headers : List HttpHeader) : Nat := (headers.flatMap headerText).length

/-- Among the headers, in front of which `start` bytes stand, one is refused before a line is
copied that has no room in its array. -/
def RefusedAt (bufSize start : Nat) (headers : List HttpHeader) : Prop :=
  ∃ before h behind, headers = before ++ h :: behind ∧
    (∀ x ∈ before, (headerText x).length ≤ 512) ∧
    (hasLineBreak h.value.bytes = true ∨
      ((headerText h).length < 2 ^ 31 ∧ bufSize ≤ start + total before + (headerText h).length))

/-- The bytes that are counted for the status line. -/
def statusLength (resp : HttpResponse) : Nat := min 63 (statusText resp).length

/-- A check refuses the response before a line is copied that has no room in its array. -/
def RefusedFirst (resp : HttpResponse) (bufSize : Nat) : Prop :=
  hasLineBreak (reasonText resp) = true ∨ bufSize ≤ statusLength resp ∨
    RefusedAt bufSize (statusLength resp) resp.headers ∨
    ((∀ h ∈ resp.headers, (headerText h).length ≤ 512) ∧
      bufSize ≤ statusLength resp + total resp.headers + (lengthText resp).length + 2 +
        (resp.body.getD []).length)

/-- Every line has room in its array, with its NUL. -/
def LinesShort (resp : HttpResponse) : Prop :=
  (statusText resp).length ≤ 63 ∧ ∀ h ∈ resp.headers, (headerText h).length ≤ 511

section Lines

variable {bufSize size : Nat} {text out : Bytes}

/-- What a line of an `int`'s length that has room in its array does. -/
theorem putLine_short (object : bufSize < 2 ^ 63) (room : out.length < bufSize)
    (fits : text.length ≤ size) (small : size < 2 ^ 31) (pos : 0 < size) :
    putLine bufSize size text out =
      if bufSize ≤ out.length + text.length then .refused
      else .done (out ++ if text.length < size then text else text.take (size - 1) ++ [0]) := by
  have int : text.length < 2 ^ 31 := Nat.lt_of_le_of_lt fits small
  have sum : (out.length + text.length) % 2 ^ 64 = out.length + text.length :=
    Nat.mod_eq_of_lt (by omega)
  rw [putLine, snprintf, if_pos int]
  dsimp only
  rw [sum, if_neg (Nat.not_lt.mpr fits)]
  refine if_congr Iff.rfl rfl ?_
  congr 2
  split
  · rename_i short
    have whole : text.take (size - 1) = text := List.take_of_length_le (by omega)
    rw [whole, List.take_left' rfl]
  · rename_i long
    exact List.take_of_length_le (by
      rw [List.length_append, List.length_take, List.length_singleton]
      omega)

/-- A line without room in its array is refused or copied from behind it. -/
theorem putLine_long (object : bufSize < 2 ^ 63) (room : out.length < bufSize)
    (pos : 0 < out.length) (long : size < text.length) (small : size < 2 ^ 31) :
    putLine bufSize size text out =
      if text.length < 2 ^ 31 ∧ bufSize ≤ out.length + text.length then .refused else .overrun := by
  rw [putLine, snprintf]
  dsimp only
  by_cases int : text.length < 2 ^ 31
  · rw [if_pos int, Nat.mod_eq_of_lt (by omega), if_pos long]
    exact if_congr ⟨fun h => ⟨int, h⟩, fun h => h.2⟩ rfl rfl
  · have wraps : (out.length + (2 ^ 64 - 1)) % 2 ^ 64 = out.length - 1 := by omega
    rw [if_neg int, wraps, if_neg (by omega), if_pos (by omega), if_neg fun h => int h.1]

theorem putBytes_eq {bytes : Bytes} (object : bufSize < 2 ^ 63) (room : out.length < bufSize)
    (small : bytes.length < 2 ^ 63) :
    putBytes bufSize bytes out =
      if bufSize ≤ out.length + bytes.length then .refused else .done (out ++ bytes) := by
  rw [putBytes, Nat.mod_eq_of_lt (by omega)]

end Lines

theorem total_cons (h : HttpHeader) (headers : List HttpHeader) :
    total (h :: headers) = (headerText h).length + total headers := by
  rw [total, List.flatMap_cons, List.length_append]
  rfl

theorem refusedAt_cons {bufSize start : Nat} {h : HttpHeader} {headers : List HttpHeader} :
    RefusedAt bufSize start (h :: headers) ↔
      (hasLineBreak h.value.bytes = true ∨
        ((headerText h).length < 2 ^ 31 ∧ bufSize ≤ start + (headerText h).length)) ∨
      ((headerText h).length ≤ 512 ∧ RefusedAt bufSize (start + (headerText h).length) headers) := by
  constructor
  · rintro ⟨before, x, behind, split, fits, refuses⟩
    cases before with
    | nil =>
      cases split
      exact Or.inl refuses
    | cons y before =>
      cases split
      obtain ⟨here, later⟩ := List.forall_mem_cons.mp fits
      refine Or.inr ⟨here, before, x, behind, rfl, later, ?_⟩
      rw [total_cons, ← Nat.add_assoc] at refuses
      exact refuses
  · rintro (refuses | ⟨here, before, x, behind, split, fits, refuses⟩)
    · exact ⟨[], h, headers, rfl, fun x absent => absurd absent List.not_mem_nil, refuses⟩
    · refine ⟨h :: before, x, behind, by rw [split]; rfl, List.forall_mem_cons.mpr ⟨here, fits⟩, ?_⟩
      rw [total_cons, ← Nat.add_assoc]
      exact refuses

/-- What is copied for a header line of at most 512 bytes. -/
def copied (h : HttpHeader) : Bytes :=
  if (headerText h).length < 512 then headerText h else (headerText h).take 511 ++ [0]

theorem copied_length {h : HttpHeader} (fits : (headerText h).length ≤ 512) :
    (copied h).length = (headerText h).length := by
  rw [copied]
  split
  · rfl
  · rw [List.length_append, List.length_take, List.length_singleton]
    omega

theorem copied_eq_iff (h : HttpHeader) : copied h = headerText h ↔ (headerText h).length < 512 := by
  constructor
  · intro same
    by_contra long
    rw [copied, if_neg long] at same
    have last : (headerText h).getLast? = some 0 := by
      rw [← same, List.getLast?_concat]
    have lf : (headerText h).getLast? = some LF := by
      rw [headerText, CRLF, List.getLast?_append]
      rfl
    rw [lf] at last
    exact absurd (Option.some.inj last) (by decide)
  · intro short
    rw [copied, if_pos short]

/-- The copies are the lines themselves when every line leaves room for its NUL. -/
theorem copies_eq_iff {headers : List HttpHeader}
    (fits : ∀ h ∈ headers, (headerText h).length ≤ 512) :
    headers.flatMap copied = headers.flatMap headerText ↔
      ∀ h ∈ headers, (headerText h).length ≤ 511 := by
  induction headers with
  | nil => exact ⟨fun _ h absent => absurd absent List.not_mem_nil, fun _ => rfl⟩
  | cons h headers ih =>
    obtain ⟨here, later⟩ := List.forall_mem_cons.mp fits
    rw [List.flatMap_cons, List.flatMap_cons, List.forall_mem_cons, ← ih later, ← Nat.lt_succ_iff,
      ← copied_eq_iff]
    constructor
    · intro same
      exact List.append_inj same (copied_length here)
    · rintro ⟨first, rest⟩
      rw [first, rest]

theorem copies_length {headers : List HttpHeader}
    (fits : ∀ h ∈ headers, (headerText h).length ≤ 512) :
    (headers.flatMap copied).length = total headers := by
  induction headers with
  | nil => rfl
  | cons h headers ih =>
    obtain ⟨here, later⟩ := List.forall_mem_cons.mp fits
    rw [List.flatMap_cons, List.length_append, ih later, copied_length here, total_cons]

/-- The header lines are refused, copied from behind an array, or all put. -/
theorem putHeaders_cases {bufSize : Nat} (object : bufSize < 2 ^ 63) (headers : List HttpHeader) :
    ∀ {out : Bytes}, out.length < bufSize → 0 < out.length →
      (putHeaders bufSize headers out = .refused ∧ RefusedAt bufSize out.length headers) ∨
      (putHeaders bufSize headers out = .overrun ∧ ¬ RefusedAt bufSize out.length headers ∧
        ∃ h ∈ headers, 512 < (headerText h).length) ∨
      (putHeaders bufSize headers out = .done (out ++ headers.flatMap copied) ∧
        ¬ RefusedAt bufSize out.length headers ∧
        (∀ h ∈ headers, (headerText h).length ≤ 512 ∧ hasLineBreak h.value.bytes = false) ∧
        out.length + total headers < bufSize) := by
  induction headers with
  | nil =>
    intro out room _
    refine Or.inr (Or.inr ⟨by simp [putHeaders], ?_, fun h absent => absurd absent List.not_mem_nil,
      room⟩)
    rintro ⟨before, h, behind, split, -⟩
    simp at split
  | cons h headers ih =>
    intro out room pos
    rw [putHeaders, refusedAt_cons]
    by_cases breaks : hasLineBreak h.value.bytes = true
    · exact Or.inl ⟨if_pos breaks, Or.inl (Or.inl breaks)⟩
    rw [if_neg breaks]
    by_cases fits : (headerText h).length ≤ 512
    · rw [putLine_short object room fits (by decide) (by decide)]
      by_cases full : bufSize ≤ out.length + (headerText h).length
      · rw [if_pos full]
        exact Or.inl ⟨rfl, Or.inl (Or.inr ⟨by omega, full⟩)⟩
      rw [if_neg full]
      change (putHeaders bufSize headers (out ++ copied h) = _ ∧ _) ∨
        (putHeaders bufSize headers (out ++ copied h) = _ ∧ _) ∨
        (putHeaders bufSize headers (out ++ copied h) = _ ∧ _)
      have length : (out ++ copied h).length = out.length + (headerText h).length := by
        rw [List.length_append, copied_length fits]
      have next := @ih (out ++ copied h) (by omega) (by omega)
      rw [length] at next
      have here : ¬ (hasLineBreak h.value.bytes = true ∨ ((headerText h).length < 2 ^ 31 ∧
          bufSize ≤ out.length + (headerText h).length)) := by
        rintro (h | h)
        · exact breaks h
        · exact full h.2
      rcases next with ⟨result, refused⟩ | ⟨result, passes, x, listed, long⟩ |
        ⟨result, passes, each, short⟩
      · exact Or.inl ⟨result, Or.inr ⟨fits, refused⟩⟩
      · refine Or.inr (Or.inl ⟨result, ?_, x, List.mem_cons_of_mem h listed, long⟩)
        rintro (refused | refused)
        · exact here refused
        · exact passes refused.2
      · refine Or.inr (Or.inr ⟨?_, ?_, ?_, ?_⟩)
        · rw [result, List.flatMap_cons, List.append_assoc]
        · rintro (refused | refused)
          · exact here refused
          · exact passes refused.2
        · exact List.forall_mem_cons.mpr ⟨⟨fits, Bool.eq_false_iff.mpr breaks⟩, each⟩
        · rw [total_cons]
          omega
    · rw [putLine_long object room pos (Nat.not_le.mp fits) (by decide)]
      by_cases full : (headerText h).length < 2 ^ 31 ∧ bufSize ≤ out.length + (headerText h).length
      · rw [if_pos full]
        exact Or.inl ⟨rfl, Or.inl (Or.inr full)⟩
      · rw [if_neg full]
        refine Or.inr (Or.inl ⟨rfl, ?_, h, List.mem_cons_self, Nat.not_le.mp fits⟩)
        rintro ((refused | refused) | refused)
        · exact breaks refused
        · exact full refused
        · exact fits refused.1

theorem decimal_no_nul (n : Nat) : (0 : UInt8) ∉ decimal n := fun nul =>
  absurd (decimal_digits nul) (by decide)

theorem formatInt_no_nul (n : Int32) : (0 : UInt8) ∉ formatInt n := by
  rw [formatInt]
  split
  · exact fun nul => (List.mem_cons.mp nul).elim (by decide) (decimal_no_nul _)
  · exact decimal_no_nul _

theorem statusText_no_nul (resp : HttpResponse) : (0 : UInt8) ∉ statusText resp := by
  have reason : (0 : UInt8) ∉ reasonText resp := by
    rw [reasonText]
    split
    · rename_i reason _
      exact reason.no_nul
    · exact List.not_mem_nil
  have version : (0 : UInt8) ∉ ascii "HTTP/1.1 " := by decide
  have space : (0 : UInt8) ∉ [SP] := by decide
  have ending : (0 : UInt8) ∉ CRLF := by decide
  rw [statusText]
  simp only [List.mem_append, not_or]
  exact ⟨⟨⟨⟨version, formatInt_no_nul _⟩, space⟩, reason⟩, ending⟩

/-- The status line as it is counted and copied: at most 63 bytes of it. -/
theorem statusLine_eq (resp : HttpResponse) :
    strlen (snprintf 64 (statusText resp)).1 = statusLength resp ∧
      (snprintf 64 (statusText resp)).1.take (statusLength resp) = (statusText resp).take 63 := by
  have text : ((statusText resp).take 63 ++ [0]).takeWhile (· != 0) = (statusText resp).take 63 := by
    rw [List.takeWhile_append_of_pos]
    · simp
    · intro b listed
      simpa using fun nul : b = 0 => statusText_no_nul resp (nul ▸ List.mem_of_mem_take listed)
  have length : ((statusText resp).take 63).length = statusLength resp := List.length_take
  constructor
  · rw [strlen, snprintf]
    dsimp only
    rw [text, length]
  · rw [snprintf]
    exact List.take_left' length

theorem lengthText_short (resp : HttpResponse) : (lengthText resp).length < 64 := by
  have word : resp.bodyLen < 10 ^ 20 := Nat.lt_trans resp.bodyLen_size (by decide)
  have digits : (decimal resp.bodyLen).length ≤ 20 := decimal_length (by decide) word
  have front : (ascii "Content-Length: ").length = 16 := by decide
  have back : CRLF.length = 2 := rfl
  rw [lengthText, List.length_append, List.length_append]
  omega

/-- What stands behind the header lines is put whole or refused. -/
theorem tail_eq {bufSize : Nat} {out : Bytes} (resp : HttpResponse) (object : bufSize < 2 ^ 63)
    (room : out.length < bufSize) :
    ((putLine bufSize 64 (lengthText resp) out).bind (putBytes bufSize CRLF)).bind
        (putBody bufSize resp) =
      if bufSize ≤ out.length + (lengthText resp).length + 2 + (resp.body.getD []).length
      then .refused else .done (out ++ lengthText resp ++ CRLF ++ resp.body.getD []) := by
  have short := lengthText_short resp
  rw [putLine_short object room (Nat.le_of_lt short) (by decide) (by decide), if_pos short]
  by_cases full : bufSize ≤ out.length + (lengthText resp).length
  · rw [if_pos full, if_pos (by omega)]
    rfl
  rw [if_neg full]
  have length : (out ++ lengthText resp).length = out.length + (lengthText resp).length :=
    List.length_append
  change (putBytes bufSize CRLF (out ++ lengthText resp)).bind (putBody bufSize resp) = _
  rw [putBytes_eq object (by omega) (by decide), length]
  have two : CRLF.length = 2 := rfl
  by_cases full' : bufSize ≤ out.length + (lengthText resp).length + CRLF.length
  · rw [if_pos full', if_pos (by omega)]
    rfl
  rw [if_neg full']
  change putBody bufSize resp (out ++ lengthText resp ++ CRLF) = _
  have length' : (out ++ lengthText resp ++ CRLF).length =
      out.length + (lengthText resp).length + 2 := by
    rw [List.length_append, length]
    rfl
  rw [putBody]
  cases body : resp.body with
  | none => rw [Option.getD_none, if_neg (by rw [List.length_nil]; omega), List.append_nil]
  | some b =>
    obtain ⟨same, small⟩ := resp.body_object b body
    dsimp only
    rw [Option.getD_some]
    by_cases filled : 0 < resp.bodyLen
    · rw [if_pos filled, putBytes_eq object (by omega) (by omega), length']
    · have empty : b = [] := List.length_eq_zero_iff.mp (by omega)
      rw [if_neg filled, empty, if_neg (by rw [List.length_nil]; omega), List.append_nil]

theorem statusText_pos (resp : HttpResponse) : 0 < statusLength resp := by
  have front : (ascii "HTTP/1.1 ").length = 9 := by decide
  rw [statusLength, statusText]
  simp only [List.length_append]
  omega

/-- The response, as far as the arrays have room for its lines. -/
def cutRender (resp : HttpResponse) : Bytes :=
  (statusText resp).take 63 ++ resp.headers.flatMap copied ++ lengthText resp ++ CRLF ++
    resp.body.getD []

/-- The three ways in which the builder ends. -/
theorem httpBuildResponse_cases (resp : HttpResponse) {bufSize : Nat} (object : bufSize < 2 ^ 63) :
    (httpBuildResponse resp bufSize = .refused ∧ RefusedFirst resp bufSize) ∨
      (httpBuildResponse resp bufSize = .overrun ∧ ¬ RefusedFirst resp bufSize ∧
        ∃ h ∈ resp.headers, 512 < (headerText h).length) ∨
      (httpBuildResponse resp bufSize = .done (cutRender resp) ∧ ¬ RefusedFirst resp bufSize ∧
        hasLineBreak (reasonText resp) = false ∧
        ∀ h ∈ resp.headers, (headerText h).length ≤ 512 ∧ hasLineBreak h.value.bytes = false) := by
  obtain ⟨counted, copy⟩ := statusLine_eq resp
  have length : ((statusText resp).take 63).length = statusLength resp := List.length_take
  rw [httpBuildResponse]
  dsimp only
  rw [counted, copy]
  by_cases breaks : hasLineBreak (reasonText resp) = true
  · rw [if_pos breaks]
    exact Or.inl ⟨rfl, Or.inl breaks⟩
  rw [if_neg breaks]
  by_cases full : bufSize ≤ statusLength resp
  · rw [if_pos full]
    exact Or.inl ⟨rfl, Or.inr (Or.inl full)⟩
  rw [if_neg full]
  have pos := statusText_pos resp
  have cases := @putHeaders_cases bufSize object resp.headers ((statusText resp).take 63)
    (by omega) (by omega)
  rw [length] at cases
  rcases cases with ⟨result, refused⟩ | ⟨result, passes, long⟩ | ⟨result, passes, each, room⟩
  · rw [result]
    exact Or.inl ⟨rfl, Or.inr (Or.inr (Or.inl refused))⟩
  · rw [result]
    obtain ⟨h, listed, long⟩ := long
    refine Or.inr (Or.inl ⟨rfl, ?_, h, listed, long⟩)
    rintro (refused | refused | refused | ⟨fits, -⟩)
    · exact breaks refused
    · exact full refused
    · exact passes refused
    · exact absurd (fits h listed) (Nat.not_le.mpr long)
  · have fits : ∀ h ∈ resp.headers, (headerText h).length ≤ 512 := fun h listed => (each h listed).1
    have head : ((statusText resp).take 63 ++ resp.headers.flatMap copied).length =
        statusLength resp + total resp.headers := by
      rw [List.length_append, length, copies_length fits]
    rw [result]
    change ((((putLine bufSize 64 (lengthText resp) _).bind (putBytes bufSize CRLF)).bind
      (putBody bufSize resp)) = _ ∧ _) ∨ ((((putLine bufSize 64 (lengthText resp) _).bind
      (putBytes bufSize CRLF)).bind (putBody bufSize resp)) = _ ∧ _) ∨
      ((((putLine bufSize 64 (lengthText resp) _).bind (putBytes bufSize CRLF)).bind
      (putBody bufSize resp)) = _ ∧ _)
    rw [tail_eq resp object (by omega), head]
    by_cases late : bufSize ≤ statusLength resp + total resp.headers + (lengthText resp).length + 2 +
        (resp.body.getD []).length
    · rw [if_pos late]
      exact Or.inl ⟨rfl, Or.inr (Or.inr (Or.inr ⟨fits, late⟩))⟩
    · rw [if_neg late]
      refine Or.inr (Or.inr ⟨rfl, ?_, Bool.eq_false_iff.mpr breaks, each⟩)
      rintro (refused | refused | refused | ⟨-, refused⟩)
      · exact breaks refused
      · exact full refused
      · exact passes refused
      · exact late refused

/-- What is built is the response when every line has room in its array. -/
theorem cutRender_eq_iff {resp : HttpResponse}
    (fits : ∀ h ∈ resp.headers, (headerText h).length ≤ 512) :
    cutRender resp = render resp ↔ LinesShort resp := by
  rw [cutRender, render, LinesShort, ← copies_eq_iff fits]
  constructor
  · intro same
    have whole := List.append_cancel_right (List.append_cancel_right (List.append_cancel_right same))
    have lengths := congrArg List.length whole
    rw [List.length_append, List.length_append, copies_length fits, total, List.length_take]
      at lengths
    have short : (statusText resp).length ≤ 63 := by omega
    rw [List.take_of_length_le short] at whole
    exact ⟨short, List.append_cancel_left whole⟩
  · rintro ⟨short, copies⟩
    rw [List.take_of_length_le short, copies]

/-- For which responses the builder is exact. -/
theorem httpBuildResponse_exact_iff (resp : HttpResponse) (bufSize : Nat) (object : bufSize < 2 ^ 63) :
    Exact resp bufSize ↔ RefusedFirst resp bufSize ∨ LinesShort resp := by
  rw [Exact]
  rcases httpBuildResponse_cases resp object with ⟨result, refused⟩ |
    ⟨result, passes, h, listed, long⟩ | ⟨result, passes, phrase, each⟩
  · exact iff_of_true (Or.inl result) (Or.inl refused)
  · refine iff_of_false ?_ ?_
    · rw [result]
      rintro (other | ⟨other, -⟩)
      · cases other
      · cases other
    · rintro (refused | ⟨-, short⟩)
      · exact passes refused
      · have := short h listed
        omega
  · have fits : ∀ h ∈ resp.headers, (headerText h).length ≤ 512 := fun h listed => (each h listed).1
    rw [result, ← cutRender_eq_iff fits]
    constructor
    · rintro (other | ⟨same, -⟩)
      · cases other
      · exact Or.inr (Built.done.inj same)
    · rintro (refused | same)
      · exact absurd refused passes
      · exact Or.inr ⟨by rw [same], phrase, fun h listed => (each h listed).2⟩

def okText : CString := ⟨ascii "OK", by decide⟩

def okResponse : HttpResponse where
  statusCode := 200
  reasonPhrase := some okText
  headers := [⟨⟨ascii "Server", by decide⟩, ⟨ascii "NanoServer/0.1", by decide⟩⟩]
  body := none
  bodyLen := 0
  bodyLen_size := by decide
  body_object := fun b absent => by cases absent

theorem exact_okResponse : Exact okResponse 2048 ↔
    RefusedFirst okResponse 2048 ∨ LinesShort okResponse :=
  httpBuildResponse_exact_iff okResponse 2048 (by decide)

/-- A phrase of 60 letters, so that the status line has 75 bytes. -/
def longPhrase : HttpResponse where
  statusCode := 200
  reasonPhrase := some ⟨List.replicate 60 65, by decide⟩
  headers := []
  body := none
  bodyLen := 0
  bodyLen_size := by decide
  body_object := fun b absent => by cases absent

/-- The end of a long status line is lost, and its CRLF with it. -/
theorem exact_fails :
    ¬ ∀ (resp : HttpResponse) (bufSize : Nat), bufSize < 2 ^ 63 → Exact resp bufSize := by
  intro always
  rcases httpBuildResponse_cases longPhrase (by decide : 2048 < 2 ^ 63) with ⟨result, -⟩ |
    ⟨-, -, h, listed, -⟩ | ⟨result, -⟩
  · exact absurd result (by decide)
  · cases listed
  · rcases always longPhrase 2048 (by decide) with other | ⟨same, -⟩
    · rw [result] at other
      cases other
    · rw [result] at same
      have fits : ∀ h ∈ longPhrase.headers, (headerText h).length ≤ 512 := fun h listed => by
        cases listed
      have short := ((cutRender_eq_iff fits).mp (Built.done.inj same)).1
      exact absurd short (by decide)

end ResponseBuilder
