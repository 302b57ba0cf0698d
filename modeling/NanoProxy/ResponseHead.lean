import NanoProxy.OutboundRequest

/-!
# The head of an upstream response (include/request.h)

What `proxy_relay_upstream_keepalive` reads from the header block of a response, and the
block that it sends to the client instead. The bytes before the first CRLF CRLF hold no
NUL, since `strstr` finds it.
-/

namespace ResponseHead

open CLib StringBuffer RequestDecoder OutboundRequest

/-- The value behind the colon, copied to a `char[64]`. -/
def copyValue (t : Bytes) : Bytes :=
  cstr (((t.dropWhile (· == SP)).takeWhile fun b => b != CR && b != LF).take 63)

/-- The loop of `proxy_header_value` over the suffixes of the block. -/
def scanLines (name : Bytes) : Bool → Bytes → Option Bytes
  | _, [] => none
  | lineStart, b :: t =>
    if lineStart ∧ lower ((b :: t).take name.length) = lower name ∧
        ((b :: t).drop name.length).head? = some COLON
      then some (copyValue ((b :: t).drop (name.length + 1)))
      else scanLines name (b == LF) t

def proxyHeaderValue (block name : Bytes) : Option Bytes := scanLines name true block

def ciStrContains (hay needle : Bytes) : Bool :=
  needle != [] && hay.tails.any fun t => lower (t.take needle.length) == lower needle

def atol (s : Bytes) : Int :=
  let (neg, number) := takeSign (s.dropWhile isspace)
  let v : Int := ofDigits 10 (number.takeWhile isdigit)
  if neg then max (-v) (-2 ^ 63) else min v (2 ^ 63 - 1)

/-- `header_block_len`, the end of the first CRLF CRLF of a buffer that ends with a NUL. -/
def headerBlockLen (buf : Bytes) : Option Nat := (strstr (CRLF ++ CRLF) (cstr buf)).map (· + 4)

/-- `resp_content_length` -/
def contentLength (block : Bytes) : Int :=
  match proxyHeaderValue block (ascii "Content-Length") with
  | some val => atol val
  | none => -1

/-- `resp_chunked` -/
def isChunked (block : Bytes) : Bool :=
  match proxyHeaderValue block (ascii "Transfer-Encoding") with
  | some val => ciStrContains val (ascii "chunked")
  | none => false

/-- `resp_conn_close` -/
def connClose (block : Bytes) : Bool :=
  match proxyHeaderValue block (ascii "Connection") with
  | some val => strcaseeq val (ascii "close")
  | none => false

/-- The lines of the block but for `Connection`; `text` ends before the final CRLF. -/
def rebuildLines : Nat → Bool → Bytes → StringBuf → StringBuf
  | 0, _, _, outsb => outsb
  | fuel + 1, first, text, outsb =>
    if text = [] then outsb else
    let linelen := (strstr CRLF text).getD text.length
    let line := text.take linelen
    let outsb :=
      if first then append (append outsb line) CRLF
      else if 11 ≤ linelen ∧ lower (line.take 11) = ascii "connection:" then outsb
      else if 0 < linelen then append (append outsb line) CRLF
      else outsb
    rebuildLines fuel false (text.drop (linelen + 2)) outsb

/-- The block that the client gets. -/
def rewriteHead (block : Bytes) (finalKa : Bool) : Bytes :=
  let outsb := stringbufInit (block.length + 32)
  let outsb := rebuildLines block.length true (block.take (block.length - 2)) outsb
  (appendf outsb (ascii "Connection: " ++ ascii (if finalKa then "keep-alive" else "close") ++
    ascii "\r\n\r\n")).data

theorem strstr_le {needle s : Bytes} {n : Nat} (h : strstr needle s = some n) :
    n + needle.length ≤ s.length := by
  induction s generalizing n with
  | nil => cases h
  | cons b s ih =>
    rw [strstr] at h
    by_cases hp : needle <+: b :: s
    · rw [if_pos hp, Option.some.injEq] at h
      subst h
      simpa using hp.length_le
    · rw [if_neg hp, Option.map_eq_some_iff] at h
      obtain ⟨k, hk, rfl⟩ := h
      have hle := ih hk
      simp only [List.length_cons]
      omega

/-- What follows a match cannot make an earlier one. -/
theorem strstr_append {needle s : Bytes} {n : Nat} (h : strstr needle s = some n) (t : Bytes) :
    strstr needle (s ++ t) = some n := by
  induction s generalizing n with
  | nil => cases h
  | cons b s ih =>
    have hle := strstr_le h
    rw [strstr] at h
    rw [List.cons_append, strstr, ← List.cons_append]
    by_cases hp : needle <+: b :: s
    · rw [if_pos hp] at h
      rw [if_pos (hp.trans ⟨t, rfl⟩), h]
    · have hp' : ¬ needle <+: b :: s ++ t := fun hlong =>
        hp (List.prefix_of_prefix_length_le hlong ⟨t, rfl⟩ (by omega))
      rw [if_neg hp, Option.map_eq_some_iff] at h
      obtain ⟨k, hk, rfl⟩ := h
      rw [if_neg hp', ih hk]
      rfl

theorem cstr_append (a b : Bytes) : ∃ c, cstr (a ++ b) = cstr a ++ c := by
  unfold cstr
  rw [List.takeWhile_append]
  split
  · rename_i hall
    exact ⟨_, by rw [(List.takeWhile_prefix _).eq_of_length hall]⟩
  · exact ⟨[], by rw [List.append_nil]⟩

/-- The head does not change when more of the response arrives. -/
theorem headerBlockLen_append {buf : Bytes} {n : Nat} (h : headerBlockLen buf = some n)
    (more : Bytes) : headerBlockLen (buf ++ more) = some n := by
  rw [headerBlockLen, Option.map_eq_some_iff] at h
  obtain ⟨k, hk, rfl⟩ := h
  obtain ⟨c, hc⟩ := cstr_append buf more
  rw [headerBlockLen, hc, strstr_append hk]
  rfl

theorem headerBlockLen_le {buf : Bytes} {n : Nat} (h : headerBlockLen buf = some n) :
    n ≤ buf.length := by
  rw [headerBlockLen, Option.map_eq_some_iff] at h
  obtain ⟨k, hk, rfl⟩ := h
  have hle := strstr_le hk
  have hcstr : (cstr buf).length ≤ buf.length := (List.takeWhile_prefix _).length_le
  have hfour : (CRLF ++ CRLF).length = 4 := rfl
  omega

end ResponseHead
