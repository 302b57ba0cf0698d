import NanoProxy.Lib.Incremental
import NanoProxy.HttpRequestParser
import Mathlib.Data.List.DropRight

/-!
# The request grammar as an incremental decoder

The decoder states what the parser is for: it looks at one line, one body byte or
one chunk at a time and never at anything behind it. It keeps no buffer and no
positions. `ParserRefinement` shows that the parser, which searches its whole
buffer, makes the same moves.
-/

namespace RequestDecoder

open CLib HttpRequestParser Incremental

inductive Phase where
  | requestLine
  | headers
  | counted (remaining : Nat)
  | chunkSize
  | chunkData (size : Nat)
  | finished
  deriving DecidableEq

structure DecodeState where
  phase : Phase
  req : HttpRequest
  deriving DecidableEq

def DecodeState.start : DecodeState := ⟨.requestLine, .empty⟩

/-- The text before the first LF, once the LF is there. -/
def line? (l : Bytes) : Option Bytes :=
  if LF ∈ l then some (l.takeWhile (· != LF)) else none

def chomp (line : Bytes) : Bytes :=
  if line.getLast? = some CR then line.dropLast else line

def trim (s : Bytes) : Bytes := (s.dropWhile isspace).rdropWhile isspace

/-- The C string that a copy of these bytes holds. -/
def cstr (s : Bytes) : Bytes := s.takeWhile (· != 0)

def decodeRequestLine (lim : Limits) (line : Bytes) : Option HttpRequest :=
  let method := line.takeWhile (· != SP)
  let afterMethod := line.drop (method.length + 1)
  let uri := afterMethod.takeWhile (· != SP)
  let version := (chomp line).drop (method.length + 1 + uri.length + 1)
  if line.length ≤ lim.maxHeaderLineSize ∧
      method.length < line.length ∧ uri.length < afterMethod.length ∧
      (0 < method.length ∧ method.length ≤ lim.maxMethodSize) ∧
      (0 < uri.length ∧ uri.length ≤ lim.maxUrlSize) ∧
      0 < version.length ∧ version.length ≤ lim.maxHttpVersionSize
  then some { HttpRequest.empty with
    method := some (cstr method), uri := some (cstr uri), version := some (cstr version) }
  else none

def decodeHeaderLine (lim : Limits) (hs : Headers) (line : Bytes) : Option Headers :=
  let beforeColon := line.takeWhile (· != COLON)
  let name := trim beforeColon
  let value := trim (line.drop (beforeColon.length + 1))
  let hs' := shputs hs (lower (cstr name)) (cstr value)
  if line.length ≤ lim.maxHeaderLineSize ∧ beforeColon.length < line.length ∧
      (0 < name.length ∧ name.length ≤ lim.maxHeaderNameSize) ∧
      value.length ≤ lim.maxHeaderValueSize ∧ hs'.length ≤ lim.maxHeaders
  then some hs' else none

/-- The phase after the blank line; `finished` when there is no body. -/
def decodeFraming (lim : Limits) (hs : Headers) : Option Phase :=
  match shget hs (ascii "content-length") with
  | some value =>
    let cl := strtoull value 10
    if cl.erange = false ∧ cl.rest = [] ∧ cl.value ≤ lim.maxBodySize
    then some (if cl.value = 0 then .finished else .counted cl.value)
    else none
  | none =>
    match shget hs (ascii "transfer-encoding") with
    | some value => if strcaseeq value (ascii "chunked") then some .chunkSize else some .finished
    | none => some .finished

def decodeChunkSize (lim : Limits) (bodyLen : Nat) (line : Bytes) : Option Nat :=
  let text := chomp line
  let digits := (cstr text).takeWhile (· != SEMI)
  let size := strtoull digits 16
  if (0 < text.length ∧ text.length < 32) ∧ digits.all isxdigit ∧ size.erange = false ∧ size.rest = [] ∧
      size.value ≤ lim.maxChunkSize ∧ bodyLen ≤ lim.maxBodySize - size.value
  then some size.value else none

/-- The move to phase `next` behind `n` bytes. -/
def enter (n : Nat) (req : HttpRequest) : Phase → Move DecodeState
  | .finished => .done n ⟨.finished, req⟩
  | phase => .eat n ⟨phase, req⟩

def moveLine (lim : Limits) (s : DecodeState) (line : Bytes) : Move DecodeState :=
  match s.phase with
  | .requestLine =>
    match decodeRequestLine lim line with
    | none => .fail
    | some req => enter (line.length + 1) req .headers
  | .headers =>
    if lim.maxHeaderLineSize < line.length then .fail
    else if chomp line = [] then
      match decodeFraming lim s.req.headers with
      | none => .fail
      | some phase => enter (line.length + 1) s.req phase
    else
      match decodeHeaderLine lim s.req.headers line with
      | none => .fail
      | some hs => enter (line.length + 1) { s.req with headers := hs } .headers
  | _ =>
    match decodeChunkSize lim s.req.body.length line with
    | none => .fail
    | some 0 => enter (line.length + 1) s.req .finished
    | some (n + 1) => enter (line.length + 1) s.req (.chunkData (n + 1))

def move (lim : Limits) (s : DecodeState) (l : Bytes) : Move DecodeState :=
  match s.phase with
  | .requestLine | .headers | .chunkSize =>
    match line? l with
    | none => .more
    | some line => moveLine lim s line
  | .counted n =>
    match l with
    | [] => .more
    | b :: _ => enter 1 { s.req with body := s.req.body ++ [b] }
        (if n ≤ 1 then .finished else .counted (n - 1))
  | .chunkData n =>
    if l.length < n + 2 then .more
    else if (l.drop n).take 2 ≠ CRLF then .fail
    else enter (n + 2) { s.req with body := s.req.body ++ l.take n } .chunkSize
  | .finished => .more

theorem line?_length {l line : Bytes} (h : line? l = some line) : line.length < l.length := by
  unfold line? at h
  split at h
  · rename_i hmem
    cases h
    have hne : l.takeWhile (· != LF) ≠ l := by
      intro heq
      rw [List.takeWhile_eq_self_iff] at heq
      simpa using heq LF hmem
    exact lt_of_le_of_ne (List.takeWhile_prefix _).length_le
      (fun hlen => hne (List.takeWhile_prefix _ |>.eq_of_length hlen))
  · cases h

theorem line?_append {l line : Bytes} (e : Bytes) (h : line? l = some line) :
    line? (l ++ e) = some line := by
  unfold line? at h ⊢
  split at h
  · rename_i hmem
    cases h
    rw [if_pos (List.mem_append_left e hmem), List.takeWhile_append]
    rw [if_neg]
    have := line?_length (l := l) (if_pos hmem)
    omega
  · cases h

theorem enter_eat {n m : Nat} {req : HttpRequest} {ph : Phase} {t : DecodeState}
    (h : enter n req ph = .eat m t) : m = n := by
  cases ph <;> simp_all [enter]

theorem enter_done {n m : Nat} {req : HttpRequest} {ph : Phase} {t : DecodeState}
    (h : enter n req ph = .done m t) : m = n := by
  cases ph <;> simp_all [enter]

/-- A line move consumes the line and its LF, whatever it decodes to. -/
theorem moveLine_length {lim : Limits} {s t : DecodeState} {line : Bytes} {n : Nat}
    (h : moveLine lim s line = .eat n t ∨ moveLine lim s line = .done n t) :
    n = line.length + 1 := by
  have key : ∀ {ph : Phase} {req : HttpRequest},
      enter (line.length + 1) req ph = .eat n t ∨ enter (line.length + 1) req ph = .done n t →
      n = line.length + 1 := fun h => h.elim enter_eat enter_done
  unfold moveLine at h
  split at h
  · split at h
    · simp at h
    · exact key h
  · split at h
    · simp at h
    split at h
    · split at h
      · simp at h
      · exact key h
    · split at h
      · simp at h
      · exact key h
  · split at h
    · simp at h
    · exact key h
    · exact key h

theorem move_length {lim : Limits} {s t : DecodeState} {l : Bytes} {n : Nat}
    (h : move lim s l = .eat n t ∨ move lim s l = .done n t) : 0 < n ∧ n ≤ l.length := by
  have line : ∀ line, line? l = some line →
      moveLine lim s line = .eat n t ∨ moveLine lim s line = .done n t →
      0 < n ∧ n ≤ l.length := by
    intro line hl hm
    have := line?_length hl
    have := moveLine_length hm
    omega
  unfold move at h
  split at h
  iterate 3
    split at h
    · simp at h
    · exact line _ ‹_› h
  · split at h
    · simp at h
    · have hn : n = 1 := h.elim enter_eat enter_done
      simp [hn]
  · split at h
    · simp at h
    split at h
    · simp at h
    · rename_i size _ _ _
      have hn : n = size + 2 := h.elim enter_eat enter_done
      omega
  · simp at h

theorem move_stable {lim : Limits} {s : DecodeState} {l : Bytes} (e : Bytes)
    (h : move lim s l ≠ .more) : move lim s (l ++ e) = move lim s l := by
  have line : (match line? l with | none => Move.more | some line => moveLine lim s line) ≠ .more →
      (match line? (l ++ e) with | none => Move.more | some line => moveLine lim s line) =
        (match line? l with | none => Move.more | some line => moveLine lim s line) := by
    intro hm
    cases hl : line? l with
    | none => simp [hl] at hm
    | some ln => simp [line?_append e hl]
  unfold move at h ⊢
  cases hp : s.phase with
  | requestLine => simp only [hp] at h ⊢; exact line h
  | headers => simp only [hp] at h ⊢; exact line h
  | chunkSize => simp only [hp] at h ⊢; exact line h
  | counted n =>
    cases l with
    | nil => simp [hp] at h
    | cons b l => simp
  | chunkData n =>
    simp only [hp] at h ⊢
    have hlen : ¬ l.length < n + 2 := by
      intro hlt
      simp [hlt] at h
    have h1 : ((l ++ e).drop n).take 2 = (l.drop n).take 2 := by
      rw [List.drop_append_of_le_length (by omega), List.take_append_of_le_length]
      simp only [List.length_drop]
      omega
    have h2 : (l ++ e).take n = l.take n := List.take_append_of_le_length (by omega)
    rw [if_neg hlen, if_neg (by simp only [List.length_append]; omega), h1, h2]
  | finished => simp [hp] at h

def decoder (lim : Limits) : Decoder DecodeState UInt8 where
  step := move lim
  eat_pos h := move_length (Or.inl h)
  done_le h := (move_length (Or.inr h)).2
  stable e h := move_stable e h

theorem move_nil (lim : Limits) (s : DecodeState) : move lim s [] = .more := by
  unfold move
  cases s.phase <;> simp [line?]

theorem run_nil (lim : Limits) (s : DecodeState) :
    (decoder lim).run s [] = .pending s [] := Decoder.run_more (move_nil lim s)

theorem step_no_line (lim : Limits) {s : DecodeState} {l : Bytes}
    (hs : s.phase = .requestLine ∨ s.phase = .headers ∨ s.phase = .chunkSize)
    (h : line? l = none) : (decoder lim).step s l = .more := by
  change move lim s l = _
  unfold move
  rcases hs with hs | hs | hs <;> rw [hs] <;> simp only [h]

theorem step_line (lim : Limits) {s : DecodeState} {l line : Bytes}
    (hs : s.phase = .requestLine ∨ s.phase = .headers ∨ s.phase = .chunkSize)
    (h : line? l = some line) : (decoder lim).step s l = moveLine lim s line := by
  change move lim s l = _
  unfold move
  rcases hs with hs | hs | hs <;> rw [hs] <;> simp only [h]

theorem drop_line (line rest : Bytes) : (line ++ LF :: rest).drop (line.length + 1) = rest := by
  rw [← List.drop_drop, List.drop_left' rfl]
  rfl

/-- The whole of a body of announced length is one run of byte moves. -/
theorem run_counted (lim : Limits) (req : HttpRequest) (l : Bytes) :
    ∀ n, 0 < n → (decoder lim).run ⟨.counted n, req⟩ l =
      if n ≤ l.length
      then .complete ⟨.finished, { req with body := req.body ++ l.take n }⟩ (l.drop n)
      else .pending ⟨.counted (n - l.length), { req with body := req.body ++ l }⟩ [] := by
  induction l generalizing req with
  | nil =>
    intro n hn
    rw [run_nil, if_neg (by simp only [List.length_nil]; omega)]
    simp
  | cons b l ih =>
    intro n hn
    by_cases hone : n ≤ 1
    · have hn1 : n = 1 := by omega
      subst hn1
      have hm : (decoder lim).step ⟨.counted 1, req⟩ (b :: l) =
          .done 1 ⟨.finished, { req with body := req.body ++ [b] }⟩ := rfl
      rw [Decoder.run_done hm, if_pos (by simp)]
      simp
    · have hm : (decoder lim).step ⟨.counted n, req⟩ (b :: l) =
          .eat 1 ⟨.counted (n - 1), { req with body := req.body ++ [b] }⟩ := by
        change enter 1 _ (if n ≤ 1 then Phase.finished else .counted (n - 1)) = _
        rw [if_neg hone]
        rfl
      rw [Decoder.run_eat hm, List.drop_one, List.tail_cons, ih _ (n - 1) (by omega)]
      obtain ⟨k, rfl⟩ : ∃ k, n = k + 2 := ⟨n - 2, by omega⟩
      simp only [List.length_cons]
      by_cases hk : k + 1 ≤ l.length
      · rw [if_pos (by omega), if_pos (by omega)]
        simp
      · rw [if_neg (by omega), if_neg (by omega)]
        simp

end RequestDecoder
