import NanoProxy.EventLoop

/-!
# Bodies of static files (include/request.h)

`http_static_dir` chooses a part of the file, and `resume_send` sends it whenever the client
is writable: with `sendfile`, or through a buffer of `CHUNK_SIZE` bytes that is filled with
`read` and emptied with `socket_write`. The file does not change, and `read` returns what is
left of it up to the size of the buffer. Bodies that were compressed in memory are not
modelled.
-/

namespace StaticBody

open CLib ResponseHead ProxyExchange Runs
open EventLoop (CHUNK_SIZE)

/-- `stringbuf_parse_ll`; `none` stands for no consumed byte. -/
def stringbufParseLl (text : Bytes) : Option Int :=
  if (takeSign (text.dropWhile isspace)).2.takeWhile isdigit = [] then none
  else some (atol text)

/-- `range_start` and `range_end` of a `Range` header; the view of the first number ends at
the dash, but its digits are read from the whole text. -/
def rangeBounds (size : Nat) (rangeVal : Option Bytes) : Int × Int :=
  match rangeVal with
  | none => (0, size - 1)
  | some val =>
    if val.take 6 ≠ ascii "bytes=" then (0, size - 1) else
    let nums := val.drop 6
    match memchr nums 45 0 with
    | none => (0, size - 1)
    | some dash =>
      let rangeStart := match stringbufParseLl nums with
        | some rs => if dash ≠ 0 ∧ 0 ≤ rs then rs else 0
        | none => 0
      let rangeEnd := match stringbufParseLl (nums.drop (dash + 1)) with
        | some re => if rangeStart ≤ re then re else size - 1
        | none => (size - 1 : Int)
      (rangeStart, rangeEnd)

/-- `is_range` -/
def hasRange (rangeVal : Option Bytes) : Bool :=
  match rangeVal with
  | none => false
  | some val => val.take 6 = ascii "bytes=" && (memchr (val.drop 6) 45 0).isSome

/-- Where the body starts in the file, and Content-Length. -/
structure Body where
  start : Nat
  contentLen : Nat

/-- The range of a 206 response, or the whole file. -/
def chosenBody (size : Nat) (rangeVal : Option Bytes) : Body :=
  let (rangeStart, rangeEnd) := rangeBounds size rangeVal
  if hasRange rangeVal ∧ 0 ≤ rangeStart ∧ rangeStart ≤ rangeEnd ∧ rangeEnd < size then
    ⟨rangeStart.toNat, (rangeEnd - rangeStart + 1).toNat⟩
  else ⟨0, size⟩

/-- A chosen body lies in the file. -/
theorem chosenBody_within (size : Nat) (rangeVal : Option Bytes) :
    (chosenBody size rangeVal).start + (chosenBody size rangeVal).contentLen ≤ size := by
  unfold chosenBody
  dsimp only
  split
  · rename_i bounds
    obtain ⟨_, nonneg, le, lt⟩ := bounds
    dsimp only
    omega
  · exact (Nat.zero_add size).le

/-- How a transfer has ended. -/
inductive Outcome where
  | sending
  | complete
  | endOfFile
  | failed
  deriving DecidableEq

/-- The send state of a `client_data`; `sendBuffer` is `send_buffer[0..send_buf_len)`.
`body` and `outcome` are a record. -/
structure Send where
  sendingBody : Bool
  useSendfile : Bool
  sendOffset : Nat
  filePos : Nat
  sendRemaining : Nat
  sendBuffer : Bytes
  sendBufPos : Nat
  body : Bytes
  outcome : Outcome

/-- The end of `http_static_dir`. -/
def startSend (b : Body) (useSendfile : Bool) : Send where
  sendingBody := true
  useSendfile := useSendfile
  sendOffset := b.start
  filePos := b.start
  sendRemaining := b.contentLen
  sendBuffer := []
  sendBufPos := 0
  body := []
  outcome := .sending

def cleanupSendState (outcome : Outcome) (s : Send) : Send :=
  { s with
    sendingBody := false, sendOffset := 0, sendRemaining := 0, sendBuffer := [], sendBufPos := 0
    outcome := outcome }

/-- The count of `send_remaining`. -/
def account (sent : Bytes) (s : Send) : Send :=
  let s := { s with
    body := s.body ++ sent
    sendRemaining := usub s.sendRemaining sent.length }
  if s.sendRemaining = 0 then cleanupSendState .complete s else s

def sendWithSendfile (file : Bytes) (r : WriteResult) (s : Send) : Send :=
  let part := (file.drop s.sendOffset).take s.sendRemaining
  match r.taken part.length with
  | none => cleanupSendState .failed s
  | some n => account (part.take n) { s with sendOffset := s.sendOffset + n }

/-- The bytes that `socket_write` is given. -/
def pendingPart (s : Send) : Bytes := s.sendBuffer.drop s.sendBufPos

def sendBuffered (r : WriteResult) (s : Send) : Send :=
  let part := pendingPart s
  match socketWrite true part.length r with
  | none => cleanupSendState .failed s
  | some n => account (part.take n) { s with sendBufPos := s.sendBufPos + n }

/-- A buffer that was sent is filled again. -/
def refill (file : Bytes) (s : Send) : Send :=
  if s.sendBufPos = s.sendBuffer.length then
    let chunk := (file.drop s.filePos).take CHUNK_SIZE
    { s with sendBuffer := chunk, sendBufPos := 0, filePos := s.filePos + chunk.length }
  else s

def resumeSend (file : Bytes) (s : Send) (r : WriteResult) : Send :=
  if !s.sendingBody || s.sendRemaining = 0 then s
  else if s.useSendfile then sendWithSendfile file r s
  else
    let s := refill file s
    if pendingPart s = [] then cleanupSendState .endOfFile s else sendBuffered r s

/-- `file[start .. start+Content-Length)` -/
def Body.content (b : Body) (file : Bytes) : Bytes := (file.drop b.start).take b.contentLen

/-- What was sent is the start of the body and `send_remaining` is the rest; at the end it is
the whole body. -/
def Exact (file : Bytes) (b : Body) (s : Send) : Prop :=
  s.body <+: b.content file ∧ match s.outcome with
    | .sending => s.body.length + s.sendRemaining = b.contentLen
    | .complete => s.body = b.content file
    | .endOfFile => False
    | .failed => True

/-- The socket takes no more than `send_remaining`. -/
def Within (file : Bytes) (s : Send) (r : WriteResult) : Prop :=
  s.sendingBody = true → s.sendRemaining ≠ 0 → s.useSendfile = false →
    ∀ n ∈ socketWrite true (pendingPart (refill file s)).length r, n ≤ s.sendRemaining

variable {file : Bytes} {b : Body} {s t : Send} {r : WriteResult}

/-- A transfer under way has counted what it has sent. -/
structure Counted (file : Bytes) (b : Body) (s : Send) : Prop where
  outcome : s.outcome = .sending
  active : s.sendingBody = true
  count : s.body.length + s.sendRemaining = b.contentLen
  text : s.body = (file.drop b.start).take s.body.length

/-- Where `sendfile` and the buffer stand. -/
structure Placed (file : Bytes) (b : Body) (s : Send) : Prop where
  offset : s.useSendfile = true → s.sendOffset = b.start + s.body.length
  pending : s.useSendfile = false →
    pendingPart s = (file.drop (b.start + s.body.length)).take (pendingPart s).length
  position : s.useSendfile = false → s.filePos = b.start + s.body.length + (pendingPart s).length
  bounded : s.sendBufPos ≤ s.sendBuffer.length

structure Progress (file : Bytes) (b : Body) (s : Send) : Prop extends
  Counted file b s, Placed file b s

/-- A transfer that has ended as it should. -/
structure Settled (file : Bytes) (b : Body) (s : Send) : Prop where
  idle : s.sendingBody = false
  exact : Exact file b s

theorem progress_start (b : Body) (useSendfile : Bool) :
    Progress file b (startSend b useSendfile) where
  outcome := rfl
  active := rfl
  count := Nat.zero_add _
  text := rfl
  offset := fun _ => rfl
  pending := fun _ => rfl
  position := fun _ => rfl
  bounded := le_refl 0

theorem part_of_content {n : Nat} (le : n ≤ b.contentLen) :
    (file.drop b.start).take n <+: b.content file := by
  have cut : (file.drop b.start).take n = (b.content file).take n := by
    rw [Body.content, List.take_take, min_eq_left le]
  rw [cut]
  exact List.take_prefix n _

theorem Counted.exact (h : Counted file b s) : Exact file b s := by
  have count := h.count
  refine ⟨?_, ?_⟩
  · rw [h.text]
    exact part_of_content (by omega)
  · rw [h.outcome]
    exact count

theorem failed_settled (exact : Exact file b s) : Settled file b (cleanupSendState .failed s) :=
  ⟨rfl, exact.1, trivial⟩

/-- The count of `n` more bytes leaves the rest alone. -/
structure Continues (s t : Send) (n : Nat) : Prop where
  body : t.body.length = s.body.length + n
  sendRemaining : t.sendRemaining = s.sendRemaining - n
  useSendfile : t.useSendfile = s.useSendfile
  sendOffset : t.sendOffset = s.sendOffset
  filePos : t.filePos = s.filePos
  sendBuffer : t.sendBuffer = s.sendBuffer
  sendBufPos : t.sendBufPos = s.sendBufPos

/-- The count of a part that is not too long. -/
theorem account_cases (h : Counted file b s) (size : b.contentLen < 2 ^ 64) {sent : Bytes}
    {n : Nat} (length : sent.length = n) (next : sent = (file.drop (b.start + s.body.length)).take n)
    (le : n ≤ s.sendRemaining) :
    (Settled file b (account sent s) ∧ n = s.sendRemaining) ∨
      Counted file b (account sent s) ∧ Continues s (account sent s) n := by
  have count := h.count
  have plain : usub s.sendRemaining sent.length = s.sendRemaining - n := by
    unfold usub
    omega
  have longer : s.body ++ sent = (file.drop b.start).take (s.body.length + n) := by
    rw [List.take_add, List.drop_drop, ← next, ← h.text]
  unfold account
  dsimp only
  rw [plain]
  by_cases all : s.sendRemaining - n = 0
  · rw [if_pos all]
    have whole : s.body ++ sent = b.content file := by
      rw [longer, Body.content]
      congr 1
      omega
    refine Or.inl ⟨⟨rfl, ?_, whole⟩, by omega⟩
    change s.body ++ sent <+: b.content file
    exact whole ▸ List.prefix_rfl
  · rw [if_neg all]
    have total : (s.body ++ sent).length = s.body.length + n := by
      rw [List.length_append, length]
    refine Or.inr ⟨⟨h.outcome, h.active, ?_, ?_⟩, ⟨total, rfl, rfl, rfl, rfl, rfl, rfl⟩⟩
    · change (s.body ++ sent).length + (s.sendRemaining - n) = b.contentLen
      omega
    · change s.body ++ sent = (file.drop b.start).take (s.body ++ sent).length
      rw [total, longer]

theorem sendfile_step (h : Progress file b s) (size : b.contentLen < 2 ^ 64)
    (mode : s.useSendfile = true) : Settled file b (sendWithSendfile file r s) ∨
      Progress file b (sendWithSendfile file r s) := by
  unfold sendWithSendfile
  dsimp only
  cases taken : r.taken ((file.drop s.sendOffset).take s.sendRemaining).length with
  | none => exact Or.inl (failed_settled h.exact)
  | some n =>
    have le := WriteResult.taken_le taken
    rw [List.length_take] at le
    have length : (((file.drop s.sendOffset).take s.sendRemaining).take n).length = n := by
      rw [List.length_take, List.length_take]
      omega
    have next : ((file.drop s.sendOffset).take s.sendRemaining).take n =
        (file.drop (b.start + s.body.length)).take n := by
      rw [List.take_take, h.offset mode, min_eq_left (by omega)]
    have counted : Counted file b { s with sendOffset := s.sendOffset + n } :=
      ⟨h.outcome, h.active, h.count, h.text⟩
    dsimp only
    rcases account_cases counted size length next (le.trans (min_le_left _ _)) with
      ⟨settled, _⟩ | ⟨counted, same⟩
    · exact Or.inl settled
    · refine Or.inr ⟨counted, fun _ => ?_, fun buffered => ?_, fun buffered => ?_, ?_⟩
      · rw [same.sendOffset, same.body, ← Nat.add_assoc, ← h.offset mode]
      · exact absurd (mode.symm.trans (same.useSendfile.symm.trans buffered)) (by decide)
      · exact absurd (mode.symm.trans (same.useSendfile.symm.trans buffered)) (by decide)
      · rw [same.sendBufPos, same.sendBuffer]
        exact h.bounded

theorem refill_progress (h : Progress file b s) (mode : s.useSendfile = false) :
    Progress file b (refill file s) := by
  unfold refill
  split
  · rename_i sent
    have empty : pendingPart s = [] := List.drop_eq_nil_of_le sent.ge
    have position := h.position mode
    rw [empty, List.length_nil, Nat.add_zero] at position
    have cut : (file.drop s.filePos).take CHUNK_SIZE =
        (file.drop s.filePos).take ((file.drop s.filePos).take CHUNK_SIZE).length := by
      rw [List.take_eq_take_iff, List.length_take, min_assoc, min_self]
    refine ⟨⟨h.outcome, h.active, h.count, h.text⟩, h.offset, fun _ => ?_, fun _ => ?_,
      Nat.zero_le _⟩
    · rw [← position]
      exact cut
    · rw [← position]
      rfl
  · exact h

/-- The fields that filling the buffer leaves alone. -/
theorem refill_same (file : Bytes) (s : Send) :
    (refill file s).sendingBody = s.sendingBody ∧ (refill file s).body = s.body ∧
      (refill file s).sendRemaining = s.sendRemaining ∧
      (refill file s).useSendfile = s.useSendfile := by
  unfold refill
  split
  · exact ⟨rfl, rfl, rfl, rfl⟩
  · exact ⟨rfl, rfl, rfl, rfl⟩

/-- While a byte of the body is missing, the file has one more. -/
theorem refill_ne_nil (h : Progress file b s) (mode : s.useSendfile = false)
    (fits : b.start + b.contentLen ≤ file.length) (more : s.sendRemaining ≠ 0) :
    pendingPart (refill file s) ≠ [] := by
  have count := h.count
  have position := h.position mode
  unfold refill
  split
  · rename_i sent
    have empty : pendingPart s = [] := List.drop_eq_nil_of_le sent.ge
    rw [empty, List.length_nil, Nat.add_zero] at position
    change (file.drop s.filePos).take CHUNK_SIZE ≠ []
    rw [Ne, List.take_eq_nil_iff, List.drop_eq_nil_iff, position, CHUNK_SIZE]
    omega
  · rename_i unsent
    have bounded := h.bounded
    rw [pendingPart, Ne, List.drop_eq_nil_iff]
    omega

theorem buffered_step (h : Progress file b s) (size : b.contentLen < 2 ^ 64)
    (mode : s.useSendfile = false)
    (within : ∀ n ∈ socketWrite true (pendingPart s).length r, n ≤ s.sendRemaining) :
    (Settled file b (sendBuffered r s) ∧
        ∀ n ∈ socketWrite true (pendingPart s).length r, n = s.sendRemaining) ∨
      Progress file b (sendBuffered r s) ∧ ∃ n, socketWrite true (pendingPart s).length r = some n ∧
        (sendBuffered r s).body.length = s.body.length + n ∧
        (pendingPart (sendBuffered r s)).length = (pendingPart s).length - n ∧
        (sendBuffered r s).sendRemaining = s.sendRemaining - n ∧
        (sendBuffered r s).useSendfile = false := by
  unfold sendBuffered
  dsimp only
  cases taken : socketWrite true (pendingPart s).length r with
  | none => exact Or.inl ⟨failed_settled h.exact, fun n none => nomatch none⟩
  | some n =>
    have le := socketWrite_le taken
    have length : ((pendingPart s).take n).length = n := by
      rw [List.length_take]
      omega
    have next : (pendingPart s).take n = (file.drop (b.start + s.body.length)).take n := by
      rw [h.pending mode, List.take_take, min_eq_left le]
    have counted : Counted file b { s with sendBufPos := s.sendBufPos + n } :=
      ⟨h.outcome, h.active, h.count, h.text⟩
    dsimp only
    rcases account_cases counted size length next (within n taken) with
      ⟨settled, all⟩ | ⟨counted, same⟩
    · refine Or.inl ⟨settled, fun k same => ?_⟩
      rw [Option.mem_some_iff] at same
      exact same.symm.trans all
    · have rest : pendingPart (account ((pendingPart s).take n)
          { s with sendBufPos := s.sendBufPos + n }) = (pendingPart s).drop n := by
        rw [pendingPart, same.sendBufPos, same.sendBuffer, pendingPart, List.drop_drop]
      have restLength : ((pendingPart s).drop n).length = (pendingPart s).length - n :=
        List.length_drop
      refine Or.inr ⟨⟨counted, fun sendfile => ?_, fun _ => ?_, fun _ => ?_, ?_⟩, n, rfl, same.body,
        ?_, same.sendRemaining, same.useSendfile.trans mode⟩
      · exact absurd (mode.symm.trans (same.useSendfile.symm.trans sendfile)) (by decide)
      · rw [rest, restLength, same.body, ← Nat.add_assoc, ← List.drop_drop]
        nth_rewrite 1 [h.pending mode]
        rw [List.drop_take]
      · have position := h.position mode
        rw [same.filePos, rest, restLength, same.body]
        dsimp only
        omega
      · have pending : (pendingPart s).length = s.sendBuffer.length - s.sendBufPos :=
          List.length_drop
        have bounded := h.bounded
        rw [same.sendBufPos, same.sendBuffer]
        dsimp only
        omega
      · rw [rest, restLength]

/-- One call of `resume_send`. -/
theorem progress_step (h : Progress file b s) (size : b.contentLen < 2 ^ 64)
    (fits : b.start + b.contentLen ≤ file.length) (within : Within file s r) :
    Settled file b (resumeSend file s r) ∨ Progress file b (resumeSend file s r) := by
  unfold resumeSend
  by_cases idle : (!s.sendingBody || decide (s.sendRemaining = 0)) = true
  · rw [if_pos idle]
    exact Or.inr h
  rw [if_neg idle]
  rw [h.active, Bool.not_true, Bool.false_or, decide_eq_true_eq] at idle
  cases mode : s.useSendfile with
  | true => exact sendfile_step h size mode
  | false =>
    obtain ⟨_, _, remaining, same⟩ := refill_same file s
    rw [if_neg Bool.false_ne_true]
    dsimp only
    rw [if_neg (refill_ne_nil h mode fits idle)]
    have within := within h.active idle mode
    rw [← remaining] at within
    rcases buffered_step (refill_progress h mode) size (same.trans mode) within with
      ⟨settled, _⟩ | ⟨progress, _⟩
    · exact Or.inl settled
    · exact Or.inr progress

/-- Bytes past the end of the body were sent. -/
def Overrun (b : Body) (s : Send) : Prop := b.contentLen < s.body.length

theorem Overrun.inexact (h : Overrun b s) : ¬ Exact file b s := by
  intro exact
  have le := exact.1.length_le
  rw [Body.content, List.length_take] at le
  unfold Overrun at h
  omega

theorem account_body (sent : Bytes) (s : Send) : (account sent s).body = s.body ++ sent := by
  simp only [account, cleanupSendState, apply_ite Send.body, ite_self]

theorem sendBuffered_body {n : Nat} (taken : socketWrite true (pendingPart s).length r = some n) :
    (sendBuffered r s).body = s.body ++ (pendingPart s).take n := by
  unfold sendBuffered
  dsimp only
  rw [taken]
  exact account_body _ _

theorem body_grows (file : Bytes) (s : Send) (r : WriteResult) :
    s.body.length ≤ (resumeSend file s r).body.length := by
  have longer (sent : Bytes) : s.body.length ≤ (s.body ++ sent).length := by
    rw [List.length_append]
    exact Nat.le_add_right _ _
  unfold resumeSend
  split
  · exact le_refl _
  split
  · unfold sendWithSendfile
    dsimp only
    split
    · exact le_refl _
    · rw [account_body]
      exact longer _
  · obtain ⟨_, same, _⟩ := refill_same file s
    dsimp only
    split
    · change s.body.length ≤ (refill file s).body.length
      rw [same]
    · cases taken : socketWrite true (pendingPart (refill file s)).length r with
      | none =>
        unfold sendBuffered
        dsimp only
        rw [taken]
        change s.body.length ≤ (refill file s).body.length
        rw [same]
      | some n =>
        rw [sendBuffered_body taken, same]
        exact longer _

theorem overrun_step (s : Send) (r : WriteResult) (h : Overrun b s) :
    Overrun b (resumeSend file s r) :=
  lt_of_lt_of_le h (body_grows file s r)

/-- A write that takes too much overruns the body. -/
theorem overrun_of_not_within (h : Progress file b s)
    (fits : b.start + b.contentLen ≤ file.length) (beyond : ¬ Within file s r) :
    Overrun b (resumeSend file s r) := by
  unfold Within at beyond
  push Not at beyond
  obtain ⟨active, more, mode, n, taken, long⟩ := beyond
  obtain ⟨_, same, _⟩ := refill_same file s
  have le := socketWrite_le (Option.mem_def.mp taken)
  have count := h.count
  unfold resumeSend Overrun
  rw [active, mode, if_neg (by simpa using more), if_neg Bool.false_ne_true]
  dsimp only
  rw [if_neg (refill_ne_nil h mode fits more), sendBuffered_body (Option.mem_def.mp taken), same,
    List.length_append, List.length_take]
  omega

theorem settled_run (h : Settled file b s) (rs : List WriteResult) :
    run (resumeSend file) s rs = s ∧ Guarded (resumeSend file) (Within file) s rs := by
  have still (r : WriteResult) : resumeSend file s r = s := by
    rw [resumeSend, h.idle, Bool.not_false, Bool.true_or, if_pos rfl]
  induction rs with
  | nil => exact ⟨rfl, trivial⟩
  | cons r rs ih =>
    rw [run, List.foldl_cons, Guarded, still]
    refine ⟨ih.1, fun active => ?_, ih.2⟩
    rw [h.idle] at active
    cases active

/-- For any results of the writes, the body is exact if and only if none of them takes too
much. -/
theorem exact_iff_within (h : Progress file b s) (size : b.contentLen < 2 ^ 64)
    (fits : b.start + b.contentLen ≤ file.length) (rs : List WriteResult) :
    Exact file b (run (resumeSend file) s rs) ↔
      Guarded (resumeSend file) (Within file) s rs := by
  induction rs generalizing s with
  | nil => exact ⟨fun _ => trivial, fun _ => h.exact⟩
  | cons r rs ih =>
    by_cases within : Within file s r
    · rcases progress_step h size fits within with settled | progress
      · obtain ⟨still, guarded⟩ := settled_run settled rs
        refine ⟨fun _ => ⟨within, guarded⟩, fun _ => ?_⟩
        change Exact file b (run (resumeSend file) (resumeSend file s r) rs)
        rw [still]
        exact settled.exact
      · exact (ih progress).trans ⟨fun guarded => ⟨within, guarded⟩, fun guarded => guarded.2⟩
    · have beyond : Overrun b (run (resumeSend file) (resumeSend file s r) rs) :=
        run_always overrun_step (overrun_of_not_within h fits within) rs
      exact ⟨fun exact => absurd exact beyond.inexact, fun guarded => absurd guarded.1 within⟩

/-- The blocks of the buffer end with the body. -/
def Aligned (file : Bytes) (b : Body) (s : Send) : Prop :=
  (pendingPart s).length ≤ s.sendRemaining ∧ (b.start + b.contentLen = file.length ∨
    CHUNK_SIZE ∣ b.contentLen ∧ CHUNK_SIZE ∣ s.body.length + (pendingPart s).length)

theorem aligned_refill (h : Progress file b s) (mode : s.useSendfile = false)
    (fits : b.start + b.contentLen ≤ file.length) (more : s.sendRemaining ≠ 0)
    (aligned : Aligned file b s) : Aligned file b (refill file s) := by
  have count := h.count
  have position := h.position mode
  unfold refill
  split
  · rename_i sent
    have empty : pendingPart s = [] := List.drop_eq_nil_of_le sent.ge
    obtain ⟨_, ends⟩ := aligned
    rw [empty, List.length_nil, Nat.add_zero] at position ends
    have length : ((file.drop s.filePos).take CHUNK_SIZE).length =
        min CHUNK_SIZE (file.length - s.filePos) := by
      rw [List.length_take, List.length_drop]
    unfold Aligned
    change ((file.drop s.filePos).take CHUNK_SIZE).length ≤ s.sendRemaining ∧ (_ ∨ _ ∧
      CHUNK_SIZE ∣ s.body.length + ((file.drop s.filePos).take CHUNK_SIZE).length)
    rw [length]
    rcases ends with last | ⟨blocks, sent⟩
    · exact ⟨by omega, Or.inl last⟩
    · have rest : CHUNK_SIZE ∣ s.sendRemaining := by
        rw [← count] at blocks
        exact (Nat.dvd_add_right sent).mp blocks
      have block := Nat.le_of_dvd (Nat.pos_of_ne_zero more) rest
      rw [min_eq_left (by omega)]
      exact ⟨block, Or.inr ⟨blocks, Nat.dvd_add sent (Nat.dvd_refl _)⟩⟩
  · exact aligned

theorem resumeSend_buffered (active : s.sendingBody = true) (more : s.sendRemaining ≠ 0)
    (mode : s.useSendfile = false) (rest : pendingPart (refill file s) ≠ []) :
    resumeSend file s r = sendBuffered r (refill file s) := by
  rw [resumeSend, active, mode, if_neg (by simpa using more), if_neg Bool.false_ne_true, if_neg rest]

theorem aligned_guarded (h : Progress file b s) (mode : s.useSendfile = false)
    (size : b.contentLen < 2 ^ 64) (fits : b.start + b.contentLen ≤ file.length)
    (aligned : Aligned file b s) (rs : List WriteResult) :
    Guarded (resumeSend file) (Within file) s rs := by
  induction rs generalizing s with
  | nil => trivial
  | cons r rs ih =>
    obtain ⟨_, _, remaining, same⟩ := refill_same file s
    by_cases more : s.sendRemaining = 0
    · have still : resumeSend file s r = s := by
        rw [resumeSend, more, decide_eq_true rfl, Bool.or_true, if_pos rfl]
      refine ⟨fun _ unsent => absurd more unsent, ?_⟩
      rw [still]
      exact ih h mode aligned
    have filled := refill_progress h mode
    obtain ⟨short, ends⟩ := aligned_refill h mode fits more aligned
    have within : ∀ n ∈ socketWrite true (pendingPart (refill file s)).length r,
        n ≤ (refill file s).sendRemaining :=
      fun n taken => (socketWrite_le (Option.mem_def.mp taken)).trans short
    refine ⟨fun _ _ _ n taken => (within n taken).trans_eq remaining, ?_⟩
    rw [resumeSend_buffered h.active more mode (refill_ne_nil h mode fits more)]
    rcases buffered_step filled size (same.trans mode) within with
      ⟨settled, _⟩ | ⟨progress, n, taken, body, pending, left, buffered⟩
    · exact (settled_run settled rs).2
    · have le := socketWrite_le taken
      refine ih progress buffered ⟨?_, ends.imp id fun blocks => ⟨blocks.1, ?_⟩⟩
      · omega
      · rw [body, pending]
        convert blocks.2 using 1
        omega

theorem filled_length (h : Progress file b s) (mode : s.useSendfile = false)
    (empty : pendingPart s = []) : (pendingPart (refill file s)).length =
      min CHUNK_SIZE (file.length - (b.start + s.body.length)) := by
  have position := h.position mode
  rw [empty, List.length_nil, Nat.add_zero] at position
  have sent : s.sendBufPos = s.sendBuffer.length := by
    have bounded := h.bounded
    have drained := List.drop_eq_nil_iff.mp empty
    omega
  rw [refill, if_pos sent]
  change ((file.drop s.filePos).take CHUNK_SIZE).length = _
  rw [List.length_take, List.length_drop, position]

theorem takes_all {len : Nat} (nonzero : len ≠ 0) (bound : len ≤ CHUNK_SIZE) :
    socketWrite true len (.wrote CHUNK_SIZE) = some len := by
  simp only [socketWrite, Bool.not_true, Bool.false_or, decide_eq_true_eq, nonzero, if_false,
    WriteResult.taken, Option.some.injEq]
  omega

/-- The buffer has been sent, and less than a block of the body is missing. -/
theorem last_block_overruns (h : Progress file b s) (mode : s.useSendfile = false)
    (empty : pendingPart s = []) (more : s.sendRemaining ≠ 0) (rest : s.sendRemaining < CHUNK_SIZE)
    (beyond : b.start + b.contentLen < file.length) :
    ¬ Within file s (.wrote CHUNK_SIZE) := by
  have count := h.count
  have block := filled_length h mode empty
  intro within
  have le := within h.active more mode _ (takes_all (by omega) (by omega))
  omega

/-- When nothing is short, the blocks before the last one are sent whole. -/
theorem unaligned_overruns (h : Progress file b s) (mode : s.useSendfile = false)
    (size : b.contentLen < 2 ^ 64) (empty : pendingPart s = []) {k m : Nat}
    (blocks : s.sendRemaining = k * CHUNK_SIZE + m) (more : m ≠ 0) (rest : m < CHUNK_SIZE)
    (beyond : b.start + b.contentLen < file.length) :
    ¬ Guarded (resumeSend file) (Within file) s
      (List.replicate (k + 1) (.wrote CHUNK_SIZE)) := by
  induction k generalizing s with
  | zero =>
    intro guarded
    rw [Nat.zero_mul, Nat.zero_add] at blocks
    exact last_block_overruns h mode empty (by omega) (by omega) beyond guarded.1
  | succ k ih =>
    rintro ⟨within, guarded⟩
    have count := h.count
    rw [Nat.succ_mul] at blocks
    have unsent : s.sendRemaining ≠ 0 := by omega
    obtain ⟨_, _, remaining, same⟩ := refill_same file s
    have block : (pendingPart (refill file s)).length = CHUNK_SIZE := by
      rw [filled_length h mode empty, min_eq_left (by omega)]
    have all : socketWrite true (pendingPart (refill file s)).length (.wrote CHUNK_SIZE) =
        some CHUNK_SIZE := by
      rw [block]
      exact takes_all (by decide) (le_refl _)
    have fits : ∀ n ∈ socketWrite true (pendingPart (refill file s)).length (.wrote CHUNK_SIZE),
        n ≤ (refill file s).sendRemaining :=
      fun n taken => (within h.active unsent mode n taken).trans_eq remaining.symm
    rw [resumeSend_buffered h.active unsent mode (refill_ne_nil h mode beyond.le unsent)] at guarded
    rcases buffered_step (refill_progress h mode) size (same.trans mode) fits with
      ⟨_, whole⟩ | ⟨progress, n, taken, _, pending, left, buffered⟩
    · have last := whole CHUNK_SIZE all
      omega
    · rw [all, Option.some.injEq] at taken
      refine ih progress buffered (List.eq_nil_of_length_eq_zero ?_) ?_ guarded
      · omega
      · omega

theorem resumeSend_mode (s : Send) (r : WriteResult) :
    (resumeSend file s r).useSendfile = s.useSendfile := by
  have counted (sent : Bytes) (t : Send) : (account sent t).useSendfile = t.useSendfile := by
    simp only [account, cleanupSendState, apply_ite Send.useSendfile, ite_self]
  obtain ⟨_, _, _, same⟩ := refill_same file s
  unfold resumeSend sendWithSendfile sendBuffered
  split
  · rfl
  split
  · dsimp only
    split
    · rfl
    · exact counted _ _
  dsimp only
  split
  · exact same
  split
  · exact same
  · exact (counted _ _).trans same

theorem sendfile_guarded (mode : s.useSendfile = true) (rs : List WriteResult) :
    Guarded (resumeSend file) (Within file) s rs := by
  induction rs generalizing s with
  | nil => trivial
  | cons r rs ih =>
    refine ⟨fun _ _ buffered => ?_, ih ((resumeSend_mode s r).trans mode)⟩
    rw [mode] at buffered
    cases buffered

/-- A body is sent exactly if and only if no write takes more than is left of it. No write can,
whatever the socket takes, exactly with `sendfile`, at the end of the file, and when the body is
a number of whole blocks. -/
theorem static_body_exact (file : Bytes) (rangeVal : Option Bytes) (useSendfile : Bool)
    (size : file.length < 2 ^ 63) :
    let b := chosenBody file.length rangeVal
    let start := startSend b useSendfile
    (∀ rs, Exact file b (run (resumeSend file) start rs) ↔
      Guarded (resumeSend file) (Within file) start rs) ∧
    ((∀ rs, Exact file b (run (resumeSend file) start rs)) ↔
      useSendfile = true ∨ b.start + b.contentLen = file.length ∨ CHUNK_SIZE ∣ b.contentLen) := by
  dsimp only
  generalize body : chosenBody file.length rangeVal = b
  have fits : b.start + b.contentLen ≤ file.length := by
    rw [← body]
    exact chosenBody_within _ _
  have length : b.contentLen < 2 ^ 64 := by omega
  have start : Progress file b (startSend b useSendfile) := progress_start b useSendfile
  have each := exact_iff_within start length fits
  refine ⟨each, fun exact => ?_, fun ends rs => (each rs).mpr ?_⟩
  · by_contra condition
    rw [not_or, not_or, Bool.not_eq_true] at condition
    obtain ⟨mode, inside, blocks⟩ := condition
    have count : b.contentLen = b.contentLen / CHUNK_SIZE * CHUNK_SIZE +
        b.contentLen % CHUNK_SIZE := by
      rw [Nat.mul_comm, Nat.div_add_mod]
    have partly : b.contentLen % CHUNK_SIZE ≠ 0 := fun whole =>
      blocks (Nat.dvd_of_mod_eq_zero whole)
    exact unaligned_overruns start mode length rfl count partly (Nat.mod_lt _ (by decide))
      (by omega) ((each _).mp (exact _))
  · cases mode : useSendfile with
    | true => exact sendfile_guarded rfl rs
    | false =>
      rw [mode] at start ends
      refine aligned_guarded start rfl length fits ⟨Nat.zero_le _, ?_⟩ rs
      rcases ends with sendfile | last | blocks
      · cases sendfile
      · exact Or.inl last
      · exact Or.inr ⟨blocks, Nat.dvd_zero _⟩

def letters : Bytes := ascii "abcdef"

theorem static_body_exact_sample :
    letters.length < 2 ^ 63 ∧
      let b := chosenBody letters.length (some (ascii "bytes=3-"))
      let start := startSend b false
      (run (resumeSend letters) start [.wrote 1, .again, .wrote 2]).body = ascii "def" ∧
      (∀ rs, Exact letters b (run (resumeSend letters) start rs) ↔
        Guarded (resumeSend letters) (Within letters) start rs) ∧
      ((∀ rs, Exact letters b (run (resumeSend letters) start rs)) ↔
        false = true ∨ b.start + b.contentLen = letters.length ∨ CHUNK_SIZE ∣ b.contentLen) :=
  ⟨by decide, by decide +kernel,
    static_body_exact letters (some (ascii "bytes=3-")) false (by decide)⟩

/-- Of the range `0-2` the buffer holds all six bytes. -/
theorem range_overrun :
    ¬ ∀ (file : Bytes) (rangeVal : Option Bytes) (useSendfile : Bool) (rs : List WriteResult),
      file.length < 2 ^ 63 →
      let b := chosenBody file.length rangeVal
      Exact file b (run (resumeSend file) (startSend b useSendfile) rs) := by
  intro exact
  have kept := exact letters (some (ascii "bytes=0-2")) false [.wrote 65536] (by decide)
  have sent : (run (resumeSend letters)
      (startSend (chosenBody letters.length (some (ascii "bytes=0-2"))) false)
      [.wrote 65536]).body = letters := by decide +kernel
  have short := kept.1.length_le
  rw [sent] at short
  exact absurd short (by decide +kernel)

end StaticBody
