import NanoProxy.Segmentation

/-!
# Reads of any size

`Segmentation` describes the reads of the event loop, which are short and nonempty. Whatever
the sizes are, a read that the buffer does not take makes the parser fail, and any other read
is a run of the decoder. `Verdict` says what that leaves of a whole sequence of reads.
-/

namespace AnyReads

open CLib StringBuffer HttpRequestParser RequestDecoder ParserRefinement Segmentation Incremental

/-- An append that succeeds leaves room for the NUL. -/
theorem stringbufAppend_room {sb sb' : StringBuf} {src : Bytes}
    (appended : stringbufAppend sb src = some sb') (cap : sb.capacity ≤ STRINGBUF_MAX_CAP) :
    sb'.capacity ≤ STRINGBUF_MAX_CAP ∧ sb'.size < sb'.capacity := by
  have reserved {grown : StringBuf} {need : Nat} (h : stringbufReserve sb need = some grown) :
      grown.capacity ≤ STRINGBUF_MAX_CAP := by
    unfold stringbufReserve at h
    dsimp only at h
    rw [Option.ite_none_left_eq_some] at h
    obtain ⟨-, h⟩ := h
    split at h
    · cases h
      exact cap
    · rw [Option.ite_none_left_eq_some, Option.ite_none_left_eq_some,
        Option.ite_none_left_eq_some] at h
      obtain ⟨-, -, small, h⟩ := h
      cases h
      exact Nat.le_of_not_lt small
  unfold stringbufAppend at appended
  rw [Option.ite_none_left_eq_some, Option.ite_none_left_eq_some] at appended
  obtain ⟨-, -, appended⟩ := appended
  cases grown : stringbufReserve sb (sb.size + src.length) with
  | none =>
    rw [grown] at appended
    cases appended
  | some sb₁ =>
    rw [grown] at appended
    dsimp only at appended
    rw [Option.ite_none_left_eq_some] at appended
    obtain ⟨room, same⟩ := appended
    cases same
    have data := stringbufReserve_data grown
    refine ⟨(reserved grown : sb₁.capacity ≤ STRINGBUF_MAX_CAP), ?_⟩
    simp only [StringBuf.size, List.length_append, data] at room ⊢
    omega

variable {lim : Limits} {p : HttpParser} {s : DecodeState} {l : Bytes}

/-- One read of any size. -/
theorem feed_any (sane : Sane lim) (sim : Sim lim p s l)
    (cap : p.buffer.capacity ≤ STRINGBUF_MAX_CAP) (data : Bytes) :
    httpParserFeed lim p data = ({ p with state := .error }, -1) ∨
      ∃ sb, sb.data = p.buffer.data ++ data ∧ sb.capacity ≤ STRINGBUF_MAX_CAP ∧
        sb.size < STRINGBUF_MAX_CAP ∧
        Matches lim { p with buffer := sb } (httpParserFeed lim p data)
          ((decoder lim).run s (l ++ data)) := by
  cases appended : stringbufAppend p.buffer data with
  | none =>
    left
    rw [httpParserFeed, appended]
  | some sb =>
    right
    obtain ⟨-, joined⟩ := stringbufAppend_data appended
    obtain ⟨cap', room⟩ := stringbufAppend_room appended cap
    have small : sb.size < STRINGBUF_MAX_CAP := Nat.lt_of_lt_of_le room cap'
    have large : STRINGBUF_MAX_CAP < 2 ^ 62 := by decide
    exact ⟨sb, joined, cap', small,
      feed_sim_append sane sim appended joined (Nat.lt_trans small large)⟩

/-- The parser has seen `before` and waits in the state that the decoder reaches there. -/
structure Waiting (lim : Limits) (before : Bytes) (p : HttpParser) (s : DecodeState) (l : Bytes) :
    Prop where
  run : (decoder lim).run .start before = .pending s l
  sim : Sim lim p s l
  kept : p.buffer.data = before
  cap : p.buffer.capacity ≤ STRINGBUF_MAX_CAP
  small : before.length < STRINGBUF_MAX_CAP

theorem waiting_init (lim : Limits) (fd : Nat) : Waiting lim [] (httpParserInit fd) .start [] where
  run := run_nil lim .start
  sim := init_sim lim fd
  kept := rfl
  cap := (by decide : STRINGBUF_DEFAULT_CAP ≤ STRINGBUF_MAX_CAP)
  small := (by decide : 0 < STRINGBUF_MAX_CAP)

/-- What feeding a fresh parser leads to. -/
inductive Verdict (lim : Limits) (reads : List Bytes) : HttpParser × Int → Prop
  | refused (q : HttpParser) : Verdict lim reads (q, -1)
  | waiting {q : HttpParser} {s : DecodeState} {l : Bytes}
      (waits : Waiting lim reads.flatten q s l) : Verdict lim reads (q, 0)
  | complete {q : HttpParser} {s : DecodeState} {l : Bytes} {pre post : List Bytes}
      (split : reads = pre ++ post)
      (run : (decoder lim).run .start pre.flatten = .complete s l)
      (done : Completed q s l)
      (small : pre.flatten.length < STRINGBUF_MAX_CAP) : Verdict lim reads (q, 1)

/-- One more read of a parser that waits. -/
theorem waiting_feed {before : Bytes} (sane : Sane lim) (waits : Waiting lim before p s l)
    (data : Bytes) :
    (httpParserFeed lim p data).2 = -1 ∨
      (∃ s' l', (httpParserFeed lim p data).2 = 0 ∧
        Waiting lim (before ++ data) (httpParserFeed lim p data).1 s' l') ∨
      ∃ s' l', (httpParserFeed lim p data).2 = 1 ∧
        (decoder lim).run .start (before ++ data) = .complete s' l' ∧
        Completed (httpParserFeed lim p data).1 s' l' ∧
        (before ++ data).length < STRINGBUF_MAX_CAP := by
  have resumed : (decoder lim).run .start (before ++ data) = (decoder lim).run s (l ++ data) := by
    rw [Decoder.run_append, waits.run]
    rfl
  rcases feed_any sane waits.sim waits.cap data with refused | ⟨sb, joined, cap, small, result⟩
  · exact Or.inl (congrArg Prod.snd refused)
  rw [waits.kept] at joined
  cases outcome : (decoder lim).run s (l ++ data) with
  | pending s' l' =>
    rw [outcome] at result resumed
    obtain ⟨code, sim, buffer, -⟩ := result
    refine Or.inr (Or.inl ⟨s', l', code, resumed, sim, ?_, ?_, ?_⟩)
    · rw [buffer]
      exact joined
    · rw [buffer]
      exact cap
    · rw [← joined]
      exact small
  | failed =>
    rw [outcome] at result
    exact Or.inl result
  | complete s' l' =>
    rw [outcome] at result resumed
    obtain ⟨code, done, -⟩ := result
    refine Or.inr (Or.inr ⟨s', l', code, resumed, done, ?_⟩)
    rw [← joined]
    exact small

theorem feedReads_waiting (sane : Sane lim) (reads : List Bytes) :
    ∀ {done : List Bytes} {p : HttpParser} {s : DecodeState} {l : Bytes},
      Waiting lim done.flatten p s l → Verdict lim (done ++ reads) (feedReads lim p reads) := by
  induction reads with
  | nil =>
    intro done p s l waits
    rw [List.append_nil]
    exact .waiting waits
  | cons data reads ih =>
    intro done p s l waits
    have joined : (done ++ [data]).flatten = done.flatten ++ data := by simp
    rcases waiting_feed sane waits data with
      code | ⟨s', l', code, next⟩ | ⟨s', l', code, run, final, small⟩
    · rw [feedReads_cons_stop (by rw [code]; decide)]
      have result : httpParserFeed lim p data = ((httpParserFeed lim p data).1, -1) := by rw [← code]
      rw [result]
      exact .refused _
    · have step : httpParserFeed lim p data = ((httpParserFeed lim p data).1, 0) := by rw [← code]
      rw [feedReads_cons_zero step]
      rw [← joined] at next
      have whole := ih next
      rwa [List.append_assoc] at whole
    · rw [feedReads_cons_stop (by rw [code]; decide)]
      have result : httpParserFeed lim p data = ((httpParserFeed lim p data).1, 1) := by rw [← code]
      rw [result]
      rw [← joined] at run small
      have split : done ++ data :: reads = (done ++ [data]) ++ reads := by simp
      exact .complete split run final small

/-- Every sequence of reads has one of three verdicts. -/
theorem feedReads_verdict (sane : Sane lim) (fd : Nat) (reads : List Bytes) :
    Verdict lim reads (feedReads lim (httpParserInit fd) reads) :=
  @feedReads_waiting lim sane reads [] _ _ _ (waiting_init lim fd)

/-- Bytes that the decoder refuses are refused, however they are cut. -/
theorem feedReads_failed (sane : Sane lim) (fd : Nat) {reads : List Bytes}
    (failed : (decoder lim).run .start reads.flatten = .failed) :
    (feedReads lim (httpParserInit fd) reads).2 = -1 := by
  have verdict := feedReads_verdict sane fd reads
  generalize feedReads lim (httpParserInit fd) reads = result at verdict ⊢
  cases verdict with
  | refused q => rfl
  | waiting waits =>
    rw [waits.run] at failed
    cases failed
  | complete split run =>
    rw [split, List.flatten_append, Decoder.run_append, run] at failed
    cases failed

/-- The bytes that complete a message, and those that arrived behind it. -/
theorem feedReads_accepted (sane : Sane lim) (fd : Nat) {reads : List Bytes} {q : HttpParser}
    (accepted : feedReads lim (httpParserInit fd) reads = (q, 1)) :
    ∃ pre post s l, reads = pre ++ post ∧
      (decoder lim).run .start pre.flatten = .complete s l ∧ Completed q s l ∧
      pre.flatten.length < STRINGBUF_MAX_CAP := by
  have verdict := feedReads_verdict sane fd reads
  rw [accepted] at verdict
  cases verdict with
  | complete split run done small => exact ⟨_, _, _, _, split, run, done, small⟩

theorem feedReads_pending (sane : Sane lim) (fd : Nat) {reads : List Bytes} {q : HttpParser}
    (waits : feedReads lim (httpParserInit fd) reads = (q, 0)) :
    ∃ s l, Waiting lim reads.flatten q s l := by
  have verdict := feedReads_verdict sane fd reads
  rw [waits] at verdict
  cases verdict with
  | waiting waits => exact ⟨_, _, waits⟩

/-- Bytes for which the buffer has no room are refused, if no message ends before them. -/
theorem feedReads_too_long (sane : Sane lim) {fd : Nat} {reads : List Bytes} {bytes rest : Bytes}
    {q : HttpParser} {code : Int} (long : STRINGBUF_MAX_CAP ≤ bytes.length)
    (ends : ∀ s r, (decoder lim).run .start (bytes ++ rest) = .complete s r →
      r.length ≤ rest.length)
    (joined : reads.flatten = bytes ++ rest)
    (fed : feedReads lim (httpParserInit fd) reads = (q, code)) : code = -1 := by
  have verdict := feedReads_verdict sane fd reads
  rw [fed] at verdict
  cases verdict with
  | refused => rfl
  | waiting waits =>
    have small := waits.small
    rw [joined, List.length_append] at small
    omega
  | @complete _ s l pre post split early _ small =>
    exfalso
    have left := ends s (l ++ post.flatten) (by
      rw [← joined, split, List.flatten_append, Decoder.run_append, early]
      rfl)
    have total := congrArg List.length joined
    rw [split, List.flatten_append, List.length_append, List.length_append] at total
    rw [List.length_append] at left
    omega

end AnyReads
