import NanoProxy.ParserRefinement

/-!
# Reads and their boundaries

The event loop hands the parser whatever one `recv` returned. The verdict and the
parsed request depend on the joined bytes only.
-/

namespace Segmentation

open CLib StringBuffer HttpRequestParser RequestDecoder ParserRefinement Incremental

/-- `MAX_MSG_SIZE` of include/socket_server.h: the size of one read. -/
def MAX_MSG_SIZE : Nat := 4096

/-- A way of cutting `s` into reads. -/
structure Cut (s : Bytes) where
  reads : List Bytes
  nonempty : ∀ r ∈ reads, r ≠ []
  bounded : ∀ r ∈ reads, r.length ≤ MAX_MSG_SIZE
  joined : reads.flatten = s

/-- Reads cut what they hold. -/
def Cut.ofReads {reads : List Bytes} (nonempty : ∀ r ∈ reads, r ≠ [])
    (bounded : ∀ r ∈ reads, r.length ≤ MAX_MSG_SIZE) : Cut reads.flatten :=
  ⟨reads, nonempty, bounded, rfl⟩

/-- The first reads of a cut are a cut of what they hold. -/
def Cut.front {s : Bytes} (cut : Cut s) {pre post : List Bytes} (h : cut.reads = pre ++ post) :
    Cut pre.flatten where
  reads := pre
  nonempty r hr := cut.nonempty r (by rw [h]; exact List.mem_append_left _ hr)
  bounded r hr := cut.bounded r (by rw [h]; exact List.mem_append_left _ hr)
  joined := rfl

/-- The state in which the reads before the first verdict leave the parser. -/
def ReadsMatch (lim : Limits) (fd : Nat) (all : Bytes) (result : HttpParser × Int) :
    Outcome DecodeState UInt8 → Prop
  | .pending s l => result.2 = 0 ∧ Sim lim result.1 s l ∧ result.1.buffer.data = all ∧
      Doubling result.1.buffer ∧ result.1.fd = fd
  | .failed => result.2 = -1
  | .complete s _ => result.2 = 1 ∧ result.1.state = .done ∧ result.1.req = s.req ∧
      result.1.streamingBody = false ∧ result.1.fd = fd

theorem feedReads_cons_zero {lim : Limits} {p q : HttpParser} {r : Bytes} {reads : List Bytes}
    (h : httpParserFeed lim p r = (q, 0)) :
    feedReads lim p (r :: reads) = feedReads lim q reads := by
  rw [feedReads, h]
  rfl

theorem feedReads_cons_stop {lim : Limits} {p : HttpParser} {r : Bytes} {reads : List Bytes}
    (h : (httpParserFeed lim p r).2 ≠ 0) :
    feedReads lim p (r :: reads) = httpParserFeed lim p r := by
  rw [feedReads]
  split
  · rename_i heq
    rw [heq] at h
    exact absurd rfl h
  · rfl

theorem feedReads_append_zero {lim : Limits} {p q : HttpParser} {pre : List Bytes}
    (h : feedReads lim p pre = (q, 0)) (reads : List Bytes) :
    feedReads lim p (pre ++ reads) = feedReads lim q reads := by
  induction pre generalizing p with
  | nil =>
    cases h
    rfl
  | cons r pre ih =>
    by_cases h0 : (httpParserFeed lim p r).2 = 0
    · obtain ⟨p', hstep⟩ : ∃ p', httpParserFeed lim p r = (p', 0) := ⟨_, by rw [← h0]⟩
      rw [feedReads_cons_zero hstep] at h
      rw [List.cons_append, feedReads_cons_zero hstep, ih h]
    · rw [feedReads_cons_stop h0] at h
      rw [h] at h0
      exact absurd rfl h0

theorem feedReads_single (lim : Limits) (p : HttpParser) (data : Bytes) :
    feedReads lim p [data] = httpParserFeed lim p data := by
  rw [feedReads]
  split
  · rename_i heq
    rw [heq]
    rfl
  · rfl

/-- A run over reads is a run of the decoder over the joined reads. -/
theorem feedReads_match {lim : Limits} (sane : Sane lim) (reads : List Bytes) :
    ∀ {p : HttpParser} {s : DecodeState} {l : Bytes}, Sim lim p s l →
      (decoder lim).step s l = .more → Doubling p.buffer →
      (∀ r ∈ reads, r ≠ []) → (∀ r ∈ reads, r.length ≤ MAX_MSG_SIZE) →
      p.buffer.size + reads.flatten.length < STRINGBUF_MAX_CAP →
      ReadsMatch lim p.fd (p.buffer.data ++ reads.flatten) (feedReads lim p reads)
        ((decoder lim).run s (l ++ reads.flatten)) := by
  induction reads with
  | nil =>
    intro p s l hsim hwait hdbl _ _ _
    rw [List.flatten_nil, List.append_nil, List.append_nil, Decoder.run_more hwait]
    exact ⟨rfl, hsim, rfl, hdbl, rfl⟩
  | cons r reads ih =>
    intro p s l hsim _ hdbl hne hbd hroom
    have hmax : MAX_MSG_SIZE ≤ STRINGBUF_DEFAULT_CAP := by decide
    rw [List.flatten_cons, List.length_append] at hroom
    obtain ⟨sb, hdata, hsb, hm⟩ := feed_sim sane hsim hdbl (hne r List.mem_cons_self)
      (le_trans (hbd r List.mem_cons_self) hmax) (by omega)
    rw [List.flatten_cons, ← List.append_assoc, ← List.append_assoc,
      Decoder.run_append reads.flatten s (l ++ r)]
    cases ho : (decoder lim).run s (l ++ r) with
    | pending s' l' =>
      rw [ho] at hm
      obtain ⟨hcode, hsim', hbuf', hfd'⟩ := hm
      have hstep : httpParserFeed lim p r = ((httpParserFeed lim p r).1, 0) := by rw [← hcode]
      rw [feedReads_cons_zero hstep]
      have hnext := ih hsim' (Decoder.run_pending_step ho) (by rw [hbuf']; exact hsb)
        (fun x hx => hne x (List.mem_cons_of_mem r hx))
        (fun x hx => hbd x (List.mem_cons_of_mem r hx))
        (by
          rw [hbuf']
          change sb.data.length + reads.flatten.length < STRINGBUF_MAX_CAP
          rw [hdata, List.length_append, Nat.add_assoc]
          exact hroom)
      rw [hbuf', hfd', hdata] at hnext
      exact hnext
    | failed =>
      rw [ho] at hm
      rw [feedReads_cons_stop (by rw [hm]; decide)]
      exact hm
    | complete s' l' =>
      rw [ho] at hm
      obtain ⟨hcode, hdone, hfd'⟩ := hm
      rw [feedReads_cons_stop (by rw [hcode]; decide)]
      exact ⟨hcode, hdone.state, hdone.req, hdone.streaming, hfd'⟩

/-- Feeding a fresh parser, described by the decoder. -/
theorem feedReads_cut {lim : Limits} (sane : Sane lim) (fd : Nat) {s : Bytes}
    (short : s.length < STRINGBUF_MAX_CAP) (cut : Cut s) :
    ReadsMatch lim fd s (feedReads lim (httpParserInit fd) cut.reads)
      ((decoder lim).run .start s) := by
  have h := feedReads_match sane cut.reads (init_sim lim fd) (move_nil lim .start)
    stringbufInit_doubling cut.nonempty cut.bounded
    (by rw [cut.joined]; change 0 + s.length < _; omega)
  rw [cut.joined] at h
  exact h

/-- Any two cuts of the same bytes lead to the same return value, and on acceptance to the
same request. -/
theorem feedReads_cut_invariant (fd : Nat) (s : Bytes) (short : s.length < STRINGBUF_MAX_CAP)
    (c₁ c₂ : Cut s) :
    let r₁ := feedReads .default (httpParserInit fd) c₁.reads
    let r₂ := feedReads .default (httpParserInit fd) c₂.reads
    r₁.2 = r₂.2 ∧ (r₁.2 = 1 → r₁.1.req = r₂.1.req) := by
  have h₁ := feedReads_cut default_sane fd short c₁
  have h₂ := feedReads_cut default_sane fd short c₂
  dsimp only
  cases ho : (decoder .default).run .start s with
  | pending t l =>
    rw [ho] at h₁ h₂
    exact ⟨h₁.1.trans h₂.1.symm, fun h => absurd (h₁.1.symm.trans h) (by decide)⟩
  | failed =>
    rw [ho] at h₁ h₂
    exact ⟨Eq.trans h₁ (Eq.symm h₂), fun h => absurd (Eq.trans (Eq.symm h₁) h) (by decide)⟩
  | complete t l =>
    rw [ho] at h₁ h₂
    exact ⟨h₁.1.trans h₂.1.symm, fun _ => h₁.2.2.1.trans h₂.2.2.1.symm⟩

end Segmentation
