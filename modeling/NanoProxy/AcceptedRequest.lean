import NanoProxy.RequestCodec

/-!
# What the parser accepts

Two invariants of the decoder. Whatever it accepts is `Bounded`: the pieces are C
strings without an LF, and the limits hold. If the stream has no NULs, which would cut
the copies that the parser makes, the request is also `Accepted`: it can be written
back, no byte of it being read differently.
-/

namespace AcceptedRequest

open CLib StringBuffer HttpRequestParser RequestDecoder RequestGrammar
open Incremental ParserRefinement Segmentation

/-- A header as it stands in the table: readable, and its name in lower case. -/
structure Stored (h : Bytes × Bytes) : Prop where
  readable : Readable .default h.1 h.2
  lowered : lower h.1 = h.1

/-- A C string that stays within one line. -/
def OneLine (s : Bytes) : Prop := (0 : UInt8) ∉ s ∧ LF ∉ s

structure Bounded (req : HttpRequest) : Prop where
  start : ∃ m u, req.method = some m ∧ req.uri = some u ∧ OneLine m ∧ OneLine u ∧
    m.length ≤ 16 ∧ u.length ≤ 4096
  headers : ∀ h ∈ req.headers, OneLine h.1 ∧ OneLine h.2 ∧ h.1.length ≤ 256 ∧ h.2.length ≤ 4096
  count : req.headers.length ≤ 128

structure Accepted (req : HttpRequest) : Prop where
  start : ∃ m u v, req.method = some m ∧ req.uri = some u ∧ req.version = some v ∧
    ReadableStart .default m u v
  stored : ∀ h ∈ req.headers, Stored h
  distinct : (keys req.headers).Nodup
  count : req.headers.length ≤ 128

theorem isspace_tolower (b : UInt8) : isspace (tolower b) = isspace b := by
  simpa using forall_byte (p := fun b => isspace (tolower b) == isspace b) (by decide +kernel) b

theorem lower_trimmed {s : Bytes} (h : Trimmed s) : Trimmed (lower s) := by
  constructor
  · intro b hb
    rw [lower, List.head?_map, Option.map_eq_some_iff] at hb
    obtain ⟨a, ha, rfl⟩ := hb
    rw [isspace_tolower, h.1 a ha]
  · intro b hb
    rw [lower, List.getLast?_map, Option.map_eq_some_iff] at hb
    obtain ⟨a, ha, rfl⟩ := hb
    rw [isspace_tolower, h.2 a ha]

/-- Lower case makes none of the bytes that the grammar reserves. -/
theorem mem_lower_reserved {s : Bytes} {c : UInt8} (hc : c = COLON ∨ c = 0 ∨ c = LF)
    (h : c ∈ lower s) : c ∈ s := by
  obtain ⟨b, hb, hbc⟩ := List.mem_map.mp h
  have key := forall_byte (p := fun b => !(tolower b == COLON || tolower b == 0 || tolower b == LF)
    || tolower b == b) (by decide +kernel) b
  have hsame : tolower b = b := by
    rw [hbc] at key
    rcases hc with rfl | rfl | rfl <;> simpa [hbc] using key
  rw [← hbc, hsame]
  exact hb

theorem not_mem_takeWhile (c : UInt8) (l : Bytes) : c ∉ l.takeWhile (· != c) := fun h => by
  simpa using List.mem_takeWhile_imp h

theorem mem_trim {s : Bytes} {b : UInt8} (h : b ∈ trim s) : b ∈ s :=
  (List.dropWhile_sublist _).mem ((List.rdropWhile_prefix _ _).mem h)

theorem mem_chomp {s : Bytes} {b : UInt8} (h : b ∈ chomp s) : b ∈ s := (chomp_begins s).mem h

theorem cstr_oneLine {s line : Bytes} (hlf : LF ∉ line) (hs : ∀ b ∈ s, b ∈ line) :
    OneLine (cstr s) :=
  ⟨not_mem_takeWhile 0 s, fun hb => hlf (hs _ ((List.takeWhile_prefix _).mem hb))⟩

theorem cstr_length_le (s : Bytes) : (cstr s).length ≤ s.length :=
  (List.takeWhile_prefix _).length_le

theorem OneLine.lower {s : Bytes} (h : OneLine s) : OneLine (CLib.lower s) :=
  ⟨fun hb => h.1 (mem_lower_reserved (Or.inr (Or.inl rfl)) hb),
    fun hb => h.2 (mem_lower_reserved (Or.inr (Or.inr rfl)) hb)⟩

theorem decodeRequestLine_bounded {line : Bytes} {req : HttpRequest} (hlf : LF ∉ line)
    (h : decodeRequestLine .default line = some req) : Bounded req := by
  unfold decodeRequestLine at h
  dsimp only at h
  split at h
  · rename_i hok
    obtain ⟨-, -, -, hm, hu, -⟩ := hok
    cases h
    refine ⟨⟨_, _, rfl, rfl, ?_, ?_, le_trans (cstr_length_le _) hm.2,
      le_trans (cstr_length_le _) hu.2⟩, by simp [HttpRequest.empty], by simp [HttpRequest.empty]⟩
    · exact cstr_oneLine hlf fun b hb => (List.takeWhile_prefix _).mem hb
    · exact cstr_oneLine hlf fun b hb => List.mem_of_mem_drop ((List.takeWhile_prefix _).mem hb)
  · cases h

theorem decodeRequestLine_accepted {line : Bytes} {req : HttpRequest}
    (hlf : LF ∉ line) (hnul : (0 : UInt8) ∉ line)
    (h : decodeRequestLine .default line = some req) : Accepted req := by
  unfold decodeRequestLine at h
  dsimp only at h
  split at h
  · rename_i hok
    obtain ⟨-, -, -, hm, hu, hv⟩ := hok
    set m := line.takeWhile (· != SP) with hmdef
    set after := line.drop (m.length + 1) with hafter
    set u := after.takeWhile (· != SP) with hudef
    set v := (chomp line).drop (m.length + 1 + u.length + 1) with hvdef
    have hmem : ∀ b ∈ m, b ∈ line := fun b hb => (List.takeWhile_prefix _).mem hb
    have hmemu : ∀ b ∈ u, b ∈ line := fun b hb =>
      List.mem_of_mem_drop ((List.takeWhile_prefix _).mem hb)
    have hmemv : ∀ b ∈ v, b ∈ line := fun b hb => mem_chomp (List.mem_of_mem_drop hb)
    have hstart : ReadableStart .default m u v :=
      { method_ne := List.length_pos_iff.mp hm.1
        method_bytes := ⟨not_mem_takeWhile SP line, fun hb => hnul (hmem _ hb),
          fun hb => hlf (hmem _ hb)⟩
        method_fits := hm.2
        uri_ne := List.length_pos_iff.mp hu.1
        uri_bytes := ⟨not_mem_takeWhile SP after, fun hb => hnul (hmemu _ hb),
          fun hb => hlf (hmemu _ hb)⟩
        uri_fits := hu.2
        version_ne := List.length_pos_iff.mp hv.1
        version_bytes := ⟨fun hb => hnul (hmemv _ hb), fun hb => hlf (hmemv _ hb)⟩
        version_fits := hv.2
        line_fits := by
          have hlim : Limits.default.maxMethodSize = 16 ∧ Limits.default.maxUrlSize = 4096 ∧
              Limits.default.maxHttpVersionSize = 8 ∧ Limits.default.maxHeaderLineSize = 8192 := by
            decide
          omega }
    cases h
    refine ⟨⟨m, u, v, ?_, ?_, ?_, hstart⟩, by simp [HttpRequest.empty], by
      simp [HttpRequest.empty, keys], by simp [HttpRequest.empty]⟩
    · rw [cstr_eq_self hstart.method_bytes.2.1]
    · rw [cstr_eq_self hstart.uri_bytes.2.1]
    · rw [cstr_eq_self hstart.version_bytes.1]
  · cases h

/-- A put changes one entry or adds one. -/
theorem mem_shputs {hs : Headers} {k v : Bytes} {h : Bytes × Bytes} (hh : h ∈ shputs hs k v) :
    h ∈ hs ∨ h = (k, v) := by
  induction hs with
  | nil => exact Or.inr (List.mem_singleton.mp hh)
  | cons e hs ih =>
    rw [shputs] at hh
    split at hh
    · rename_i heq
      rcases List.mem_cons.mp hh with rfl | hmem
      · exact Or.inr (by rw [heq])
      · exact Or.inl (List.mem_cons_of_mem _ hmem)
    · rcases List.mem_cons.mp hh with rfl | hmem
      · exact Or.inl List.mem_cons_self
      · exact (ih hmem).imp_left (List.mem_cons_of_mem _)

theorem keys_shputs_of_mem {hs : Headers} {k : Bytes} (v : Bytes) (h : k ∈ keys hs) :
    keys (shputs hs k v) = keys hs := by
  induction hs with
  | nil => cases h
  | cons e hs ih =>
    rw [shputs]
    split
    · rfl
    · rename_i hne
      rcases List.mem_cons.mp h with heq | hmem
      · exact absurd heq.symm hne
      · exact congrArg (e.1 :: ·) (ih hmem)

theorem shputs_nodup {hs : Headers} (k v : Bytes) (h : (keys hs).Nodup) :
    (keys (shputs hs k v)).Nodup := by
  by_cases hk : k ∈ keys hs
  · rw [keys_shputs_of_mem v hk]
    exact h
  · rw [shputs_new hk, keys, List.map_append]
    refine List.nodup_append.mpr ⟨h, by simp, ?_⟩
    intro a ha b hb hab
    rw [List.map_singleton, List.mem_singleton] at hb
    rw [hab, hb] at ha
    exact hk ha

theorem decodeHeaderLine_bounded {line : Bytes} {req : HttpRequest} {hs : Headers} (hlf : LF ∉ line)
    (h : decodeHeaderLine .default req.headers line = some hs) (inv : Bounded req) :
    Bounded { req with headers := hs } := by
  unfold decodeHeaderLine at h
  dsimp only at h
  split at h
  · rename_i hok
    obtain ⟨-, -, hname, hvalue, hcount⟩ := hok
    cases h
    refine ⟨inv.start, ?_, hcount⟩
    intro e he
    rcases mem_shputs he with hold | rfl
    · exact inv.headers e hold
    · refine ⟨OneLine.lower (cstr_oneLine hlf fun b hb => ?_), cstr_oneLine hlf fun b hb => ?_,
        ?_, le_trans (cstr_length_le _) hvalue⟩
      · exact (List.takeWhile_prefix _).mem (mem_trim hb)
      · exact List.mem_of_mem_drop (mem_trim hb)
      · rw [lower, List.length_map]
        exact le_trans (cstr_length_le _) hname.2
  · cases h

theorem decodeHeaderLine_accepted {line : Bytes} {req : HttpRequest} {hs : Headers}
    (hlf : LF ∉ line) (hnul : (0 : UInt8) ∉ line)
    (h : decodeHeaderLine .default req.headers line = some hs) (inv : Accepted req) :
    Accepted { req with headers := hs } := by
  unfold decodeHeaderLine at h
  dsimp only at h
  split at h
  · rename_i hok
    obtain ⟨-, -, hname, hvalue, hcount⟩ := hok
    set before := line.takeWhile (· != COLON) with hbefore
    set name := trim before with hnamedef
    set value := trim (line.drop (before.length + 1)) with hvaluedef
    have hmem : ∀ b ∈ name, b ∈ line := fun b hb =>
      (List.takeWhile_prefix _).mem (mem_trim hb)
    have hmemv : ∀ b ∈ value, b ∈ line := fun b hb => List.mem_of_mem_drop (mem_trim hb)
    have hnul_name : (0 : UInt8) ∉ name := fun hb => hnul (hmem _ hb)
    have hnul_value : (0 : UInt8) ∉ value := fun hb => hnul (hmemv _ hb)
    have hstored : Stored (lower name, value) :=
      { lowered := lower_lower name
        readable :=
          { name_ne := by
              rw [lower, ne_eq, List.map_eq_nil_iff]
              exact List.length_pos_iff.mp hname.1
            name_bytes := ⟨
              fun hb => not_mem_takeWhile COLON line
                (mem_trim (mem_lower_reserved (Or.inl rfl) hb)),
              fun hb => hnul_name (mem_lower_reserved (Or.inr (Or.inl rfl)) hb),
              fun hb => hlf (hmem _ (mem_lower_reserved (Or.inr (Or.inr rfl)) hb))⟩
            name_trimmed := lower_trimmed (trim_trimmed before)
            name_fits := by
              rw [lower, List.length_map]
              exact hname.2
            value_bytes := ⟨hnul_value, fun hb => hlf (hmemv _ hb)⟩
            value_trimmed := trim_trimmed _
            value_fits := hvalue
            line_fits := by
              have hlim : Limits.default.maxHeaderNameSize = 256 ∧
                  Limits.default.maxHeaderValueSize = 4096 ∧
                  Limits.default.maxHeaderLineSize = 8192 := by decide
              rw [lower, List.length_map]
              dsimp only
              omega } }
    rw [cstr_eq_self hnul_name, cstr_eq_self hnul_value] at h hcount
    cases h
    refine ⟨inv.start, ?_, shputs_nodup _ _ inv.distinct, hcount⟩
    intro e he
    rcases mem_shputs he with hold | rfl
    · exact inv.stored e hold
    · exact hstored
  · cases h

/-- A property of requests that every line and every body byte keeps, on input whose
bytes all satisfy `ok`. -/
structure LineInvariant (ok : UInt8 → Prop) (P : HttpRequest → Prop) : Prop where
  start : ∀ {line req}, LF ∉ line → (∀ b ∈ line, ok b) →
    decodeRequestLine .default line = some req → P req
  header : ∀ {line req hs}, LF ∉ line → (∀ b ∈ line, ok b) →
    decodeHeaderLine .default req.headers line = some hs → P req → P { req with headers := hs }
  body : ∀ {req} body, P req → P { req with body := body }

theorem bounded_invariant : LineInvariant (fun _ => True) Bounded where
  start hlf _ h := decodeRequestLine_bounded hlf h
  header hlf _ h inv := decodeHeaderLine_bounded hlf h inv
  body _ inv := ⟨inv.start, inv.headers, inv.count⟩

theorem accepted_invariant : LineInvariant (· ≠ 0) Accepted where
  start hlf hok h := decodeRequestLine_accepted hlf (fun hb => hok 0 hb rfl) h
  header hlf hok h inv := decodeHeaderLine_accepted hlf (fun hb => hok 0 hb rfl) h inv
  body _ inv := ⟨inv.start, inv.stored, inv.distinct, inv.count⟩

section Runs

variable {ok : UInt8 → Prop} {P : HttpRequest → Prop} {s t : DecodeState} {l r : Bytes} {n : Nat}

/-- Before the request line is read there is nothing to say. -/
def Inv (P : HttpRequest → Prop) (s : DecodeState) : Prop := s.phase = .requestLine ∨ P s.req

theorem enter_req {n m : Nat} {req : HttpRequest} {ph : Phase} {t : DecodeState}
    (h : enter n req ph = .eat m t ∨ enter n req ph = .done m t) : t.req = req := by
  cases ph <;> rcases h with h | h <;> cases h <;> rfl

theorem line?_mem {l line : Bytes} (h : line? l = some line) : LF ∉ line ∧ ∀ b ∈ line, b ∈ l := by
  obtain ⟨rest, rfl, hlf⟩ := line?_split h
  exact ⟨hlf, fun b hb => List.mem_append_left _ hb⟩

theorem moveLine_preserves (inv : LineInvariant ok P) {line : Bytes} (hlf : LF ∉ line)
    (hok : ∀ b ∈ line, ok b) (hs : Inv P s)
    (h : moveLine .default s line = .eat n t ∨ moveLine .default s line = .done n t) :
    P t.req := by
  unfold moveLine at h
  split at h
  · split at h
    · simp at h
    · rename_i req hdec
      rw [enter_req h]
      exact inv.start hlf hok hdec
  · rename_i hphase
    have hreq : P s.req := hs.resolve_left (by rw [hphase]; simp)
    split at h
    · simp at h
    split at h
    · split at h
      · simp at h
      · rw [enter_req h]
        exact hreq
    · split at h
      · simp at h
      · rename_i hs' hdec
        rw [enter_req h]
        exact inv.header hlf hok hdec hreq
  · rename_i hne _
    have hreq : P s.req := hs.resolve_left hne
    split at h
    · simp at h
    · rw [enter_req h]
      exact hreq
    · rw [enter_req h]
      exact hreq

theorem move_preserves (inv : LineInvariant ok P) (hok : ∀ b ∈ l, ok b) (hs : Inv P s)
    (h : move .default s l = .eat n t ∨ move .default s l = .done n t) : P t.req := by
  have hline : ∀ line, line? l = some line →
      moveLine .default s line = .eat n t ∨ moveLine .default s line = .done n t → P t.req :=
    fun line hl hm => moveLine_preserves inv (line?_mem hl).1
      (fun b hb => hok b ((line?_mem hl).2 b hb)) hs hm
  unfold move at h
  split at h
  iterate 3
    split at h
    · simp at h
    · exact hline _ ‹_› h
  · rename_i hphase
    have hreq : P s.req := hs.resolve_left (by rw [hphase]; simp)
    split at h
    · simp at h
    · rw [enter_req h]
      exact inv.body _ hreq
  · rename_i hphase
    have hreq : P s.req := hs.resolve_left (by rw [hphase]; simp)
    split at h
    · simp at h
    split at h
    · simp at h
    · rw [enter_req h]
      exact inv.body _ hreq
  · simp at h

theorem run_preserves (inv : LineInvariant ok P) (hok : ∀ b ∈ l, ok b) (hs : Inv P s)
    (h : (decoder .default).run s l = .complete t r) : P t.req := by
  have key : (∀ b ∈ l, ok b) → Inv P s → ∀ t r, (decoder .default).run s l = .complete t r →
      P t.req := by
    refine Decoder.run_induction (D := decoder .default)
      (motive := fun s l o => (∀ b ∈ l, ok b) → Inv P s → ∀ t r, o = .complete t r → P t.req)
      ?_ ?_ ?_ ?_ s l
    · intro s l _ _ _ t r ho
      cases ho
    · intro s l _ _ _ t r ho
      cases ho
    · intro s l n t hm hl hs t' r ho
      cases ho
      exact move_preserves inv hl hs (Or.inr hm)
    · intro s l n t hm ih hl hs
      exact ih (fun b hb => hl b (List.mem_of_mem_drop hb))
        (Or.inr (move_preserves inv hl hs (Or.inl hm)))
  exact key hok hs t r h

/-- A move adds no more to the body than it consumes. -/
theorem move_body_length {lim : Limits}
    (h : move lim s l = .eat n t ∨ move lim s l = .done n t) :
    t.req.body.length ≤ s.req.body.length + n := by
  have hline : ∀ line, moveLine lim s line = .eat n t ∨ moveLine lim s line = .done n t →
      t.req.body.length ≤ s.req.body.length + n := by
    intro line hm
    unfold moveLine at hm
    split at hm
    · split at hm
      · simp at hm
      · rename_i req hdec
        rw [enter_req hm, decodeRequestLine_body hdec]
        exact Nat.zero_le _
    · split at hm
      · simp at hm
      split at hm
      · split at hm
        · simp at hm
        · rw [enter_req hm]
          exact Nat.le_add_right _ _
      · split at hm
        · simp at hm
        · rw [enter_req hm]
          exact Nat.le_add_right _ _
    · split at hm
      · simp at hm
      · rw [enter_req hm]
        exact Nat.le_add_right _ _
      · rw [enter_req hm]
        exact Nat.le_add_right _ _
  unfold move at h
  split at h
  iterate 3
    split at h
    · simp at h
    · exact hline _ h
  · split at h
    · simp at h
    · have hn : n = 1 := h.elim enter_eat enter_done
      rw [enter_req h, hn, List.length_append]
      rfl
  · split at h
    · simp at h
    split at h
    · simp at h
    · rename_i size _ _ _
      have hn : n = size + 2 := h.elim enter_eat enter_done
      rw [enter_req h, List.length_append, List.length_take]
      omega
  · simp at h

theorem run_body_length {lim : Limits} (h : (decoder lim).run s l = .complete t r) :
    t.req.body.length ≤ s.req.body.length + l.length := by
  have key : ∀ t r, (decoder lim).run s l = .complete t r →
      t.req.body.length ≤ s.req.body.length + l.length := by
    refine Decoder.run_induction (D := decoder lim)
      (motive := fun s l o => ∀ t r, o = .complete t r →
        t.req.body.length ≤ s.req.body.length + l.length) ?_ ?_ ?_ ?_ s l
    · intro s l _ t r ho
      cases ho
    · intro s l _ t r ho
      cases ho
    · intro s l n t hm t' r ho
      cases ho
      have hstep := move_body_length (Or.inr hm)
      have hn := (decoder lim).done_le hm
      omega
    · intro s l n t hm ih t' r ho
      have hstep := move_body_length (Or.inl hm)
      have hn := (decoder lim).eat_pos hm
      have hrest := ih t' r ho
      rw [List.length_drop] at hrest
      omega
  exact key t r h

end Runs

/-- The parser gives up on input that would not fit in its buffer, so that an accepted
message always lies in the reads up to the one that completed it. -/
theorem feedReads_complete {lim : Limits} (sane : Sane lim) (reads : List Bytes) :
    ∀ {p q : HttpParser} {s : DecodeState} {l : Bytes}, Sim lim p s l → Doubling p.buffer →
      (∀ r ∈ reads, r ≠ []) → (∀ r ∈ reads, r.length ≤ MAX_MSG_SIZE) →
      feedReads lim p reads = (q, 1) →
      ∃ pre post t rest, reads = pre ++ post ∧
        p.buffer.size + pre.flatten.length < STRINGBUF_MAX_CAP ∧
        (decoder lim).run s (l ++ pre.flatten) = .complete t rest ∧ Completed q t rest := by
  induction reads with
  | nil =>
    intro p q s l _ _ _ _ h
    cases h
  | cons r reads ih =>
    intro p q s l hsim hdbl hne hbd h
    have hmax : MAX_MSG_SIZE ≤ STRINGBUF_DEFAULT_CAP := by decide
    by_cases hroom : p.buffer.size + r.length < STRINGBUF_MAX_CAP
    · obtain ⟨sb, hdata, hsb, hm⟩ := feed_sim sane hsim hdbl (hne r List.mem_cons_self)
        (le_trans (hbd r List.mem_cons_self) hmax) hroom
      cases ho : (decoder lim).run s (l ++ r) with
      | pending s' l' =>
        rw [ho] at hm
        obtain ⟨hcode, hsim', hbuf', -⟩ := hm
        have hstep : httpParserFeed lim p r = ((httpParserFeed lim p r).1, 0) := by rw [← hcode]
        rw [feedReads_cons_zero hstep] at h
        obtain ⟨pre, post, t, rest, rfl, hsize, hrun, hq⟩ := ih hsim' (by rw [hbuf']; exact hsb)
          (fun x hx => hne x (List.mem_cons_of_mem r hx))
          (fun x hx => hbd x (List.mem_cons_of_mem r hx)) h
        refine ⟨r :: pre, post, t, rest, rfl, ?_, ?_, hq⟩
        · rw [hbuf', StringBuf.size, hdata, List.length_append] at hsize
          rw [List.flatten_cons, List.length_append, ← Nat.add_assoc]
          exact hsize
        · rw [List.flatten_cons, ← List.append_assoc, Decoder.run_append, ho]
          exact hrun
      | failed =>
        rw [ho] at hm
        rw [feedReads_cons_stop (by rw [hm]; decide)] at h
        rw [h] at hm
        exact absurd (show (1 : Int) = -1 from hm) (by decide)
      | complete s' l' =>
        rw [ho] at hm
        rw [feedReads_cons_stop (by rw [hm.1]; decide)] at h
        rw [h] at hm
        exact ⟨[r], reads, s', l', rfl, by simpa using hroom, by simpa using ho, hm.2.1⟩
    · have hfull : httpParserFeed lim p r = ({ p with state := .error }, -1) := by
        rw [httpParserFeed, stringbufAppend_none (by omega) hdbl.capacity_le]
      rw [feedReads_cons_stop (by rw [hfull]; simp), hfull] at h
      simp at h

/-- The reads of a connection whose request the parser accepts. -/
structure AcceptedReads (fd : Nat) (q : HttpParser) where
  reads : List Bytes
  nonempty : ∀ r ∈ reads, r ≠ []
  bounded : ∀ r ∈ reads, r.length ≤ MAX_MSG_SIZE
  accepted : feedReads .default (httpParserInit fd) reads = (q, 1)

namespace AcceptedReads

variable {fd : Nat} {q : HttpParser}

theorem preserves {ok : UInt8 → Prop} {P : HttpRequest → Prop} (inv : LineInvariant ok P)
    (h : AcceptedReads fd q) (hok : ∀ b ∈ h.reads.flatten, ok b) : P q.req := by
  obtain ⟨pre, post, t, rest, hreads, -, hrun, hq⟩ := feedReads_complete default_sane h.reads
    (init_sim .default fd) stringbufInit_doubling h.nonempty h.bounded h.accepted
  have hpre : ∀ b ∈ pre.flatten, ok b := by
    intro b hb
    apply hok
    rw [hreads, List.flatten_append]
    exact List.mem_append_left _ hb
  rw [hq.req]
  exact run_preserves inv hpre (Or.inl rfl) hrun

theorem request_bounded (h : AcceptedReads fd q) : Bounded q.req :=
  h.preserves bounded_invariant fun _ _ => trivial

theorem request_accepted (h : AcceptedReads fd q) (nul_free : (0 : UInt8) ∉ h.reads.flatten) :
    Accepted q.req :=
  h.preserves accepted_invariant fun _ hb h0 => nul_free (h0 ▸ hb)

theorem state_done (h : AcceptedReads fd q) : q.state = .done := by
  obtain ⟨_, _, _, _, -, -, -, hq⟩ := feedReads_complete default_sane h.reads
    (init_sim .default fd) stringbufInit_doubling h.nonempty h.bounded h.accepted
  exact hq.state

theorem body_length (h : AcceptedReads fd q) : q.req.body.length < STRINGBUF_MAX_CAP := by
  obtain ⟨pre, _, t, rest, -, hsize, hrun, hq⟩ := feedReads_complete default_sane h.reads
    (init_sim .default fd) stringbufInit_doubling h.nonempty h.bounded h.accepted
  have hbody := run_body_length hrun
  rw [List.nil_append] at hbody
  change 0 + pre.flatten.length < _ at hsize
  change t.req.body.length ≤ 0 + _ at hbody
  rw [hq.req]
  omega

end AcceptedReads

end AcceptedRequest
