import NanoProxy.DnsQuestion

/-!
# The DNS response at the end of its buffer

Every field of a record has its own check, and a record that does not fit is not taken
back. The response is sound if and only if the answers stop before a record for which fewer
than two bytes are left, and every record before it has its place.
-/

namespace DnsBounds

open CLib DnsMessage DnsResponder DnsEncoding DnsQuestion

variable {outmax : Nat} {o : Out} {msg rest : Bytes} {labels : List Bytes} {qtype n : UInt16}
  {records : List DnsRecord}

/-- The end of a message, `n` bytes, behind a question for the name `labels`. -/
structure Context (msg : Bytes) (labels : List Bytes) (n : Nat) : Prop where
  valid : LabelsValid labels
  name : ∃ after, msg.drop 12 = putLabels labels ++ after
  behind : 12 + n < msg.length

theorem Context.last {first last : Bytes} (h : Context msg labels (first ++ last).length) :
    Context msg labels last.length := by
  refine ⟨h.valid, h.name, Nat.lt_of_le_of_lt (Nat.add_le_add_left ?_ 12) h.behind⟩
  rw [List.length_append]
  exact Nat.le_add_left _ _

theorem readRecord_bytes {rec : DnsRecord} {rdata : Bytes}
    (ctx : Context msg labels (recordBytes rec rdata ++ rest).length)
    (short : rdata.length < 65536) :
    readRecord msg (recordBytes rec rdata ++ rest) =
      (readRData msg (rdata ++ rest) rec.data.rtype.toNat rdata.length).map fun r =>
        (⟨⟨labels, some 12⟩, rec.data.rtype.toNat, 1, rec.ttl.toNat, r⟩, rest) := by
  obtain ⟨after, name⟩ := ctx.name
  exact readRecord_put ctx.valid name (Nat.le_refl 12) (by decide) ctx.behind
    rec.data.rtype.toNat_lt (by decide) rec.ttl.toNat_lt short

theorem fixedPart_length (rec : DnsRecord) : (fixedPart rec).length = 8 := rfl

/-- Where the RDATA of the next record begins. -/
theorem rdata_pos (rec : DnsRecord) (o : Out) :
    (((o.put [0xC0, 12]).put (fixedPart rec)).put (dnsPut16 0)).pos = o.pos + 12 := by
  simp only [put_pos, fixedPart_length]
  rfl

theorem record_bytes {rec : DnsRecord} {rdata : Bytes} (short : rdata.length < 65536)
    (written : (putRData outmax rec.data
      (((o.put [0xC0, 12]).put (fixedPart rec)).put (dnsPut16 0))).bytes =
        (((o.put [0xC0, 12]).put (fixedPart rec)).put (dnsPut16 0)).bytes ++ rdata) :
    (putAnswer outmax rec (o.put [0xC0, 12])).bytes = o.bytes ++ recordBytes rec rdata := by
  rw [putAnswer_bytes written, recordBytes_eq rec rdata short, put_bytes, List.append_assoc]

/-- A record that has its place. -/
theorem record_placed {rec : DnsRecord} {rdata : Bytes} (small : outmax < 2 ^ 64)
    (fits : o.pos + 12 ≤ outmax) (enough : rdataBytes (outmax - (o.pos + 12)) rec.data = some rdata)
    (inside : o.reach ≤ outmax) :
    (putAnswer outmax rec (o.put [0xC0, 12])).bytes = o.bytes ++ recordBytes rec rdata ∧
      (putAnswer outmax rec (o.put [0xC0, 12])).reach ≤ outmax ∧
      o.pos + 12 + rdata.length ≤ outmax := by
  have left : (((o.put [0xC0, 12]).put (fixedPart rec)).put (dnsPut16 0)).pos +
      (outmax - (o.pos + 12)) = outmax := by
    rw [rdata_pos]
    omega
  have written := putRData_some small left enough
  have length := rdataBytes_length enough
  refine ⟨record_bytes (rdataBytes_short enough) (by rw [written]; rfl), ?_, by omega⟩
  change (putRData outmax rec.data
    (((o.put [0xC0, 12]).put (fixedPart rec)).put (dnsPut16 0))).reach ≤ outmax
  rw [written]
  have reach : (((o.put [0xC0, 12]).put (fixedPart rec)).put (dnsPut16 0)).reach ≤ outmax := by
    have two : ([0xC0, 12] : Bytes).length = 2 := rfl
    have place : (dnsPut16 0).length = 2 := rfl
    simp only [Out.put, Out.pos, List.length_append, fixedPart_length, two, place] at fits ⊢
    omega
  rw [Out.put]
  dsimp only
  rw [rdata_pos]
  omega

/-- A record whose RDATA does not fit. -/
theorem record_cut {rec : DnsRecord} (small : outmax < 2 ^ 64) (fits : o.pos + 12 ≤ outmax)
    (short : rdataBytes (outmax - (o.pos + 12)) rec.data = none) : ∃ rdata, rdata.length < 65536 ∧
      (putAnswer outmax rec (o.put [0xC0, 12])).bytes = o.bytes ++ recordBytes rec rdata ∧
      ∀ msg rest, readRData msg (rdata ++ rest) rec.data.rtype.toNat rdata.length = none := by
  have left : (((o.put [0xC0, 12]).put (fixedPart rec)).put (dnsPut16 0)).pos +
      (outmax - (o.pos + 12)) = outmax := by
    rw [rdata_pos]
    omega
  obtain ⟨rdata, length, written, unreadable⟩ := putRData_none small left short
  have length : rdata.length < 65536 := Nat.lt_of_le_of_lt length (by decide)
  exact ⟨rdata, length, record_bytes length written, unreadable⟩

/-- Only the records that match count. -/
theorem answerLoop_filter (qtype : UInt16) (records : List DnsRecord) (o : Out) (n : UInt16) :
    answerLoop outmax qtype records o n =
      answerLoop outmax qtype (records.filter (answers qtype)) o n := by
  induction records generalizing o n with
  | nil => rfl
  | cons rec records ih =>
    cases matching : answers qtype rec with
    | false =>
      rw [List.filter_cons_of_neg (by simp [matching]), answerLoop, matching]
      exact ih o n
    | true =>
      rw [List.filter_cons_of_pos matching, answerLoop, answerLoop, matching]
      dsimp only
      simp only [ih]

/-- The loop has placed `answers`. -/
structure Placed (outmax : Nat) (qtype : UInt16) (records : List DnsRecord) (o : Out) (n : UInt16)
    (answers : List Answer) : Prop where
  bytes : (answerLoop outmax qtype records o n).1.bytes = o.bytes ++ answers.flatMap Answer.bytes
  count : (answerLoop outmax qtype records o n).2 = n + UInt16.ofNat answers.length
  reach : (answerLoop outmax qtype records o n).1.reach ≤ outmax
  length : o.pos + (answers.flatMap Answer.bytes).length ≤ outmax

theorem count_succ (n : UInt16) (k : Nat) :
    n + 1 + UInt16.ofNat k = n + UInt16.ofNat (k + 1) := by
  rw [UInt16.add_assoc, UInt16.ofNat_add, UInt16.add_comm 1]
  rfl

/-- Fewer than two bytes are left. -/
theorem answerLoop_full {rec : DnsRecord} (records : List DnsRecord) (n : UInt16)
    (here : answers qtype rec = true)
    (full : outmax < o.pos + 2) :
    answerLoop outmax qtype (rec :: records) o n = (o, n) := by
  rw [answerLoop, here]
  exact if_pos full

theorem answerLoop_next {rec : DnsRecord} (records : List DnsRecord) (n : UInt16)
    (here : answers qtype rec = true)
    (fits : o.pos + 10 ≤ outmax) :
    answerLoop outmax qtype (rec :: records) o n =
      answerLoop outmax qtype records (putAnswer outmax rec (o.put [0xC0, 12])) (n + 1) := by
  have two : (o.put [0xC0, 12]).pos = o.pos + 2 := put_pos o _
  rw [answerLoop, here]
  simp only [Bool.not_true, Bool.false_eq_true, if_false]
  rw [if_neg (by omega), if_neg (by omega)]

theorem record_pos {o' : Out} {rec : DnsRecord} {rdata : Bytes}
    (bytes : o'.bytes = o.bytes ++ recordBytes rec rdata) :
    o'.pos = o.pos + 12 + rdata.length := by
  rw [Out.pos, bytes, List.length_append, recordBytes, putRecord_length, Nat.add_assoc]
  rfl

theorem answerLoop_room (small : outmax < 2 ^ 64)
    (matching : ∀ rec ∈ records, answers qtype rec = true) (inside : o.reach ≤ outmax)
    (length : o.pos ≤ outmax) (room : Room outmax o.pos records) :
    Placed outmax qtype records o n (placed outmax o.pos records) := by
  have done (n : UInt16) : n = n + UInt16.ofNat 0 := (UInt16.add_zero n).symm
  induction records generalizing o n with
  | nil => exact ⟨(List.append_nil _).symm, done n, inside, length⟩
  | cons rec records ih =>
    obtain ⟨here, matching⟩ := List.forall_mem_cons.mp matching
    by_cases full : outmax < o.pos + 2
    · have stop := answerLoop_full records n here full
      rw [placed, if_pos full]
      refine ⟨?_, ?_, ?_, length⟩
      · rw [stop]
        exact (List.append_nil _).symm
      · rw [stop]
        exact done n
      · rwa [stop]
    · obtain ⟨fits, room⟩ := room.resolve_left full
      have next := answerLoop_next records n here
        (Nat.le_trans (Nat.add_le_add_left (by decide) o.pos) fits)
      rw [placed, if_neg full]
      cases found : rdataBytes (outmax - (o.pos + 12)) rec.data with
      | none =>
        rw [found] at room
        exact room.elim
      | some rdata =>
        rw [found] at room
        dsimp only at room ⊢
        obtain ⟨bytes, reach, length'⟩ := record_placed small fits found inside
        have pos := record_pos bytes
        rw [← pos] at room length' ⊢
        have rest := ih (n := n + 1) matching reach length' room
        refine ⟨?_, ?_, ?_, ?_⟩
        · rw [next, rest.bytes, bytes, List.flatMap_cons, List.append_assoc]
          rfl
        · rw [next, rest.count, count_succ]
          rfl
        · rw [next]
          exact rest.reach
        · have whole := rest.length
          rw [pos] at whole ⊢
          rw [List.flatMap_cons, List.length_append, Answer.bytes, recordBytes, putRecord_length]
          dsimp only
          omega

/-- A resolver reads what was placed. -/
theorem readMany_placed (pos : Nat) (records : List DnsRecord)
    (ctx : Context msg labels (((placed outmax pos records).flatMap Answer.bytes) ++ rest).length) :
    readMany (readRecord msg) (placed outmax pos records).length
      ((placed outmax pos records).flatMap Answer.bytes ++ rest) =
        some ((placed outmax pos records).map (Answer.record labels), rest) := by
  induction records generalizing pos with
  | nil => rfl
  | cons rec records ih =>
    rw [placed] at ctx ⊢
    split
    · rfl
    rename_i room
    rw [if_neg room] at ctx
    cases found : rdataBytes (outmax - (pos + 12)) rec.data with
    | none => rfl
    | some rdata =>
      rw [found] at ctx
      dsimp only at ctx ⊢
      rw [List.flatMap_cons, List.append_assoc, Answer.bytes] at ctx ⊢
      have first : readRecord msg (recordBytes rec rdata ++
          ((placed outmax (pos + 12 + rdata.length) records).flatMap Answer.bytes ++ rest)) =
          some (Answer.record labels ⟨rec, outmax - (pos + 12), rdata⟩,
            (placed outmax (pos + 12 + rdata.length) records).flatMap Answer.bytes ++ rest) := by
        rw [readRecord_bytes ctx (rdataBytes_short found), readRData_put found]
        rfl
      rw [List.length_cons, readMany_cons first, ih _ ctx.last]
      rfl

/-- At the end of the message. -/
theorem readMany_last (pos : Nat) (records : List DnsRecord)
    (ctx : Context msg labels ((placed outmax pos records).flatMap Answer.bytes).length) :
    readMany (readRecord msg) (placed outmax pos records).length
      ((placed outmax pos records).flatMap Answer.bytes) =
        some ((placed outmax pos records).map (Answer.record labels), []) := by
  rw [← List.append_nil (List.flatMap _ _)] at ctx
  have read := readMany_placed pos records ctx
  rwa [List.append_nil] at read

/-- The answers that a loop has left without room for all of them: it has written behind the
buffer, or they cannot be read. -/
theorem answerLoop_cut (small : outmax < 2 ^ 64)
    (matching : ∀ rec ∈ records, answers qtype rec = true) (crowded : ¬ Room outmax o.pos records) :
    outmax < (answerLoop outmax qtype records o n).1.reach ∨
    ∃ cut k, k ≤ records.length ∧
      (answerLoop outmax qtype records o n).1.bytes = o.bytes ++ cut ∧
      (answerLoop outmax qtype records o n).2 = n + UInt16.ofNat k ∧
      ∀ msg labels, Context msg labels cut.length → ∀ recs,
        readMany (readRecord msg) k cut ≠ some (recs, []) := by
  induction records generalizing o n with
  | nil => exact absurd trivial crowded
  | cons rec records ih =>
    obtain ⟨here, matching⟩ := List.forall_mem_cons.mp matching
    rw [Room, not_or] at crowded
    obtain ⟨started, crowded⟩ := crowded
    by_cases stray : outmax < o.pos + 10
    · -- the pointer stands alone
      have two : (o.put [0xC0, 12]).pos = o.pos + 2 := put_pos o _
      have stop : answerLoop outmax qtype (rec :: records) o n = (o.put [0xC0, 12], n) := by
        rw [answerLoop, here]
        simp only [Bool.not_true, Bool.false_eq_true, if_false]
        rw [if_neg started, if_pos (by omega)]
      refine Or.inr ⟨[0xC0, 12], 0, Nat.zero_le _, ?_, ?_, fun msg labels ctx recs => ?_⟩
      · rw [stop]
        rfl
      · rw [stop]
        exact (UInt16.add_zero n).symm
      · simp [readMany]
    have next := answerLoop_next records n here (Nat.le_of_not_lt stray)
    rw [next]
    obtain ⟨k, fewer, count, ⟨more, bytes⟩, reach⟩ := Extends.answerLoop outmax qtype
      records (putAnswer outmax rec (o.put [0xC0, 12])) (n + 1)
    by_cases length : outmax < o.pos + 12
    · -- RDLENGTH is written behind the buffer
      have written := (Extends.putAnswer outmax rec (o.put [0xC0, 12])).2
      have two : (o.put [0xC0, 12]).pos = o.pos + 2 := put_pos o _
      exact Or.inl (by omega)
    have fits := Nat.le_of_not_lt length
    cases found : rdataBytes (outmax - (o.pos + 12)) rec.data with
    | none =>
      obtain ⟨rdata, short, cut, unreadable⟩ := record_cut small fits found
      refine Or.inr ⟨recordBytes rec rdata ++ more, k + 1, Nat.succ_le_succ fewer, ?_, ?_,
        fun msg labels ctx recs => ?_⟩
      · rw [bytes, cut, List.append_assoc]
      · rw [count, count_succ]
      · rw [readMany_none]
        · exact (Option.some_ne_none _).symm
        · rw [readRecord_bytes ctx short, unreadable]
          rfl
    | some rdata =>
      have crowded : ¬ Room outmax (o.pos + 12 + rdata.length) records := by
        intro room
        apply crowded
        rw [found]
        exact ⟨fits, room⟩
      have cut : (putAnswer outmax rec (o.put [0xC0, 12])).bytes =
          o.bytes ++ recordBytes rec rdata := by
        have left : (((o.put [0xC0, 12]).put (fixedPart rec)).put (dnsPut16 0)).pos +
            (outmax - (o.pos + 12)) = outmax := by
          rw [rdata_pos]
          omega
        exact record_bytes (rdataBytes_short found) (by rw [putRData_some small left found]; rfl)
      rw [← record_pos cut] at crowded
      rcases ih (n := n + 1) matching crowded with behind | ⟨rest, k, fewer, bytes, count, unreadable⟩
      · exact Or.inl behind
      · refine Or.inr ⟨recordBytes rec rdata ++ rest, k + 1, Nat.succ_le_succ fewer, ?_, ?_,
          fun msg labels ctx recs => ?_⟩
        · rw [bytes, cut, List.append_assoc]
        · rw [count, count_succ]
        · have first : ∃ item, readRecord msg (recordBytes rec rdata ++ rest) = some (item, rest) := by
            rw [readRecord_bytes ctx (rdataBytes_short found), readRData_put found]
            exact ⟨_, rfl⟩
          obtain ⟨item, first⟩ := first
          rw [readMany_cons first]
          intro read
          obtain ⟨⟨recs', rest'⟩, later, same⟩ := Option.map_eq_some_iff.mp read
          cases same
          exact unreadable msg labels ctx.last recs' later

variable {query qname : Bytes} {cfg : DnsConfig} {nameLength : Nat}

/-- The entry that answers a question whose type and class are at `qoff`. -/
def entryFor (query : Bytes) (cfg : DnsConfig) (qname : Bytes) (qoff : Nat) : Option DnsEntry :=
  if at16 query (qoff + 2) = DNS_CLASS_IN then lookup cfg qname else none

def responseFlags (query : Bytes) (cfg : DnsConfig) (qname : Bytes) (qoff : Nat) : UInt16 :=
  DNS_FLAG_QR ||| DNS_FLAG_AA ||| (at16 query 2 &&& DNS_FLAG_RD) |||
    if at16 query (qoff + 2) ≠ DNS_CLASS_IN then DNS_RCODE_REFUSED
    else if (entryFor query cfg qname qoff).isNone then DNS_RCODE_NXDOMAIN else DNS_RCODE_OK

/-- The records that match the question. -/
def selected (query : Bytes) (cfg : DnsConfig) (qname : Bytes) (qoff : Nat) : List DnsRecord :=
  match entryFor query cfg qname qoff with
  | none => []
  | some entry => entry.records.filter (answers (at16 query qoff))

/-- The header and the question. -/
def questionOut (query : Bytes) (flags : UInt16) (nameLength : Nat) : Out :=
  ((⟨[], 512⟩ : Out).put (dnsPut16 (at16 query 0) ++ dnsPut16 flags ++ dnsPut16 1 ++
    dnsPut16 0 ++ dnsPut16 0 ++ dnsPut16 0)).put
      (slice query DNS_HDR_SIZE (DNS_HDR_SIZE + (nameLength + 4)))

/-- The query gets a response. -/
structure Answered (query : Bytes) (outmax : Nat) (qname : Bytes) (nameLength : Nat) : Prop where
  header : DNS_HDR_SIZE ≤ query.length
  size : 512 ≤ outmax
  question : at16 query 4 ≠ 0
  name : dnsDecodeName query DNS_HDR_SIZE 256 = some (qname, nameLength)
  complete : DNS_HDR_SIZE + nameLength + 4 ≤ query.length
  fits : DNS_HDR_SIZE + nameLength + 4 ≤ outmax

/-- What is sent for a question that fits. -/
def response (query : Bytes) (cfg : DnsConfig) (outmax : Nat) (qname : Bytes) (nameLength : Nat) :
    Out :=
  let qoff := DNS_HDR_SIZE + nameLength
  let r := answerLoop outmax (at16 query qoff) (selected query cfg qname qoff)
    (questionOut query (responseFlags query cfg qname qoff) nameLength) 0
  r.1.patch16 6 r.2

theorem dnsBuildResponse_eq (query : Bytes) (cfg : DnsConfig) (outmax : Nat) :
    dnsBuildResponse query cfg outmax =
      if query.length < DNS_HDR_SIZE ∨ outmax < 512 then ⟨[], 0⟩
      else if at16 query 4 = 0 then ⟨[], 0⟩
      else match dnsDecodeName query DNS_HDR_SIZE 256 with
        | none => ⟨[], 0⟩
        | some (qname, nameLength) =>
          if query.length < DNS_HDR_SIZE + nameLength + 4 then ⟨[], 0⟩
          else if outmax < DNS_HDR_SIZE + (nameLength + 4) then ⟨[], 512⟩
          else response query cfg outmax qname nameLength := by
  have loops (qname : Bytes) (qoff : Nat) (o : Out) :
      (match entryFor query cfg qname qoff with
      | none => (o, 0)
      | some entry => answerLoop outmax (at16 query qoff) entry.records o 0) =
        answerLoop outmax (at16 query qoff) (selected query cfg qname qoff) o 0 := by
    unfold selected
    cases entryFor query cfg qname qoff with
    | none => rfl
    | some entry => exact answerLoop_filter _ _ _ _
  unfold dnsBuildResponse response
  simp only [← loops]
  rfl

theorem dnsBuildResponse_none (cfg : DnsConfig)
    (refused : ∀ qname nameLength, ¬Answered query outmax qname nameLength) :
    (dnsBuildResponse query cfg outmax).bytes = [] ∧
      (dnsBuildResponse query cfg outmax).reach ≤ outmax := by
  rw [dnsBuildResponse_eq]
  split
  · exact ⟨rfl, Nat.zero_le _⟩
  rename_i sizes
  rw [not_or, Nat.not_lt, Nat.not_lt] at sizes
  split
  · exact ⟨rfl, Nat.zero_le _⟩
  rename_i question
  split
  · exact ⟨rfl, Nat.zero_le _⟩
  rename_i qname nameLength name
  split
  · exact ⟨rfl, Nat.zero_le _⟩
  rename_i complete
  split
  · exact ⟨rfl, sizes.2⟩
  rename_i fits
  rw [← Nat.add_assoc] at fits
  exact absurd ⟨sizes.1, sizes.2, question, name, Nat.le_of_not_lt complete,
    Nat.le_of_not_lt fits⟩ (refused qname nameLength)

theorem dnsBuildResponse_some (h : Answered query outmax qname nameLength) :
    dnsBuildResponse query cfg outmax = response query cfg outmax qname nameLength := by
  have sizes : ¬(query.length < DNS_HDR_SIZE ∨ outmax < 512) := by
    rw [not_or, Nat.not_lt, Nat.not_lt]
    exact ⟨h.header, h.size⟩
  have fits := h.fits
  rw [Nat.add_assoc] at fits
  rw [dnsBuildResponse_eq, if_neg sizes, if_neg h.question, h.name]
  dsimp only
  rw [if_neg (Nat.not_lt.mpr h.complete), if_neg (Nat.not_lt.mpr fits)]

theorem response_bytes {more : Bytes} {count : UInt16}
    (written : (answerLoop outmax (at16 query (DNS_HDR_SIZE + nameLength))
      (selected query cfg qname (DNS_HDR_SIZE + nameLength)) (questionOut query
        (responseFlags query cfg qname (DNS_HDR_SIZE + nameLength)) nameLength) 0).1.bytes =
      (questionOut query (responseFlags query cfg qname (DNS_HDR_SIZE + nameLength))
        nameLength).bytes ++ more)
    (counted : (answerLoop outmax (at16 query (DNS_HDR_SIZE + nameLength))
      (selected query cfg qname (DNS_HDR_SIZE + nameLength)) (questionOut query
        (responseFlags query cfg qname (DNS_HDR_SIZE + nameLength)) nameLength) 0).2 = count) :
    (response query cfg outmax qname nameLength).bytes =
      putHeader (at16 query 0).toNat
        (responseFlags query cfg qname (DNS_HDR_SIZE + nameLength)).toNat 1 count.toNat 0 0 ++
        (slice query DNS_HDR_SIZE (DNS_HDR_SIZE + (nameLength + 4)) ++ more) := by
  unfold response
  dsimp only
  rw [Out.patch16, counted]
  dsimp only
  rw [written, questionOut]
  generalize responseFlags query cfg qname (DNS_HDR_SIZE + nameLength) = flags
  have patched := patch_middle (dnsPut16 (at16 query 0) ++ dnsPut16 flags ++ dnsPut16 1)
    (dnsPut16 0 ++ dnsPut16 0 ++ (slice query DNS_HDR_SIZE (DNS_HDR_SIZE + (nameLength + 4)) ++ more))
    0 0 count
  have one : dnsPut16 1 = put16 1 := rfl
  have zero : dnsPut16 0 = put16 0 := rfl
  rw [dnsPut16_eq (at16 query 0), dnsPut16_eq flags, dnsPut16_eq count, one, zero] at patched
  rw [dnsPut16_eq (at16 query 0), dnsPut16_eq flags, one, zero, putHeader]
  simp only [put_bytes, List.append_assoc, List.nil_append] at patched ⊢
  exact patched

/-- The name of the question and what is behind it; none when the name is compressed. -/
def questionName (query : Bytes) : Option (List Bytes × Bytes) :=
  match readLabels (query.length - DNS_HDR_SIZE) (query.drop DNS_HDR_SIZE) with
  | some (labels, none, rest) => some (labels, rest)
  | _ => none

theorem questionName_some (named : questionName query = some (labels, rest)) :
    LabelsValid labels ∧ query.drop DNS_HDR_SIZE = putLabels labels ++ rest ∧
      dnsDecodeName query DNS_HDR_SIZE 256 = some (putAll 256 labels [], (putLabels labels).length) := by
  unfold questionName at named
  split at named
  · rename_i read
    cases named
    obtain ⟨whole, valid⟩ := readLabels_sound read
    refine ⟨valid, whole, ?_⟩
    rw [dnsDecodeName_complete read, whole, List.length_append, Nat.add_sub_cancel]
  · cases named

theorem question_slice {taken : Bytes} (whole : query.drop DNS_HDR_SIZE = taken ++ rest) :
    slice query DNS_HDR_SIZE (DNS_HDR_SIZE + (taken.length + 4)) = taken ++ rest.take 4 := by
  rw [slice_eq_take_drop, Nat.add_sub_cancel_left, whole, List.take_append,
    Nat.add_sub_cancel_left, List.take_of_length_le (Nat.le_add_right _ _)]

/-- The question that a resolver reads in a response. -/
theorem readQuestion_response (named : questionName query = some (labels, rest))
    (complete : DNS_HDR_SIZE + (putLabels labels).length + 4 ≤ query.length) (msg more : Bytes) :
    readQuestion msg (slice query DNS_HDR_SIZE (DNS_HDR_SIZE + ((putLabels labels).length + 4)) ++
      more) = some (⟨labels, (at16 query (DNS_HDR_SIZE + (putLabels labels).length)).toNat,
        (at16 query (DNS_HDR_SIZE + (putLabels labels).length + 2)).toNat⟩, more) := by
  obtain ⟨valid, whole, _⟩ := questionName_some named
  have behind (k : Nat) : query.drop (DNS_HDR_SIZE + (putLabels labels).length + k) = rest.drop k := by
    rw [Nat.add_assoc, ← List.drop_drop, whole, ← List.drop_drop, List.drop_left]
  have length := congrArg List.length (behind 0)
  rw [Nat.add_zero, List.drop_zero, List.length_drop] at length
  have qtype := get16_drop query (DNS_HDR_SIZE + (putLabels labels).length)
    (by omega)
  have qclass := get16_drop query (DNS_HDR_SIZE + (putLabels labels).length + 2)
    (by omega)
  rw [question_slice whole, List.append_assoc, readQuestion, readName_put valid]
  match rest, behind 0, behind 2 with
  | [], _, _ | [_], _, _ | [_, _], _, _ | [_, _, _], _, _ =>
    simp only [List.length_cons, List.length_nil] at length
    omega
  | t :: t' :: c :: c' :: rest, first, second =>
    rw [Nat.add_zero] at first
    rw [first] at qtype
    rw [second] at qclass
    have qtype := congrArg Prod.fst (Option.some.inj qtype)
    have qclass := congrArg Prod.fst (Option.some.inj qclass)
    dsimp only at qtype qclass
    rw [← qtype, ← qclass]
    rfl

/-- A resolver cannot read a response to a question with a compressed name. -/
theorem readMessage_compressed {id flags count : Nat} (ids : id < 65536)
    (bits : flags < 65536) (counts : count < 65536) (compressed : questionName query = none)
    (decoded : dnsDecodeName query DNS_HDR_SIZE 256 = some (qname, nameLength))
    (more : Bytes) :
    readMessage (putHeader id flags 1 count 0 0 ++
      (slice query DNS_HDR_SIZE (DNS_HDR_SIZE + (nameLength + 4)) ++ more)) = none := by
  obtain ⟨labels, pointer, rest, read, length, _⟩ := dnsDecodeName_sound decoded
  cases pointer with
  | none =>
    rw [questionName, read] at compressed
    cases compressed
  | some p =>
    obtain ⟨taken, whole, longer, again⟩ := readLabels_prefix read
    have size : taken.length = nameLength := by
      have sum := congrArg List.length whole
      rw [List.length_drop, List.length_append] at sum
      omega
    have header : (putHeader id flags 1 count 0 0).length = 12 := rfl
    rw [readMessage_put ids bits counts, ← size, question_slice whole, List.append_assoc,
      readQuestion, readName_first (Nat.le_of_eq header) (again _ (rest.take 4 ++ more) ?_)]
    · rfl
    · rw [List.length_append]
      omega

/-- Nothing is written behind the buffer, and what is sent is one message. -/
structure Sound (outmax : Nat) (o : Out) : Prop where
  reach : o.reach ≤ outmax
  length : o.pos ≤ outmax
  message : o.pos = 0 ∨ (readMessage o.bytes).isSome

theorem questionOut_inside (h : Answered query outmax qname nameLength) (flags : UInt16) :
    (questionOut query flags nameLength).pos = DNS_HDR_SIZE + nameLength + 4 ∧
      (questionOut query flags nameLength).reach ≤ outmax := by
  have complete := h.complete
  have fits := h.fits
  have size := h.size
  have length : (slice query DNS_HDR_SIZE (DNS_HDR_SIZE + (nameLength + 4))).length =
      nameLength + 4 := by
    rw [slice_eq_take_drop, List.length_take, List.length_drop]
    omega
  have pos : (questionOut query flags nameLength).pos = DNS_HDR_SIZE + nameLength + 4 := by
    rw [questionOut, put_pos, length, Nat.add_assoc]
    rfl
  refine ⟨pos, ?_⟩
  change max (max 512 12) (12 + _) ≤ outmax
  rw [length]
  change 12 + nameLength + 4 ≤ outmax at fits
  omega

@[simp] theorem patch16_pos (o : Out) (off : Nat) (val : UInt16) :
    (o.patch16 off val).pos = o.pos := by
  simp [Out.patch16, Out.pos]

theorem selected_matching (qoff : Nat) :
    ∀ rec ∈ selected query cfg qname qoff, answers (at16 query qoff) rec = true := by
  unfold selected
  split
  · exact fun _ listed => nomatch listed
  · exact fun _ listed => List.of_mem_filter listed

theorem selected_length (query : Bytes) (cfg : DnsConfig) (qname : Bytes) (qoff : Nat) :
    (selected query cfg qname qoff).length ≤ MAX_DNS_RECORDS := by
  unfold selected
  split
  · exact Nat.zero_le _
  · rename_i entry _
    exact Nat.le_trans (List.length_filter_le _ _) entry.records_le

theorem placed_length (outmax pos : Nat) (records : List DnsRecord) :
    (placed outmax pos records).length ≤ records.length := by
  induction records generalizing pos with
  | nil => exact Nat.le_refl _
  | cons rec records ih =>
    rw [placed]
    split
    · exact Nat.zero_le _
    split
    · exact Nat.zero_le _
    · exact Nat.succ_le_succ (ih _)

theorem count_small {k : Nat} (few : k ≤ MAX_DNS_RECORDS) : (0 + UInt16.ofNat k).toNat = k := by
  rw [UInt16.zero_add]
  exact UInt16.toNat_ofNat_of_lt' (Nat.lt_of_le_of_lt few (by decide))

/-- The message that a response is when its answers have their places. -/
def sent (query : Bytes) (cfg : DnsConfig) (outmax : Nat) (labels : List Bytes) (qname : Bytes)
    (qoff : Nat) : Message where
  id := (at16 query 0).toNat
  flags := (responseFlags query cfg qname qoff).toNat
  questions := [⟨labels, (at16 query qoff).toNat, (at16 query (qoff + 2)).toNat⟩]
  answers := (placed outmax (qoff + 4) (selected query cfg qname qoff)).map (Answer.record labels)
  authority := []
  additional := []

theorem Answered.name_eq (h : Answered query outmax qname nameLength)
    (named : questionName query = some (labels, rest)) :
    qname = putAll 256 labels [] ∧ nameLength = (putLabels labels).length := by
  obtain ⟨_, _, decoded⟩ := questionName_some named
  have same := Option.some.inj (h.name.symm.trans decoded)
  exact ⟨congrArg Prod.fst same, congrArg Prod.snd same⟩

/-- The message begins with the name of the question. -/
theorem response_context (named : questionName query = some (labels, rest))
    (id flags count : Nat) (more : Bytes) :
    Context (putHeader id flags 1 count 0 0 ++ (slice query DNS_HDR_SIZE
      (DNS_HDR_SIZE + ((putLabels labels).length + 4)) ++ more)) labels more.length := by
  obtain ⟨valid, whole, _⟩ := questionName_some named
  have header : (putHeader id flags 1 count 0 0).length = 12 := rfl
  have root := length_lt_putLabels labels
  rw [question_slice whole]
  refine ⟨valid, ⟨rest.take 4 ++ more, ?_⟩, ?_⟩
  · rw [List.drop_left' header, List.append_assoc]
  · simp only [List.length_append, header]
    omega

/-- Enough room for the answers. -/
theorem response_room (small : outmax < 2 ^ 64) (h : Answered query outmax qname nameLength)
    (named : questionName query = some (labels, rest))
    (room : Room outmax (DNS_HDR_SIZE + nameLength + 4)
      (selected query cfg qname (DNS_HDR_SIZE + nameLength))) :
    (response query cfg outmax qname nameLength).pos ≤ outmax ∧
      (response query cfg outmax qname nameLength).reach ≤ outmax ∧
      readMessage (response query cfg outmax qname nameLength).bytes =
        some (sent query cfg outmax labels qname (DNS_HDR_SIZE + nameLength)) := by
  obtain ⟨pos, inside⟩ :=
    questionOut_inside h (responseFlags query cfg qname (DNS_HDR_SIZE + nameLength))
  have fits := h.fits
  rw [← pos] at room fits
  obtain ⟨bytes, count, reach, length⟩ := answerLoop_room (n := 0) small
    (selected_matching (DNS_HDR_SIZE + nameLength)) inside fits room
  rw [pos] at bytes count length
  have written := response_bytes bytes count
  have few := Nat.le_trans (placed_length outmax (DNS_HDR_SIZE + nameLength + 4) _)
    (selected_length query cfg qname (DNS_HDR_SIZE + nameLength))
  refine ⟨?_, reach, ?_⟩
  · rw [response, patch16_pos, Out.pos, bytes, List.length_append, ← Out.pos, pos]
    exact length
  · obtain ⟨_, rfl⟩ := h.name_eq named
    rw [written, count_small few, readMessage_put (UInt16.toNat_lt _) (UInt16.toNat_lt _)
      (Nat.lt_of_le_of_lt few (by decide)), readQuestion_response named h.complete,
      Option.bind_some, readMany_last _ _ (response_context named _ _ _ _), Option.bind_some,
      if_pos rfl]
    rfl

/-- Too little room for the answers. -/
theorem response_crowded (small : outmax < 2 ^ 64) (h : Answered query outmax qname nameLength)
    (named : questionName query = some (labels, rest))
    (crowded : ¬Room outmax (DNS_HDR_SIZE + nameLength + 4)
      (selected query cfg qname (DNS_HDR_SIZE + nameLength))) :
    outmax < (response query cfg outmax qname nameLength).reach ∨
      readMessage (response query cfg outmax qname nameLength).bytes = none := by
  obtain ⟨pos, inside⟩ :=
    questionOut_inside h (responseFlags query cfg qname (DNS_HDR_SIZE + nameLength))
  rw [← pos] at crowded
  rcases answerLoop_cut (n := 0) small (selected_matching (DNS_HDR_SIZE + nameLength)) crowded with
    behind | ⟨cut, k, fewer, bytes, count, unreadable⟩
  · exact Or.inl behind
  · right
    have few := Nat.le_trans fewer (selected_length query cfg qname (DNS_HDR_SIZE + nameLength))
    obtain ⟨_, rfl⟩ := h.name_eq named
    rw [response_bytes bytes count, count_small few, readMessage_put (UInt16.toNat_lt _)
      (UInt16.toNat_lt _) (Nat.lt_of_le_of_lt few (by decide)),
      readQuestion_response named h.complete, Option.bind_some, Option.bind_eq_none_iff]
    intro result read
    apply if_neg
    intro last
    have ctx := response_context named (at16 query 0).toNat
      (responseFlags query cfg qname (DNS_HDR_SIZE + (putLabels labels).length)).toNat k cut
    exact unreadable _ _ ctx result.1 (by rw [read, ← last])

theorem response_nonempty : (response query cfg outmax qname nameLength).pos ≠ 0 := by
  obtain ⟨k, _, count, ⟨more, bytes⟩, _⟩ := Extends.answerLoop outmax
    (at16 query (DNS_HDR_SIZE + nameLength)) (selected query cfg qname (DNS_HDR_SIZE + nameLength))
    (questionOut query (responseFlags query cfg qname (DNS_HDR_SIZE + nameLength)) nameLength) 0
  rw [Out.pos, response_bytes bytes count, List.length_append]
  exact Nat.ne_of_gt (Nat.lt_of_lt_of_le (show 0 < 12 by decide) (Nat.le_add_right 12 _))

/-- A response to a question with a compressed name. -/
theorem response_compressed (h : Answered query outmax qname nameLength)
    (compressed : questionName query = none) :
    readMessage (response query cfg outmax qname nameLength).bytes = none := by
  obtain ⟨k, fewer, count, ⟨more, bytes⟩, _⟩ := Extends.answerLoop outmax
    (at16 query (DNS_HDR_SIZE + nameLength)) (selected query cfg qname (DNS_HDR_SIZE + nameLength))
    (questionOut query (responseFlags query cfg qname (DNS_HDR_SIZE + nameLength)) nameLength) 0
  rw [response_bytes bytes count]
  exact readMessage_compressed (UInt16.toNat_lt _) (UInt16.toNat_lt _) (UInt16.toNat_lt _)
    compressed h.name more

instance decidableRoom (outmax : Nat) :
    ∀ (pos : Nat) (records : List DnsRecord), Decidable (Room outmax pos records)
  | _, [] => isTrue trivial
  | pos, rec :: records =>
    have : Decidable (match rdataBytes (outmax - (pos + 12)) rec.data with
        | none => False
        | some rdata => Room outmax (pos + 12 + rdata.length) records) :=
      match rdataBytes (outmax - (pos + 12)) rec.data with
      | none => isFalse id
      | some rdata => decidableRoom outmax (pos + 12 + rdata.length) records
    inferInstanceAs (Decidable (outmax < pos + 2 ∨ pos + 12 ≤ outmax ∧
      match rdataBytes (outmax - (pos + 12)) rec.data with
      | none => False
      | some rdata => Room outmax (pos + 12 + rdata.length) records))

/-- A response is sound if and only if the name of the question is not compressed and the
answers have their places. -/
theorem dnsBuildResponse_sound_iff (query : Bytes) (cfg : DnsConfig) (outmax : Nat)
    (small : outmax < 2 ^ 64) :
    Sound outmax (dnsBuildResponse query cfg outmax) ↔
      ∀ qname nameLength, Answered query outmax qname nameLength →
        (questionName query).isSome ∧ Room outmax (DNS_HDR_SIZE + nameLength + 4)
          (selected query cfg qname (DNS_HDR_SIZE + nameLength)) := by
  constructor
  · intro sound qname nameLength h
    rw [dnsBuildResponse_some h] at sound
    have readable := sound.message.resolve_left response_nonempty
    cases named : questionName query with
    | none =>
      rw [response_compressed h named] at readable
      cases readable
    | some name =>
      refine ⟨rfl, ?_⟩
      by_contra crowded
      rcases response_crowded small h named crowded with behind | unreadable
      · exact Nat.not_lt.mpr sound.reach behind
      · rw [unreadable] at readable
        cases readable
  · intro fits
    by_cases sends : ∃ qname nameLength, Answered query outmax qname nameLength
    · obtain ⟨qname, nameLength, h⟩ := sends
      obtain ⟨named, room⟩ := fits qname nameLength h
      obtain ⟨name, named⟩ := Option.isSome_iff_exists.mp named
      obtain ⟨length, reach, read⟩ := response_room small h named room
      rw [dnsBuildResponse_some h]
      exact ⟨reach, length, Or.inr (by rw [read]; rfl)⟩
    · obtain ⟨bytes, reach⟩ := dnsBuildResponse_none cfg
        (fun qname nameLength h => sends ⟨qname, nameLength, h⟩)
      have pos : (dnsBuildResponse query cfg outmax).pos = 0 := congrArg List.length bytes
      exact ⟨reach, pos ▸ Nat.zero_le _, Or.inl pos⟩

/-- A query for all records of the name `a`. -/
def anyQuery : Bytes := [0x12, 0x34, 1, 0, 0, 1, 0, 0, 0, 0, 0, 0, 1, 97, 0, 0, 255, 0, 1]

def text (n : Nat) (short : n < 512) : CString 512 where
  bytes := List.replicate n 120
  length_lt := by rwa [List.length_replicate]
  no_nul := by
    rw [List.all_eq_true]
    intro b listed
    rw [List.eq_of_mem_replicate listed]
    rfl

def localhost : DnsRecord := ⟨.a ⟨[127, 0, 0, 1], rfl⟩, 60⟩

def zone (records : List DnsRecord) (few : records.length ≤ MAX_DNS_RECORDS) : DnsConfig :=
  ⟨[⟨⟨[97], by decide, by decide⟩, records, few⟩]⟩

/-- Ten bytes are left for the address. -/
def crowdedRecords : List DnsRecord :=
  List.replicate 7 ⟨.txt (text 511 (by decide)), 60⟩ ++
    [⟨.txt (text 371 (by decide)), 60⟩, localhost]

theorem dnsBuildResponse_sound_sample :
    Sound 4096 (dnsBuildResponse anyQuery (zone [localhost] (by decide)) 4096) := by
  apply (dnsBuildResponse_sound_iff _ _ 4096 (by decide)).mpr
  intro qname nameLength h
  have name : dnsDecodeName anyQuery DNS_HDR_SIZE 256 = some ([97], 3) := by decide
  rw [h.name] at name
  cases name
  exact ⟨by decide, by decide⟩

theorem anyQuery_answered : Answered anyQuery 4096 [97] 3 := by
  constructor <;> decide

theorem dnsBuildResponse_unsound : ¬∀ query cfg outmax, 512 ≤ outmax → outmax < 2 ^ 64 →
    Sound outmax (dnsBuildResponse query cfg outmax) := by
  intro sound
  have sound := sound anyQuery (zone crowdedRecords (by decide)) 4096 (by decide) (by decide)
  have crowded : ¬Room 4096 (DNS_HDR_SIZE + 3 + 4)
      (selected anyQuery (zone crowdedRecords (by decide)) [97] (DNS_HDR_SIZE + 3)) := by
    decide +kernel
  have named : questionName anyQuery = some ([[97]], [0, 255, 0, 1]) := by decide
  rw [dnsBuildResponse_some anyQuery_answered] at sound
  rcases response_crowded (by decide) anyQuery_answered named crowded with behind | unreadable
  · exact Nat.not_lt.mpr sound.reach behind
  · have readable := sound.message.resolve_left response_nonempty
    rw [unreadable] at readable
    cases readable

/-- What the socket handler sends. -/
theorem dnsSocketHandler_sends {data bytes : Bytes}
    (sent : dnsSocketHandler (some cfg) data = some bytes)
    (sound : Sound RESP_SIZE (dnsBuildResponse data cfg RESP_SIZE)) :
    bytes.length ≤ RESP_SIZE ∧ (readMessage bytes).isSome := by
  rw [dnsSocketHandler] at sent
  split at sent
  · cases sent
  dsimp only at sent
  split at sent
  · rename_i positive
    cases sent
    exact ⟨sound.length, sound.message.resolve_left (Nat.ne_of_gt positive)⟩
  · cases sent

end DnsBounds
