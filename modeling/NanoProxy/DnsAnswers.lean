import NanoProxy.DnsBounds
import Mathlib.Data.List.Find
import Mathlib.Data.List.Forall2
import Mathlib.Data.Nat.Bitwise

/-!
# Exact answers

What a response should say, for a configuration as `load_config` leaves it, in terms of the
labels of the question. The responder compares C strings instead, so a label with a NUL or a
dot in it can meet the name of an entry that it is not.
-/

namespace DnsAnswers

open CLib DnsMessage DnsResponder DnsEncoding DnsQuestion DnsBounds

variable {query rest host : Bytes} {cfg : DnsConfig} {labels : List Bytes} {outmax room pos : Nat}
  {data : DnsData} {records : List DnsRecord}

/-- A record as `load_config` leaves it. -/
def Valid : DnsData → Prop
  | .a _ => True
  | .aaaa _ => True
  | .ns host => dnsValidHostname host.bytes
  | .cname host => dnsValidHostname host.bytes
  | .ptr host => dnsValidHostname host.bytes
  | .mx _ host => dnsValidHostname host.bytes
  | .txt text => text.bytes ≠ []
  | .srv _ _ _ target => dnsValidHostname target.bytes
  | .soa => False

structure Loaded (cfg : DnsConfig) : Prop where
  name : ∀ entry ∈ cfg.entries, dnsValidHostname entry.name.bytes
  lower : ∀ entry ∈ cfg.entries, lower entry.name.bytes = entry.name.bytes
  records : ∀ entry ∈ cfg.entries, ∀ rec ∈ entry.records, Valid rec.data

/-- The labels of a host name, which may end in a dot. -/
def Denotes (host : Bytes) (labels : List Bytes) : Prop :=
  host = [DOT].intercalate labels ∨ host = [DOT].intercalate labels ++ [DOT]

/-- The RDATA carries the configured value. -/
def Carries : DnsData → RData → Prop
  | .a address, .a octets => octets = address.bytes
  | .aaaa address, .aaaa octets => octets = address.bytes
  | .ns host, .name labels => Denotes host.bytes labels
  | .cname host, .name labels => Denotes host.bytes labels
  | .ptr host, .name labels => Denotes host.bytes labels
  | .mx priority host, .mx preference exchange =>
    preference = priority.toNat ∧ Denotes host.bytes exchange
  | .txt text, .txt strings =>
    strings.flatten = text.bytes ∧ ∀ s ∈ strings, s ≠ [] ∧ s.length ≤ 255
  | .srv priority weight port target, .srv priority' weight' port' labels =>
    priority' = priority.toNat ∧ weight' = weight.toNat ∧ port' = port.toNat ∧
      Denotes target.bytes labels
  | _, _ => False

/-- The answer with a record to a question for `labels`, whose name is at the place 12. -/
structure Answers (labels : List Bytes) (rec : DnsRecord) (answer : Record) : Prop where
  owner : answer.owner = ⟨labels, some 12⟩
  type : answer.type = rec.data.rtype.toNat
  cls : answer.cls = 1
  ttl : answer.ttl = rec.ttl.toNat
  rdata : Carries rec.data answer.rdata

/-- The entry with the labels of the question in lower case. -/
def entryNamed (cfg : DnsConfig) (labels : List Bytes) : Option DnsEntry :=
  cfg.entries.find? fun entry => entry.name.bytes.splitOn DOT = labels.map lower

/-- The place of QTYPE. -/
def typeOff (labels : List Bytes) : Nat := DNS_HDR_SIZE + (putLabels labels).length

def expectedEntry (query : Bytes) (cfg : DnsConfig) (labels : List Bytes) : Option DnsEntry :=
  if at16 query (typeOff labels + 2) = 1 then entryNamed cfg labels else none

def expectedRecords (query : Bytes) (cfg : DnsConfig) (labels : List Bytes) : List DnsRecord :=
  match expectedEntry query cfg labels with
  | none => []
  | some entry => entry.records.filter (answers (at16 query (typeOff labels)))

def expectedRcode (query : Bytes) (cfg : DnsConfig) (labels : List Bytes) : Nat :=
  if at16 query (typeOff labels + 2) ≠ 1 then 5
  else if (entryNamed cfg labels).isNone then 3 else 0

/-- QR, AA, RD and RCODE. -/
def expectedFlags (query : Bytes) (cfg : DnsConfig) (labels : List Bytes) : Nat :=
  0x8000 + 0x0400 + (if (at16 query 2).toNat.testBit 8 then 0x0100 else 0) +
    expectedRcode query cfg labels

structure ExactMessage (query : Bytes) (cfg : DnsConfig) (labels : List Bytes) (m : Message) :
    Prop where
  id : m.id = (at16 query 0).toNat
  flags : m.flags = expectedFlags query cfg labels
  question : m.questions =
    [⟨labels, (at16 query (typeOff labels)).toNat, (at16 query (typeOff labels + 2)).toNat⟩]
  answers : List.Forall₂ (Answers labels) (expectedRecords query cfg labels) m.answers
  authority : m.authority = []
  additional : m.additional = []

/-- The response is one message, the expected one, with the question as it was. -/
def Exact (query : Bytes) (cfg : DnsConfig) (labels : List Bytes) (o : Out) : Prop :=
  slice o.bytes DNS_HDR_SIZE (typeOff labels + 4) = slice query DNS_HDR_SIZE (typeOff labels + 4) ∧
    ∃ m, readMessage o.bytes = some m ∧ ExactMessage query cfg labels m

def rdataSize : DnsData → Nat
  | .a _ => 4
  | .aaaa _ => 16
  | .ns host => (putLabels (nameLabels host.bytes)).length
  | .cname host => (putLabels (nameLabels host.bytes)).length
  | .ptr host => (putLabels (nameLabels host.bytes)).length
  | .mx _ host => 2 + (putLabels (nameLabels host.bytes)).length
  | .txt text => (putStrings (textChunks text.bytes)).length
  | .srv _ _ _ target => 6 + (putLabels (nameLabels target.bytes)).length
  | .soa => 0

/-- The size of the complete response. -/
def completeSize (query : Bytes) (cfg : DnsConfig) (labels : List Bytes) : Nat :=
  typeOff labels + 4 +
    ((expectedRecords query cfg labels).map fun rec => 12 + rdataSize rec.data).sum

theorem intercalate_append_nil {labels : List Bytes} (some_label : labels ≠ []) :
    [DOT].intercalate (labels ++ [[]]) = [DOT].intercalate labels ++ [DOT] := by
  induction labels with
  | nil => exact absurd rfl some_label
  | cons label labels ih =>
    cases labels with
    | nil => simp [List.intercalate]
    | cons next labels =>
      rw [List.cons_append, List.intercalate_cons_of_ne_nil (by simp),
        List.intercalate_cons_of_ne_nil (by simp), ih (List.cons_ne_nil _ _)]
      simp

theorem nameLabels_denote (nonempty : host ≠ []) : Denotes host (nameLabels host) := by
  have whole : [DOT].intercalate (host.splitOn DOT) = host := List.intercalate_splitOn DOT
  unfold Denotes nameLabels
  dsimp only
  split
  · rename_i root
    right
    have labels := List.dropLast_append_getLast? [] root
    rw [← intercalate_append_nil]
    · rw [labels, whole]
    · intro empty
      rw [empty] at labels
      rw [← labels] at whole
      exact nonempty whole.symm
  · exact Or.inl whole.symm

/-- A name that passes the check can be encoded. -/
theorem validHostname_labels (valid : dnsValidHostname host) :
    LabelsValid (nameLabels host) ∧ Denotes host (nameLabels host) := by
  simp only [dnsValidHostname, Bool.and_eq_true, decide_eq_true_eq, List.all_eq_true] at valid
  obtain ⟨⟨nonempty, _⟩, labels⟩ := valid
  refine ⟨fun label listed => ?_, nameLabels_denote nonempty⟩
  have passes := labels label listed
  simp only [validLabel, Bool.and_eq_true, decide_eq_true_eq] at passes
  obtain ⟨⟨⟨⟨some_byte, short⟩, _⟩, _⟩, _⟩ := passes
  exact ⟨fun empty => some_byte (empty ▸ rfl), short⟩

theorem txtChunks_flatten (fuel : Nat) (text : Bytes) (enough : text.length ≤ fuel) :
    (txtChunks fuel text).flatten = text := by
  induction fuel generalizing text with
  | zero => exact (List.eq_nil_of_length_eq_zero (Nat.le_zero.mp enough)).symm
  | succ fuel ih =>
    rw [txtChunks]
    split
    · rename_i empty
      exact empty.symm
    · rename_i nonempty
      have positive := List.length_pos_iff.mpr nonempty
      rw [List.flatten_cons, ih _ (by rw [List.length_drop]; omega), List.take_append_drop]

theorem txtChunks_nonempty (fuel : Nat) (text : Bytes) : ∀ s ∈ txtChunks fuel text, s ≠ [] := by
  induction fuel generalizing text with
  | zero => exact List.forall_mem_nil _
  | succ fuel ih =>
    rw [txtChunks]
    split
    · exact List.forall_mem_nil _
    · rename_i nonempty
      refine List.forall_mem_cons.mpr ⟨fun empty => ?_, ih _⟩
      rcases List.take_eq_nil_iff.mp empty with zero | empty
      · exact absurd zero (by decide)
      · exact nonempty empty

theorem fitting_all {chunks : List Bytes} (enough : (putStrings chunks).length ≤ room) :
    fitting room chunks = chunks := by
  induction chunks generalizing room with
  | nil => rfl
  | cons chunk chunks ih =>
    rw [putStrings_cons, List.length_cons, List.length_append] at enough
    rw [fitting, if_pos (by omega), ih (by omega)]

theorem nameBytes_valid (valid : dnsValidHostname host)
    (enough : (putLabels (nameLabels host)).length ≤ room) :
    nameBytes room host = some (putLabels (nameLabels host)) :=
  if_pos ⟨(validHostname_labels valid).1, enough⟩

/-- A record that has its room gets its place and carries its value. -/
theorem rdataBytes_valid (valid : Valid data) (enough : rdataSize data ≤ room) :
    ∃ rdata, rdataBytes room data = some rdata ∧ rdata.length = rdataSize data ∧
      Carries data (rdataOf room data) := by
  cases data with
  | a address => exact ⟨address.bytes, if_pos enough, address.length_eq, rfl⟩
  | aaaa address => exact ⟨address.bytes, if_pos enough, address.length_eq, rfl⟩
  | ns host => exact ⟨_, nameBytes_valid valid enough, rfl, (validHostname_labels valid).2⟩
  | cname host => exact ⟨_, nameBytes_valid valid enough, rfl, (validHostname_labels valid).2⟩
  | ptr host => exact ⟨_, nameBytes_valid valid enough, rfl, (validHostname_labels valid).2⟩
  | soa => exact valid.elim
  | mx priority host =>
    rw [rdataSize] at enough
    refine ⟨put16 priority.toNat ++ putLabels (nameLabels host.bytes), ?_, ?_, rfl,
      (validHostname_labels valid).2⟩
    · rw [rdataBytes, nameBytes_valid valid (by omega)]
      rfl
    · rw [List.length_append, put16_length]
      rfl
  | txt text =>
    have all : fitting room (textChunks text.bytes) = textChunks text.bytes := fitting_all enough
    have flat : (textChunks text.bytes).flatten = text.bytes :=
      txtChunks_flatten _ _ (Nat.le_refl _)
    have some_chunk : textChunks text.bytes ≠ [] := by
      intro empty
      rw [empty] at flat
      exact valid flat.symm
    refine ⟨putStrings (textChunks text.bytes), ?_, rfl, ?_⟩
    · rw [rdataBytes, all, if_neg some_chunk]
    · rw [rdataOf, all]
      exact ⟨flat, fun s listed =>
        ⟨txtChunks_nonempty _ _ s listed, txtChunks_le _ _ s listed⟩⟩
  | srv priority weight port target =>
    rw [rdataSize] at enough
    refine ⟨put16 priority.toNat ++ put16 weight.toNat ++ put16 port.toNat ++
      putLabels (nameLabels target.bytes), ?_, ?_, rfl, rfl, rfl, (validHostname_labels valid).2⟩
    · rw [rdataBytes, nameBytes_valid valid (by omega)]
      rfl
    · simp only [List.length_append, put16_length]
      rfl

/-- When the complete response fits, every answer has its place. -/
theorem placed_valid (labels : List Bytes) (valid : ∀ rec ∈ records, Valid rec.data)
    (fits : pos + (records.map fun rec => 12 + rdataSize rec.data).sum ≤ outmax) :
    Room outmax pos records ∧
      List.Forall₂ (Answers labels) records ((placed outmax pos records).map (Answer.record labels)) := by
  induction records generalizing pos with
  | nil => exact ⟨trivial, .nil⟩
  | cons rec records ih =>
    obtain ⟨here, valid⟩ := List.forall_mem_cons.mp valid
    rw [List.map_cons, List.sum_cons] at fits
    obtain ⟨rdata, written, length, carries⟩ :=
      rdataBytes_valid here (show rdataSize rec.data ≤ outmax - (pos + 12) by omega)
    have behind : pos + 12 + rdata.length + (records.map fun rec => 12 + rdataSize rec.data).sum ≤
        outmax := by omega
    obtain ⟨room, answers⟩ := ih valid behind
    constructor
    · rw [Room, written]
      exact Or.inr ⟨by omega, room⟩
    · rw [placed, if_neg (by omega), written]
      exact .cons ⟨rfl, rfl, rfl, rfl, carries⟩ answers

theorem putLabel_behind {outlen : Nat} {out : Bytes} (started : out ≠ [])
    (inside : out.length ≤ outlen - 1) (label : Bytes) :
    putLabel outlen label out = (out ++ DOT :: lower label).take (outlen - 1) := by
  have positive := List.length_pos_iff.mpr started
  unfold putLabel lower
  dsimp only
  by_cases room : out.length < outlen - 1
  · rw [if_pos ⟨positive, room⟩, List.take_append, List.take_of_length_le inside,
      List.length_append, List.append_assoc, List.length_singleton]
    have left : outlen - 1 - out.length = outlen - 1 - (out.length + 1) + 1 := by omega
    rw [left, List.take_succ_cons, List.map_take]
    rfl
  · have full : out.length = outlen - 1 := by omega
    rw [if_neg (fun h => room h.2), full, Nat.sub_self, List.take_zero, List.map_nil,
      List.append_nil, List.take_append_of_le_length (Nat.le_of_eq full.symm),
      List.take_of_length_le inside]

theorem take_take_append (n : Nat) (first last : Bytes) :
    (first.take n ++ last).take n = (first ++ last).take n := by
  rcases Nat.le_total n first.length with short | long
  · rw [List.take_append_of_le_length (by rw [List.length_take]; omega), List.take_take,
      Nat.min_self, List.take_append_of_le_length short]
  · rw [List.take_of_length_le long]

/-- The buffer holds the beginning of the dotted name. -/
theorem putAll_behind {outlen : Nat} (labels : List Bytes) {out : Bytes} (started : out ≠ [])
    (inside : out.length ≤ outlen - 1) :
    putAll outlen labels out =
      (out ++ labels.flatMap fun label => DOT :: lower label).take (outlen - 1) := by
  induction labels generalizing out with
  | nil =>
    rw [List.flatMap_nil, List.append_nil, List.take_of_length_le inside]
    rfl
  | cons label labels ih =>
    have next := putLabel_behind started inside label
    have positive := List.length_pos_iff.mpr started
    have started' : putLabel outlen label out ≠ [] := by
      rw [next]
      intro empty
      rcases List.take_eq_nil_iff.mp empty with zero | empty
      · omega
      · exact started (List.append_eq_nil_iff.mp empty).1
    change putAll outlen labels (putLabel outlen label out) = _
    rw [ih started' (by rw [next]; exact List.length_take_le _ _), next, take_take_append,
      List.flatMap_cons, List.append_assoc]

theorem intercalate_flatMap (label : Bytes) (labels : List Bytes) :
    [DOT].intercalate (label :: labels) = label ++ labels.flatMap (DOT :: ·) :=
  intercalate_cons [DOT] label labels

/-- The first `outlen - 1` bytes of the dotted name in lower case. -/
theorem putAll_eq {outlen : Nat} (large : 1 < outlen) (valid : LabelsValid labels) :
    putAll outlen labels [] = ([DOT].intercalate (labels.map lower)).take (outlen - 1) := by
  cases labels with
  | nil => exact (List.take_nil).symm
  | cons label labels =>
    obtain ⟨⟨nonempty, _⟩, _⟩ := List.forall_mem_cons.mp valid
    have first : putLabel outlen label [] = (lower label).take (outlen - 1) := by
      unfold putLabel lower
      rw [if_neg (fun h => absurd h.1 (Nat.lt_irrefl 0)), ← List.map_take]
      rfl
    have started : (lower label).take (outlen - 1) ≠ [] := by
      intro empty
      rcases List.take_eq_nil_iff.mp empty with zero | empty
      · omega
      · exact nonempty (List.map_eq_nil_iff.mp empty)
    change putAll outlen labels (putLabel outlen label []) = _
    rw [first, putAll_behind labels started (List.length_take_le _ _), take_take_append,
      List.map_cons, intercalate_flatMap, List.flatMap_map]

/-- Labels without the bytes that have a meaning in a dotted C string. -/
def Plain (labels : List Bytes) : Prop := ∀ label ∈ labels, 0 ∉ label ∧ DOT ∉ label

theorem lower_mem {b : UInt8} {label : Bytes} (other : b = 0 ∨ b = DOT) :
    b ∈ lower label ↔ b ∈ label := by
  have same : ∀ c : UInt8, tolower c = b ↔ c = b := by
    intro c
    rcases other with rfl | rfl
    · have all := forall_byte (p := fun c => decide (tolower c = 0) == decide (c = 0))
        (by decide +kernel) c
      rwa [beq_iff_eq, decide_eq_decide] at all
    · have all := forall_byte (p := fun c => decide (tolower c = DOT) == decide (c = DOT))
        (by decide +kernel) c
      rwa [beq_iff_eq, decide_eq_decide] at all
  rw [lower, List.mem_map]
  constructor
  · rintro ⟨c, listed, lowered⟩
    rwa [← (same c).mp lowered]
  · exact fun listed => ⟨b, listed, (same b).mpr rfl⟩

theorem mem_intercalate {b : UInt8} (listed : b ∈ [DOT].intercalate labels) :
    b = DOT ∨ ∃ label ∈ labels, b ∈ label := by
  cases labels with
  | nil => cases listed
  | cons label labels =>
    rw [intercalate_flatMap, List.mem_append, List.mem_flatMap] at listed
    rcases listed with here | ⟨next, later, here⟩
    · exact Or.inr ⟨label, List.mem_cons_self, here⟩
    · rcases List.mem_cons.mp here with dot | here
      · exact Or.inl dot
      · exact Or.inr ⟨next, List.mem_cons_of_mem _ later, here⟩

/-- The name of an entry against a plain name in the buffer. -/
theorem name_eq_iff {name : Bytes} (nonempty : name ≠ []) (short : name.length < 255)
    (valid : LabelsValid labels) (plain : Plain labels) :
    name = (putAll 256 labels []).takeWhile (· ≠ 0) ↔ name.splitOn DOT = labels.map lower := by
  have no_nul : ∀ b ∈ putAll 256 labels [], decide (b ≠ 0) = true := by
    intro b listed
    rw [putAll_eq (by decide) valid] at listed
    rw [decide_eq_true_iff]
    rintro rfl
    rcases mem_intercalate (List.mem_of_mem_take listed) with dot | ⟨_, lowered, here⟩
    · exact absurd dot (by decide)
    · obtain ⟨label, listed, rfl⟩ := List.mem_map.mp lowered
      exact (plain label listed).1 ((lower_mem (Or.inl rfl)).mp here)
  rw [List.takeWhile_eq_self_iff.mpr no_nul, putAll_eq (by decide) valid]
  constructor
  · intro same
    have whole : name = [DOT].intercalate (labels.map lower) := by
      rw [same, List.length_take] at short
      rwa [List.take_of_length_le (by omega)] at same
    rw [whole]
    apply List.splitOn_intercalate
    · intro label lowered
      obtain ⟨label, listed, rfl⟩ := List.mem_map.mp lowered
      exact fun dot => (plain label listed).2 ((lower_mem (Or.inr rfl)).mp dot)
    · intro none
      rw [none] at whole
      exact nonempty whole
  · intro split
    rw [← split, List.intercalate_splitOn, List.take_of_length_le (Nat.le_of_lt short)]

/-- The pieces between the dots. -/
theorem mem_splitOn {name piece : Bytes} (listed : piece ∈ name.splitOn DOT) :
    DOT ∉ piece ∧ ∀ b ∈ piece, b ∈ name := by
  induction name generalizing piece with
  | nil =>
    rw [List.splitOn_nil, List.mem_singleton] at listed
    subst listed
    exact ⟨List.not_mem_nil, fun _ here => nomatch here⟩
  | cons c name ih =>
    rw [List.splitOn_cons_eq_if_modifyHead] at listed
    split at listed
    · rcases List.mem_cons.mp listed with rfl | listed
      · exact ⟨List.not_mem_nil, fun _ here => nomatch here⟩
      · exact ⟨(ih listed).1, fun b here => List.mem_cons_of_mem c ((ih listed).2 b here)⟩
    · rename_i other
      rw [beq_iff_eq] at other
      have some_piece := List.splitOn_ne_nil DOT name
      cases pieces : name.splitOn DOT with
      | nil => exact absurd pieces some_piece
      | cons first others =>
        rw [pieces] at ih listed
        rw [List.modifyHead_cons] at listed
        rcases List.mem_cons.mp listed with rfl | listed
        · obtain ⟨no_dot, inside⟩ := ih List.mem_cons_self
          constructor
          · intro dot
            rcases List.mem_cons.mp dot with same | dot
            · exact other same.symm
            · exact no_dot dot
          · intro b here
            rcases List.mem_cons.mp here with rfl | here
            · exact List.mem_cons_self
            · exact List.mem_cons_of_mem c (inside b here)
        · obtain ⟨no_dot, inside⟩ := ih (List.mem_cons_of_mem first listed)
          exact ⟨no_dot, fun b here => List.mem_cons_of_mem c (inside b here)⟩

/-- Only a plain name is the name of an entry. -/
theorem entryNamed_plain {entry : DnsEntry} (named : entryNamed cfg labels = some entry) :
    Plain labels := by
  have same := List.find?_some named
  rw [decide_eq_true_iff] at same
  intro label listed
  have piece : lower label ∈ entry.name.bytes.splitOn DOT := by
    rw [same]
    exact List.mem_map_of_mem listed
  obtain ⟨no_dot, inside⟩ := mem_splitOn piece
  constructor
  · intro nul
    have nul := inside 0 ((lower_mem (Or.inl rfl)).mpr nul)
    have clean := List.all_eq_true.mp entry.name.no_nul 0 nul
    exact absurd clean (by decide)
  · exact fun dot => no_dot ((lower_mem (Or.inr rfl)).mpr dot)

/-- For plain names the responder finds the right entry. -/
theorem lookup_plain (loaded : Loaded cfg) (valid : LabelsValid labels) (plain : Plain labels) :
    lookup cfg (putAll 256 labels []) = entryNamed cfg labels := by
  unfold lookup entryNamed
  apply List.find?_congr
  intro entry listed
  have passes := loaded.name entry listed
  simp only [dnsValidHostname, Bool.and_eq_true, decide_eq_true_eq] at passes
  rw [decide_eq_decide]
  exact name_eq_iff passes.1.1 (Nat.lt_of_le_of_lt passes.1.2 (by decide)) valid plain

variable {qname : Bytes} {nameLength : Nat}

theorem flags_toNat (flags rcode : UInt16) (known : rcode = 0 ∨ rcode = 3 ∨ rcode = 5) :
    (DNS_FLAG_QR ||| DNS_FLAG_AA ||| (flags &&& DNS_FLAG_RD) ||| rcode).toNat =
      0x8000 + 0x0400 + (if flags.toNat.testBit 8 then 0x0100 else 0) + rcode.toNat := by
  have rd : flags &&& DNS_FLAG_RD = if flags.toNat.testBit 8 then 0x0100 else 0 := by
    apply UInt16.toNat_inj.mp
    rw [UInt16.toNat_and]
    change flags.toNat &&& 2 ^ 8 = _
    rw [Nat.and_two_pow]
    cases flags.toNat.testBit 8 <;> rfl
  rw [rd]
  cases flags.toNat.testBit 8 with
  | false => rcases known with rfl | rfl | rfl <;> rfl
  | true => rcases known with rfl | rfl | rfl <;> rfl

theorem responseFlags_toNat (qoff : Nat) :
    (responseFlags query cfg qname qoff).toNat =
      0x8000 + 0x0400 + (if (at16 query 2).toNat.testBit 8 then 0x0100 else 0) +
        if at16 query (qoff + 2) ≠ 1 then 5
        else if (lookup cfg qname).isNone then 3 else 0 := by
  unfold responseFlags entryFor
  by_cases other : at16 query (qoff + 2) = DNS_CLASS_IN
  · have same : at16 query (qoff + 2) = 1 := other
    rw [if_neg (not_not.mpr other), if_pos other, if_neg (not_not.mpr same)]
    cases (lookup cfg qname).isNone with
    | false => exact flags_toNat _ _ (Or.inl rfl)
    | true => exact flags_toNat _ _ (Or.inr (Or.inl rfl))
  · have different : at16 query (qoff + 2) ≠ 1 := other
    rw [if_pos other, if_pos different]
    exact flags_toNat _ _ (Or.inr (Or.inr rfl))

/-- A message says what its header says. -/
theorem readMessage_flags {id flags count : Nat} {body : Bytes} {m : Message} (ids : id < 65536)
    (bits : flags < 65536) (counts : count < 65536)
    (read : readMessage (putHeader id flags 1 count 0 0 ++ body) = some m) : m.flags = flags := by
  rw [readMessage_put ids bits counts] at read
  obtain ⟨question, _, read⟩ := Option.bind_eq_some_iff.mp read
  obtain ⟨answers, _, read⟩ := Option.bind_eq_some_iff.mp read
  split at read
  · cases read
    rfl
  · cases read

theorem response_starts (query : Bytes) (cfg : DnsConfig) (outmax : Nat) (qname : Bytes)
    (nameLength : Nat) : ∃ count : UInt16, ∃ more,
    (response query cfg outmax qname nameLength).bytes =
      putHeader (at16 query 0).toNat
        (responseFlags query cfg qname (DNS_HDR_SIZE + nameLength)).toNat 1 count.toNat 0 0 ++
        (slice query DNS_HDR_SIZE (DNS_HDR_SIZE + (nameLength + 4)) ++ more) := by
  obtain ⟨k, _, count, ⟨more, bytes⟩, _⟩ := Extends.answerLoop outmax
    (at16 query (DNS_HDR_SIZE + nameLength)) (selected query cfg qname (DNS_HDR_SIZE + nameLength))
    (questionOut query (responseFlags query cfg qname (DNS_HDR_SIZE + nameLength)) nameLength) 0
  exact ⟨_, more, response_bytes bytes count⟩

theorem response_question (h : Answered query outmax qname nameLength) :
    slice (response query cfg outmax qname nameLength).bytes DNS_HDR_SIZE
        (DNS_HDR_SIZE + nameLength + 4) =
      slice query DNS_HDR_SIZE (DNS_HDR_SIZE + nameLength + 4) := by
  obtain ⟨count, more, bytes⟩ := response_starts query cfg outmax qname nameLength
  have header : (putHeader (at16 query 0).toNat (responseFlags query cfg qname
    (DNS_HDR_SIZE + nameLength)).toNat 1 count.toNat 0 0).length = DNS_HDR_SIZE := rfl
  have length : (slice query DNS_HDR_SIZE (DNS_HDR_SIZE + nameLength + 4)).length =
      DNS_HDR_SIZE + nameLength + 4 - DNS_HDR_SIZE := by
    have complete := h.complete
    rw [slice_eq_take_drop, List.length_take, List.length_drop]
    omega
  rw [bytes, slice_eq_take_drop (putHeader _ _ _ _ _ _ ++ _), List.drop_left' header,
    ← Nat.add_assoc, List.take_left' length]

theorem expectedRecords_valid (loaded : Loaded cfg) :
    ∀ rec ∈ expectedRecords query cfg labels, Valid rec.data := by
  unfold expectedRecords expectedEntry
  split
  · exact fun _ listed => nomatch listed
  · rename_i entry found
    intro rec listed
    split at found
    · exact loaded.records entry (List.mem_of_find?_eq_some found) rec (List.mem_of_mem_filter listed)
    · cases found

/-- Where the C strings agree with the labels, the response is the expected one. -/
theorem response_exact (loaded : Loaded cfg) (small : outmax < 2 ^ 64)
    (named : questionName query = some (labels, rest))
    (h : Answered query outmax (putAll 256 labels []) (putLabels labels).length)
    (fits : completeSize query cfg labels ≤ outmax)
    (found : at16 query (typeOff labels + 2) = 1 →
      lookup cfg (putAll 256 labels []) = entryNamed cfg labels) :
    Exact query cfg labels
      (response query cfg outmax (putAll 256 labels []) (putLabels labels).length) := by
  have entries : entryFor query cfg (putAll 256 labels []) (typeOff labels) =
      expectedEntry query cfg labels := by
    unfold entryFor expectedEntry
    by_cases same : at16 query (typeOff labels + 2) = 1
    · rw [if_pos same, ← found same]
      exact if_pos same
    · exact (if_neg same).trans (if_neg same).symm
  have records : selected query cfg (putAll 256 labels []) (typeOff labels) =
      expectedRecords query cfg labels := by
    unfold selected expectedRecords
    generalize entryFor query cfg (putAll 256 labels []) (typeOff labels) = entry at entries
    subst entries
    rfl
  obtain ⟨room, answers⟩ := placed_valid labels (expectedRecords_valid loaded) fits
  rw [← records] at room
  obtain ⟨_, _, read⟩ := response_room small h named room
  refine ⟨response_question h, _, read, ?_⟩
  refine ⟨rfl, ?_, rfl, ?_, rfl, rfl⟩
  · change (responseFlags query cfg _ (typeOff labels)).toNat = _
    rw [responseFlags_toNat, expectedFlags, expectedRcode]
    by_cases same : at16 query (typeOff labels + 2) = 1
    · rw [found same]
    · rw [if_pos same, if_pos same]
  · rw [sent]
    change List.Forall₂ _ _
      ((placed outmax (typeOff labels + 4) (selected query cfg _ (typeOff labels))).map _)
    rw [records]
    exact answers

/-- A response that finds an entry for a name that has none is not the expected one. -/
theorem response_stray {entry : DnsEntry} {o : Out} (cls : at16 query (typeOff labels + 2) = 1)
    (strange : ¬Plain labels) (found : lookup cfg (putAll 256 labels []) = some entry)
    (sent : o = response query cfg outmax (putAll 256 labels []) (putLabels labels).length) :
    ¬Exact query cfg labels o := by
  rintro ⟨_, m, read, exact⟩
  obtain ⟨count, more, bytes⟩ := response_starts query cfg outmax (putAll 256 labels [])
    (putLabels labels).length
  rw [sent, bytes] at read
  have flags := readMessage_flags (UInt16.toNat_lt _) (UInt16.toNat_lt _) (UInt16.toNat_lt _) read
  change m.flags = (responseFlags query cfg _ (typeOff labels)).toNat at flags
  have none : entryNamed cfg labels = none := by
    rw [Option.eq_none_iff_forall_ne_some]
    exact fun entry named => strange (entryNamed_plain named)
  rw [exact.flags, responseFlags_toNat, expectedFlags, expectedRcode, found, none,
    if_neg (not_not.mpr cls), if_neg (not_not.mpr cls)] at flags
  have codes : 3 = 0 := Nat.add_left_cancel flags
  exact absurd codes (by decide)

/-- The response to a question is exact if and only if the buffer has 512 bytes and the
name of the question, where it is compared as a C string, holds neither NUL nor dot in a
label or meets no entry. -/
theorem dnsBuildResponse_exact_iff (query : Bytes) (cfg : DnsConfig) (outmax : Nat)
    (labels : List Bytes) (rest : Bytes) (loaded : Loaded cfg)
    (header : DNS_HDR_SIZE ≤ query.length) (counted : at16 query 4 ≠ 0)
    (named : questionName query = some (labels, rest)) (complete : 4 ≤ rest.length)
    (fits : completeSize query cfg labels ≤ outmax) (small : outmax < 2 ^ 64) :
    Exact query cfg labels (dnsBuildResponse query cfg outmax) ↔
      512 ≤ outmax ∧ (at16 query (typeOff labels + 2) ≠ 1 ∨ Plain labels ∨
        lookup cfg (putAll 256 labels []) = none) := by
  obtain ⟨valid, whole, decoded⟩ := questionName_some named
  have length := congrArg List.length whole
  rw [List.length_drop, List.length_append] at length
  have question : DNS_HDR_SIZE + (putLabels labels).length + 4 ≤ outmax :=
    Nat.le_trans (Nat.le_add_right _ _) fits
  have answered (size : 512 ≤ outmax) :
      Answered query outmax (putAll 256 labels []) (putLabels labels).length :=
    ⟨header, size, counted, decoded, by omega, question⟩
  constructor
  · intro exact
    have size : 512 ≤ outmax := by
      by_contra less
      obtain ⟨_, m, read, _⟩ := exact
      rw [(dnsBuildResponse_none cfg fun _ _ h => less h.size).1] at read
      cases read
    refine ⟨size, ?_⟩
    by_contra stray
    rw [not_or, not_or, not_not] at stray
    obtain ⟨cls, strange, found⟩ := stray
    obtain ⟨entry, found⟩ := Option.ne_none_iff_exists'.mp found
    exact response_stray cls strange found (dnsBuildResponse_some (answered size)) exact
  · rintro ⟨size, agree⟩
    rw [dnsBuildResponse_some (answered size)]
    apply response_exact loaded small named (answered size) fits
    intro cls
    rcases agree.resolve_left (not_not.mpr cls) with plain | missing
    · exact lookup_plain loaded valid plain
    · rw [missing, eq_comm, Option.eq_none_iff_forall_ne_some]
      intro entry named
      rw [lookup_plain loaded valid (entryNamed_plain named), named] at missing
      cases missing

theorem zone_loaded (few : [localhost].length ≤ MAX_DNS_RECORDS) :
    Loaded (zone [localhost] few) := by
  constructor
  · intro entry listed
    rw [List.mem_singleton.mp listed]
    change dnsValidHostname [97] = true
    decide
  · intro entry listed
    rw [List.mem_singleton.mp listed]
    change lower [97] = [97]
    decide
  · intro entry listed rec inside
    rw [List.mem_singleton.mp listed] at inside
    rw [List.mem_singleton.mp inside]
    trivial

theorem dnsBuildResponse_exact_sample :
    Exact anyQuery (zone [localhost] (by decide)) [[97]]
      (dnsBuildResponse anyQuery (zone [localhost] (by decide)) 4096) := by
  apply (dnsBuildResponse_exact_iff anyQuery _ 4096 [[97]] [0, 255, 0, 1] (zone_loaded _)
    (by decide) (by decide) (by decide) (by decide) (by decide) (by decide)).mpr
  refine ⟨by decide, Or.inr (Or.inl ?_)⟩
  intro label listed
  rw [List.mem_singleton.mp listed]
  decide

/-- A query for a name of one label, `a`, NUL and `x`. -/
def nulQuery : Bytes :=
  [0x12, 0x34, 1, 0, 0, 1, 0, 0, 0, 0, 0, 0, 3, 97, 0, 120, 0, 0, 255, 0, 1]

/-- It is answered with the address of `a`. -/
theorem dnsBuildResponse_inexact : ¬∀ query cfg outmax labels rest, Loaded cfg →
    DNS_HDR_SIZE ≤ query.length → at16 query 4 ≠ 0 →
    questionName query = some (labels, rest) → 4 ≤ rest.length →
    completeSize query cfg labels ≤ outmax → outmax < 2 ^ 64 →
    Exact query cfg labels (dnsBuildResponse query cfg outmax) := by
  intro exact
  have stray := exact nulQuery (zone [localhost] (by decide)) 4096 [[97, 0, 120]] [0, 255, 0, 1]
    (zone_loaded _) (by decide) (by decide) (by decide) (by decide) (by decide) (by decide)
  have answered : Answered nulQuery 4096 (putAll 256 [[97, 0, 120]] [])
      (putLabels [[97, 0, 120]]).length := by
    constructor <;> decide
  have strange : ¬Plain [[97, 0, 120]] := by
    intro plain
    exact absurd (plain [97, 0, 120] List.mem_cons_self).1 (by decide)
  have found : (lookup (zone [localhost] (by decide)) (putAll 256 [[97, 0, 120]] [])).isSome := by
    decide
  obtain ⟨entry, found⟩ := Option.isSome_iff_exists.mp found
  exact response_stray (by decide) strange found (dnsBuildResponse_some answered) stray

end DnsAnswers
