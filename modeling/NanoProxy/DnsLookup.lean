import NanoProxy.DnsNames
import NanoProxy.SrvRecords

/-!
# Which entry a question selects

The labels of a question are read wherever its pointers lead. The responder flattens them
into a C string of at most 255 bytes and compares that with the names of the entries.
-/

namespace DnsLookup

open CLib Dict DnsMessage DnsResponder DnsEncoding DnsQuestion DnsBounds DnsAnswers DnsLoader DnsNames
  SrvRecords

variable {buf out name query query' qname : Bytes} {labels labels' : List Bytes} {cfg : DnsConfig}
  {outlen fuel pos jumps firstEnd e outmax nameLength i : Nat}

/-- A name ends in its root, or behind the packet. -/
inductive Ending where
  | root
  | ranOff
  deriving DecidableEq

variable {ending ending' : Ending}

/-- The labels of the name at a place of a packet. -/
inductive Spells (buf : Bytes) : Nat → List Bytes → Ending → Prop
  | root {pos : Nat} (zero : buf[pos]? = some 0) : Spells buf pos [] .root
  | ranOff {pos : Nat} (outside : buf.length ≤ pos) : Spells buf pos [] .ranOff
  | pointer {pos : Nat} {hi lo : UInt8} {labels : List Bytes} {ending : Ending}
      (first : buf[pos]? = some hi) (far : 192 ≤ hi) (second : buf[pos + 1]? = some lo)
      (later : Spells buf ((hi.toNat - 192) * 256 + lo.toNat) labels ending) :
      Spells buf pos labels ending
  | label {pos : Nat} {len : UInt8} {labels : List Bytes} {ending : Ending}
      (first : buf[pos]? = some len) (some_label : len ≠ 0) (near : len < 64)
      (inside : pos + 1 + len.toNat ≤ buf.length)
      (later : Spells buf (pos + 1 + len.toNat) labels ending) :
      Spells buf pos (slice buf (pos + 1) (pos + 1 + len.toNat) :: labels) ending

theorem Spells.unique (spells : Spells buf pos labels ending)
    (spells' : Spells buf pos labels' ending') : labels = labels' ∧ ending = ending' := by
  induction spells generalizing labels' with
  | root zero =>
    cases spells' with
    | root => exact ⟨rfl, rfl⟩
    | ranOff outside =>
      rw [List.getElem?_eq_none outside] at zero
      cases zero
    | pointer first far =>
      rw [zero] at first
      cases first
      exact absurd far (by decide)
    | label first some_label =>
      rw [zero] at first
      cases first
      exact absurd rfl some_label
  | ranOff outside =>
    have none := List.getElem?_eq_none outside
    cases spells' with
    | root zero =>
      rw [none] at zero
      cases zero
    | ranOff => exact ⟨rfl, rfl⟩
    | pointer first =>
      rw [none] at first
      cases first
    | label first =>
      rw [none] at first
      cases first
  | pointer first far second later ih =>
    cases spells' with
    | root zero =>
      rw [first] at zero
      cases zero
      exact absurd far (by decide)
    | ranOff outside =>
      rw [List.getElem?_eq_none outside] at first
      cases first
    | pointer first' far' second' later' =>
      rw [first] at first'
      cases first'
      rw [second] at second'
      cases second'
      exact ih later'
    | label first' some_label near =>
      rw [first] at first'
      cases first'
      exact absurd (UInt8.lt_of_lt_of_le near (by decide)) (UInt8.not_lt.mpr far)
  | label first some_label near inside later ih =>
    cases spells' with
    | root zero =>
      rw [first] at zero
      cases zero
      exact absurd rfl some_label
    | ranOff outside =>
      rw [List.getElem?_eq_none outside] at first
      cases first
    | pointer first' far =>
      rw [first] at first'
      cases first'
      exact absurd (UInt8.lt_of_lt_of_le near (by decide)) (UInt8.not_lt.mpr far)
    | label first' _ _ _ later' =>
      rw [first] at first'
      cases first'
      obtain ⟨rfl, same⟩ := ih later'
      exact ⟨rfl, same⟩

theorem pointer_low (hi : UInt8) (far : 192 ≤ hi) : (hi &&& 0x3F).toNat = hi.toNat - 192 := by
  have all := forall_byte (p := fun b => !decide (192 ≤ b) || (b &&& 0x3F).toNat == b.toNat - 192)
    (by decide +kernel) hi
  rw [decide_eq_true far] at all
  simpa using all

/-- What the loop decodes, the packet spells. -/
theorem decodeLoop_spells
    (decoded : decodeLoop buf outlen fuel pos jumps firstEnd out = some (name, e)) :
    ∃ labels ending, Spells buf pos labels ending ∧ LabelsValid labels ∧
      name = putAll outlen labels out := by
  induction fuel generalizing pos jumps firstEnd out with
  | zero => cases decoded
  | succ fuel ih =>
    rw [decodeLoop] at decoded
    split at decoded
    · rename_i outside
      cases decoded
      exact ⟨[], .ranOff, .ranOff outside, List.forall_mem_nil _, rfl⟩
    rename_i inside
    have inside := Nat.lt_of_not_le inside
    have byte : buf[pos]? = some (buf.getD pos 0) := by simp [List.getD, inside]
    dsimp only at decoded
    split at decoded
    · rename_i zero
      cases decoded
      rw [zero] at byte
      exact ⟨[], .root, .root byte, List.forall_mem_nil _, rfl⟩
    rename_i some_label
    split at decoded
    · rename_i bits
      have far := (pointer_bits _).mp bits
      split at decoded
      · cases decoded
      rename_i more
      have more := Nat.lt_of_not_le more
      have byte' : buf[pos + 1]? = some (buf.getD (pos + 1) 0) := by simp [List.getD, more]
      split at decoded
      · cases decoded
      obtain ⟨labels, ending, spells, valid, same⟩ := ih decoded
      rw [pointer_low _ far] at spells
      exact ⟨labels, ending, .pointer byte far byte' spells, valid, same⟩
    split at decoded
    · cases decoded
    rename_i fits
    rw [not_or, label_bits, UInt8.not_le, Nat.not_lt] at fits
    obtain ⟨labels, ending, spells, valid, same⟩ := ih decoded
    refine ⟨_, ending, .label byte some_label fits.1 fits.2 spells, ?_, same⟩
    have length : (slice buf (pos + 1) (pos + 1 + (buf.getD pos 0).toNat)).length =
        (buf.getD pos 0).toNat := by
      rw [slice_eq_take_drop, List.length_take, List.length_drop]
      omega
    have short := UInt8.lt_iff_toNat_lt.mp fits.1
    refine List.forall_mem_cons.mpr ⟨⟨fun empty => some_label ?_, ?_⟩, valid⟩
    · rw [empty] at length
      exact UInt8.toNat_inj.mp length.symm
    · rw [length]
      exact Nat.le_of_lt_succ short

theorem dnsDecodeName_spells (decoded : dnsDecodeName buf pos outlen = some (name, e)) :
    ∃ labels ending, Spells buf pos labels ending ∧ LabelsValid labels ∧
      name = putAll outlen labels [] := by
  unfold dnsDecodeName at decoded
  split at decoded
  · cases decoded
  rename_i looped
  split at decoded
  · cases decoded
    exact decodeLoop_spells looped
  · cases decoded

/-- The place of the first entry with the name that stands in a buffer. -/
def lookupIndex (cfg : DnsConfig) (qname : Bytes) : Option Nat :=
  cfg.entries.findIdx? fun entry => entry.name.bytes = qname.takeWhile (· ≠ 0)

theorem lookup_eq (cfg : DnsConfig) (qname : Bytes) :
    lookup cfg qname = (lookupIndex cfg qname).bind (cfg.entries[·]?) :=
  List.find?_eq_bind_findIdx?_getElem?

/-- The query is answered from the entry at `i`. -/
def AnswersFrom (query : Bytes) (cfg : DnsConfig) (outmax i : Nat) : Prop :=
  ∃ qname nameLength, Answered query outmax qname nameLength ∧
    at16 query (DNS_HDR_SIZE + nameLength + 2) = DNS_CLASS_IN ∧ lookupIndex cfg qname = some i

/-- A response depends on the selected entry and on no other. -/
theorem response_congr {cfg' : DnsConfig}
    (same : ∀ qname nameLength, Answered query outmax qname nameLength →
      entryFor query cfg qname (DNS_HDR_SIZE + nameLength) =
        entryFor query cfg' qname (DNS_HDR_SIZE + nameLength)) :
    dnsBuildResponse query cfg outmax = dnsBuildResponse query cfg' outmax := by
  by_cases answered : ∃ qname nameLength, Answered query outmax qname nameLength
  · obtain ⟨qname, nameLength, answered⟩ := answered
    have entry := same qname nameLength answered
    rw [dnsBuildResponse_some answered, dnsBuildResponse_some answered]
    unfold response selected responseFlags
    simp only [entry]
  · rw [dnsBuildResponse_eq, dnsBuildResponse_eq]
    split
    · rfl
    rename_i sizes
    rw [not_or, Nat.not_lt, Nat.not_lt] at sizes
    split
    · rfl
    rename_i question
    split
    · rfl
    rename_i qname nameLength named
    split
    · rfl
    rename_i complete
    split
    · rfl
    rename_i fits
    rw [← Nat.add_assoc] at fits
    exact absurd ⟨qname, nameLength, sizes.1, sizes.2, question, named, Nat.le_of_not_lt complete,
      Nat.le_of_not_lt fits⟩ answered

theorem Answered.unique {qname' : Bytes} {nameLength' : Nat}
    (answered : Answered query outmax qname nameLength)
    (answered' : Answered query outmax qname' nameLength') :
    qname = qname' ∧ nameLength = nameLength' := by
  have named := answered.name
  rw [answered'.name] at named
  cases named
  exact ⟨rfl, rfl⟩

/-- The response is the one that the entry would get alone. -/
theorem AnswersFrom.alone {entry : DnsEntry} (selects : AnswersFrom query cfg outmax i)
    (there : cfg.entries[i]? = some entry) :
    dnsBuildResponse query cfg outmax = dnsBuildResponse query ⟨[entry]⟩ outmax := by
  obtain ⟨qname, nameLength, answered, cls, found⟩ := selects
  apply response_congr
  intro qname' nameLength' answered'
  obtain ⟨rfl, rfl⟩ := Answered.unique answered answered'
  have named := List.of_findIdx?_eq_some found
  rw [there] at named
  have alone : lookup ⟨[entry]⟩ qname = some entry := List.find?_cons_of_pos named
  unfold entryFor
  rw [if_pos cls, if_pos cls, lookup_eq, found, Option.bind_some, there, alone]

/-- Without a selected entry the response is the one of an empty configuration. -/
theorem response_unselected (nothing : ∀ i, ¬AnswersFrom query cfg outmax i) :
    dnsBuildResponse query cfg outmax = dnsBuildResponse query ⟨[]⟩ outmax := by
  apply response_congr
  intro qname nameLength answered
  unfold entryFor
  split
  · rename_i cls
    have missing : lookupIndex cfg qname = none := by
      rw [Option.eq_none_iff_forall_ne_some]
      exact fun i found => nothing i ⟨qname, nameLength, answered, cls, found⟩
    rw [lookup_eq, missing]
    rfl
  · rfl

/-- The entry that is selected has the labels of the question. -/
def SelectsLabels (cfg : DnsConfig) (outmax : Nat) (query : Bytes) : Prop :=
  ∀ i, AnswersFrom query cfg outmax i → ∃ entry labels, cfg.entries[i]? = some entry ∧
    Spells query DNS_HDR_SIZE labels .root ∧
    labels.map lower = (nameLabels entry.name.bytes).map lower

/-- Two questions, and what the lookup may do with them. -/
structure ComparesLabels (cfg : DnsConfig) (outmax : Nat) (query query' : Bytes) : Prop where
  first : SelectsLabels cfg outmax query
  second : SelectsLabels cfg outmax query'
  apart : ∀ i, AnswersFrom query cfg outmax i → AnswersFrom query' cfg outmax i →
    ∀ labels ending labels' ending', Spells query DNS_HDR_SIZE labels ending →
      Spells query' DNS_HDR_SIZE labels' ending' → labels.map lower = labels'.map lower

/-- The C string that labels come to in `qname`. -/
def flattened (labels : List Bytes) : Bytes :=
  (([DOT].intercalate (labels.map lower)).take 255).takeWhile (· ≠ 0)

/-- The name of the question is terminated, with neither NUL nor dot in a label, or its
text is the name of no entry. -/
def Harmless (cfg : DnsConfig) (outmax : Nat) (query : Bytes) : Prop :=
  ∀ qname nameLength, Answered query outmax qname nameLength →
    at16 query (DNS_HDR_SIZE + nameLength + 2) = DNS_CLASS_IN →
    ∀ labels ending, Spells query DNS_HDR_SIZE labels ending →
      (ending = .root ∧ Plain labels) ∨ ∀ entry ∈ cfg.entries, entry.name.bytes ≠ flattened labels

/-- A response is about the labels that the packet spells. -/
theorem Answered.spells (answered : Answered query outmax qname nameLength) :
    ∃ labels ending, Spells query DNS_HDR_SIZE labels ending ∧ LabelsValid labels ∧
      qname = putAll 256 labels [] ∧ qname.takeWhile (· ≠ 0) = flattened labels := by
  obtain ⟨labels, ending, spells, valid, same⟩ := dnsDecodeName_spells answered.name
  refine ⟨labels, ending, spells, valid, same, ?_⟩
  rw [same, putAll_eq (by decide) valid]
  rfl

theorem plain_lower : Plain (labels.map lower) ↔ Plain labels := by
  unfold Plain
  simp only [List.forall_mem_map, lower_mem (Or.inl rfl), lower_mem (Or.inr rfl)]

/-- Labels that are not empty have no root among them. -/
theorem dropRoot_valid (valid : LabelsValid labels) : dropRoot (labels.map lower) = labels.map lower := by
  refine if_neg fun last => ?_
  obtain ⟨label, listed, empty⟩ := List.mem_map.mp (List.mem_of_getLast? last)
  exact (valid label listed).1 (List.map_eq_nil_iff.mp empty)

theorem map_lower_lower (labels : List Bytes) : (labels.map lower).map lower = labels.map lower := by
  rw [List.map_map]
  exact List.map_congr_left fun label _ => lower_lower label

theorem selectsLabels_of_harmless (loaded : Loaded cfg) (harmless : Harmless cfg outmax query) :
    SelectsLabels cfg outmax query := by
  rintro i ⟨qname, nameLength, answered, cls, found⟩
  obtain ⟨labels, ending, spells, valid, same, text⟩ := Answered.spells answered
  have named := List.of_findIdx?_eq_some found
  cases there : cfg.entries[i]? with
  | none =>
    rw [there] at named
    cases named
  | some entry =>
    have listed := List.mem_of_getElem? there
    rw [there] at named
    have named : entry.name.bytes = qname.takeWhile (· ≠ 0) := of_decide_eq_true named
    rcases harmless qname nameLength answered cls labels ending spells with ⟨rfl, plain⟩ | missing
    · refine ⟨entry, labels, rfl, spells, ?_⟩
      have passes := loaded.name entry listed
      have short := Nat.lt_of_le_of_lt (validHostname_length passes) (show 253 < 255 by decide)
      simp only [dnsValidHostname, Bool.and_eq_true, decide_eq_true_eq] at passes
      rw [same] at named
      have split := (name_eq_iff passes.1.1 short valid plain).mp named
      rw [nameLabels_eq, split, dropRoot_valid valid, map_lower_lower]
    · rw [text] at named
      exact absurd named (missing entry listed)

theorem harmless_of_selectsLabels (loaded : Loaded cfg) (selects : SelectsLabels cfg outmax query) :
    Harmless cfg outmax query := by
  intro qname nameLength answered cls labels ending spells
  by_contra stray
  rw [not_or] at stray
  obtain ⟨strange, met⟩ := stray
  push Not at met
  obtain ⟨entry, listed, named⟩ := met
  obtain ⟨labels', ending', spells', _, _, text⟩ := Answered.spells answered
  obtain ⟨rfl, rfl⟩ := spells.unique spells'
  have some_entry : (lookupIndex cfg qname).isSome := by
    rw [lookupIndex, List.findIdx?_isSome, List.any_eq_true]
    exact ⟨entry, listed, decide_eq_true (named.trans text.symm)⟩
  obtain ⟨i, found⟩ := Option.isSome_iff_exists.mp some_entry
  obtain ⟨entry', labels', there, spells', same⟩ := selects i ⟨qname, nameLength, answered, cls, found⟩
  obtain ⟨rfl, rfl⟩ := spells.unique spells'
  refine strange ⟨rfl, plain_lower.mp ?_⟩
  rw [same, plain_lower]
  exact valid_plain (loaded.name entry' (List.mem_of_getElem? there))

theorem selectsLabels_iff (loaded : Loaded cfg) :
    SelectsLabels cfg outmax query ↔ Harmless cfg outmax query :=
  ⟨harmless_of_selectsLabels loaded, selectsLabels_of_harmless loaded⟩

theorem comparesLabels_iff (inet : InetPton) (root : DictValue) (outmax : Nat)
    (query query' : Bytes) :
    ComparesLabels (loadDns inet root) outmax query query' ↔
      Harmless (loadDns inet root) outmax query ∧ Harmless (loadDns inet root) outmax query' := by
  have loaded := loadDns_loaded inet root
  constructor
  · rintro ⟨first, second, _⟩
    exact ⟨(selectsLabels_iff loaded).mp first, (selectsLabels_iff loaded).mp second⟩
  · rintro ⟨first, second⟩
    have first := (selectsLabels_iff loaded).mpr first
    have second := (selectsLabels_iff loaded).mpr second
    refine ⟨first, second, fun i selects selects' labels ending labels' ending' spells spells' => ?_⟩
    obtain ⟨entry, named, there, spelled, same⟩ := first i selects
    obtain ⟨entry', named', there', spelled', same'⟩ := second i selects'
    rw [there] at there'
    cases there'
    rw [(spells.unique spelled).1, (spells'.unique spelled').1, same, same']

def keyA : Key := sampleKey (ascii "a") (by decide) (by decide) (by decide)

/-- `{"dns":{name:{"TXT":"h"},...}}` -/
def textRoot (names : List Key) : DictValue :=
  .object [(sampleKey (ascii "dns") (by decide) (by decide) (by decide),
    .object (names.map fun name => (name, .object
      [(sampleKey (ascii "TXT") (by decide) (by decide) (by decide), .string sampleTarget)])))]

/-- A question for one label, `a`, NUL and `x`, is answered like one for `a`. -/
theorem labels_not_compared : ¬∀ inet root outmax query query',
    ComparesLabels (loadDns inet root) outmax query query' := by
  intro compares
  have zone := compares noAddress (textRoot [keyA]) 4096 nulQuery anyQuery
  have selects : AnswersFrom nulQuery (loadDns noAddress (textRoot [keyA])) 4096 0 :=
    ⟨[97, 0, 120], 5, by constructor <;> decide, by decide, by decide⟩
  have selects' : AnswersFrom anyQuery (loadDns noAddress (textRoot [keyA])) 4096 0 :=
    ⟨[97], 3, anyQuery_answered, by decide, by decide⟩
  have spells : Spells nulQuery DNS_HDR_SIZE [[97, 0, 120]] .root :=
    @Spells.label _ 12 3 _ _ rfl (by decide) (by decide) (by decide) (.root rfl)
  have spells' : Spells anyQuery DNS_HDR_SIZE [[97]] .root :=
    @Spells.label _ 12 1 _ _ rfl (by decide) (by decide) (by decide) (.root rfl)
  have same := zone.apart 0 selects selects' _ _ _ _ spells spells'
  exact absurd same (by decide)

end DnsLookup
