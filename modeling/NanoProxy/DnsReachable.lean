import NanoProxy.DnsLookup

/-!
# Which entries can be resolved

`load_config` keeps every valid key with a record, in lower case and with the dot at its
end. The decoder never writes that dot, and the search stops at the first name that fits.
-/

namespace DnsReachable

open CLib Dict DnsMessage DnsResponder DnsEncoding DnsBounds DnsAnswers DnsLoader DnsNames
  DnsLookup SrvRecords JsonParser

variable {inet : InetPton} {root : DictValue} {key : Key} {name : Bytes} {cfg : DnsConfig}
  {outmax i : Nat}

/-- The pairs of the section "dns". -/
def dnsPairs (root : DictValue) : Pairs :=
  match dictObjectGet root (ascii "dns") with
  | some (.object pairs) => pairs
  | _ => []

/-- The keys of the entries, in their order. -/
def keptKeys (inet : InetPton) (root : DictValue) : List Key :=
  (((dnsPairs root).filter fun pair => (loadEntry inet (defaultTtl root) pair).isSome).map
    Prod.fst).take MAX_DNS_ENTRIES

theorem loadDns_pairs (inet : InetPton) (root : DictValue) :
    (loadDns inet root).entries =
      ((dnsPairs root).filterMap (loadEntry inet (defaultTtl root))).take MAX_DNS_ENTRIES := by
  unfold loadDns dnsPairs
  cases dictObjectGet root (ascii "dns") with
  | none => rfl
  | some value =>
    cases value with
    | object pairs => exact loadEntries_eq pairs [] (Nat.zero_le _)
    | _ => rfl

theorem loadEntry_names (ttl : UInt32) (pairs : Pairs) :
    (pairs.filterMap (loadEntry inet ttl)).map (·.name) =
      ((pairs.filter fun pair => (loadEntry inet ttl pair).isSome).map Prod.fst).map entryName := by
  induction pairs with
  | nil => rfl
  | cons pair pairs ih =>
    cases loaded : loadEntry inet ttl pair with
    | none =>
      rw [List.filterMap_cons_none loaded, List.filter_cons_of_neg (by rw [loaded]; exact nofun), ih]
    | some entry =>
      rw [List.filterMap_cons_some loaded, List.filter_cons_of_pos (by rw [loaded]; rfl),
        List.map_cons, List.map_cons, List.map_cons, ih, (loadEntry_some loaded).2.1]

theorem entries_names (inet : InetPton) (root : DictValue) :
    (loadDns inet root).entries.map (·.name) = (keptKeys inet root).map entryName := by
  rw [loadDns_pairs, keptKeys, List.map_take, loadEntry_names, List.map_take]

theorem keptKeys_valid {inet : InetPton} {root : DictValue} :
    ∀ key ∈ keptKeys inet root, dnsValidHostname key.bytes := by
  intro key listed
  obtain ⟨pair, passes, rfl⟩ := List.mem_map.mp (List.mem_of_mem_take listed)
  obtain ⟨entry, loaded⟩ := Option.isSome_iff_exists.mp (List.mem_filter.mp passes).2
  exact (loadEntry_some loaded).1

theorem entries_bytes (inet : InetPton) (root : DictValue) :
    (loadDns inet root).entries.map (·.name.bytes) = (keptKeys inet root).map (lower ·.bytes) := by
  have names := congrArg (List.map CString.bytes) (entries_names inet root)
  rw [List.map_map, List.map_map] at names
  refine names.trans (List.map_congr_left fun key listed => ?_)
  exact entryName_bytes (keptKeys_valid key listed)

/-- The search over the entries is a search over the kept keys. -/
theorem lookupIndex_kept (inet : InetPton) (root : DictValue) (qname : Bytes) :
    lookupIndex (loadDns inet root) qname =
      (keptKeys inet root).findIdx? fun key => lower key.bytes = qname.takeWhile (· ≠ 0) := by
  have searched := congrArg
    (List.findIdx? fun name => decide (name = qname.takeWhile (· ≠ 0))) (entries_bytes inet root)
  rw [List.findIdx?_map, List.findIdx?_map] at searched
  exact searched

/-- A query of class IN for a name in any letter case. -/
structure Question (name : Bytes) where
  header : Bytes
  header_length : header.length = DNS_HDR_SIZE
  counted : at16 header 4 ≠ 0
  spelling : Bytes
  any_case : lower spelling = lower name
  encoding : Bytes
  encoded : dnsEncodeName spelling 255 = .ok encoding
  qtype : UInt16
  more : Bytes

def Question.query (q : Question name) : Bytes :=
  q.header ++ (q.encoding ++ (dnsPut16 q.qtype ++ (dnsPut16 DNS_CLASS_IN ++ q.more)))

/-- Every such question is answered from the entry at `i`. -/
def Resolves (inet : InetPton) (root : DictValue) (i : Nat) (key : Key) : Prop :=
  ∀ outmax, 512 ≤ outmax → ∀ q : Question key.bytes,
    AnswersFrom q.query (loadDns inet root) outmax i

theorem lower_getLast (name : Bytes) :
    (lower name).getLast? = some DOT ↔ name.getLast? = some DOT := by
  rw [lower, List.getLast?_map]
  cases name.getLast? with
  | none => exact Iff.rfl
  | some c =>
    have all := forall_byte (p := fun c => decide (tolower c = DOT) == decide (c = DOT))
      (by decide +kernel) c
    simpa using all

theorem lower_withoutDot (name : Bytes) : lower (withoutDot name) = withoutDot (lower name) := by
  unfold withoutDot
  simp only [lower_getLast]
  split
  · exact List.map_dropLast
  · rfl

theorem withoutDot_self (nonempty : name ≠ []) :
    withoutDot name = name ↔ name.getLast? ≠ some DOT := by
  unfold withoutDot
  split
  · rename_i dot
    refine iff_of_false (fun same => ?_) (not_not.mpr dot)
    have length := congrArg List.length same
    have positive := List.length_pos_iff.mpr nonempty
    rw [List.length_dropLast] at length
    omega
  · rename_i plain
    exact iff_of_true rfl plain

theorem Question.valid (q : Question name) (valid : dnsValidHostname name) :
    dnsValidHostname q.spelling := by
  rw [← lower_validHostname, q.any_case, lower_validHostname]
  exact valid

theorem at16_append {buf : Bytes} (rest : Bytes) {off : Nat} (inside : off + 2 ≤ buf.length) :
    at16 (buf ++ rest) off = at16 buf off := by
  have first : off < buf.length := by omega
  have second : off + 1 < buf.length := by omega
  simp [at16, List.getD, List.getElem?_append_left, first, second]

theorem at16_put (pre : Bytes) (val : UInt16) (rest : Bytes) :
    at16 (pre ++ (dnsPut16 val ++ rest)) pre.length = val := by
  apply UInt16.toNat_inj.mp
  have read := get16_drop (pre ++ (dnsPut16 val ++ rest)) pre.length (by
    simp only [List.length_append, dnsPut16_eq, put16_length]
    omega)
  have written := get16_put16 (UInt16.toNat_lt val) rest
  rw [← dnsPut16_eq] at written
  rw [List.drop_left, written] at read
  exact (congrArg Prod.fst (Option.some.inj read)).symm

/-- A question for a valid name gets a response, and the class is IN. -/
theorem Question.answered (q : Question name) (valid : dnsValidHostname name)
    (room : 512 ≤ outmax) :
    Answered q.query outmax (withoutDot (lower name)) q.encoding.length ∧
      at16 q.query (DNS_HDR_SIZE + q.encoding.length + 2) = DNS_CLASS_IN := by
  have valid := q.valid valid
  have length := encoding_length valid
  have whole := withoutDot_length q.spelling
  have bound := validHostname_length valid
  have encoded := (encode_valid valid 255).1 (by omega)
  rw [q.encoded] at encoded
  have same := Except.ok.inj encoded
  have header := q.header_length
  have long : q.query.length = DNS_HDR_SIZE + q.encoding.length + 4 + q.more.length := by
    simp only [Question.query, List.length_append, dnsPut16_eq, put16_length, header]
    omega
  have twelve : DNS_HDR_SIZE = 12 := rfl
  constructor
  · constructor
    · omega
    · exact room
    · rw [Question.query, at16_append _ (by omega)]
      exact q.counted
    · rw [← q.any_case, ← lower_withoutDot, ← header, Question.query, same]
      exact decode_encoding valid _ _
    · omega
    · rw [same]
      omega
  · have split : q.query = (q.header ++ (q.encoding ++ dnsPut16 q.qtype)) ++
        (dnsPut16 DNS_CLASS_IN ++ q.more) := by
      simp only [Question.query, List.append_assoc]
    have place : (q.header ++ (q.encoding ++ dnsPut16 q.qtype)).length =
        DNS_HDR_SIZE + q.encoding.length + 2 := by
      simp only [List.length_append, dnsPut16_eq, put16_length, header]
      omega
    rw [split, ← place, at16_put]

theorem Question.answersFrom_iff (q : Question name) (valid : dnsValidHostname name)
    (room : 512 ≤ outmax) :
    AnswersFrom q.query cfg outmax i ↔ lookupIndex cfg (withoutDot (lower name)) = some i := by
  obtain ⟨answered, cls⟩ := q.answered valid room
  constructor
  · rintro ⟨qname, nameLength, answered', _, found⟩
    obtain ⟨rfl, rfl⟩ := Answered.unique answered answered'
    exact found
  · exact fun found => ⟨_, _, answered, cls, found⟩

/-- The question with the key as it is. -/
def plainQuestion (valid : dnsValidHostname name) : Question name where
  header := [0, 0, 0, 0, 0, 1, 0, 0, 0, 0, 0, 0]
  header_length := rfl
  counted := by decide
  spelling := name
  any_case := rfl
  encoding := putLabels (nameLabels name)
  encoded := (encode_valid valid 255).1 (by
    have length := encoding_length valid
    have whole := withoutDot_length name
    have bound := validHostname_length valid
    omega)
  qtype := DNS_ANY
  more := []

theorem lower_no_nul (valid : dnsValidHostname name) :
    (withoutDot (lower name)).takeWhile (· ≠ 0) = withoutDot (lower name) := by
  have lowered : dnsValidHostname (lower name) := by
    rw [lower_validHostname]
    exact valid
  rw [List.takeWhile_eq_self_iff]
  intro b listed
  rw [decide_eq_true_iff]
  rintro rfl
  rw [withoutDot_eq lowered] at listed
  rcases mem_intercalate listed with dot | ⟨label, inside, nul⟩
  · exact absurd dot (by decide)
  · exact (valid_plain lowered label inside).1 nul

/-- Where the search for a key ends. -/
theorem lookupIndex_iff (valid : dnsValidHostname name) :
    lookupIndex (loadDns inet root) (withoutDot (lower name)) = some i ↔
      (∃ key, (keptKeys inet root)[i]? = some key ∧ lower key.bytes = withoutDot (lower name)) ∧
      ∀ j earlier, j < i → (keptKeys inet root)[j]? = some earlier →
        lower earlier.bytes ≠ withoutDot (lower name) := by
  rw [lookupIndex_kept, lower_no_nul valid, List.findIdx?_eq_some_iff_getElem]
  constructor
  · rintro ⟨inside, same, before⟩
    refine ⟨⟨_, List.getElem?_eq_getElem inside, of_decide_eq_true same⟩, ?_⟩
    intro j earlier less there
    obtain ⟨_, rfl⟩ := List.getElem?_eq_some_iff.mp there
    exact fun equal => before j less (decide_eq_true equal)
  · rintro ⟨⟨key, there, same⟩, before⟩
    obtain ⟨inside, rfl⟩ := List.getElem?_eq_some_iff.mp there
    refine ⟨inside, decide_eq_true same, fun j less equal => ?_⟩
    exact before j _ less (List.getElem?_eq_getElem (less.trans inside)) (of_decide_eq_true equal)

theorem Resolves.found (resolves : Resolves inet root i key)
    (kept : (keptKeys inet root)[i]? = some key) :
    lower key.bytes = withoutDot (lower key.bytes) ∧
      ∀ j earlier, j < i → (keptKeys inet root)[j]? = some earlier →
        lower earlier.bytes ≠ withoutDot (lower key.bytes) := by
  have valid := keptKeys_valid key (List.mem_of_getElem? kept)
  have selects := resolves 512 (Nat.le_refl _) (plainQuestion valid)
  rw [Question.answersFrom_iff _ valid (Nat.le_refl _), lookupIndex_iff valid, kept] at selects
  obtain ⟨⟨_, ⟨rfl⟩, same⟩, before⟩ := selects
  exact ⟨same, before⟩

/-- Only a key without a dot at its end is what the decoder makes of it. -/
theorem key_dot (key : Key) :
    lower key.bytes = withoutDot (lower key.bytes) ↔ key.bytes.getLast? ≠ some DOT := by
  have nonempty : lower key.bytes ≠ [] := fun empty => key.nonempty (List.map_eq_nil_iff.mp empty)
  rw [eq_comm, withoutDot_self nonempty, ne_eq, lower_getLast]

/-- A kept key is resolved if and only if it does not end in a dot and no earlier one is the
same but for the case of its letters. -/
theorem resolves_iff (inet : InetPton) (root : DictValue) (i : Nat) (key : Key)
    (kept : (keptKeys inet root)[i]? = some key) :
    Resolves inet root i key ↔ key.bytes.getLast? ≠ some DOT ∧
      ∀ j earlier, j < i → (keptKeys inet root)[j]? = some earlier →
        lower earlier.bytes ≠ lower key.bytes := by
  have valid := keptKeys_valid key (List.mem_of_getElem? kept)
  constructor
  · intro resolves
    obtain ⟨same, before⟩ := resolves.found kept
    rw [← same] at before
    exact ⟨(key_dot key).mp same, before⟩
  · rintro ⟨no_dot, before⟩ outmax room q
    have same := (key_dot key).mpr no_dot
    rw [q.answersFrom_iff valid room, lookupIndex_iff valid, ← same]
    exact ⟨⟨key, kept, rfl⟩, before⟩

theorem resolves_a : Resolves noAddress (textRoot [keyA]) 0 keyA := by
  apply (resolves_iff noAddress (textRoot [keyA]) 0 keyA (by decide)).mpr
  exact ⟨by decide, fun j _ less => absurd less (Nat.not_lt_zero j)⟩

def keyDot : Key := sampleKey (ascii "a.") (by decide) (by decide) (by decide)

/-- `{"dns":{"a.":{"TXT":"h"}}}` -/
def dottedText : Bytes :=
  [123] ++ ascii "\"dns\":" ++ [123] ++ ascii "\"a.\":" ++ [123] ++ ascii "\"TXT\":\"h\"" ++
    [125, 125, 125]

theorem dotted_unresolved : ¬∀ strtod inet buffer contentLen root,
    dictDeserializeJson strtod buffer contentLen = .ok root →
      ∀ i key, (keptKeys inet root)[i]? = some key → Resolves inet root i key := by
  intro resolved
  have read : dictDeserializeJson strtodFew dottedText 26 = .ok (textRoot [keyDot]) := by
    decide +kernel
  have kept : (keptKeys noAddress (textRoot [keyDot]))[0]? = some keyDot := by decide
  have found := (resolved strtodFew noAddress _ _ _ read 0 keyDot kept).found kept
  exact absurd ((key_dot keyDot).mp found.1) (by decide)

end DnsReachable
