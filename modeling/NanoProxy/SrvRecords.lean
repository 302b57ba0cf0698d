import NanoProxy.DnsLoader
import NanoProxy.JsonSoundness

/-!
# SRV records of the configuration

The JSON reader makes a double of every number. The port of a SRV record is read from one, the
priority and the weight are not: they stay 0 and 100.
-/

namespace SrvRecords

open CLib Dict DnsMessage DnsResponder DnsEncoding DnsQuestion DnsBounds DnsAnswers DnsLoader
  JsonParser JsonReading JsonSoundness

/-- No number of the tree is a `DICT_INT64`. -/
inductive Doubles : DictValue → Prop
  | null : Doubles .null
  | bool (b : Bool) : Doubles (.bool b)
  | number (bits : UInt64) : Doubles (.number bits)
  | string (s : Str) : Doubles (.string s)
  | array {items : List DictValue} (each : ∀ v ∈ items, Doubles v) : Doubles (.array items)
  | object {pairs : Pairs} (each : ∀ p ∈ pairs, Doubles p.2) : Doubles (.object pairs)

variable {strtod : Strtod} {s rest : Bytes} {v obj value : DictValue} {key : Bytes}

theorem Doubles.get (tree : Doubles v) (found : dictObjectGet v key = some value) :
    Doubles value := by
  cases tree with
  | object each =>
    obtain ⟨p, listed, rfl⟩ := Option.map_eq_some_iff.mp found
    exact each p (List.mem_of_find?_eq_some listed)
  | _ => cases found

theorem Doubles.append {items : List DictValue} (each : ∀ v ∈ items, Doubles v)
    (item : Doubles v) : ∀ w ∈ items ++ [v], Doubles w := by
  intro w listed
  rcases List.mem_append.mp listed with listed | listed
  · exact each w listed
  · rw [List.mem_singleton.mp listed]
    exact item

theorem Doubles.set {obj' : DictValue} (tree : Doubles obj) (item : Doubles value)
    (made : dictObjectSet obj key value = some obj') : Doubles obj' := by
  cases tree with
  | object each =>
    obtain ⟨key, _, rfl⟩ := Option.map_eq_some_iff.mp made
    apply Doubles.object
    intro p listed
    rcases mem_setPair listed with new | old
    · rw [new]
      exact item
    · exact each p old
  | _ => cases made

/-- What the parsers make. -/
structure MakesDoubles (strtod : Strtod) (fuel : Nat) : Prop where
  value : ∀ s v rest, dictParseValue strtod fuel s = .ok (v, rest) → Doubles v
  array : ∀ s v rest, dictParseArray strtod fuel s = .ok (v, rest) → Doubles v
  elements : ∀ s items v rest, (∀ item ∈ items, Doubles item) →
    arrayLoop strtod fuel s items = .ok (v, rest) → Doubles v
  object : ∀ s v rest, dictParseObject strtod fuel s = .ok (v, rest) → Doubles v
  members : ∀ s obj v rest, Doubles obj → objectLoop strtod fuel s obj = .ok (v, rest) → Doubles v

theorem string_doubles (read : parseStringValue s = .ok (v, rest)) : Doubles v := by
  unfold parseStringValue at read
  split at read
  · cases read
  split at read
  · cases read
  rename_i made
  cases read
  obtain ⟨text, _, rfl⟩ := Option.map_eq_some_iff.mp made
  exact .string text

theorem number_doubles (read : parseNumberValue strtod s = .ok (v, rest)) : Doubles v := by
  unfold parseNumberValue at read
  split at read
  · cases read
  · cases read
    exact .number _

theorem literal_doubles (read : parseLiteralValue s = .ok (v, rest)) : Doubles v := by
  unfold parseLiteralValue at read
  split at read
  · cases read
    exact .bool true
  split at read
  · cases read
    exact .bool false
  split at read
  · cases read
    exact .null
  · cases read

theorem value_doubles {fuel : Nat} (makes : MakesDoubles strtod fuel)
    (read : dictParseValue strtod (fuel + 1) s = .ok (v, rest)) : Doubles v := by
  rw [dictParseValue] at read
  split at read
  · cases read
  split at read
  · exact string_doubles read
  split at read
  · exact makes.object _ _ _ read
  split at read
  · exact makes.array _ _ _ read
  split at read
  · exact number_doubles read
  · exact literal_doubles read

theorem array_doubles {fuel : Nat} (makes : MakesDoubles strtod fuel)
    (read : dictParseArray strtod (fuel + 1) s = .ok (v, rest)) : Doubles v := by
  unfold dictParseArray at read
  split at read
  · rename_i fuel' s same
    cases same
    split at read
    · cases read
      exact .array (List.forall_mem_nil _)
    · exact makes.elements _ _ _ _ (List.forall_mem_nil _) read
  · cases read

theorem object_doubles {fuel : Nat} (makes : MakesDoubles strtod fuel)
    (read : dictParseObject strtod (fuel + 1) s = .ok (v, rest)) : Doubles v := by
  unfold dictParseObject at read
  split at read
  · rename_i fuel' s same
    cases same
    split at read
    · cases read
      exact .object (List.forall_mem_nil _)
    · exact makes.members _ _ _ _ (.object (List.forall_mem_nil _)) read
  · cases read

theorem elements_doubles {fuel : Nat} (makes : MakesDoubles strtod fuel) {items : List DictValue}
    (each : ∀ item ∈ items, Doubles item)
    (read : arrayLoop strtod (fuel + 1) s items = .ok (v, rest)) : Doubles v := by
  rw [arrayLoop_succ] at read
  split at read
  · cases read
  rename_i item s' first
  have each' := Doubles.append each (makes.value _ _ _ first)
  split at read
  · cases read
  split at read
  · exact makes.elements _ _ _ _ each' read
  split at read
  · cases read
    exact .array each'
  · cases read

theorem members_doubles {fuel : Nat} (makes : MakesDoubles strtod fuel) (tree : Doubles obj)
    (read : objectLoop strtod (fuel + 1) s obj = .ok (v, rest)) : Doubles v := by
  rw [objectLoop_succ] at read
  split at read
  · cases read
  split at read
  · cases read
  split at read
  · cases read
  split at read
  · cases read
  split at read
  · cases read
  split at read
  · cases read
  rename_i item s' first
  split at read
  · cases read
  rename_i obj' made
  have tree' := tree.set (makes.value _ _ _ first) made
  split at read
  · cases read
  split at read
  · exact makes.members _ _ _ _ tree' read
  split at read
  · cases read
    exact tree'
  · cases read

theorem makesDoubles (fuel : Nat) : MakesDoubles strtod fuel := by
  induction fuel with
  | zero =>
    constructor
    · intro s v rest read
      cases read
    · intro s v rest read
      cases read
    · intro s items v rest _ read
      cases read
    · intro s v rest read
      cases read
    · intro s obj v rest _ read
      cases read
  | succ fuel ih =>
    constructor
    · intro s v rest read
      exact value_doubles ih read
    · intro s v rest read
      exact array_doubles ih read
    · intro s items v rest each read
      exact elements_doubles ih each read
    · intro s v rest read
      exact object_doubles ih read
    · intro s obj v rest tree read
      exact members_doubles ih tree read

theorem deserialize_doubles {buffer : Bytes} {contentLen : Nat}
    (read : dictDeserializeJson strtod buffer contentLen = .ok v) : Doubles v := by
  unfold dictDeserializeJson at read
  split at read
  · cases read
  dsimp only at read
  split at read
  · cases read
  rename_i first
  split at read
  · cases read
  · cases read
    exact (makesDoubles _).value _ _ _ first

/-- The integer that a value of a tree is, in whichever of the two ways. -/
def integerOf : DictValue → Option Int
  | .int64 n => some n.toInt
  | .number bits => Binary64.toInt? bits
  | _ => none

/-- A SRV object in the "dns" section, among the first 16 records of its name. -/
structure SrvObject (inet : InetPton) (root : DictValue) where
  namesBefore : Pairs
  key : Key
  rr : DictValue
  namesAfter : Pairs
  section_eq : dictObjectGet root (ascii "dns") =
    some (.object (namesBefore ++ (key, rr) :: namesAfter))
  itemsBefore : List DictValue
  item : DictValue
  itemsAfter : List DictValue
  items_eq : srvItems rr = itemsBefore ++ item :: itemsAfter
  place_lt : (recordsBeforeSrv inet rr ++ itemsBefore.filterMap srvRecord).length < MAX_DNS_RECORDS

/-- The target is valid, and the numbers are integers of 16 bits. -/
structure Given (item : DictValue) (priority weight port : UInt16) (target : Str) : Prop where
  priority : ∃ v, dictObjectGet item (ascii "priority") = some v ∧ integerOf v = some priority.toNat
  weight : ∃ v, dictObjectGet item (ascii "weight") = some v ∧ integerOf v = some weight.toNat
  port : ∃ v, dictObjectGet item (ascii "port") = some v ∧ integerOf v = some port.toNat
  named : dictObjectGet item (ascii "target") = some (.string target)
  valid : dnsValidHostname target.bytes

variable {inet : InetPton} {root : DictValue}

/-- The entries that the names before come to. -/
def SrvObject.entriesBefore (o : SrvObject inet root) : List DnsEntry :=
  loadEntries inet (defaultTtl root) o.namesBefore []

/-- The place of the record in its entry. -/
def SrvObject.place (o : SrvObject inet root) : Nat :=
  (recordsBeforeSrv inet o.rr ++ o.itemsBefore.filterMap srvRecord).length

/-- A question that gets the entry and asks for the record, with room for all its answers. -/
structure Asks (cfg : DnsConfig) (entry : DnsEntry) (rec : DnsRecord) (query : Bytes) (outmax : Nat)
    (qname : Bytes) (nameLength : Nat) (labels : List Bytes) (rest : Bytes) : Prop where
  small : outmax < 2 ^ 64
  answered : Answered query outmax qname nameLength
  named : questionName query = some (labels, rest)
  entry : entryFor query cfg qname (DNS_HDR_SIZE + nameLength) = some entry
  type : answers (at16 query (DNS_HDR_SIZE + nameLength)) rec = true
  fits : DNS_HDR_SIZE + nameLength + 4 + ((selected query cfg qname (DNS_HDR_SIZE + nameLength)).map
    fun rec => 12 + rdataSize rec.data).sum ≤ outmax

/-- There is an answer with the record in each response to a question that asks for it. -/
def Emits (cfg : DnsConfig) (entry : DnsEntry) (rec : DnsRecord) (priority weight port : UInt16)
    (target : Bytes) : Prop :=
  ∀ query outmax qname nameLength labels rest,
    Asks cfg entry rec query outmax qname nameLength labels rest →
      ∃ m, readMessage (dnsBuildResponse query cfg outmax).bytes = some m ∧
        ∃ answer ∈ m.answers, ∃ host,
          answer.rdata = .srv priority.toNat weight.toNat port.toNat host ∧ Denotes target host

/-- The record at the place of the object is loaded with these values, and sent. -/
def Keeps (o : SrvObject inet root) (priority weight port : UInt16) (target : Bytes) : Prop :=
  ∃ entry rec host, (loadDns inet root).entries[o.entriesBefore.length]? = some entry ∧
    entry.name.bytes = lower o.key.bytes ∧ entry.records[o.place]? = some rec ∧
    rec.data = .srv priority weight port host ∧ host.bytes = target ∧
    Emits (loadDns inet root) entry rec priority weight port target

theorem UInt16_ofInt (n : UInt16) : UInt16.ofInt n.toNat = n := by
  have small := n.toNat_lt
  rw [UInt16.ofInt, Int.emod_eq_of_lt (Int.natCast_nonneg _) (by omega), Int.toNat_natCast,
    UInt16.ofNat_toNat]

theorem numberToUInt16_integer {bits : UInt64} {n : UInt16}
    (integer : Binary64.toInt? bits = some (n.toNat : Int)) : numberToUInt16 bits = n := by
  have small := n.toNat_lt
  rw [numberToUInt16, Binary64.trunc_of_toInt? integer]
  dsimp only
  rw [if_pos (by omega), UInt16_ofInt]

/-- An integer of a tree of the reader is a double. -/
theorem integer_double {n : Int} (double : Doubles v) (integer : integerOf v = some n) :
    ∃ bits, v = .number bits ∧ Binary64.toInt? bits = some n := by
  cases double with
  | number bits => exact ⟨bits, rfl, integer⟩
  | _ => cases integer

/-- The defaults take the place of the priority and the weight. -/
theorem srvRecord_given {item : DictValue} {priority weight port : UInt16} {target : Str}
    (double : Doubles item) (given : Given item priority weight port target) :
    srvRecord item = some (.srv 0 100 port (hostName target)) := by
  obtain ⟨p, hasPriority, isPriority⟩ := given.priority
  obtain ⟨w, hasWeight, isWeight⟩ := given.weight
  obtain ⟨q, hasPort, isPort⟩ := given.port
  obtain ⟨_, rfl, _⟩ := integer_double (double.get hasPriority) isPriority
  obtain ⟨_, rfl, _⟩ := integer_double (double.get hasWeight) isWeight
  obtain ⟨bits, rfl, portBits⟩ := integer_double (double.get hasPort) isPort
  cases double with
  | object each =>
    rw [srvRecord]
    dsimp only
    rw [hasPriority, hasWeight, hasPort, given.named]
    dsimp only
    rw [if_pos given.valid]
    change some (DnsData.srv 0 100 (numberToUInt16 bits) _) = _
    rw [numberToUInt16_integer portBits]
  | _ => cases hasPort

variable {o : SrvObject inet root} {priority weight port : UInt16} {target : Str}

theorem SrvObject.rr_object (o : SrvObject inet root) : ∃ pairs, o.rr = .object pairs := by
  have some_item : srvItems o.rr ≠ [] := by
    rw [o.items_eq]
    exact List.append_ne_nil_of_right_ne_nil _ (List.cons_ne_nil _ _)
  cases same : o.rr with
  | object pairs => exact ⟨pairs, rfl⟩
  | _ =>
    rw [same] at some_item
    exact absurd rfl some_item

theorem SrvObject.item_double (o : SrvObject inet root) (double : Doubles root) :
    Doubles o.item := by
  have listed : o.item ∈ srvItems o.rr := by
    rw [o.items_eq]
    exact List.mem_append_right _ List.mem_cons_self
  have rr : Doubles o.rr := by
    cases double.get o.section_eq with
    | object each => exact each (o.key, o.rr) (List.mem_append_right _ List.mem_cons_self)
  unfold srvItems at listed
  cases found : dictObjectGet o.rr (ascii "SRV") with
  | none =>
    rw [found] at listed
    cases listed
  | some value =>
    have tree := rr.get found
    rw [found] at listed
    cases tree with
    | array each => exact each _ listed
    | _ =>
      rw [List.mem_singleton.mp listed]
      constructor <;> assumption

theorem SrvObject.record_found (o : SrvObject inet root) (double : Doubles root)
    (given : Given o.item priority weight port target) :
    (entryRecords inet (defaultTtl root) o.rr)[o.place]? =
      some ⟨.srv 0 100 port (hostName target), entryTtl (defaultTtl root) o.rr⟩ := by
  have made := srvRecord_given (o.item_double double) given
  have found : foundRecords inet o.rr =
      (recordsBeforeSrv inet o.rr ++ o.itemsBefore.filterMap srvRecord) ++
        (.srv 0 100 port (hostName target)) :: o.itemsAfter.filterMap srvRecord := by
    rw [foundRecords, o.items_eq, List.filterMap_append, List.filterMap_cons_some made,
      List.append_assoc]
  have inside : o.place < MAX_DNS_RECORDS := o.place_lt
  rw [entryRecords_eq, List.getElem?_take_of_lt inside, List.getElem?_map, found,
    SrvObject.place, List.getElem?_append_right (Nat.le_refl _), Nat.sub_self]
  rfl

theorem SrvObject.entriesBefore_eq (o : SrvObject inet root) :
    o.entriesBefore =
      (o.namesBefore.filterMap (loadEntry inet (defaultTtl root))).take MAX_DNS_ENTRIES :=
  loadEntries_eq _ [] (Nat.zero_le _)

theorem SrvObject.entries_eq (o : SrvObject inet root) :
    (loadDns inet root).entries =
      (o.namesBefore.filterMap (loadEntry inet (defaultTtl root)) ++
        ((loadEntry inet (defaultTtl root) (o.key, o.rr)).toList ++
          o.namesAfter.filterMap (loadEntry inet (defaultTtl root)))).take MAX_DNS_ENTRIES := by
  rw [loadDns, o.section_eq]
  dsimp only
  rw [loadEntries_eq _ [] (Nat.zero_le _), List.nil_append, List.filterMap_append,
    List.filterMap_cons]
  cases loadEntry inet (defaultTtl root) (o.key, o.rr) <;> rfl

/-- A name that is valid and has a place comes to an entry with the record. -/
theorem SrvObject.loaded (o : SrvObject inet root) (double : Doubles root)
    (given : Given o.item priority weight port target) (valid : dnsValidHostname o.key.bytes)
    (room : o.entriesBefore.length < MAX_DNS_ENTRIES) :
    ∃ entry rec, (loadDns inet root).entries[o.entriesBefore.length]? = some entry ∧
      entry.name.bytes = lower o.key.bytes ∧ entry.records[o.place]? = some rec ∧
      rec.data = .srv 0 100 port (hostName target) := by
  have record := o.record_found double given
  obtain ⟨pairs, object⟩ := o.rr_object
  cases made : loadEntry inet (defaultTtl root) (o.key, o.rr) with
  | none =>
    have some_record : entryRecords inet (defaultTtl root) o.rr ≠ [] := by
      intro empty
      rw [empty] at record
      cases record
    unfold loadEntry at made
    rw [object] at made some_record
    dsimp only at made
    rw [if_pos valid, if_neg some_record] at made
    cases made
  | some entry =>
    obtain ⟨_, name, records⟩ := loadEntry_some made
    refine ⟨entry, _, ?_, ?_, by rw [records]; exact record, rfl⟩
    · rw [o.entriesBefore_eq, List.length_take, Nat.min_def] at room ⊢
      split at room
      · exact absurd room (Nat.lt_irrefl _)
      · rename_i few
        rw [if_neg few, o.entries_eq, made, List.getElem?_take_of_lt room,
          List.getElem?_append_right (Nat.le_refl _), Nat.sub_self]
        rfl
    · rw [name, entryName_bytes valid]

theorem exists_related {α β : Type} {R : α → β → Prop} {as : List α} {bs : List β}
    (each : List.Forall₂ R as bs) {a : α} (listed : a ∈ as) : ∃ b ∈ bs, R a b := by
  induction each with
  | nil => cases listed
  | cons here _ ih =>
    rcases List.mem_cons.mp listed with rfl | listed
    · exact ⟨_, List.mem_cons_self, here⟩
    · obtain ⟨b, known, related⟩ := ih listed
      exact ⟨b, List.mem_cons_of_mem _ known, related⟩

/-- A record of a loaded configuration is in the answers to the questions that ask for it. -/
theorem emits_loaded {entry : DnsEntry} {rec : DnsRecord} {host : CString 256}
    (listed : rec ∈ entry.records) (data : rec.data = .srv priority weight port host) :
    Emits (loadDns inet root) entry rec priority weight port host.bytes := by
  intro query outmax qname nameLength labels rest asks
  have loaded := loadDns_loaded inet root
  have chosen : rec ∈ selected query (loadDns inet root) qname (DNS_HDR_SIZE + nameLength) := by
    rw [selected, asks.entry]
    exact List.mem_filter.mpr ⟨listed, asks.type⟩
  have valid : ∀ rec ∈ selected query (loadDns inet root) qname (DNS_HDR_SIZE + nameLength),
      Valid rec.data := by
    have known : entry ∈ (loadDns inet root).entries := by
      have found := asks.entry
      unfold entryFor at found
      split at found
      · exact List.mem_of_find?_eq_some found
      · cases found
    rw [selected, asks.entry]
    intro rec listed
    exact loaded.records entry known rec (List.mem_of_mem_filter listed)
  obtain ⟨room, each⟩ := placed_valid labels valid asks.fits
  obtain ⟨_, _, read⟩ := response_room asks.small asks.answered asks.named room
  rw [dnsBuildResponse_some asks.answered]
  refine ⟨_, read, ?_⟩
  obtain ⟨answer, sent, carries⟩ := exists_related each chosen
  refine ⟨answer, sent, ?_⟩
  have rdata := carries.rdata
  rw [data] at rdata
  cases value : answer.rdata with
  | srv priority' weight' port' labels' =>
    rw [value] at rdata
    obtain ⟨rfl, rfl, rfl, denotes⟩ := rdata
    exact ⟨labels', rfl, denotes⟩
  | _ =>
    rw [value] at rdata
    exact rdata.elim

/-- A SRV object keeps its numbers if and only if its name is loaded, the priority is 0 and the
weight is 100. -/
theorem srv_kept_iff (strtod : Strtod) (inet : InetPton) (buffer : Bytes) (contentLen : Nat)
    (root : DictValue) (read : dictDeserializeJson strtod buffer contentLen = .ok root)
    (o : SrvObject inet root) (priority weight port : UInt16) (target : Str)
    (given : Given o.item priority weight port target) :
    Keeps o priority weight port target.bytes ↔
      dnsValidHostname o.key.bytes ∧ o.entriesBefore.length < MAX_DNS_ENTRIES ∧
        priority = 0 ∧ weight = 100 := by
  have double := deserialize_doubles read
  constructor
  · rintro ⟨entry, rec, host, found, name, record, data, _, _⟩
    have known := List.mem_of_getElem? found
    have valid := (loadDns_loaded inet root).name entry known
    rw [name, lower_validHostname] at valid
    have room : o.entriesBefore.length < MAX_DNS_ENTRIES := by
      obtain ⟨inside, _⟩ := List.getElem?_eq_some_iff.mp found
      rw [o.entries_eq, List.length_take] at inside
      exact Nat.lt_of_lt_of_le inside (Nat.min_le_left _ _)
    obtain ⟨entry', rec', found', _, record', data'⟩ := o.loaded double given valid room
    rw [found] at found'
    cases found'
    rw [record] at record'
    cases record'
    rw [data] at data'
    cases data'
    exact ⟨valid, room, rfl, rfl⟩
  · rintro ⟨valid, room, rfl, rfl⟩
    obtain ⟨entry, rec, found, name, record, data⟩ := o.loaded double given valid room
    have bytes := hostName_bytes given.valid
    refine ⟨entry, rec, hostName target, found, name, record, data, bytes, ?_⟩
    rw [← bytes]
    exact emits_loaded (List.mem_of_getElem? record) data

/-- `strtod` on the numbers 0, 5, 7, 80 and 100. -/
def strtodFew : Strtod where
  value token :=
    if token = [53] then 0x4014000000000000
    else if token = [55] then 0x401C000000000000
    else if token = [56, 48] then 0x4054000000000000
    else if token = [49, 48, 48] then 0x4059000000000000
    else 0
  length := List.length

def noAddress : InetPton := ⟨fun _ => none, fun _ => none⟩

def sampleKey (name : Bytes) (nonempty : name ≠ []) (short : name.length < 16)
    (nonzero : 0 ∉ name) : Key := ⟨name, nonempty, short.trans (by decide), nonzero⟩

def sampleTarget : Str := ⟨[104], by decide, by decide, by decide⟩

def srvFields (p w : UInt64) : DictValue := .object
  [(sampleKey [112, 114, 105, 111, 114, 105, 116, 121] (by decide) (by decide) (by decide), .number p),
   (sampleKey [119, 101, 105, 103, 104, 116] (by decide) (by decide) (by decide), .number w),
   (sampleKey [112, 111, 114, 116] (by decide) (by decide) (by decide), .number 0x4054000000000000),
   (sampleKey [116, 97, 114, 103, 101, 116] (by decide) (by decide) (by decide), .string sampleTarget)]

def srvSection (p w : UInt64) : DictValue :=
  .object [(sampleKey [83, 82, 86] (by decide) (by decide) (by decide), srvFields p w)]

def srvRoot (p w : UInt64) : DictValue :=
  .object [(sampleKey [100, 110, 115] (by decide) (by decide) (by decide),
    .object [(sampleKey [115] (by decide) (by decide) (by decide), srvSection p w)])]

/-- `{"dns":{"s":{"SRV":{"priority":p,"weight":w,"port":80,"target":"h"}}}}` -/
def srvText (p w : Bytes) : Bytes :=
  [123, 34, 100, 110, 115, 34, 58, 123, 34, 115, 34, 58, 123, 34, 83, 82, 86, 34, 58, 123] ++
    ascii "\"priority\":" ++ p ++ ascii ",\"weight\":" ++ w ++
    ascii ",\"port\":80,\"target\":\"h\"" ++ [125, 125, 125, 125]

def srvSample (p w : UInt64) : SrvObject noAddress (srvRoot p w) where
  namesBefore := []
  key := sampleKey [115] (by decide) (by decide) (by decide)
  rr := srvSection p w
  namesAfter := []
  section_eq := rfl
  itemsBefore := []
  item := srvFields p w
  itemsAfter := []
  items_eq := rfl
  place_lt := Nat.zero_lt_succ 15

theorem srvSample_given {p w : UInt64} {priority weight : UInt16}
    (isPriority : Binary64.toInt? p = some (priority.toNat : Int))
    (isWeight : Binary64.toInt? w = some (weight.toNat : Int)) :
    Given (srvSample p w).item priority weight 80 sampleTarget := by
  constructor
  · exact ⟨_, rfl, isPriority⟩
  · exact ⟨_, rfl, isWeight⟩
  · exact ⟨_, rfl, by decide⟩
  · rfl
  · decide

theorem srv_kept_sample :
    Keeps (srvSample 0 0x4059000000000000) 0 100 80 sampleTarget.bytes := by
  have read : dictDeserializeJson strtodFew (srvText [48] [49, 48, 48]) 72 =
      .ok (srvRoot 0 0x4059000000000000) := by decide +kernel
  apply (srv_kept_iff strtodFew noAddress _ _ _ read (srvSample 0 0x4059000000000000) 0 100 80
    sampleTarget (srvSample_given (by decide) (by decide))).mpr
  exact ⟨by decide, by decide, rfl, rfl⟩

/-- The priority 5 and the weight 7 are lost. -/
theorem srv_not_kept : ¬∀ strtod inet buffer contentLen root,
    dictDeserializeJson strtod buffer contentLen = .ok root →
      ∀ (o : SrvObject inet root) priority weight port target,
        Given o.item priority weight port target → Keeps o priority weight port target.bytes := by
  intro kept
  have read : dictDeserializeJson strtodFew (srvText [53] [55]) 70 =
      .ok (srvRoot 0x4014000000000000 0x401C000000000000) := by decide +kernel
  have given : Given (srvSample 0x4014000000000000 0x401C000000000000).item 5 7 80 sampleTarget :=
    srvSample_given (by decide) (by decide)
  obtain ⟨entry, rec, host, found, _, record, data, _, _⟩ :=
    kept strtodFew noAddress _ _ _ read _ 5 7 80 sampleTarget given
  obtain ⟨entry', rec', found', _, record', data'⟩ :=
    SrvObject.loaded _ (deserialize_doubles read) given (by decide) (by decide)
  rw [found] at found'
  cases found'
  rw [record] at record'
  cases record'
  rw [data] at data'
  cases data'

end SrvRecords
