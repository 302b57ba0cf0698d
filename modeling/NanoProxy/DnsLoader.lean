import NanoProxy.DictValue
import NanoProxy.DnsAnswers
import NanoProxy.Lib.Binary64

/-!
# The DNS section of the configuration (include/config.h)

What `load_config` makes of the keys "dns" and "dns_ttl". `inet_pton` is the C library's. A
conversion of a double that does not fit is undefined in C; here it is what the machine does.
-/

namespace DnsLoader

open CLib Dict DnsResponder

def MAX_DNS_ENTRIES : Nat := 256

/-- `inet_pton` for `AF_INET` and `AF_INET6`. -/
structure InetPton where
  v4 : Bytes → Option (Address 4)
  v6 : Bytes → Option (Address 16)

/-- `(uint16_t)number_value` -/
def numberToUInt16 (bits : UInt64) : UInt16 :=
  match Binary64.trunc bits with
  | none => 0
  | some n => if -2 ^ 31 ≤ n ∧ n < 2 ^ 31 then UInt16.ofInt n else 0

/-- `(uint32_t)number_value` -/
def numberToUInt32 (bits : UInt64) : UInt32 :=
  match Binary64.trunc bits with
  | none => 0
  | some n => if -2 ^ 63 ≤ n ∧ n < 2 ^ 63 then UInt32.ofInt n else 0

def ttlOr (default : UInt32) : Option DictValue → UInt32
  | some (.int64 n) => n.toUInt64.toUInt32
  | some (.number bits) => numberToUInt32 bits
  | _ => default

def int64Or (default : UInt16) : Option DictValue → UInt16
  | some (.int64 n) => n.toUInt64.toUInt16
  | _ => default

def integerOr (default : UInt16) : Option DictValue → UInt16
  | some (.int64 n) => n.toUInt64.toUInt16
  | some (.number bits) => numberToUInt16 bits
  | _ => default

theorem all_nonzero {s : Bytes} (no_nul : 0 ∉ s) : s.all (· ≠ 0) = true := by
  rw [List.all_eq_true]
  intro b listed
  rw [decide_eq_true_iff]
  rintro rfl
  exact no_nul listed

/-- `strncpy` of `size - 1` bytes into a `char[size]` of zeros. -/
def strncpy (size : Nat) (room : 0 < size) (s : Str) : CString size where
  bytes := s.bytes.take (size - 1)
  length_lt := Nat.lt_of_le_of_lt (List.length_take_le _ _) (Nat.sub_lt room Nat.zero_lt_one)
  no_nul := all_nonzero fun nul => s.no_nul (List.mem_of_mem_take nul)

def hostName (s : Str) : CString 256 := strncpy 256 (by decide) s

/-- The name of an entry, in lower case. -/
def entryName (key : Key) : CString 256 where
  bytes := lower (key.bytes.take 255)
  length_lt := by
    rw [lower, List.length_map]
    exact Nat.lt_succ_of_le (List.length_take_le _ _)
  no_nul := by
    apply all_nonzero
    rw [DnsAnswers.lower_mem (Or.inl rfl)]
    exact fun nul => key.no_nul (List.mem_of_mem_take nul)

/-- A single value, or each element of an array. -/
def oneOrMany : Option DictValue → List DictValue
  | some (.array items) => items
  | value => value.toList

section Records

variable (inet : InetPton)

def aRecord : DictValue → Option DnsData
  | .string s => (inet.v4 s.bytes).map .a
  | _ => none

def aaaaRecord : DictValue → Option DnsData
  | .string s => (inet.v6 s.bytes).map .aaaa
  | _ => none

/-- A record with a host name and nothing else. -/
def hostRecord (record : CString 256 → DnsData) : DictValue → Option DnsData
  | .string s => if dnsValidHostname s.bytes then some (record (hostName s)) else none
  | _ => none

def cnameRecord : DictValue → Option DnsData := hostRecord .cname

def nsRecord : DictValue → Option DnsData := hostRecord .ns

def ptrRecord : DictValue → Option DnsData := hostRecord .ptr

def txtRecord : DictValue → Option DnsData
  | .string s => some (.txt (strncpy 512 (by decide) s))
  | _ => none

def mxRecord : DictValue → Option DnsData
  | .object pairs =>
    let get key := dictObjectGet (.object pairs) (ascii key)
    match get "host" with
    | some (.string host) =>
      if dnsValidHostname host.bytes
      then some (.mx (integerOr 10 (get "priority")) (hostName host)) else none
    | _ => none
  | _ => none

/-- The priority and the weight are read where they are `DICT_INT64`, the port also where it
is a `DICT_NUMBER`. -/
def srvRecord : DictValue → Option DnsData
  | .object pairs =>
    let get key := dictObjectGet (.object pairs) (ascii key)
    match get "target", get "port" with
    | some (.string target), some port =>
      if dnsValidHostname target.bytes
      then some (.srv (int64Or 0 (get "priority")) (int64Or 100 (get "weight"))
        (integerOr 0 (some port)) (hostName target))
      else none
    | _, _ => none
  | _ => none

/-- The records before SRV, in the order of the source. -/
def recordsBeforeSrv (rr : DictValue) : List DnsData :=
  let get key := dictObjectGet rr (ascii key)
  (oneOrMany (get "A")).filterMap (aRecord inet) ++
    (oneOrMany (get "AAAA")).filterMap (aaaaRecord inet) ++
    (get "CNAME").toList.filterMap cnameRecord ++
    (oneOrMany (get "NS")).filterMap nsRecord ++
    (get "PTR").toList.filterMap ptrRecord ++
    (oneOrMany (get "TXT")).filterMap txtRecord ++
    (oneOrMany (get "MX")).filterMap mxRecord

def srvItems (rr : DictValue) : List DictValue := oneOrMany (dictObjectGet rr (ascii "SRV"))

def foundRecords (rr : DictValue) : List DnsData :=
  recordsBeforeSrv inet rr ++ (srvItems rr).filterMap srvRecord

/-- `DNS_ADD_REC`: a record without a place is left out. -/
def addRecord (ttl : UInt32) (records : List DnsRecord) (data : DnsData) : List DnsRecord :=
  if records.length < MAX_DNS_RECORDS then records ++ [⟨data, ttl⟩] else records

theorem addRecords_eq (ttl : UInt32) (found : List DnsData) (records : List DnsRecord)
    (few : records.length ≤ MAX_DNS_RECORDS) :
    found.foldl (addRecord ttl) records =
      (records ++ found.map (DnsRecord.mk · ttl)).take MAX_DNS_RECORDS := by
  induction found generalizing records with
  | nil =>
    rw [List.map_nil, List.append_nil, List.take_of_length_le few]
    rfl
  | cons data found ih =>
    rw [List.foldl_cons, addRecord]
    split
    · rename_i room
      rw [ih _ (by rw [List.length_append]; exact room), List.map_cons, List.append_assoc]
      rfl
    · rename_i full
      have full : records.length = MAX_DNS_RECORDS := Nat.le_antisymm few (Nat.not_lt.mp full)
      rw [ih records few, List.take_left' full, List.take_left' full]

def entryTtl (defaultTtl : UInt32) (rr : DictValue) : UInt32 :=
  ttlOr defaultTtl ((dictObjectGet rr (ascii "TTL")).or (dictObjectGet rr (ascii "ttl")))

def entryRecords (defaultTtl : UInt32) (rr : DictValue) : List DnsRecord :=
  (foundRecords inet rr).foldl (addRecord (entryTtl defaultTtl rr)) []

theorem entryRecords_eq (defaultTtl : UInt32) (rr : DictValue) :
    entryRecords inet defaultTtl rr =
      ((foundRecords inet rr).map (DnsRecord.mk · (entryTtl defaultTtl rr))).take MAX_DNS_RECORDS :=
  addRecords_eq _ _ [] (Nat.zero_le _)

/-- What a pair of the section comes to; none if it is skipped or has no record. -/
def loadEntry (defaultTtl : UInt32) (pair : Key × DictValue) : Option DnsEntry :=
  match pair.2 with
  | .object _ =>
    if dnsValidHostname pair.1.bytes then
      if entryRecords inet defaultTtl pair.2 = [] then none
      else some
        { name := entryName pair.1
          records := entryRecords inet defaultTtl pair.2
          records_le := by
            rw [entryRecords_eq]
            exact List.length_take_le _ _ }
    else none
  | _ => none

def loadEntries (defaultTtl : UInt32) : Pairs → List DnsEntry → List DnsEntry
  | [], entries => entries
  | pair :: pairs, entries =>
    if entries.length < MAX_DNS_ENTRIES then
      loadEntries defaultTtl pairs (entries ++ (loadEntry inet defaultTtl pair).toList)
    else entries

def defaultTtl (root : DictValue) : UInt32 := ttlOr 300 (dictObjectGet root (ascii "dns_ttl"))

/-- `cfg->dns` -/
def loadDns (root : DictValue) : DnsConfig :=
  match dictObjectGet root (ascii "dns") with
  | some (.object pairs) => ⟨loadEntries inet (defaultTtl root) pairs []⟩
  | _ => ⟨[]⟩

end Records

variable {inet : InetPton} {ttl : UInt32}

/-- The entries that the pairs come to, as many as have a place. -/
theorem loadEntries_eq (pairs : Pairs) (entries : List DnsEntry)
    (few : entries.length ≤ MAX_DNS_ENTRIES) :
    loadEntries inet ttl pairs entries =
      (entries ++ pairs.filterMap (loadEntry inet ttl)).take MAX_DNS_ENTRIES := by
  induction pairs generalizing entries with
  | nil =>
    rw [List.filterMap_nil, List.append_nil, List.take_of_length_le few]
    rfl
  | cons pair pairs ih =>
    rw [loadEntries]
    split
    · rename_i room
      have next : (entries ++ (loadEntry inet ttl pair).toList).length ≤ MAX_DNS_ENTRIES := by
        rw [List.length_append]
        cases loadEntry inet ttl pair with
        | none => exact few
        | some entry => exact room
      rw [ih _ next, List.append_assoc, List.filterMap_cons]
      cases loadEntry inet ttl pair <;> rfl
    · rename_i full
      have full : entries.length = MAX_DNS_ENTRIES := Nat.le_antisymm few (Nat.not_lt.mp full)
      rw [List.take_left' full]

theorem loadEntry_some {pair : Key × DictValue} {entry : DnsEntry}
    (loaded : loadEntry inet ttl pair = some entry) :
    dnsValidHostname pair.1.bytes ∧ entry.name = entryName pair.1 ∧
      entry.records = entryRecords inet ttl pair.2 := by
  unfold loadEntry at loaded
  split at loaded
  · split at loaded
    · rename_i valid
      split at loaded
      · cases loaded
      · cases loaded
        exact ⟨valid, rfl, rfl⟩
    · cases loaded
  · cases loaded

theorem validHostname_length {name : Bytes} (valid : dnsValidHostname name) :
    name.length ≤ 253 := by
  simp only [dnsValidHostname, Bool.and_eq_true, decide_eq_true_eq] at valid
  exact valid.1.2

/-- A valid name is copied whole. -/
theorem hostName_bytes {s : Str} (valid : dnsValidHostname s.bytes) :
    (hostName s).bytes = s.bytes :=
  List.take_of_length_le ((validHostname_length valid).trans (by decide))

theorem entryName_bytes {key : Key} (valid : dnsValidHostname key.bytes) :
    (entryName key).bytes = lower key.bytes := by
  have whole : key.bytes.take 255 = key.bytes :=
    List.take_of_length_le ((validHostname_length valid).trans (by decide))
  change lower (key.bytes.take 255) = _
  rw [whole]

theorem lower_splitOn (name : Bytes) :
    (lower name).splitOn DOT = (name.splitOn DOT).map lower := by
  have dot (c : UInt8) : (tolower c == DOT) = (c == DOT) := by
    simpa using forall_byte (p := fun c => (tolower c == DOT) == (c == DOT)) (by decide +kernel) c
  induction name with
  | nil => rfl
  | cons c name ih =>
    change (tolower c :: lower name).splitOn DOT = _
    rw [List.splitOn_cons_eq_if_modifyHead, List.splitOn_cons_eq_if_modifyHead, dot, ih]
    split
    · rfl
    · cases name.splitOn DOT <;> rfl

theorem lower_validLabel (label : Bytes) : validLabel (lower label) = validLabel label := by
  have hyphen (c : UInt8) : (tolower c = 45) = (c = 45) := by
    simpa using forall_byte (p := fun c => decide (tolower c = 45) == decide (c = 45))
      (by decide +kernel) c
  have host (c : UInt8) : hostByte (tolower c) = hostByte c := by
    simpa using forall_byte (p := fun c => hostByte (tolower c) == hostByte c)
      (by decide +kernel) c
  have last (first : Option UInt8) : (first.map tolower = some 45) = (first = some 45) := by
    cases first with
    | none => rfl
    | some c => simpa using hyphen c
  simp only [validLabel, lower, List.length_map, List.head?_map, List.getLast?_map, ne_eq, last,
    List.all_map, Function.comp_def, host]

/-- The check does not mind the case. -/
theorem lower_validHostname (name : Bytes) : dnsValidHostname (lower name) = dnsValidHostname name := by
  have labels : nameLabels (lower name) = (nameLabels name).map lower := by
    unfold nameLabels
    have root : ((name.splitOn DOT).map lower).getLast? = some [] ↔
        (name.splitOn DOT).getLast? = some [] := by
      rw [List.getLast?_map, Option.map_eq_some_iff]
      constructor
      · rintro ⟨label, last, empty⟩
        rw [last, List.map_eq_nil_iff.mp empty]
      · exact fun last => ⟨[], last, rfl⟩
    simp only [lower_splitOn, root]
    split
    · exact List.map_dropLast.symm
    · rfl
  have empty : lower name ≠ [] ↔ name ≠ [] := not_congr List.map_eq_nil_iff
  simp only [dnsValidHostname, labels, empty, List.all_map, Function.comp_def, lower_validLabel]
  rw [lower, List.length_map]

theorem hostRecord_valid {record : CString 256 → DnsData} {value : DictValue} {data : DnsData}
    (kept : ∀ host, dnsValidHostname host.bytes → DnsAnswers.Valid (record host))
    (found : hostRecord record value = some data) : DnsAnswers.Valid data := by
  unfold hostRecord at found
  split at found
  · rename_i s
    split at found
    · rename_i valid
      cases found
      apply kept
      rw [hostName_bytes valid]
      exact valid
    · cases found
  · cases found

theorem txtRecord_valid {value : DictValue} {data : DnsData} (found : txtRecord value = some data) :
    DnsAnswers.Valid data := by
  unfold txtRecord at found
  split at found
  · rename_i s
    cases found
    intro empty
    rcases List.take_eq_nil_iff.mp empty with zero | empty
    · cases zero
    · exact s.nonempty empty
  · cases found

theorem mxRecord_valid {value : DictValue} {data : DnsData} (found : mxRecord value = some data) :
    DnsAnswers.Valid data := by
  unfold mxRecord at found
  split at found
  · dsimp only at found
    split at found
    · split at found
      · rename_i valid
        cases found
        change dnsValidHostname (hostName _).bytes
        rw [hostName_bytes valid]
        exact valid
      · cases found
    · cases found
  · cases found

theorem srvRecord_valid {value : DictValue} {data : DnsData} (found : srvRecord value = some data) :
    DnsAnswers.Valid data := by
  unfold srvRecord at found
  split at found
  · dsimp only at found
    split at found
    · split at found
      · rename_i valid
        cases found
        change dnsValidHostname (hostName _).bytes
        rw [hostName_bytes valid]
        exact valid
      · cases found
    · cases found
  · cases found

theorem foundRecords_valid {rr : DictValue} {data : DnsData} (listed : data ∈ foundRecords inet rr) :
    DnsAnswers.Valid data := by
  simp only [foundRecords, recordsBeforeSrv, List.mem_append, List.mem_filterMap] at listed
  rcases listed with ((((((⟨value, _, found⟩ | ⟨value, _, found⟩) | ⟨value, _, found⟩) |
    ⟨value, _, found⟩) | ⟨value, _, found⟩) | ⟨value, _, found⟩) | ⟨value, _, found⟩) |
    ⟨value, _, found⟩
  · unfold aRecord at found
    split at found
    · obtain ⟨address, _, rfl⟩ := Option.map_eq_some_iff.mp found
      trivial
    · cases found
  · unfold aaaaRecord at found
    split at found
    · obtain ⟨address, _, rfl⟩ := Option.map_eq_some_iff.mp found
      trivial
    · cases found
  · refine hostRecord_valid ?_ found
    exact fun _ valid => valid
  · refine hostRecord_valid ?_ found
    exact fun _ valid => valid
  · refine hostRecord_valid ?_ found
    exact fun _ valid => valid
  · exact txtRecord_valid found
  · exact mxRecord_valid found
  · exact srvRecord_valid found

theorem loadEntry_valid {pair : Key × DictValue} {entry : DnsEntry}
    (loaded : loadEntry inet ttl pair = some entry) :
    dnsValidHostname entry.name.bytes ∧ lower entry.name.bytes = entry.name.bytes ∧
      ∀ rec ∈ entry.records, DnsAnswers.Valid rec.data := by
  obtain ⟨valid, name, records⟩ := loadEntry_some loaded
  rw [name, entryName_bytes valid, records, entryRecords_eq]
  refine ⟨by rwa [lower_validHostname], ?_, fun rec listed => ?_⟩
  · exact lower_lower _
  · obtain ⟨data, found, rfl⟩ := List.mem_map.mp (List.mem_of_mem_take listed)
    exact foundRecords_valid found

/-- Whatever the configuration says, what is loaded of it is as the responder needs it. -/
theorem loadDns_loaded (inet : InetPton) (root : DictValue) :
    DnsAnswers.Loaded (loadDns inet root) := by
  have each : ∀ entry ∈ (loadDns inet root).entries,
      ∃ pair, loadEntry inet (defaultTtl root) pair = some entry := by
    unfold loadDns
    split
    · rename_i pairs _
      intro entry listed
      change entry ∈ loadEntries _ _ _ _ at listed
      rw [loadEntries_eq pairs [] (Nat.zero_le _)] at listed
      obtain ⟨pair, _, loaded⟩ := List.mem_filterMap.mp (List.mem_of_mem_take listed)
      exact ⟨pair, loaded⟩
    · exact List.forall_mem_nil _
  constructor
  · intro entry listed
    obtain ⟨pair, loaded⟩ := each entry listed
    exact (loadEntry_valid loaded).1
  · intro entry listed
    obtain ⟨pair, loaded⟩ := each entry listed
    exact (loadEntry_valid loaded).2.1
  · intro entry listed
    obtain ⟨pair, loaded⟩ := each entry listed
    exact (loadEntry_valid loaded).2.2

end DnsLoader
