import NanoProxy.DnsResponder

/-!
# What the DNS responder writes, and how it reads

`rdataBytes` says which RDATA a record gets when `room` bytes are left for it, and
`rdataOf` what a resolver finds there.
-/

namespace DnsEncoding

open CLib DnsMessage DnsResponder

variable {outmax room : Nat} {o : Out} {msg rest : Bytes}

theorem dnsPut16_eq (val : UInt16) : dnsPut16 val = put16 val.toNat := by
  have hi : (val >>> 8).toUInt8 = UInt8.ofNat (val.toNat / 256) := by
    apply UInt8.toNat_inj.mp
    rw [UInt16.toNat_toUInt8, UInt16.toNat_shiftRight, UInt8.toNat_ofNat']
    exact congrArg (· % 256) (Nat.shiftRight_eq_div_pow val.toNat 8)
  have lo : (val &&& 0xFF).toUInt8 = UInt8.ofNat val.toNat := by
    apply UInt8.toNat_inj.mp
    rw [UInt16.toNat_toUInt8, UInt16.toNat_and, UInt8.toNat_ofNat']
    have mask : val.toNat &&& 255 = val.toNat % 2 ^ 8 := Nat.and_two_pow_sub_one_eq_mod _ 8
    change (val.toNat &&& 255) % 2 ^ 8 = _
    rw [mask, Nat.mod_mod]
  rw [dnsPut16, put16, hi, lo]

/-- One byte of a 32 bit value. -/
theorem byte32 (val s : UInt32) (small : s.toNat < 32) :
    ((val >>> s) &&& 0xFF).toUInt8 = UInt8.ofNat (val.toNat / 2 ^ s.toNat) := by
  apply UInt8.toNat_inj.mp
  rw [UInt32.toNat_toUInt8, UInt32.toNat_and, UInt32.toNat_shiftRight, UInt8.toNat_ofNat',
    Nat.mod_eq_of_lt small, Nat.shiftRight_eq_div_pow]
  have mask : (val.toNat / 2 ^ s.toNat) &&& 255 = val.toNat / 2 ^ s.toNat % 2 ^ 8 :=
    Nat.and_two_pow_sub_one_eq_mod _ 8
  change ((val.toNat / 2 ^ s.toNat) &&& 255) % 2 ^ 8 = _
  rw [mask, Nat.mod_mod]

theorem dnsPut32_eq (val : UInt32) : dnsPut32 val = put32 val.toNat := by
  have b₃ : (val >>> 24).toUInt8 = UInt8.ofNat (val.toNat / 65536 / 256) := by
    apply UInt8.toNat_inj.mp
    rw [UInt32.toNat_toUInt8, UInt32.toNat_shiftRight, UInt8.toNat_ofNat', Nat.div_div_eq_div_mul]
    exact congrArg (· % 2 ^ 8) (Nat.shiftRight_eq_div_pow val.toNat 24)
  have b₂ : ((val >>> 16) &&& 0xFF).toUInt8 = UInt8.ofNat (val.toNat / 65536) :=
    byte32 val 16 (by decide)
  have b₁ : ((val >>> 8) &&& 0xFF).toUInt8 = UInt8.ofNat (val.toNat / 256) :=
    byte32 val 8 (by decide)
  have b₀ : (val &&& 0xFF).toUInt8 = UInt8.ofNat val.toNat := by
    have shifted := byte32 val 0 (by decide)
    rwa [UInt32.shiftRight_zero, UInt32.toNat_zero, pow_zero, Nat.div_one] at shifted
  rw [dnsPut32, put32, put16, put16, b₃, b₂, b₁, b₀]
  rfl

theorem at16_toNat (buf : Bytes) (off : Nat) :
    (at16 buf off).toNat = (buf.getD off 0).toNat * 256 + (buf.getD (off + 1) 0).toNat := by
  have hi := (buf.getD off 0).toNat_lt
  have lo := (buf.getD (off + 1) 0).toNat_lt
  have shifted : ((buf.getD off 0).toUInt16 <<< 8).toNat = (buf.getD off 0).toNat * 256 := by
    rw [UInt16.toNat_shiftLeft, UInt8.toNat_toUInt16]
    change (buf.getD off 0).toNat <<< 8 % 2 ^ 16 = _
    rw [Nat.shiftLeft_eq]
    omega
  rw [at16, UInt16.toNat_or, shifted, UInt8.toNat_toUInt16]
  have split := Nat.shiftLeft_add_eq_or_of_lt (i := 8) lo (buf.getD off 0).toNat
  rw [Nat.shiftLeft_eq] at split
  exact split.symm

theorem get16_drop (buf : Bytes) (off : Nat) (inside : off + 2 ≤ buf.length) :
    get16 (buf.drop off) = some ((at16 buf off).toNat, buf.drop (off + 2)) := by
  have first : off < buf.length := by omega
  have second : off + 1 < buf.length := by omega
  rw [at16_toNat, List.drop_eq_getElem_cons first, List.drop_eq_getElem_cons second, get16]
  simp [List.getD, first, second]

/-- The bytes of a host name, if `room` bytes are enough. -/
def nameBytes (room : Nat) (host : Bytes) : Option Bytes :=
  if LabelsValid (nameLabels host) ∧ (putLabels (nameLabels host)).length ≤ room
  then some (putLabels (nameLabels host)) else none

theorem encodeLoop_eq (dstlen : Nat) (labels : List Bytes) (dst : Bytes) :
    (∃ n, encodeLoop dstlen labels dst = .error n ∧
      ¬(LabelsValid labels ∧ dst.length + (putLabels labels).length ≤ dstlen)) ∨
    (encodeLoop dstlen labels dst = .ok (dst ++ putLabels labels) ∧
      LabelsValid labels ∧ dst.length + (putLabels labels).length ≤ dstlen) := by
  induction labels generalizing dst with
  | nil =>
    rw [encodeLoop]
    split
    · rename_i full
      refine Or.inl ⟨_, rfl, fun ⟨_, fits⟩ => ?_⟩
      have one : (putLabels []).length = 1 := rfl
      omega
    · rename_i room
      exact Or.inr ⟨rfl, (fun _ listed => nomatch listed), Nat.lt_of_not_le room⟩
  | cons label labels ih =>
    rw [encodeLoop]
    have longer : dst.length + (putLabels (label :: labels)).length =
        (dst ++ UInt8.ofNat label.length :: label).length + (putLabels labels).length := by
      rw [putLabels_cons]
      simp only [List.length_cons, List.length_append]
      omega
    have root := length_lt_putLabels labels
    split
    · rename_i bad
      refine Or.inl ⟨_, rfl, fun ⟨valid, fits⟩ => ?_⟩
      obtain ⟨nonempty, short⟩ := valid label List.mem_cons_self
      have positive := List.length_pos_iff.mpr nonempty
      rw [longer] at fits
      simp only [List.length_append, List.length_cons] at fits
      omega
    · rename_i good
      simp only [not_or, Nat.not_lt, Nat.not_le] at good
      obtain ⟨nonempty, short, room⟩ := good
      have here : label ≠ [] ∧ label.length ≤ 63 :=
        ⟨List.length_pos_iff.mp (Nat.pos_of_ne_zero nonempty), short⟩
      rcases ih (dst ++ UInt8.ofNat label.length :: label) with ⟨n, failed, bad⟩ | ⟨done, valid, fits⟩
      · refine Or.inl ⟨n, failed, fun ⟨valid, fits⟩ => bad ⟨?_, longer ▸ fits⟩⟩
        exact (List.forall_mem_cons.mp valid).2
      · refine Or.inr ⟨?_, List.forall_mem_cons.mpr ⟨here, valid⟩, longer ▸ fits⟩
        rw [done, putLabels_cons, List.append_assoc, List.cons_append]

/-- `dns_encode_name` writes the whole name or fails. -/
theorem dnsEncodeName_eq (host : Bytes) (dstlen : Nat) :
    match nameBytes dstlen host with
    | some bytes => dnsEncodeName host dstlen = .ok bytes
    | none => ∃ n, dnsEncodeName host dstlen = .error n := by
  unfold nameBytes dnsEncodeName
  rcases encodeLoop_eq dstlen (nameLabels host) [] with ⟨n, failed, bad⟩ | ⟨done, valid, room⟩
  · rw [if_neg (by simpa using bad)]
    exact ⟨n, failed⟩
  · rw [if_pos ⟨valid, by simpa using room⟩]
    exact done

theorem nameBytes_some {host bytes : Bytes} (enough : nameBytes room host = some bytes) :
    bytes = putLabels (nameLabels host) ∧ LabelsValid (nameLabels host) ∧
      bytes.length ≤ room := by
  unfold nameBytes at enough
  split at enough
  · rename_i fits
    cases enough
    exact ⟨rfl, fits⟩
  · cases enough

theorem usub_room (small : outmax < 2 ^ 64) (left : o.pos + room = outmax) :
    usub outmax o.pos = room := by
  unfold usub
  omega

theorem putName_some {host bytes : Bytes} (small : outmax < 2 ^ 64)
    (left : o.pos + room = outmax) (enough : nameBytes room host = some bytes) :
    putName outmax host o = o.put bytes := by
  have encoded := dnsEncodeName_eq host room
  rw [enough] at encoded
  rw [putName, usub_room small left, encoded]

theorem putName_none {host : Bytes} (small : outmax < 2 ^ 64) (left : o.pos + room = outmax)
    (short : nameBytes room host = none) : (putName outmax host o).bytes = o.bytes := by
  have encoded := dnsEncodeName_eq host room
  rw [short] at encoded
  obtain ⟨n, failed⟩ := encoded
  rw [putName, usub_room small left, failed]
  rfl

@[simp] theorem put_bytes (o : Out) (bytes : Bytes) : (o.put bytes).bytes = o.bytes ++ bytes := rfl

@[simp] theorem put_pos (o : Out) (bytes : Bytes) : (o.put bytes).pos = o.pos + bytes.length :=
  List.length_append

theorem put_put (o : Out) (first last : Bytes) :
    (o.put first).put last = o.put (first ++ last) := by
  simp only [Out.put, Out.pos, List.append_assoc, List.length_append, Out.mk.injEq, true_and]
  omega

/-- The strings of a TXT record. -/
def textChunks (text : Bytes) : List Bytes := txtChunks text.length text

/-- The first chunks, as many as go into `room` bytes. -/
def fitting : Nat → List Bytes → List Bytes
  | _, [] => []
  | room, chunk :: chunks =>
    if 1 + chunk.length ≤ room then chunk :: fitting (room - (1 + chunk.length)) chunks else []

def rdataBytes (room : Nat) : DnsData → Option Bytes
  | .a address => if 4 ≤ room then some address.bytes else none
  | .aaaa address => if 16 ≤ room then some address.bytes else none
  | .ns host => nameBytes room host.bytes
  | .cname host => nameBytes room host.bytes
  | .ptr host => nameBytes room host.bytes
  | .mx priority host => (nameBytes (room - 2) host.bytes).map (put16 priority.toNat ++ ·)
  | .txt text =>
    if fitting room (textChunks text.bytes) = [] then none
    else some (putStrings (fitting room (textChunks text.bytes)))
  | .srv priority weight port target => (nameBytes (room - 6) target.bytes).map
      (put16 priority.toNat ++ put16 weight.toNat ++ put16 port.toNat ++ ·)
  | .soa => none

def rdataOf (room : Nat) : DnsData → RData
  | .a address => .a address.bytes
  | .aaaa address => .aaaa address.bytes
  | .ns host => .name (nameLabels host.bytes)
  | .cname host => .name (nameLabels host.bytes)
  | .ptr host => .name (nameLabels host.bytes)
  | .mx priority host => .mx priority.toNat (nameLabels host.bytes)
  | .txt text => .txt (fitting room (textChunks text.bytes))
  | .srv priority weight port target =>
    .srv priority.toNat weight.toNat port.toNat (nameLabels target.bytes)
  | .soa => .other []

theorem txtChunks_le (fuel : Nat) (text : Bytes) : ∀ chunk ∈ txtChunks fuel text, chunk.length ≤ 255 := by
  induction fuel generalizing text with
  | zero => exact fun _ listed => nomatch listed
  | succ fuel ih =>
    rw [txtChunks]
    split
    · exact fun _ listed => nomatch listed
    · exact List.forall_mem_cons.mpr ⟨List.length_take_le 255 text, ih _⟩

theorem fitting_sublist (room : Nat) (chunks : List Bytes) :
    (fitting room chunks).Sublist chunks := by
  induction chunks generalizing room with
  | nil => exact .slnil
  | cons chunk chunks ih =>
    rw [fitting]
    split
    · exact (ih _).cons_cons chunk
    · exact List.nil_sublist _

theorem fitting_length (room : Nat) (chunks : List Bytes) :
    (putStrings (fitting room chunks)).length ≤ room := by
  induction chunks generalizing room with
  | nil => exact Nat.zero_le _
  | cons chunk chunks ih =>
    rw [fitting]
    split
    · have rest := ih (room - (1 + chunk.length))
      rw [putStrings_cons, List.length_cons, List.length_append]
      omega
    · exact Nat.zero_le _

theorem putChunks_eq (chunks : List Bytes) (left : o.pos + room = outmax) :
    putChunks outmax chunks o = if fitting room chunks = [] then o
      else o.put (putStrings (fitting room chunks)) := by
  induction chunks generalizing o room with
  | nil => rfl
  | cons chunk chunks ih =>
    rw [putChunks, fitting]
    by_cases fits : 1 + chunk.length ≤ room
    · have left' : (o.put (UInt8.ofNat chunk.length :: chunk)).pos +
          (room - (1 + chunk.length)) = outmax := by
        rw [put_pos, List.length_cons]
        omega
      rw [if_neg (by omega), if_pos fits, if_neg (List.cons_ne_nil _ _), ih left', putStrings_cons]
      split
      · rename_i none
        rw [none]
        simp [putStrings]
      · rw [put_put]
        rfl
    · rw [if_pos (by omega), if_neg fits, if_pos rfl]

/-- The RDATA of a record that gets its place. -/
theorem putRData_some {data : DnsData} {rdata : Bytes} (small : outmax < 2 ^ 64)
    (left : o.pos + room = outmax) (enough : rdataBytes room data = some rdata) :
    putRData outmax data o = o.put rdata := by
  cases data with
  | a address =>
    rw [rdataBytes] at enough
    split at enough
    · cases enough
      exact if_neg (by omega)
    · cases enough
  | aaaa address =>
    rw [rdataBytes] at enough
    split at enough
    · cases enough
      exact if_neg (by omega)
    · cases enough
  | ns host => exact putName_some small left enough
  | cname host => exact putName_some small left enough
  | ptr host => exact putName_some small left enough
  | soa => cases enough
  | mx priority host =>
    obtain ⟨name, named, rfl⟩ := Option.map_eq_some_iff.mp enough
    obtain ⟨rfl, _, fits⟩ := nameBytes_some named
    have root := length_lt_putLabels (nameLabels host.bytes)
    have left' : (o.put (dnsPut16 priority)).pos + (room - 2) = outmax := by
      rw [put_pos, dnsPut16_eq, put16_length]
      omega
    rw [putRData, if_neg (by omega), putName_some small left' named, put_put, dnsPut16_eq]
  | txt text =>
    rw [rdataBytes] at enough
    split at enough
    · cases enough
    · rename_i fits
      cases enough
      exact (putChunks_eq _ left).trans (if_neg fits)
  | srv priority weight port target =>
    obtain ⟨name, named, rfl⟩ := Option.map_eq_some_iff.mp enough
    obtain ⟨rfl, _, fits⟩ := nameBytes_some named
    have root := length_lt_putLabels (nameLabels target.bytes)
    have left' : (o.put (dnsPut16 priority ++ dnsPut16 weight ++ dnsPut16 port)).pos +
        (room - 6) = outmax := by
      simp only [put_pos, dnsPut16_eq, put16_length, List.length_append]
      omega
    rw [putRData, if_neg (by omega), putName_some small left' named, put_put, dnsPut16_eq,
      dnsPut16_eq, dnsPut16_eq]

theorem readRData_put {data : DnsData} {rdata : Bytes} (enough : rdataBytes room data = some rdata)
    (msg rest : Bytes) :
    readRData msg (rdata ++ rest) data.rtype.toNat rdata.length = some (rdataOf room data) := by
  have left : (rdata ++ rest).length - rdata.length = rest.length := by
    rw [List.length_append, Nat.add_sub_cancel_left]
  have named {host : CString 256} (found : nameBytes room host.bytes = some rdata) :
      readLastName msg (rdata ++ rest) rest.length = some (nameLabels host.bytes) := by
    obtain ⟨rfl, valid, _⟩ := nameBytes_some found
    exact readLastName_put valid msg rest
  cases data with
  | a address =>
    rw [rdataBytes] at enough
    split at enough
    · cases enough
      change (if address.bytes.length = 4 then some (RData.a _) else none) = _
      rw [if_pos address.length_eq, List.take_left' address.length_eq]
      rfl
    · cases enough
  | aaaa address =>
    rw [rdataBytes] at enough
    split at enough
    · cases enough
      change (if address.bytes.length = 16 then some (RData.aaaa _) else none) = _
      rw [if_pos address.length_eq, List.take_left' address.length_eq]
      rfl
    · cases enough
  | ns host =>
    change (readLastName msg _ _).map RData.name = _
    rw [left, named enough]
    rfl
  | cname host =>
    change (readLastName msg _ _).map RData.name = _
    rw [left, named enough]
    rfl
  | ptr host =>
    change (readLastName msg _ _).map RData.name = _
    rw [left, named enough]
    rfl
  | soa => cases enough
  | mx priority host =>
    obtain ⟨name, found, rfl⟩ := Option.map_eq_some_iff.mp enough
    obtain ⟨rfl, valid, _⟩ := nameBytes_some found
    change (get16 _ >>= fun _ => _) = _
    rw [left, List.append_assoc, get16_put16 priority.toNat_lt, Option.bind_eq_bind,
      Option.bind_some]
    dsimp only
    rw [readLastName_put valid]
    rfl
  | txt text =>
    rw [rdataBytes] at enough
    split at enough
    · cases enough
    rename_i some_string
    cases enough
    have short : ∀ s ∈ fitting room (textChunks text.bytes), s.length ≤ 255 :=
      fun s listed => txtChunks_le _ _ s ((fitting_sublist room _).subset listed)
    have enough : (fitting room (textChunks text.bytes)).length ≤
        (putStrings (fitting room (textChunks text.bytes))).length := by
      generalize fitting room (textChunks text.bytes) = strings
      induction strings with
      | nil => exact Nat.zero_le _
      | cons string strings ih =>
        rw [putStrings_cons, List.length_cons, List.length_cons, List.length_append]
        omega
    change (readStrings _ _ >>= fun _ => _) = _
    rw [List.take_left, readStrings_put short enough, Option.bind_eq_bind, Option.bind_some,
      if_neg some_string]
    rfl
  | srv priority weight port target =>
    obtain ⟨name, found, rfl⟩ := Option.map_eq_some_iff.mp enough
    obtain ⟨rfl, valid, _⟩ := nameBytes_some found
    change (get16 _ >>= fun _ => _) = _
    rw [left]
    simp only [List.append_assoc, get16_put16 priority.toNat_lt, get16_put16 weight.toNat_lt,
      get16_put16 port.toNat_lt, Option.bind_eq_bind, Option.bind_some, readLastName_put valid]
    rfl

/-- A record that does not get its place leaves RDATA that nobody can read. -/
theorem putRData_none {data : DnsData} (small : outmax < 2 ^ 64) (left : o.pos + room = outmax)
    (short : rdataBytes room data = none) : ∃ rdata, rdata.length ≤ 6 ∧
      (putRData outmax data o).bytes = o.bytes ++ rdata ∧
      ∀ msg rest, readRData msg (rdata ++ rest) data.rtype.toNat rdata.length = none := by
  have nameless {host : CString 256} (missing : nameBytes room host.bytes = none)
      (type : Nat) (names : ∀ msg rest : Bytes,
        readRData msg rest type 0 = (readLastName msg rest (rest.length - 0)).map RData.name) :
      ∃ rdata : Bytes, rdata.length ≤ 6 ∧
        (putName outmax host.bytes o).bytes = o.bytes ++ rdata ∧
        ∀ msg rest, readRData msg (rdata ++ rest) type rdata.length = none := by
    refine ⟨[], Nat.zero_le _, ?_, fun msg rest => ?_⟩
    · rw [putName_none small left missing, List.append_nil]
    · change readRData msg rest type 0 = none
      rw [names, Nat.sub_zero, readLastName_short (Nat.le_refl _)]
      rfl
  cases data with
  | a address =>
    rw [rdataBytes] at short
    split at short
    · cases short
    refine ⟨[], Nat.zero_le _, ?_, fun _ _ => rfl⟩
    rw [putRData, if_pos (by omega), List.append_nil]
  | aaaa address =>
    rw [rdataBytes] at short
    split at short
    · cases short
    refine ⟨[], Nat.zero_le _, ?_, fun _ _ => rfl⟩
    rw [putRData, if_pos (by omega), List.append_nil]
  | ns host => exact nameless short 2 fun _ _ => rfl
  | cname host => exact nameless short 5 fun _ _ => rfl
  | ptr host => exact nameless short 12 fun _ _ => rfl
  | soa =>
    refine ⟨[], Nat.zero_le _, (List.append_nil _).symm, fun msg rest => ?_⟩
    exact readRData_soa_short (Nat.zero_le 20)
  | mx priority host =>
    rw [rdataBytes, Option.map_eq_none_iff] at short
    rw [putRData]
    split
    · refine ⟨[], Nat.zero_le _, (List.append_nil _).symm, fun msg rest => ?_⟩
      exact readRData_mx_short (Nat.zero_le 2)
    · have left' : (o.put (dnsPut16 priority)).pos + (room - 2) = outmax := by
        rw [put_pos, dnsPut16_eq, put16_length]
        omega
      refine ⟨dnsPut16 priority, by simp [dnsPut16], putName_none small left' short, fun msg rest => ?_⟩
      exact readRData_mx_short (Nat.le_refl 2)
  | txt text =>
    rw [rdataBytes] at short
    split at short
    · rename_i none
      refine ⟨[], Nat.zero_le _, ?_, fun msg rest => rfl⟩
      rw [putRData, ← textChunks, putChunks_eq _ left, if_pos none, List.append_nil]
    · cases short
  | srv priority weight port target =>
    rw [rdataBytes, Option.map_eq_none_iff] at short
    rw [putRData]
    split
    · refine ⟨[], Nat.zero_le _, (List.append_nil _).symm, fun msg rest => ?_⟩
      exact readRData_srv_short (Nat.zero_le 6)
    · have left' : (o.put (dnsPut16 priority ++ dnsPut16 weight ++ dnsPut16 port)).pos +
          (room - 6) = outmax := by
        simp only [put_pos, dnsPut16_eq, put16_length, List.length_append]
        omega
      refine ⟨dnsPut16 priority ++ dnsPut16 weight ++ dnsPut16 port, by simp [dnsPut16],
        putName_none small left' short, fun msg rest => ?_⟩
      exact readRData_srv_short (Nat.le_refl 6)

theorem nameBytes_length {room : Nat} {host bytes : Bytes}
    (enough : nameBytes room host = some bytes) : bytes.length ≤ room :=
  (nameBytes_some enough).2.2

/-- RDATA stays in its room. -/
theorem rdataBytes_length {room : Nat} {data : DnsData} {rdata : Bytes}
    (enough : rdataBytes room data = some rdata) : rdata.length ≤ room := by
  cases data with
  | a address =>
    rw [rdataBytes] at enough
    split at enough
    · cases enough
      rwa [address.length_eq]
    · cases enough
  | aaaa address =>
    rw [rdataBytes] at enough
    split at enough
    · cases enough
      rwa [address.length_eq]
    · cases enough
  | ns host => exact nameBytes_length enough
  | cname host => exact nameBytes_length enough
  | ptr host => exact nameBytes_length enough
  | soa => cases enough
  | mx priority host =>
    obtain ⟨name, named, rfl⟩ := Option.map_eq_some_iff.mp enough
    obtain ⟨rfl, _, fits⟩ := nameBytes_some named
    have root := length_lt_putLabels (nameLabels host.bytes)
    rw [List.length_append, put16_length]
    omega
  | txt text =>
    rw [rdataBytes] at enough
    split at enough
    · cases enough
    · cases enough
      exact fitting_length room _
  | srv priority weight port target =>
    obtain ⟨name, named, rfl⟩ := Option.map_eq_some_iff.mp enough
    obtain ⟨rfl, _, fits⟩ := nameBytes_some named
    have root := length_lt_putLabels (nameLabels target.bytes)
    simp only [List.length_append, put16_length]
    omega

theorem sum_splitOn (name : Bytes) :
    ((name.splitOn DOT).map fun label => label.length + 1).sum = name.length + 1 := by
  induction name with
  | nil => rfl
  | cons b name ih =>
    rw [List.splitOn_cons_eq_if_modifyHead, List.length_cons]
    split
    · rw [List.map_cons, List.sum_cons, ih, List.length_nil]
      omega
    · have some_label := List.splitOn_ne_nil DOT name
      cases labels : name.splitOn DOT with
      | nil => exact absurd labels some_label
      | cons label labels' =>
        rw [labels] at ih
        simp only [List.modifyHead_cons, List.map_cons, List.sum_cons, List.length_cons] at ih ⊢
        omega

theorem putLabels_nameLabels (name : Bytes) :
    (putLabels (nameLabels name)).length ≤ name.length + 2 := by
  have whole : ((name.splitOn DOT).map fun label : Octets => label.length + 1).sum =
      name.length + 1 := sum_splitOn name
  rw [putLabels_length]
  unfold nameLabels
  dsimp only
  split
  · rename_i root
    rw [← List.dropLast_append_getLast? _ root, List.map_append, List.sum_append] at whole
    omega
  · rw [whole]

theorem putStrings_sublist {strings strings' : List Bytes} (part : strings.Sublist strings') :
    (putStrings strings).length ≤ (putStrings strings').length := by
  induction part with
  | slnil => exact Nat.le_refl _
  | cons string _ ih =>
    rw [putStrings_cons, List.length_cons, List.length_append]
    omega
  | cons_cons string _ ih =>
    rw [putStrings_cons, putStrings_cons, List.length_cons, List.length_cons, List.length_append,
      List.length_append]
    omega

theorem putStrings_txtChunks (fuel : Nat) (text : Bytes) :
    (putStrings (txtChunks fuel text)).length ≤ text.length + fuel := by
  induction fuel generalizing text with
  | zero => exact Nat.zero_le _
  | succ fuel ih =>
    rw [txtChunks]
    split
    · exact Nat.zero_le _
    · have rest := ih (text.drop 255)
      rw [putStrings_cons, List.length_cons, List.length_append, List.length_take]
      rw [List.length_drop] at rest
      omega

/-- RDATA has a length of 16 bits, by the sizes of the fields of a record. -/
theorem rdataBytes_short {room : Nat} {data : DnsData} {rdata : Bytes}
    (enough : rdataBytes room data = some rdata) : rdata.length < 65536 := by
  have named {room : Nat} {host : CString 256} {bytes : Bytes}
      (found : nameBytes room host.bytes = some bytes) : bytes.length ≤ 257 := by
    obtain ⟨rfl, _, _⟩ := nameBytes_some found
    have length := host.length_lt
    have encoded := putLabels_nameLabels host.bytes
    omega
  cases data with
  | a address =>
    rw [rdataBytes] at enough
    split at enough
    · cases enough
      rw [address.length_eq]
      decide
    · cases enough
  | aaaa address =>
    rw [rdataBytes] at enough
    split at enough
    · cases enough
      rw [address.length_eq]
      decide
    · cases enough
  | ns host => exact Nat.lt_of_le_of_lt (named enough) (by decide)
  | cname host => exact Nat.lt_of_le_of_lt (named enough) (by decide)
  | ptr host => exact Nat.lt_of_le_of_lt (named enough) (by decide)
  | soa => cases enough
  | mx priority host =>
    obtain ⟨name, found, rfl⟩ := Option.map_eq_some_iff.mp enough
    have short := named found
    rw [List.length_append, put16_length]
    omega
  | txt text =>
    rw [rdataBytes] at enough
    split at enough
    · cases enough
    · cases enough
      have part := putStrings_sublist (fitting_sublist room (textChunks text.bytes))
      have whole := putStrings_txtChunks text.bytes.length text.bytes
      have length := text.length_lt
      rw [← textChunks] at whole
      omega
  | srv priority weight port target =>
    obtain ⟨name, found, rfl⟩ := Option.map_eq_some_iff.mp enough
    have short := named found
    simp only [List.length_append, put16_length]
    omega

/-- Every answer gets its place, until fewer than two bytes are left. -/
def Room (outmax : Nat) : Nat → List DnsRecord → Prop
  | _, [] => True
  | pos, rec :: records => outmax < pos + 2 ∨ pos + 12 ≤ outmax ∧
      match rdataBytes (outmax - (pos + 12)) rec.data with
      | none => False
      | some rdata => Room outmax (pos + 12 + rdata.length) records

/-- A record that got its place, with the room that there was for its RDATA. -/
structure Answer where
  source : DnsRecord
  room : Nat
  rdata : Bytes

/-- The answers from `pos` on. -/
def placed (outmax : Nat) : Nat → List DnsRecord → List Answer
  | _, [] => []
  | pos, rec :: records =>
    if outmax < pos + 2 then [] else
    match rdataBytes (outmax - (pos + 12)) rec.data with
    | none => []
    | some rdata =>
      ⟨rec, outmax - (pos + 12), rdata⟩ :: placed outmax (pos + 12 + rdata.length) records

def recordBytes (rec : DnsRecord) (rdata : Bytes) : Bytes :=
  putRecord 12 rec.data.rtype.toNat 1 rec.ttl.toNat rdata

def Answer.bytes (answer : Answer) : Bytes := recordBytes answer.source answer.rdata

/-- What a resolver reads, when the name of the question is `labels`. -/
def Answer.record (labels : List Bytes) (answer : Answer) : Record :=
  ⟨⟨labels, some 12⟩, answer.source.data.rtype.toNat, 1, answer.source.ttl.toNat,
    rdataOf answer.room answer.source.data⟩

theorem patch_middle (first last : Bytes) (a b : UInt8) (val : UInt16) :
    ((first ++ a :: b :: last).set first.length (val >>> 8).toUInt8).set (first.length + 1)
      (val &&& 0xFF).toUInt8 = first ++ (dnsPut16 val ++ last) := by
  simp [dnsPut16]

/-- The fixed part of a record behind its owner. -/
def fixedPart (rec : DnsRecord) : Bytes :=
  dnsPut16 rec.data.rtype ++ dnsPut16 DNS_CLASS_IN ++ dnsPut32 rec.ttl

theorem recordBytes_eq (rec : DnsRecord) (rdata : Bytes) (short : rdata.length < 65536) :
    recordBytes rec rdata =
      [0xC0, 12] ++ (fixedPart rec ++ (dnsPut16 (UInt16.ofNat rdata.length) ++ rdata)) := by
  have length : (UInt16.ofNat rdata.length).toNat = rdata.length :=
    UInt16.toNat_ofNat_of_lt' short
  have one : DNS_CLASS_IN.toNat = 1 := rfl
  rw [fixedPart, dnsPut16_eq, dnsPut16_eq, dnsPut16_eq, dnsPut32_eq, length, one, recordBytes,
    putRecord, List.append_assoc, List.append_assoc]
  rfl

/-- The record that `putAnswer` leaves, whatever became of its RDATA. -/
theorem putAnswer_bytes {rec : DnsRecord} {rdata : Bytes}
    (written : (putRData outmax rec.data ((o.put (fixedPart rec)).put (dnsPut16 0))).bytes =
      o.bytes ++ fixedPart rec ++ dnsPut16 0 ++ rdata) :
    (putAnswer outmax rec o).bytes =
      o.bytes ++ (fixedPart rec ++ (dnsPut16 (UInt16.ofNat rdata.length) ++ rdata)) := by
  have zero : dnsPut16 0 = [0, 0] := rfl
  unfold putAnswer
  rw [← fixedPart]
  dsimp only
  rw [Out.patch16]
  dsimp only
  have grown : (putRData outmax rec.data ((o.put (fixedPart rec)).put (dnsPut16 0))).pos -
      ((o.put (fixedPart rec)).put (dnsPut16 0)).pos = rdata.length := by
    simp only [Out.pos, written, put_bytes, List.length_append]
    omega
  have place : (o.put (fixedPart rec)).pos = (o.bytes ++ fixedPart rec).length := rfl
  rw [grown, place, written, zero, List.append_assoc, List.cons_append, List.cons_append,
    List.nil_append, patch_middle, List.append_assoc]

/-- `o'` is `o` with more at its end. -/
structure Extends (o o' : Out) : Prop where
  bytes : ∃ more, o'.bytes = o.bytes ++ more
  reach : o.reach ≤ o'.reach

variable {o₁ o₂ o₃ : Out}

theorem Extends.refl (o : Out) : Extends o o := ⟨⟨[], (List.append_nil _).symm⟩, Nat.le_refl _⟩

theorem Extends.trans (first : Extends o₁ o₂) (last : Extends o₂ o₃) : Extends o₁ o₃ := by
  obtain ⟨⟨more, bytes⟩, reach⟩ := first
  obtain ⟨⟨more', bytes'⟩, reach'⟩ := last
  refine ⟨⟨more ++ more', ?_⟩, Nat.le_trans reach reach'⟩
  rw [bytes', bytes, List.append_assoc]

theorem Extends.put (o : Out) (bytes : Bytes) : Extends o (o.put bytes) :=
  ⟨⟨bytes, rfl⟩, Nat.le_max_left _ _⟩

theorem Extends.putName (host : Bytes) (o : Out) : Extends o (putName outmax host o) := by
  unfold DnsResponder.putName
  split
  · exact .put o _
  · exact ⟨⟨[], (List.append_nil _).symm⟩, Nat.le_max_left _ _⟩

theorem Extends.putChunks (chunks : List Bytes) (o : Out) :
    Extends o (putChunks outmax chunks o) := by
  induction chunks generalizing o with
  | nil => exact .refl o
  | cons chunk chunks ih =>
    rw [DnsResponder.putChunks]
    split
    · exact .refl o
    · exact (Extends.put o _).trans (ih _)

theorem Extends.putRData (data : DnsData) (o : Out) : Extends o (putRData outmax data o) := by
  unfold DnsResponder.putRData
  split
  · split
    · exact .refl o
    · exact .put o _
  · split
    · exact .refl o
    · exact .put o _
  · exact .putName _ o
  · exact .putName _ o
  · exact .putName _ o
  · split
    · exact .refl o
    · exact (Extends.put o _).trans (.putName _ _)
  · exact .putChunks _ o
  · split
    · exact .refl o
    · exact (Extends.put o _).trans (.putName _ _)
  · exact .refl o

/-- The fixed part and the place for RDLENGTH are written in any case. -/
theorem Extends.putAnswer (outmax : Nat) (rec : DnsRecord) (o : Out) :
    Extends o (putAnswer outmax rec o) ∧ o.pos + 10 ≤ (putAnswer outmax rec o).reach := by
  have grown : Extends ((o.put (fixedPart rec)).put (dnsPut16 0))
      (DnsResponder.putRData outmax rec.data ((o.put (fixedPart rec)).put (dnsPut16 0))) :=
    .putRData rec.data _
  have length : (fixedPart rec).length = 8 := rfl
  have places : o.pos + 10 ≤ ((o.put (fixedPart rec)).put (dnsPut16 0)).reach := by
    simp only [Out.put, Out.pos, List.length_append, length]
    change _ ≤ max _ (_ + 2)
    omega
  obtain ⟨⟨rdata, written⟩, reach⟩ := grown
  have framed : (DnsResponder.putRData outmax rec.data ((o.put (fixedPart rec)).put (dnsPut16 0))).bytes =
      o.bytes ++ fixedPart rec ++ dnsPut16 0 ++ rdata := by
    rw [written]
    rfl
  refine ⟨⟨⟨_, putAnswer_bytes framed⟩, ?_⟩, Nat.le_trans places reach⟩
  · refine Nat.le_trans ?_ reach
    exact Nat.le_trans (Nat.le_max_left _ _) (Nat.le_max_left _ _)

theorem Extends.answerLoop (outmax : Nat) (qtype : UInt16) (records : List DnsRecord) (o : Out)
    (n : UInt16) :
    ∃ k ≤ records.length, (answerLoop outmax qtype records o n).2 = n + UInt16.ofNat k ∧
      Extends o (answerLoop outmax qtype records o n).1 := by
  have done : ∃ k ≤ records.length, n = n + UInt16.ofNat k ∧ Extends o o :=
    ⟨0, Nat.zero_le _, (UInt16.add_zero n).symm, .refl o⟩
  induction records generalizing o n with
  | nil => exact done
  | cons rec records ih =>
    rw [DnsResponder.answerLoop]
    split
    · obtain ⟨k, fewer, count, grown⟩ := ih o n ⟨0, Nat.zero_le _, (UInt16.add_zero n).symm, .refl o⟩
      exact ⟨k, Nat.le_succ_of_le fewer, count, grown⟩
    split
    · exact done
    dsimp only
    split
    · exact ⟨0, Nat.zero_le _, (UInt16.add_zero n).symm, .put o _⟩
    · obtain ⟨k, fewer, count, grown⟩ := ih (DnsResponder.putAnswer outmax rec (o.put [0xC0, 12]))
        (n + 1) ⟨0, Nat.zero_le _, (UInt16.add_zero _).symm, .refl _⟩
      refine ⟨k + 1, Nat.succ_le_succ fewer, ?_, ?_⟩
      · rw [count, UInt16.add_assoc, UInt16.ofNat_add, UInt16.add_comm 1]
        rfl
      · exact ((Extends.put o _).trans (Extends.putAnswer outmax rec _).1).trans grown

end DnsEncoding
