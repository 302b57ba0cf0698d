import Mathlib.Algebra.GroupWithZero.Nat
import Mathlib.Data.List.Basic

/-!
# DNS messages

A decoder for the message format of RFC 1035, with the AAAA and SRV records that came
later. It reads a message to its last octet and nothing more. A compression pointer has to
lead to a place behind the header and in front of the name that it ends, so the first name
of a message has none.
-/

namespace DnsMessage

abbrev Octets := List UInt8

structure Name where
  labels : List Octets
  /-- the place that the first compression pointer leads to -/
  pointer : Option Nat
  deriving DecidableEq

inductive RData where
  | a (address : Octets)
  | aaaa (address : Octets)
  | name (labels : List Octets)
  | soa (mname rname : List Octets) (timers : Octets)
  | mx (preference : Nat) (exchange : List Octets)
  | txt (strings : List Octets)
  | srv (priority weight port : Nat) (target : List Octets)
  | other (data : Octets)
  deriving DecidableEq

structure Question where
  name : List Octets
  qtype : Nat
  qclass : Nat
  deriving DecidableEq

structure Record where
  owner : Name
  type : Nat
  cls : Nat
  ttl : Nat
  rdata : RData
  deriving DecidableEq

structure Message where
  id : Nat
  flags : Nat
  questions : List Question
  answers : List Record
  authority : List Record
  additional : List Record
  deriving DecidableEq

def get16 : Octets → Option (Nat × Octets)
  | hi :: lo :: rest => some (hi.toNat * 256 + lo.toNat, rest)
  | _ => none

def get32 (octets : Octets) : Option (Nat × Octets) := do
  let (hi, rest) ← get16 octets
  let (lo, rest) ← get16 rest
  return (hi * 65536 + lo, rest)

/-- Labels up to the root or a pointer; every label takes two octets or more, so the length
of the input is fuel enough. -/
def readLabels : Nat → Octets → Option (List Octets × Option Nat × Octets)
  | fuel + 1, len :: rest =>
    if len = 0 then some ([], none, rest)
    else if 192 ≤ len then match rest with
      | lo :: rest => some ([], some ((len.toNat - 192) * 256 + lo.toNat), rest)
      | [] => none
    else if 64 ≤ len ∨ rest.length < len.toNat then none
    else match readLabels fuel (rest.drop len.toNat) with
      | some (labels, pointer, rest') => some (rest.take len.toNat :: labels, pointer, rest')
      | none => none
  | _, _ => none

/-- A name at the end `octets` of the message. Pointers lead to the front, so there are
fewer than octets in the message. -/
def readNameFrom (msg : Octets) : Nat → Octets → Option (Name × Octets)
  | 0, _ => none
  | pointers + 1, octets => match readLabels octets.length octets with
    | none => none
    | some (labels, none, rest) => some (⟨labels, none⟩, rest)
    | some (labels, some p, rest) =>
      if 12 ≤ p ∧ p + octets.length < msg.length then
        match readNameFrom msg pointers (msg.drop p) with
        | some (name, _) => some (⟨labels ++ name.labels, some p⟩, rest)
        | none => none
      else none

def readName (msg octets : Octets) : Option (Name × Octets) :=
  readNameFrom msg (msg.length + 1) octets

def readQuestion (msg octets : Octets) : Option (Question × Octets) := do
  let (name, rest) ← readName msg octets
  let (qtype, rest) ← get16 rest
  let (qclass, rest) ← get16 rest
  return (⟨name.labels, qtype, qclass⟩, rest)

/-- The character strings of a TXT record. -/
def readStrings : Nat → Octets → Option (List Octets)
  | _, [] => some []
  | fuel + 1, len :: rest =>
    if rest.length < len.toNat then none
    else (readStrings fuel (rest.drop len.toNat)).map (rest.take len.toNat :: ·)
  | 0, _ :: _ => none

/-- A name that ends where the RDATA does, `left` octets before the end of the message. -/
def readLastName (msg octets : Octets) (left : Nat) : Option (List Octets) := do
  let (name, rest) ← readName msg octets
  if rest.length = left then some name.labels else none

/-- The RDATA at the beginning of `octets`, of `len` octets. -/
def readRData (msg octets : Octets) (type len : Nat) : Option RData :=
  let left := octets.length - len
  match type with
  | 1 => if len = 4 then some (.a (octets.take 4)) else none
  | 28 => if len = 16 then some (.aaaa (octets.take 16)) else none
  | 2 | 5 | 12 => (readLastName msg octets left).map .name
  | 6 => do
    let (mname, rest) ← readName msg octets
    let (rname, rest) ← readName msg rest
    if rest.length = left + 20 then some (.soa mname.labels rname.labels (rest.take 20)) else none
  | 15 => do
    let (preference, rest) ← get16 octets
    let exchange ← readLastName msg rest left
    return .mx preference exchange
  | 16 => do
    let strings ← readStrings len (octets.take len)
    if strings = [] then none else some (.txt strings)
  | 33 => do
    let (priority, rest) ← get16 octets
    let (weight, rest) ← get16 rest
    let (port, rest) ← get16 rest
    let target ← readLastName msg rest left
    return .srv priority weight port target
  | _ => some (.other (octets.take len))

def readRecord (msg octets : Octets) : Option (Record × Octets) := do
  let (owner, rest) ← readName msg octets
  let (type, rest) ← get16 rest
  let (cls, rest) ← get16 rest
  let (ttl, rest) ← get32 rest
  let (len, rest) ← get16 rest
  if rest.length < len then none else
  let rdata ← readRData msg rest type len
  return (⟨owner, type, cls, ttl, rdata⟩, rest.drop len)

/-- As many items as the header says. -/
def readMany {α : Type} (read : Octets → Option (α × Octets)) :
    Nat → Octets → Option (List α × Octets)
  | 0, octets => some ([], octets)
  | n + 1, octets => do
    let (item, rest) ← read octets
    let (items, rest) ← readMany read n rest
    return (item :: items, rest)

def readMessage (msg : Octets) : Option Message := do
  let (id, rest) ← get16 msg
  let (flags, rest) ← get16 rest
  let (qdcount, rest) ← get16 rest
  let (ancount, rest) ← get16 rest
  let (nscount, rest) ← get16 rest
  let (arcount, rest) ← get16 rest
  let (questions, rest) ← readMany (readQuestion msg) qdcount rest
  let (answers, rest) ← readMany (readRecord msg) ancount rest
  let (authority, rest) ← readMany (readRecord msg) nscount rest
  let (additional, rest) ← readMany (readRecord msg) arcount rest
  if rest = [] then some ⟨id, flags, questions, answers, authority, additional⟩ else none

def put16 (n : Nat) : Octets := [UInt8.ofNat (n / 256), UInt8.ofNat n]

def put32 (n : Nat) : Octets := put16 (n / 65536) ++ put16 n

def putLabels (labels : List Octets) : Octets :=
  labels.flatMap (fun label => UInt8.ofNat label.length :: label) ++ [0]

/-- Labels that fit their length octet. -/
def LabelsValid (labels : List Octets) : Prop := ∀ label ∈ labels, label ≠ [] ∧ label.length ≤ 63

instance (labels : List Octets) : Decidable (LabelsValid labels) :=
  inferInstanceAs (Decidable (∀ label ∈ labels, label ≠ [] ∧ label.length ≤ 63))

variable {msg rest : Octets} {labels : List Octets} {n m : Nat}

@[simp] theorem put16_length (n : Nat) : (put16 n).length = 2 := rfl

@[simp] theorem put32_length (n : Nat) : (put32 n).length = 4 := rfl

theorem get16_put16 (small : n < 65536) (rest : Octets) :
    get16 (put16 n ++ rest) = some (n, rest) := by
  have hi : (UInt8.ofNat (n / 256)).toNat = n / 256 := by
    rw [UInt8.toNat_ofNat']
    omega
  have lo : (UInt8.ofNat n).toNat = n % 256 := UInt8.toNat_ofNat'
  simp only [put16, List.cons_append, List.nil_append, get16, hi, lo]
  congr 2
  omega

theorem get32_put32 (small : n < 4294967296) (rest : Octets) :
    get32 (put32 n ++ rest) = some (n, rest) := by
  have low : put16 n = put16 (n % 65536) := by
    unfold put16
    congr 1
    · apply UInt8.toNat_inj.mp
      rw [UInt8.toNat_ofNat', UInt8.toNat_ofNat']
      omega
    · congr 1
      apply UInt8.toNat_inj.mp
      rw [UInt8.toNat_ofNat', UInt8.toNat_ofNat']
      omega
  unfold get32 put32
  rw [low, List.append_assoc, get16_put16 (by omega)]
  simp only [Option.bind_eq_bind, Option.bind_some, get16_put16 (Nat.mod_lt n (by decide)),
    Option.pure_def]
  congr 2
  omega

theorem putLabels_cons (label : Octets) (labels : List Octets) :
    putLabels (label :: labels) = UInt8.ofNat label.length :: (label ++ putLabels labels) := by
  simp [putLabels]

theorem putLabels_length (labels : List Octets) :
    (putLabels labels).length = (labels.map fun label => label.length + 1).sum + 1 := by
  induction labels with
  | nil => rfl
  | cons label labels ih =>
    rw [putLabels_cons, List.length_cons, List.length_append, ih, List.map_cons, List.sum_cons]
    omega

theorem length_lt_putLabels (labels : List Octets) : labels.length < (putLabels labels).length := by
  induction labels with
  | nil => exact Nat.zero_lt_one
  | cons label labels ih =>
    rw [putLabels_cons, List.length_cons, List.length_cons, List.length_append]
    omega

theorem labelLength {label : Octets} (short : label.length ≤ 63) :
    (UInt8.ofNat label.length).toNat = label.length := by
  rw [UInt8.toNat_ofNat']
  omega

theorem readLabels_cons (fuel : Nat) (len : UInt8) (rest : Octets) :
    readLabels (fuel + 1) (len :: rest) =
      if len = 0 then some ([], none, rest)
      else if 192 ≤ len then match rest with
        | lo :: rest => some ([], some ((len.toNat - 192) * 256 + lo.toNat), rest)
        | [] => none
      else if 64 ≤ len ∨ rest.length < len.toNat then none
      else match readLabels fuel (rest.drop len.toNat) with
        | some (labels, pointer, rest') => some (rest.take len.toNat :: labels, pointer, rest')
        | none => none := rfl

theorem readLabels_put (valid : LabelsValid labels) (rest : Octets)
    (enough : labels.length < n) :
    readLabels n (putLabels labels ++ rest) = some (labels, none, rest) := by
  induction labels generalizing n with
  | nil =>
    obtain ⟨fuel, rfl⟩ := Nat.exists_eq_succ_of_ne_zero (Nat.ne_of_gt enough)
    rfl
  | cons label labels ih =>
    obtain ⟨fuel, rfl⟩ := Nat.exists_eq_succ_of_ne_zero (Nat.ne_of_gt (Nat.zero_lt_of_lt enough))
    obtain ⟨⟨nonempty, short⟩, valid⟩ := List.forall_mem_cons.mp valid
    have len := labelLength short
    have positive := List.length_pos_iff.mpr nonempty
    have some_label : UInt8.ofNat label.length ≠ 0 := by
      intro zero
      rw [zero] at len
      exact absurd len (Nat.ne_of_lt positive)
    have no_pointer : ¬(192 : UInt8) ≤ UInt8.ofNat label.length := by
      rw [UInt8.le_iff_toNat_le, len]
      exact Nat.not_le.mpr (Nat.lt_of_le_of_lt short (by decide))
    have fits : ¬((64 : UInt8) ≤ UInt8.ofNat label.length ∨
        (label ++ (putLabels labels ++ rest)).length < (UInt8.ofNat label.length).toNat) := by
      rw [UInt8.le_iff_toNat_le, len, List.length_append]
      rintro (large | more)
      · exact absurd (Nat.le_trans large short) (by decide)
      · omega
    rw [putLabels_cons, List.cons_append, List.append_assoc, readLabels_cons,
      if_neg some_label, if_neg no_pointer, if_neg fits, len, List.drop_left, List.take_left,
      ih valid (Nat.lt_of_succ_lt_succ enough)]

/-- Labels that end in the root are what `putLabels` writes. -/
theorem readLabels_sound {octets : Octets} (read : readLabels n octets = some (labels, none, rest)) :
    octets = putLabels labels ++ rest ∧ LabelsValid labels := by
  induction n generalizing octets labels with
  | zero => cases read
  | succ n ih =>
    cases octets with
    | nil => cases read
    | cons len octets =>
      rw [readLabels_cons] at read
      split at read
      · rename_i zero
        cases read
        subst zero
        exact ⟨rfl, fun _ listed => nomatch listed⟩
      split at read
      · split at read
        · cases read
        · cases read
      split at read
      · cases read
      rename_i some_label _ fits
      split at read
      · rename_i labels' pointer rest' later
        cases read
        obtain ⟨here, valid⟩ := ih later
        obtain ⟨short, inside⟩ := not_or.mp fits
        have short : len.toNat ≤ 63 := by
          rw [UInt8.le_iff_toNat_le] at short
          exact Nat.le_of_lt_succ (Nat.lt_of_not_le short)
        have length : (octets.take len.toNat).length = len.toNat :=
          List.length_take_of_le (Nat.le_of_not_lt inside)
        constructor
        · rw [putLabels_cons, length, List.cons_append, List.append_assoc, ← here,
            List.take_append_drop, UInt8.ofNat_toNat]
        · refine List.forall_mem_cons.mpr ⟨⟨?_, Nat.le_trans (Nat.le_of_eq length) short⟩, valid⟩
          intro empty
          rw [empty] at length
          exact some_label (UInt8.toNat_inj.mp length.symm)
      · cases read

/-- What is read does not depend on what follows. -/
theorem readLabels_prefix {octets : Octets} {pointer : Option Nat}
    (read : readLabels n octets = some (labels, pointer, rest)) :
    ∃ taken, octets = taken ++ rest ∧ labels.length < taken.length ∧
      ∀ m after, labels.length < m → readLabels m (taken ++ after) = some (labels, pointer, after) := by
  induction n generalizing octets labels with
  | zero => cases read
  | succ n ih =>
    cases octets with
    | nil => cases read
    | cons len octets =>
      rw [readLabels_cons] at read
      split at read
      · rename_i zero
        cases read
        refine ⟨[len], rfl, Nat.zero_lt_one, fun m after enough => ?_⟩
        obtain ⟨fuel, rfl⟩ := Nat.exists_eq_succ_of_ne_zero (Nat.ne_of_gt enough)
        rw [List.singleton_append, readLabels_cons, if_pos zero]
      rename_i some_label
      split at read
      · rename_i far
        split at read
        · rename_i lo rest'
          cases read
          refine ⟨[len, lo], rfl, Nat.zero_lt_two, fun m after enough => ?_⟩
          obtain ⟨fuel, rfl⟩ := Nat.exists_eq_succ_of_ne_zero (Nat.ne_of_gt enough)
          change readLabels (fuel + 1) (len :: lo :: after) = _
          rw [readLabels_cons, if_neg some_label, if_pos far]
        · cases read
      rename_i near
      split at read
      · cases read
      rename_i fits
      split at read
      · rename_i later
        cases read
        obtain ⟨taken, here, longer, again⟩ := ih later
        obtain ⟨short, inside⟩ := not_or.mp fits
        have length : (octets.take len.toNat).length = len.toNat :=
          List.length_take_of_le (Nat.le_of_not_lt inside)
        refine ⟨len :: (octets.take len.toNat ++ taken), ?_, ?_, fun m after enough => ?_⟩
        · rw [List.cons_append, List.append_assoc, ← here, List.take_append_drop]
        · rw [List.length_cons, List.length_cons, List.length_append]
          omega
        · obtain ⟨fuel, rfl⟩ :=
            Nat.exists_eq_succ_of_ne_zero (Nat.ne_of_gt (Nat.zero_lt_of_lt enough))
          have fits' : ¬((64 : UInt8) ≤ len ∨
              (octets.take len.toNat ++ (taken ++ after)).length < len.toNat) := by
            rw [not_or, List.length_append, length]
            exact ⟨short, Nat.not_lt.mpr (Nat.le_add_right _ _)⟩
          rw [List.cons_append, List.append_assoc, readLabels_cons, if_neg some_label, if_neg near,
            if_neg fits', List.drop_left' length, List.take_left' length,
            again fuel after (Nat.lt_of_succ_lt_succ enough)]
      · cases read

/-- Reading labels takes at least one octet. -/
theorem readLabels_length {octets : Octets} {pointer : Option Nat}
    (read : readLabels n octets = some (labels, pointer, rest)) : rest.length < octets.length := by
  induction n generalizing octets labels with
  | zero => cases read
  | succ n ih =>
    cases octets with
    | nil => cases read
    | cons len octets =>
      rw [readLabels_cons] at read
      split at read
      · cases read
        exact Nat.lt_succ_self _
      split at read
      · split at read
        · cases read
          exact Nat.lt_succ_of_lt (Nat.lt_succ_self _)
        · cases read
      split at read
      · cases read
      split at read
      · rename_i later
        cases read
        have fewer := ih later
        rw [List.length_drop] at fewer
        rw [List.length_cons]
        omega
      · cases read

theorem readName_put (valid : LabelsValid labels) (msg rest : Octets) :
    readName msg (putLabels labels ++ rest) = some (⟨labels, none⟩, rest) := by
  have enough : labels.length < (putLabels labels ++ rest).length := by
    rw [List.length_append]
    exact Nat.lt_of_lt_of_le (length_lt_putLabels labels) (Nat.le_add_right _ _)
  rw [readName, readNameFrom, readLabels_put valid rest enough]

/-- There is nothing that the first name of a message could point to. -/
theorem readName_first {header octets : Octets} {p : Nat} (short : header.length ≤ 12)
    (read : readLabels octets.length octets = some (labels, some p, rest)) :
    readName (header ++ octets) octets = none := by
  rw [readName, readNameFrom, read]
  dsimp only
  rw [if_neg]
  rintro ⟨behind, before⟩
  rw [List.length_append] at before
  omega

/-- The octets of a pointer. -/
def putPointer (p : Nat) : Octets := [UInt8.ofNat (192 + p / 256), UInt8.ofNat p]

theorem readName_pointer {p : Nat} {after : Octets} (rest : Octets) (valid : LabelsValid labels)
    (target : msg.drop p = putLabels labels ++ after) (behind : 12 ≤ p) (small : p < 16384)
    (before : p + rest.length + 2 < msg.length) :
    readName msg (putPointer p ++ rest) = some (⟨labels, some p⟩, rest) := by
  have hi : (UInt8.ofNat (192 + p / 256)).toNat = 192 + p / 256 := by
    rw [UInt8.toNat_ofNat']
    omega
  have lo : (UInt8.ofNat p).toNat = p % 256 := UInt8.toNat_ofNat'
  have some_octet : UInt8.ofNat (192 + p / 256) ≠ 0 := by
    intro zero
    rw [zero] at hi
    have nothing : (0 : UInt8).toNat = 0 := rfl
    omega
  have pointer : (192 : UInt8) ≤ UInt8.ofNat (192 + p / 256) := by
    rw [UInt8.le_iff_toNat_le, hi]
    exact Nat.le_add_right 192 _
  have length : (putPointer p ++ rest).length = rest.length + 2 := by simp [putPointer]
  have labelled : readLabels (putPointer p ++ rest).length (putPointer p ++ rest) =
      some ([], some p, rest) := by
    rw [length]
    have place : (192 + p / 256 - 192) * 256 + p % 256 = p := by omega
    rw [putPointer, List.cons_append, List.cons_append, List.nil_append, readLabels_cons,
      if_neg some_octet, if_pos pointer]
    dsimp only
    rw [hi, lo, place]
  obtain ⟨fuel, enough⟩ := Nat.exists_eq_succ_of_ne_zero (Nat.ne_of_gt (Nat.zero_lt_of_lt before))
  rw [readName, readNameFrom, labelled]
  dsimp only
  rw [if_pos ⟨behind, by rw [length]; omega⟩, enough, readNameFrom, target, readLabels_put valid]
  · rfl
  · rw [List.length_append]
    exact Nat.lt_of_lt_of_le (length_lt_putLabels labels) (Nat.le_add_right _ _)

theorem readName_length {octets : Octets} {name : Name}
    (read : readName msg octets = some (name, rest)) : rest.length < octets.length := by
  rw [readName, readNameFrom] at read
  split at read
  · cases read
  · rename_i labelled
    cases read
    exact readLabels_length labelled
  · rename_i labelled
    split at read
    · split at read
      · cases read
        exact readLabels_length labelled
      · cases read
    · cases read

theorem get16_length {octets : Octets} (read : get16 octets = some (n, rest)) :
    octets.length = rest.length + 2 := by
  match octets, read with
  | _ :: _ :: _, rfl => rfl

def putStrings (strings : List Octets) : Octets :=
  strings.flatMap fun string => UInt8.ofNat string.length :: string

theorem putStrings_cons (string : Octets) (strings : List Octets) :
    putStrings (string :: strings) =
      UInt8.ofNat string.length :: (string ++ putStrings strings) := by
  simp [putStrings]

theorem readStrings_put {strings : List Octets} (short : ∀ s ∈ strings, s.length ≤ 255)
    (enough : strings.length ≤ n) : readStrings n (putStrings strings) = some strings := by
  induction strings generalizing n with
  | nil => cases n <;> rfl
  | cons string strings ih =>
    obtain ⟨fuel, rfl⟩ := Nat.exists_eq_succ_of_ne_zero (Nat.ne_of_gt (Nat.zero_lt_of_lt enough))
    obtain ⟨here, short⟩ := List.forall_mem_cons.mp short
    have len : (UInt8.ofNat string.length).toNat = string.length := by
      rw [UInt8.toNat_ofNat']
      omega
    have inside : ¬(string ++ putStrings strings).length < string.length := by
      rw [List.length_append]
      omega
    rw [putStrings_cons, readStrings, len, if_neg inside, List.drop_left, List.take_left,
      ih short (Nat.le_of_succ_le_succ enough), Option.map_some]

theorem readLastName_put (valid : LabelsValid labels) (msg rest : Octets) :
    readLastName msg (putLabels labels ++ rest) rest.length = some labels := by
  rw [readLastName, readName_put valid]
  exact if_pos rfl

/-- A name does not end where it begins. -/
theorem readLastName_short {octets : Octets} (short : octets.length ≤ n) :
    readLastName msg octets n = none := by
  unfold readLastName
  cases read : readName msg octets with
  | none => rfl
  | some result =>
    have fewer := readName_length read
    exact if_neg (by omega)

theorem readRData_soa_short {octets : Octets} (short : n ≤ 20) :
    readRData msg octets 6 n = none := by
  change (readName msg octets >>= fun _ => _) = none
  simp only [Option.bind_eq_bind, Option.bind_eq_none_iff]
  intro mname first rname second
  have fewer := readName_length first
  have fewer' := readName_length second
  exact if_neg (by omega)

theorem readRData_mx_short {octets : Octets} (short : n ≤ 2) :
    readRData msg octets 15 n = none := by
  change (get16 octets >>= fun _ => _) = none
  simp only [Option.bind_eq_bind, Option.bind_eq_none_iff]
  intro preference first exchange target
  have taken := get16_length first
  rw [readLastName_short (by omega)] at target
  cases target

theorem readRData_srv_short {octets : Octets} (short : n ≤ 6) :
    readRData msg octets 33 n = none := by
  change (get16 octets >>= fun _ => _) = none
  simp only [Option.bind_eq_bind, Option.bind_eq_none_iff]
  intro priority first weight second port third labels target
  have taken := get16_length first
  have taken' := get16_length second
  have taken'' := get16_length third
  rw [readLastName_short (by omega)] at target
  cases target

/-- A record whose owner is at the place `p`. -/
def putRecord (p type cls ttl : Nat) (rdata : Octets) : Octets :=
  putPointer p ++ (put16 type ++ (put16 cls ++ (put32 ttl ++ (put16 rdata.length ++ rdata))))

theorem putRecord_length (p type cls ttl : Nat) (rdata : Octets) :
    (putRecord p type cls ttl rdata).length = 12 + rdata.length := by
  simp only [putRecord, putPointer, put16, put32, List.length_append, List.length_cons,
    List.length_nil]
  omega

theorem readRecord_put {p type cls ttl : Nat} {rdata after : Octets} (valid : LabelsValid labels)
    (target : msg.drop p = putLabels labels ++ after) (behind : 12 ≤ p) (small : p < 16384)
    (before : p + (putRecord p type cls ttl rdata ++ rest).length < msg.length)
    (types : type < 65536) (classes : cls < 65536) (times : ttl < 4294967296)
    (lengths : rdata.length < 65536) :
    readRecord msg (putRecord p type cls ttl rdata ++ rest) =
      (readRData msg (rdata ++ rest) type rdata.length).map
        fun r => (⟨⟨labels, some p⟩, type, cls, ttl, r⟩, rest) := by
  have owner := readName_pointer (put16 type ++ (put16 cls ++ (put32 ttl ++
    (put16 rdata.length ++ (rdata ++ rest))))) valid target behind small (by
      rw [List.length_append, putRecord_length] at before
      simp only [put16_length, put32_length, List.length_append]
      omega)
  have inside : ¬(rdata ++ rest).length < rdata.length := by
    rw [List.length_append]
    omega
  unfold readRecord putRecord
  simp only [List.append_assoc, owner, get16_put16 types, get16_put16 classes, get32_put32 times,
    get16_put16 lengths, Option.bind_eq_bind, Option.bind_some, if_neg inside, List.drop_left,
    Option.pure_def]
  cases readRData msg (rdata ++ rest) type rdata.length <;> rfl

variable {α : Type} {read : Octets → Option (α × Octets)} {octets : Octets}

theorem readMany_cons {item : α} (first : read octets = some (item, rest)) (n : Nat) :
    readMany read (n + 1) octets =
      (readMany read n rest).map fun result => (item :: result.1, result.2) := by
  rw [readMany, first, Option.bind_eq_bind, Option.bind_some]
  dsimp only
  cases readMany read n rest <;> rfl

/-- What comes first cannot be read. -/
theorem readMany_none (first : read octets = none) (n : Nat) :
    readMany read (n + 1) octets = none := by
  rw [readMany, first]
  rfl

def putHeader (id flags qdcount ancount nscount arcount : Nat) : Octets :=
  put16 id ++ (put16 flags ++ (put16 qdcount ++ (put16 ancount ++ (put16 nscount ++
    put16 arcount))))

/-- A message with one question and nothing behind its answers. -/
theorem readMessage_put {id flags ancount : Nat} (ids : id < 65536) (bits : flags < 65536)
    (counts : ancount < 65536) (body : Octets) :
    readMessage (putHeader id flags 1 ancount 0 0 ++ body) =
      (readQuestion (putHeader id flags 1 ancount 0 0 ++ body) body).bind fun question =>
      (readMany (readRecord (putHeader id flags 1 ancount 0 0 ++ body)) ancount question.2).bind
        fun answers =>
      if answers.2 = [] then some ⟨id, flags, [question.1], answers.1, [], []⟩ else none := by
  generalize whole : putHeader id flags 1 ancount 0 0 ++ body = msg
  have start : msg = put16 id ++ (put16 flags ++ (put16 1 ++ (put16 ancount ++ (put16 0 ++
      (put16 0 ++ body))))) := by
    rw [← whole]
    simp only [putHeader, List.append_assoc]
  unfold readMessage
  rw [show get16 msg = some (id, put16 flags ++ (put16 1 ++ (put16 ancount ++ (put16 0 ++
    (put16 0 ++ body))))) by rw [start, get16_put16 ids]]
  simp only [get16_put16 bits, get16_put16 counts, get16_put16 (show 1 < 65536 by decide),
    get16_put16 (show 0 < 65536 by decide), Option.bind_eq_bind, Option.bind_some, readMany,
    Option.pure_def]
  cases readQuestion msg body with
  | none => rfl
  | some question => rfl

end DnsMessage
