import NanoProxy.DnsLoader

/-!
# Names and their encodings

The validator walks over the text of a name with `strchr`, the decoder over the labels of a
packet. A valid name comes back from a packet in lower case and without the dot at its end.
-/

namespace DnsNames

open CLib DnsMessage DnsResponder DnsEncoding DnsQuestion DnsAnswers DnsLoader

variable {name p label : Bytes} {labels : List Bytes} {dstlen : Nat}

/-- Where `p` points to when its first label is done. -/
def behindLabel (p : Bytes) : Bytes := (p.dropWhile (· ≠ DOT)).tail

theorem behindLabel_length (more : p ≠ []) : (behindLabel p).length < p.length := by
  have positive := List.length_pos_iff.mpr more
  have rest := (List.dropWhile_suffix (fun c => decide (c ≠ DOT)) (l := p)).length_le
  rw [behindLabel, List.length_tail]
  omega

/-- The loop of `dns_valid_hostname`. -/
def validLoop (p : Bytes) : Bool :=
  if p = [] then true
  else validLabel (p.takeWhile (· ≠ DOT)) && validLoop (behindLabel p)
termination_by p.length
decreasing_by exact behindLabel_length ‹_›

/-- The empty label behind a dot at the end is none. -/
def dropRoot (labels : List Bytes) : List Bytes :=
  if labels.getLast? = some [] then labels.dropLast else labels

theorem dropRoot_cons (label : Bytes) (more : labels ≠ []) :
    dropRoot (label :: labels) = label :: dropRoot labels := by
  obtain ⟨next, labels, rfl⟩ := List.exists_cons_of_ne_nil more
  unfold dropRoot
  rw [List.getLast?_cons_cons, List.dropLast_cons_of_ne_nil (List.cons_ne_nil _ _)]
  split
  · rfl
  · rfl

theorem nameLabels_eq (name : Bytes) : nameLabels name = dropRoot (name.splitOn DOT) := rfl

/-- The labels are those that a loop over the text comes to. -/
theorem nameLabels_step (more : p ≠ []) :
    nameLabels p = p.takeWhile (· ≠ DOT) :: nameLabels (behindLabel p) := by
  have no_dot : DOT ∉ p.takeWhile (· ≠ DOT) := by
    intro dot
    have other := List.mem_takeWhile_imp dot
    exact absurd other (by decide)
  have whole : p.takeWhile (· ≠ DOT) ++ p.dropWhile (· ≠ DOT) = p :=
    List.takeWhile_append_dropWhile
  rw [nameLabels_eq, nameLabels_eq, behindLabel]
  cases rest : p.dropWhile (· ≠ DOT) with
  | nil =>
    rw [rest, List.append_nil] at whole
    rw [whole] at no_dot ⊢
    rw [List.splitOn_eq_singleton no_dot]
    have label : ¬[p].getLast? = some [] := fun empty => more (Option.some.inj empty)
    exact if_neg label
  | cons c rest' =>
    have dot : c = DOT := by
      have stops := List.head?_dropWhile_not (fun c => decide (c ≠ DOT)) p
      rw [rest] at stops
      simpa using stops
    rw [rest, dot] at whole
    have split : p.splitOn DOT = p.takeWhile (· ≠ DOT) :: rest'.splitOn DOT := by
      conv_lhs => rw [← whole]
      exact List.splitOn_append_cons_self_of_not_mem no_dot rest'
    rw [split, dropRoot_cons _ (List.splitOn_ne_nil DOT rest')]
    rfl

theorem validLoop_eq (p : Bytes) : validLoop p = (nameLabels p).all validLabel := by
  induction p using validLoop.induct with
  | case1 =>
    rw [validLoop, if_pos rfl]
    rfl
  | case2 p more ih => rw [validLoop, if_neg more, ih, nameLabels_step more, List.all_cons]

theorem dnsValidHostname_eq (name : Bytes) :
    dnsValidHostname name = (name ≠ [] && name.length ≤ 253 && validLoop name) := by
  rw [dnsValidHostname, validLoop_eq]

/-- The name without its optional dot. -/
def withoutDot (name : Bytes) : Bytes :=
  if name.getLast? = some DOT then name.dropLast else name

theorem hostByte_plain {c : UInt8} (host : hostByte c = true) : c ≠ 0 ∧ c ≠ DOT := by
  have all := forall_byte (p := fun c => !hostByte c || (c != 0 && c != DOT))
    (by decide +kernel) c
  rw [host] at all
  simpa using all

theorem valid_labels (valid : dnsValidHostname name) :
    nameLabels name ≠ [] ∧ ∀ label ∈ nameLabels name, label ≠ [] ∧ 0 ∉ label ∧ DOT ∉ label := by
  simp only [dnsValidHostname, Bool.and_eq_true, decide_eq_true_eq, List.all_eq_true] at valid
  obtain ⟨⟨nonempty, _⟩, labels⟩ := valid
  constructor
  · rw [nameLabels_step nonempty]
    exact List.cons_ne_nil _ _
  · intro label listed
    have passes := labels label listed
    simp only [validLabel, Bool.and_eq_true, decide_eq_true_eq, List.all_eq_true] at passes
    obtain ⟨⟨⟨⟨some_byte, _⟩, _⟩, _⟩, host⟩ := passes
    exact ⟨fun empty => some_byte (empty ▸ rfl), fun nul => (hostByte_plain (host 0 nul)).1 rfl,
      fun dot => (hostByte_plain (host DOT dot)).2 rfl⟩

theorem valid_plain (valid : dnsValidHostname name) : Plain (nameLabels name) :=
  fun label listed => ((valid_labels valid).2 label listed).2

/-- A dotted name ends in a byte of its last label. -/
theorem intercalate_last (labels : List Bytes)
    (each : ∀ label ∈ labels, label ≠ [] ∧ DOT ∉ label) :
    ([DOT].intercalate labels).getLast? ≠ some DOT := by
  induction labels with
  | nil => exact nofun
  | cons label labels ih =>
    obtain ⟨⟨_, no_dot⟩, each⟩ := List.forall_mem_cons.mp each
    cases labels with
    | nil =>
      rw [List.intercalate_singleton]
      exact fun dot => no_dot (List.mem_of_getLast? dot)
    | cons next labels =>
      have started : [DOT].intercalate (next :: labels) ≠ [] := by
        rw [intercalate_flatMap]
        exact fun empty => (each next List.mem_cons_self).1 (List.append_eq_nil_iff.mp empty).1
      rw [List.intercalate_cons_cons, List.getLast?_append_of_ne_nil _ started]
      exact ih each

theorem withoutDot_eq (valid : dnsValidHostname name) :
    withoutDot name = [DOT].intercalate (nameLabels name) := by
  have labels : ∀ label ∈ nameLabels name, label ≠ [] ∧ DOT ∉ label := fun label listed =>
    have passes := (valid_labels valid).2 label listed
    ⟨passes.1, passes.2.2⟩
  rcases (validHostname_labels valid).2 with plain | dotted
  · have last := intercalate_last _ labels
    rw [← plain] at last
    rw [withoutDot, if_neg last, ← plain]
  · rw [withoutDot, dotted, List.getLast?_concat, if_pos rfl, List.dropLast_concat, ← dotted]

theorem withoutDot_length (name : Bytes) : (withoutDot name).length ≤ name.length := by
  unfold withoutDot
  split
  · rw [List.length_dropLast]
    exact Nat.sub_le _ _
  · exact Nat.le_refl _

/-- A length for the first label, a length for every dot, and the root. -/
theorem putLabels_intercalate (some_label : labels ≠ []) :
    (putLabels labels).length = ([DOT].intercalate labels).length + 2 := by
  induction labels with
  | nil => exact absurd rfl some_label
  | cons label labels ih =>
    rw [putLabels_cons, List.length_cons, List.length_append]
    cases labels with
    | nil =>
      rw [List.intercalate_singleton]
      rfl
    | cons next labels =>
      rw [ih (List.cons_ne_nil _ _), List.intercalate_cons_cons, List.length_append,
        List.length_append, List.length_singleton]
      omega

theorem encoding_length (valid : dnsValidHostname name) :
    (putLabels (nameLabels name)).length = (withoutDot name).length + 2 := by
  rw [withoutDot_eq valid, putLabels_intercalate (valid_labels valid).1]

theorem lower_intercalate (labels : List Bytes) :
    lower ([DOT].intercalate labels) = [DOT].intercalate (labels.map lower) := by
  cases labels with
  | nil => rfl
  | cons label labels =>
    have dotted (label : Bytes) : (DOT :: label).map tolower = DOT :: lower label := rfl
    rw [List.map_cons, intercalate_flatMap, intercalate_flatMap, List.flatMap_map, lower,
      List.map_append, List.map_flatMap]
    rfl

/-- Where the encoding of a valid name stands, the decoder reads the name. -/
theorem decode_encoding (valid : dnsValidHostname name) (pre post : Bytes) :
    dnsDecodeName (pre ++ (putLabels (nameLabels name) ++ post)) pre.length 256 =
      some (lower (withoutDot name), (putLabels (nameLabels name)).length) := by
  have encodable := (validHostname_labels valid).1
  have there : (pre ++ (putLabels (nameLabels name) ++ post)).drop pre.length =
      putLabels (nameLabels name) ++ post := List.drop_left
  have read := readLabels_put encodable post (Nat.lt_succ_self _)
  rw [← there] at read
  have short : (lower (withoutDot name)).length ≤ 255 := by
    rw [lower, List.length_map]
    exact (withoutDot_length name).trans ((validHostname_length valid).trans (by decide))
  rw [dnsDecodeName_complete read, there, List.length_append, Nat.add_sub_cancel,
    putAll_eq (by decide) encodable, ← lower_intercalate, ← withoutDot_eq valid,
    List.take_of_length_le short]

theorem encode_valid (valid : dnsValidHostname name) (dstlen : Nat) :
    ((putLabels (nameLabels name)).length ≤ dstlen →
      dnsEncodeName name dstlen = .ok (putLabels (nameLabels name))) ∧
    (dstlen < (putLabels (nameLabels name)).length →
      ∃ written, dnsEncodeName name dstlen = .error written) := by
  have encoded := dnsEncodeName_eq name dstlen
  constructor
  · intro enough
    rwa [nameBytes_valid valid enough] at encoded
  · intro less
    have short : nameBytes dstlen name = none :=
      if_neg (fun fits => absurd fits.2 (Nat.not_le.mpr less))
    rwa [short] at encoded

/-- What becomes of a name whose encoding is `bytes`. -/
structure Survives (name bytes : Bytes) : Prop where
  short : bytes.length ≤ 255
  encodes : ∀ dstlen, bytes.length ≤ dstlen → dnsEncodeName name dstlen = .ok bytes
  decodes : ∀ pre post, dnsDecodeName (pre ++ (bytes ++ post)) pre.length 256 =
    some (lower (withoutDot name), bytes.length)
  fails : ∀ dstlen, (∃ written, dnsEncodeName name dstlen = .error written) ↔
    dstlen < bytes.length

theorem valid_survives (name : Bytes) (valid : dnsValidHostname name) :
    ∃ bytes, Survives name bytes := by
  have length := encoding_length valid
  have short : (putLabels (nameLabels name)).length ≤ 255 := by
    have whole := withoutDot_length name
    have bound := validHostname_length valid
    omega
  refine ⟨putLabels (nameLabels name), short, fun dstlen => (encode_valid valid dstlen).1,
    decode_encoding valid, fun dstlen => ⟨?_, (encode_valid valid dstlen).2⟩⟩
  rintro ⟨written, failed⟩
  by_contra enough
  rw [(encode_valid valid dstlen).1 (Nat.not_lt.mp enough)] at failed
  cases failed

/-- `Ab.c.` -/
theorem dotted_survives : ∃ bytes, Survives [65, 98, 46, 99, 46] bytes :=
  valid_survives _ (by decide)

example : dnsEncodeName [65, 98, 46, 99, 46] 255 = .ok [2, 65, 98, 1, 99, 0] := by rfl

end DnsNames
