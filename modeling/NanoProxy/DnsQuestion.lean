import NanoProxy.DnsEncoding

/-!
# The name of the question

`dns_decode_name` against the decoder for labels: up to the first compression pointer they
read the same.
-/

namespace DnsQuestion

open CLib DnsMessage DnsResponder DnsEncoding

variable {buf out rest name : Bytes} {labels : List Bytes} {outlen fuel fuel' pos jumps firstEnd e : Nat}

/-- More fuel changes nothing. -/
theorem decodeLoop_fuel (inside : pos ≤ buf.length) (enough : decodeFuel buf pos jumps ≤ fuel)
    (enough' : decodeFuel buf pos jumps ≤ fuel') :
    decodeLoop buf outlen fuel pos jumps firstEnd out =
      decodeLoop buf outlen fuel' pos jumps firstEnd out := by
  induction fuel generalizing fuel' pos jumps firstEnd out with
  | zero =>
    unfold decodeFuel at enough
    omega
  | succ fuel ih =>
    cases fuel' with
    | zero =>
      unfold decodeFuel at enough'
      omega
    | succ fuel' =>
      rw [decodeLoop, decodeLoop]
      split
      · rfl
      dsimp only
      split
      · rfl
      split
      · split
        · rfl
        split
        · rfl
        · rename_i far
          rw [not_or] at far
          have fewer : decodeFuel buf ((buf.getD pos 0 &&& 0x3F).toNat * 256 +
              (buf.getD (pos + 1) 0).toNat) (jumps + 1) < decodeFuel buf pos jumps := by
            have jump : 64 - jumps = 64 - (jumps + 1) + 1 := by omega
            unfold decodeFuel
            rw [jump, Nat.succ_mul]
            omega
          apply ih <;> omega
      split
      · rfl
      · rename_i fits
        rw [not_or] at fits
        have fewer : decodeFuel buf (pos + 1 + (buf.getD pos 0).toNat) jumps <
            decodeFuel buf pos jumps := by
          unfold decodeFuel
          omega
        apply ih <;> omega

theorem pointer_bits (len : UInt8) : len &&& 0xC0 = 0xC0 ↔ 192 ≤ len := by
  have all := forall_byte (p := fun b => (b &&& 0xC0 == 0xC0) == decide (192 ≤ b))
    (by decide +kernel) len
  rw [beq_iff_eq] at all
  rw [← beq_iff_eq, all, decide_eq_true_iff]

theorem label_bits (len : UInt8) : 63 < len ↔ 64 ≤ len := by
  rw [UInt8.lt_iff_toNat_lt, UInt8.le_iff_toNat_le]
  exact Iff.rfl

/-- Behind the first pointer the end of the name is known. -/
theorem decodeLoop_end (known : firstEnd ≠ 0)
    (decoded : decodeLoop buf outlen fuel pos jumps firstEnd out = some (name, e)) :
    e = firstEnd := by
  induction fuel generalizing pos jumps firstEnd out with
  | zero => cases decoded
  | succ fuel ih =>
    rw [decodeLoop] at decoded
    split at decoded
    · cases decoded
      rfl
    dsimp only at decoded
    split at decoded
    · cases decoded
      rfl
    split at decoded
    · split at decoded
      · cases decoded
      split at decoded
      · cases decoded
      · exact ih known decoded
    split at decoded
    · cases decoded
    · exact ih known decoded

/-- The dotted name of `labels` behind `out`. -/
def putAll (outlen : Nat) (labels : List Bytes) (out : Bytes) : Bytes :=
  labels.foldl (fun out label => putLabel outlen label out) out

/-- What the loop decodes, the decoder for labels reads. -/
theorem decodeLoop_sound (found : e ≠ 0)
    (decoded : decodeLoop buf outlen fuel pos jumps 0 out = some (name, e)) {n : Nat}
    (enough : buf.length - pos ≤ n) :
    ∃ labels pointer rest, readLabels n (buf.drop pos) = some (labels, pointer, rest) ∧
      e + rest.length = buf.length ∧ (pointer = none → name = putAll outlen labels out) := by
  induction fuel generalizing pos out n with
  | zero => cases decoded
  | succ fuel ih =>
    rw [decodeLoop] at decoded
    split at decoded
    · cases decoded
      exact absurd rfl found
    rename_i inside
    have inside := Nat.lt_of_not_le inside
    obtain ⟨n, rfl⟩ := Nat.exists_eq_succ_of_ne_zero (show n ≠ 0 by omega)
    have byte : buf.getD pos 0 = buf[pos] := by simp [List.getD, inside]
    rw [List.drop_eq_getElem_cons inside, readLabels_cons]
    dsimp only at decoded
    rw [byte] at decoded
    split at decoded
    · rename_i root
      cases decoded
      refine ⟨[], none, buf.drop (pos + 1), if_pos root, ?_, fun _ => rfl⟩
      rw [if_pos rfl, List.length_drop]
      omega
    rename_i some_label
    rw [if_neg some_label]
    split at decoded
    · rename_i bits
      split at decoded
      · cases decoded
      rename_i more
      have more := Nat.lt_of_not_le more
      split at decoded
      · cases decoded
      rw [if_pos rfl] at decoded
      have known := decodeLoop_end (Nat.succ_ne_zero _) decoded
      rw [if_pos ((pointer_bits _).mp bits), List.drop_eq_getElem_cons more]
      refine ⟨[], _, buf.drop (pos + 2), rfl, ?_, nofun⟩
      rw [known, List.length_drop]
      omega
    rename_i bits
    rw [if_neg (fun far => bits ((pointer_bits _).mpr far))]
    split at decoded
    · cases decoded
    rename_i fits
    rw [not_or, Nat.not_lt] at fits
    obtain ⟨labels, pointer, rest, read, length, same⟩ := ih (n := n) decoded (by omega)
    have fits' : ¬((64 : UInt8) ≤ buf[pos] ∨ (buf.drop (pos + 1)).length < buf[pos].toNat) := by
      rw [not_or, ← label_bits, List.length_drop]
      exact ⟨fits.1, by omega⟩
    rw [if_neg fits', List.drop_drop, read]
    refine ⟨_, pointer, rest, rfl, length, fun root => ?_⟩
    rw [same root, slice_eq_take_drop, Nat.add_sub_cancel_left]
    rfl

/-- What the decoder for labels reads up to the root, the loop decodes. -/
theorem decodeLoop_complete {n : Nat} (enough : labels.length < fuel)
    (read : readLabels n (buf.drop pos) = some (labels, none, rest)) :
    decodeLoop buf outlen fuel pos jumps 0 out =
      some (putAll outlen labels out, buf.length - rest.length) := by
  induction fuel generalizing pos out n labels with
  | zero => cases enough
  | succ fuel ih =>
    cases n with
    | zero => cases read
    | succ n =>
      rw [decodeLoop]
      by_cases inside : pos < buf.length
      · have byte : buf.getD pos 0 = buf[pos] := by simp [List.getD, inside]
        rw [if_neg (Nat.not_le.mpr inside)]
        rw [List.drop_eq_getElem_cons inside, readLabels_cons] at read
        dsimp only
        rw [byte]
        split at read
        · rename_i root
          cases read
          rw [if_pos root, if_pos rfl, List.length_drop]
          have last : buf.length - (buf.length - (pos + 1)) = pos + 1 := by omega
          rw [last]
          rfl
        rename_i some_label
        rw [if_neg some_label]
        split at read
        · split at read <;> cases read
        rename_i near
        rw [if_neg (fun bits => near ((pointer_bits _).mp bits))]
        split at read
        · cases read
        rename_i fits
        rw [not_or, ← label_bits, List.length_drop] at fits
        have fits' : ¬(63 < buf[pos] ∨ buf.length < pos + 1 + buf[pos].toNat) := by
          rw [not_or]
          exact ⟨fits.1, by omega⟩
        split at read
        · rename_i later
          cases read
          rw [List.drop_drop] at later
          rw [if_neg fits', ih (Nat.lt_of_succ_lt_succ enough) later, slice_eq_take_drop,
            Nat.add_sub_cancel_left]
          rfl
        · cases read
      · rw [List.drop_eq_nil_of_le (Nat.le_of_not_lt inside)] at read
        cases read

variable {off n : Nat}

theorem dnsDecodeName_sound (decoded : dnsDecodeName buf off outlen = some (name, n)) :
    ∃ labels pointer rest, readLabels (buf.length - off) (buf.drop off) = some (labels, pointer, rest) ∧
      off + n + rest.length = buf.length ∧ (pointer = none → name = putAll outlen labels []) := by
  unfold dnsDecodeName at decoded
  split at decoded
  · cases decoded
  rename_i looped
  split at decoded
  · rename_i longer
    cases decoded
    obtain ⟨labels, pointer, rest, read, length, same⟩ :=
      decodeLoop_sound (Nat.ne_of_gt (Nat.zero_lt_of_lt longer)) looped (Nat.le_refl _)
    exact ⟨labels, pointer, rest, read, by omega, same⟩
  · cases decoded

theorem dnsDecodeName_complete {m : Nat}
    (read : readLabels m (buf.drop off) = some (labels, none, rest)) :
    dnsDecodeName buf off outlen =
      some (putAll outlen labels [], (buf.drop off).length - rest.length) := by
  obtain ⟨taken, whole, longer, _⟩ := readLabels_prefix read
  have length : buf.length - off = taken.length + rest.length := by
    rw [← List.length_drop, whole, List.length_append]
  have enough : labels.length < decodeFuel buf off 0 := by
    unfold decodeFuel
    omega
  rw [dnsDecodeName, decodeLoop_complete enough read]
  dsimp only
  rw [if_pos (by omega), List.length_drop, Nat.sub_right_comm]

end DnsQuestion
