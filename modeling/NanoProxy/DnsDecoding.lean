import NanoProxy.DnsResponder
import NanoProxy.Lib.Traced

/-!
# dns_decode_name with its memory (include/dns.h)

The packet is a memory that goes on behind `buflen`, and every access to it and to `out` is
an event. The result is the `int` that the function returns and the text in `out`.
-/

namespace DnsDecoding

open CLib DnsResponder Traced Traced.Run

inductive Access where
  | read (i : Nat)
  | write (i : Nat)
  deriving DecidableEq

variable (mem : Nat → UInt8)

def readByte (i : Nat) : Run Access UInt8 := step (.read i) (mem i)

/-- `out[opos++] = c` -/
def putByte (out : Bytes) (c : UInt8) : Run Access Bytes := step (.write out.length) (out ++ [c])

/-- The loop over the bytes of a label; `left` is `len - i`. -/
def copyLabel (outlen : Nat) : (left i : Nat) → Bytes → Run Access Bytes
  | 0, _, out => pure out
  | left + 1, i, out =>
    if out.length < outlen - 1 then do
      let c ← readByte mem i
      let out ← putByte out (tolower c)
      copyLabel outlen left (i + 1) out
    else pure out

def putDot (outlen : Nat) (out : Bytes) : Run Access Bytes :=
  if 0 < out.length ∧ out.length < outlen - 1 then putByte out DOT else pure out

def decodeLoop (buflen outlen : Nat) :
    (fuel pos jumps firstEnd : Nat) → Bytes → Run Access (Option (Bytes × Nat))
  | 0, _, _, _, _ => outOfFuel
  | fuel + 1, pos, jumps, firstEnd, out =>
    if buflen ≤ pos then pure (some (out, firstEnd)) else do
    let len ← readByte mem pos
    if len = 0 then pure (some (out, if firstEnd = 0 then pos + 1 else firstEnd))
    else if len &&& 0xC0 = 0xC0 then
      if buflen ≤ pos + 1 then pure none else do
      let firstEnd := if firstEnd = 0 then pos + 2 else firstEnd
      let low ← readByte mem (pos + 1)
      let ptr := (len &&& 0x3F).toNat * 256 + low.toNat
      if buflen ≤ ptr ∨ 64 < jumps + 1 then pure none
      else decodeLoop buflen outlen fuel ptr (jumps + 1) firstEnd out
    else if 63 < len ∨ buflen < pos + 1 + len.toNat then pure none
    else do
      let out ← putDot outlen out
      let out ← copyLabel mem outlen len.toNat (pos + 1) out
      decodeLoop buflen outlen fuel (pos + 1 + len.toNat) jumps firstEnd out

/-- Up to 64 jumps, and in between no position twice. -/
def jumpFuel (buflen pos jumps : Nat) : Nat := (64 - jumps) * (buflen + 2) + (buflen + 1 - pos)

/-- `(int)(first_end - off)` -/
def toInt32 (n : Nat) : Int := (BitVec.ofNat 32 n).toInt

def dnsDecodeName (buflen off outlen : Nat) : Run Access (Int × Bytes) := do
  match ← decodeLoop mem buflen outlen (jumpFuel buflen off 0) off 0 0 [] with
  | none => pure (-1, [])
  | some (out, firstEnd) =>
    step (.write out.length) (if off < firstEnd then toInt32 (firstEnd - off) else -1, out)

/-- The accesses that stay in the packet and in `out`. -/
def Within (buflen outlen : Nat) : Access → Prop
  | .read i => i < buflen
  | .write i => i < outlen

/-- The name at `pos` has `n` bytes of its own: labels up to the root or to a pointer. -/
inductive OwnBytes (buflen : Nat) : (pos n : Nat) → Prop
  | root {pos : Nat} (inside : pos < buflen) (zero : mem pos = 0) : OwnBytes buflen pos 1
  | pointer {pos : Nat} (inside : pos + 1 < buflen) (mark : mem pos &&& 0xC0 = 0xC0) :
    OwnBytes buflen pos 2
  | label {pos n : Nat} (nonzero : mem pos ≠ 0) (short : mem pos ≤ 63)
    (rest : OwnBytes buflen (pos + 1 + (mem pos).toNat) n) :
    OwnBytes buflen pos (1 + (mem pos).toNat + n)

variable {mem} {buflen outlen : Nat}

theorem OwnBytes.inside {pos n : Nat} (h : OwnBytes mem buflen pos n) :
    0 < n ∧ pos + n ≤ buflen := by
  induction h with
  | root inside _ => exact ⟨Nat.one_pos, inside⟩
  | pointer inside _ => exact ⟨Nat.two_pos, inside⟩
  | label _ _ _ ih =>
    obtain ⟨_, bound⟩ := ih
    omega

theorem putDot_meets {out : Bytes} (room : out.length < outlen) :
    Meets (putDot outlen out) (Within buflen outlen) fun out' =>
      out' = (if 0 < out.length ∧ out.length < outlen - 1 then out ++ [DOT] else out) ∧
        out'.length < outlen := by
  unfold putDot
  split
  · rename_i dot
    refine Meets.step room ⟨rfl, ?_⟩
    rw [List.length_append, List.length_singleton]
    omega
  · exact Meets.pure ⟨rfl, room⟩

/-- What the loop copies is cut where `out` ends. -/
theorem copyLabel_meets {left i : Nat} {out : Bytes} (inside : i + left ≤ buflen)
    (room : out.length < outlen) :
    Meets (copyLabel mem outlen left i out) (Within buflen outlen) fun out' =>
      out' = out ++ ((window mem i left).take (outlen - 1 - out.length)).map tolower ∧
        out'.length < outlen := by
  induction left generalizing i out with
  | zero =>
    refine Meets.pure ⟨?_, room⟩
    rw [window, List.take_nil, List.map_nil, List.append_nil]
  | succ left ih =>
    unfold copyLabel
    split
    · rename_i more
      have grown : (out ++ [tolower (mem i)]).length = out.length + 1 := by
        rw [List.length_append, List.length_singleton]
      have here : i < buflen := by omega
      refine Meets.step_bind here (Meets.step_bind room ?_)
      refine (ih (i := i + 1) (by omega) (by omega)).imp ?_
      rintro out' ⟨rfl, bound⟩
      refine ⟨?_, bound⟩
      have count : outlen - 1 - out.length = outlen - 1 - (out.length + 1) + 1 := by omega
      rw [window, count, List.take_succ_cons, List.map_cons, grown, List.append_assoc,
        List.singleton_append]
    · rename_i full
      refine Meets.pure ⟨?_, room⟩
      rw [Nat.sub_eq_zero_of_le (Nat.le_of_not_lt full), List.take_zero, List.map_nil,
        List.append_nil]

/-- What the loop knows of the name at `off` when it stands at `pos`: the labels in between,
or, behind the first jump, all of it. -/
def Reached (mem : Nat → UInt8) (buflen off pos firstEnd : Nat) : Prop :=
  (firstEnd = 0 ∧ off ≤ pos ∧
      ∀ n, OwnBytes mem buflen pos n → OwnBytes mem buflen off (pos - off + n)) ∨
    (off < firstEnd ∧ OwnBytes mem buflen off (firstEnd - off))

/-- The end of the name in the stream is known, or it is `n` bytes on. -/
theorem Reached.ends {off pos firstEnd n : Nat} (reached : Reached mem buflen off pos firstEnd)
    (own : OwnBytes mem buflen pos n) :
    off < (if firstEnd = 0 then pos + n else firstEnd) ∧
      OwnBytes mem buflen off ((if firstEnd = 0 then pos + n else firstEnd) - off) := by
  rcases reached with ⟨rfl, behind, whole⟩ | ⟨known, whole⟩
  · have nonempty := own.inside.1
    rw [if_pos rfl, Nat.sub_add_comm behind]
    exact ⟨by omega, whole n own⟩
  · rw [if_neg (by omega)]
    exact ⟨known, whole⟩

theorem Reached.label {off pos firstEnd : Nat} (reached : Reached mem buflen off pos firstEnd)
    (nonzero : mem pos ≠ 0) (short : mem pos ≤ 63) :
    Reached mem buflen off (pos + 1 + (mem pos).toNat) firstEnd := by
  rcases reached with ⟨first, behind, whole⟩ | known
  · refine Or.inl ⟨first, by omega, fun n own => ?_⟩
    have longer := whole _ (OwnBytes.label nonzero short own)
    have same : pos - off + (1 + (mem pos).toNat + n) = pos + 1 + (mem pos).toNat - off + n := by
      omega
    rwa [same] at longer
  · exact Or.inr known

theorem jumpFuel_jump {buflen pos jumps ptr fuel : Nat} (enough : jumpFuel buflen pos jumps ≤ fuel + 1)
    (few : jumps < 64) (inside : ptr < buflen) :
    jumpFuel buflen ptr (jumps + 1) ≤ fuel ∧ 0 < fuel := by
  unfold jumpFuel at *
  have turn : 64 - jumps = 64 - (jumps + 1) + 1 := by omega
  rw [turn, Nat.add_mul, Nat.one_mul] at enough
  omega

theorem decodeLoop_meets {off fuel pos jumps firstEnd : Nat} {out : Bytes}
    (enough : jumpFuel buflen pos jumps ≤ fuel) (fueled : 0 < fuel)
    (reached : Reached mem buflen off pos firstEnd) (room : out.length < outlen) :
    Meets (decodeLoop mem buflen outlen fuel pos jumps firstEnd out) (Within buflen outlen) fun r =>
      r = DnsResponder.decodeLoop (window mem 0 buflen) outlen fuel pos jumps firstEnd out ∧
        ∀ out' firstEnd', r = some (out', firstEnd') → out'.length < outlen ∧
          (off < firstEnd' → OwnBytes mem buflen off (firstEnd' - off)) := by
  induction fuel generalizing pos jumps firstEnd out with
  | zero => omega
  | succ fuel ih =>
    unfold decodeLoop DnsResponder.decodeLoop
    rw [window_length]
    split
    · refine Meets.pure ⟨rfl, ?_⟩
      rintro _ _ ⟨⟩
      refine ⟨room, fun known => ?_⟩
      rcases reached with ⟨rfl, _⟩ | ⟨_, whole⟩
      · omega
      · exact whole
    · rename_i left
      have inside : pos < buflen := Nat.lt_of_not_le left
      have here : (window mem 0 buflen).getD pos 0 = mem pos := by
        rw [window_getD 0 inside, Nat.zero_add]
      dsimp only
      rw [here]
      refine Meets.step_bind inside ?_
      by_cases root : mem pos = 0
      · rw [if_pos root, if_pos root]
        refine Meets.pure ⟨rfl, ?_⟩
        rintro _ _ ⟨⟩
        exact ⟨room, fun _ => (reached.ends (.root inside root)).2⟩
      rw [if_neg root, if_neg root]
      by_cases mark : mem pos &&& 0xC0 = 0xC0
      · rw [if_pos mark, if_pos mark]
        by_cases last : buflen ≤ pos + 1
        · rw [if_pos last, if_pos last]
          exact Meets.pure ⟨rfl, fun _ _ absent => nomatch absent⟩
        rw [if_neg last, if_neg last]
        have next : pos + 1 < buflen := Nat.lt_of_not_le last
        have low : (window mem 0 buflen).getD (pos + 1) 0 = mem (pos + 1) := by
          rw [window_getD 0 next, Nat.zero_add]
        rw [low]
        refine Meets.step_bind next ?_
        split
        · exact Meets.pure ⟨rfl, fun _ _ absent => nomatch absent⟩
        · rename_i goes
          rw [not_or] at goes
          have target := Nat.lt_of_not_le goes.1
          obtain ⟨enough, fueled⟩ := jumpFuel_jump enough (by omega) target
          exact ih enough fueled (Or.inr (reached.ends (.pointer next mark))) room
      · rw [if_neg mark, if_neg mark]
        by_cases long : 63 < mem pos ∨ buflen < pos + 1 + (mem pos).toNat
        · rw [if_pos long, if_pos long]
          exact Meets.pure ⟨rfl, fun _ _ absent => nomatch absent⟩
        rw [if_neg long, if_neg long]
        rw [not_or, UInt8.not_lt, Nat.not_lt] at long
        have label : slice (window mem 0 buflen) (pos + 1) (pos + 1 + (mem pos).toNat) =
            window mem (pos + 1) (mem pos).toNat := by
          rw [slice, window_take 0 long.2, window_drop, Nat.zero_add, Nat.add_sub_cancel_left]
        rw [label]
        refine (putDot_meets room).bind ?_
        rintro _ ⟨rfl, room⟩
        refine (copyLabel_meets long.2 room).bind ?_
        rintro _ ⟨rfl, room⟩
        exact ih (by unfold jumpFuel at *; omega) (by unfold jumpFuel at *; omega)
          (reached.label root long.1) room

theorem toInt32_of_lt {n : Nat} (small : n < 2 ^ 31) : toInt32 n = n := by
  rw [toInt32, BitVec.toInt_ofNat']
  exact Int.bmod_eq_of_le (by omega) (by omega)

/-- What the conversion changes comes out smaller. -/
theorem toInt32_le (n : Nat) : toInt32 n ≤ n := by
  rw [toInt32, BitVec.toInt_ofNat', Int.bmod_def]
  split <;> omega

/-- The function agrees with the one on lists, as long as its result is an `int`. -/
theorem dnsDecodeName_meets {off : Nat} (room : 1 ≤ outlen) :
    Meets (dnsDecodeName mem buflen off outlen) (Within buflen outlen) fun r =>
      (buflen < 2 ^ 31 → DnsResponder.dnsDecodeName (window mem 0 buflen) off outlen =
        if 0 < r.1 then some (r.2, r.1.toNat) else none) ∧
      (0 < r.1 → off + r.1.toNat ≤ buflen ∧
        (buflen < 2 ^ 31 → OwnBytes mem buflen off r.1.toNat)) := by
  have start : Reached mem buflen off off 0 :=
    Or.inl ⟨rfl, Nat.le_refl off, fun n own => by rwa [Nat.sub_self, Nat.zero_add]⟩
  have fuel : decodeFuel (window mem 0 buflen) off 0 = jumpFuel buflen off 0 := by
    rw [decodeFuel, jumpFuel, window_length]
  unfold dnsDecodeName DnsResponder.dnsDecodeName
  rw [fuel]
  refine (decodeLoop_meets (Nat.le_refl _) (by unfold jumpFuel; omega) start room).bind ?_
  rintro r ⟨same, ends⟩
  rw [← same]
  rcases r with _ | ⟨out, firstEnd⟩
  · exact Meets.pure ⟨fun _ => rfl, nofun⟩
  obtain ⟨bound, whole⟩ := ends out firstEnd rfl
  refine Meets.step bound ?_
  dsimp only
  by_cases known : off < firstEnd
  · have own := whole known
    obtain ⟨_, inside⟩ := own.inside
    rw [if_pos known, if_pos known]
    have smaller := toInt32_le (firstEnd - off)
    refine ⟨fun packet => ?_, fun positive => ⟨by omega, fun packet => ?_⟩⟩
    · rw [toInt32_of_lt (by omega), if_pos (by omega), Int.toNat_natCast]
    · rwa [toInt32_of_lt (by omega), Int.toNat_natCast]
  · rw [if_neg known, if_neg known]
    exact ⟨fun _ => rfl, fun positive => absurd positive (by decide)⟩

/-- Decoding comes to an end for every packet, offset and size, pointers that run in a circle
among them; it reads the packet and writes `out` only, and a name it has found lies in the
packet. The `int` of the result holds every length below 2 GiB. -/
theorem dnsDecodeName_bounded (mem : Nat → UInt8) (buflen off outlen : Nat) (room : 1 ≤ outlen) :
    Meets (dnsDecodeName mem buflen off outlen) (Within buflen outlen) fun r =>
      0 < r.1 → off + r.1.toNat ≤ buflen ∧
        (buflen < 2 ^ 31 → OwnBytes mem buflen off r.1.toNat) :=
  (dnsDecodeName_meets room).imp fun _ h => h.2

/-- A name that is a pointer to itself. -/
theorem dnsDecodeName_circle : 1 ≤ 256 ∧
    Meets (dnsDecodeName (fun _ => 0xC0) 512 12 256) (Within 512 256) fun r =>
      0 < r.1 → 12 + r.1.toNat ≤ 512 ∧
        (512 < 2 ^ 31 → OwnBytes (fun _ => 0xC0) 512 12 r.1.toNat) :=
  ⟨by decide, dnsDecodeName_bounded (fun _ => 0xC0) 512 12 256 (by decide)⟩

end DnsDecoding
