import NanoProxy.CLib

/-!
# StringBuf (include/stringbuf.h)

`data` holds the used bytes, so `size` is its length; the terminating NUL is not
part of it. An operation that returns `false` gives `none`. Allocation succeeds.
-/

namespace StringBuffer

open CLib

def STRINGBUF_DEFAULT_CAP : Nat := 1024 * 64
def STRINGBUF_MAX_CAP : Nat := 64 * 1024 * 1024
def SSIZE_MAX : Nat := 2 ^ 63 - 1

structure StringBuf where
  data : Bytes
  capacity : Nat
  owned : Bool
  deriving DecidableEq

abbrev StringBuf.size (sb : StringBuf) : Nat := sb.data.length

def stringbufInit (capacityHint : Nat) : StringBuf :=
  let cap := if capacityHint = 0 ∨ 1024 * 1024 * 16 < capacityHint
    then STRINGBUF_DEFAULT_CAP else capacityHint
  { data := [], capacity := cap, owned := true }

def stringbufReserve (sb : StringBuf) (need : Nat) : Option StringBuf :=
  if SSIZE_MAX - 1 < need then none
  else
    let need := need + 1
    if need ≤ sb.capacity then some sb
    else if !sb.owned then none
    else if SSIZE_MAX / 2 < sb.capacity then none
    else
      let newcap := sb.capacity * 2
      let newcap := if newcap < need then need else newcap
      let newcap := if newcap < 128 then 128 else newcap
      if STRINGBUF_MAX_CAP < newcap then none
      else some { sb with capacity := newcap }

def stringbufAppend (sb : StringBuf) (src : Bytes) : Option StringBuf :=
  if src.length = 0 then none
  else if SSIZE_MAX - src.length < sb.size then none
  else match stringbufReserve sb (sb.size + src.length) with
    | none => none
    | some sb =>
      if sb.capacity ≤ sb.size + src.length then none
      else some { sb with data := sb.data ++ src }

/-- `stringbuf_appendf` with the text its format produces. -/
def stringbufAppendf (sb : StringBuf) (text : Bytes) : Option StringBuf :=
  if SSIZE_MAX - text.length < sb.size then none
  else match stringbufReserve sb (sb.size + text.length) with
    | none => none
    | some sb => some { sb with data := sb.data ++ text }

def stringbufConsume (sb : StringBuf) (n : Nat) : StringBuf :=
  if n = 0 then sb
  else { sb with data := sb.data.drop (if sb.size < n then sb.size else n) }

def stringbufMemchr (sb : StringBuf) (c : UInt8) (start : Nat) : Option Nat :=
  if sb.size < start then none else memchr sb.data c start

def stringbufFind (sb : StringBuf) (start : Nat) (needle : Bytes) : Option Nat :=
  if sb.size < start ∨ needle.length = 0 ∨ sb.size - start < needle.length then none
  else match needle with
    | [c] => stringbufMemchr sb c start
    | _ => ((sb.data.drop start).tails.findIdx? fun t => needle.isPrefixOf t).map (start + ·)

theorem stringbufReserve_data {sb sb' : StringBuf} {need : Nat}
    (h : stringbufReserve sb need = some sb') : sb'.data = sb.data := by
  unfold stringbufReserve at h
  dsimp only at h
  by_cases hlarge : SSIZE_MAX - 1 < need
  · rw [if_pos hlarge] at h
    cases h
  rw [if_neg hlarge] at h
  by_cases hfit : need + 1 ≤ sb.capacity
  · rw [if_pos hfit] at h
    cases h
    rfl
  rw [if_neg hfit] at h
  by_cases howned : (!sb.owned) = true
  · rw [if_pos howned] at h
    cases h
  rw [if_neg howned] at h
  by_cases hcap : SSIZE_MAX / 2 < sb.capacity
  · rw [if_pos hcap] at h
    cases h
  rw [if_neg hcap, Option.ite_none_left_eq_some, Option.some.injEq] at h
  rw [← h.2]

theorem stringbufAppend_data {sb sb' : StringBuf} {src : Bytes}
    (h : stringbufAppend sb src = some sb') : src ≠ [] ∧ sb'.data = sb.data ++ src := by
  unfold stringbufAppend at h
  rw [Option.ite_none_left_eq_some, Option.ite_none_left_eq_some] at h
  obtain ⟨hsrc, -, h⟩ := h
  cases hr : stringbufReserve sb (sb.size + src.length) with
  | none =>
    rw [hr] at h
    cases h
  | some grown =>
    simp only [hr, Option.ite_none_left_eq_some, Option.some.injEq] at h
    refine ⟨fun hnil => hsrc (by rw [hnil]; rfl), ?_⟩
    rw [← h.2, ← stringbufReserve_data hr]

theorem stringbufAppendf_data {sb sb' : StringBuf} {text : Bytes}
    (h : stringbufAppendf sb text = some sb') : sb'.data = sb.data ++ text := by
  unfold stringbufAppendf at h
  rw [Option.ite_none_left_eq_some] at h
  cases hr : stringbufReserve sb (sb.size + text.length) with
  | none =>
    rw [hr] at h
    cases h.2
  | some grown =>
    simp only [hr, Option.some.injEq] at h
    rw [← h.2, ← stringbufReserve_data hr]

/-- What the doubling rule leaves: an owned buffer whose capacity has not outrun its
content. Reserving room then cannot fail while the content stays below half of the
maximum. -/
structure Grown (floor : Nat) (sb : StringBuf) : Prop where
  owned : sb.owned = true
  fits : sb.size < sb.capacity
  tight : sb.capacity ≤ max floor (2 * (sb.size + 1))

/-- The parser's buffer: capacities are powers of two between the two limits. -/
structure Doubling (sb : StringBuf) : Prop where
  owned : sb.owned = true
  fits : sb.size < sb.capacity
  power : ∃ k, sb.capacity = STRINGBUF_DEFAULT_CAP * 2 ^ k ∧ k ≤ 10

theorem stringbufMemchr_eq (sb : StringBuf) (c : UInt8) (start : Nat) :
    stringbufMemchr sb c start = memchr sb.data c start := by
  unfold stringbufMemchr
  split
  · rename_i h
    have hd : sb.data.drop start = [] := List.drop_eq_nil_of_le (by simpa [StringBuf.size] using h.le)
    simp [memchr, hd]
  · rfl

theorem stringbufFind_singleton (sb : StringBuf) (c : UInt8) (start : Nat) :
    stringbufFind sb start [c] = memchr sb.data c start := by
  unfold stringbufFind
  split
  · rename_i h
    have hle : sb.data.length ≤ start := by
      simp only [StringBuf.size, List.length_singleton] at h
      omega
    simp [memchr, List.drop_eq_nil_of_le hle]
  · exact stringbufMemchr_eq sb c start

theorem stringbufInit_doubling : Doubling (stringbufInit 0) where
  owned := rfl
  fits := by decide
  power := ⟨0, by decide, by decide⟩

theorem Doubling.capacity_le {sb : StringBuf} (h : Doubling sb) :
    sb.capacity ≤ STRINGBUF_MAX_CAP := by
  obtain ⟨k, hcap, hk⟩ := h.power
  rw [hcap]
  calc STRINGBUF_DEFAULT_CAP * 2 ^ k ≤ STRINGBUF_DEFAULT_CAP * 2 ^ 10 :=
        Nat.mul_le_mul_left _ (Nat.pow_le_pow_right (by decide) hk)
    _ = STRINGBUF_MAX_CAP := by decide

/-- A read of at most the default capacity never makes the buffer skip a power of
two, so the buffer accepts everything below the maximum. -/
theorem stringbufAppend_doubling {sb : StringBuf} {src : Bytes} (h : Doubling sb)
    (nonempty : src ≠ []) (bounded : src.length ≤ STRINGBUF_DEFAULT_CAP)
    (room : sb.size + src.length < STRINGBUF_MAX_CAP) :
    ∃ sb', stringbufAppend sb src = some sb' ∧ sb'.data = sb.data ++ src ∧ Doubling sb' := by
  obtain ⟨k, hcap, hk⟩ := h.power
  have hfits := h.fits
  have hlen : src.length ≠ 0 := by simpa using nonempty
  have hcap' := h.capacity_le
  have hcap₀ : STRINGBUF_DEFAULT_CAP ≤ sb.capacity := by
    rw [hcap]
    exact Nat.le_mul_of_pos_right _ (Nat.two_pow_pos k)
  have hmax : STRINGBUF_MAX_CAP = 67108864 := by decide
  have hdef : STRINGBUF_DEFAULT_CAP = 65536 := by decide
  have hss : SSIZE_MAX = 9223372036854775807 := by decide
  by_cases hfit : sb.size + src.length + 1 ≤ sb.capacity
  · refine ⟨{ sb with data := sb.data ++ src }, ?_, rfl, h.owned, ?_, k, hcap, hk⟩
    · have hr : stringbufReserve sb (sb.size + src.length) = some sb := by
        rw [stringbufReserve, if_neg (by omega), if_pos hfit]
      rw [stringbufAppend, if_neg hlen, if_neg (by omega), hr]
      exact if_neg (by omega)
    · simp only [StringBuf.size, List.length_append] at hfit ⊢
      omega
  · -- the capacity is below the maximum, so its double is still a legal power
    have hlt : k < 10 := by
      by_contra hge
      have : k = 10 := by omega
      subst this
      have : sb.capacity = STRINGBUF_MAX_CAP := by rw [hcap]; decide
      omega
    have hdouble : sb.capacity * 2 ≤ STRINGBUF_MAX_CAP := by
      rw [hcap, Nat.mul_assoc, ← Nat.pow_succ]
      calc STRINGBUF_DEFAULT_CAP * 2 ^ (k + 1) ≤ STRINGBUF_DEFAULT_CAP * 2 ^ 10 :=
            Nat.mul_le_mul_left _ (Nat.pow_le_pow_right (by decide) hlt)
        _ = STRINGBUF_MAX_CAP := by decide
    have hr : stringbufReserve sb (sb.size + src.length) =
        some { sb with capacity := sb.capacity * 2 } := by
      rw [stringbufReserve, if_neg (by omega), if_neg hfit]
      simp only [h.owned]
      have hnew : ¬ sb.capacity * 2 < sb.size + src.length + 1 := by omega
      have hmin : ¬ sb.capacity * 2 < 128 := by omega
      rw [if_neg (by decide), if_neg (by omega), if_neg hnew, if_neg hmin, if_neg (by omega)]
    refine ⟨{ sb with capacity := sb.capacity * 2, data := sb.data ++ src }, ?_, rfl, h.owned,
      ?_, k + 1, ?_, hlt⟩
    · rw [stringbufAppend, if_neg hlen, if_neg (by omega), hr]
      exact if_neg (by simp only [StringBuf.size] at *; omega)
    · simp only [StringBuf.size, List.length_append] at *
      omega
    · rw [hcap, Nat.mul_assoc, ← Nat.pow_succ]

/-- Above the maximum the buffer refuses to grow. -/
theorem stringbufAppend_none {sb : StringBuf} {src : Bytes}
    (full : STRINGBUF_MAX_CAP ≤ sb.size + src.length) (cap : sb.capacity ≤ STRINGBUF_MAX_CAP) :
    stringbufAppend sb src = none := by
  have hr : stringbufReserve sb (sb.size + src.length) = none := by
    unfold stringbufReserve
    dsimp only
    split
    · rfl
    rw [if_neg (by omega)]
    split
    · rfl
    split
    · rfl
    rw [if_pos]
    split <;> split <;> omega
  rw [stringbufAppend]
  split
  · rfl
  split
  · rfl
  rw [hr]

theorem stringbufInit_grown : Grown STRINGBUF_DEFAULT_CAP (stringbufInit 0) where
  owned := rfl
  fits := by decide
  tight := by decide

theorem stringbufReserve_grown {floor : Nat} {sb : StringBuf} (need : Nat) (h : Grown floor sb)
    (large : 128 ≤ floor) (double : sb.capacity * 2 ≤ STRINGBUF_MAX_CAP ∨ need + 1 ≤ sb.capacity)
    (room : need < STRINGBUF_MAX_CAP) (grows : sb.size ≤ need) :
    ∃ cap, stringbufReserve sb need = some { sb with capacity := cap } ∧ need < cap ∧
      cap ≤ max floor (2 * (need + 1)) := by
  have htight := h.tight
  have hmax : STRINGBUF_MAX_CAP = 67108864 := by decide
  have hss : SSIZE_MAX = 9223372036854775807 := by decide
  unfold stringbufReserve
  dsimp only
  rw [if_neg (by omega)]
  by_cases hfit : need + 1 ≤ sb.capacity
  · rw [if_pos hfit]
    exact ⟨sb.capacity, rfl, by omega, by omega⟩
  rw [if_neg hfit]
  simp only [h.owned, Bool.not_true, Bool.false_eq_true, if_false]
  have hdouble := double.resolve_right hfit
  rw [if_neg (by omega)]
  refine ⟨max 128 (max (sb.capacity * 2) (need + 1)), ?_, by omega, by omega⟩
  have hcap : (if (if sb.capacity * 2 < need + 1 then need + 1 else sb.capacity * 2) < 128
      then 128 else if sb.capacity * 2 < need + 1 then need + 1 else sb.capacity * 2) =
      max 128 (max (sb.capacity * 2) (need + 1)) := by
    split <;> split <;> omega
  rw [hcap, if_neg (by omega)]

/-- Room below half of the maximum is always granted. -/
theorem stringbufAppendf_grown {floor : Nat} {sb : StringBuf} (text : Bytes) (h : Grown floor sb)
    (large : 128 ≤ floor) (small : 2 * floor ≤ STRINGBUF_MAX_CAP)
    (room : 4 * (sb.size + text.length + 1) ≤ STRINGBUF_MAX_CAP) :
    ∃ sb', stringbufAppendf sb text = some sb' ∧ sb'.data = sb.data ++ text ∧ Grown floor sb' := by
  have htight := h.tight
  have hmax : STRINGBUF_MAX_CAP = 67108864 := by decide
  have hss : SSIZE_MAX = 9223372036854775807 := by decide
  obtain ⟨cap, hr, hneed, hcap⟩ := stringbufReserve_grown (sb.size + text.length) h large
    (Or.inl (by omega)) (by omega) (by omega)
  refine ⟨{ sb with capacity := cap, data := sb.data ++ text }, ?_, rfl, h.owned, ?_, ?_⟩
  · rw [stringbufAppendf, if_neg (by omega), hr]
  · simpa [StringBuf.size] using hneed
  · simpa [StringBuf.size] using hcap

theorem stringbufAppend_grown {floor : Nat} {sb : StringBuf} {src : Bytes} (h : Grown floor sb)
    (nonempty : src ≠ []) (large : 128 ≤ floor) (double : sb.capacity * 2 ≤ STRINGBUF_MAX_CAP)
    (room : sb.size + src.length < STRINGBUF_MAX_CAP) :
    ∃ sb', stringbufAppend sb src = some sb' ∧ sb'.data = sb.data ++ src ∧ Grown floor sb' := by
  have hmax : STRINGBUF_MAX_CAP = 67108864 := by decide
  have hss : SSIZE_MAX = 9223372036854775807 := by decide
  obtain ⟨cap, hr, hneed, hcap⟩ := stringbufReserve_grown (sb.size + src.length) h large
    (Or.inl double) room (by omega)
  refine ⟨{ sb with capacity := cap, data := sb.data ++ src }, ?_, rfl, h.owned, ?_, ?_⟩
  · rw [stringbufAppend, if_neg (by simpa using nonempty), if_neg (by omega), hr]
    exact if_neg (by simpa [StringBuf.size] using hneed)
  · simpa [StringBuf.size] using hneed
  · simpa [StringBuf.size] using hcap

end StringBuffer
