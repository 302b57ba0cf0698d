import NanoProxy.StringBuffer

/-!
# How far a StringBuf grows (include/stringbuf.h)

`stringbuf_reserve` doubles the capacity and compares the result with the cap. The capacity may
be what an earlier request has asked for, more than half of the cap; from there the buffer does
not grow any more, whatever is left below the cap.
-/

namespace StringBufGrowth

open CLib StringBuffer

/-- The buffers that successful appends make of a new one. -/
inductive Reachable : StringBuf → Prop where
  | init (capacityHint : Nat) : Reachable (stringbufInit capacityHint)
  | append {sb sb' : StringBuf} (src : Bytes) :
    Reachable sb → stringbufAppend sb src = some sb' → Reachable sb'

structure Bounded (sb : StringBuf) : Prop where
  owned : sb.owned = true
  fits : sb.size < sb.capacity
  limited : sb.capacity ≤ STRINGBUF_MAX_CAP

variable {sb sb' : StringBuf} {src : Bytes}

/-- The three lines that choose the new capacity. -/
theorem newcap_eq (cap need : Nat) :
    (if (if cap * 2 < need then need else cap * 2) < 128 then 128
      else if cap * 2 < need then need else cap * 2) = max 128 (max (2 * cap) need) := by
  split <;> split <;> omega

theorem stringbufReserve_eq (bounded : Bounded sb) {need : Nat}
    (below : need + 1 ≤ STRINGBUF_MAX_CAP) :
    stringbufReserve sb need = if need + 1 ≤ sb.capacity then some sb
      else if 2 * sb.capacity ≤ STRINGBUF_MAX_CAP
        then some { sb with capacity := max 128 (max (2 * sb.capacity) (need + 1)) } else none := by
  have hmax : STRINGBUF_MAX_CAP = 67108864 := by decide
  have hss : SSIZE_MAX = 9223372036854775807 := by decide
  have limited := bounded.limited
  unfold stringbufReserve
  dsimp only
  rw [newcap_eq, if_neg (by omega)]
  by_cases room : need + 1 ≤ sb.capacity
  · rw [if_pos room, if_pos room]
  rw [if_neg room, if_neg room, bounded.owned, if_neg (by decide), if_neg (by omega)]
  by_cases double : 2 * sb.capacity ≤ STRINGBUF_MAX_CAP
  · rw [if_pos double, if_neg (by omega)]
  · rw [if_neg double, if_pos (by omega)]

theorem stringbufAppend_eq (bounded : Bounded sb) (nonempty : src ≠ [])
    (below : sb.size + src.length + 1 ≤ STRINGBUF_MAX_CAP) :
    stringbufAppend sb src = if sb.size + src.length + 1 ≤ sb.capacity
      then some { sb with data := sb.data ++ src }
      else if 2 * sb.capacity ≤ STRINGBUF_MAX_CAP then some { sb with
        data := sb.data ++ src
        capacity := max 128 (max (2 * sb.capacity) (sb.size + src.length + 1)) }
      else none := by
  have hmax : STRINGBUF_MAX_CAP = 67108864 := by decide
  have hss : SSIZE_MAX = 9223372036854775807 := by decide
  have some : 0 < src.length := List.length_pos_iff.mpr nonempty
  rw [stringbufAppend, if_neg (by omega), if_neg (by omega), stringbufReserve_eq bounded below]
  by_cases room : sb.size + src.length + 1 ≤ sb.capacity
  · rw [if_pos room, if_pos room]
    exact if_neg (by omega)
  rw [if_neg room, if_neg room]
  by_cases double : 2 * sb.capacity ≤ STRINGBUF_MAX_CAP
  · rw [if_pos double, if_pos double]
    refine if_neg ?_
    change ¬ max 128 (max (2 * sb.capacity) (sb.size + src.length + 1)) ≤ sb.size + src.length
    omega
  · rw [if_neg double, if_neg double]

theorem stringbufInit_bounded (capacityHint : Nat) : Bounded (stringbufInit capacityHint) := by
  have hmax : STRINGBUF_MAX_CAP = 67108864 := by decide
  have hdefault : STRINGBUF_DEFAULT_CAP = 65536 := by decide
  unfold stringbufInit
  constructor
  · rfl
  · dsimp only [StringBuf.size, List.length_nil]
    split <;> omega
  · dsimp only
    split <;> omega

theorem Bounded.append (bounded : Bounded sb) (grown : stringbufAppend sb src = some sb') :
    Bounded sb' := by
  have nonempty := (stringbufAppend_data grown).1
  by_cases below : sb.size + src.length + 1 ≤ STRINGBUF_MAX_CAP
  · rw [stringbufAppend_eq bounded nonempty below] at grown
    have length : (sb.data ++ src).length = sb.size + src.length := List.length_append
    have limited := bounded.limited
    have hmax : STRINGBUF_MAX_CAP = 67108864 := by decide
    by_cases room : sb.size + src.length + 1 ≤ sb.capacity
    · rw [if_pos room] at grown
      cases grown
      refine ⟨bounded.owned, ?_, limited⟩
      change (sb.data ++ src).length < sb.capacity
      omega
    · rw [if_neg room, Option.ite_none_right_eq_some] at grown
      obtain ⟨double, ⟨rfl⟩⟩ := grown
      refine ⟨bounded.owned, ?_, ?_⟩
      · change (sb.data ++ src).length < max 128 (max (2 * sb.capacity) (sb.size + src.length + 1))
        omega
      · change max 128 (max (2 * sb.capacity) (sb.size + src.length + 1)) ≤ STRINGBUF_MAX_CAP
        omega
  · rw [stringbufAppend_none (by omega) bounded.limited] at grown
    cases grown

theorem Reachable.bounded (reachable : Reachable sb) : Bounded sb := by
  induction reachable with
  | init capacityHint => exact stringbufInit_bounded capacityHint
  | append src _ grown ih => exact ih.append grown

/-- An append below the cap succeeds exactly if the bytes fit already or the capacity can be
doubled. -/
theorem stringbufAppend_succeeds_iff (reachable : Reachable sb) (nonempty : src ≠ [])
    (below : sb.size + src.length + 1 ≤ STRINGBUF_MAX_CAP) :
    (stringbufAppend sb src).isSome ↔
      sb.size + src.length + 1 ≤ sb.capacity ∨ 2 * sb.capacity ≤ STRINGBUF_MAX_CAP := by
  rw [stringbufAppend_eq reachable.bounded nonempty below]
  by_cases room : sb.size + src.length + 1 ≤ sb.capacity
  · rw [if_pos room]
    exact ⟨fun _ => Or.inl room, fun _ => rfl⟩
  rw [if_neg room]
  by_cases double : 2 * sb.capacity ≤ STRINGBUF_MAX_CAP
  · rw [if_pos double]
    exact ⟨fun _ => Or.inr double, fun _ => rfl⟩
  · rw [if_neg double]
    exact ⟨nofun, fun either => absurd either (not_or.mpr ⟨room, double⟩)⟩

theorem stringbufAppend_succeeds_byte : (stringbufAppend (stringbufInit 0) [65]).isSome ↔
    (stringbufInit 0).size + [65].length + 1 ≤ (stringbufInit 0).capacity ∨
      2 * (stringbufInit 0).capacity ≤ STRINGBUF_MAX_CAP :=
  stringbufAppend_succeeds_iff (.init 0) (by decide) (by decide)

/-- A new buffer after one append of 40 MiB. -/
theorem reachable_upload : ∃ sb, Reachable sb ∧ sb.size = 41943040 ∧ sb.capacity = 41943041 := by
  have text (n : Nat) : ∃ src : Bytes, src.length = n :=
    ⟨List.replicate n 0, List.length_replicate⟩
  obtain ⟨src, length⟩ := text 41943040
  have hmax : STRINGBUF_MAX_CAP = 67108864 := by decide
  have cap : (stringbufInit 0).capacity = 65536 := by decide
  have empty : (stringbufInit 0).size = 0 := by decide
  have nonempty : src ≠ [] := List.length_pos_iff.mp (by omega)
  have grown := stringbufAppend_eq (stringbufInit_bounded 0) nonempty (by omega)
  rw [if_neg (by omega), if_pos (by omega)] at grown
  refine ⟨_, .append src (.init 0) grown, length, ?_⟩
  dsimp only
  omega

/-- The next byte is refused, with 24 MiB left. -/
theorem stringbufAppend_refused : ¬ ∀ sb : StringBuf, Reachable sb → ∀ src : Bytes, src ≠ [] →
    sb.size + src.length + 1 ≤ STRINGBUF_MAX_CAP → (stringbufAppend sb src).isSome := by
  intro succeeds
  have hmax : STRINGBUF_MAX_CAP = 67108864 := by decide
  obtain ⟨sb, reachable, size, cap⟩ := reachable_upload
  have one : ([65] : Bytes).length = 1 := rfl
  have accepted := succeeds sb reachable [65] (by decide) (by omega)
  rw [stringbufAppend_eq reachable.bounded (by decide) (by omega), if_neg (by omega),
    if_neg (by omega)] at accepted
  cases accepted

end StringBufGrowth
