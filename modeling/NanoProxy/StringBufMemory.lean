import NanoProxy.StringBuffer
import NanoProxy.Lib.Traced

/-!
# StringBuf in memory (include/stringbuf.h)

The operations once more, over the block behind `data` and with the `ssize_t` fields as they
are. The events are the writes to the block, each with the capacity at that time, and the
`ssize_t` sums. An allocation fails or gives memory with any content. Every operation
restores the invariant and does to the content what it does to a list of bytes.
-/

namespace StringBufMemory

open CLib StringBuffer Traced Traced.Run

inductive Event where
  /-- The bytes `data[start]` up to `data[start + len - 1]`. -/
  | write (start len capacity : Int)
  | sum (v : Int)

/-- `malloc` and `realloc`: NULL, or what the new bytes hold. -/
abbrev Alloc := Option (Nat → UInt8)

structure RawBuf where
  data : Bytes
  size : Int
  capacity : Int
  owned : Bool

/-- A C string: no NUL in it, and no longer than an object can be. -/
structure CString where
  text : Bytes
  noNul : 0 ∉ text
  short : text.length < SSIZE_MAX

/-- What `vsnprintf` makes of a format and its arguments; the length is an `int`. -/
structure Formatted where
  text : Bytes
  short : text.length < 2 ^ 31

def store (b : RawBuf) (start : Int) (bytes : Bytes) : Run Event RawBuf :=
  step (.write start bytes.length b.capacity) { b with data := splice b.data start.toNat bytes }

def sum (v : Int) : Run Event Int := step (.sum v) v

def realloc (fresh : Nat → UInt8) (block : Bytes) (n : Nat) : Bytes :=
  block.take n ++ window fresh block.length (n - block.length)

def stringbufInit (alloc : Alloc) (capacityHint : Nat) : Run Event (Option RawBuf) :=
  let cap := if capacityHint = 0 ∨ 1024 * 1024 * 16 < capacityHint
    then STRINGBUF_DEFAULT_CAP else capacityHint
  match alloc with
  | none => pure none
  | some fresh => do
    let b : RawBuf := { data := window fresh 0 cap, capacity := cap, size := 0, owned := true }
    let b ← store b 0 [0]
    pure (some b)

def stringbufReserve (alloc : Alloc) (b : RawBuf) (need : Int) : Run Event (Bool × RawBuf) :=
  if need < 0 ∨ SSIZE_MAX - 1 < need then pure (false, b) else do
  let need ← sum (need + 1)
  if need ≤ b.capacity then pure (true, b) else
  if !b.owned then pure (false, b) else
  if (SSIZE_MAX / 2 : Int) < b.capacity then pure (false, b) else do
  let newcap ← sum (b.capacity * 2)
  let newcap := if newcap < need then need else newcap
  let newcap := if newcap < 128 then 128 else newcap
  if STRINGBUF_MAX_CAP < newcap then pure (false, b) else
  match alloc with
  | none => pure (false, b)
  | some fresh =>
    pure (true, { b with data := realloc fresh b.data newcap.toNat, capacity := newcap })

/-- `src` is NULL, or points to memory with these bytes. -/
def stringbufAppend (alloc : Alloc) (b : RawBuf) (src : Option (Nat → UInt8)) (len : Int) :
    Run Event (Bool × RawBuf) :=
  match src with
  | none => pure (false, b)
  | some src =>
    if len ≤ 0 then pure (false, b) else
    if SSIZE_MAX - len < b.size then pure (false, b) else do
    let need ← sum (b.size + len)
    let (ok, b) ← stringbufReserve alloc b need
    if !ok then pure (false, b) else do
    let stop ← sum (b.size + len)
    if b.capacity ≤ stop then pure (false, b) else do
    let b ← store b b.size (window src 0 len.toNat)
    let size ← sum (b.size + len)
    let b ← store { b with size := size } size [0]
    pure (true, b)

def stringbufAppendStr (alloc : Alloc) (b : RawBuf) (str : Option CString) :
    Run Event (Bool × RawBuf) :=
  match str with
  | none => pure (false, b)
  | some str => stringbufAppend alloc b (some fun i => str.text.getD i 0) str.text.length

def stringbufAppendChar (alloc : Alloc) (b : RawBuf) (c : UInt8) : Run Event (Bool × RawBuf) := do
  let need ← sum (b.size + 1)
  let (ok, b) ← stringbufReserve alloc b need
  if !ok then pure (false, b) else do
  let b ← store b b.size [c]
  let size ← sum (b.size + 1)
  let b ← store { b with size := size } size [0]
  pure (true, b)

/-- `formatted` is what the first `vsnprintf` counts, `none` if it fails. -/
def stringbufAppendf (alloc : Alloc) (b : RawBuf) (formatted : Option Formatted) :
    Run Event (Bool × RawBuf) :=
  match formatted with
  | none => pure (false, b)
  | some formatted =>
    let needed : Int := formatted.text.length
    if SSIZE_MAX - needed < b.size then pure (false, b) else do
    let need ← sum (b.size + needed)
    let (ok, b) ← stringbufReserve alloc b need
    if !ok then pure (false, b) else do
    let room ← sum (b.capacity - b.size)
    let b ← store b b.size (formatted.text.take (room.toNat - 1) ++ [0])
    let size ← sum (b.size + needed)
    pure (true, { b with size := size })

def stringbufClear (b : RawBuf) : Run Event (Bool × RawBuf) := do
  let b ← store { b with size := 0 } 0 [0]
  pure (true, b)

def stringbufConsume (b : RawBuf) (n : Int) : Run Event (Bool × RawBuf) :=
  if n ≤ 0 then pure (true, b) else do
  let n := if b.size < n then b.size else n
  let left ← sum (b.size - n)
  let b ← store b 0 ((b.data.drop n.toNat).take left.toNat)
  let b ← store { b with size := left } left [0]
  pure (true, b)

/-- `stringbuf_consume` and `stringbuf_clear` return nothing and do not fail. -/
inductive Op where
  | append (src : Option (Nat → UInt8)) (len : Int)
  | appendStr (str : Option CString)
  | appendChar (c : UInt8)
  | appendf (formatted : Option Formatted)
  | consume (n : Int)
  | clear
  | reserve (need : Int)

def Op.run (alloc : Alloc) (b : RawBuf) : Op → Run Event (Bool × RawBuf)
  | .append src len => stringbufAppend alloc b src len
  | .appendStr str => stringbufAppendStr alloc b str
  | .appendChar c => stringbufAppendChar alloc b c
  | .appendf formatted => stringbufAppendf alloc b formatted
  | .consume n => stringbufConsume b n
  | .clear => stringbufClear b
  | .reserve need => stringbufReserve alloc b need

/-- What a successful operation does to a list of bytes. -/
def Op.apply (s : Bytes) : Op → Bytes
  | .append src len => s ++ (src.elim [] fun src => window src 0 len.toNat)
  | .appendStr str => s ++ (str.elim [] CString.text)
  | .appendChar c => s ++ [c]
  | .appendf formatted => s ++ (formatted.elim [] Formatted.text)
  | .consume n => s.drop n.toNat
  | .clear => []
  | .reserve _ => s

/-- The results of the calls and the states behind them. -/
def runOps (b : RawBuf) : List (Alloc × Op) → Run Event (List (Bool × RawBuf))
  | [] => pure []
  | (alloc, op) :: calls => do
    let result ← op.run alloc b
    let results ← runOps result.2 calls
    pure (result :: results)

def content (b : RawBuf) : Bytes := b.data.take b.size.toNat

structure Sound (b : RawBuf) : Prop where
  block : (b.data.length : Int) = b.capacity
  nonneg : 0 ≤ b.size
  room : b.size < b.capacity
  limited : b.capacity ≤ STRINGBUF_MAX_CAP
  terminated : b.data[b.size.toNat]? = some 0
  owned : b.owned = true

/-- Writes stay in the block and sums in `ssize_t`. -/
def Safe : Event → Prop
  | .write start len capacity => 0 ≤ start ∧ start + len ≤ capacity
  | .sum v => 0 ≤ v ∧ v ≤ SSIZE_MAX

/-- The buffer of `StringBuffer`, which has its content for `data`. -/
def toStringBuf (b : RawBuf) : StringBuf where
  data := content b
  capacity := b.capacity.toNat
  owned := b.owned

variable {b : RawBuf} {alloc : Alloc}

theorem content_length (sound : Sound b) : (content b).length = b.size.toNat := by
  have block := sound.block
  have room := sound.room
  rw [content, List.length_take]
  omega

theorem sum_bind {α : Type} {v : Int} {f : Int → Run Event α} {post : α → Prop}
    (safe : 0 ≤ v ∧ v ≤ SSIZE_MAX) (rest : Meets (f v) Safe post) :
    Meets (sum v >>= f) Safe post := Meets.step_bind safe rest

theorem store_bind {α : Type} {start : Int} {bytes : Bytes} {f : RawBuf → Run Event α}
    {post : α → Prop} (safe : 0 ≤ start ∧ start + bytes.length ≤ b.capacity)
    (rest : Meets (f { b with data := splice b.data start.toNat bytes }) Safe post) :
    Meets (store b start bytes >>= f) Safe post := Meets.step_bind safe rest

/-- The buffer after `text` and a NUL have been written from `start` on. -/
def written (b : RawBuf) (start : Nat) (text : Bytes) : RawBuf :=
  { b with
    data := splice (splice b.data start text) (start + text.length) [0]
    size := ((start + text.length : Nat) : Int) }

theorem written_sound (start : Nat) (text : Bytes) (sound : Sound b)
    (front : start ≤ b.size.toNat) (fits : start + text.length < b.capacity.toNat) :
    Sound (written b start text) ∧
      content (written b start text) = (content b).take start ++ text := by
  have block := sound.block
  have room := sound.room
  have inside : start + text.length ≤ b.data.length := by omega
  have same : (splice b.data start text).length = b.data.length := splice_length inside
  have stop : start + text.length < (splice b.data start text).length := by omega
  have whole : (splice (splice b.data start text) (start + text.length) [0]).length =
      b.data.length := by
    rw [splice_length (Nat.succ_le_of_lt stop), same]
  constructor
  · constructor
    · change ((splice (splice b.data start text) (start + text.length) [0]).length : Int) = _
      rw [whole, block]
      rfl
    · exact Int.natCast_nonneg _
    · change ((start + text.length : Nat) : Int) < b.capacity
      omega
    · exact sound.limited
    · exact splice_get stop
    · exact sound.owned
  · have kept : (content b).take start = b.data.take start := by
      rw [content, List.take_take, Nat.min_eq_left front]
    have text' : (splice (splice b.data start text) (start + text.length) [0]).take
        (start + text.length) = (splice b.data start text).take (start + text.length) := by
      have cut : (splice (splice b.data start text) (start + text.length) [0]).take
          (start + text.length + [(0 : UInt8)].length) =
          (splice b.data start text).take (start + text.length) ++ [0] :=
        splice_take (Nat.le_of_lt stop)
      have longer := congrArg (List.take (start + text.length)) cut
      rw [List.take_take, Nat.min_eq_left (by simp), List.take_append_of_le_length
        (by rw [List.length_take]; omega), List.take_take, Nat.min_self] at longer
      exact longer
    change (splice (splice b.data start text) (start + text.length) [0]).take
      (start + text.length) = _
    rw [text', splice_take (by omega), kept]

theorem stringbufInit_meets (capacityHint : Nat) :
    Meets (stringbufInit alloc capacityHint) Safe fun b? =>
      (b?.isSome ↔ alloc.isSome) ∧ ∀ b, b? = some b →
        Sound b ∧ toStringBuf b = StringBuffer.stringbufInit capacityHint := by
  have hmax : STRINGBUF_MAX_CAP = 67108864 := by decide
  have hdefault : STRINGBUF_DEFAULT_CAP = 65536 := by decide
  unfold stringbufInit StringBuffer.stringbufInit
  dsimp only
  cases alloc with
  | none => exact Meets.pure ⟨by simp, nofun⟩
  | some fresh =>
    have positive : 0 < (if capacityHint = 0 ∨ 1024 * 1024 * 16 < capacityHint
        then STRINGBUF_DEFAULT_CAP else capacityHint) := by
      split <;> omega
    have limited : (if capacityHint = 0 ∨ 1024 * 1024 * 16 < capacityHint
        then STRINGBUF_DEFAULT_CAP else capacityHint) ≤ STRINGBUF_MAX_CAP := by
      split <;> omega
    generalize (if capacityHint = 0 ∨ 1024 * 1024 * 16 < capacityHint
      then STRINGBUF_DEFAULT_CAP else capacityHint) = cap at *
    have length : (splice (window fresh 0 cap) 0 [0]).length = cap := by
      rw [splice_length (by rw [window_length]; exact positive), window_length]
    refine store_bind ⟨Int.le_refl 0, ?_⟩ (Meets.pure ⟨by simp, ?_⟩)
    · change (0 : Int) + 1 ≤ cap
      omega
    rintro _ ⟨rfl⟩
    refine ⟨?_, ?_⟩
    · constructor
      · exact congrArg Nat.cast length
      · exact Int.le_refl 0
      · change (0 : Int) < cap
        omega
      · change (cap : Int) ≤ STRINGBUF_MAX_CAP
        omega
      · exact splice_get (by rw [window_length]; exact positive)
      · rfl
    · rfl

/-- What a call of `stringbuf_reserve` gives. -/
structure Reserved (alloc : Alloc) (b : RawBuf) (need : Int) (r : Bool × RawBuf) : Prop where
  sound : Sound r.2
  content : content r.2 = content b
  size : r.2.size = b.size
  room : r.1 = true → need < r.2.capacity
  model : alloc.isSome → 0 ≤ need → StringBuffer.stringbufReserve (toStringBuf b) need.toNat =
    if r.1 then some (toStringBuf r.2) else none

theorem grown_sound (sound : Sound b) (fresh : Nat → UInt8) (newcap : Int)
    (larger : b.capacity ≤ newcap) (limited : newcap ≤ STRINGBUF_MAX_CAP) :
    Sound { b with data := realloc fresh b.data newcap.toNat, capacity := newcap } ∧
      content { b with data := realloc fresh b.data newcap.toNat, capacity := newcap } =
        content b := by
  have block := sound.block
  have nonneg := sound.nonneg
  have room := sound.room
  have kept : realloc fresh b.data newcap.toNat =
      b.data ++ window fresh b.data.length (newcap.toNat - b.data.length) := by
    rw [realloc, List.take_of_length_le (by omega)]
  constructor
  · constructor
    · change ((realloc fresh b.data newcap.toNat).length : Int) = newcap
      rw [kept, List.length_append, window_length]
      omega
    · exact sound.nonneg
    · exact Int.lt_of_lt_of_le room larger
    · exact limited
    · change (realloc fresh b.data newcap.toNat)[b.size.toNat]? = _
      rw [kept, List.getElem?_append_left (by omega)]
      exact sound.terminated
    · exact sound.owned
  · change (realloc fresh b.data newcap.toNat).take b.size.toNat = _
    rw [kept, List.take_append_of_le_length (by omega)]
    rfl

theorem stringbufReserve_meets (need : Int) (sound : Sound b) :
    Meets (stringbufReserve alloc b need) Safe (Reserved alloc b need) := by
  have hmax : STRINGBUF_MAX_CAP = 67108864 := by decide
  have hss : SSIZE_MAX = 9223372036854775807 := by decide
  have nonneg := sound.nonneg
  have room := sound.room
  have limited := sound.limited
  have refused (no : alloc.isSome → 0 ≤ need →
      StringBuffer.stringbufReserve (toStringBuf b) need.toNat = none) :
      Reserved alloc b need (false, b) := ⟨sound, rfl, rfl, nofun, no⟩
  unfold stringbufReserve
  by_cases bad : need < 0 ∨ (SSIZE_MAX - 1 : Int) < need
  · rw [if_pos bad]
    refine Meets.pure (refused fun _ positive => ?_)
    rw [StringBuffer.stringbufReserve, if_pos (by omega)]
  rw [if_neg bad]
  refine sum_bind (by omega) ?_
  by_cases fits : need + 1 ≤ b.capacity
  · rw [if_pos fits]
    refine Meets.pure ⟨sound, rfl, rfl, fun _ => Int.lt_of_add_one_le fits, fun _ _ => ?_⟩
    have fits' : need.toNat + 1 ≤ (toStringBuf b).capacity := by
      change need.toNat + 1 ≤ b.capacity.toNat
      omega
    rw [StringBuffer.stringbufReserve, if_neg (by omega)]
    dsimp only
    rw [if_pos fits']
    rfl
  rw [if_neg fits, if_neg (by rw [sound.owned]; decide), if_neg (by omega)]
  refine sum_bind (by omega) ?_
  have grown : (if (if b.capacity * 2 < need + 1 then need + 1 else b.capacity * 2) < 128 then 128
      else if b.capacity * 2 < need + 1 then need + 1 else b.capacity * 2) =
      max 128 (max (b.capacity * 2) (need + 1)) := by
    split <;> split <;> omega
  have model : StringBuffer.stringbufReserve (toStringBuf b) need.toNat =
      if STRINGBUF_MAX_CAP < max 128 (max (b.capacity * 2) (need + 1)) then none
      else some { toStringBuf b with
        capacity := (max 128 (max (b.capacity * 2) (need + 1))).toNat } := by
    have cap : (toStringBuf b).capacity = b.capacity.toNat := rfl
    have owned : (toStringBuf b).owned = true := sound.owned
    have grown' : (if (if b.capacity.toNat * 2 < need.toNat + 1 then need.toNat + 1
        else b.capacity.toNat * 2) < 128 then 128 else if b.capacity.toNat * 2 < need.toNat + 1
        then need.toNat + 1 else b.capacity.toNat * 2) =
        (max 128 (max (b.capacity * 2) (need + 1))).toNat := by
      split <;> split <;> omega
    rw [StringBuffer.stringbufReserve, if_neg (by omega)]
    dsimp only
    rw [cap, if_neg (by omega), owned, if_neg (by decide), if_neg (by omega), grown']
    by_cases large : STRINGBUF_MAX_CAP < max 128 (max (b.capacity * 2) (need + 1))
    · rw [if_pos large, if_pos (by omega)]
    · rw [if_neg large, if_neg (by omega)]
  dsimp only
  rw [grown]
  by_cases large : STRINGBUF_MAX_CAP < max 128 (max (b.capacity * 2) (need + 1))
  · rw [if_pos large]
    exact Meets.pure (refused fun _ _ => by rw [model, if_pos large])
  rw [if_neg large]
  cases alloc with
  | none => exact Meets.pure (refused fun given => absurd given (by decide))
  | some fresh =>
    obtain ⟨sound', same⟩ := grown_sound sound fresh (max 128 (max (b.capacity * 2) (need + 1)))
      (by omega) (by omega)
    refine Meets.pure ⟨sound', same, rfl, fun _ => ?_, fun _ _ => ?_⟩
    · change need < max 128 (max (b.capacity * 2) (need + 1))
      omega
    · rw [model, if_neg large, if_pos rfl]
      exact congrArg some (congrArg (fun data => StringBuf.mk data _ _) same.symm)

/-- An operation that fails leaves size and content as they are. -/
def Refines (b : RawBuf) (op : Op) (result : Bool × RawBuf) : Prop :=
  Sound result.2 ∧
    if result.1 then content result.2 = op.apply (content b)
    else content result.2 = content b ∧ result.2.size = b.size

theorem fails {b' : RawBuf} {op : Op} (sound : Sound b') (same : content b' = content b)
    (size : b'.size = b.size) : Refines b op (false, b') := ⟨sound, same, size⟩

/-- With the room that `stringbuf_reserve` has made, a text goes behind the content. -/
theorem extended {b' : RawBuf} {need : Int} (text : Bytes) (sound : Sound b)
    (reserved : Reserved alloc b need (true, b')) (length : need = b.size + text.length) :
    Sound (written b' b'.size.toNat text) ∧
      content (written b' b'.size.toNat text) = content b ++ text := by
  have nonneg := sound.nonneg
  have same : b'.size = b.size := reserved.size
  have room : need < b'.capacity := reserved.room rfl
  have fits : b'.size.toNat + text.length < b'.capacity.toNat := by omega
  obtain ⟨sound', content'⟩ := written_sound b'.size.toNat text reserved.sound (Nat.le_refl _) fits
  refine ⟨sound', ?_⟩
  rw [content', List.take_of_length_le (Nat.le_of_eq (content_length reserved.sound)),
    reserved.content]

theorem stringbufAppend_meets (src : Option (Nat → UInt8)) (len : Int) (sound : Sound b) :
    Meets (stringbufAppend alloc b src len) Safe fun r =>
      Refines b (.append src len) r ∧ (alloc.isSome → len ≤ SSIZE_MAX → ∀ mem, src = some mem →
        StringBuffer.stringbufAppend (toStringBuf b) (window mem 0 len.toNat) =
          if r.1 then some (toStringBuf r.2) else none) := by
  have hss : SSIZE_MAX = 9223372036854775807 := by decide
  have nonneg := sound.nonneg
  have size : (toStringBuf b).size = b.size.toNat := content_length sound
  have refused : Refines b (.append src len) (false, b) := fails sound rfl rfl
  unfold stringbufAppend
  cases src with
  | none => exact Meets.pure ⟨refused, by rintro _ _ _ ⟨⟩⟩
  | some mem =>
    dsimp only
    have model (positive : 0 < len) (below : b.size ≤ SSIZE_MAX - len) :
        StringBuffer.stringbufAppend (toStringBuf b) (window mem 0 len.toNat) =
          (StringBuffer.stringbufReserve (toStringBuf b) (b.size + len).toNat).bind fun sb =>
            if sb.capacity ≤ sb.size + len.toNat then none
            else some { sb with data := sb.data ++ window mem 0 len.toNat } := by
      have need : (b.size + len).toNat = b.size.toNat + len.toNat := by omega
      rw [StringBuffer.stringbufAppend, window_length, if_neg (by omega), size,
        if_neg (by omega), need]
      cases StringBuffer.stringbufReserve (toStringBuf b) (b.size.toNat + len.toNat) with
      | none => rfl
      | some sb => rfl
    by_cases empty : len ≤ 0
    · rw [if_pos empty]
      refine Meets.pure ⟨refused, ?_⟩
      rintro _ _ _ ⟨rfl⟩
      rw [StringBuffer.stringbufAppend, window_length, if_pos (by omega)]
      rfl
    rw [if_neg empty]
    by_cases tooLong : SSIZE_MAX - len < b.size
    · rw [if_pos tooLong]
      refine Meets.pure ⟨refused, ?_⟩
      rintro _ _ _ ⟨rfl⟩
      rw [StringBuffer.stringbufAppend, window_length, if_neg (by omega), size, if_pos (by omega)]
      rfl
    rw [if_neg tooLong]
    refine sum_bind (by omega) ((stringbufReserve_meets _ sound).bind ?_)
    rintro ⟨ok, b'⟩ reserved
    have same : b'.size = b.size := reserved.size
    cases ok with
    | false =>
      refine Meets.pure ⟨fails reserved.sound reserved.content reserved.size, ?_⟩
      rintro given _ _ ⟨rfl⟩
      rw [model (by omega) (by omega), reserved.model given (by omega)]
      rfl
    | true =>
      have room : b.size + len < b'.capacity := reserved.room rfl
      have size' : (toStringBuf b').size = b'.size.toNat := content_length reserved.sound
      have cap' : (toStringBuf b').capacity = b'.capacity.toNat := rfl
      have stop : b'.size + len = ((b'.size.toNat + (window mem 0 len.toNat).length : Nat) : Int) := by
        rw [window_length]
        omega
      obtain ⟨sound', appended⟩ := extended (window mem 0 len.toNat) sound reserved
        (by rw [window_length]; omega)
      simp only [Bool.not_true, Bool.false_eq_true, if_false]
      have sums : 0 ≤ b'.size + len ∧ b'.size + len ≤ SSIZE_MAX := by omega
      refine sum_bind sums ?_
      rw [if_neg (by omega)]
      refine store_bind (by rw [window_length]; omega) (sum_bind sums ?_)
      have last : 0 ≤ b'.size + len ∧ b'.size + len + 1 ≤ b'.capacity := by omega
      refine store_bind last ?_
      rw [stop]
      refine Meets.pure ⟨⟨sound', appended⟩, ?_⟩
      rintro given _ _ ⟨rfl⟩
      rw [model (by omega) (by omega), reserved.model given (by omega)]
      rw [if_pos rfl, Option.bind_some, cap', size', if_neg (by omega), if_pos rfl]
      refine congrArg some (congrArg (fun data => StringBuf.mk data _ _) ?_)
      change content b' ++ window mem 0 len.toNat = _
      rw [reserved.content]
      exact appended.symm

theorem stringbufAppendStr_meets (str : Option CString) (sound : Sound b) :
    Meets (stringbufAppendStr alloc b str) Safe (Refines b (.appendStr str)) := by
  cases str with
  | none => exact Meets.pure (fails sound rfl rfl)
  | some str =>
    unfold stringbufAppendStr
    refine (stringbufAppend_meets _ _ sound).imp ?_
    rintro r ⟨⟨sound', effect⟩, _⟩
    have text : window (fun i => str.text.getD i 0) 0 str.text.length = str.text := by
      refine List.ext_getElem? fun i => ?_
      by_cases inside : i < str.text.length
      · rw [window_get? 0 inside, Nat.zero_add, List.getElem?_eq_getElem inside,
          List.getD_eq_getElem?_getD, List.getElem?_eq_getElem inside]
        rfl
      · rw [List.getElem?_eq_none (by rw [window_length]; omega), List.getElem?_eq_none (by omega)]
    have same : (Op.append (some fun i => str.text.getD i 0) str.text.length).apply (content b) =
        (Op.appendStr (some str)).apply (content b) := congrArg (content b ++ ·) text
    rw [same] at effect
    exact ⟨sound', effect⟩

theorem stringbufAppendChar_meets (c : UInt8) (sound : Sound b) :
    Meets (stringbufAppendChar alloc b c) Safe (Refines b (.appendChar c)) := by
  have hmax : STRINGBUF_MAX_CAP = 67108864 := by decide
  have hss : SSIZE_MAX = 9223372036854775807 := by decide
  have nonneg := sound.nonneg
  have small := sound.room
  have limited := sound.limited
  unfold stringbufAppendChar
  refine sum_bind (by omega) ((stringbufReserve_meets _ sound).bind ?_)
  rintro ⟨ok, b'⟩ reserved
  cases ok with
  | false => exact Meets.pure (fails reserved.sound reserved.content reserved.size)
  | true =>
    have same : b'.size = b.size := reserved.size
    have room : b.size + 1 < b'.capacity := reserved.room rfl
    have stop : b'.size + 1 = ((b'.size.toNat + [c].length : Nat) : Int) := by
      rw [List.length_singleton]
      omega
    have sums : 0 ≤ b'.size + 1 ∧ b'.size + 1 ≤ SSIZE_MAX := by omega
    have last : 0 ≤ b'.size + 1 ∧ b'.size + 1 + 1 ≤ b'.capacity := by omega
    simp only [Bool.not_true, Bool.false_eq_true, if_false]
    refine store_bind (by rw [List.length_singleton]; omega) (sum_bind sums (store_bind last ?_))
    rw [stop]
    exact Meets.pure (extended [c] sound reserved rfl)

/-- The text that `vsnprintf` writes has the length that it has counted. -/
theorem stringbufAppendf_meets (formatted : Option Formatted) (sound : Sound b) :
    Meets (stringbufAppendf alloc b formatted) Safe fun r =>
      Refines b (.appendf formatted) r ∧ (alloc.isSome → ∀ f, formatted = some f →
        StringBuffer.stringbufAppendf (toStringBuf b) f.text =
          if r.1 then some (toStringBuf r.2) else none) := by
  have hmax : STRINGBUF_MAX_CAP = 67108864 := by decide
  have hss : SSIZE_MAX = 9223372036854775807 := by decide
  have nonneg := sound.nonneg
  have small := sound.room
  have limited := sound.limited
  unfold stringbufAppendf
  cases formatted with
  | none => exact Meets.pure ⟨fails sound rfl rfl, by rintro _ _ ⟨⟩⟩
  | some formatted =>
    obtain ⟨text, short⟩ := formatted
    dsimp only
    rw [if_neg (by omega)]
    have size : (toStringBuf b).size = b.size.toNat := content_length sound
    have model : StringBuffer.stringbufAppendf (toStringBuf b) text =
        (StringBuffer.stringbufReserve (toStringBuf b) (b.size + text.length).toNat).bind fun sb =>
          some { sb with data := sb.data ++ text } := by
      have need : (b.size + text.length).toNat = b.size.toNat + text.length := by omega
      rw [StringBuffer.stringbufAppendf, size, if_neg (by omega), need]
      cases StringBuffer.stringbufReserve (toStringBuf b) (b.size.toNat + text.length) with
      | none => rfl
      | some sb => rfl
    refine sum_bind (by omega) ((stringbufReserve_meets _ sound).bind ?_)
    rintro ⟨ok, b'⟩ reserved
    cases ok with
    | false =>
      refine Meets.pure ⟨fails reserved.sound reserved.content reserved.size, ?_⟩
      rintro given _ ⟨rfl⟩
      rw [model, reserved.model given (by omega)]
      rfl
    | true =>
      have same : b'.size = b.size := reserved.size
      have room : b.size + text.length < b'.capacity := reserved.room rfl
      have cap : b'.capacity ≤ STRINGBUF_MAX_CAP := reserved.sound.limited
      have block : (b'.data.length : Int) = b'.capacity := reserved.sound.block
      have stop : b'.size + text.length = ((b'.size.toNat + text.length : Nat) : Int) := by omega
      have sums : 0 ≤ b'.size + text.length ∧ b'.size + text.length ≤ SSIZE_MAX := by omega
      have left : 0 ≤ b'.capacity - b'.size ∧ b'.capacity - b'.size ≤ SSIZE_MAX := by omega
      have whole : text.take ((b'.capacity - b'.size).toNat - 1) = text :=
        List.take_of_length_le (by omega)
      simp only [Bool.not_true, Bool.false_eq_true, if_false]
      refine sum_bind left ?_
      rw [whole]
      have last : 0 ≤ b'.size ∧ b'.size + (text ++ [0]).length ≤ b'.capacity := by
        rw [List.length_append, List.length_singleton]
        omega
      refine store_bind last (sum_bind sums ?_)
      rw [splice_append [0] (by omega), stop]
      obtain ⟨sound', appended⟩ := extended text sound reserved rfl
      refine Meets.pure ⟨⟨sound', appended⟩, ?_⟩
      rintro given _ ⟨rfl⟩
      rw [model, reserved.model given (by omega)]
      refine congrArg some (congrArg (fun data => StringBuf.mk data _ _) ?_)
      change content b' ++ text = _
      rw [reserved.content]
      exact appended.symm

theorem stringbufClear_meets (sound : Sound b) :
    Meets (stringbufClear b) Safe (Refines b .clear) := by
  have nonneg := sound.nonneg
  have room := sound.room
  have front : (0 : Int) ≤ 0 ∧ (0 : Int) + 1 ≤ b.capacity := by omega
  refine store_bind front (Meets.pure ?_)
  have fits : 0 + ([] : Bytes).length < b.capacity.toNat := by
    rw [List.length_nil]
    omega
  obtain ⟨sound', content'⟩ := written_sound 0 [] sound (Nat.zero_le _) fits
  exact ⟨sound', content'⟩

theorem stringbufConsume_meets (n : Int) (sound : Sound b) :
    Meets (stringbufConsume b n) Safe fun r => Refines b (.consume n) r ∧ r.1 = true ∧
      toStringBuf r.2 = StringBuffer.stringbufConsume (toStringBuf b) n.toNat := by
  have hmax : STRINGBUF_MAX_CAP = 67108864 := by decide
  have hss : SSIZE_MAX = 9223372036854775807 := by decide
  have nonneg := sound.nonneg
  have room := sound.room
  have limited := sound.limited
  have size : (toStringBuf b).size = b.size.toNat := content_length sound
  unfold stringbufConsume
  by_cases none : n ≤ 0
  · rw [if_pos none]
    have zero : n.toNat = 0 := by omega
    refine Meets.pure ⟨⟨sound, ?_⟩, rfl, ?_⟩
    · change content b = (content b).drop n.toNat
      rw [zero, List.drop_zero]
    · rw [StringBuffer.stringbufConsume, if_pos zero]
  rw [if_neg none]
  have model : StringBuffer.stringbufConsume (toStringBuf b) n.toNat =
      { toStringBuf b with data := (content b).drop (if b.size < n then b.size else n).toNat } := by
    have taken : (if b.size.toNat < n.toNat then b.size.toNat else n.toNat) =
        (if b.size < n then b.size else n).toNat := by
      split <;> split <;> omega
    rw [StringBuffer.stringbufConsume, if_neg (by omega), size, taken]
    rfl
  have cut : (content b).drop n.toNat = (content b).drop (if b.size < n then b.size else n).toNat := by
    split
    · rw [List.drop_of_length_le (by rw [content_length sound]; omega),
        List.drop_of_length_le (Nat.le_of_eq (content_length sound))]
    · rfl
  have within : 0 ≤ (if b.size < n then b.size else n) ∧
      (if b.size < n then b.size else n) ≤ b.size := by
    split <;> omega
  dsimp only
  rw [model]
  generalize (if b.size < n then b.size else n) = n' at *
  have rest : (b.data.drop n'.toNat).take (b.size - n').toNat = (content b).drop n'.toNat := by
    have left : (b.size - n').toNat = b.size.toNat - n'.toNat := by omega
    rw [content, List.drop_take, left]
  have length : ((content b).drop n'.toNat).length = (b.size - n').toNat := by
    rw [List.length_drop, content_length sound]
    omega
  refine sum_bind (by omega) ?_
  rw [rest]
  have front : (0 : Int) ≤ 0 ∧ 0 + (((content b).drop n'.toNat).length : Int) ≤ b.capacity := by
    omega
  have last : 0 ≤ b.size - n' ∧ b.size - n' + 1 ≤ b.capacity := by omega
  have stop : b.size - n' = ((0 + ((content b).drop n'.toNat).length : Nat) : Int) := by omega
  refine store_bind front (store_bind last ?_)
  rw [stop]
  obtain ⟨sound', content'⟩ := written_sound 0 ((content b).drop n'.toNat) sound
    (Nat.zero_le _) (by omega)
  rw [List.take_zero, List.nil_append] at content'
  refine Meets.pure ⟨⟨sound', ?_⟩, rfl, ?_⟩
  · rw [if_pos rfl]
    exact content'.trans cut.symm
  · exact congrArg (fun data => StringBuf.mk data _ _) content'

theorem Op.run_meets (op : Op) (sound : Sound b) : Meets (op.run alloc b) Safe (Refines b op) := by
  cases op with
  | append src len => exact (stringbufAppend_meets src len sound).imp fun _ h => h.1
  | appendStr str => exact stringbufAppendStr_meets str sound
  | appendChar c => exact stringbufAppendChar_meets c sound
  | appendf formatted => exact (stringbufAppendf_meets formatted sound).imp fun _ h => h.1
  | consume n => exact (stringbufConsume_meets n sound).imp fun _ h => h.1
  | clear => exact stringbufClear_meets sound
  | reserve need =>
    refine (stringbufReserve_meets need sound).imp ?_
    rintro ⟨ok, b'⟩ reserved
    refine ⟨reserved.sound, ?_⟩
    cases ok with
    | false => exact ⟨reserved.content, reserved.size⟩
    | true => exact reserved.content

/-- Each call refines its operation on lists, from the state that the call before has left. -/
def AllRefine : RawBuf → List (Alloc × Op) → List (Bool × RawBuf) → Prop
  | _, [], [] => True
  | b, (_, op) :: calls, result :: results =>
    Refines b op result ∧ AllRefine result.2 calls results
  | _, _, _ => False

theorem runOps_meets (calls : List (Alloc × Op)) (sound : Sound b) :
    Meets (runOps b calls) Safe (AllRefine b calls) := by
  induction calls generalizing b with
  | nil => exact Meets.pure trivial
  | cons call calls ih =>
    refine (call.2.run_meets sound).bind fun result refines => ?_
    exact (ih refines.1).bind fun results rest => Meets.pure ⟨refines, rest⟩

/-- `stringbuf_init` and the calls that follow. -/
def session (alloc : Alloc) (capacityHint : Nat) (calls : List (Alloc × Op)) :
    Run Event (Option (RawBuf × List (Bool × RawBuf))) := do
  match ← stringbufInit alloc capacityHint with
  | none => pure none
  | some b => do
    let results ← runOps b calls
    pure (some (b, results))

/-- In every run the buffer refines a list of bytes and keeps its invariant, and nothing is
written outside of its block. -/
theorem session_refines (alloc : Alloc) (capacityHint : Nat) (calls : List (Alloc × Op)) :
    Meets (session alloc capacityHint calls) Safe fun r =>
      (r.isSome ↔ alloc.isSome) ∧ ∀ b results, r = some (b, results) →
        Sound b ∧ content b = [] ∧ AllRefine b calls results := by
  refine (stringbufInit_meets capacityHint).bind ?_
  rintro (_ | b) ⟨given, start⟩
  · exact Meets.pure ⟨given, nofun⟩
  · obtain ⟨sound, model⟩ := start b rfl
    refine (runOps_meets calls sound).bind fun results rest => Meets.pure ⟨given, ?_⟩
    rintro _ _ ⟨rfl⟩
    exact ⟨sound, congrArg StringBuf.data model, rest⟩

end StringBufMemory
