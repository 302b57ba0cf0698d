import NanoProxy.ParserInvariant

/-!
# Header names in lower case (include/http.h)

`strndup` copies a header name up to its first NUL, and the loop that follows goes through as
many bytes of the copy as the name has. An event of the loop is an index of `key` that it
writes to.
-/

namespace HeaderNames

open CLib HttpRequestParser RequestDecoder ParserRefinement ParserTrace ParserInvariant
open Traced Traced.Run

/-- The block that `strndup` allocates, with the NUL. -/
def strndupBlock (name : Bytes) : Bytes := cstr name ++ [0]

/-- `for (size_t k = 0; k < name_len; k++) key[k] = tolower((unsigned char)key[k]);` -/
def lowerLoop : (left k : Nat) → Bytes → Run Nat Bytes
  | 0, _, key => pure key
  | left + 1, k, key => do
    let key ← step k (key.modify k tolower)
    lowerLoop left (k + 1) key

def normalise (name : Bytes) : Run Nat Bytes := lowerLoop name.length 0 (strndupBlock name)

/-- The loop stays inside of the copy and leaves the name in lower case. -/
def Normalised (name : Bytes) : Prop :=
  Meets (normalise name) (· < (strndupBlock name).length) fun key => cstr key = lower name

variable {name : Bytes}

theorem cstr_eq_self_iff : cstr name = name ↔ 0 ∉ name := by
  rw [cstr, List.takeWhile_eq_self_iff]
  constructor
  · intro all zero
    exact absurd (all 0 zero) (by decide)
  · intro none b listed
    exact bne_iff_ne.mpr fun zero => none (zero ▸ listed)

theorem tolower_eq_zero {b : UInt8} : tolower b = 0 ↔ b = 0 := by
  simpa using forall_byte (p := fun b => (tolower b == 0) == (b == 0)) (by decide +kernel) b

theorem zero_mem_lower {s : Bytes} : 0 ∈ lower s ↔ 0 ∈ s := by
  rw [lower, List.mem_map]
  constructor
  · rintro ⟨b, listed, zero⟩
    exact tolower_eq_zero.mp zero ▸ listed
  · exact fun listed => ⟨0, listed, rfl⟩

theorem zero_not_mem_cstr (s : Bytes) : 0 ∉ cstr s := by
  intro listed
  exact absurd (List.mem_takeWhile_imp listed) (by decide)

theorem lowerLoop_log (left k : Nat) (key : Bytes) :
    (lowerLoop left k key).log = List.range' k left := by
  induction left generalizing k key with
  | zero => rfl
  | succ left ih =>
    rw [List.range'_succ, ← ih (k + 1) (key.modify k tolower)]
    rfl

theorem lowerLoop_beyond (left : Nat) {k : Nat} {key : Bytes} (beyond : key.length ≤ k) :
    (lowerLoop left k key).value = some key := by
  induction left generalizing k with
  | zero => rfl
  | succ left ih =>
    have same : key.modify k tolower = key := List.modify_eq_self beyond
    change (lowerLoop left (k + 1) (key.modify k tolower)).value = _
    rw [same]
    exact ih (Nat.le_succ_of_le beyond)

theorem lowerLoop_value (left : Nat) (done todo : Bytes) :
    (lowerLoop left done.length (done ++ todo)).value =
      some (done ++ (lower (todo.take left) ++ todo.drop left)) := by
  induction left generalizing done todo with
  | zero => rfl
  | succ left ih =>
    cases todo with
    | nil =>
      rw [List.append_nil, lowerLoop_beyond _ (Nat.le_refl _)]
      exact congrArg some (List.append_nil done).symm
    | cons b todo =>
      have first : (done ++ b :: todo).modify done.length tolower =
          done ++ [tolower b] ++ todo := by
        have here : done.length < (done ++ b :: todo).length := by simp
        rw [List.modify_eq_take_cons_drop here]
        simp
      change (lowerLoop left (done.length + 1) ((done ++ b :: todo).modify _ tolower)).value = _
      have further := ih (done ++ [tolower b]) todo
      rw [List.length_append, List.length_singleton] at further
      rw [first, further, List.append_assoc]
      rfl

/-- The C string that the loop leaves is the copy in lower case, wherever it has written. -/
theorem normalise_value (name : Bytes) :
    (normalise name).value = some (lower (cstr name) ++ [0]) := by
  have value := lowerLoop_value name.length [] (strndupBlock name)
  have copied : (cstr name).length ≤ name.length := (List.takeWhile_prefix _).length_le
  rw [normalise, List.nil_append, List.length_nil] at *
  rw [value, List.nil_append, strndupBlock, List.take_append, List.drop_append,
    List.take_of_length_le copied, List.drop_of_length_le copied, List.nil_append]
  generalize name.length - (cstr name).length = more
  rw [lower, List.map_append, List.append_assoc]
  cases more with
  | zero => rfl
  | succ more => rw [List.take_of_length_le (by simp), List.drop_of_length_le (by simp)]; rfl

theorem cstr_block {s : Bytes} (text : 0 ∉ s) : cstr (s ++ [0]) = s := by
  rw [cstr, List.takeWhile_append_of_pos fun b listed => ?_]
  · exact List.append_nil s
  · exact bne_iff_ne.mpr fun zero => text (zero ▸ listed)

/-- The parser keeps the text that the loop leaves under `key`. -/
theorem normalise_stores (buf : Bytes) (start len : Nat) :
    (normalise ((buf.drop start).take len)).value.map cstr =
      some (lower (strndup buf start len)) := by
  rw [normalise_value, Option.map_some, cstr_block]
  · rfl
  · rw [zero_mem_lower]
    exact zero_not_mem_cstr _

theorem normalised_iff (name : Bytes) : Normalised name ↔ 0 ∉ name := by
  constructor
  · intro normalised
    obtain ⟨key, value, same⟩ := normalised.value
    rw [normalise_value, Option.some.injEq] at value
    rw [← value, cstr_block (zero_mem_lower.not.mpr (zero_not_mem_cstr _))] at same
    have lengths := congrArg List.length same
    rw [lower, lower, List.length_map, List.length_map] at lengths
    exact cstr_eq_self_iff.mp ((List.takeWhile_prefix _).eq_of_length lengths)
  · intro text
    have whole := cstr_eq_self_iff.mpr text
    constructor
    · intro k written
      rw [normalise, lowerLoop_log, List.mem_range'_1] at written
      rw [strndupBlock, whole, List.length_append, List.length_singleton]
      omega
    · refine ⟨_, normalise_value name, ?_⟩
      rw [whole, cstr_block (zero_mem_lower.not.mpr text)]

/-- The loop alone leaves the copy as soon as a NUL is not the last byte of the name. -/
theorem normalise_inside_iff (name : Bytes) :
    (∀ k ∈ (normalise name).log, k < (strndupBlock name).length) ↔ 0 ∉ name.dropLast := by
  rw [normalise, lowerLoop_log, strndupBlock, List.length_append, List.length_singleton, cstr]
  rcases List.eq_nil_or_concat' name with rfl | ⟨init, last, rfl⟩
  · simp
  rw [List.dropLast_concat, List.length_append, List.length_singleton]
  constructor
  · intro inside zero
    have short := takeWhile_length_lt_iff.mpr zero
    have reached := inside init.length (List.mem_range'_1.mpr (by omega))
    rw [List.takeWhile_append, if_neg (Nat.ne_of_lt short)] at reached
    omega
  · intro text k written
    have whole : init.takeWhile (· != 0) = init := cstr_eq_self_iff.mpr text
    rw [List.mem_range'_1] at written
    rw [List.takeWhile_append, whole, if_pos rfl, List.length_append]
    omega

/-- In every run of the parser a header name, which is part of what was read, is normalised
exactly if it has no NUL. -/
theorem headerName_normalised_iff (fd : Nat) (reads : List Bytes) (name : Bytes)
    (copied : .headerName name ∈ (feedAll .default (httpParserInit fd) reads).log) :
    name <:+: reads.flatten ∧ (Normalised name ↔ 0 ∉ name) :=
  ⟨(feedAll_default fd reads).log _ copied, normalised_iff name⟩

/-- A request with the header name `A\0B`. -/
def nulRequest : Bytes := ascii "GET / HTTP/1.1\r\nA" ++ 0 :: ascii "B: x\r\n"

theorem nulRequest_copied :
    .headerName [65, 0, 66] ∈ (feedAll .default (httpParserInit 7) [nulRequest]).log := by
  decide +kernel

theorem headerName_normalised_iff_nulRequest :
    [65, 0, 66] <:+: [nulRequest].flatten ∧ (Normalised [65, 0, 66] ↔ 0 ∉ ([65, 0, 66] : Bytes)) :=
  headerName_normalised_iff 7 [nulRequest] [65, 0, 66] nulRequest_copied

theorem headerName_not_normalised : ¬ ∀ (fd : Nat) (reads : List Bytes) (name : Bytes),
    .headerName name ∈ (feedAll .default (httpParserInit fd) reads).log → Normalised name := by
  intro normalised
  have := (normalised_iff _).mp (normalised 7 [nulRequest] _ nulRequest_copied)
  exact this (by decide)

end HeaderNames
