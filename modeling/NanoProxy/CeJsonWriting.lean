import Mathlib.Algebra.GroupWithZero.Nat
import NanoProxy.CeJson
import NanoProxy.JsonRoundTrip

/-!
# What the JSON serializer of the backend appends

Every append is one `put`: a piece of text is written whole or left out. Whether all of them
are written depends on their lengths alone.
-/

namespace CeJson

open CLib JsonGrammar JsonWriter JsonRoundTrip
open StringBuffer (StringBuf SSIZE_MAX)

variable {sb sb' : StringBuf} {need : Nat}

/-- The capacity that makes room for `need` bytes and a NUL. -/
def reserveCap (cap need : Nat) : Option Nat :=
  if need + 1 ≤ cap then some cap
  else if STRINGBUF_MAX_CAP < max 128 (max (cap * 2) (need + 1)) then none
  else some (max 128 (max (cap * 2) (need + 1)))

theorem newcap_eq (cap need : Nat) :
    (if (if cap * 2 < need + 1 then need + 1 else cap * 2) < 128 then 128
      else if cap * 2 < need + 1 then need + 1 else cap * 2) = max 128 (max (cap * 2) (need + 1)) := by
  split <;> split <;> omega

theorem stringbufReserve_eq (owned : sb.owned = true) (room : sb.capacity ≤ STRINGBUF_MAX_CAP) :
    stringbufReserve sb need =
      (reserveCap sb.capacity need).map fun cap => { sb with capacity := cap } := by
  have max_cap : STRINGBUF_MAX_CAP = 1048576 := rfl
  have ssize : SSIZE_MAX = 9223372036854775807 := rfl
  unfold stringbufReserve reserveCap
  dsimp only
  by_cases fits : need + 1 ≤ sb.capacity
  · rw [if_neg (by omega), if_pos fits, if_pos fits]
    rfl
  rw [if_neg fits, if_neg fits, owned, newcap_eq]
  by_cases large : SSIZE_MAX - 1 < need
  · rw [if_pos large, if_pos (by omega)]
    rfl
  rw [if_neg large, if_neg (show ¬(!true) = true by decide), if_neg (by omega)]
  split
  · rfl
  · rfl

theorem reserveCap_some {cap cap' : Nat} (grown : reserveCap cap need = some cap')
    (room : cap ≤ STRINGBUF_MAX_CAP) : need < cap' ∧ cap ≤ cap' ∧ cap' ≤ STRINGBUF_MAX_CAP := by
  unfold reserveCap at grown
  split at grown
  · cases grown
    omega
  · split at grown
    · cases grown
    · cases grown
      omega

/-- A buffer of the heap within its limit. -/
structure Sound (sb : StringBuf) : Prop where
  owned : sb.owned = true
  fits : sb.size < sb.capacity
  room : sb.capacity ≤ STRINGBUF_MAX_CAP

/-- A piece is written whole, or not at all. -/
def put (s : Bytes) (sb : StringBuf) : StringBuf :=
  if s = [] then sb
  else match reserveCap sb.capacity (sb.size + s.length) with
    | none => sb
    | some cap => { sb with capacity := cap, data := sb.data ++ s }

theorem put_sound (s : Bytes) (h : Sound sb) : Sound (put s sb) := by
  unfold put
  split
  · exact h
  split
  · exact h
  · rename_i cap grown
    obtain ⟨larger, -, limit⟩ := reserveCap_some grown h.room
    exact ⟨h.owned, by simpa [StringBuf.size] using larger, limit⟩

theorem stringbufAppend_eq (src : Bytes) (h : Sound sb) : stringbufAppend src sb = put src sb := by
  have max_cap : STRINGBUF_MAX_CAP = 1048576 := rfl
  have ssize : SSIZE_MAX = 9223372036854775807 := rfl
  have room := h.room
  have fits := h.fits
  unfold stringbufAppend put
  rw [stringbufReserve_eq h.owned h.room]
  by_cases empty : src = []
  · rw [if_pos (by simp [empty]), if_pos empty]
  rw [if_neg (by simpa using empty), if_neg empty]
  cases grown : reserveCap sb.capacity (sb.size + src.length) with
  | none =>
    split
    · rfl
    · rfl
  | some cap =>
    obtain ⟨larger, -, limit⟩ := reserveCap_some grown h.room
    rw [if_neg (by omega)]
    exact if_neg (Nat.not_le.mpr larger)

theorem stringbufAppendChar_eq (c : UInt8) (h : Sound sb) :
    stringbufAppendChar c sb = put [c] sb := by
  unfold stringbufAppendChar put
  rw [stringbufReserve_eq h.owned h.room, if_neg (List.cons_ne_nil _ _), List.length_singleton]
  cases reserveCap sb.capacity (sb.size + 1) with
  | none => rfl
  | some cap => rfl

theorem stringbufAppendf_eq {text : Bytes} (some_text : text ≠ []) (h : Sound sb) :
    stringbufAppendf text sb = put text sb := by
  have max_cap : STRINGBUF_MAX_CAP = 1048576 := rfl
  have ssize : SSIZE_MAX = 9223372036854775807 := rfl
  have room := h.room
  have fits := h.fits
  unfold stringbufAppendf put
  rw [stringbufReserve_eq h.owned h.room, if_neg some_text]
  cases grown : reserveCap sb.capacity (sb.size + text.length) with
  | none =>
    split
    · rfl
    · rfl
  | some cap =>
    obtain ⟨larger, -, limit⟩ := reserveCap_some grown h.room
    exact if_neg (by omega)

def writeAll (pieces : List Bytes) (sb : StringBuf) : StringBuf :=
  pieces.foldl (fun sb s => put s sb) sb

@[simp] theorem writeAll_nil (sb : StringBuf) : writeAll [] sb = sb := rfl

@[simp] theorem writeAll_cons (s : Bytes) (pieces : List Bytes) (sb : StringBuf) :
    writeAll (s :: pieces) sb = writeAll pieces (put s sb) := rfl

theorem writeAll_append (first rest : List Bytes) (sb : StringBuf) :
    writeAll (first ++ rest) sb = writeAll rest (writeAll first sb) := List.foldl_append

theorem writeAll_sound (pieces : List Bytes) (h : Sound sb) : Sound (writeAll pieces sb) := by
  induction pieces generalizing sb with
  | nil => exact h
  | cons s pieces ih => exact ih (put_sound s h)

/-- Each piece finds room, given the capacity and the size in front of it. -/
def fits (cap size : Nat) : List Nat → Bool
  | [] => true
  | n :: ns =>
    match reserveCap cap (size + n) with
    | none => false
    | some cap => fits cap (size + n) ns

theorem put_length (s : Bytes) (sb : StringBuf) :
    (put s sb).data.length ≤ sb.data.length + s.length := by
  unfold put
  split
  · exact Nat.le_add_right _ _
  split
  · exact Nat.le_add_right _ _
  · exact Nat.le_of_eq List.length_append

theorem writeAll_length (pieces : List Bytes) (sb : StringBuf) :
    (writeAll pieces sb).data.length ≤ sb.data.length + pieces.flatten.length := by
  induction pieces generalizing sb with
  | nil => exact Nat.le_refl _
  | cons s pieces ih =>
    have here := put_length s sb
    have rest := ih (put s sb)
    rw [List.flatten_cons, List.length_append]
    exact rest.trans (by omega)

theorem put_fits {s : Bytes} {cap : Nat} (h : Sound sb)
    (grown : reserveCap sb.capacity (sb.size + s.length) = some cap) :
    put s sb = { sb with capacity := cap, data := sb.data ++ s } := by
  unfold put
  split
  · rename_i empty
    subst empty
    rw [List.length_nil, Nat.add_zero, reserveCap, if_pos (Nat.succ_le_of_lt h.fits)] at grown
    cases grown
    rw [List.append_nil]
  · rw [grown]

/-- The pieces are all written if and only if each of them finds room. -/
theorem writeAll_exact (pieces : List Bytes) (h : Sound sb) :
    (writeAll pieces sb).data = sb.data ++ pieces.flatten ↔
      fits sb.capacity sb.size (pieces.map List.length) = true := by
  induction pieces generalizing sb with
  | nil => simp [fits]
  | cons s pieces ih =>
    rw [writeAll_cons, List.map_cons, List.flatten_cons, fits]
    cases grown : reserveCap sb.capacity (sb.size + s.length) with
    | none =>
      have some_piece : s ≠ [] := by
        rintro rfl
        rw [List.length_nil, Nat.add_zero, reserveCap, if_pos (Nat.succ_le_of_lt h.fits)] at grown
        cases grown
      have left_out : put s sb = sb := by
        unfold put
        rw [if_neg some_piece, grown]
      have shorter := writeAll_length pieces sb
      have positive := List.length_pos_of_ne_nil some_piece
      rw [left_out]
      refine iff_of_false (fun same => ?_) Bool.false_ne_true
      have lengths := congrArg List.length same
      simp only [List.length_append] at lengths
      omega
    | some cap =>
      have written := put_fits h grown
      have rest := ih (put_sound s h)
      rw [written] at rest ⊢
      rw [← List.append_assoc, rest, StringBuf.size, List.length_append]

theorem fits_limit {cap size : Nat} {ns : List Nat} (here : size < cap)
    (room : cap ≤ STRINGBUF_MAX_CAP) (fitting : fits cap size ns = true) :
    size + ns.sum < STRINGBUF_MAX_CAP := by
  induction ns generalizing cap size with
  | nil => exact Nat.lt_of_lt_of_le here room
  | cons n ns ih =>
    rw [fits] at fitting
    cases grown : reserveCap cap (size + n) with
    | none =>
      rw [grown] at fitting
      cases fitting
    | some cap' =>
      rw [grown] at fitting
      obtain ⟨larger, -, limit⟩ := reserveCap_some grown room
      rw [List.sum_cons, ← Nat.add_assoc]
      exact ih larger limit fitting

def runPieces (run : Bytes) : List Bytes := if run = [] then [] else [run]

def escapePieces (run : Bytes) : Bytes → List Bytes
  | [] => runPieces run
  | c :: rest =>
    if plain c then escapePieces (run ++ [c]) rest
    else runPieces run ++ (escaped c).text :: escapePieces [] rest

def stringPieces (s : Bytes) : List Bytes :=
  if s.all plain then [34 :: (s ++ [34])] else [34] :: (escapePieces [] s ++ [[34]])

theorem escaped_plain {c : UInt8} (h : plain c = true) : escaped c = .plain c := by
  have all : ∀ c, (!plain c || escaped c == .plain c) = true :=
    forall_byte (by decide +kernel)
  have here := all c
  rw [h] at here
  exact eq_of_beq here

theorem escaped_ne_nil (c : UInt8) : (escaped c).text ≠ [] := by
  cases escaped c <;> exact List.cons_ne_nil _ _

theorem dumpEscape_eq (c : UInt8) (h : Sound sb) :
    dumpEscape c sb = if plain c then none else some (put (escaped c).text sb) := by
  unfold dumpEscape escaped
  by_cases quote : c = 34
  · subst quote
    exact congrArg some (stringbufAppend_eq _ h)
  by_cases backslash : c = 92
  · subst backslash
    exact congrArg some (stringbufAppend_eq _ h)
  rw [if_neg quote, if_neg backslash, if_neg (not_or.mpr ⟨quote, backslash⟩)]
  by_cases control : c < 0x20
  · have marked : plain c = false := by simp [plain, control]
    rw [marked, if_neg Bool.false_ne_true, if_pos control, if_pos control]
    rw [stringbufAppend_eq _ h, stringbufAppend_eq _ h, stringbufAppend_eq _ h,
      stringbufAppend_eq _ h, stringbufAppend_eq _ h,
      stringbufAppendf_eq (show unicodeEscape c ≠ [] from List.cons_ne_nil _ _) h]
    split
    · rfl
    split
    · rfl
    split
    · rfl
    split
    · rfl
    split
    · rfl
    · rfl
  · have unmarked : plain c = true := by simp [plain, quote, backslash, control]
    have beyond (b : UInt8) (low : b < 0x20) : c ≠ b := fun same => control (same ▸ low)
    rw [unmarked, if_pos rfl, if_neg (beyond 8 (by decide)), if_neg (beyond 12 (by decide)),
      if_neg (beyond 10 (by decide)), if_neg (beyond 13 (by decide)), if_neg (beyond 9 (by decide)),
      if_neg control]

theorem flushRun_eq (run : Bytes) (h : Sound sb) : flushRun run sb = writeAll (runPieces run) sb := by
  unfold flushRun runPieces
  split
  · rfl
  · exact stringbufAppend_eq run h

theorem dumpRuns_eq (run rest : Bytes) (h : Sound sb) :
    dumpRuns run rest sb = writeAll (escapePieces run rest) sb := by
  induction rest generalizing run sb with
  | nil => exact flushRun_eq run h
  | cons c rest ih =>
    have flushed := writeAll_sound (runPieces run) h
    rw [dumpRuns, escapePieces, flushRun_eq run h, dumpEscape_eq c flushed]
    split
    · rename_i unwritten
      have unmarked : plain c = true := by
        by_contra marked
        rw [if_neg marked] at unwritten
        cases unwritten
      rw [if_pos unmarked]
      exact ih (run ++ [c]) h
    · rename_i next written
      have marked : ¬ plain c = true := by
        intro unmarked
        rw [if_pos unmarked] at written
        cases written
      rw [if_neg marked] at written ⊢
      cases written
      rw [writeAll_append, writeAll_cons]
      exact ih [] (put_sound _ flushed)

theorem dumpPlain_eq (s : Bytes) (h : Sound sb) :
    dumpPlain s sb = put (34 :: (s ++ [34])) sb := by
  have length : (34 :: (s ++ [34])).length = s.length + 2 := by simp
  unfold dumpPlain put
  rw [stringbufReserve_eq h.owned h.room, if_neg (List.cons_ne_nil _ _), length, ← Nat.add_assoc]
  cases reserveCap sb.capacity (sb.size + s.length + 2) with
  | none => rfl
  | some cap => rfl

theorem jsonDumpEscapeBuf_eq (s : Bytes) (h : Sound sb) :
    jsonDumpEscapeBuf s sb = writeAll (stringPieces s) sb := by
  unfold jsonDumpEscapeBuf stringPieces
  split
  · exact dumpPlain_eq s h
  · have opened := put_sound [34] h
    rw [stringbufAppendChar_eq 34 h, dumpRuns_eq [] s opened,
      stringbufAppendChar_eq 34 (writeAll_sound _ opened), writeAll_cons, writeAll_append]
    rfl

theorem escapePieces_flatten (run rest : Bytes) (unmarked : run.all plain = true) :
    (escapePieces run rest).flatten = ((run ++ rest).map escaped).flatMap StrChar.text := by
  have runs (run : Bytes) : (runPieces run).flatten = run := by
    unfold runPieces
    split
    · rename_i empty
      exact empty.symm
    · exact List.append_nil run
  have kept {run : Bytes} (unmarked : run.all plain = true) :
      (run.map escaped).flatMap StrChar.text = run := by
    induction run with
    | nil => rfl
    | cons c run ih =>
      rw [List.all_cons, Bool.and_eq_true] at unmarked
      rw [List.map_cons, List.flatMap_cons, escaped_plain unmarked.1, ih unmarked.2]
      rfl
  induction rest generalizing run with
  | nil => rw [escapePieces, runs, List.append_nil, kept unmarked]
  | cons c rest ih =>
    rw [escapePieces]
    split
    · rename_i here
      have more : (run ++ [c]).all plain = true := by
        rw [List.all_append, unmarked, List.all_cons, here]
        rfl
      rw [ih (run ++ [c]) more, List.append_assoc]
      rfl
    · rw [List.flatten_append, List.flatten_cons, runs, ih [] rfl, List.nil_append, List.map_append,
        List.flatMap_append, kept unmarked]
      rfl

theorem stringPieces_flatten (s : Bytes) :
    (stringPieces s).flatten = stringText (s.map escaped) := by
  unfold stringPieces
  split
  · rename_i unmarked
    have whole := escapePieces_flatten s [] unmarked
    have run : (escapePieces s []).flatten = s := by
      rw [escapePieces, runPieces]
      split
      · rename_i empty
        exact empty.symm
      · exact List.append_nil s
    rw [run, List.append_nil] at whole
    rw [List.flatten_singleton, stringText, ← whole]
  · rw [List.flatten_cons, List.flatten_append, escapePieces_flatten [] s rfl]
    rfl

def indentPieces (n : Nat) : List Bytes :=
  if n = 0 then [] else List.replicate (min n 64) SP :: indentPieces (n - min n 64)
termination_by n

theorem jsonDumpIndentBuf_eq (n : Nat) (h : Sound sb) :
    jsonDumpIndentBuf n sb = writeAll (indentPieces n) sb := by
  induction n using Nat.strong_induction_on generalizing sb with
  | _ n ih =>
    rw [jsonDumpIndentBuf, indentPieces]
    split
    · rfl
    · rw [stringbufAppend_eq _ h, ih _ (by omega) (put_sound _ h), writeAll_cons]

theorem indentPieces_flatten (n : Nat) : (indentPieces n).flatten = List.replicate n SP := by
  induction n using Nat.strong_induction_on with
  | _ n ih =>
    rw [indentPieces]
    split
    · rename_i zero
      rw [zero]
      rfl
    · rw [List.flatten_cons, ih _ (by omega), List.replicate_append_replicate]
      congr 1
      omega

end CeJson
