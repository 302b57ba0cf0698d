import NanoProxy.Lib.Traced

/-!
# Files with a position

A write goes to the position and moves it. Seeking behind the end leaves a hole that the next
write fills with default values. The file holds at most `limit` items; a write that comes to
the limit is cut there, and sets the error indicator.
-/

namespace SeekFile

open Traced

variable {α : Type}

structure File (α : Type) where
  limit : Nat
  data : List α
  pos : Nat
  error : Bool

def create (limit : Nat) : File α := ⟨limit, [], 0, false⟩

def File.seek (f : File α) (pos : Nat) : File α := { f with pos := pos }

/-- How many of the items a write takes. -/
def File.room (f : File α) (new : List α) : Nat := min new.length (f.limit - f.pos)

def File.write [Inhabited α] (f : File α) (new : List α) : File α :=
  { f with
    data := if f.room new = 0 then f.data
      else splice (f.data.rightpad f.pos default) f.pos (new.take (f.room new))
    pos := f.pos + f.room new
    error := f.error || f.room new != new.length }

def File.writeAll [Inhabited α] (f : File α) (texts : List (List α)) : File α :=
  texts.foldl File.write f

@[simp] theorem seek_limit (f : File α) (pos : Nat) : (f.seek pos).limit = f.limit := rfl

@[simp] theorem seek_data (f : File α) (pos : Nat) : (f.seek pos).data = f.data := rfl

@[simp] theorem seek_pos (f : File α) (pos : Nat) : (f.seek pos).pos = pos := rfl

@[simp] theorem seek_error (f : File α) (pos : Nat) : (f.seek pos).error = f.error := rfl

variable {f : File α} {base : Nat} {done new : List α}

/-- `done` has been written behind the first `base` places, and the position is its end. -/
structure Appending (f : File α) (base : Nat) (done : List α) : Prop where
  pos : f.pos = base + done.length
  rest : f.data.drop base = done

theorem Appending.short (h : Appending f base done) : f.data.length ≤ f.pos := by
  have size := congrArg List.length h.rest
  rw [List.length_drop] at size
  have pos := h.pos
  omega

theorem appending_seek (limit base : Nat) :
    Appending ((create limit : File α).seek base) base [] :=
  ⟨rfl, List.drop_nil⟩

section Write

variable [Inhabited α] {texts : List (List α)}

@[simp] theorem write_limit : (f.write new).limit = f.limit := rfl

theorem write_clear (clear : (f.write new).error = false) :
    f.error = false ∧ f.room new = new.length := by
  rw [File.write] at clear
  dsimp only at clear
  rw [Bool.or_eq_false_iff, bne_eq_false_iff_eq] at clear
  exact clear

theorem write_pos (clear : (f.write new).error = false) : (f.write new).pos = f.pos + new.length :=
  congrArg (f.pos + ·) (write_clear clear).2

theorem write_data (clear : (f.write new).error = false) (some_new : new ≠ []) :
    (f.write new).data = splice (f.data.rightpad f.pos default) f.pos new := by
  have whole := (write_clear clear).2
  rw [File.write]
  dsimp only
  rw [whole, if_neg (by rwa [List.length_eq_zero_iff]), List.take_length]

theorem write_inside (clear : (f.write new).error = false) (some_new : new ≠ []) :
    f.pos + new.length ≤ f.limit := by
  have whole := (write_clear clear).2
  have size := List.length_pos_iff.mpr some_new
  rw [File.room] at whole
  omega

theorem writeAll_clear (clear : (f.writeAll texts).error = false) : f.error = false := by
  induction texts generalizing f with
  | nil => exact clear
  | cons new texts ih => exact (write_clear (ih clear)).1

@[simp] theorem writeAll_limit : (f.writeAll texts).limit = f.limit := by
  induction texts generalizing f with
  | nil => rfl
  | cons new texts ih => exact ih.trans write_limit

theorem Appending.write (h : Appending f base done) (clear : (f.write new).error = false) :
    Appending (f.write new) base (done ++ new) := by
  have pos := h.pos
  refine ⟨?_, ?_⟩
  · rw [write_pos clear, pos, List.length_append, Nat.add_assoc]
  by_cases no_new : new = []
  · subst no_new
    rw [List.append_nil]
    exact h.rest
  have short := h.short
  have padded : (f.data.rightpad f.pos default).length = f.pos := by
    rw [List.length_rightpad]
    omega
  have filled : (f.data.rightpad f.pos default).drop base = done := by
    have size := congrArg List.length h.rest
    rw [List.length_drop] at size
    have no_hole : f.pos - f.data.length - (base - f.data.length) = 0 := by omega
    rw [List.rightpad, List.drop_append, h.rest, List.drop_replicate, no_hole, List.replicate_zero,
      List.append_nil]
  have behind : (f.data.rightpad f.pos default).drop (f.pos + new.length) = [] :=
    List.drop_eq_nil_of_le (by omega)
  rw [write_data clear no_new, splice, behind, List.append_nil,
    List.take_of_length_le (Nat.le_of_eq padded), List.drop_append_of_le_length (by omega), filled]

theorem Appending.writeAll (h : Appending f base done)
    (clear : (f.writeAll texts).error = false) :
    Appending (f.writeAll texts) base (done ++ texts.flatten) := by
  induction texts generalizing f done with
  | nil => rwa [List.flatten_nil, List.append_nil]
  | cons new texts ih =>
    rw [List.flatten_cons, ← List.append_assoc]
    exact ih (h.write (writeAll_clear clear)) clear

/-- The places in front are written at last. -/
theorem Appending.finish (h : Appending f base done) (front : new.length = base) (pos : 0 < base)
    (clear : ((f.seek 0).write new).error = false) : ((f.seek 0).write new).data = new ++ done := by
  rw [write_data clear (List.ne_nil_of_length_pos (by omega)), seek_data, seek_pos, List.rightpad,
    Nat.zero_sub, List.replicate_zero, List.append_nil, splice, List.take_zero, List.nil_append,
    Nat.zero_add, front, h.rest]

end Write

end SeekFile
