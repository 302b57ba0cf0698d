import Mathlib.Data.List.Basic

/-!
# Programs with a log of what they touch

A run of a program is its value, or nothing where the fuel of a loop ends, and the list of
the events on the way. `Meets` is total correctness: the run comes to a value that
satisfies the postcondition, and every event of it is allowed. A memory is a function, so
that a read at any place has a value, and `window` is a part of it as a list.
-/

namespace Traced

structure Run (ε α : Type) where
  value : Option α
  log : List ε
  deriving DecidableEq

namespace Run

variable {ε α β : Type}

protected def pure (a : α) : Run ε α := ⟨some a, []⟩

protected def bind (x : Run ε α) (f : α → Run ε β) : Run ε β :=
  match x.value with
  | none => ⟨none, x.log⟩
  | some a => ⟨(f a).value, x.log ++ (f a).log⟩

instance : Monad (Run ε) where
  pure := Run.pure
  bind := Run.bind

def outOfFuel : Run ε α := ⟨none, []⟩

/-- A step that gives `a` and is seen as `e`. -/
def step (e : ε) (a : α) : Run ε α := ⟨some a, [e]⟩

end Run

open Run

section Rules

variable {ε α β : Type} {allowed : ε → Prop} {post : α → Prop} {after : β → Prop}

structure Meets (x : Run ε α) (allowed : ε → Prop) (post : α → Prop) : Prop where
  log : ∀ e ∈ x.log, allowed e
  value : ∃ a, x.value = some a ∧ post a

theorem Meets.pure {a : α} (h : post a) : Meets (Pure.pure a : Run ε α) allowed post :=
  ⟨nofun, a, rfl, h⟩

theorem Meets.step {e : ε} {a : α} (event : allowed e) (h : post a) :
    Meets (Run.step e a) allowed post :=
  ⟨fun _ listed => List.mem_singleton.mp listed ▸ event, a, rfl, h⟩

theorem Meets.bind {x : Run ε α} {f : α → Run ε β} (first : Meets x allowed post)
    (second : ∀ a, post a → Meets (f a) allowed after) : Meets (x >>= f) allowed after := by
  obtain ⟨a, found, ha⟩ := first.value
  obtain ⟨events, b, result, hb⟩ := second a ha
  have same : x >>= f = ⟨(f a).value, x.log ++ (f a).log⟩ := by
    change Run.bind x f = _
    rw [Run.bind, found]
  rw [same]
  exact ⟨List.forall_mem_append.mpr ⟨first.log, events⟩, b, result, hb⟩

theorem Meets.step_bind {e : ε} {a : α} {f : α → Run ε β} (event : allowed e)
    (second : Meets (f a) allowed after) : Meets (Run.step e a >>= f) allowed after :=
  ⟨List.forall_mem_cons.mpr ⟨event, second.log⟩, second.value⟩

theorem Meets.imp {x : Run ε α} {post' : α → Prop} (h : Meets x allowed post)
    (weaker : ∀ a, post a → post' a) : Meets x allowed post' := by
  obtain ⟨events, a, found, ha⟩ := h
  exact ⟨events, a, found, weaker a ha⟩

theorem Meets.allow {x : Run ε α} {allowed' : ε → Prop} (h : Meets x allowed post)
    (more : ∀ e, allowed e → allowed' e) : Meets x allowed' post :=
  ⟨fun e listed => more e (h.log e listed), h.value⟩

end Rules

section Windows

variable {α : Type} {mem : Nat → α}

def window (mem : Nat → α) (start : Nat) : Nat → List α
  | 0 => []
  | n + 1 => mem start :: window mem (start + 1) n

@[simp] theorem window_length (start n : Nat) : (window mem start n).length = n := by
  induction n generalizing start with
  | zero => rfl
  | succ n ih => rw [window, List.length_cons, ih]

theorem window_cons {start n : Nat} (some : 0 < n) :
    window mem start n = mem start :: window mem (start + 1) (n - 1) := by
  obtain ⟨n, rfl⟩ := Nat.exists_eq_add_one_of_ne_zero (Nat.ne_of_gt some)
  rfl

theorem window_append (start n m : Nat) :
    window mem start (n + m) = window mem start n ++ window mem (start + n) m := by
  induction n generalizing start with
  | zero => rw [Nat.zero_add, Nat.add_zero, window, List.nil_append]
  | succ n ih =>
    rw [Nat.add_right_comm, window, window, ih, List.cons_append, Nat.add_assoc, Nat.add_comm 1]

theorem window_drop (start n k : Nat) :
    (window mem start n).drop k = window mem (start + k) (n - k) := by
  rcases Nat.le_total k n with inside | beyond
  · obtain ⟨m, rfl⟩ := Nat.exists_eq_add_of_le inside
    rw [window_append, List.drop_left' (window_length start k), Nat.add_sub_cancel_left]
  · rw [List.drop_eq_nil_of_le (by rwa [window_length]), Nat.sub_eq_zero_of_le beyond, window]

theorem window_take {k n : Nat} (start : Nat) (inside : k ≤ n) :
    (window mem start n).take k = window mem start k := by
  obtain ⟨m, rfl⟩ := Nat.exists_eq_add_of_le inside
  rw [window_append, List.take_left' (window_length start k)]

theorem window_get? {i n : Nat} (start : Nat) (inside : i < n) :
    (window mem start n)[i]? = some (mem (start + i)) := by
  have split : (window mem start n).drop i = window mem (start + i) (n - i) :=
    window_drop start n i
  rw [window_cons (Nat.sub_pos_of_lt inside)] at split
  rw [← List.head?_drop, split, List.head?_cons]

theorem window_getD {i n : Nat} (start : Nat) (inside : i < n) (default : α) :
    (window mem start n).getD i default = mem (start + i) := by
  rw [List.getD_eq_getElem?_getD, window_get? start inside, Option.getD_some]

end Windows

section Blocks

variable {α : Type} {block new : List α} {start : Nat}

/-- The block with `new` written over it from `start` on. -/
def splice (block : List α) (start : Nat) (new : List α) : List α :=
  block.take start ++ (new ++ block.drop (start + new.length))

theorem splice_length (inside : start + new.length ≤ block.length) :
    (splice block start new).length = block.length := by
  rw [splice, List.length_append, List.length_append, List.length_take, List.length_drop]
  omega

theorem splice_take (inside : start ≤ block.length) :
    (splice block start new).take (start + new.length) = block.take start ++ new := by
  have front : (block.take start).length = start := List.length_take_of_le inside
  rw [splice, ← List.append_assoc]
  exact List.take_left' (by rw [List.length_append, front])

theorem splice_append (new' : List α) (inside : start + new.length ≤ block.length) :
    splice block start (new ++ new') = splice (splice block start new) (start + new.length) new' := by
  have front : (block.take start ++ new).length = start + new.length := by
    rw [List.length_append, List.length_take]
    omega
  have rest : (splice block start new).drop (start + new.length + new'.length) =
      block.drop (start + new.length + new'.length) := by
    rw [← List.drop_drop, splice, ← List.append_assoc, List.drop_left' front, List.drop_drop]
  rw [splice, splice, splice_take (by omega), rest, List.length_append, Nat.add_assoc,
    List.append_assoc, List.append_assoc]

theorem splice_get {a : α} (inside : start < block.length) :
    (splice block start [a])[start]? = some a := by
  have front : (block.take start).length = start := List.length_take_of_le (Nat.le_of_lt inside)
  rw [splice, List.getElem?_append_right (Nat.le_of_eq front), front, Nat.sub_self]
  rfl

end Blocks

end Traced
