import Mathlib.Data.List.Basic
import Mathlib.Data.List.Infix

/-!
# Bodies of several parts

A part is a head and a content with a blank line between them, and in front of it stands a line
with the delimiter. The line end in front of the next delimiter belongs to the delimiter. A
delimiter has no line end in it, so it does not begin in a content that does not contain it.
-/

namespace Multipart

abbrev Text := List UInt8

def lineEnd : Text := [13, 10]

def blankLine : Text := [13, 10, 13, 10]

structure Part where
  head : Text
  content : Text

/-- A part behind the delimiter, up to the line end of the next one. -/
def Part.text (p : Part) : Text := lineEnd ++ (p.head ++ (blankLine ++ (p.content ++ lineEnd)))

/-- Everything behind the first delimiter. -/
def behind (delimiter epilogue : Text) : List Part → Text
  | [] => [45, 45] ++ epilogue
  | p :: parts => p.text ++ (delimiter ++ behind delimiter epilogue parts)

def body (delimiter epilogue : Text) (parts : List Part) : Text :=
  delimiter ++ behind delimiter epilogue parts

/-- The needle stands at the end of the front, and nowhere before. -/
def First (needle front back : Text) : Prop :=
  ∀ n, needle <+: (front ++ back).drop n → front.length ≤ n

section Search

variable {needle t front back : Text} {b : UInt8} {n : Nat}

/-- A text without the byte ends in front of it or begins behind it. -/
theorem prefix_avoids (absent : b ∉ t) (starts : t <+: (front ++ b :: back).drop n) :
    n + t.length ≤ front.length ∨ front.length < n := by
  by_contra across
  rw [not_or, not_le, not_lt] at across
  obtain ⟨r, same⟩ := starts
  have inside : front.length - n < t.length := by omega
  have at_b := congrArg (fun s => s[front.length - n]?) same
  rw [List.getElem?_append_left inside, List.getElem?_drop, Nat.add_sub_cancel' across.2,
    List.getElem?_append_right (Nat.le_refl _), Nat.sub_self, List.getElem?_cons_zero] at at_b
  exact absent (List.mem_of_getElem? at_b)

theorem infix_of_starts (starts : needle <+: (front ++ back).drop n)
    (inside : n + needle.length ≤ front.length) : needle <:+: front := by
  rw [List.drop_append_of_le_length (by omega)] at starts
  have short : needle <+: front.drop n := by
    refine List.prefix_of_prefix_length_le starts (List.prefix_append _ _) ?_
    rw [List.length_drop]
    omega
  exact short.isInfix.trans (List.drop_suffix n front).isInfix

/-- A needle without the byte does not reach over it. -/
theorem infix_split (absent : b ∉ t) (inside : t <:+: front ++ b :: back) :
    t <:+: front ∨ t <:+: back := by
  obtain ⟨before, after, whole⟩ := inside
  have starts : t <+: (front ++ b :: back).drop before.length := by
    rw [← whole, List.append_assoc, List.drop_left]
    exact List.prefix_append t after
  rcases prefix_avoids absent starts with fits | passed
  · exact .inl (infix_of_starts starts fits)
  · obtain ⟨k, beyond⟩ := Nat.exists_eq_add_of_lt passed
    rw [beyond, ← List.drop_drop, ← List.drop_drop, List.drop_left] at starts
    refine .inr (starts.isInfix.trans ?_)
    rw [List.drop_drop, Nat.add_comm, ← List.drop_drop]
    exact (List.drop_suffix k _).isInfix

/-- A needle whose first byte comes only once does not overlap itself. -/
theorem first_fresh (once : b ∉ t) (absent : ¬b :: t <:+: front) (back : Text) :
    First (b :: t) front (b :: t ++ back) := by
  intro n starts
  by_contra before
  rw [not_le] at before
  have later : t <+: (front ++ b :: (t ++ back)).drop (n + 1) := by
    obtain ⟨r, same⟩ := starts
    rw [List.cons_append] at same
    rw [← List.tail_drop, ← List.cons_append, ← same]
    exact List.prefix_append t r
  rcases prefix_avoids once later with fits | passed
  · refine absent (infix_of_starts starts ?_)
    rw [List.length_cons]
    omega
  · omega

end Search

/-- A delimiter without line ends is first found behind the line end. -/
theorem first_delimiter {delimiter content : Text} (plain : 13 ∉ delimiter)
    (plain' : 10 ∉ delimiter) (absent : ¬delimiter <:+: content) (rest : Text) :
    First delimiter (content ++ lineEnd) rest := by
  intro n starts
  have nonempty : delimiter.length ≠ 0 := by
    rw [ne_eq, List.length_eq_zero_iff]
    rintro rfl
    exact absent List.nil_infix
  have whole : content ++ lineEnd ++ rest = content ++ 13 :: 10 :: rest := by simp [lineEnd]
  have whole' : content ++ lineEnd ++ rest = content ++ [13] ++ 10 :: rest := by simp [lineEnd]
  have returned := prefix_avoids plain (whole ▸ starts)
  have fed := prefix_avoids plain' (whole' ▸ starts)
  rw [List.length_append, List.length_singleton] at fed
  rw [List.length_append]
  change content.length + 2 ≤ n
  rcases returned with fits | passed
  · rw [List.append_assoc] at starts
    exact absurd (infix_of_starts starts fits) absent
  · omega

end Multipart
