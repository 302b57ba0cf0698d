import NanoProxy.Lib.UrlEncoded
import NanoProxy.RequestGrammar

/-!
# Form fields (jit_backend/app.cy)

`form_field` looks for the name with an equals sign anywhere in the body, so that it also finds
a field whose name only ends that way. `url_decode` writes as much of the value as there is room
for.
-/

namespace JitForms

open CLib RequestDecoder UrlEncoded

/-- The loop of `url_decode`, with the room that is left; `strtol` reads the two digits. -/
def urlDecodeLoop : Nat → Bytes → Bytes
  | 0, _ => []
  | _ + 1, [] => []
  | room + 1, 43 :: t => SP :: urlDecodeLoop room t
  | room + 1, 37 :: a :: b :: t =>
    UInt8.ofNat (strtoull [a, b] 16).value :: urlDecodeLoop room t
  | room + 1, b :: t => b :: urlDecodeLoop room t

def urlDecode (input : Bytes) (outcap : Nat) : Bytes :=
  cstr (urlDecodeLoop (outcap - 1) (cstr input))

/-- The value, if the field is found. -/
def formField (body key : Bytes) (outcap : Nat) : Option Bytes :=
  let needle := (key ++ [61]).take 63
  (strstr needle (cstr body)).map fun i =>
    let p := (cstr body).drop (i + needle.length)
    urlDecode ((p.takeWhile (· != 38)).take 511) outcap

theorem urlDecodeLoop_plain {b : UInt8} (plus : b ≠ 43) (percent : b ≠ 37) (room : Nat)
    (t : Bytes) :
    urlDecodeLoop (room + 1) (b :: t) = b :: urlDecodeLoop room t := by
  rw [urlDecodeLoop]
  · exact plus
  · exact fun _ _ _ same => absurd same percent

theorem hexUpper_read (b : UInt8) :
    UInt8.ofNat (strtoull [hexUpper (b.toNat / 16), hexUpper (b.toNat % 16)] 16).value = b := by
  have all := forall_byte (p := fun b =>
    UInt8.ofNat (strtoull [hexUpper (b.toNat / 16), hexUpper (b.toNat % 16)] 16).value == b)
    (by decide +kernel) b
  simpa using all

theorem urlDecodeLoop_byte (b : UInt8) (room : Nat) (t : Bytes) :
    urlDecodeLoop (room + 1) (encodeByte b ++ t) = b :: urlDecodeLoop room t := by
  unfold encodeByte
  split
  · rename_i plain
    refine urlDecodeLoop_plain ?_ ?_ room t <;> rintro rfl <;> exact absurd plain (by decide)
  split
  · rename_i space
    rw [space]
    rfl
  · exact congrArg (· :: urlDecodeLoop room t) (hexUpper_read b)

/-- A cut encoding holds enough for the room. -/
theorem urlDecodeLoop_encode {room n : Nat} (enough : 3 * room ≤ n) (value : Bytes) :
    urlDecodeLoop room ((encode value).take n) = value.take room := by
  induction value generalizing room n with
  | nil =>
    cases room with
    | zero => rfl
    | succ room =>
      rw [encode, List.flatMap_nil, List.take_nil]
      rfl
  | cons b value ih =>
    cases room with
    | zero => rfl
    | succ room =>
      have short := encodeByte_length b
      have whole : (encode (b :: value)).take n =
          encodeByte b ++ (encode value).take (n - (encodeByte b).length) := by
        rw [encode, List.flatMap_cons, List.take_append, List.take_of_length_le (by omega)]
        rfl
      rw [whole, urlDecodeLoop_byte, ih (by omega), List.take_succ_cons]

theorem urlDecodeLoop_length (room : Nat) (t : Bytes) : (urlDecodeLoop room t).length ≤ room := by
  induction room, t using urlDecodeLoop.induct with
  | case1 t => exact Nat.le_refl 0
  | case2 room => exact Nat.zero_le _
  | case3 room t ih => exact Nat.succ_le_succ ih
  | case4 room a b t ih => exact Nat.succ_le_succ ih
  | case5 room b t plus percent ih =>
    rw [urlDecodeLoop]
    · exact Nat.succ_le_succ ih
    · exact plus
    · exact percent

theorem formField_length {body key value : Bytes} {outcap : Nat}
    (read : formField body key outcap = some value) : value.length ≤ outcap - 1 := by
  obtain ⟨i, _, rfl⟩ := Option.map_eq_some_iff.mp read
  exact (List.takeWhile_prefix _).length_le.trans (urlDecodeLoop_length _ _)

section Search

variable {key a r : Bytes} {c : UInt8}

/-- A mark ends the needle just where it ends the text in front of it. -/
theorem mark_prefix (plain : c ∉ key) (plain' : c ∉ a) :
    key ++ [c] <+: a ++ c :: r ↔ key = a := by
  have before {s : Bytes} (absent : c ∉ s) (t : Bytes) :
      (s ++ c :: t).takeWhile (· != c) = s := by
    rw [List.takeWhile_append_of_pos fun b listed => ?_, List.takeWhile_cons_of_neg (by simp),
      List.append_nil]
    rw [bne_iff_ne]
    rintro rfl
    exact absent listed
  constructor
  · rintro ⟨rest, whole⟩
    rw [List.append_assoc, List.singleton_append] at whole
    rw [← before plain rest, whole, before plain']
  · rintro rfl
    exact ⟨r, by rw [List.append_assoc, List.singleton_append]⟩

theorem strstr_mark (plain : c ∉ key) (plain' : c ∉ a) :
    strstr (key ++ [c]) (a ++ c :: r) =
      if key <:+ a then some (a.length - key.length)
      else (strstr (key ++ [c]) r).map (· + (a.length + 1)) := by
  induction a with
  | nil =>
    have here := mark_prefix (r := r) plain plain'
    rw [List.nil_append] at here
    rw [List.nil_append, strstr]
    by_cases empty : key = []
    · rw [if_pos (here.mpr empty), if_pos (List.suffix_nil.mpr empty), List.length_nil,
        Nat.zero_sub]
    · rw [if_neg (mt here.mp empty), if_neg (mt List.suffix_nil.mp empty)]
      rfl
  | cons b a ih =>
    have here := mark_prefix (r := r) plain plain'
    have later := ih fun listed => plain' (List.mem_cons_of_mem b listed)
    rw [List.cons_append] at here
    rw [List.cons_append, strstr, later]
    by_cases whole : key = b :: a
    · rw [if_pos (here.mpr whole), if_pos (whole ▸ List.suffix_rfl), whole, Nat.sub_self]
    · rw [if_neg (mt here.mp whole)]
      by_cases ends : key <:+ a
      · rw [if_pos ends, if_pos (ends.trans (List.suffix_cons b a)), Option.map_some,
          List.length_cons, Nat.sub_add_comm ends.length_le]
      · rw [if_neg ends, if_neg fun longer => (List.suffix_cons_iff.mp longer).elim whole ends,
          Option.map_map]
        rfl

theorem strstr_absent (absent : c ∉ r) : strstr (key ++ [c]) r = none := by
  induction r with
  | nil => rfl
  | cons b r ih =>
    rw [strstr, if_neg, ih fun listed => absent (List.mem_cons_of_mem b listed)]
    · rfl
    · intro here
      exact absent (here.subset (List.mem_append_right key List.mem_cons_self))

end Search

/-- The field that is found: the first whose name ends with the key. -/
def found (key : Bytes) (pairs : List (Bytes × Bytes)) : Option (Bytes × Bytes) :=
  pairs.find? fun p => key <:+ encode p.1

/-- What is read of the fields that were passed. -/
def Passed (u : Bytes) : Prop := 61 ∉ u ∧ (u = [] ∨ ∃ s, u = s ++ [38])

theorem Passed.suffix {u key : Bytes} (passed : Passed u) (plain : 38 ∉ key) (s : Bytes) :
    key <:+ u ++ s ↔ key <:+ s := by
  rcases passed.2 with rfl | ⟨front, rfl⟩
  · rw [List.nil_append]
  · rw [List.append_assoc, List.singleton_append]
    exact suffix_behind plain

section Fields

variable {key : Bytes} (unmarked : 61 ∉ key) (unjoined : 38 ∉ key)

include unmarked unjoined

/-- Where the search stops in a form. -/
theorem strstr_form {u : Bytes} (passed : Passed u) (pairs : List (Bytes × Bytes)) :
    (found key pairs = none → strstr (key ++ [61]) (u ++ form pairs) = none) ∧
      ∀ p, found key pairs = some p → ∃ i tail, strstr (key ++ [61]) (u ++ form pairs) = some i ∧
        (u ++ form pairs).drop (i + (key ++ [61]).length) = encode p.2 ++ tail ∧
          (tail = [] ∨ ∃ t, tail = 38 :: t) := by
  induction pairs generalizing u with
  | nil =>
    refine ⟨fun _ => ?_, fun p some_p => by cases some_p⟩
    rw [form, List.map_nil, List.intercalate_nil, List.append_nil]
    exact strstr_absent passed.1
  | cons q pairs ih =>
    have name := not_mem_encode (c := 61) rfl q.1
    have value := not_mem_encode (c := 61) rfl q.2
    obtain ⟨more, split, next⟩ : ∃ more,
        form (q :: pairs) = encode q.1 ++ 61 :: (encode q.2 ++ more) ∧
        (more = [] ∧ pairs = [] ∨ more = 38 :: form pairs) := by
      cases pairs with
      | nil => exact ⟨[], by rw [form_singleton, pairText, List.append_nil], Or.inl ⟨rfl, rfl⟩⟩
      | cons q' pairs =>
        exact ⟨_, by rw [form_cons_cons, pairText, List.append_assoc, List.cons_append], Or.inr rfl⟩
    have clean : 61 ∉ u ++ encode q.1 := by
      rw [List.mem_append, not_or]
      exact ⟨passed.1, name⟩
    rw [split, ← List.append_assoc, strstr_mark unmarked clean, found, List.find?_cons]
    by_cases ends : key <:+ encode q.1
    · rw [if_pos ((passed.suffix unjoined _).mpr ends), decide_eq_true ends]
      refine ⟨(by cases ·), fun p some_p => ?_⟩
      cases some_p
      refine ⟨_, more, rfl, ?_, next.imp And.left fun shape => ⟨_, shape⟩⟩
      have inside := ((passed.suffix unjoined _).mpr ends).length_le
      have reach : (u ++ encode q.1).length - key.length + (key ++ [61]).length =
          (u ++ encode q.1).length + 1 := by
        rw [@List.length_append _ key, List.length_singleton]
        omega
      rw [reach, List.drop_length_add_append]
      rfl
    · rw [if_neg (mt (passed.suffix unjoined _).mp ends), decide_eq_false ends]
      rcases next with ⟨rfl, rfl⟩ | rfl
      · rw [List.append_nil, strstr_absent value]
        exact ⟨fun _ => rfl, fun p some_p => by cases some_p⟩
      · have passed' : Passed (encode q.2 ++ [38]) := by
          refine ⟨?_, Or.inr ⟨_, rfl⟩⟩
          rw [List.mem_append, not_or]
          exact ⟨value, by decide⟩
        have shape : encode q.2 ++ 38 :: form pairs = (encode q.2 ++ [38]) ++ form pairs := by
          rw [List.append_assoc, List.singleton_append]
        obtain ⟨missing, reached⟩ := ih passed'
        rw [shape]
        refine ⟨fun none_p => by rw [missing none_p]; rfl, fun p some_p => ?_⟩
        obtain ⟨i, tail, found_i, behind, stops⟩ := reached p some_p
        refine ⟨_, tail, by rw [found_i]; rfl, ?_, stops⟩
        rw [← behind]
        have reach : i + ((u ++ encode q.1).length + 1) + (key ++ [61]).length =
            (u ++ encode q.1).length + (i + (key ++ [61]).length + 1) := by omega
        rw [reach, List.drop_length_add_append, List.drop_succ_cons]

end Fields

theorem nul_free_form (pairs : List (Bytes × Bytes)) : 0 ∉ form pairs := by
  have pair (p : Bytes × Bytes) : 0 ∉ pairText p := by
    rw [pairText, List.mem_append, List.mem_cons, not_or, not_or]
    exact ⟨not_mem_encode rfl _, by decide, not_mem_encode rfl _⟩
  induction pairs with
  | nil => exact List.not_mem_nil
  | cons p pairs ih =>
    cases pairs with
    | nil =>
      rw [form_singleton]
      exact pair p
    | cons q pairs =>
      rw [form_cons_cons, List.mem_append, List.mem_cons, not_or, not_or]
      exact ⟨pair p, by decide, ih⟩

/-- On a form as browsers send it, `form_field` gives the value of the first field whose name
ends with the key, as much of it as there is room for. -/
theorem formField_form {key : Bytes} (unmarked : 61 ∉ key) (unjoined : 38 ∉ key)
    (short : key.length ≤ 62) {outcap : Nat} (room : 3 * (outcap - 1) ≤ 511)
    (pairs : List (Bytes × Bytes)) :
    formField (form pairs) key outcap =
      (found key pairs).map fun p => cstr (p.2.take (outcap - 1)) := by
  have needle : (key ++ [61]).take 63 = key ++ [61] := by
    refine List.take_of_length_le ?_
    rw [List.length_append, List.length_singleton]
    omega
  have text : cstr (form pairs) = form pairs :=
    RequestGrammar.cstr_eq_self (nul_free_form pairs)
  obtain ⟨missing, reached⟩ := strstr_form unmarked unjoined ⟨List.not_mem_nil, Or.inl rfl⟩ pairs
  rw [List.nil_append] at missing reached
  rw [formField, needle, text]
  cases search : found key pairs with
  | none => rw [missing search, Option.map_none, Option.map_none]
  | some p =>
    obtain ⟨i, tail, found_i, behind, stops⟩ := reached p search
    have value : (encode p.2 ++ tail).takeWhile (· != 38) = encode p.2 := by
      rw [List.takeWhile_append_of_pos fun b listed => ?_]
      · rcases stops with rfl | ⟨t, rfl⟩
        · rw [List.takeWhile_nil, List.append_nil]
        · rw [List.takeWhile_cons_of_neg (by decide), List.append_nil]
      · rw [bne_iff_ne]
        rintro rfl
        exact not_mem_encode rfl p.2 listed
    have clean : 0 ∉ (encode p.2).take 511 := fun listed =>
      not_mem_encode rfl p.2 (List.mem_of_mem_take listed)
    rw [found_i, Option.map_some, Option.map_some]
    dsimp only
    rw [behind, value, urlDecode, RequestGrammar.cstr_eq_self clean, urlDecodeLoop_encode room]

-- A field whose name ends in the key stands in its way.
example :
    formField (form [(ascii "old-password", ascii "a+b"), (ascii "password", ascii "demo")])
      (ascii "password") 128 = some (ascii "a+b") :=
  formField_form (by decide) (by decide) (by decide) (by decide) _

/-- The characters that `trim` takes off. -/
def isSpace (c : Char) : Bool :=
  let n := c.toNat
  (9 ≤ n && n ≤ 13) || n == 32 || n == 160 || n == 5760 || (8192 ≤ n && n ≤ 8202) || n == 8232 ||
    n == 8233 || n == 8239 || n == 8287 || n == 12288 || n == 65279

def trim (t : List Char) : List Char := (t.dropWhile isSpace).rdropWhile isSpace

/-- The `value` of an input field of one line: it has no line ends. -/
def inputValue (typed : List Char) : List Char :=
  typed.filter fun c => c.toNat != 10 && c.toNat != 13

def utf8 (t : List Char) : Bytes := t.flatMap String.utf8EncodeChar

/-- The body that the login page sends for what is typed into its two fields. -/
def loginBody (username password : List Char) : Bytes :=
  form [(ascii "username", utf8 (trim (inputValue username))),
    (ascii "password", utf8 (inputValue password))]

theorem loginBody_fields (username password : List Char) :
    formField (loginBody username password) (ascii "username") 128 =
        some (cstr ((utf8 (trim (inputValue username))).take 127)) ∧
      formField (loginBody username password) (ascii "password") 128 =
        some (cstr ((utf8 (inputValue password)).take 127)) := by
  have first (u v : Bytes) : found (ascii "username")
      [(ascii "username", u), (ascii "password", v)] = some (ascii "username", u) := rfl
  have second (u v : Bytes) : found (ascii "password")
      [(ascii "username", u), (ascii "password", v)] = some (ascii "password", v) := rfl
  constructor
  · rw [loginBody, formField_form (by decide) (by decide) (by decide) (by decide), first]
    rfl
  · rw [loginBody, formField_form (by decide) (by decide) (by decide) (by decide), second]
    rfl

theorem utf8_cons (c : Char) (t : List Char) : utf8 (c :: t) = String.utf8EncodeChar c ++ utf8 t :=
  List.flatMap_cons

theorem utf8_sublist {t t' : List Char} (h : t.Sublist t') : (utf8 t).Sublist (utf8 t') := by
  induction h with
  | slnil => exact List.Sublist.refl _
  | cons c _ ih =>
    rw [utf8_cons]
    exact ih.trans (List.sublist_append_right _ _)
  | cons_cons c _ ih =>
    rw [utf8_cons, utf8_cons]
    exact (List.Sublist.refl _).append ih

/-- A text that is cut down has fewer bytes. -/
theorem utf8_eq_iff {t t' : List Char} (h : t.Sublist t') : utf8 t = utf8 t' ↔ t = t' := by
  refine ⟨fun same => ?_, congrArg utf8⟩
  induction h with
  | slnil => rfl
  | cons c below ih =>
    have fewer := (utf8_sublist below).length_le
    have some_bytes : 0 < (String.utf8EncodeChar c).length :=
      List.length_pos_of_ne_nil String.utf8EncodeChar_ne_nil
    rw [same, utf8_cons, List.length_append] at fewer
    omega
  | cons_cons c _ ih =>
    rw [utf8_cons, utf8_cons] at same
    rw [ih (List.append_cancel_left same)]

/-- A text is received whole if neither the page nor the backend cuts it. -/
theorem take_utf8_iff {t t' : List Char} (h : t.Sublist t') (n : Nat) :
    (utf8 t).take n = utf8 t' ↔ t = t' ∧ (utf8 t').length ≤ n := by
  constructor
  · intro whole
    have same : utf8 t = utf8 t' := by
      refine (utf8_sublist h).eq_of_length_le ?_
      rw [← whole]
      exact List.length_take_le' n _
    refine ⟨(utf8_eq_iff h).mp same, ?_⟩
    rw [← whole]
    exact List.length_take_le n _
  · rintro ⟨rfl, short⟩
    exact List.take_of_length_le short

theorem inputValue_sublist (typed : List Char) : (inputValue typed).Sublist typed :=
  List.filter_sublist

theorem trim_sublist (t : List Char) : (trim t).Sublist t :=
  (List.rdropWhile_prefix isSpace _).sublist.trans (List.dropWhile_sublist _)

/-- The typed name and password are what the page sends. -/
def SentWhole (username password : List Char) : Prop :=
  trim (inputValue username) = username ∧ inputValue password = password

instance (username password : List Char) : Decidable (SentWhole username password) :=
  inferInstanceAs (Decidable (_ ∧ _))

end JitForms
