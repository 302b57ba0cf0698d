import NanoProxy.JsonReading

/-!
# Which valid texts the JSON reader takes

The functions that build trees refuse an empty string and an empty key, and the reader with
them.
-/

namespace JsonAcceptance

open CLib Dict JsonGrammar JsonParser JsonReading

variable {token : Text} {tree : Json} {chars : List StrChar} {max : Nat} {strtod : Strtod}

/-- The C library reads a decimal number to its end. -/
def ReadsNumbers (strtod : Strtod) : Prop :=
  ∀ token, Number token → strtod.length token = token.length

/-- No `\u0000`. -/
def NoNul (chars : List StrChar) : Prop := .unicode 48 48 48 48 ∉ chars

/-- The limits of the reader, for number tokens, strings and keys. -/
def Within : Json → Prop :=
  All (fun token => token.length < 64) (fun chars => chars.length < MAX_VALUE_LEN ∧ NoNul chars)
    (fun key => key.length < MAX_KEY_LEN ∧ NoNul key)

def NoEmpty : Json → Prop := All (fun _ => True) (fun chars => chars ≠ []) (fun key => key ≠ [])

theorem hexDigit_zero {b : UInt8} (hex : isHex b = true) : digitVal b = 0 ↔ b = 48 := by
  have all := forall_byte (p := fun b => !isHex b || (digitVal b == 0) == (b == 48))
    (by decide +kernel) b
  rw [hex] at all
  simpa using all

theorem hexDigit_lt {b : UInt8} (hex : isHex b = true) : digitVal b < 16 := by
  have all := forall_byte (p := fun b => !isHex b || decide (digitVal b < 16))
    (by decide +kernel) b
  rw [hex] at all
  simpa using all

/-- Only `\u0000` comes to a NUL. -/
theorem decodeChar_zero {c : StrChar} (valid : c.Valid) :
    decodeChar c = 0 ↔ c = .unicode 48 48 48 48 := by
  cases c with
  | plain b =>
    constructor
    · rintro rfl
      exact absurd valid.1 (by decide)
    · rintro ⟨⟩
  | escape b =>
    constructor
    · intro zero
      simp only [StrChar.Valid, List.mem_cons, List.not_mem_nil, or_false] at valid
      rcases valid with rfl | rfl | rfl | rfl | rfl | rfl | rfl | rfl <;> exact absurd zero (by decide)
    · rintro ⟨⟩
  | unicode a b c d =>
    obtain ⟨ha, hb, hc, hd⟩ := valid
    have digits : (isxdigit a && isxdigit b && isxdigit c && isxdigit d) = true := by
      change (isHex a && isHex b && isHex c && isHex d) = true
      rw [ha, hb, hc, hd]
      rfl
    have value : ofDigits 16 [a, b, c, d] =
        ((digitVal a * 16 + digitVal b) * 16 + digitVal c) * 16 + digitVal d := by
      simp [ofDigits]
    rw [decodeChar, decodeUnicode, if_pos digits, Option.getD_some, value]
    have la := hexDigit_lt ha
    have lb := hexDigit_lt hb
    have lc := hexDigit_lt hc
    have ld := hexDigit_lt hd
    constructor
    · intro zero
      split at zero
      · have small := congrArg UInt8.toNat zero
        rw [UInt8.toNat_ofNat'] at small
        change _ % 256 = 0 at small
        have za : digitVal a = 0 := by omega
        have zb : digitVal b = 0 := by omega
        have zc : digitVal c = 0 := by omega
        have zd : digitVal d = 0 := by omega
        rw [(hexDigit_zero ha).mp za, (hexDigit_zero hb).mp zb, (hexDigit_zero hc).mp zc,
          (hexDigit_zero hd).mp zd]
      · exact absurd zero (by decide)
    · intro same
      cases same
      rfl

theorem decode_no_nul (valid : ∀ c ∈ chars, c.Valid) (clean : NoNul chars) :
    (decode chars).takeWhile (· ≠ 0) = decode chars := by
  rw [List.takeWhile_eq_self_iff]
  intro b listed
  obtain ⟨c, inside, rfl⟩ := List.mem_map.mp listed
  rw [decide_eq_true_iff]
  intro zero
  rw [(decodeChar_zero (valid c inside)).mp zero] at inside
  exact clean inside

/-- A C string in its limits. -/
theorem decode_isSome (valid : ∀ c ∈ chars, c.Valid) (clean : NoNul chars)
    (short : chars.length < max) : (cText max (decode chars)).isSome ↔ chars ≠ [] := by
  have length : (decode chars).length = chars.length := List.length_map _
  rw [cText_isSome, decode_no_nul valid clean, length]
  constructor
  · rintro ⟨nonempty, _⟩ rfl
    exact nonempty rfl
  · exact fun nonempty => ⟨fun empty => nonempty (List.map_eq_nil_iff.mp empty), short⟩

theorem evalElements_isSome {elements : List Json} :
    (evalElements strtod elements).isSome ↔ ∀ e ∈ elements, (eval strtod e).isSome := by
  induction elements with
  | nil => exact ⟨fun _ _ listed => (nomatch listed), fun _ => rfl⟩
  | cons e elements ih =>
    rw [List.forall_mem_cons, ← ih, evalElements]
    cases eval strtod e with
    | none => simp
    | some v => simp

theorem evalMembers_isSome {members : List (List StrChar × Json)} (pairs : Pairs) :
    (evalMembers strtod members (.object pairs)).isSome ↔
      ∀ m ∈ members, (eval strtod m.2).isSome ∧ (cText MAX_KEY_LEN (decode m.1)).isSome := by
  induction members generalizing pairs with
  | nil => exact ⟨fun _ _ listed => (nomatch listed), fun _ => rfl⟩
  | cons m members ih =>
    rw [List.forall_mem_cons, evalMembers]
    cases eval strtod m.2 with
    | none => simp
    | some v =>
      rw [Option.bind_some, dictObjectSet]
      cases cText MAX_KEY_LEN (decode m.1) with
      | none => simp
      | some key =>
        rw [Option.map_some, Option.bind_some, ih]
        simp

/-- The value of a tree within the limits. -/
theorem eval_isSome {Space : Text → Prop} (contract : ReadsNumbers strtod)
    (h : Value Space token tree) (within : Within tree) :
    (eval strtod tree).isSome ↔ NoEmpty tree := by
  induction h with
  | null => exact ⟨fun _ => .null, fun _ => rfl⟩
  | bool b => exact ⟨fun _ => .bool b, fun _ => rfl⟩
  | number valid =>
    cases within with
    | number short =>
      refine ⟨fun _ => .number trivial, fun _ => ?_⟩
      rw [eval, if_pos ⟨short, contract _ valid⟩]
      rfl
  | string valid =>
    cases within with
    | string h =>
      rw [eval, dictCreateString, Option.isSome_map, decode_isSome valid h.2 h.1]
      constructor
      · exact fun nonempty => .string nonempty
      · rintro ⟨_⟩
        assumption
  | emptyArray _ => exact ⟨fun _ => .array (List.forall_mem_nil _), fun _ => rfl⟩
  | @array elements _ _ _ ih =>
    cases within with
    | array each =>
      rw [eval, Option.isSome_map, evalElements_isSome]
      constructor
      · intro all
        refine .array fun e listed => ?_
        obtain ⟨element, inside, rfl⟩ := List.mem_map.mp listed
        exact (ih element inside (each _ listed)).mp (all _ listed)
      · rintro ⟨_⟩ e listed
        obtain ⟨element, inside, rfl⟩ := List.mem_map.mp listed
        rename_i all
        exact (ih element inside (each _ listed)).mpr (all _ listed)
  | emptyObject _ =>
    exact ⟨fun _ => .object (List.forall_mem_nil _) (List.forall_mem_nil _), fun _ => rfl⟩
  | @object members _ _ keys _ ih =>
    cases within with
    | object limits each =>
      rw [eval, evalMembers_isSome]
      constructor
      · intro all
        refine .object (fun m listed => ?_) fun m listed => ?_
        · obtain ⟨member, inside, rfl⟩ := List.mem_map.mp listed
          exact (decode_isSome (keys member inside) (limits _ listed).2 (limits _ listed).1).mp
            (all _ listed).2
        · obtain ⟨member, inside, rfl⟩ := List.mem_map.mp listed
          exact (ih member inside (each _ listed)).mp (all _ listed).1
      · rintro (_ | _ | _ | _ | _ | ⟨nonempty, all⟩) m listed
        obtain ⟨member, inside, rfl⟩ := List.mem_map.mp listed
        exact ⟨(ih member inside (each _ listed)).mpr (all _ listed),
          (decode_isSome (keys member inside) (limits _ listed).2 (limits _ listed).1).mpr
            (nonempty _ listed)⟩

/-- The reader takes a valid text within its limits if and only if there is no empty string
and no empty key in it. -/
theorem dictDeserializeJson_accepts_iff (strtod : Strtod) (contract : ReadsNumbers strtod)
    (t : Text) (tree : Json) (more : Bytes) (h : RfcText t tree) (within : Within tree) :
    (∃ v, dictDeserializeJson strtod (t ++ more) t.length = .ok v) ↔ NoEmpty tree := by
  have read : (dictDeserializeJson strtod (t ++ more) t.length).toOption = eval strtod tree :=
    deserialize_text h.commented more
  obtain ⟨before, token, after, last, rfl, _, value, _, _⟩ := h
  rw [← eval_isSome contract value within, ← read]
  cases dictDeserializeJson strtod (before ++ (token ++ (after ++ last)) ++ more)
      (before ++ (token ++ (after ++ last))).length with
  | error e => exact ⟨nofun, nofun⟩
  | ok v => exact ⟨fun _ => rfl, fun _ => ⟨v, rfl⟩⟩

/-- A C library for the number 1. -/
def strtodOne : Strtod := ⟨fun _ => 0x3FF0000000000000, List.length⟩

theorem readsNumbers_one : ReadsNumbers strtodOne := fun _ _ => rfl

/-- `["a",1]` -/
def sampleElements : List Element :=
  [⟨[], stringText [.plain 97], [], .string [.plain 97]⟩, ⟨[], [49], [], .number [49]⟩]

theorem sample_number : Number [49] :=
  ⟨[], [49], [], [], rfl, Or.inl rfl,
    Or.inr ⟨⟨List.cons_ne_nil _ _, List.forall_mem_singleton.mpr rfl⟩, by decide⟩, Or.inl rfl, Or.inl rfl⟩

theorem dictDeserializeJson_accepts_sample :
    ∃ v, dictDeserializeJson strtodOne ([91, 34, 97, 34, 44, 49, 93] ++ [0]) 7 = .ok v := by
  have spaced : ∀ e ∈ sampleElements, Rfc e.before ∧ Rfc e.after := by
    intro e listed
    simp only [sampleElements, List.mem_cons, List.not_mem_nil, or_false] at listed
    rcases listed with rfl | rfl <;> exact ⟨nofun, nofun⟩
  have values : ∀ e ∈ sampleElements, Value Rfc e.token e.tree := by
    intro e listed
    simp only [sampleElements, List.mem_cons, List.not_mem_nil, or_false] at listed
    rcases listed with rfl | rfl
    · refine .string fun c listed => ?_
      rw [List.mem_singleton.mp listed]
      exact ⟨by decide, by decide, by decide⟩
    · exact .number sample_number
  have text : RfcText [91, 34, 97, 34, 44, 49, 93] (.array (sampleElements.map Element.tree)) :=
    ⟨[], _, [], [], rfl, nofun, .array (by decide) spaced values, nofun, rfl⟩
  have within : Within (.array (sampleElements.map Element.tree)) := by
    refine .array fun e listed => ?_
    simp only [sampleElements, List.map_cons, List.map_nil, List.mem_cons, List.not_mem_nil,
      or_false] at listed
    rcases listed with rfl | rfl
    · refine .string ⟨by decide, ?_⟩
      simp [NoNul]
    · exact .number (by decide)
  apply (dictDeserializeJson_accepts_iff strtodOne readsNumbers_one _ _ [0] text within).mpr
  refine .array fun e listed => ?_
  simp only [sampleElements, List.map_cons, List.map_nil, List.mem_cons, List.not_mem_nil,
    or_false] at listed
  rcases listed with rfl | rfl
  · exact .string (by decide)
  · exact .number trivial

/-- The empty string is refused, and no error text is set. -/
theorem dictDeserializeJson_refuses : ¬∀ strtod, ReadsNumbers strtod → ∀ t tree more,
    RfcText t tree → Within tree →
      ∃ v, dictDeserializeJson strtod (t ++ more) t.length = .ok v := by
  intro accepts
  have text : RfcText [34, 34] (.string []) :=
    ⟨[], [34, 34], [], [], rfl, nofun,
      .string (show ∀ c ∈ ([] : List StrChar), c.Valid from nofun), nofun, rfl⟩
  obtain ⟨v, read⟩ := accepts strtodOne readsNumbers_one [34, 34] (.string []) [] text
    (.string ⟨by decide, List.not_mem_nil⟩)
  have refused : dictDeserializeJson strtodOne ([34, 34] ++ []) 2 = .error none := by rfl
  change dictDeserializeJson strtodOne ([34, 34] ++ []) 2 = .ok v at read
  rw [refused] at read
  cases read

end JsonAcceptance
