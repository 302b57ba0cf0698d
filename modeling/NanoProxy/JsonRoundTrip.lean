import NanoProxy.JsonReading
import NanoProxy.JsonWriter

/-!
# What the JSON writer writes is read back

`Writes` says what a part of the writer does for every room that is left. The writer writes
a text of the RFC, and the value of its syntax tree is the tree that was written.
-/

namespace JsonRoundTrip

open CLib Dict JsonGrammar JsonParser JsonReading JsonWriter

variable {f g : Writer → Option Writer} {s t : Bytes}

/-- `f` writes `s`, and fails if there is no room for `s` and a NUL. -/
def Writes (f : Writer → Option Writer) (s : Bytes) : Prop :=
  ∀ out remaining, 0 < remaining → f ⟨out, remaining⟩ =
    if s.length < remaining then some ⟨out ++ s, remaining - s.length⟩ else none

theorem Writes.none : Writes some [] := by
  intro out remaining room
  rw [List.length_nil, if_pos room, List.append_nil, Nat.sub_zero]

theorem Writes.bind (first : Writes f s) (second : Writes g t) :
    Writes (fun w => (f w).bind g) (s ++ t) := by
  intro out remaining room
  dsimp only
  rw [first out remaining room, List.length_append]
  by_cases fits : s.length < remaining
  · rw [if_pos fits, Option.bind_some, second _ _ (Nat.sub_pos_of_lt fits)]
    by_cases both : t.length < remaining - s.length
    · rw [if_pos both, if_pos (Nat.add_lt_of_lt_sub' both), List.append_assoc, Nat.sub_sub]
    · rw [if_neg both, if_neg]
      omega
  · rw [if_neg fits, if_neg]
    · rfl
    · omega

theorem Writes.congr (writes : Writes f s) (same : ∀ w, g w = f w) : Writes g s := by
  rw [funext same]
  exact writes

theorem writes_char (c : UInt8) : Writes (dictAppendChar c) [c] := by
  intro out remaining room
  rw [dictAppendChar, List.length_singleton]
  by_cases fits : 1 < remaining
  · rw [if_neg (Nat.not_le.mpr fits), if_pos fits]
  · rw [if_pos (Nat.not_lt.mp fits), if_neg fits]

theorem writes_buffer (src : Bytes) : Writes (dictAppendToBuffer src) src := by
  induction src with
  | nil => exact .none
  | cons c src ih =>
    refine ((writes_char c).bind ih).congr fun w => ?_
    rw [dictAppendToBuffer, dictAppendChar]
    split
    · rfl
    · rfl

/-- A byte as the writer writes it. -/
def escaped (c : UInt8) : StrChar :=
  if c = 34 ∨ c = 92 then .escape c
  else if c = 8 then .escape 98
  else if c = 12 then .escape 102
  else if c = 10 then .escape 110
  else if c = 13 then .escape 114
  else if c = 9 then .escape 116
  else if c < 0x20 then .unicode 48 48 (hexDigit (c.toNat / 16)) (hexDigit (c.toNat % 16))
  else .plain c

theorem writes_escaped (c : UInt8) : Writes (appendEscaped c) (escaped c).text := by
  unfold escaped appendEscaped
  split
  · exact (writes_char 92).bind (writes_char c)
  split
  · exact writes_buffer _
  split
  · exact writes_buffer _
  split
  · exact writes_buffer _
  split
  · exact writes_buffer _
  split
  · exact writes_buffer _
  split
  · exact writes_buffer _
  · exact writes_char c

instance (c : StrChar) : Decidable c.Valid := by
  cases c <;> unfold StrChar.Valid <;> infer_instance

theorem escaped_valid (c : UInt8) : (escaped c).Valid :=
  of_decide_eq_true (forall_byte (p := fun c => decide (escaped c).Valid) (by decide +kernel) c)

theorem decode_escaped (c : UInt8) : decodeChar (escaped c) = c :=
  eq_of_beq (forall_byte (p := fun c => decodeChar (escaped c) == c) (by decide +kernel) c)

theorem writes_string (str : Bytes) :
    Writes (dictAppendEscapedString str) (stringText (str.map escaped)) := by
  have loop : Writes (appendEscapedLoop str) ((str.map escaped).flatMap StrChar.text) := by
    induction str with
    | nil => exact .none
    | cons c str ih => exact (writes_escaped c).bind ih
  exact ((writes_char 34).bind loop).bind (writes_char 34)

theorem decode_map (str : Bytes) : decode (str.map escaped) = str := by
  rw [decode, List.map_map]
  exact (List.map_congr_left fun c _ => decode_escaped c).trans str.map_id

theorem escaped_all (str : Bytes) : ∀ c ∈ str.map escaped, c.Valid := by
  intro c listed
  obtain ⟨b, _, rfl⟩ := List.mem_map.mp listed
  exact escaped_valid b

variable (strtod : Strtod) (formatDouble : UInt64 → Bytes) (pretty : Bool)

/-- What is written between the elements behind a comma. -/
def newline (level : Nat) : Bytes :=
  if pretty then LF :: (List.replicate level [SP, SP]).flatten else []

theorem writes_newline (level : Nat) :
    Writes (appendNewlineAndIndent pretty level) (newline pretty level) := by
  have indent : Writes (indentTimes level) (List.replicate level [SP, SP]).flatten := by
    induction level with
    | zero => exact .none
    | succ n ih => exact (writes_buffer [SP, SP]).bind ih
  cases pretty with
  | true => exact (writes_char LF).bind indent
  | false => exact .none

theorem newline_space (level : Nat) : Rfc (newline pretty level) := by
  intro b listed
  cases pretty with
  | false => cases listed
  | true =>
    rcases List.mem_cons.mp listed with rfl | listed
    · exact Or.inr (Or.inr (Or.inl rfl))
    · obtain ⟨two, repeated, inside⟩ := List.mem_flatten.mp listed
      rw [List.eq_of_mem_replicate repeated] at inside
      simp only [SP, List.mem_cons, List.not_mem_nil, or_false, or_self] at inside
      exact Or.inl inside

/-- A value is written as a text of the grammar that has its value. -/
def Written (level : Nat) (v : DictValue) : Prop :=
  ∃ text tree, Value Rfc text tree ∧ eval strtod tree = some v ∧
    Writes (dictSerializeValuePretty formatDouble pretty level v) text

variable {strtod : Strtod} {formatDouble : UInt64 → Bytes} {pretty : Bool}

theorem writes_separator (pretty : Bool) (level i : Nat) :
    Writes (fun w => if 0 < i then
      (dictAppendChar 44 w).bind (appendNewlineAndIndent pretty level) else some w)
      (if 0 < i then 44 :: newline pretty level else []) := by
  split
  · exact (writes_char 44).bind (writes_newline pretty level)
  · exact .none

theorem separator_append (i : Nat) (space body : Bytes) :
    (if 0 < i then 44 :: space else []) ++ body =
      if 0 < i then 44 :: (space ++ body) else body := by
  split
  · rfl
  · rfl

theorem serializeItems_nil (level i : Nat) :
    serializeItems formatDouble pretty level i [] = some := by
  funext w
  rw [serializeItems]

theorem serializePairs_nil (level i : Nat) :
    serializePairs formatDouble pretty level i [] = some := by
  funext w
  rw [serializePairs]

/-- The items from `i` on and the end of the line behind them. -/
theorem items_written {items : List DictValue} {level : Nat} (nonempty : items ≠ [])
    (each : ∀ v ∈ items, Written strtod formatDouble pretty (level + 1) v) (i : Nat) :
    ∃ (elements : List Element) (body : Bytes), elements ≠ [] ∧
      (∀ e ∈ elements, Rfc e.before ∧ Rfc e.after) ∧
      (∀ e ∈ elements, Value Rfc e.token e.tree) ∧
      evalElements strtod (elements.map Element.tree) = some items ∧
      commas (elements.map Element.text) = newline pretty level ++ body ∧
      Writes (fun w => (serializeItems formatDouble pretty level i items w).bind
          (appendNewlineAndIndent pretty level))
        (if 0 < i then 44 :: (newline pretty level ++ body) else body) := by
  induction items generalizing i with
  | nil => exact absurd rfl nonempty
  | cons v items ih =>
    obtain ⟨⟨text, tree, value, evaluated, writes⟩, each⟩ := List.forall_mem_cons.mp each
    have space := newline_space pretty level
    have one := (writes_separator pretty level i).bind writes
    cases items with
    | nil =>
      refine ⟨[⟨newline pretty level, text, newline pretty level, tree⟩],
        text ++ newline pretty level, List.cons_ne_nil _ _, ?_, ?_, ?_, ?_, ?_⟩
      · exact List.forall_mem_singleton.mpr ⟨space, space⟩
      · exact List.forall_mem_singleton.mpr value
      · rw [List.map_singleton, evalElements, evaluated]
        rfl
      · exact commas_singleton _
      · have whole := one.bind (writes_newline pretty level)
        rw [List.append_assoc, separator_append] at whole
        refine whole.congr fun w => ?_
        rw [serializeItems, serializeItems_nil, Option.bind_fun_some]
    | cons next items =>
      obtain ⟨elements, body, some_element, spaces, values, evaluated', texts, writes'⟩ :=
        ih (List.cons_ne_nil _ _) each (i + 1)
      obtain ⟨e, elements, rfl⟩ := List.exists_cons_of_ne_nil some_element
      refine ⟨⟨newline pretty level, text, [], tree⟩ :: e :: elements,
        text ++ 44 :: (newline pretty level ++ body), List.cons_ne_nil _ _, ?_, ?_, ?_, ?_, ?_⟩
      · exact List.forall_mem_cons.mpr ⟨⟨space, List.forall_mem_nil _⟩, spaces⟩
      · exact List.forall_mem_cons.mpr ⟨value, values⟩
      · rw [List.map_cons, evalElements, evaluated, evaluated']
        rfl
      · rw [List.map_cons, List.map_cons, commas_cons, ← List.map_cons, texts]
        simp [Element.text]
      · rw [if_pos (Nat.succ_pos i)] at writes'
        have whole := one.bind writes'
        rw [List.append_assoc, separator_append] at whole
        refine whole.congr fun w => ?_
        rw [serializeItems, Option.bind_assoc _ (serializeItems _ _ _ _ _)]

/-- Between the colon and the value. -/
def gap (pretty : Bool) : Bytes := if pretty then [SP] else []

theorem writes_gap (pretty : Bool) :
    Writes (fun w => if pretty then dictAppendChar SP w else some w) (gap pretty) := by
  cases pretty with
  | true => exact writes_char SP
  | false => exact .none

theorem gap_space (pretty : Bool) : Rfc (gap pretty) := by
  cases pretty with
  | true => exact List.forall_mem_singleton.mpr (Or.inl rfl)
  | false => exact nofun

/-- A pair without the line that it begins on. -/
def pairText (pretty : Bool) (key : Key) (text : Bytes) : Bytes :=
  stringText (key.bytes.map escaped) ++ 58 :: (gap pretty ++ text)

theorem writes_pair {v : DictValue} {text : Bytes} {level : Nat}
    (writes : Writes (dictSerializeValuePretty formatDouble pretty (level + 1) v) text)
    (key : Key) (i : Nat) :
    Writes (fun w => ((((if 0 < i then
          (dictAppendChar 44 w).bind (appendNewlineAndIndent pretty level) else some w).bind
        (dictAppendEscapedString key.bytes)).bind (dictAppendChar 58)).bind fun w =>
        if pretty then dictAppendChar SP w else some w).bind
        (dictSerializeValuePretty formatDouble pretty (level + 1) v))
      ((if 0 < i then 44 :: newline pretty level else []) ++ pairText pretty key text) := by
  have whole := ((((writes_separator pretty level i).bind
    (writes_string key.bytes)).bind (writes_char 58)).bind (writes_gap pretty)).bind writes
  rw [pairText]
  simp only [List.append_assoc] at whole
  exact whole

/-- The pairs from `i` on and the end of the line behind them. -/
theorem pairs_written {pairs : Pairs} {level : Nat} (done : Pairs) (nonempty : pairs ≠ [])
    (keys : ((done ++ pairs).map Prod.fst).Nodup)
    (each : ∀ p ∈ pairs, Written strtod formatDouble pretty (level + 1) p.2) (i : Nat) :
    ∃ (members : List Member) (body : Bytes), members ≠ [] ∧
      (∀ m ∈ members, Rfc m.before ∧ Rfc m.beforeColon ∧ Rfc m.value.before ∧ Rfc m.value.after) ∧
      (∀ m ∈ members, ∀ c ∈ m.key, c.Valid) ∧
      (∀ m ∈ members, Value Rfc m.value.token m.value.tree) ∧
      evalMembers strtod (members.map Member.tree) (.object done) =
        some (.object (done ++ pairs)) ∧
      commas (members.map Member.text) = newline pretty level ++ body ∧
      Writes (fun w => (serializePairs formatDouble pretty level i pairs w).bind
          (appendNewlineAndIndent pretty level))
        (if 0 < i then 44 :: (newline pretty level ++ body) else body) := by
  induction pairs generalizing i done with
  | nil => exact absurd rfl nonempty
  | cons p pairs ih =>
    obtain ⟨key, v⟩ := p
    obtain ⟨⟨text, tree, value, evaluated, writes⟩, each⟩ := List.forall_mem_cons.mp each
    have space := newline_space pretty level
    have one := writes_pair writes key i
    have valid := escaped_all key.bytes
    have fresh : key ∉ done.map Prod.fst := by
      rw [List.map_append, List.map_cons, List.nodup_append] at keys
      exact fun known => keys.2.2 key known key List.mem_cons_self rfl
    have next : done ++ (key, v) :: pairs = done ++ [(key, v)] ++ pairs := by
      rw [List.append_assoc]
      rfl
    cases pairs with
    | nil =>
      refine ⟨[⟨newline pretty level, key.bytes.map escaped, [],
          ⟨gap pretty, text, newline pretty level, tree⟩⟩],
        pairText pretty key text ++ newline pretty level, List.cons_ne_nil _ _, ?_, ?_, ?_, ?_, ?_,
        ?_⟩
      · exact List.forall_mem_singleton.mpr ⟨space, List.forall_mem_nil _, gap_space pretty, space⟩
      · exact List.forall_mem_singleton.mpr valid
      · exact List.forall_mem_singleton.mpr value
      · rw [List.map_singleton, Member.tree, evalMembers, evaluated, Option.bind_some, decode_map,
          dictObjectSet_new fresh]
        rfl
      · rw [List.map_singleton, commas_singleton, Member.text, Element.text, pairText]
        simp only [List.append_assoc, List.cons_append, List.nil_append]
      · have whole := one.bind (writes_newline pretty level)
        rw [List.append_assoc, separator_append] at whole
        refine whole.congr fun w => ?_
        rw [serializePairs, serializePairs_nil, Option.bind_fun_some]
    | cons q pairs =>
      rw [next] at keys
      obtain ⟨members, body, some_member, spaces, valids, values, evaluated', texts, writes'⟩ :=
        ih _ (List.cons_ne_nil _ _) keys each (i + 1)
      obtain ⟨m, members, rfl⟩ := List.exists_cons_of_ne_nil some_member
      refine ⟨⟨newline pretty level, key.bytes.map escaped, [],
          ⟨gap pretty, text, [], tree⟩⟩ :: m :: members,
        pairText pretty key text ++ 44 :: (newline pretty level ++ body), List.cons_ne_nil _ _,
        ?_, ?_, ?_, ?_, ?_, ?_⟩
      · exact List.forall_mem_cons.mpr
          ⟨⟨space, List.forall_mem_nil _, gap_space pretty, List.forall_mem_nil _⟩, spaces⟩
      · exact List.forall_mem_cons.mpr ⟨valid, valids⟩
      · exact List.forall_mem_cons.mpr ⟨value, values⟩
      · rw [List.map_cons, Member.tree, evalMembers, evaluated, Option.bind_some, decode_map,
          dictObjectSet_new fresh, Option.bind_some, evaluated', next]
      · rw [List.map_cons, List.map_cons, commas_cons, ← List.map_cons, texts, Member.text,
          Element.text, pairText]
        simp only [List.append_assoc, List.cons_append, List.nil_append]
      · rw [if_pos (Nat.succ_pos i)] at writes'
        have whole := one.bind writes'
        rw [List.append_assoc, separator_append] at whole
        refine whole.congr fun w => ?_
        rw [serializePairs, Option.bind_assoc _ (serializePairs _ _ _ _ _)]

/-- No number is in the tree. -/
inductive NoNumbers : DictValue → Prop
  | null : NoNumbers .null
  | bool (b : Bool) : NoNumbers (.bool b)
  | string (s : Str) : NoNumbers (.string s)
  | array {items : List DictValue} (each : ∀ v ∈ items, NoNumbers v) : NoNumbers (.array items)
  | object {pairs : Pairs} (each : ∀ p ∈ pairs, NoNumbers p.2) : NoNumbers (.object pairs)

/-- The line behind an opening and in front of a closing bracket. -/
theorem writes_line (pretty : Bool) (level n : Nat) :
    Writes (fun w => if n ≠ 0 then appendNewlineAndIndent pretty level w else some w)
      (if n ≠ 0 then newline pretty level else []) := by
  split
  · exact writes_newline pretty level
  · exact .none

theorem array_written {items : List DictValue} {level : Nat}
    (each : ∀ v ∈ items, Written strtod formatDouble pretty (level + 1) v) :
    Written strtod formatDouble pretty level (.array items) := by
  have line := writes_line pretty level items.length
  cases items with
  | nil =>
    refine ⟨[91, 93], .array [], .emptyArray (show Rfc [] from nofun), rfl, ?_⟩
    have whole := ((((writes_char 91).bind line).bind .none).bind line).bind (writes_char 93)
    refine whole.congr fun w => ?_
    rw [dictSerializeValuePretty, serializeItems_nil]
  | cons v items =>
    obtain ⟨elements, body, nonempty, spaces, values, evaluated, texts, writes⟩ :=
      items_written (List.cons_ne_nil v items) each 0
    refine ⟨_, .array (elements.map Element.tree), .array nonempty spaces values, ?_, ?_⟩
    · rw [eval, evaluated]
      rfl
    · have whole := (((writes_char 91).bind line).bind writes).bind (writes_char 93)
      rw [if_pos (show (v :: items).length ≠ 0 from Nat.succ_ne_zero _), if_neg (Nat.lt_irrefl 0),
        List.append_assoc [91], ← texts] at whole
      refine whole.congr fun w => ?_
      rw [dictSerializeValuePretty, Option.bind_assoc _ (serializeItems _ _ _ _ _)]
      rfl

theorem object_written {pairs : Pairs} {level : Nat} (keys : (pairs.map Prod.fst).Nodup)
    (each : ∀ p ∈ pairs, Written strtod formatDouble pretty (level + 1) p.2) :
    Written strtod formatDouble pretty level (.object pairs) := by
  have line := writes_line pretty level pairs.length
  cases pairs with
  | nil =>
    refine ⟨[123, 125], .object [], .emptyObject (show Rfc [] from nofun), rfl, ?_⟩
    have whole := ((((writes_char 123).bind line).bind .none).bind line).bind (writes_char 125)
    refine whole.congr fun w => ?_
    rw [dictSerializeValuePretty, serializePairs_nil]
  | cons p pairs =>
    obtain ⟨members, body, nonempty, spaces, valids, values, evaluated, texts, writes⟩ :=
      pairs_written [] (List.cons_ne_nil p pairs) keys each 0
    refine ⟨_, .object (members.map Member.tree), .object nonempty spaces valids values, ?_, ?_⟩
    · rw [eval, evaluated]
      rfl
    · have whole := (((writes_char 123).bind line).bind writes).bind (writes_char 125)
      rw [if_pos (show (p :: pairs).length ≠ 0 from Nat.succ_ne_zero _), if_neg (Nat.lt_irrefl 0),
        List.append_assoc [123], ← texts] at whole
      refine whole.congr fun w => ?_
      rw [dictSerializeValuePretty, Option.bind_assoc _ (serializePairs _ _ _ _ _)]
      rfl

theorem value_written (strtod : Strtod) (formatDouble : UInt64 → Bytes) (pretty : Bool)
    {v : DictValue} (proper : Proper v) (numbers : NoNumbers v) (level : Nat) :
    Written strtod formatDouble pretty level v := by
  induction numbers generalizing level with
  | null =>
    refine ⟨_, _, .null, rfl, ?_⟩
    refine (writes_buffer nullText).congr fun w => ?_
    rw [dictSerializeValuePretty]
  | bool b =>
    refine ⟨_, _, .bool b, rfl, ?_⟩
    refine (writes_buffer (boolText b)).congr fun w => ?_
    rw [dictSerializeValuePretty]
  | string s =>
    refine ⟨_, _, .string (escaped_all s.bytes), ?_, ?_⟩
    · rw [eval, decode_map, dictCreateString, cText_bytes]
      rfl
    · refine (writes_string s.bytes).congr fun w => ?_
      rw [dictSerializeValuePretty]
  | array _ ih =>
    cases proper with
    | array each => exact array_written fun v listed => ih v listed (each v listed) (level + 1)
  | object _ ih =>
    cases proper with
    | object keys each =>
      exact object_written keys fun p listed => ih p listed (each p listed) (level + 1)

/-- A tree without numbers is written whenever there is room for its text and a NUL, and what
is written is read back as the tree. -/
theorem dictSerializeJson_round_trip (strtod : Strtod) (formatDouble : UInt64 → Bytes)
    (pretty : Bool) (v : DictValue) (built : Buildable v) (numbers : NoNumbers v) :
    ∃ text, 0 ∉ text ∧
      (∀ bufLen, dictSerializeJson formatDouble pretty v bufLen =
        if text.length < bufLen then some text else none) ∧
      ∀ rest, dictDeserializeJson strtod (text ++ 0 :: rest) text.length = .ok v := by
  obtain ⟨text, tree, value, evaluated, writes⟩ :=
    value_written strtod formatDouble pretty (buildable_proper built) numbers 0
  refine ⟨text, value.nul_free fun space spaced nul => ?_, fun bufLen => ?_, fun rest => ?_⟩
  · rcases spaced 0 nul with h | h | h | h <;> exact absurd h (by decide)
  · rw [dictSerializeJson]
    split
    · rename_i empty
      rw [if_neg]
      omega
    · rename_i room
      rw [writes [] bufLen (Nat.pos_of_ne_zero room)]
      by_cases fits : text.length < bufLen
      · rw [if_pos fits]
        dsimp only
        rw [if_neg (Nat.sub_ne_zero_of_lt fits), if_pos fits, List.nil_append]
      · rw [if_neg fits, if_neg fits]
  · have derived : RfcText text tree :=
      ⟨[], text, [], [], by simp, nofun, value, nofun, rfl⟩
    have read : (dictDeserializeJson strtod (text ++ 0 :: rest) text.length).toOption =
        eval strtod tree := deserialize_text derived.commented (0 :: rest)
    rw [evaluated] at read
    cases same : dictDeserializeJson strtod (text ++ 0 :: rest) text.length with
    | error e =>
      rw [same] at read
      cases read
    | ok v' =>
      rw [same] at read
      cases read
      rfl

/-- The tree of `{"a":["\n",null]}` -/
def sampleTree : DictValue :=
  .object [(⟨[97], by decide, by decide, by decide⟩,
    .array [.string ⟨[10], by decide, by decide, by decide⟩, .null])]

theorem sampleTree_buildable : Buildable sampleTree := by
  have str : Buildable (.string ⟨[10], by decide, by decide, by decide⟩) :=
    .string (s := [10]) rfl
  exact .set .object (.append (.append .array str rfl) .null rfl)
    (show dictObjectSet (.object []) [97] _ = some sampleTree from rfl)

theorem sampleTree_noNumbers : NoNumbers sampleTree := by
  refine .object (List.forall_mem_singleton.mpr (.array ?_))
  exact List.forall_mem_cons.mpr ⟨.string _, List.forall_mem_singleton.mpr .null⟩

theorem dictSerializeJson_round_trip_sample :
    ∃ text, dictSerializeJson (fun _ => []) true sampleTree 64 = some text ∧
      dictDeserializeJson ⟨fun _ => 0, fun _ => 0⟩ (text ++ 0 :: []) text.length =
        .ok sampleTree := by
  obtain ⟨text, _, written, read⟩ := dictSerializeJson_round_trip ⟨fun _ => 0, fun _ => 0⟩
    (fun _ => []) true sampleTree sampleTree_buildable sampleTree_noNumbers
  have fits : (dictSerializeJson (fun _ => []) true sampleTree 64).isSome := by decide +kernel
  have room : text.length < 64 := by
    by_contra large
    rw [written 64, if_neg large] at fits
    cases fits
  exact ⟨text, (written 64).trans (if_pos room), read []⟩

end JsonRoundTrip
