import NanoProxy.CeJsonLayout
import NanoProxy.RequestGrammar

/-!
# The texts of documents

The text of a document is a JSON text of the RFC, compact or pretty, and its syntax tree is
that of the document: nothing that a string holds can change the structure.
-/

namespace CeJson

open CLib JsonGrammar JsonWriter JsonRoundTrip JsonReading

mutual

/-- The syntax tree that a document stands for. -/
def Doc.json : Doc → Json
  | .null => .null
  | .bool b => .bool b
  | .int n => .number (formatInt n)
  | .string s => .string ((cstring s).map escaped)
  | .array ds => .array (elementsJson ds)
  | .object ms => .object (membersJson ms)

def elementsJson : List Doc → List Json
  | [] => []
  | d :: ds => d.json :: elementsJson ds

def membersJson : List (Bytes × Doc) → List (List StrChar × Json)
  | [] => []
  | (k, d) :: ms => ((cstring k).map escaped, d.json) :: membersJson ms

end

theorem decimal_small {n : Nat} (small : n < 10) : decimal n = [UInt8.ofNat (48 + n)] := by
  rw [decimal, Nat.toDigits_of_lt_base small]
  have each : ∀ k : Fin 10, [(Nat.digitChar k)].map (fun c => UInt8.ofNat c.toNat) =
    [UInt8.ofNat (48 + k)] := by decide
  exact each ⟨n, small⟩

theorem decimal_head {n : Nat} (positive : 0 < n) : (decimal n).head? ≠ some 48 := by
  induction n using Nat.strong_induction_on with
  | _ n ih =>
    by_cases small : n < 10
    · rw [decimal_small small, List.head?_cons, ne_eq, Option.some.injEq]
      intro zero
      have same := congrArg UInt8.toNat zero
      rw [UInt8.toNat_ofNat', Nat.mod_eq_of_lt (by omega)] at same
      change 48 + n = 48 at same
      omega
    · have split : decimal n = decimal (n / 10) ++ [UInt8.ofNat (Nat.digitChar (n % 10)).toNat] := by
        rw [decimal, Nat.toDigits_of_base_le (by decide) (Nat.not_lt.mp small), List.map_append]
        rfl
      rw [split, List.head?_append_of_ne_nil _ (RequestGrammar.decimal_ne_nil _)]
      exact ih (n / 10) (by omega) (by omega)

theorem decimal_intPart (n : Nat) : IntPart (decimal n) := by
  rcases Nat.eq_zero_or_pos n with rfl | positive
  · exact Or.inl rfl
  · exact Or.inr ⟨⟨RequestGrammar.decimal_ne_nil n, fun b listed => RequestGrammar.decimal_digits listed⟩,
      decimal_head positive⟩

theorem formatInt_number (n : Int64) : Number (formatInt n) := by
  have whole := decimal_intPart n.toInt.natAbs
  rw [formatInt]
  split
  · exact ⟨[45], _, [], [], by simp, Or.inr rfl, whole, Or.inl rfl, Or.inl rfl⟩
  · exact ⟨[], _, [], [], by simp, Or.inl rfl, whole, Or.inl rfl, Or.inl rfl⟩

variable (pretty : Bool)

/-- The end of a line, in pretty mode. -/
def lineEnd : Bytes := if pretty then [LF] else []

theorem mark_cons (c : UInt8) : mark pretty c = c :: lineEnd pretty := by
  cases pretty <;> rfl

theorem rfc_append {s t : Text} (first : Rfc s) (second : Rfc t) : Rfc (s ++ t) :=
  List.forall_mem_append.mpr ⟨first, second⟩

theorem lineEnd_rfc : Rfc (lineEnd pretty) := by
  cases pretty with
  | true => exact List.forall_mem_singleton.mpr (Or.inr (Or.inr (Or.inl rfl)))
  | false => exact List.forall_mem_nil _

theorem spaces_rfc (n : Nat) : Rfc (List.replicate n SP) := by
  intro b listed
  exact Or.inl (List.eq_of_mem_replicate listed)

theorem lead_rfc (indent : Nat) : Rfc (lead pretty indent).flatten := by
  cases pretty with
  | true =>
    change Rfc (indentPieces indent).flatten
    rw [indentPieces_flatten]
    exact spaces_rfc indent
  | false => exact List.forall_mem_nil _

theorem closing_flatten (c : UInt8) (indent : Nat) :
    ∃ space, Rfc space ∧ (closing pretty c indent).flatten = space ++ [c] := by
  cases pretty with
  | true =>
    refine ⟨LF :: List.replicate indent SP, ?_, ?_⟩
    · exact List.forall_mem_cons.mpr ⟨Or.inr (Or.inr (Or.inl rfl)), spaces_rfc indent⟩
    · change (([LF] :: indentPieces indent) ++ [[c]]).flatten = _
      rw [List.flatten_append, List.flatten_cons, indentPieces_flatten]
      rfl
  | false => exact ⟨[], List.forall_mem_nil _, rfl⟩

theorem colon_gap : colon pretty = 58 :: gap pretty := by
  cases pretty <;> rfl

variable {pretty}

mutual

theorem pieces_value : ∀ (d : Doc) (indent : Nat), Value Rfc (pieces pretty indent d).flatten d.json
  | .null, _ => .null
  | .bool b, _ => by
    rw [pieces, List.flatten_singleton]
    exact .bool b
  | .int n, _ => by
    rw [pieces, List.flatten_singleton]
    exact .number (formatInt_number n)
  | .string s, _ => by
    rw [pieces, stringPieces_flatten]
    exact .string (escaped_all _)
  | .array [], _ => .emptyArray (show Rfc [] from List.forall_mem_nil _)
  | .array (d :: ds), indent => by
    obtain ⟨elements, nonempty, spaced, values, trees, texts⟩ :=
      elements_value (d :: ds) indent (List.cons_ne_nil _ _)
    obtain ⟨space, rfc, closed⟩ := closing_flatten pretty 93 indent
    have whole := Value.array_spaced rfc_append nonempty spaced values rfc
    rw [trees, texts, List.append_assoc, ← closed] at whole
    rw [pieces, List.flatten_cons, List.flatten_append, mark_cons]
    exact whole
  | .object [], _ => .emptyObject (show Rfc [] from List.forall_mem_nil _)
  | .object (m :: ms), indent => by
    obtain ⟨members, nonempty, spaced, keys, values, trees, texts⟩ :=
      members_value (m :: ms) indent (List.cons_ne_nil _ _)
    obtain ⟨space, rfc, closed⟩ := closing_flatten pretty 125 indent
    have whole := Value.object_spaced rfc_append nonempty spaced keys values rfc
    rw [trees, texts, List.append_assoc, ← closed] at whole
    rw [pieces, List.flatten_cons, List.flatten_append, mark_cons]
    exact whole

theorem elements_value : ∀ (ds : List Doc) (indent : Nat), ds ≠ [] →
    ∃ elements : List Element, elements ≠ [] ∧ (∀ e ∈ elements, Rfc e.before ∧ Rfc e.after) ∧
      (∀ e ∈ elements, Value Rfc e.token e.tree) ∧ elements.map Element.tree = elementsJson ds ∧
      commas (elements.map Element.text) =
        lineEnd pretty ++ (elementsPieces pretty indent ds).flatten
  | [], _, nonempty => absurd rfl nonempty
  | [d], indent, _ => by
    have here := pieces_value d (indent + 2)
    have before := rfc_append (lineEnd_rfc pretty) (lead_rfc pretty (indent + 2))
    refine ⟨[⟨_, _, [], d.json⟩], List.cons_ne_nil _ _,
      List.forall_mem_singleton.mpr ⟨before, List.forall_mem_nil _⟩,
      List.forall_mem_singleton.mpr here, rfl, ?_⟩
    rw [List.map_singleton, commas_singleton, Element.text, elementsPieces, List.flatten_append,
      List.append_nil, List.append_assoc]
  | d :: e :: ds, indent, _ => by
    have here := pieces_value d (indent + 2)
    have before := rfc_append (lineEnd_rfc pretty) (lead_rfc pretty (indent + 2))
    obtain ⟨elements, nonempty, spaced, values, trees, texts⟩ :=
      elements_value (e :: ds) indent (List.cons_ne_nil _ _)
    refine ⟨⟨_, _, [], d.json⟩ :: elements, List.cons_ne_nil _ _,
      List.forall_mem_cons.mpr ⟨⟨before, List.forall_mem_nil _⟩, spaced⟩,
      List.forall_mem_cons.mpr ⟨here, values⟩, ?_, ?_⟩
    · rw [List.map_cons, trees, elementsJson.eq_2 d]
    · obtain ⟨first, rest, rfl⟩ := List.exists_cons_of_ne_nil nonempty
      rw [List.map_cons, List.map_cons, commas_cons, ← List.map_cons, texts, Element.text,
        elementsPieces_cons]
      simp only [List.flatten_append, List.flatten_cons, mark_cons, List.append_assoc,
        List.cons_append, List.nil_append]

theorem members_value : ∀ (ms : List (Bytes × Doc)) (indent : Nat), ms ≠ [] →
    ∃ members : List Member, members ≠ [] ∧
      (∀ m ∈ members, Rfc m.before ∧ Rfc m.beforeColon ∧ Rfc m.value.before ∧ Rfc m.value.after) ∧
      (∀ m ∈ members, ∀ c ∈ m.key, c.Valid) ∧
      (∀ m ∈ members, Value Rfc m.value.token m.value.tree) ∧
      members.map Member.tree = membersJson ms ∧
      commas (members.map Member.text) =
        lineEnd pretty ++ (membersPieces pretty indent ms).flatten
  | [], _, nonempty => absurd rfl nonempty
  | [(k, d)], indent, _ => by
    have here := pieces_value d (indent + 2)
    have before := rfc_append (lineEnd_rfc pretty) (lead_rfc pretty (indent + 2))
    refine ⟨[⟨_, (cstring k).map escaped, [], ⟨gap pretty, _, [], d.json⟩⟩], List.cons_ne_nil _ _,
      List.forall_mem_singleton.mpr
        ⟨before, List.forall_mem_nil _, gap_space pretty, List.forall_mem_nil _⟩,
      List.forall_mem_singleton.mpr (escaped_all _), List.forall_mem_singleton.mpr here, rfl, ?_⟩
    rw [List.map_singleton, commas_singleton, Member.text, Element.text, membersPieces,
      colon_gap]
    simp only [List.flatten_append, List.flatten_cons, stringPieces_flatten, List.append_assoc,
      List.cons_append, List.nil_append, List.append_nil]
  | (k, d) :: m :: ms, indent, _ => by
    have here := pieces_value d (indent + 2)
    have before := rfc_append (lineEnd_rfc pretty) (lead_rfc pretty (indent + 2))
    obtain ⟨members, nonempty, spaced, keys, values, trees, texts⟩ :=
      members_value (m :: ms) indent (List.cons_ne_nil _ _)
    refine ⟨⟨_, (cstring k).map escaped, [], ⟨gap pretty, _, [], d.json⟩⟩ :: members,
      List.cons_ne_nil _ _,
      List.forall_mem_cons.mpr
        ⟨⟨before, List.forall_mem_nil _, gap_space pretty, List.forall_mem_nil _⟩, spaced⟩,
      List.forall_mem_cons.mpr ⟨escaped_all _, keys⟩, List.forall_mem_cons.mpr ⟨here, values⟩, ?_, ?_⟩
    · rw [List.map_cons, trees, membersJson.eq_2 k d, Member.tree]
    · obtain ⟨first, rest, rfl⟩ := List.exists_cons_of_ne_nil nonempty
      rw [List.map_cons, List.map_cons, commas_cons, ← List.map_cons, texts, Member.text,
        Element.text, membersPieces_cons, colon_gap]
      simp only [List.flatten_append, List.flatten_cons, stringPieces_flatten, mark_cons,
        List.append_assoc, List.cons_append, List.nil_append, List.append_nil]

end

theorem text_rfc (pretty : Bool) (d : Doc) : RfcText (text pretty d) d.json :=
  ⟨[], text pretty d, [], [], by simp, List.forall_mem_nil _, pieces_value d 0,
    List.forall_mem_nil _, rfl⟩

end CeJson
