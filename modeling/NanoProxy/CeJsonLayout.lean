import NanoProxy.CeJsonWriting

/-!
# Trees in the node array

A tree is laid out in preorder. Where the layout of a tree lies in the array, the serializer
writes the text of the tree, and the next sibling is the node behind it.
-/

namespace CeJson

open CLib JsonGrammar JsonWriter JsonRoundTrip
open StringBuffer (StringBuf)

/-- A document to be built. -/
inductive Doc where
  | null
  | bool (b : Bool)
  | int (n : Int64)
  | string (s : Bytes)
  | array (elements : List Doc)
  | object (members : List (Bytes × Doc))

mutual

/-- The number of its nodes. -/
def Doc.size : Doc → Nat
  | .null | .bool _ | .int _ | .string _ => 1
  | .array ds => elementsSize ds + 1
  | .object ms => membersSize ms + 1

def elementsSize : List Doc → Nat
  | [] => 0
  | d :: ds => d.size + elementsSize ds

def membersSize : List (Bytes × Doc) → Nat
  | [] => 0
  | (_, d) :: ms => 1 + d.size + membersSize ms

end

def stringNode (s : Bytes) : JsonNode :=
  { type := .string, len := (cstring s).length % 2 ^ 32, strval := some (cstring s) }

def arrayNode (ds : List Doc) : JsonNode :=
  { type := .array, children := ds.length % 2 ^ 32, hash := elementsSize ds % 2 ^ 28 }

def objectNode (ms : List (Bytes × Doc)) : JsonNode :=
  { type := .object, children := ms.length % 2 ^ 32, hash := membersSize ms % 2 ^ 28 }

mutual

def layout : Doc → List JsonNode
  | .null => [{ type := .null }]
  | .bool b => [{ type := if b then .true else .false }]
  | .int n => [{ type := .numberInt, len := (formatInt n).length, strval := some (formatInt n) }]
  | .string s => [stringNode s]
  | .array ds => arrayNode ds :: elementsLayout ds
  | .object ms => objectNode ms :: membersLayout ms

def elementsLayout : List Doc → List JsonNode
  | [] => []
  | d :: ds => layout d ++ elementsLayout ds

def membersLayout : List (Bytes × Doc) → List JsonNode
  | [] => []
  | (k, d) :: ms => stringNode k :: (layout d ++ membersLayout ms)

end

mutual

theorem layout_length : ∀ d : Doc, (layout d).length = d.size
  | .null => rfl
  | .bool _ => rfl
  | .int _ => rfl
  | .string _ => rfl
  | .array ds => by rw [layout, List.length_cons, elementsLayout_length ds, Doc.size]
  | .object ms => by rw [layout, List.length_cons, membersLayout_length ms, Doc.size]

theorem elementsLayout_length : ∀ ds : List Doc, (elementsLayout ds).length = elementsSize ds
  | [] => rfl
  | d :: ds => by
    rw [elementsLayout, List.length_append, layout_length d, elementsLayout_length ds, elementsSize]

theorem membersLayout_length : ∀ ms : List (Bytes × Doc), (membersLayout ms).length = membersSize ms
  | [] => rfl
  | (k, d) :: ms => by
    rw [membersLayout, List.length_cons, List.length_append, layout_length d,
      membersLayout_length ms, membersSize]
    omega

end

theorem size_pos (d : Doc) : 0 < d.size := by
  cases d with
  | null => exact Nat.one_pos
  | bool b => exact Nat.one_pos
  | int n => exact Nat.one_pos
  | string s => exact Nat.one_pos
  | array ds => exact Nat.succ_pos _
  | object ms => exact Nat.succ_pos _

theorem length_le_elementsSize (ds : List Doc) : ds.length ≤ elementsSize ds := by
  induction ds with
  | nil => exact Nat.le_refl 0
  | cons d ds ih =>
    have here := size_pos d
    rw [List.length_cons, elementsSize]
    omega

theorem length_le_membersSize (ms : List (Bytes × Doc)) : ms.length ≤ membersSize ms := by
  induction ms with
  | nil => exact Nat.le_refl 0
  | cons m ms ih =>
    rw [List.length_cons, membersSize]
    omega

variable (pretty : Bool)

/-- A bracket or a comma, with the end of its line. -/
def mark (c : UInt8) : Bytes := if pretty then [c, LF] else [c]

/-- What stands in front of an element. -/
def lead (indent : Nat) : List Bytes := if pretty then indentPieces indent else []

/-- The closing bracket, with the line that it ends. -/
def closing (c : UInt8) (indent : Nat) : List Bytes :=
  (if pretty then [LF] :: indentPieces indent else []) ++ [[c]]

def colon : Bytes := if pretty then [58, SP] else [58]

mutual

/-- What is appended for a document, piece by piece. -/
def pieces (indent : Nat) : Doc → List Bytes
  | .null => [nullText]
  | .bool b => [boolText b]
  | .int n => [formatInt n]
  | .string s => stringPieces (cstring s)
  | .array [] => [[91, 93]]
  | .array (d :: ds) =>
    mark pretty 91 :: (elementsPieces indent (d :: ds) ++ closing pretty 93 indent)
  | .object [] => [[123, 125]]
  | .object (m :: ms) =>
    mark pretty 123 :: (membersPieces indent (m :: ms) ++ closing pretty 125 indent)

def elementsPieces (indent : Nat) : List Doc → List Bytes
  | [] => []
  | [d] => lead pretty (indent + 2) ++ pieces (indent + 2) d
  | d :: ds => lead pretty (indent + 2) ++ (pieces (indent + 2) d ++
      mark pretty 44 :: elementsPieces indent ds)

def membersPieces (indent : Nat) : List (Bytes × Doc) → List Bytes
  | [] => []
  | [(k, d)] => lead pretty (indent + 2) ++ (stringPieces (cstring k) ++
      colon pretty :: pieces (indent + 2) d)
  | (k, d) :: ms => lead pretty (indent + 2) ++ (stringPieces (cstring k) ++
      colon pretty :: (pieces (indent + 2) d ++ mark pretty 44 :: membersPieces indent ms))

end

theorem elementsPieces_cons (indent : Nat) (d e : Doc) (ds : List Doc) :
    elementsPieces pretty indent (d :: e :: ds) = lead pretty (indent + 2) ++
      (pieces pretty (indent + 2) d ++ mark pretty 44 :: elementsPieces pretty indent (e :: ds)) := by
  rw [elementsPieces]
  exact List.cons_ne_nil _ _

theorem membersPieces_cons (indent : Nat) (k : Bytes) (d : Doc) (m : Bytes × Doc)
    (ms : List (Bytes × Doc)) :
    membersPieces pretty indent ((k, d) :: m :: ms) = lead pretty (indent + 2) ++
      (stringPieces (cstring k) ++ colon pretty :: (pieces pretty (indent + 2) d ++
        mark pretty 44 :: membersPieces pretty indent (m :: ms))) := by
  rw [membersPieces]
  exact List.cons_ne_nil _ _

/-- The text of a document. -/
def text (d : Doc) : Bytes := (pieces pretty 0 d).flatten

mutual

/-- Its strings have lengths of 32 bits. -/
def Doc.Short : Doc → Prop
  | .null | .bool _ | .int _ => True
  | .string s => (cstring s).length < 2 ^ 32
  | .array ds => elementsShort ds
  | .object ms => membersShort ms

def elementsShort : List Doc → Prop
  | [] => True
  | d :: ds => d.Short ∧ elementsShort ds

def membersShort : List (Bytes × Doc) → Prop
  | [] => True
  | (k, d) :: ms => (cstring k).length < 2 ^ 32 ∧ d.Short ∧ membersShort ms

end

variable {pretty} {p : JsonParser} {sb : StringBuf}

theorem node_at {pre post : List JsonNode} {node : JsonNode} (placed : p.nodes = pre ++ node :: post) :
    p.nodes[pre.length]? = some node := by
  rw [placed, List.getElem?_append_right (Nat.le_refl _), Nat.sub_self]
  rfl

theorem layout_cons (d : Doc) : ∃ node rest, layout d = node :: rest ∧
    ((if node.isContainer then 1 + node.hash else 1) = d.size ∨ 2 ^ 28 ≤ d.size) := by
  cases d with
  | null => exact ⟨_, _, rfl, Or.inl rfl⟩
  | bool b => cases b <;> exact ⟨_, _, rfl, Or.inl rfl⟩
  | int n => exact ⟨_, _, rfl, Or.inl rfl⟩
  | string s => exact ⟨_, _, rfl, Or.inl rfl⟩
  | array ds =>
    refine ⟨_, _, rfl, ?_⟩
    change 1 + elementsSize ds % 2 ^ 28 = elementsSize ds + 1 ∨ 2 ^ 28 ≤ elementsSize ds + 1
    omega
  | object ms =>
    refine ⟨_, _, rfl, ?_⟩
    change 1 + membersSize ms % 2 ^ 28 = membersSize ms + 1 ∨ 2 ^ 28 ≤ membersSize ms + 1
    omega

/-- Behind a tree is its next sibling, or the end of the array. -/
theorem nextSibling_layout {pre post : List JsonNode} {d : Doc}
    (placed : p.nodes = pre ++ (layout d ++ post)) (small : d.size < 2 ^ 28) :
    jsonNextSibling p (some pre.length) =
      some (if p.nodesLen ≤ pre.length + d.size then none else some (pre.length + d.size)) := by
  obtain ⟨node, rest, first, span⟩ := layout_cons d
  rw [first, List.cons_append] at placed
  have exact_span := span.resolve_right (Nat.not_le.mpr small)
  have next : (if node.isContainer then pre.length + 1 + node.hash else pre.length + 1) =
      pre.length + d.size := by
    rw [← exact_span]
    split <;> omega
  rw [jsonNextSibling, node_at placed, Option.map_some]
  dsimp only
  rw [next]

theorem stringNode_text {s : Bytes} (short : (cstring s).length < 2 ^ 32) (buffer : Bytes) :
    sourceText buffer (stringNode s) = some (cstring s) := by
  rw [sourceText, stringNode]
  dsimp only
  rw [Nat.mod_eq_of_lt short, List.take_length]

theorem lead_eq (indent : Nat) (h : Sound sb) :
    dumpIndent pretty indent sb = writeAll (lead pretty indent) sb := by
  cases pretty with
  | true => exact jsonDumpIndentBuf_eq indent h
  | false => rfl

theorem mark_eq (c : UInt8) (h : Sound sb) : dumpMark pretty c sb = put (mark pretty c) sb :=
  stringbufAppend_eq _ h

theorem closing_eq (c : UInt8) (indent : Nat) (h : Sound sb) :
    dumpClose pretty c indent sb = writeAll (closing pretty c indent) sb := by
  cases pretty with
  | true =>
    have line := put_sound [LF] h
    have spaces := writeAll_sound (indentPieces indent) line
    change stringbufAppendChar c (jsonDumpIndentBuf indent (stringbufAppendChar LF sb)) = _
    rw [stringbufAppendChar_eq LF h, jsonDumpIndentBuf_eq indent line, stringbufAppendChar_eq c spaces]
    change _ = writeAll ([LF] :: indentPieces indent ++ [[c]]) sb
    rw [List.cons_append, writeAll_cons, writeAll_append]
    rfl
  | false => exact stringbufAppendChar_eq c h

theorem colon_eq (h : Sound sb) :
    (if pretty then stringbufAppend [58, SP] sb else stringbufAppendChar 58 sb) =
      put (colon pretty) sb := by
  cases pretty with
  | true => exact (if_pos rfl).trans (stringbufAppend_eq [58, SP] h)
  | false => exact (if_neg Bool.false_ne_true).trans (stringbufAppendChar_eq 58 h)

/-- A nonempty container counts its children. -/
theorem count_small {n size : Nat} (counted : n ≤ size) (small : size < 2 ^ 28) :
    n % 2 ^ 32 = n := Nat.mod_eq_of_lt (by omega)

mutual

theorem dump_layout (buffer : Bytes) : ∀ (d : Doc) (fuel indent : Nat) (pre post : List JsonNode)
    (sb : StringBuf), Sound sb → p.nodes = pre ++ (layout d ++ post) → p.nodesLen = p.nodes.length →
    d.size < 2 ^ 28 → d.Short → d.size ≤ fuel →
    jsonDumpNodeBuf p buffer pretty fuel indent (some pre.length) sb =
      some (writeAll (pieces pretty indent d) sb)
  | d, 0, _, _, _, _, _, _, _, _, _, deep => absurd (size_pos d) (by omega)
  | .null, fuel + 1, indent, pre, post, sb, sound, placed, len, small, short, deep => by
    rw [jsonDumpNodeBuf, node_at placed, Option.bind_some, if_neg (Nat.not_lt_zero _)]
    exact congrArg some (stringbufAppend_eq _ sound)
  | .bool b, fuel + 1, indent, pre, post, sb, sound, placed, len, small, short, deep => by
    rw [jsonDumpNodeBuf, node_at placed, Option.bind_some, if_neg (Nat.not_lt_zero _)]
    cases b with
    | true => exact congrArg some (stringbufAppend_eq _ sound)
    | false => exact congrArg some (stringbufAppend_eq _ sound)
  | .int n, fuel + 1, indent, pre, post, sb, sound, placed, len, small, short, deep => by
    rw [jsonDumpNodeBuf, node_at placed, Option.bind_some, if_neg (Nat.not_lt_zero _)]
    change some (stringbufAppend ((formatInt n).take (formatInt n).length) sb) = _
    rw [List.take_length]
    exact congrArg some (stringbufAppend_eq _ sound)
  | .string s, fuel + 1, indent, pre, post, sb, sound, placed, len, small, short, deep => by
    rw [jsonDumpNodeBuf, node_at placed, Option.bind_some,
      if_neg (show ¬p.bufLen < (stringNode s).offset from Nat.not_lt_zero _)]
    change (sourceText buffer (stringNode s)).map (jsonDumpEscapeBuf · sb) = _
    rw [stringNode_text short, Option.map_some, jsonDumpEscapeBuf_eq _ sound, pieces]
  | .array [], fuel + 1, indent, pre, post, sb, sound, placed, len, small, short, deep => by
    rw [jsonDumpNodeBuf, node_at placed, Option.bind_some,
      if_neg (show ¬p.bufLen < (arrayNode []).offset from Nat.not_lt_zero _)]
    change some (stringbufAppend [91, 93] sb) = _
    rw [stringbufAppend_eq _ sound, pieces]
    rfl
  | .array (d :: ds), fuel + 1, indent, pre, post, sb, sound, placed, len, small, short, deep => by
    rw [layout, List.cons_append] at placed
    have counted := length_le_elementsSize (d :: ds)
    have children : (arrayNode (d :: ds)).children = (d :: ds).length :=
      count_small counted (by rw [Doc.size] at small; omega)
    have opened := put_sound (mark pretty 91) sound
    have inner : p.nodes = (pre ++ [arrayNode (d :: ds)]) ++ (elementsLayout (d :: ds) ++ post) := by
      rw [placed, List.append_assoc]
      rfl
    have elements := dumpElements_layout buffer (d :: ds) fuel indent
      (pre ++ [arrayNode (d :: ds)]) post (put (mark pretty 91) sb) opened inner len
      (by rw [Doc.size] at small; omega) short (by rw [Doc.size] at deep; omega) (List.cons_ne_nil _ _)
    have first : jsonFirstChild p pre.length = some (some (pre.length + 1)) := by
      rw [jsonFirstChild, node_at placed, Option.map_some, children]
      rfl
    rw [List.length_append, List.length_singleton] at elements
    rw [jsonDumpNodeBuf, node_at placed, Option.bind_some,
      if_neg (show ¬p.bufLen < (arrayNode (d :: ds)).offset from Nat.not_lt_zero _)]
    change (if (arrayNode (d :: ds)).children = 0 then _ else _) = _
    rw [children, if_neg (show ¬(d :: ds).length = 0 from Nat.succ_ne_zero _), first,
      Option.bind_some, mark_eq _ sound, elements,
      Option.map_some, closing_eq _ _ (writeAll_sound _ opened), pieces, writeAll_cons,
      writeAll_append]
  | .object [], fuel + 1, indent, pre, post, sb, sound, placed, len, small, short, deep => by
    rw [jsonDumpNodeBuf, node_at placed, Option.bind_some,
      if_neg (show ¬p.bufLen < (objectNode []).offset from Nat.not_lt_zero _)]
    change some (stringbufAppend [123, 125] sb) = _
    rw [stringbufAppend_eq _ sound, pieces]
    rfl
  | .object (m :: ms), fuel + 1, indent, pre, post, sb, sound, placed, len, small, short, deep => by
    rw [layout, List.cons_append] at placed
    have counted := length_le_membersSize (m :: ms)
    have children : (objectNode (m :: ms)).children = (m :: ms).length :=
      count_small counted (by rw [Doc.size] at small; omega)
    have opened := put_sound (mark pretty 123) sound
    have inner : p.nodes = (pre ++ [objectNode (m :: ms)]) ++ (membersLayout (m :: ms) ++ post) := by
      rw [placed, List.append_assoc]
      rfl
    have members := dumpPairs_layout buffer (m :: ms) fuel indent
      (pre ++ [objectNode (m :: ms)]) post (put (mark pretty 123) sb) opened inner len
      (by rw [Doc.size] at small; omega) short (by rw [Doc.size] at deep; omega) (List.cons_ne_nil _ _)
    have first : jsonFirstChild p pre.length = some (some (pre.length + 1)) := by
      rw [jsonFirstChild, node_at placed, Option.map_some, children]
      rfl
    rw [List.length_append, List.length_singleton] at members
    rw [jsonDumpNodeBuf, node_at placed, Option.bind_some,
      if_neg (show ¬p.bufLen < (objectNode (m :: ms)).offset from Nat.not_lt_zero _)]
    change (if (objectNode (m :: ms)).children = 0 then _ else _) = _
    rw [children, if_neg (show ¬(m :: ms).length = 0 from Nat.succ_ne_zero _), first,
      Option.bind_some, mark_eq _ sound, members,
      Option.map_some, closing_eq _ _ (writeAll_sound _ opened), pieces, writeAll_cons,
      writeAll_append]

theorem dumpElements_layout (buffer : Bytes) : ∀ (ds : List Doc) (fuel indent : Nat)
    (pre post : List JsonNode) (sb : StringBuf), Sound sb →
    p.nodes = pre ++ (elementsLayout ds ++ post) → p.nodesLen = p.nodes.length →
    elementsSize ds < 2 ^ 28 → elementsShort ds → elementsSize ds ≤ fuel → ds ≠ [] →
    dumpElements p pretty (jsonDumpNodeBuf p buffer pretty fuel (indent + 2)) indent ds.length
      (some pre.length) sb = some (writeAll (elementsPieces pretty indent ds) sb)
  | [], _, _, _, _, _, _, _, _, _, _, _, nonempty => absurd rfl nonempty
  | d :: ds, fuel, indent, pre, post, sb, sound, placed, len, small, short, deep, _ => by
    rw [elementsLayout, List.append_assoc] at placed
    rw [elementsSize] at small deep
    have led := writeAll_sound (lead pretty (indent + 2)) sound
    have here := dump_layout buffer d fuel (indent + 2) pre (elementsLayout ds ++ post) _ led placed
      len (by omega) short.1 (by omega)
    have written := writeAll_sound (pieces pretty (indent + 2) d) led
    rw [List.length_cons, dumpElements, lead_eq _ sound, here, Option.bind_some,
      nextSibling_layout placed (by omega), Option.bind_some]
    cases ds with
    | nil => rw [List.length_nil, dumpElements, elementsPieces, if_neg (Nat.lt_irrefl 0),
        writeAll_append]
    | cons e ds =>
      have more : pre.length + d.size < p.nodesLen := by
        have some_node := size_pos e
        rw [len, placed]
        simp only [List.length_append, layout_length, elementsLayout_length]
        rw [elementsSize]
        omega
      have behind : p.nodes = (pre ++ layout d) ++ (elementsLayout (e :: ds) ++ post) := by
        rw [placed, List.append_assoc]
      have rest := dumpElements_layout buffer (e :: ds) fuel indent (pre ++ layout d) post _
        (put_sound (mark pretty 44) written) behind len (by omega) short.2 (by omega)
        (List.cons_ne_nil _ _)
      rw [List.length_append, layout_length] at rest
      rw [if_neg (Nat.not_le.mpr more), if_pos (show 0 < (e :: ds).length from Nat.succ_pos _),
        mark_eq _ written, rest, elementsPieces_cons, writeAll_append, writeAll_append,
        writeAll_cons]

theorem dumpPairs_layout (buffer : Bytes) : ∀ (ms : List (Bytes × Doc)) (fuel indent : Nat)
    (pre post : List JsonNode) (sb : StringBuf), Sound sb →
    p.nodes = pre ++ (membersLayout ms ++ post) → p.nodesLen = p.nodes.length →
    membersSize ms < 2 ^ 28 → membersShort ms → membersSize ms ≤ fuel → ms ≠ [] →
    dumpPairs p buffer pretty (jsonDumpNodeBuf p buffer pretty fuel (indent + 2)) indent ms.length
      (some pre.length) sb = some (writeAll (membersPieces pretty indent ms) sb)
  | [], _, _, _, _, _, _, _, _, _, _, _, nonempty => absurd rfl nonempty
  | (k, d) :: ms, fuel, indent, pre, post, sb, sound, placed, len, small, short, deep, _ => by
    rw [membersLayout, List.cons_append, List.append_assoc] at placed
    rw [membersSize] at small deep
    have inner : p.nodes = (pre ++ [stringNode k]) ++ (layout d ++ (membersLayout ms ++ post)) := by
      rw [placed, List.append_assoc]
      rfl
    have value_at : pre.length + 1 < p.nodesLen := by
      have some_node := size_pos d
      rw [len, placed]
      simp only [List.length_append, List.length_cons, layout_length]
      omega
    have key_next : jsonNextSibling p (some pre.length) = some (some (pre.length + 1)) := by
      have next := @nextSibling_layout p pre (layout d ++ (membersLayout ms ++ post)) (.string k)
        placed (show 1 < 2 ^ 28 by decide)
      rwa [Doc.size, if_neg (Nat.not_le.mpr value_at)] at next
    have led := writeAll_sound (lead pretty (indent + 2)) sound
    have keyed := writeAll_sound (stringPieces (cstring k)) led
    have coloned := put_sound (colon pretty) keyed
    have here := dump_layout buffer d fuel (indent + 2) (pre ++ [stringNode k])
      (membersLayout ms ++ post) _ coloned inner len (by omega) short.2.1 (by omega)
    have written := writeAll_sound (pieces pretty (indent + 2) d) coloned
    have next := nextSibling_layout inner (by omega)
    rw [List.length_append, List.length_singleton] at here next
    rw [List.length_cons, dumpPairs, key_next, Option.bind_some, Option.bind_some, node_at placed,
      Option.bind_some, stringNode_text short.1, Option.bind_some, lead_eq _ sound,
      jsonDumpEscapeBuf_eq _ led]
    dsimp only
    rw [colon_eq keyed, here, Option.bind_some, next, Option.bind_some]
    cases ms with
    | nil => rw [List.length_nil, dumpPairs, membersPieces, if_neg (Nat.lt_irrefl 0),
        writeAll_append, writeAll_append, writeAll_cons]
    | cons m ms =>
      have more : pre.length + 1 + d.size < p.nodesLen := by
        have some_node := length_le_membersSize (m :: ms)
        rw [List.length_cons] at some_node
        rw [len, placed]
        simp only [List.length_append, List.length_cons, layout_length, membersLayout_length]
        omega
      have behind : p.nodes =
          (pre ++ [stringNode k] ++ layout d) ++ (membersLayout (m :: ms) ++ post) := by
        rw [inner]
        simp only [List.append_assoc]
      have rest := dumpPairs_layout buffer (m :: ms) fuel indent (pre ++ [stringNode k] ++ layout d)
        post _ (put_sound (mark pretty 44) written) behind len (by omega) short.2.2 (by omega)
        (List.cons_ne_nil _ _)
      rw [List.length_append, List.length_append, List.length_singleton, layout_length] at rest
      rw [if_neg (Nat.not_le.mpr more), if_pos (show 0 < (m :: ms).length from Nat.succ_pos _),
        mark_eq _ written, rest, membersPieces_cons, writeAll_append, writeAll_append,
        writeAll_cons, writeAll_append, writeAll_cons]

end

end CeJson
