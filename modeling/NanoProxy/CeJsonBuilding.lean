import NanoProxy.CeJsonDocuments

/-!
# Building documents

Built with the key in front of its value, a document that has room is laid out in preorder.
Every node is counted, also one that found no room: then `jb_destroy` looks behind the array.
-/

namespace CeJson

open CLib
open StringBuffer (StringBuf stringbufInit)

mutual

/-- A key is created in front of the first node of its value. -/
def build : Doc → Building (Option Nat)
  | .null => jbNull
  | .bool b => jbBool b
  | .int n => jbInt n
  | .string s => jbString (some s)
  | .array ds => do
    let arr ← jbArray
    buildElements arr ds
    return arr
  | .object ms => do
    let obj ← jbObject
    buildMembers obj ms
    return obj

def buildElements (arr : Option Nat) : List Doc → Building Unit
  | [] => return ()
  | d :: ds => do
    let value ← build d
    jbAppend arr value
    buildElements arr ds

def buildMembers (obj : Option Nat) : List (Bytes × Doc) → Building Unit
  | [] => return ()
  | (k, d) :: ms => do
    let key ← jbKey k
    let value ← build d
    jbAttach obj key value
    buildMembers obj ms

end

/-- What a handler does with a builder: the text of the response, if every access is valid. -/
def respond (maxNodes : Nat) (building : Building (Option Nat)) : Option Bytes :=
  (building (jbCreate maxNodes)).bind fun (root, p) =>
  (jbFinish root p).bind fun text =>
  (jbDestroy p).map fun _ => text

variable {p q : JsonParser} {α β : Type}

theorem bind_run {x : Building α} {f : α → Building β} {a : α} (first : x p = some (a, q)) :
    (x >>= f) p = f a q := by
  change (x p).bind (fun r => f r.1 r.2) = _
  rw [first]
  rfl

structure Fresh (p : JsonParser) : Prop where
  count : p.nodesLen = p.nodes.length
  unhashed : p.skipStringHash = true

def extend (p : JsonParser) (nodes : List JsonNode) : JsonParser :=
  { p with nodes := p.nodes ++ nodes, nodesLen := p.nodesLen + nodes.length }

theorem Fresh.extend (h : Fresh p) (nodes : List JsonNode) : Fresh (extend p nodes) where
  count := by
    rw [CeJson.extend, h.count, List.length_append]
  unhashed := h.unhashed

theorem pushNode_room (node : JsonNode) (room : p.nodesLen < p.nodesCap) :
    pushNode node p = (some p.nodesLen, extend p [node]) := by
  rw [pushNode, if_neg (Nat.not_le.mpr room)]
  rfl

theorem jbKey_room (h : Fresh p) (key : Bytes) (room : p.nodesLen < p.nodesCap) :
    jbKey key p = some (some p.nodesLen, extend p [stringNode key]) := by
  rw [jbKey, jsonCreateString, h.unhashed]
  exact congrArg some (pushNode_room _ room)

theorem grow_congr (node : JsonNode) {n m : Nat} (same : n % 2 ^ 28 = m % 2 ^ 28) :
    node.grow n = node.grow m := by
  rw [JsonNode.grow, JsonNode.grow, Nat.add_mod, same, ← Nat.add_mod]

/-- The span of the first node of a layout is the size of the tree. -/
theorem layout_span (d : Doc) : ∃ node rest, layout d = node :: rest ∧
    jsonNodeSpan node % 2 ^ 28 = d.size % 2 ^ 28 := by
  cases d with
  | null => exact ⟨_, _, rfl, rfl⟩
  | bool b => cases b <;> exact ⟨_, _, rfl, rfl⟩
  | int n => exact ⟨_, _, rfl, rfl⟩
  | string s => exact ⟨_, _, rfl, rfl⟩
  | array ds =>
    refine ⟨_, _, rfl, ?_⟩
    change (1 + elementsSize ds % 2 ^ 28) % 2 ^ 28 = (elementsSize ds + 1) % 2 ^ 28
    omega
  | object ms =>
    refine ⟨_, _, rfl, ?_⟩
    change (1 + membersSize ms % 2 ^ 28) % 2 ^ 28 = (membersSize ms + 1) % 2 ^ 28
    omega

/-- A container with some of its children. -/
def partOf (type : JsonType) (children span : Nat) : JsonNode :=
  { type := type, children := children % 2 ^ 32, hash := span % 2 ^ 28 }

theorem partOf_grow (type : JsonType) (children span n : Nat) :
    (partOf type children span).grow n = partOf type (children + 1) (span + n) := by
  simp [partOf, JsonNode.grow]

theorem appended {pre post rest : List JsonNode} {node child : JsonNode} {n : Nat}
    (placed : p.nodes = pre ++ node :: (post ++ child :: rest)) (array : node.type = .array)
    (span : jsonNodeSpan child % 2 ^ 28 = n % 2 ^ 28) {e : Nat}
    (here : e = pre.length + 1 + post.length) :
    jbAppend (some pre.length) (some e) p =
      some ((), { p with nodes := pre ++ node.grow n :: (post ++ child :: rest) }) := by
  have parent := node_at placed
  have element : p.nodes[e]? = some child := by
    rw [placed, here, List.getElem?_append_right (by omega),
      show pre.length + 1 + post.length - pre.length = post.length + 1 by omega,
      List.getElem?_cons_succ, List.getElem?_append_right (Nat.le_refl _), Nat.sub_self]
    rfl
  rw [jbAppend, jsonArrayAppend, parent, Option.bind_some, if_neg (not_not.mpr array),
    Option.bind_some, element, Option.map_some, Option.map_some, setNode, grow_congr node span,
    placed, List.set_append_right _ _ (Nat.le_refl _), Nat.sub_self]
  rfl

theorem attached {pre post rest : List JsonNode} {node child : JsonNode} {n : Nat} {key : Bytes}
    (placed : p.nodes = pre ++ node :: (post ++ stringNode key :: child :: rest))
    (object : node.type = .object) (span : jsonNodeSpan child % 2 ^ 28 = n % 2 ^ 28) {k : Nat}
    (here : k = pre.length + 1 + post.length) :
    jbAttach (some pre.length) (some k) (some (k + 1)) p =
      some ((), { p with
        nodes := pre ++ node.grow (1 + n) :: (post ++ stringNode key :: child :: rest) }) := by
  have parent := node_at placed
  have key_node : p.nodes[k]? = some (stringNode key) := by
    rw [placed, here, List.getElem?_append_right (by omega),
      show pre.length + 1 + post.length - pre.length = post.length + 1 by omega,
      List.getElem?_cons_succ, List.getElem?_append_right (Nat.le_refl _), Nat.sub_self]
    rfl
  have value : p.nodes[k + 1]? = some child := by
    rw [placed, here, List.getElem?_append_right (by omega),
      show pre.length + 1 + post.length + 1 - pre.length = post.length + 1 + 1 by omega,
      List.getElem?_cons_succ, List.getElem?_append_right (by omega),
      show post.length + 1 - post.length = 1 by omega]
    rfl
  have spans : (1 + jsonNodeSpan child) % 2 ^ 28 = (1 + n) % 2 ^ 28 := by omega
  rw [jbAttach, jsonObjectSet, parent, Option.bind_some, if_neg (not_not.mpr object)]
  dsimp only
  rw [key_node, Option.bind_some, if_neg (show ¬(stringNode key).type ≠ .string from fun h => h rfl),
    Option.bind_some, value, Option.map_some, Option.map_some, setNode,
    show jsonNodeSpan (stringNode key) = 1 from rfl, grow_congr node spans,
    placed, List.set_append_right _ _ (Nat.le_refl _), Nat.sub_self]
  rfl

mutual

/-- A document that has room is laid out. -/
theorem build_room : ∀ (d : Doc) {p : JsonParser}, Fresh p → p.nodesLen + d.size ≤ p.nodesCap →
    build d p = some (some p.nodesLen, extend p (layout d))
  | .null, p, _, room => congrArg some (pushNode_room _ room)
  | .bool b, p, _, room => congrArg some (pushNode_room _ room)
  | .int n, p, _, room => congrArg some (pushNode_room _ room)
  | .string s, p, h, room => jbKey_room h s room
  | .array ds, p, h, room => by
    rw [Doc.size] at room
    have pushed : jbArray p = some (some p.nodesLen, extend p [partOf .array 0 0]) :=
      congrArg some (pushNode_room _ (by omega))
    have loop := @buildElements_room ds _ p.nodes [] 0 0 (h.extend [partOf .array 0 0]) rfl
      (by change p.nodesLen + 1 + _ ≤ p.nodesCap; omega)
    rw [build, bind_run pushed, h.count, bind_run loop]
    change some (_, _) = some (_, _)
    simp [extend, layout, elementsLayout_length, arrayNode, partOf, h.count, Nat.add_comm,
      Nat.add_left_comm]
  | .object ms, p, h, room => by
    rw [Doc.size] at room
    have pushed : jbObject p = some (some p.nodesLen, extend p [partOf .object 0 0]) :=
      congrArg some (pushNode_room _ (by omega))
    have loop := @buildMembers_room ms _ p.nodes [] 0 0 (h.extend [partOf .object 0 0]) rfl
      (by change p.nodesLen + 1 + _ ≤ p.nodesCap; omega)
    rw [build, bind_run pushed, h.count, bind_run loop]
    change some (_, _) = some (_, _)
    simp [extend, layout, membersLayout_length, objectNode, partOf, h.count, Nat.add_comm,
      Nat.add_left_comm]

theorem buildElements_room : ∀ (ds : List Doc) {p : JsonParser} {pre post : List JsonNode}
    {done span : Nat}, Fresh p → p.nodes = pre ++ partOf .array done span :: post →
    p.nodesLen + elementsSize ds ≤ p.nodesCap →
    buildElements (some pre.length) ds p = some ((), { p with
      nodes := pre ++ partOf .array (done + ds.length) (span + elementsSize ds) ::
        (post ++ elementsLayout ds)
      nodesLen := p.nodesLen + elementsSize ds })
  | [], p, pre, post, done, span, _, placed, _ => by
    rw [elementsLayout, elementsSize, List.append_nil, List.length_nil, Nat.add_zero, Nat.add_zero,
      Nat.add_zero, ← placed]
    rfl
  | d :: ds, p, pre, post, done, span, h, placed, room => by
    rw [elementsSize] at room
    obtain ⟨child, rest, first, spans⟩ := layout_span d
    have built := build_room d h (by omega)
    have position : p.nodesLen = pre.length + 1 + post.length := by
      rw [h.count, placed, List.length_append, List.length_cons]
      omega
    have nodes : (extend p (layout d)).nodes =
        pre ++ partOf .array done span :: (post ++ child :: rest) := by
      rw [extend, placed, first, List.append_assoc, List.cons_append]
    have append := appended nodes rfl spans position
    have loop := @buildElements_room ds { extend p (layout d) with
        nodes := pre ++ partOf .array (done + 1) (span + d.size) :: (post ++ layout d) }
      pre (post ++ layout d) (done + 1) (span + d.size)
      ⟨by
        rw [extend, h.count, placed]
        simp only [List.length_append, List.length_cons]
        omega, h.unhashed⟩ rfl
      (by
        change p.nodesLen + (layout d).length + _ ≤ p.nodesCap
        rw [layout_length]
        omega)
    rw [buildElements, bind_run built, bind_run append, partOf_grow, ← first, loop, elementsLayout,
      elementsSize, List.length_cons, extend, layout_length]
    simp only [List.append_assoc, Nat.add_assoc, Nat.add_comm 1]

theorem buildMembers_room : ∀ (ms : List (Bytes × Doc)) {p : JsonParser} {pre post : List JsonNode}
    {done span : Nat}, Fresh p → p.nodes = pre ++ partOf .object done span :: post →
    p.nodesLen + membersSize ms ≤ p.nodesCap →
    buildMembers (some pre.length) ms p = some ((), { p with
      nodes := pre ++ partOf .object (done + ms.length) (span + membersSize ms) ::
        (post ++ membersLayout ms)
      nodesLen := p.nodesLen + membersSize ms })
  | [], p, pre, post, done, span, _, placed, _ => by
    rw [membersLayout, membersSize, List.append_nil, List.length_nil, Nat.add_zero, Nat.add_zero,
      Nat.add_zero, ← placed]
    rfl
  | (k, d) :: ms, p, pre, post, done, span, h, placed, room => by
    rw [membersSize] at room
    obtain ⟨child, rest, first, spans⟩ := layout_span d
    have keyed := jbKey_room h k (by omega)
    have fresh := h.extend [stringNode k]
    have built := build_room d fresh (by change p.nodesLen + 1 + _ ≤ p.nodesCap; omega)
    have position : p.nodesLen = pre.length + 1 + post.length := by
      rw [h.count, placed, List.length_append, List.length_cons]
      omega
    have nodes : (extend (extend p [stringNode k]) (layout d)).nodes =
        pre ++ partOf .object done span :: (post ++ stringNode k :: child :: rest) := by
      rw [extend, extend, placed, first]
      simp only [List.append_assoc, List.cons_append, List.nil_append]
    have attach := attached nodes rfl spans position
    have loop := @buildMembers_room ms { extend (extend p [stringNode k]) (layout d) with
        nodes := pre ++ partOf .object (done + 1) (span + (1 + d.size)) ::
          (post ++ stringNode k :: layout d) }
      pre (post ++ stringNode k :: layout d) (done + 1) (span + (1 + d.size))
      ⟨by
        rw [extend, extend, h.count, placed]
        simp only [List.length_append, List.length_cons, List.length_nil]
        omega, h.unhashed⟩ rfl
      (by
        change p.nodesLen + 1 + (layout d).length + _ ≤ p.nodesCap
        rw [layout_length]
        omega)
    rw [buildMembers, bind_run keyed, bind_run built]
    change (jbAttach (some pre.length) (some p.nodesLen) (some (p.nodesLen + 1)) >>= _) _ = _
    rw [bind_run attach, partOf_grow, ← first, loop, membersLayout,
      membersSize, List.length_cons, extend, extend, layout_length]
    simp only [List.append_assoc, List.cons_append, List.length_cons, List.length_nil,
      Nat.add_assoc, Nat.add_comm 1, Nat.zero_add]

end

/-- `x` counts `n` nodes, and writes those that have room. -/
def Counts (x : Building α) (n : Nat) : Prop :=
  ∀ p a q, x p = some (a, q) → q.nodesLen = p.nodesLen + n ∧ q.nodesCap = p.nodesCap ∧
    (p.nodes.length = min p.nodesLen p.nodesCap → q.nodes.length = min q.nodesLen q.nodesCap)

theorem Counts.pure (a : α) : Counts (Pure.pure a : Building α) 0 := by
  intro p b q result
  cases result
  exact ⟨rfl, rfl, id⟩

theorem Counts.bind {x : Building α} {f : α → Building β} {n m : Nat} (first : Counts x n)
    (second : ∀ a, Counts (f a) m) : Counts (x >>= f) (n + m) := by
  intro p b q result
  cases here : x p with
  | none =>
    change (x p).bind (fun r => f r.1 r.2) = _ at result
    rw [here] at result
    cases result
  | some r =>
    obtain ⟨a, middle⟩ := r
    rw [bind_run here] at result
    obtain ⟨count, cap, nodes⟩ := first p a middle here
    obtain ⟨count', cap', nodes'⟩ := second a middle b q result
    exact ⟨by rw [count', count, Nat.add_assoc], cap'.trans cap, fun h => nodes' (nodes h)⟩

theorem counts_push (node : JsonParser → JsonNode) :
    Counts (fun p => some (pushNode (node p) p)) 1 := by
  intro p a q result
  have pushed : pushNode (node p) p = (a, q) := Option.some.inj result
  rw [pushNode] at pushed
  split at pushed
  · cases pushed
    refine ⟨rfl, rfl, fun h => ?_⟩
    dsimp only
    omega
  · cases pushed
    refine ⟨rfl, rfl, fun h => ?_⟩
    dsimp only
    rw [List.length_append, List.length_singleton]
    omega

theorem counts_setNode {p : JsonParser} (idx : Nat) (node : JsonNode) :
    (setNode idx node p).nodes.length = p.nodes.length := List.length_set

theorem counts_attach {x : Building Unit}
    (sets : ∀ p q, x p = some ((), q) → q = p ∨ ∃ idx node, q = setNode idx node p) :
    Counts x 0 := by
  intro p a q result
  rcases sets p q result with rfl | ⟨idx, node, rfl⟩
  · exact ⟨rfl, rfl, id⟩
  · exact ⟨rfl, rfl, fun h => (counts_setNode idx node).trans h⟩

theorem jbAppend_counts (arr value : Option Nat) : Counts (jbAppend arr value) 0 := by
  refine counts_attach fun p q result => ?_
  obtain ⟨r, set, same⟩ := Option.map_eq_some_iff.mp result
  cases same
  unfold jsonArrayAppend at set
  split at set
  · exact Or.inl (Option.some.inj set).symm
  obtain ⟨node, -, set⟩ := Option.bind_eq_some_iff.mp set
  split at set
  · exact Or.inl (Option.some.inj set).symm
  obtain ⟨e, -, set⟩ := Option.bind_eq_some_iff.mp set
  obtain ⟨child, -, set⟩ := Option.map_eq_some_iff.mp set
  exact Or.inr ⟨_, _, set.symm⟩

theorem jbAttach_counts (obj key value : Option Nat) : Counts (jbAttach obj key value) 0 := by
  refine counts_attach fun p q result => ?_
  obtain ⟨r, set, same⟩ := Option.map_eq_some_iff.mp result
  cases same
  unfold jsonObjectSet at set
  split at set
  · exact Or.inl (Option.some.inj set).symm
  obtain ⟨node, -, set⟩ := Option.bind_eq_some_iff.mp set
  split at set
  · exact Or.inl (Option.some.inj set).symm
  split at set
  · exact Or.inl (Option.some.inj set).symm
  obtain ⟨keyNode, -, set⟩ := Option.bind_eq_some_iff.mp set
  split at set
  · exact Or.inl (Option.some.inj set).symm
  obtain ⟨v, -, set⟩ := Option.bind_eq_some_iff.mp set
  obtain ⟨valueNode, -, set⟩ := Option.map_eq_some_iff.mp set
  exact Or.inr ⟨_, _, set.symm⟩

theorem jbKey_counts (key : Bytes) : Counts (jbKey key) 1 := counts_push _

mutual

theorem build_counts : ∀ d : Doc, Counts (build d) d.size
  | .null => counts_push _
  | .bool _ => counts_push _
  | .int _ => counts_push _
  | .string _ => counts_push _
  | .array ds => by
    rw [build, Doc.size, Nat.add_comm]
    exact Counts.bind (counts_push _) fun arr =>
      Counts.bind (buildElements_counts arr ds) fun _ => Counts.pure arr
  | .object ms => by
    rw [build, Doc.size, Nat.add_comm]
    exact Counts.bind (counts_push _) fun obj =>
      Counts.bind (buildMembers_counts obj ms) fun _ => Counts.pure obj

theorem buildElements_counts (arr : Option Nat) : ∀ ds : List Doc,
    Counts (buildElements arr ds) (elementsSize ds)
  | [] => Counts.pure ()
  | d :: ds => by
    rw [buildElements, elementsSize]
    refine Counts.bind (build_counts d) fun value => ?_
    have rest := Counts.bind (jbAppend_counts arr value) fun _ => buildElements_counts arr ds
    rwa [Nat.zero_add] at rest

theorem buildMembers_counts (obj : Option Nat) : ∀ ms : List (Bytes × Doc),
    Counts (buildMembers obj ms) (membersSize ms)
  | [] => Counts.pure ()
  | (k, d) :: ms => by
    rw [buildMembers, membersSize, Nat.add_assoc]
    refine Counts.bind (jbKey_counts k) fun key => Counts.bind (build_counts d) fun value => ?_
    have rest := Counts.bind (jbAttach_counts obj key value) fun _ => buildMembers_counts obj ms
    rwa [Nat.zero_add] at rest

end

theorem mapM_read (l : List JsonNode) (n : Nat) :
    ((List.range n).mapM fun i => l[i]?) = if n ≤ l.length then some (l.take n) else none := by
  induction n with
  | zero => rfl
  | succ n ih =>
    rw [List.range_succ, List.mapM_append, ih]
    by_cases more : n < l.length
    · rw [if_pos (Nat.le_of_lt more), if_pos (Nat.succ_le_of_lt more),
        List.take_succ_eq_append_getElem more]
      simp [List.getElem?_eq_getElem more]
    · rw [if_neg (show ¬n + 1 ≤ l.length from more)]
      split
      · simp [List.getElem?_eq_none (Nat.not_lt.mp more)]
      · rfl

theorem jbDestroy_eq (p : JsonParser) : jbDestroy p =
    if p.nodesLen ≤ p.nodes.length then some ((p.nodes.take p.nodesLen).filterMap (·.strval))
    else none := by
  rw [jbDestroy, mapM_read]
  split
  · rfl
  · rfl

/-- More nodes than the array holds: some access is invalid, at the latest when the builder is
destroyed. -/
theorem respond_none {building : Building (Option Nat)} {n maxNodes : Nat}
    (counts : Counts building n) (crowded : max 1 maxNodes < n) : respond maxNodes building = none := by
  rw [respond]
  cases built : building (jbCreate maxNodes) with
  | none => rfl
  | some r =>
    obtain ⟨root, p⟩ := r
    obtain ⟨count, cap, nodes⟩ := counts _ _ _ built
    have len : p.nodesLen = n := count.trans (Nat.zero_add n)
    have room : p.nodesCap = max 1 maxNodes := by
      rw [cap]
      change (if maxNodes < 1 then 1 else maxNodes) = _
      split <;> omega
    have written := nodes rfl
    rw [Option.bind_some]
    dsimp only
    rw [jbDestroy_eq, if_neg (by omega)]
    cases jbFinish root p with
    | none => rfl
    | some text => rfl

theorem stringbufInit_sound : Sound (stringbufInit 256) := ⟨rfl, by decide, by decide⟩

/-- A document that has room is written piece by piece. -/
theorem respond_room {d : Doc} {maxNodes : Nat} (room : d.size ≤ max 1 maxNodes)
    (small : d.size < 2 ^ 28) (short : d.Short) :
    respond maxNodes (build d) = some (writeAll (pieces false 0 d) (stringbufInit 256)).data := by
  have fresh : Fresh (jbCreate maxNodes) := ⟨rfl, rfl⟩
  have cap : (jbCreate maxNodes).nodesCap = max 1 maxNodes := by
    change (if maxNodes < 1 then 1 else maxNodes) = _
    split <;> omega
  have built := build_room d fresh (by
    rw [cap]
    change 0 + d.size ≤ _
    omega)
  have placed : (extend (jbCreate maxNodes) (layout d)).nodes = [] ++ (layout d ++ []) := by
    rw [extend, List.append_nil]
    rfl
  have count := (fresh.extend (layout d)).count
  have dumped := @dump_layout false _ [] d
    ((extend (jbCreate maxNodes) (layout d)).nodes.length + 1) 0 [] []
    (stringbufInit 256) stringbufInit_sound placed count small short (by
      rw [placed]
      simp only [List.nil_append, List.append_nil, layout_length]
      omega)
  have finished : jbFinish (some 0) (extend (jbCreate maxNodes) (layout d)) =
      some (writeAll (pieces false 0 d) (stringbufInit 256)).data :=
    congrArg (Option.map StringBuf.data) dumped
  rw [respond, built, Option.bind_some]
  change (jbFinish (some 0) _).bind _ = _
  rw [finished, Option.bind_some, jbDestroy_eq, if_pos (Nat.le_of_eq count)]
  rfl

/-- What is written leaves the buffer within its limit. -/
def Keeps (f : StringBuf → Option StringBuf) : Prop := ∀ sb sb', Sound sb → f sb = some sb' → Sound sb'

theorem stringbufAppend_sound (src : Bytes) {sb : StringBuf} (h : Sound sb) :
    Sound (stringbufAppend src sb) := by
  rw [stringbufAppend_eq src h]
  exact put_sound src h

theorem jsonDumpEscapeBuf_sound (s : Bytes) {sb : StringBuf} (h : Sound sb) :
    Sound (jsonDumpEscapeBuf s sb) := by
  rw [jsonDumpEscapeBuf_eq s h]
  exact writeAll_sound _ h

theorem dumpIndent_sound (pretty : Bool) (indent : Nat) {sb : StringBuf} (h : Sound sb) :
    Sound (dumpIndent pretty indent sb) := by
  rw [lead_eq indent h]
  exact writeAll_sound _ h

theorem dumpClose_sound (pretty : Bool) (c : UInt8) (indent : Nat) {sb : StringBuf} (h : Sound sb) :
    Sound (dumpClose pretty c indent sb) := by
  rw [closing_eq c indent h]
  exact writeAll_sound _ h

theorem separated_sound (pretty : Bool) (n : Nat) {sb : StringBuf} (h : Sound sb) :
    Sound (if 0 < n then dumpMark pretty 44 sb else sb) := by
  split
  · exact stringbufAppend_sound _ h
  · exact h

theorem dumpElements_keeps (p : JsonParser) (pretty : Bool)
    {dump : Option Nat → StringBuf → Option StringBuf} (keeps : ∀ node, Keeps (dump node))
    (indent n : Nat) (child : Option Nat) : Keeps (dumpElements p pretty dump indent n child) := by
  induction n generalizing child with
  | zero =>
    intro sb sb' h dumped
    cases dumped
    exact h
  | succ n ih =>
    intro sb sb' h dumped
    rw [dumpElements] at dumped
    obtain ⟨middle, here, dumped⟩ := Option.bind_eq_some_iff.mp dumped
    obtain ⟨next, -, dumped⟩ := Option.bind_eq_some_iff.mp dumped
    have written := keeps child _ _ (dumpIndent_sound pretty (indent + 2) h) here
    exact ih next _ _ (separated_sound pretty n written) dumped

theorem dumpPairs_keeps (p : JsonParser) (buffer : Bytes) (pretty : Bool)
    {dump : Option Nat → StringBuf → Option StringBuf} (keeps : ∀ node, Keeps (dump node))
    (indent n : Nat) (key : Option Nat) : Keeps (dumpPairs p buffer pretty dump indent n key) := by
  induction n generalizing key with
  | zero =>
    intro sb sb' h dumped
    cases dumped
    exact h
  | succ n ih =>
    intro sb sb' h dumped
    rw [dumpPairs] at dumped
    obtain ⟨value, -, dumped⟩ := Option.bind_eq_some_iff.mp dumped
    obtain ⟨keyNode, -, dumped⟩ := Option.bind_eq_some_iff.mp dumped
    obtain ⟨text, -, dumped⟩ := Option.bind_eq_some_iff.mp dumped
    dsimp only at dumped
    have keyed := jsonDumpEscapeBuf_sound text (dumpIndent_sound pretty (indent + 2) h)
    rw [colon_eq keyed] at dumped
    obtain ⟨middle, here, dumped⟩ := Option.bind_eq_some_iff.mp dumped
    obtain ⟨next, -, dumped⟩ := Option.bind_eq_some_iff.mp dumped
    have written := keeps value _ _ (put_sound (colon pretty) keyed) here
    exact ih next _ _ (separated_sound pretty n written) dumped

theorem dump_keeps (p : JsonParser) (buffer : Bytes) (pretty : Bool) (fuel indent : Nat)
    (node : Option Nat) : Keeps (jsonDumpNodeBuf p buffer pretty fuel indent node) := by
  induction fuel generalizing indent node with
  | zero =>
    intro sb sb' _ dumped
    cases node <;> cases dumped
  | succ fuel ih =>
    intro sb sb' h dumped
    cases node with
    | none =>
      cases dumped
      exact stringbufAppend_sound _ h
    | some idx =>
      rw [jsonDumpNodeBuf] at dumped
      obtain ⟨node, -, dumped⟩ := Option.bind_eq_some_iff.mp dumped
      split at dumped
      · cases dumped
        exact h
      split at dumped
      · cases dumped
        exact stringbufAppend_sound _ h
      · cases dumped
        exact stringbufAppend_sound _ h
      · cases dumped
        exact stringbufAppend_sound _ h
      · obtain ⟨text, -, rfl⟩ := Option.map_eq_some_iff.mp dumped
        exact stringbufAppend_sound _ h
      · obtain ⟨text, -, rfl⟩ := Option.map_eq_some_iff.mp dumped
        exact stringbufAppend_sound _ h
      · obtain ⟨text, -, rfl⟩ := Option.map_eq_some_iff.mp dumped
        exact jsonDumpEscapeBuf_sound _ h
      · split at dumped
        · cases dumped
          exact stringbufAppend_sound _ h
        · obtain ⟨child, -, dumped⟩ := Option.bind_eq_some_iff.mp dumped
          obtain ⟨middle, elements, rfl⟩ := Option.map_eq_some_iff.mp dumped
          have opened : Sound (dumpMark pretty 91 sb) := stringbufAppend_sound _ h
          exact dumpClose_sound pretty 93 indent
            (dumpElements_keeps p pretty (ih (indent + 2)) indent _ _ _ _ opened elements)
      · split at dumped
        · cases dumped
          exact stringbufAppend_sound _ h
        · obtain ⟨child, -, dumped⟩ := Option.bind_eq_some_iff.mp dumped
          obtain ⟨middle, members, rfl⟩ := Option.map_eq_some_iff.mp dumped
          have opened : Sound (dumpMark pretty 123 sb) := stringbufAppend_sound _ h
          exact dumpClose_sound pretty 125 indent
            (dumpPairs_keeps p buffer pretty (ih (indent + 2)) indent _ _ _ _ opened members)

/-- No response reaches the limit. -/
theorem respond_limit {building : Building (Option Nat)} {maxNodes : Nat} {text : Bytes}
    (result : respond maxNodes building = some text) : text.length < STRINGBUF_MAX_CAP := by
  obtain ⟨⟨root, p⟩, -, rest⟩ := Option.bind_eq_some_iff.mp result
  obtain ⟨written, finished, destroyed⟩ := Option.bind_eq_some_iff.mp rest
  obtain ⟨-, -, rfl⟩ := Option.map_eq_some_iff.mp destroyed
  obtain ⟨sb, dumped, rfl⟩ := Option.map_eq_some_iff.mp finished
  have sound := dump_keeps p [] false _ 0 root _ _ stringbufInit_sound dumped
  exact Nat.lt_of_lt_of_le sound.fits sound.room

variable (pretty : Bool)

theorem stringPieces_length (s : Bytes) : s.length ≤ (stringPieces s).flatten.length := by
  rw [stringPieces_flatten, JsonGrammar.stringText, List.length_cons, List.length_append]
  have each (c : UInt8) : 1 ≤ (JsonRoundTrip.escaped c).text.length :=
    List.length_pos_of_ne_nil (escaped_ne_nil c)
  induction s with
  | nil => exact Nat.zero_le _
  | cons c s ih =>
    have here := each c
    rw [List.map_cons, List.flatMap_cons, List.length_append, List.length_cons]
    omega

mutual

theorem pieces_short : ∀ (d : Doc) (indent : Nat),
    (pieces pretty indent d).flatten.length < 2 ^ 32 → d.Short
  | .null, _, _ => trivial
  | .bool _, _, _ => trivial
  | .int _, _, _ => trivial
  | .string s, _, small => by
    rw [pieces] at small
    exact Nat.lt_of_le_of_lt (stringPieces_length _) small
  | .array [], _, _ => trivial
  | .array (d :: ds), indent, small => by
    rw [pieces, List.flatten_cons, List.flatten_append, List.length_append, List.length_append] at small
    exact elements_short (d :: ds) indent (by omega)
  | .object [], _, _ => trivial
  | .object (m :: ms), indent, small => by
    rw [pieces, List.flatten_cons, List.flatten_append, List.length_append, List.length_append] at small
    exact members_short (m :: ms) indent (by omega)

theorem elements_short : ∀ (ds : List Doc) (indent : Nat),
    (elementsPieces pretty indent ds).flatten.length < 2 ^ 32 → elementsShort ds
  | [], _, _ => trivial
  | [d], indent, small => by
    rw [elementsPieces, List.flatten_append, List.length_append] at small
    exact ⟨pieces_short d (indent + 2) (by omega), trivial⟩
  | d :: e :: ds, indent, small => by
    rw [elementsPieces_cons] at small
    simp only [List.flatten_append, List.flatten_cons, List.length_append] at small
    exact ⟨pieces_short d (indent + 2) (by omega), elements_short (e :: ds) indent (by omega)⟩

theorem members_short : ∀ (ms : List (Bytes × Doc)) (indent : Nat),
    (membersPieces pretty indent ms).flatten.length < 2 ^ 32 → membersShort ms
  | [], _, _ => trivial
  | [(k, d)], indent, small => by
    have key := stringPieces_length (cstring k)
    rw [membersPieces] at small
    simp only [List.flatten_append, List.flatten_cons, List.length_append] at small
    exact ⟨by omega, pieces_short d (indent + 2) (by omega), trivial⟩
  | (k, d) :: m :: ms, indent, small => by
    have key := stringPieces_length (cstring k)
    rw [membersPieces_cons] at small
    simp only [List.flatten_append, List.flatten_cons, List.length_append] at small
    exact ⟨by omega, pieces_short d (indent + 2) (by omega), members_short (m :: ms) indent (by omega)⟩

end

/-- The room that the buffer of a response makes for the text of a document. -/
def textFits (d : Doc) : Bool := fits 256 0 ((pieces false 0 d).map List.length)

theorem pieces_sum (d : Doc) : ((pieces pretty 0 d).map List.length).sum = (text pretty d).length := by
  rw [text, List.length_flatten]

theorem textFits_limit {d : Doc} (fitting : textFits d = true) :
    (text false d).length < STRINGBUF_MAX_CAP := by
  have limit := fits_limit (by decide) (by decide) fitting
  rwa [pieces_sum, Nat.zero_add] at limit

/-- The response is the text of the document if and only if the nodes fit into the array and the
text into the buffer. -/
theorem respond_exact (d : Doc) {maxNodes : Nat} (small : max 1 maxNodes < 2 ^ 28) :
    respond maxNodes (build d) = some (text false d) ↔ d.size ≤ max 1 maxNodes ∧ textFits d = true := by
  have max_cap : STRINGBUF_MAX_CAP = 1048576 := rfl
  have exact_text (room : d.size ≤ max 1 maxNodes) (limit : (text false d).length < STRINGBUF_MAX_CAP) :
      respond maxNodes (build d) = some (text false d) ↔ textFits d = true := by
    rw [respond_room room (Nat.lt_of_le_of_lt room small) (pieces_short false d 0 (by
      change (text false d).length < _
      omega)), Option.some.injEq]
    exact writeAll_exact (pieces false 0 d) stringbufInit_sound
  constructor
  · intro result
    have room : d.size ≤ max 1 maxNodes := by
      by_contra crowded
      rw [respond_none (build_counts d) (Nat.lt_of_not_le crowded)] at result
      cases result
    exact ⟨room, (exact_text room (respond_limit result)).mp result⟩
  · rintro ⟨room, fitting⟩
    exact (exact_text room (textFits_limit fitting)).mpr fitting

/-- A document built key first comes out as its JSON text, unless the nodes do not fit into the
array or the text into the buffer; too many nodes make an access invalid. -/
theorem respond_document (d : Doc) {maxNodes : Nat} (small : max 1 maxNodes < 2 ^ 28) :
    (respond maxNodes (build d) = some (text false d) ↔
      d.size ≤ max 1 maxNodes ∧ textFits d = true) ∧
    (max 1 maxNodes < d.size → respond maxNodes (build d) = none) ∧
    JsonGrammar.RfcText (text false d) d.json :=
  ⟨respond_exact d small, respond_none (build_counts d), text_rfc false d⟩

/-- `{"a\"":[null,-1]}` -/
def sampleDoc : Doc := .object [(ascii "a\"", .array [.null, .int (-1)])]

theorem respond_document_sample :
    (respond 5 (build sampleDoc) = some (text false sampleDoc) ↔
      sampleDoc.size ≤ max 1 5 ∧ textFits sampleDoc = true) ∧
    (max 1 5 < sampleDoc.size → respond 5 (build sampleDoc) = none) ∧
    JsonGrammar.RfcText (text false sampleDoc) sampleDoc.json :=
  respond_document sampleDoc (by decide)

end CeJson
