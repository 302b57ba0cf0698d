import NanoProxy.CLib
import NanoProxy.Lib.FileTree

/-!
# The root of static files (include/request.h)

`http_static_dir` up to the `open`. The root and the file are resolved by the system, and
the guard compares their texts. The path of the index file is made behind the guard.
-/

namespace StaticRoot

open CLib FileTree

def PATH_MAX : Nat := 4096

/-- A file system that does not change, the working directory, and how many links a
resolution follows. -/
structure System where
  tree : Node
  cwd : Path
  links : Nat

variable (s : System)

def System.resolvePath (path : Bytes) : Option Path :=
  if path = [] ∨ PATH_MAX ≤ path.length then none
  else resolve s.tree s.links (if absolute path then [] else s.cwd) (steps path)

/-- The path that `realpath` writes, if it fits. -/
def System.canonical (path : Bytes) : Option Path :=
  (s.resolvePath path).filter fun p => (render p).length < PATH_MAX

def System.realpath (path : Bytes) : Option Bytes := (s.canonical path).map render

def System.stat (path : Bytes) : Option Node := (s.resolvePath path).bind s.tree.lookup

/-- The file that `open` opens. -/
def System.openFile (path : Bytes) : Option Path := s.resolvePath path

def System.isDir (p : Path) : Bool := (s.tree.lookup p).any Node.isDir

def System.isFile (p : Path) : Bool := (s.tree.lookup p).any Node.isFile

/-- A status, or the path that was opened. -/
inductive Reply where
  | error (status : Nat)
  | opened (path : Bytes)
  deriving DecidableEq

/-- The path traversal guard. -/
def insideRoot (realRoot realPath : Bytes) : Bool :=
  realRoot.isPrefixOf realPath && (realPath.drop realRoot.length).head?.all (· == 47)

def openRegular (node : Node) (realPath : Bytes) : Reply :=
  if ¬node.isFile then .error 403
  else match s.openFile realPath with
    | none => .error 500
    | some _ => .opened realPath

/-- The index file is taken for a directory; its path is cut to the buffer. -/
def serveFile (realPath : Bytes) : Reply :=
  match s.stat realPath with
  | none => .error 404
  | some node =>
    if node.isDir then
      let indexPath := realPath ++ ascii "/index.html"
      match s.stat indexPath with
      | none => .error 404
      | some node => openRegular s node (indexPath.take (PATH_MAX - 1))
    else openRegular s node realPath

/-- `locations` maps a prefix to its `real_path`. -/
def locationRoot (locations : List (Bytes × Bytes)) (pre : Bytes) : Bytes :=
  match locations.find? (·.1 = pre) with
  | some location => location.2
  | none => ascii "./public"

def httpStaticDir (locations : List (Bytes × Bytes)) (method uri : Bytes)
    (matchedPrefix : Option Bytes) : Reply :=
  if method ≠ ascii "GET" ∧ method ≠ ascii "HEAD" then .error 405
  else match matchedPrefix with
    | none => .error 500
    | some pre =>
      let root := locationRoot locations pre
      let path := (root ++ 47 :: uri.drop pre.length).take (PATH_MAX - 1)
      if PATH_MAX - 1 ≤ path.length then .error 414
      else match s.realpath root with
        | none => .error 500
        | some realRoot => match s.realpath path with
          | none => .error 404
          | some realPath =>
            if ¬insideRoot realRoot realPath then .error 403 else serveFile s realPath

variable {s} {r c x : Path} {path root : Bytes} {node : Node}

theorem render_of_ne {p : Path} (nonempty : p ≠ []) : render p = text p := if_neg nonempty

theorem insideRoot_of {realRoot rest : Bytes} :
    insideRoot realRoot (realRoot ++ rest) = true ↔ Ends rest := by
  have first : realRoot.isPrefixOf (realRoot ++ rest) = true :=
    List.isPrefixOf_iff_prefix.mpr (List.prefix_append _ _)
  rw [insideRoot, first, List.drop_left, Bool.true_and]
  cases rest with
  | nil => exact ⟨fun _ => Or.inl rfl, fun _ => rfl⟩
  | cons b rest =>
    constructor
    · intro same
      exact Or.inr ⟨rest, by rw [beq_iff_eq.mp same]⟩
    · rintro (empty | ⟨rest', same⟩)
      · cases empty
      · cases same
        rfl

/-- Below the root, but nothing is below a root that is the whole tree. -/
theorem insideRoot_iff :
    insideRoot (render r) (render c) = true ↔ r <+: c ∧ (r = [] → c = []) := by
  constructor
  · intro inside
    have first := (Bool.and_eq_true _ _ ▸ inside : _ ∧ _).1
    obtain ⟨rest, whole⟩ := List.isPrefixOf_iff_prefix.mp first
    rw [← whole, insideRoot_of] at inside
    by_cases empty : r = []
    · subst empty
      cases c with
      | nil => exact ⟨List.prefix_refl _, fun _ => rfl⟩
      | cons n c =>
        have same : rest = n.text ++ text c := (List.cons.inj whole).2
        rcases inside with rfl | ⟨rest', rfl⟩
        · exact absurd (List.append_eq_nil_iff.mp same.symm).1 n.nonempty
        · obtain ⟨b, name, equal⟩ := List.exists_cons_of_ne_nil n.nonempty
          have slash := n.no_slash
          rw [equal, List.cons_append, List.cons.injEq] at same
          rw [equal, ← same.1] at slash
          exact absurd List.mem_cons_self slash
    · rw [render_of_ne empty] at whole
      cases c with
      | nil =>
        obtain ⟨n, r', rfl⟩ := List.exists_cons_of_ne_nil empty
        have same : n.text ++ text r' ++ rest = [] := (List.cons.inj whole).2
        rw [List.append_eq_nil_iff, List.append_eq_nil_iff] at same
        exact absurd same.1.1 n.nonempty
      | cons n c =>
        obtain ⟨more, same⟩ := text_prefix inside whole
        exact ⟨⟨more, same.symm⟩, fun h => absurd h empty⟩
  · rintro ⟨⟨more, rfl⟩, whole_tree⟩
    by_cases empty : r = []
    · rw [whole_tree empty, empty]
      rfl
    · have split : render (r ++ more) = render r ++ text more := by
        rw [render_of_ne empty, render_of_ne (List.append_ne_nil_of_left_ne_nil empty more), text,
          List.flatMap_append]
        rfl
      rw [split, insideRoot_of]
      exact text_ends more

theorem resolvePath_canonical (resolved : s.resolvePath path = some c) :
    Canonical s.tree c ∧ s.tree.isDir = true := by
  unfold System.resolvePath at resolved
  split at resolved
  · cases resolved
  obtain ⟨first, rest, same⟩ := steps_cons path
  rw [same] at resolved
  have dir := resolve_dir resolved
  exact ⟨resolve_canonical (canonical_of_isDir dir) resolved, dir_root dir⟩

theorem canonical_iff :
    s.canonical path = some c ↔ s.resolvePath path = some c ∧ (render c).length < PATH_MAX := by
  rw [System.canonical, Option.filter_eq_some_iff, decide_eq_true_iff]

/-- The path of the index file of a directory. -/
def indexPath (c : Path) : Bytes := render c ++ ascii "/index.html"

def System.index (s : System) (c : Path) : Option Path := s.resolvePath (indexPath c)

def indexName : Name := ⟨ascii "index.html", by decide, by decide, by decide, by decide⟩

theorem render_ne_nil (c : Path) : render c ≠ [] := by
  rw [render]
  split
  · exact List.cons_ne_nil _ _
  · rename_i nonempty
    obtain ⟨n, c, rfl⟩ := List.exists_cons_of_ne_nil nonempty
    exact List.cons_ne_nil _ _

theorem render_absolute (c : Path) (rest : Bytes) : absolute (render c ++ rest) = true := by
  rw [render]
  split
  · rfl
  · rename_i nonempty
    obtain ⟨n, c, rfl⟩ := List.exists_cons_of_ne_nil nonempty
    rfl

/-- The index file is looked for where the directory is. -/
theorem index_eq (canonical : Canonical s.tree c) : s.index c =
    if PATH_MAX ≤ (indexPath c).length then none
    else resolve s.tree s.links c [.name indexName] := by
  have names : ascii "/index.html" = 47 :: indexName.text := rfl
  have nonempty : indexPath c ≠ [] := List.append_ne_nil_of_left_ne_nil (render_ne_nil c) _
  rw [System.index, System.resolvePath]
  by_cases long : PATH_MAX ≤ (indexPath c).length
  · rw [if_pos (Or.inr long), if_pos long]
  · rw [if_neg (not_or.mpr ⟨nonempty, long⟩), if_neg long, indexPath, render_absolute, if_pos rfl,
      names, resolve_render canonical, steps_name]

/-- The text of a canonical path is resolved to the path. -/
theorem resolvePath_render (canonical : s.canonical path = some c) :
    s.resolvePath (render c) = some c := by
  obtain ⟨resolved, short⟩ := canonical_iff.mp canonical
  obtain ⟨entry, root⟩ := resolvePath_canonical resolved
  have whole := render_absolute c []
  rw [List.append_nil] at whole
  rw [System.resolvePath, if_neg (not_or.mpr ⟨render_ne_nil c, Nat.not_le.mpr short⟩), whole,
    if_pos rfl, resolve_self entry root]

theorem openRegular_opened {opened : Path} (opens : s.openFile path = some opened)
    {path' : Bytes} :
    openRegular s node path = .opened path' ↔ node.isFile = true ∧ path' = path := by
  rw [openRegular]
  by_cases file : node.isFile = true
  · rw [if_neg (not_not.mpr file), opens]
    dsimp only
    rw [Reply.opened.injEq]
    exact ⟨fun same => ⟨file, same.symm⟩, fun h => h.2.symm⟩
  · rw [if_pos file]
    exact ⟨nofun, fun h => absurd h.1 file⟩

theorem lookup_of (entry : Canonical s.tree c) : ∃ node, s.tree.lookup c = some node ∧
    node.isLink = false ∧ s.isDir c = node.isDir ∧ s.isFile c = node.isFile := by
  obtain ⟨node, found, noLink⟩ := entry
  refine ⟨node, found, noLink, ?_, ?_⟩
  · rw [System.isDir, found]
    rfl
  · rw [System.isFile, found]
    rfl

/-- An index file has a path that fits in the buffer. -/
theorem index_short (found : s.index c = some x) :
    (indexPath c).take (PATH_MAX - 1) = indexPath c := by
  apply List.take_of_length_le
  rw [System.index, System.resolvePath] at found
  split at found
  · cases found
  · rename_i short
    rw [not_or, Nat.not_le] at short
    exact Nat.le_sub_one_of_lt short.2

theorem node_cases (node : Node) (entry : node.isLink = false) :
    node.isDir = true ∧ node.isFile = false ∨ node.isDir = false ∧ node.isFile = true := by
  cases node with
  | dir entries => exact Or.inl ⟨rfl, rfl⟩
  | file => exact Or.inr ⟨rfl, rfl⟩
  | link target => cases entry

/-- What is opened for a path that has passed the guard. -/
theorem serveFile_opened (canonical : s.canonical path = some c) {path' : Bytes} :
    serveFile s (render c) = .opened path' ↔
      (s.isFile c = true ∧ path' = render c) ∨
      (s.isDir c = true ∧ ∃ x, s.index c = some x ∧ s.isFile x = true ∧ path' = indexPath c) := by
  have self := resolvePath_render canonical
  obtain ⟨node, found, entry, dir, file⟩ := lookup_of (resolvePath_canonical self).1
  have stat : s.stat (render c) = some node := by rw [System.stat, self, Option.bind_some, found]
  rw [serveFile, stat, dir, file]
  dsimp only
  rcases node_cases node entry with ⟨isDir, noFile⟩ | ⟨noDir, isFile⟩
  · rw [isDir, noFile, if_pos rfl]
    have index : s.stat (indexPath c) = (s.index c).bind s.tree.lookup := rfl
    rw [← indexPath, index]
    cases same : s.index c with
    | none =>
      constructor
      · exact nofun
      · rintro (⟨h, _⟩ | ⟨_, x, h, _⟩) <;> cases h
    | some x =>
      obtain ⟨node', found', _, _, file'⟩ := lookup_of (resolvePath_canonical same).1
      have opens : s.openFile (indexPath c) = some x := same
      rw [Option.bind_some, found']
      dsimp only
      rw [index_short same, openRegular_opened opens, ← file']
      constructor
      · rintro ⟨isFile, rfl⟩
        exact Or.inr ⟨rfl, x, rfl, isFile, rfl⟩
      · rintro (⟨h, _⟩ | ⟨_, x', h, isFile, rfl⟩)
        · cases h
        · cases h
          exact ⟨isFile, rfl⟩
  · have opens : s.openFile (render c) = some c := self
    rw [noDir, isFile, if_neg Bool.false_ne_true, openRegular_opened opens, isFile]
    constructor
    · exact Or.inl
    · rintro (h | ⟨h, _⟩)
      · exact h
      · cases h

/-- `path` before it is cut to the buffer. -/
def requestPath (locations : List (Bytes × Bytes)) (matched subpath : Bytes) : Bytes :=
  locationRoot locations matched ++ 47 :: subpath

def servedMethod (method : Bytes) : Prop := method = ascii "GET" ∨ method = ascii "HEAD"

/-- The root is `r`, and the request names `c`. -/
def Names (s : System) (root path : Bytes) (r c : Path) : Prop :=
  path.length < PATH_MAX - 1 ∧ s.canonical root = some r ∧ s.canonical path = some c

/-- What is opened for a request. -/
theorem httpStaticDir_opened {locations : List (Bytes × Bytes)} {method matched subpath : Bytes} :
    httpStaticDir s locations method (matched ++ subpath) (some matched) = .opened path ↔
      servedMethod method ∧ ∃ r c,
        Names s (locationRoot locations matched) (requestPath locations matched subpath) r c ∧
        insideRoot (render r) (render c) = true ∧ serveFile s (render c) = .opened path := by
  rw [httpStaticDir]
  by_cases served : servedMethod method
  · rw [if_neg fun refused => not_or.mpr refused served]
    dsimp only
    rw [List.drop_left, ← requestPath]
    by_cases long : PATH_MAX - 1 ≤ (requestPath locations matched subpath).length
    · rw [if_pos (by rw [List.length_take, Nat.min_eq_left long])]
      refine ⟨nofun, ?_⟩
      rintro ⟨_, r, c, ⟨short, _⟩, _⟩
      exact absurd short (Nat.not_lt.mpr long)
    · have short := Nat.lt_of_not_le long
      rw [List.take_of_length_le (Nat.le_of_lt short), if_neg long, System.realpath,
        System.realpath]
      constructor
      · intro opened
        refine ⟨served, ?_⟩
        cases root : s.canonical (locationRoot locations matched) with
        | none =>
          rw [root] at opened
          cases opened
        | some r =>
          cases named : s.canonical (requestPath locations matched subpath) with
          | none =>
            rw [root, named] at opened
            cases opened
          | some c =>
            rw [root, named] at opened
            dsimp only [Option.map_some] at opened
            by_cases inside : insideRoot (render r) (render c) = true
            · rw [if_neg (not_not.mpr inside)] at opened
              exact ⟨r, c, ⟨short, root, named⟩, inside, opened⟩
            · rw [if_pos inside] at opened
              cases opened
      · rintro ⟨_, r, c, ⟨_, root, named⟩, inside, opened⟩
        rw [root, named]
        dsimp only [Option.map_some]
        rw [if_neg (not_not.mpr inside)]
        exact opened
  · rw [if_pos (not_or.mp served)]
    exact ⟨nofun, fun h => absurd h.1 served⟩

/-- The file that is opened is the root or below it. -/
def Confined (s : System) (root : Bytes) (reply : Reply) : Prop :=
  ∀ path r x, reply = .opened path → s.canonical root = some r → s.openFile path = some x → r <+: x

/-- The index file of a directory that passes the guard is in the root. -/
def IndexInside (s : System) (r c : Path) : Prop :=
  ∀ x, insideRoot (render r) (render c) = true → s.index c = some x → s.isFile x = true → r <+: x

theorem confined_iff (s : System) (locations : List (Bytes × Bytes))
    (method matched subpath : Bytes) :
    Confined s (locationRoot locations matched)
        (httpStaticDir s locations method (matched ++ subpath) (some matched)) ↔
      (servedMethod method → ∀ r c,
        Names s (locationRoot locations matched) (requestPath locations matched subpath) r c →
        s.isDir c = true → IndexInside s r c) := by
  constructor
  · intro confined served r c names dir x inside index file
    have opened := (serveFile_opened names.2.2).mpr (Or.inr ⟨dir, x, index, file, rfl⟩)
    have reply := httpStaticDir_opened.mpr ⟨served, r, c, names, inside, opened⟩
    exact confined _ r x reply names.2.1 index
  · intro safe path r x reply root opens
    obtain ⟨served, r', c, names, inside, opened⟩ := httpStaticDir_opened.mp reply
    obtain rfl := Option.some.inj (root.symm.trans names.2.1)
    rcases (serveFile_opened names.2.2).mp opened with ⟨_, rfl⟩ | ⟨dir, x', index, file, rfl⟩
    · have same : s.openFile (render c) = some c := resolvePath_render names.2.2
      obtain rfl := Option.some.inj (same.symm.trans opens)
      exact (insideRoot_iff.mp inside).1
    · have same : s.openFile (indexPath c) = some x' := index
      obtain rfl := Option.some.inj (same.symm.trans opens)
      exact safe served r c names dir x' inside index file

/-- The URI of the index file of a directory. -/
def indexUri (uri : Bytes) : Bytes :=
  if uri.getLast? = some 47 then uri ++ ascii "index.html" else uri ++ ascii "/index.html"

def indexSuffix (uri : Bytes) : Bytes :=
  if uri.getLast? = some 47 then ascii "index.html" else ascii "/index.html"

theorem indexUri_eq (uri : Bytes) : indexUri uri = uri ++ indexSuffix uri := by
  rw [indexUri, indexSuffix]
  split
  · rfl
  · rfl

/-- The path of the index file that a request for it names. -/
def explicitPath (locations : List (Bytes × Bytes)) (matched subpath : Bytes) : Bytes :=
  requestPath locations matched (subpath ++ indexSuffix (matched ++ subpath))

/-- The steps to the index file are those to the directory and its name. -/
theorem explicit_steps (locations : List (Bytes × Bytes)) (matched subpath : Bytes) :
    ∃ todo, steps (explicitPath locations matched subpath) = todo ++ [.name indexName] ∧
      (steps (requestPath locations matched subpath) = todo ∨
        steps (requestPath locations matched subpath) = todo ++ [.here]) := by
  have name : steps indexName.text = [.name indexName] := steps_name indexName
  rw [explicitPath, indexSuffix]
  split
  · rename_i slash
    -- the path of the directory ends with the slash as well
    have ends : ∃ a, locationRoot locations matched ++ 47 :: subpath = a ++ [47] := by
      rcases List.eq_nil_or_concat subpath with rfl | ⟨init, b, rfl⟩
      · exact ⟨_, rfl⟩
      · rw [List.concat_eq_append, ← List.append_assoc, List.getLast?_concat] at slash
        cases slash
        exact ⟨locationRoot locations matched ++ 47 :: init, by simp⟩
    obtain ⟨a, whole⟩ := ends
    have explicit : requestPath locations matched (subpath ++ ascii "index.html") =
        a ++ 47 :: indexName.text := by
      have split : locationRoot locations matched ++ 47 :: (subpath ++ ascii "index.html") =
          locationRoot locations matched ++ 47 :: subpath ++ ascii "index.html" := by simp
      rw [requestPath, split, whole, List.append_assoc]
      rfl
    refine ⟨steps a, ?_, Or.inr ?_⟩
    · rw [explicit, steps_append, name]
    · rw [requestPath, whole, steps_append]
      rfl
  · have explicit : requestPath locations matched (subpath ++ ascii "/index.html") =
        requestPath locations matched subpath ++ 47 :: indexName.text := by
      rw [requestPath, requestPath, List.append_assoc, List.cons_append]
      rfl
    refine ⟨steps (requestPath locations matched subpath), ?_, Or.inl rfl⟩
    rw [explicit, steps_append, name]

theorem explicit_start (locations : List (Bytes × Bytes)) (matched subpath : Bytes) :
    absolute (explicitPath locations matched subpath) =
      absolute (requestPath locations matched subpath) := by
  rw [explicitPath, requestPath, requestPath, absolute, absolute]
  cases locationRoot locations matched with
  | nil => rfl
  | cons b root => rfl

/-- The index file of a directory is the same by its name. -/
theorem explicit_index {locations : List (Bytes × Bytes)} {matched subpath : Bytes} {e : Path}
    (named : s.canonical (requestPath locations matched subpath) = some c)
    (explicit : s.canonical (explicitPath locations matched subpath) = some e)
    (index : s.index c = some x) : e = x := by
  obtain ⟨resolved, _⟩ := canonical_iff.mp named
  obtain ⟨resolved', _⟩ := canonical_iff.mp explicit
  have entry := (resolvePath_canonical resolved).1
  rw [index_eq entry] at index
  split at index
  · cases index
  rw [System.resolvePath] at resolved resolved'
  split at resolved
  · cases resolved
  split at resolved'
  · cases resolved'
  obtain ⟨todo, steps', steps⟩ := explicit_steps locations matched subpath
  rw [explicit_start, steps'] at resolved'
  obtain ⟨between, first, left, le, second⟩ := resolve_append resolved'
  have there : between = c := by
    rcases steps with same | same
    · rw [same, first] at resolved
      exact Option.some.inj resolved
    · rw [same] at resolved
      obtain ⟨between', first', left', _, here⟩ := resolve_append resolved
      rw [resolve_last_here here]
      exact Option.some.inj (first.symm.trans first')
  rw [there] at second
  exact Option.some.inj ((resolve_mono le second).symm.trans index)

/-- What a request for the index file names, if its path fits. -/
def explicitIndex (s : System) (locations : List (Bytes × Bytes)) (matched subpath : Bytes) :
    Option Path :=
  if (explicitPath locations matched subpath).length < PATH_MAX - 1 then
    s.canonical (explicitPath locations matched subpath) else none

/-- The guard is passed, and the file or the index file of the directory is opened. -/
def Served (s : System) (r c : Path) : Prop :=
  insideRoot (render r) (render c) = true ∧
    (s.isFile c = true ∨ s.isDir c = true ∧ ∃ x, s.index c = some x ∧ s.isFile x = true)

def Allowed (reply : Reply) : Prop := ∃ path, reply = .opened path

theorem allowed_iff {locations : List (Bytes × Bytes)} {method matched subpath : Bytes} :
    Allowed (httpStaticDir s locations method (matched ++ subpath) (some matched)) ↔
      servedMethod method ∧ ∃ r c,
        Names s (locationRoot locations matched) (requestPath locations matched subpath) r c ∧
        Served s r c := by
  constructor
  · rintro ⟨path, reply⟩
    obtain ⟨served, r, c, names, inside, opened⟩ := httpStaticDir_opened.mp reply
    refine ⟨served, r, c, names, inside, ?_⟩
    rcases (serveFile_opened names.2.2).mp opened with ⟨file, _⟩ | ⟨dir, x, index, file, _⟩
    · exact Or.inl file
    · exact Or.inr ⟨dir, x, index, file⟩
  · rintro ⟨served, r, c, names, inside, file | ⟨dir, x, index, file⟩⟩
    · exact ⟨_, httpStaticDir_opened.mpr ⟨served, r, c, names, inside,
        (serveFile_opened names.2.2).mpr (Or.inl ⟨file, rfl⟩)⟩⟩
    · exact ⟨_, httpStaticDir_opened.mpr ⟨served, r, c, names, inside,
        (serveFile_opened names.2.2).mpr (Or.inr ⟨dir, x, index, file, rfl⟩)⟩⟩

/-- The index file of the directory `c` is let through for the directory as it is by its name,
`explicit`. The first two cases are those of a path or a chain of links that is too long for
one of the two. -/
structure SameWay (s : System) (r c : Path) (explicit : Option Path) : Prop where
  only_index : ∀ x, s.index c = some x → explicit = none →
    ¬(insideRoot (render r) (render c) = true ∧ s.isFile x = true)
  only_explicit : ∀ x, s.index c = none → explicit = some x → ¬Served s r x
  file : ∀ x, s.index c = some x → explicit = some x → s.isFile x = true →
    (insideRoot (render r) (render c) = true ↔ insideRoot (render r) (render x) = true)
  dir : ∀ x, s.index c = some x → explicit = some x → s.isDir x = true → ¬Served s r x

theorem not_file (dir : s.isDir c = true) : s.isFile c = false := by
  rw [System.isDir] at dir
  rw [System.isFile]
  cases found : s.tree.lookup c with
  | none => rfl
  | some node =>
    rw [found] at dir
    cases node with
    | dir entries => rfl
    | _ => cases dir

theorem served_dir (dir : s.isDir c = true) :
    Served s r c ↔ insideRoot (render r) (render c) = true ∧
      ∃ x, s.index c = some x ∧ s.isFile x = true := by
  constructor
  · rintro ⟨inside, file | ⟨_, index⟩⟩
    · rw [not_file dir] at file
      cases file
    · exact ⟨inside, index⟩
  · rintro ⟨inside, index⟩
    exact ⟨inside, Or.inr ⟨dir, index⟩⟩

theorem served_file (file : s.isFile x = true) :
    Served s r x ↔ insideRoot (render r) (render x) = true :=
  ⟨fun h => h.1, fun inside => ⟨inside, Or.inl file⟩⟩

theorem index_kind (index : s.index c = some x) : s.isDir x = true ∨ s.isFile x = true := by
  obtain ⟨node, _, entry, dir, file⟩ := lookup_of (resolvePath_canonical index).1
  rw [dir, file]
  rcases node_cases node entry with ⟨isDir, _⟩ | ⟨_, isFile⟩
  · exact Or.inl isDir
  · exact Or.inr isFile

/-- `SameWay` is what makes the two requests equal. -/
theorem sameWay_iff {explicit : Option Path} (dir : s.isDir c = true)
    (same : ∀ e x, explicit = some e → s.index c = some x → e = x) :
    SameWay s r c explicit ↔ (Served s r c ↔ ∃ x, explicit = some x ∧ Served s r x) := by
  rw [served_dir dir]
  constructor
  · intro way
    constructor
    · rintro ⟨inside, x, index, file⟩
      cases found : explicit with
      | none => exact absurd ⟨inside, file⟩ (way.only_index x index found)
      | some e =>
        obtain rfl := same e x found index
        exact ⟨e, rfl, (served_file file).mpr ((way.file e index found file).mp inside)⟩
    · rintro ⟨e, found, served⟩
      cases index : s.index c with
      | none => exact absurd served (way.only_explicit e index found)
      | some x =>
        obtain rfl := same e x found index
        rcases index_kind index with dir' | file
        · exact absurd served (way.dir e index found dir')
        · exact ⟨(way.file e index found file).mpr served.1, e, rfl, file⟩
  · intro equal
    constructor
    · rintro x index none_found ⟨inside, file⟩
      obtain ⟨e, found, _⟩ := equal.mp ⟨inside, x, index, file⟩
      rw [none_found] at found
      cases found
    · intro e none_found found served
      obtain ⟨_, x, index, _⟩ := equal.mpr ⟨e, found, served⟩
      rw [none_found] at index
      cases index
    · intro x index found file
      constructor
      · intro inside
        obtain ⟨e, found', served⟩ := equal.mp ⟨inside, x, index, file⟩
        obtain rfl := Option.some.inj (found.symm.trans found')
        exact served.1
      · intro inside
        exact (equal.mpr ⟨x, found, (served_file file).mpr inside⟩).1
    · intro x index found dir' served
      obtain ⟨_, x', index', file⟩ := equal.mpr ⟨x, found, served⟩
      obtain rfl := Option.some.inj (index.symm.trans index')
      rw [not_file dir'] at file
      cases file

/-- A directory and its index file get the same verdict. -/
def SameVerdict (s : System) (locations : List (Bytes × Bytes)) (method matched subpath : Bytes) :
    Prop :=
  ∀ c, s.canonical (requestPath locations matched subpath) = some c → s.isDir c = true →
    (Allowed (httpStaticDir s locations method (matched ++ subpath) (some matched)) ↔
      Allowed (httpStaticDir s locations method (indexUri (matched ++ subpath)) (some matched)))

theorem explicit_long (locations : List (Bytes × Bytes)) (matched subpath : Bytes) :
    (requestPath locations matched subpath).length ≤
      (explicitPath locations matched subpath).length := by
  simp only [explicitPath, requestPath, List.length_append, List.length_cons]
  omega

theorem allowed_explicit {locations : List (Bytes × Bytes)} {method matched subpath : Bytes} :
    Allowed (httpStaticDir s locations method (indexUri (matched ++ subpath)) (some matched)) ↔
      servedMethod method ∧ ∃ r x, s.canonical (locationRoot locations matched) = some r ∧
        explicitIndex s locations matched subpath = some x ∧ Served s r x := by
  rw [indexUri_eq, List.append_assoc, allowed_iff, ← explicitPath, explicitIndex]
  constructor
  · rintro ⟨method, r, x, ⟨short, root, named⟩, served⟩
    exact ⟨method, r, x, root, by rw [if_pos short, named], served⟩
  · rintro ⟨method, r, x, root, named, served⟩
    split at named
    · rename_i short
      exact ⟨method, r, x, ⟨short, root, named⟩, served⟩
    · cases named

theorem sameVerdict_iff (s : System) (locations : List (Bytes × Bytes))
    (method matched subpath : Bytes) :
    SameVerdict s locations method matched subpath ↔
      (servedMethod method → ∀ r c,
        Names s (locationRoot locations matched) (requestPath locations matched subpath) r c →
        s.isDir c = true → SameWay s r c (explicitIndex s locations matched subpath)) := by
  have same {c : Path} (named : s.canonical (requestPath locations matched subpath) = some c)
      (e x : Path) (explicit : explicitIndex s locations matched subpath = some e)
      (index : s.index c = some x) : e = x := by
    rw [explicitIndex] at explicit
    split at explicit
    · exact explicit_index named explicit index
    · cases explicit
  constructor
  · intro verdict served r c names dir
    obtain ⟨short, root, named⟩ := names
    have equal := verdict c named dir
    rw [allowed_iff, allowed_explicit] at equal
    rw [sameWay_iff dir (same named)]
    constructor
    · intro here
      obtain ⟨_, r', x, root', explicit, there⟩ :=
        equal.mp ⟨served, r, c, ⟨short, root, named⟩, here⟩
      obtain rfl := Option.some.inj (root.symm.trans root')
      exact ⟨x, explicit, there⟩
    · rintro ⟨x, explicit, there⟩
      obtain ⟨_, r', c', ⟨_, root', named'⟩, here⟩ :=
        equal.mpr ⟨served, r, x, root, explicit, there⟩
      obtain rfl := Option.some.inj (root.symm.trans root')
      obtain rfl := Option.some.inj (named.symm.trans named')
      exact here
  · intro safe c named dir
    rw [allowed_iff, allowed_explicit]
    constructor
    · rintro ⟨served, r, c', ⟨short, root, named'⟩, here⟩
      obtain rfl := Option.some.inj (named.symm.trans named')
      have way := safe served r c ⟨short, root, named⟩ dir
      obtain ⟨x, explicit, there⟩ := ((sameWay_iff dir (same named)).mp way).mp here
      exact ⟨served, r, x, root, explicit, there⟩
    · rintro ⟨served, r, x, root, explicit, there⟩
      have short : (requestPath locations matched subpath).length < PATH_MAX - 1 := by
        rw [explicitIndex] at explicit
        split at explicit
        · rename_i short
          exact Nat.lt_of_le_of_lt (explicit_long locations matched subpath) short
        · cases explicit
      have way := safe served r c ⟨short, root, named⟩ dir
      have here := ((sameWay_iff dir (same named)).mp way).mpr ⟨x, explicit, there⟩
      exact ⟨served, r, c, ⟨short, root, named⟩, here⟩

/-- Static serving is confined to its root and the same for a directory and its index file if
and only if the index file of a directory is in the root with it and no limit is between
them. -/
theorem httpStaticDir_confined_iff (s : System) (locations : List (Bytes × Bytes))
    (method matched subpath : Bytes) :
    (Confined s (locationRoot locations matched)
        (httpStaticDir s locations method (matched ++ subpath) (some matched)) ∧
      SameVerdict s locations method matched subpath) ↔
    (servedMethod method → ∀ r c,
      Names s (locationRoot locations matched) (requestPath locations matched subpath) r c →
      s.isDir c = true →
      IndexInside s r c ∧ SameWay s r c (explicitIndex s locations matched subpath)) := by
  rw [confined_iff, sameVerdict_iff]
  constructor
  · rintro ⟨inside, way⟩ served r c names dir
    exact ⟨inside served r c names dir, way served r c names dir⟩
  · intro safe
    constructor
    · intro served r c names dir
      exact (safe served r c names dir).1
    · intro served r c names dir
      exact (safe served r c names dir).2

/-- `/w/d/index.html` is a link to `/s`. -/
def linkedIndex : System where
  tree := .dir [
    (⟨ascii "w", by decide, by decide, by decide, by decide⟩, .dir [
      (⟨ascii "d", by decide, by decide, by decide, by decide⟩, .dir [
        (indexName, .link (ascii "/s"))])]),
    (⟨ascii "s", by decide, by decide, by decide, by decide⟩, .file)]
  cwd := []
  links := 40

/-- With the root `/w` a request for `/d/` opens `/s`. -/
theorem httpStaticDir_unconfined : ¬∀ s locations method matched subpath,
    Confined s (locationRoot locations matched)
        (httpStaticDir s locations method (matched ++ subpath) (some matched)) ∧
      SameVerdict s locations method matched subpath := by
  intro all
  have confined := (all linkedIndex [(ascii "/", ascii "/w")] (ascii "GET") (ascii "/")
    (ascii "d/")).1
  have reply : httpStaticDir linkedIndex [(ascii "/", ascii "/w")] (ascii "GET")
      (ascii "/" ++ ascii "d/") (some (ascii "/")) = .opened (ascii "/w/d/index.html") := by
    decide +kernel
  have root : linkedIndex.canonical (locationRoot [(ascii "/", ascii "/w")] (ascii "/")) =
      some [⟨ascii "w", by decide, by decide, by decide, by decide⟩] := by decide +kernel
  have opens : linkedIndex.openFile (ascii "/w/d/index.html") =
      some [⟨ascii "s", by decide, by decide, by decide, by decide⟩] := by decide +kernel
  exact absurd (confined _ _ _ reply root opens) (by decide +kernel)

end StaticRoot
