import Mathlib.Data.List.Basic
import Mathlib.Data.List.Infix

/-!
# Trees of files and path resolution

Directories, regular files and symbolic links, and how POSIX resolves a path: a link in the
path is replaced with its text, and a resolution follows a limited number of links. A path
that is resolved is a list of names from the root; it goes through no link.
-/

namespace FileTree

abbrev Text := List UInt8

/-- A name that stands for an entry of a directory. -/
structure Name where
  text : Text
  nonempty : text ≠ []
  no_slash : 47 ∉ text
  no_dot : text ≠ [46]
  no_dots : text ≠ [46, 46]
  deriving DecidableEq

inductive Node where
  | dir (entries : List (Name × Node))
  | file
  | link (target : Text)

abbrev Path := List Name

def Node.isDir : Node → Bool
  | .dir _ => true
  | _ => false

def Node.isFile : Node → Bool
  | .file => true
  | _ => false

def Node.isLink : Node → Bool
  | .link _ => true
  | _ => false

def Node.child : Node → Name → Option Node
  | .dir entries, n => (entries.find? (·.1 = n)).map Prod.snd
  | _, _ => none

/-- What is at a path; no link is followed. -/
def Node.lookup : Node → Path → Option Node
  | node, [] => some node
  | node, n :: path => (node.child n).bind (·.lookup path)

inductive Step where
  | here
  | up
  | name (n : Name)
  deriving DecidableEq

/-- The texts between the slashes. -/
def components : Text → List Text
  | [] => [[]]
  | c :: s =>
    if c = 47 then [] :: components s
    else match components s with
      | [] => [[c]]
      | first :: rest => (c :: first) :: rest

/-- An empty component is a dot. -/
def step (component : Text) : Step :=
  if component = [46, 46] then .up
  else if h : component ≠ [] ∧ 47 ∉ component ∧ component ≠ [46] ∧ component ≠ [46, 46] then
    .name ⟨component, h.1, h.2.1, h.2.2.1, h.2.2.2⟩
  else .here

def steps (path : Text) : List Step := (components path).map step

def absolute (path : Text) : Bool := path.head? = some 47

/-- A slash in front of every name. -/
def text (path : Path) : Text := path.flatMap fun n => 47 :: n.text

def render (path : Path) : Text := if path = [] then [47] else text path

section

variable (tree : Node) (follow : Path → List Step → Option Path)

/-- Steps up to the next link, which `follow` goes on from. -/
def walk : Path → List Step → Option Path
  | path, [] => some path
  | path, s :: todo =>
    if (tree.lookup path).any Node.isDir then match s with
      | .here => walk path todo
      | .up => walk path.dropLast todo
      | .name n => match tree.lookup (path ++ [n]) with
        | none => none
        | some (.link target) => follow (if absolute target then [] else path) (steps target ++ todo)
        | some _ => walk (path ++ [n]) todo
    else none

/-- A resolution that follows `links` links at most. -/
def resolve : Nat → Path → List Step → Option Path
  | 0 => walk tree fun _ _ => none
  | links + 1 => walk tree (resolve links)

end

variable {tree : Node} {follow follow' : Path → List Step → Option Path} {path path' : Path}
  {todo : List Step} {links : Nat}

theorem lookup_append (tree : Node) (path path' : Path) :
    tree.lookup (path ++ path') = (tree.lookup path).bind (·.lookup path') := by
  induction path generalizing tree with
  | nil => rfl
  | cons n path ih =>
    rw [List.cons_append, Node.lookup, Node.lookup, Option.bind_assoc]
    congr 1
    funext node
    exact ih node

theorem isDir_of_child {node child : Node} {n : Name} (h : node.child n = some child) :
    node.isDir = true := by
  cases node with
  | dir entries => rfl
  | _ => cases h

/-- Every path to an entry goes through directories. -/
theorem dir_of_lookup {node : Node} (h : tree.lookup (path ++ path') = some node)
    (more : path' ≠ []) : (tree.lookup path).any Node.isDir = true := by
  rw [lookup_append] at h
  obtain ⟨between, found, rest⟩ := Option.bind_eq_some_iff.mp h
  rw [found]
  cases path' with
  | nil => exact absurd rfl more
  | cons n path' =>
    rw [Node.lookup] at rest
    obtain ⟨child, found', _⟩ := Option.bind_eq_some_iff.mp rest
    exact isDir_of_child found'

/-- There is something at the path, and it is no link. -/
def Canonical (tree : Node) (path : Path) : Prop :=
  ∃ node, tree.lookup path = some node ∧ node.isLink = false

theorem canonical_of_isDir (h : (tree.lookup path).any Node.isDir = true) :
    Canonical tree path := by
  cases found : tree.lookup path with
  | none =>
    rw [found] at h
    cases h
  | some node =>
    rw [found] at h
    cases node with
    | dir entries => exact ⟨.dir entries, found, rfl⟩
    | _ => cases h

theorem dir_root (h : (tree.lookup path).any Node.isDir = true) :
    (tree.lookup []).any Node.isDir = true := by
  cases path with
  | nil => exact h
  | cons n path =>
    obtain ⟨node, found, _⟩ := canonical_of_isDir h
    exact @dir_of_lookup tree [] (n :: path) node found (List.cons_ne_nil n path)

theorem dir_dropLast (h : (tree.lookup path).any Node.isDir = true) :
    (tree.lookup path.dropLast).any Node.isDir = true := by
  rcases List.eq_nil_or_concat path with rfl | ⟨init, n, rfl⟩
  · exact h
  · rw [List.concat_eq_append] at h ⊢
    obtain ⟨node, found, _⟩ := canonical_of_isDir h
    rw [List.dropLast_concat]
    exact dir_of_lookup found (List.cons_ne_nil n [])

theorem walk_cons (s : Step) (todo : List Step) : walk tree follow path (s :: todo) =
    if (tree.lookup path).any Node.isDir then match s with
      | .here => walk tree follow path todo
      | .up => walk tree follow path.dropLast todo
      | .name n => match tree.lookup (path ++ [n]) with
        | none => none
        | some (.link target) =>
          follow (if absolute target then [] else path) (steps target ++ todo)
        | some _ => walk tree follow (path ++ [n]) todo
    else none := rfl

theorem walk_here (dir : (tree.lookup path).any Node.isDir = true) :
    walk tree follow path (.here :: todo) = walk tree follow path todo := by
  rw [walk_cons, if_pos dir]

/-- An entry that is no link. -/
theorem walk_entry {n : Name} {node : Node} (found : tree.lookup (path ++ [n]) = some node)
    (entry : node.isLink = false) :
    walk tree follow path (.name n :: todo) = walk tree follow (path ++ [n]) todo := by
  rw [walk_cons, if_pos (dir_of_lookup found (List.cons_ne_nil n []))]
  dsimp only
  rw [found]
  cases node with
  | link target => cases entry
  | _ => rfl

theorem walk_link {n : Name} {target : Text}
    (found : tree.lookup (path ++ [n]) = some (.link target)) :
    walk tree follow path (.name n :: todo) =
      follow (if absolute target then [] else path) (steps target ++ todo) := by
  rw [walk_cons, if_pos (dir_of_lookup found (List.cons_ne_nil n []))]
  dsimp only
  rw [found]

/-- The ways on for a walk that ends somewhere. -/
theorem walk_cases {s : Step} {last : Path} (h : walk tree follow path (s :: todo) = some last) :
    (tree.lookup path).any Node.isDir = true ∧
    ((s = .here ∧ walk tree follow path todo = some last) ∨
    (s = .up ∧ walk tree follow path.dropLast todo = some last) ∨
    (∃ n node, s = .name n ∧ tree.lookup (path ++ [n]) = some node ∧ node.isLink = false ∧
      walk tree follow (path ++ [n]) todo = some last) ∨
    (∃ n target, s = .name n ∧ tree.lookup (path ++ [n]) = some (.link target) ∧
      follow (if absolute target then [] else path) (steps target ++ todo) = some last)) := by
  rw [walk_cons] at h
  split at h
  · rename_i dir
    refine ⟨dir, ?_⟩
    cases s with
    | here => exact Or.inl ⟨rfl, h⟩
    | up => exact Or.inr (Or.inl ⟨rfl, h⟩)
    | name n =>
      right
      right
      dsimp only at h
      cases found : tree.lookup (path ++ [n]) with
      | none =>
        rw [found] at h
        cases h
      | some node =>
        rw [found] at h
        cases node with
        | link target => exact Or.inr ⟨n, target, rfl, found, h⟩
        | dir entries => exact Or.inl ⟨n, .dir entries, rfl, found, rfl, h⟩
        | file => exact Or.inl ⟨n, .file, rfl, found, rfl, h⟩
  · cases h

theorem walk_canonical {last : Path}
    (continues : ∀ path todo last, Canonical tree path → follow path todo = some last →
      Canonical tree last) (start : Canonical tree path)
    (h : walk tree follow path todo = some last) : Canonical tree last := by
  induction todo generalizing path with
  | nil =>
    cases h
    exact start
  | cons s todo ih =>
    obtain ⟨dir, ⟨_, h⟩ | ⟨_, h⟩ | ⟨n, node, _, found, entry, h⟩ | ⟨n, target, _, _, h⟩⟩ :=
      walk_cases h
    · exact ih start h
    · exact ih (canonical_of_isDir (dir_dropLast dir)) h
    · exact ih ⟨node, found, entry⟩ h
    · refine continues _ _ _ ?_ h
      split
      · exact canonical_of_isDir (dir_root dir)
      · exact start

theorem resolve_canonical {last : Path} (start : Canonical tree path)
    (h : resolve tree links path todo = some last) : Canonical tree last := by
  induction links generalizing path todo last with
  | zero =>
    refine walk_canonical (fun _ _ _ _ none_followed => ?_) start h
    cases none_followed
  | succ links ih => exact walk_canonical (fun _ _ _ start h => ih start h) start h

theorem walk_mono {last : Path} (weaker : ∀ path todo last, follow path todo = some last →
      follow' path todo = some last) (h : walk tree follow path todo = some last) :
    walk tree follow' path todo = some last := by
  induction todo generalizing path with
  | nil => exact h
  | cons s todo ih =>
    obtain ⟨dir, ⟨rfl, next⟩ | ⟨rfl, next⟩ | ⟨n, node, rfl, found, entry, next⟩ |
      ⟨n, target, rfl, found, next⟩⟩ := walk_cases h
    · rw [walk_here dir]
      exact ih next
    · rw [walk_cons, if_pos dir]
      exact ih next
    · rw [walk_entry found entry]
      exact ih next
    · rw [walk_link found]
      exact weaker _ _ _ next

theorem resolve_succ {last : Path} (h : resolve tree links path todo = some last) :
    resolve tree (links + 1) path todo = some last := by
  induction links generalizing path todo last with
  | zero =>
    refine walk_mono (fun _ _ _ none_followed => ?_) h
    cases none_followed
  | succ links ih => exact walk_mono (fun _ _ _ h => ih h) h

/-- A resolution stays the same when more links may be followed. -/
theorem resolve_mono {more : Nat} {last : Path} (le : links ≤ more)
    (h : resolve tree links path todo = some last) : resolve tree more path todo = some last := by
  induction le with
  | refl => exact h
  | step _ ih => exact resolve_succ ih

theorem walk_append {more : List Step} {last : Path} {P : Path → Prop}
    (continues : ∀ path todo, follow path (todo ++ more) = some last →
      ∃ between, follow path todo = some between ∧ P between)
    (stop : ∀ path, walk tree follow path more = some last → P path)
    (h : walk tree follow path (todo ++ more) = some last) :
    ∃ between, walk tree follow path todo = some between ∧ P between := by
  induction todo generalizing path with
  | nil => exact ⟨path, rfl, stop path h⟩
  | cons s todo ih =>
    obtain ⟨dir, ⟨rfl, next⟩ | ⟨rfl, next⟩ | ⟨n, node, rfl, found, entry, next⟩ |
      ⟨n, target, rfl, found, next⟩⟩ := walk_cases h
    · rw [walk_here dir]
      exact ih next
    · rw [walk_cons, if_pos dir]
      exact ih next
    · rw [walk_entry found entry]
      exact ih next
    · rw [walk_link found]
      exact continues _ _ ((congrArg _ (List.append_assoc _ _ _)).trans next)

/-- The second part of a path is resolved from where the first part comes to, with the links
that are left. -/
theorem resolve_append {more : List Step} {last : Path}
    (h : resolve tree links path (todo ++ more) = some last) :
    ∃ between, resolve tree links path todo = some between ∧
      ∃ left ≤ links, resolve tree left between more = some last := by
  induction links generalizing path todo with
  | zero =>
    exact walk_append (P := fun between => ∃ left ≤ 0, resolve tree left between more = some last)
      (fun _ _ none_followed => by cases none_followed) (fun path h => ⟨0, Nat.le_refl 0, h⟩) h
  | succ links ih =>
    refine walk_append
      (P := fun between => ∃ left ≤ links + 1, resolve tree left between more = some last) ?_
      (fun path h => ⟨links + 1, Nat.le_refl _, h⟩) h
    intro path todo h
    obtain ⟨between, first, left, le, second⟩ := ih h
    exact ⟨between, first, left, Nat.le_succ_of_le le, second⟩

theorem components_ne_nil (s : Text) : components s ≠ [] := by
  cases s with
  | nil => exact List.cons_ne_nil _ _
  | cons c s =>
    rw [components]
    split
    · exact List.cons_ne_nil _ _
    · cases components s with
      | nil => exact List.cons_ne_nil _ _
      | cons first rest => exact List.cons_ne_nil _ _

theorem components_append (a b : Text) :
    components (a ++ 47 :: b) = components a ++ components b := by
  induction a with
  | nil => rfl
  | cons c a ih =>
    rw [List.cons_append, components, components, ih]
    split
    · rfl
    · obtain ⟨first, rest, same⟩ := List.exists_cons_of_ne_nil (components_ne_nil a)
      rw [same]
      rfl

theorem components_name {s : Text} (no_slash : 47 ∉ s) : components s = [s] := by
  induction s with
  | nil => rfl
  | cons c s ih =>
    rw [List.mem_cons, not_or] at no_slash
    rw [components, if_neg (Ne.symm no_slash.1), ih no_slash.2]

theorem step_name (n : Name) : step n.text = .name n := by
  rw [step, if_neg n.no_dots, dif_pos ⟨n.nonempty, n.no_slash, n.no_dot, n.no_dots⟩]

theorem steps_name (n : Name) : steps n.text = [.name n] := by
  rw [steps, components_name n.no_slash, List.map_singleton, step_name]

theorem steps_append (a b : Text) : steps (a ++ 47 :: b) = steps a ++ steps b := by
  rw [steps, components_append, List.map_append]
  rfl

theorem steps_text (path : Path) (s : Text) :
    steps (text path ++ 47 :: s) = .here :: (path.map .name ++ steps s) := by
  induction path with
  | nil => rfl
  | cons n path ih =>
    have whole : text (n :: path) ++ 47 :: s = [] ++ 47 :: (n.text ++ (text path ++ 47 :: s)) := by
      simp [text]
    have rest : ∃ s', text path ++ 47 :: s = 47 :: s' := by
      cases path with
      | nil => exact ⟨s, rfl⟩
      | cons m path => exact ⟨_, rfl⟩
    obtain ⟨s', same⟩ := rest
    have behind : steps (47 :: s') = .here :: steps s' := steps_append [] s'
    rw [same, behind, List.cons.injEq] at ih
    rw [whole, same, steps_append, steps_append, steps_name, ih.2]
    rfl

/-- A path without links is resolved name by name. -/
theorem walk_names (canonical : Canonical tree (path ++ path')) :
    walk tree follow path (path'.map .name ++ todo) = walk tree follow (path ++ path') todo := by
  induction path' generalizing path with
  | nil => rw [List.map_nil, List.nil_append, List.append_nil]
  | cons n path' ih =>
    have split : path ++ n :: path' = path ++ [n] ++ path' := by
      rw [List.append_assoc]
      rfl
    rw [split] at canonical ⊢
    have entry : Canonical tree (path ++ [n]) := by
      cases path' with
      | nil =>
        rw [List.append_nil] at canonical
        exact canonical
      | cons m path' =>
        obtain ⟨node, found, _⟩ := canonical
        exact canonical_of_isDir (dir_of_lookup found (List.cons_ne_nil _ _))
    obtain ⟨node, found, noLink⟩ := entry
    rw [List.map_cons, List.cons_append, walk_entry found noLink, ih canonical]

theorem resolve_names (canonical : Canonical tree (path ++ path')) :
    resolve tree links path (path'.map .name ++ todo) = resolve tree links (path ++ path') todo := by
  cases links with
  | zero => exact walk_names canonical
  | succ links => exact walk_names canonical

theorem resolve_here {s : Step} :
    resolve tree links path (.here :: s :: todo) = resolve tree links path (s :: todo) := by
  have same (follow : Path → List Step → Option Path) :
      walk tree follow path (.here :: s :: todo) = walk tree follow path (s :: todo) := by
    cases dir : (tree.lookup path).any Node.isDir with
    | true => exact walk_here dir
    | false => rw [walk_cons, walk_cons, dir, if_neg Bool.false_ne_true, if_neg Bool.false_ne_true]
  cases links with
  | zero => exact same _
  | succ links => exact same _

theorem steps_cons (s : Text) : ∃ first rest, steps s = first :: rest := by
  obtain ⟨first, rest, same⟩ := List.exists_cons_of_ne_nil (components_ne_nil s)
  exact ⟨step first, rest.map step, by rw [steps, same]; rfl⟩

/-- Behind the text of a path without links resolution goes on from the path. -/
theorem resolve_render (canonical : Canonical tree path) (s : Text) :
    resolve tree links [] (steps (render path ++ 47 :: s)) = resolve tree links path (steps s) := by
  obtain ⟨first, rest, same⟩ := steps_cons s
  rw [render]
  split
  · rename_i empty
    subst empty
    have whole : steps ([47] ++ 47 :: s) = .here :: .here :: steps s :=
      (steps_append [47] s).trans rfl
    rw [whole, same, resolve_here, resolve_here]
  · rw [steps_text, same]
    cases path with
    | nil => rw [List.map_nil, List.nil_append, resolve_here]
    | cons n path =>
      rw [List.map_cons, List.cons_append, resolve_here, ← List.cons_append, ← List.map_cons,
        resolve_names canonical, List.nil_append]

theorem resolve_dir {s : Step} {last : Path}
    (h : resolve tree links path (s :: todo) = some last) :
    (tree.lookup path).any Node.isDir = true := by
  cases links with
  | zero => exact (walk_cases h).1
  | succ links => exact (walk_cases h).1

theorem resolve_nil (tree : Node) (links : Nat) (path : Path) :
    resolve tree links path [] = some path := by
  cases links with
  | zero => rfl
  | succ links => rfl

theorem resolve_last_here {last : Path} (h : resolve tree links path [.here] = some last) :
    last = path := by
  have dir := resolve_dir h
  have same : resolve tree links path [.here] = some path := by
    cases links with
    | zero => exact walk_here dir
    | succ links => exact walk_here dir
  exact Option.some.inj (h.symm.trans same)

/-- The text of a path without links is resolved to the path. -/
theorem resolve_self (canonical : Canonical tree path) (root : tree.isDir = true) :
    resolve tree links [] (steps (render path)) = some path := by
  rw [render]
  split
  · rename_i empty
    subst empty
    have last : resolve tree links [] [.here] = resolve tree links [] [] := by
      cases links with
      | zero => exact walk_here root
      | succ links => exact walk_here root
    exact resolve_here.trans (last.trans (resolve_nil tree links []))
  · rename_i nonempty
    rcases List.eq_nil_or_concat path with rfl | ⟨init, n, rfl⟩
    · exact absurd rfl nonempty
    · rw [List.concat_eq_append] at canonical ⊢
      have whole : text (init ++ [n]) = text init ++ 47 :: n.text := by simp [text]
      have names : steps (text (init ++ [n])) = .here :: ((init ++ [n]).map .name ++ []) := by
        rw [whole, steps_text, steps_name, List.map_append, List.append_nil]
        rfl
      have first : resolve tree links [] (.here :: ((init ++ [n]).map .name ++ [])) =
          resolve tree links [] ((init ++ [n]).map .name ++ []) := by
        cases init with
        | nil => exact resolve_here
        | cons m init => exact resolve_here
      rw [names, first]
      have names' : resolve tree links [] ((init ++ [n]).map .name ++ []) =
          resolve tree links ([] ++ (init ++ [n])) [] := resolve_names canonical
      exact names'.trans (resolve_nil tree links _)

/-- The end of the text, or a slash. -/
def Ends (s : Text) : Prop := s = [] ∨ ∃ rest, s = 47 :: rest

theorem text_ends (path : Path) : Ends (text path) := by
  cases path with
  | nil => exact Or.inl rfl
  | cons n path => exact Or.inr ⟨_, rfl⟩

theorem name_unique {a b x y : Text} (ha : 47 ∉ a) (hb : 47 ∉ b) (hx : Ends x) (hy : Ends y)
    (same : a ++ x = b ++ y) : a = b ∧ x = y := by
  have taken {a x : Text} (no_slash : 47 ∉ a) (ends : Ends x) :
      (a ++ x).takeWhile (· ≠ 47) = a := by
    have here : x.takeWhile (· ≠ 47) = [] := by
      rcases ends with rfl | ⟨rest, rfl⟩
      · rfl
      · rfl
    rw [List.takeWhile_append_of_pos, here, List.append_nil]
    intro c listed
    rw [decide_eq_true_iff]
    rintro rfl
    exact no_slash listed
  have first : a = b := by
    rw [← taken ha hx, ← taken hb hy, same]
  subst first
  exact ⟨rfl, List.append_cancel_left same⟩

/-- A text that goes on behind the text of a path with a slash is that of a path below. -/
theorem text_prefix {rest : Text} (ends : Ends rest) (same : text path ++ rest = text path') :
    ∃ more, path' = path ++ more := by
  induction path generalizing path' with
  | nil => exact ⟨path', rfl⟩
  | cons n path ih =>
    cases path' with
    | nil => cases same
    | cons m path' =>
      have split (n : Name) (path : Path) : text (n :: path) = 47 :: (n.text ++ text path) := rfl
      rw [split, split, List.cons_append, List.append_assoc, List.cons.injEq] at same
      have behind : Ends (text path ++ rest) := by
        cases path with
        | nil => exact ends
        | cons k path => exact Or.inr ⟨_, rfl⟩
      obtain ⟨names, later⟩ := name_unique n.no_slash m.no_slash behind (text_ends path') same.2
      obtain ⟨more, rfl⟩ := ih later
      have equal : n = m := by
        cases n
        cases m
        cases names
        rfl
      exact ⟨more, by rw [equal]; rfl⟩

end FileTree
