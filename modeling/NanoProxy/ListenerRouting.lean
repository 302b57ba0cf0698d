import Mathlib.Data.List.Induction
import NanoProxy.HttpRequestParser
import NanoProxy.StbDsRuns

/-!
# Which dispatch entry answers a request (server.c, include/request.h)

`main` writes the dispatch entries of the configuration into the tables of handlers and of
locations; `http_dispatcher` picks a handler from the first and the handler looks up a
location in the second. Each table entry is kept with the dispatch entry it was made for,
which the program does not record.

`global_http_handlers` is a table of stb_ds: `σ` is the seed at the time of its first entry, and
a path that is put again may get the key of another entry. `none` stands for a key that is not
initialised.
-/

namespace ListenerRouting

open CLib HttpRequestParser StringMap
open StbDs (Table hashString shputsAll keepsKeys newHeader firstSeed seedAfter)

def SLASH : UInt8 := 47
def QUESTION : UInt8 := 63

inductive HttpHandler where
  | httpStaticDir
  | proxyHandler
  | helloHttpHandler
  deriving DecidableEq, Inhabited

structure Keepalive where
  poolSize : Int
  idleTimeout : Int
  deriving DecidableEq

/-- An entry whose handler is neither "dns" nor "jit" nor "forward". -/
structure DispatchEntry where
  listener : Bytes
  path : Option Bytes
  proxyPass : Option Bytes
  root : Option Bytes
  proxyKeepalive : Option Keepalive
  deriving DecidableEq

structure ListenEntry where
  name : Option Bytes
  uri : Bytes
  deriving DecidableEq

structure Location where
  realPath : Bytes
  proxyKeepalive : Option Keepalive
  deriving DecidableEq

/-- A value, and the entry that `main` was at when it was made. -/
structure Made (α : Type) where
  value : α
  origin : Option DispatchEntry
  deriving DecidableEq, Inhabited

abbrev PathTable := List (Bytes × Made HttpHandler)

/-- The keys of `base_handlers` are put only where they are missing. -/
structure Tables where
  baseHandlers : List (Bytes × PathTable)
  globalHttpHandlers : Table Bytes (Made HttpHandler)
  locations : List (Bytes × Made Location)

def noTables : Tables := ⟨[], none, []⟩

/-- The entries of `global_http_handlers`, in the order of the loop over them. -/
def Tables.global (t : Tables) : PathTable := (t.globalHttpHandlers.getD newHeader).entries

/-- The keys of `locations` are compared as pointers when an entry is put, and every key is a
new one. -/
def addLocation (pfx : Bytes) (loc : Made Location) (t : Tables) : Tables :=
  { t with locations := t.locations ++ [(pfx, loc)] }

def setLocationKeepalive (pfx : Bytes) (ka : Keepalive) (t : Tables) : Tables :=
  { t with locations := adjust pfx (fun loc =>
      { loc with value := { loc.value with proxyKeepalive := some ka } }) t.locations }

/-- The entry of a base URI is made if it is missing. The path goes into a table that only
the local `paths` points to: the value in `base_handlers` is never written. -/
def addBaseHandler (baseUri : Bytes) (t : Tables) : Tables :=
  { t with baseHandlers :=
      if (get baseUri t.baseHandlers).isSome then t.baseHandlers
      else put baseUri [] t.baseHandlers }

def addHandler (σ : UInt64) (uri : Bytes) (handler : Made HttpHandler) (t : Tables) :
    Option Tables :=
  if Limits.default.maxUrlSize < uri.length then some t
  else if uri.head? = some SLASH then
    match StbDs.shputs hashString σ t.globalHttpHandlers uri handler with
    | none => none
    | some table => some { t with globalHttpHandlers := table }
  else match strstr (ascii "://") uri with
    | none => some t
    | some schemeLen =>
      if schemeLen = 0 || 16 ≤ schemeLen then some t
      else
        let scheme := uri.take schemeLen
        if scheme = ascii "http" || scheme = ascii "https" then
          some (addBaseHandler ((memchr uri SLASH (schemeLen + 3)).elim uri uri.take) t)
        -- the table of the socket handlers is none of these
        else some t

def closeSlash (buf : Bytes) : Bytes := if buf.getLast? = some SLASH then buf else buf ++ [SLASH]

/-- `/api/**` and `/api/*` are `/api/`. -/
def normalizePath (raw : Bytes) : Bytes :=
  let rlen := raw.length
  if 2 ≤ rlen && rlen < 255 then
    if 3 ≤ rlen && raw.drop (rlen - 3) = ascii "/**" then closeSlash (raw.take (rlen - 2))
    else if raw.drop (rlen - 2) = ascii "/*" then closeSlash (raw.take (rlen - 1))
    else raw
  else raw

def pathOf (de : DispatchEntry) : Bytes := normalizePath (de.path.getD [SLASH])

def wireEntry (σ : UInt64) (de : DispatchEntry) (t : Tables) : Option Tables :=
  let pfx := pathOf de
  match de.proxyPass with
  | some target =>
    let t := addLocation pfx ⟨⟨target, none⟩, some de⟩ t
    let t := match de.proxyKeepalive with
      | some ka => setLocationKeepalive pfx ka t
      | none => t
    addHandler σ pfx ⟨.proxyHandler, some de⟩ t
  | none => match de.root with
    | some root =>
      addHandler σ pfx ⟨.httpStaticDir, some de⟩ (addLocation pfx ⟨⟨root, none⟩, some de⟩ t)
    | none => some t

def wireAll (σ : UInt64) (dispatch : List DispatchEntry) : Option Tables :=
  dispatch.foldlM (fun t de => wireEntry σ de t) noTables

def serveHtml (σ : UInt64) (t : Tables) : Option Tables :=
  addHandler σ [SLASH] ⟨.httpStaticDir, none⟩ (addLocation [SLASH] ⟨⟨ascii "html", none⟩, none⟩ t)

/-- The tables after `main` has loaded a configuration. -/
def main (σ : UInt64) (dispatch : List DispatchEntry) : Option Tables :=
  if dispatch = [] then do
    let t ← serveHtml σ (← serveHtml σ (← wireAll σ []))
    addHandler σ (ascii "/hello") ⟨.helloHttpHandler, none⟩ t
  else wireAll σ dispatch

def matchesBase (uri key : Bytes) : Bool :=
  if key.getLast? = some SLASH then key <+: uri else uri = key

def matchesGlobal (uri key : Bytes) : Bool :=
  if key.getLast? = some SLASH then key <+: uri
  else key <+: uri && ((uri.drop key.length).head? = some SLASH ||
    (uri.drop key.length).head? = some QUESTION || uri.length = key.length)

/-- `best_key` and `best_h`. -/
def bestHandler (t : Tables) (listenUri uri : Bytes) : Option (Bytes × Made HttpHandler) :=
  let paths := (get listenUri t.baseHandlers).getD []
  scan (matchesGlobal uri) List.length (scan (matchesBase uri) List.length none paths) t.global

/-- What answers a request: the handler and the location that it looks up by
`matched_prefix`. -/
structure Answer where
  handler : Made HttpHandler
  location : Option (Made Location)
  deriving DecidableEq

/-- Without a handler of the tables, `default_http_handler` answers. -/
def httpDispatcher (t : Tables) (listenUri uri : Bytes) : Option Answer :=
  match bestHandler t listenUri uri with
  | none => none
  | some (key, h) => match h.value with
    | .helloHttpHandler => some ⟨h, none⟩
    | .httpStaticDir | .proxyHandler => some ⟨h, get key t.locations⟩

/-- The entry names a root or an upstream. -/
def wired (de : DispatchEntry) : Bool := de.proxyPass.isSome || de.root.isSome

def handlerOf (de : DispatchEntry) : Made HttpHandler :=
  ⟨if de.proxyPass.isSome then .proxyHandler else .httpStaticDir, some de⟩

def keepaliveOf (de : DispatchEntry) : Option Keepalive :=
  if de.proxyPass.isSome then de.proxyKeepalive else none

def realPathOf (de : DispatchEntry) : Bytes := de.proxyPass.getD (de.root.getD [])

def locationOf (de : DispatchEntry) : Made Location :=
  ⟨⟨realPathOf de, keepaliveOf de⟩, some de⟩

/-- The entry is for requests like this one, on whatever listener. -/
def Fits (uri : Bytes) (de : DispatchEntry) : Prop :=
  wired de = true ∧ matchesGlobal uri (pathOf de) = true

/-- An entry of this listener. -/
def Own (l : ListenEntry) (uri : Bytes) (de : DispatchEntry) : Prop :=
  l.name = some de.listener ∧ Fits uri de

/-- The answer comes from the longest of the listener's own entries, or from none. -/
def AnsweredAlone (dispatch : List DispatchEntry) (l : ListenEntry) (uri : Bytes)
    (answer : Option Answer) : Prop :=
  (∃ de ∈ dispatch, Own l uri de ∧
    (∀ other ∈ dispatch, Own l uri other → (pathOf other).length ≤ (pathOf de).length) ∧
    answer = some ⟨handlerOf de, some (locationOf de)⟩) ∨
  ((∀ de ∈ dispatch, ¬ Own l uri de) ∧
    ∀ a ∈ answer, a.handler.origin = none ∧ ∀ loc ∈ a.location, loc.origin = none)

/-- The tables are made, and the request is answered by entries of its listener alone. -/
def Isolated (σ : UInt64) (dispatch : List DispatchEntry) (l : ListenEntry) (uri : Bytes) : Prop :=
  ∃ t ∈ main σ dispatch, AnsweredAlone dispatch l uri (httpDispatcher t l.uri uri)

/-- `addHandler` puts the path into the table of all listeners. -/
def registers (path : Bytes) : Bool :=
  path.length ≤ Limits.default.maxUrlSize && path.head? = some SLASH

/-- An entry that `main` wires under this path. -/
def underPath (path : Bytes) (de : DispatchEntry) : Bool := wired de && pathOf de = path

instance (uri : Bytes) (de : DispatchEntry) : Decidable (Fits uri de) :=
  inferInstanceAs (Decidable (_ ∧ _))

instance (l : ListenEntry) (uri : Bytes) (de : DispatchEntry) : Decidable (Own l uri de) :=
  inferInstanceAs (Decidable (_ ∧ _))

instance (dispatch : List DispatchEntry) (l : ListenEntry) (uri : Bytes)
    (answer : Option Answer) : Decidable (AnsweredAlone dispatch l uri answer) :=
  inferInstanceAs (Decidable (_ ∨ _))

instance (σ : UInt64) (dispatch : List DispatchEntry) (l : ListenEntry) (uri : Bytes) :
    Decidable (Isolated σ dispatch l uri) := inferInstanceAs (Decidable (∃ t ∈ main σ dispatch, _))

/-- The calls of `shputs` for the paths of the entries. -/
def pathPuts (σ : UInt64) (dispatch : List DispatchEntry) :
    List (UInt64 × Bytes × Made HttpHandler) :=
  (dispatch.filter fun de => wired de && registers (pathOf de)).map fun de =>
    (σ, pathOf de, handlerOf de)

/-- Every path is stored under itself. -/
def KeepsPaths (σ : UInt64) (dispatch : List DispatchEntry) : Prop :=
  keepsKeys hashString none (pathPuts σ dispatch) = true

instance (σ : UInt64) (dispatch : List DispatchEntry) : Decidable (KeepsPaths σ dispatch) :=
  inferInstanceAs (Decidable (_ = true))

/-- An own entry fits whose path begins with a slash, no entry of any listener has a longer
path that fits, and of the entries with this very path, on whatever listener, it is both the
first and the last one, and no other has upstream connections kept alive if it has not. Or no
entry fits, save those of other listeners whose path does not begin with a slash. -/
def Unshared (dispatch : List DispatchEntry) (l : ListenEntry) (uri : Bytes) : Prop :=
  (∃ de ∈ dispatch, Own l uri de ∧ registers (pathOf de) = true ∧
    (∀ other ∈ dispatch, Fits uri other →
      l.name = some other.listener ∨ registers (pathOf other) = true →
      (pathOf other).length ≤ (pathOf de).length) ∧
    dispatch.find? (underPath (pathOf de)) = some de ∧
    dispatch.reverse.find? (underPath (pathOf de)) = some de ∧
    (keepaliveOf de = none →
      ∀ other ∈ dispatch, underPath (pathOf de) other = true → keepaliveOf other = none)) ∨
  ∀ de ∈ dispatch, Fits uri de →
    ¬ l.name = some de.listener ∧ registers (pathOf de) = false

instance (dispatch : List DispatchEntry) (l : ListenEntry) (uri : Bytes) :
    Decidable (Unshared dispatch l uri) := inferInstanceAs (Decidable (_ ∨ _))

variable {σ : UInt64} {dispatch : List DispatchEntry} {de : DispatchEntry} {uri path : Bytes}
  {t t' : Tables} {table : Table Bytes (Made HttpHandler)}

/-- No base URI has a path. -/
def Pathless (t : Tables) : Prop := ∀ e ∈ t.baseHandlers, e.2 = []

theorem addBaseHandler_pathless (baseUri : Bytes) (empty : Pathless t) :
    Pathless (addBaseHandler baseUri t) := by
  unfold Pathless addBaseHandler
  dsimp only
  split
  · exact empty
  · exact put_forall empty rfl

/-- What `addHandler` makes of the table of all listeners. -/
def stored (σ : UInt64) (path : Bytes) (h : Made HttpHandler)
    (table : Table Bytes (Made HttpHandler)) : Option (Table Bytes (Made HttpHandler)) :=
  if registers path then StbDs.shputs hashString σ table path h else some table

/-- The other tables stay as they are, but for an empty entry of a base URI. -/
theorem addHandler_spec {h : Made HttpHandler}
    (put : stored σ uri h t.globalHttpHandlers = some table) :
    ∃ t', addHandler σ uri h t = some t' ∧ t'.globalHttpHandlers = table ∧
      t'.locations = t.locations ∧ (Pathless t → Pathless t') := by
  unfold stored registers at put
  unfold addHandler
  by_cases long : Limits.default.maxUrlSize < uri.length
  · rw [if_neg (by simp [Nat.not_le.mpr long])] at put
    rw [if_pos long]
    exact ⟨t, rfl, Option.some.inj put, rfl, id⟩
  rw [if_neg long]
  by_cases rooted : uri.head? = some SLASH
  · rw [if_pos (by simp [rooted, Nat.le_of_not_lt long])] at put
    rw [if_pos rooted, put]
    exact ⟨_, rfl, rfl, rfl, id⟩
  rw [if_neg (by simp [rooted])] at put
  have same := Option.some.inj put
  rw [if_neg rooted]
  split
  · exact ⟨t, rfl, same, rfl, id⟩
  dsimp only
  split
  · exact ⟨t, rfl, same, rfl, id⟩
  split
  · exact ⟨_, rfl, same, rfl, addBaseHandler_pathless _⟩
  · exact ⟨t, rfl, same, rfl, id⟩

/-- An entry that is not wired adds nothing. -/
theorem wireEntry_unwired (idle : wired de = false) (t : Tables) :
    wireEntry σ de t = some t := by
  unfold wireEntry
  unfold wired at idle
  rw [Bool.or_eq_false_iff, Option.isSome_eq_false_iff, Option.isSome_eq_false_iff,
    Option.isNone_iff_eq_none, Option.isNone_iff_eq_none] at idle
  rw [idle.1, idle.2]

/-- The location of a path when the locations of an entry have been added. -/
def locatedAt (de : DispatchEntry) (path : Bytes) (before : Option (Made Location)) :
    Option (Made Location) :=
  if pathOf de = path then
    some (match before with
      | some loc => match keepaliveOf de with
        | some ka => { loc with value := { loc.value with proxyKeepalive := some ka } }
        | none => loc
      | none => locationOf de)
  else before

/-- What an entry adds: a handler, and a location at the end, perhaps with its connections
kept alive. -/
theorem wireEntry_wired (works : wired de = true)
    (put : stored σ (pathOf de) (handlerOf de) t.globalHttpHandlers = some table) :
    ∃ t', wireEntry σ de t = some t' ∧ t'.globalHttpHandlers = table ∧
      (∀ path, get path t'.locations = locatedAt de path (get path t.locations)) ∧
      (Pathless t → Pathless t') := by
  unfold wireEntry
  unfold handlerOf at put
  cases target : de.proxyPass with
  | some url =>
    rw [target] at put
    dsimp only
    cases alive : de.proxyKeepalive with
    | none =>
      obtain ⟨t', added, global, locations, pathless⟩ := addHandler_spec
        (show stored σ _ _ (addLocation (pathOf de) ⟨⟨url, none⟩, some de⟩ t).globalHttpHandlers =
          some table from put)
      refine ⟨t', added, global, fun path => ?_, pathless⟩
      rw [locations]
      change get path (t.locations ++ _) = _
      rw [get_append, get_cons, get_nil]
      unfold locatedAt locationOf realPathOf keepaliveOf
      rw [target, alive]
      cases get path t.locations <;> split <;> rfl
    | some ka =>
      obtain ⟨t', added, global, locations, pathless⟩ := addHandler_spec
        (show stored σ _ _ (setLocationKeepalive (pathOf de) ka
          (addLocation (pathOf de) ⟨⟨url, none⟩, some de⟩ t)).globalHttpHandlers =
          some table from put)
      refine ⟨t', added, global, fun path => ?_, pathless⟩
      rw [locations]
      change get path (adjust _ _ (t.locations ++ _)) = _
      rw [get_adjust, get_append, get_cons, get_nil]
      unfold locatedAt locationOf realPathOf keepaliveOf
      rw [target, alive]
      cases get path t.locations <;> split <;> rfl
  | none =>
    cases directory : de.root with
    | some root =>
      rw [target] at put
      obtain ⟨t', added, global, locations, pathless⟩ := addHandler_spec
        (show stored σ _ _ (addLocation (pathOf de) ⟨⟨root, none⟩, some de⟩ t).globalHttpHandlers =
          some table from put)
      refine ⟨t', added, global, fun path => ?_, pathless⟩
      rw [locations]
      change get path (t.locations ++ _) = _
      rw [get_append, get_cons, get_nil]
      unfold locatedAt locationOf realPathOf keepaliveOf
      rw [target, directory]
      cases get path t.locations <;> split <;> rfl
    | none => simp [wired, target, directory] at works

/-- What the last entry of a path that has connections kept alive asks for. -/
def lastKeepalive (dispatch : List DispatchEntry) (path : Bytes) : Option Keepalive :=
  dispatch.reverse.findSome? fun de => if underPath path de then keepaliveOf de else none

theorem lastKeepalive_concat (dispatch : List DispatchEntry) (de : DispatchEntry) (path : Bytes) :
    lastKeepalive (dispatch ++ [de]) path =
      (if underPath path de then keepaliveOf de else none).or (lastKeepalive dispatch path) := by
  unfold lastKeepalive
  rw [List.reverse_concat, List.findSome?_cons]
  cases (if underPath path de then keepaliveOf de else none) <;> rfl

theorem lastKeepalive_eq_none {dispatch : List DispatchEntry} {path : Bytes} :
    lastKeepalive dispatch path = none ↔
      ∀ de ∈ dispatch, underPath path de = true → keepaliveOf de = none := by
  unfold lastKeepalive
  rw [List.findSome?_eq_none_iff]
  constructor
  · intro none de listed found
    have nothing := none de (List.mem_reverse.mpr listed)
    rwa [if_pos found] at nothing
  · intro none de listed
    split
    · rename_i found
      exact none de (List.mem_reverse.mp listed) found
    · rfl

theorem findSome_of_find {entries : List DispatchEntry} {path : Bytes} {de : DispatchEntry}
    (found : entries.find? (underPath path) = some de) {ka : Keepalive}
    (alive : keepaliveOf de = some ka) :
    (entries.findSome? fun de => if underPath path de then keepaliveOf de else none) =
      some ka := by
  induction entries with
  | nil => cases found
  | cons head entries ih =>
    rw [List.find?_cons] at found
    rw [List.findSome?_cons]
    cases under : underPath path head with
    | true =>
      rw [under] at found
      cases found
      rw [if_pos rfl, alive]
    | false =>
      rw [under] at found
      rw [if_neg Bool.false_ne_true]
      exact ih found

/-- The tables after the entries of `dispatch`. -/
structure Wiring (σ : UInt64) (dispatch : List DispatchEntry) (t : Tables) : Prop where
  pathless : Pathless t
  puts : shputsAll hashString none (pathPuts σ dispatch) = some t.globalHttpHandlers
  sane : (t.globalHttpHandlers.getD newHeader).Sane hashString
  /-- The handler of a path is that of its last entry. -/
  handler : ∀ path, get path t.global =
    if registers path then (dispatch.reverse.find? (underPath path)).map handlerOf else none
  /-- The location of a path is that of its first entry, but for the connections kept alive. -/
  location : ∀ path, get path t.locations =
    (dispatch.find? (underPath path)).map fun first =>
      ⟨⟨realPathOf first, lastKeepalive dispatch path⟩, some first⟩

theorem pathPuts_concat (σ : UInt64) (dispatch : List DispatchEntry) (de : DispatchEntry) :
    pathPuts σ (dispatch ++ [de]) = pathPuts σ dispatch ++ pathPuts σ [de] := by
  rw [pathPuts, List.filter_append, List.map_append]
  rfl

theorem handler_concat (works : wired de = true) {before after : PathTable}
    (handler : ∀ path, get path before =
      if registers path then (dispatch.reverse.find? (underPath path)).map handlerOf else none)
    (added : after = if registers (pathOf de) then put (pathOf de) (handlerOf de) before else before)
    (path : Bytes) :
    get path after =
      if registers path then ((dispatch ++ [de]).reverse.find? (underPath path)).map handlerOf
      else none := by
  rw [added, List.reverse_concat, List.find?_cons]
  by_cases here : pathOf de = path
  · have found : underPath path de = true := by simp [underPath, works, here]
    rw [here, found]
    split
    · rw [get_put, if_pos rfl]
      rfl
    · rename_i unregistered
      rw [handler, if_neg unregistered]
  · have other : underPath path de = false := by simp [underPath, here]
    rw [other]
    split
    · rw [get_put, if_neg here, handler]
    · exact handler path

theorem location_concat (works : wired de = true) {before after : Option (Made Location)}
    (location : before = (dispatch.find? (underPath path)).map fun first =>
      ⟨⟨realPathOf first, lastKeepalive dispatch path⟩, some first⟩)
    (added : after = locatedAt de path before) :
    after = ((dispatch ++ [de]).find? (underPath path)).map fun first =>
      ⟨⟨realPathOf first, lastKeepalive (dispatch ++ [de]) path⟩, some first⟩ := by
  rw [added, location, List.find?_append, lastKeepalive_concat]
  unfold locatedAt
  by_cases here : pathOf de = path
  · have found : underPath path de = true := by simp [underPath, works, here]
    rw [if_pos here, found, if_pos rfl]
    cases first : dispatch.find? (underPath path) with
    | none =>
      have absent : lastKeepalive dispatch path = none :=
        lastKeepalive_eq_none.mpr fun other listed same =>
          absurd same (List.find?_eq_none.mp first other listed)
      rw [absent]
      simp [found, locationOf]
    | some f => cases keepaliveOf de <;> rfl
  · have other : underPath path de = false := by simp [underPath, here]
    rw [if_neg here, other]
    cases dispatch.find? (underPath path) <;> simp [other]

theorem Wiring.skip (h : Wiring σ dispatch t) (idle : wired de = false) :
    Wiring σ (dispatch ++ [de]) t := by
  have other (path : Bytes) : underPath path de = false := by simp [underPath, idle]
  constructor
  · exact h.pathless
  · have none : pathPuts σ [de] = [] := by simp [pathPuts, idle]
    rw [pathPuts_concat, none, List.append_nil]
    exact h.puts
  · exact h.sane
  · intro path
    rw [List.reverse_concat, List.find?_cons, other path]
    exact h.handler path
  · intro path
    rw [h.location, List.find?_append, lastKeepalive_concat, other path]
    cases dispatch.find? (underPath path) <;> simp [other]

/-- The next entry, when its path is stored under itself. -/
theorem Wiring.next (h : Wiring σ dispatch t) (works : wired de = true)
    (keeps : keepsKeys hashString t.globalHttpHandlers (pathPuts σ [de]) = true) :
    ∃ t', wireEntry σ de t = some t' ∧ Wiring σ (dispatch ++ [de]) t' := by
  have one : ∃ table, stored σ (pathOf de) (handlerOf de) t.globalHttpHandlers = some table ∧
      shputsAll hashString t.globalHttpHandlers (pathPuts σ [de]) = some table ∧
      (table.getD newHeader).Sane hashString ∧ (table.getD newHeader).entries =
        if registers (pathOf de) then put (pathOf de) (handlerOf de) t.global else t.global := by
    by_cases registered : registers (pathOf de) = true
    · have puts : pathPuts σ [de] = [(σ, pathOf de, handlerOf de)] := by
        simp [pathPuts, works, registered]
      rw [puts] at keeps ⊢
      obtain ⟨table, all, sane, entries⟩ := StbDs.shputsAll_sane h.sane keeps
      have single := all
      rw [shputsAll] at single
      obtain ⟨table', first, rest⟩ := Option.bind_eq_some_iff.mp single
      cases rest
      rw [stored, if_pos registered, if_pos registered]
      exact ⟨table, first, all, sane, entries⟩
    · have puts : pathPuts σ [de] = [] := by simp [pathPuts, registered]
      rw [puts, stored, if_neg registered, if_neg registered]
      exact ⟨_, rfl, rfl, h.sane, rfl⟩
  obtain ⟨table, put, all, sane, entries⟩ := one
  obtain ⟨t', done, global, locations, pathless⟩ := wireEntry_wired works put
  subst global
  refine ⟨t', done, pathless h.pathless, ?_, sane, handler_concat works h.handler entries,
    fun path => location_concat works (h.location path) (locations path)⟩
  rw [pathPuts_concat, StbDs.shputsAll_append, h.puts]
  exact all

/-- Where every path is stored under itself, the tables hold the entries. -/
theorem wireAll_wiring (keeps : KeepsPaths σ dispatch) :
    ∃ t, wireAll σ dispatch = some t ∧ Wiring σ dispatch t := by
  induction dispatch using List.reverseRecOn with
  | nil =>
    refine ⟨noTables, rfl, ?_⟩
    constructor
    · exact fun _ listed => nomatch listed
    · rfl
    · exact StbDs.sane_newHeader
    · intro path
      split <;> rfl
    · exact fun _ => rfl
  | append_singleton dispatch de ih =>
    rw [KeepsPaths, pathPuts_concat] at keeps
    obtain ⟨before, after⟩ := StbDs.keepsKeys_append keeps
    obtain ⟨t, made, wiring⟩ := ih before
    have step : wireAll σ (dispatch ++ [de]) = wireEntry σ de t := by
      rw [wireAll, List.foldlM_append]
      change (wireAll σ dispatch).bind _ = _
      rw [made, Option.bind_some, List.foldlM_cons]
      exact bind_pure _
    rw [step]
    cases works : wired de with
    | false => exact ⟨t, wireEntry_unwired works t, wiring.skip works⟩
    | true => exact wiring.next works (after _ wiring.puts)

theorem bestHandler_global {t : Tables} (empty : Pathless t) (listenUri uri : Bytes) :
    bestHandler t listenUri uri =
      scan (matchesGlobal uri) List.length none t.global := by
  have paths : (get listenUri t.baseHandlers).getD [] = [] := by
    cases found : get listenUri t.baseHandlers with
    | none => rfl
    | some paths => exact empty _ (mem_of_get found)
  unfold bestHandler
  rw [paths]
  rfl

theorem matchesGlobal_start {uri key : Bytes} (fits : matchesGlobal uri key = true) :
    key <+: uri := by
  unfold matchesGlobal at fits
  split at fits
  · exact of_decide_eq_true fits
  · rw [Bool.and_eq_true] at fits
    exact of_decide_eq_true fits.1

/-- Two paths of one length that fit are the same. -/
theorem matchesGlobal_unique {uri a b : Bytes} (left : matchesGlobal uri a = true)
    (right : matchesGlobal uri b = true) (length : a.length = b.length) : a = b :=
  (List.prefix_of_prefix_length_le (matchesGlobal_start left) (matchesGlobal_start right)
    (Nat.le_of_eq length)).eq_of_length length

theorem registers_length {path : Bytes} (registered : registers path = true) : 0 < path.length := by
  cases path with
  | nil => exact absurd registered (by decide)
  | cons b path => exact Nat.succ_pos _

theorem underPath_self {uri : Bytes} {de : DispatchEntry} (fits : Fits uri de) :
    underPath (pathOf de) de = true := by simp [underPath, fits.1]

theorem underPath_path {path : Bytes} {de : DispatchEntry} (under : underPath path de = true) :
    wired de = true ∧ pathOf de = path := by
  unfold underPath at under
  rw [Bool.and_eq_true, decide_eq_true_eq] at under
  exact under

/-- What the tables of all entries answer. -/
inductive Answered (dispatch : List DispatchEntry) (uri : Bytes) : Option Answer → Prop
  | default (unfit : ∀ de ∈ dispatch, Fits uri de → registers (pathOf de) = false) :
      Answered dispatch uri none
  | entries {path : Bytes} {first last : DispatchEntry} (registered : registers path = true)
      (fits : matchesGlobal uri path = true)
      (longest : ∀ de ∈ dispatch, Fits uri de → registers (pathOf de) = true →
        (pathOf de).length ≤ path.length)
      (isFirst : dispatch.find? (underPath path) = some first)
      (isLast : dispatch.reverse.find? (underPath path) = some last) :
      Answered dispatch uri (some ⟨handlerOf last,
        some ⟨⟨realPathOf first, lastKeepalive dispatch path⟩, some first⟩⟩)

/-- An entry that fits is in the table under its path. -/
theorem Wiring.listed (h : Wiring σ dispatch t) (listed : de ∈ dispatch) (fits : Fits uri de)
    (registered : registers (pathOf de) = true) : ∃ h, (pathOf de, h) ∈ t.global := by
  have some : ((dispatch.reverse.find? (underPath (pathOf de))).map handlerOf).isSome := by
    rw [Option.isSome_map, List.find?_isSome]
    exact ⟨de, List.mem_reverse.mpr listed, underPath_self fits⟩
  obtain ⟨last, found⟩ := Option.isSome_iff_exists.mp some
  refine ⟨last, mem_of_get ?_⟩
  rw [h.handler, if_pos registered, found]

theorem Wiring.answer (h : Wiring σ dispatch t) (listenUri uri : Bytes) :
    Answered dispatch uri (httpDispatcher t listenUri uri) := by
  unfold httpDispatcher
  rw [bestHandler_global h.pathless]
  obtain ⟨origin, -, largest⟩ :=
    @scan_largest _ _ (matchesGlobal uri) List.length t.global none
  rcases origin with none | ⟨⟨path, handler⟩, listed, fits, found⟩
  · rw [none] at largest ⊢
    refine .default fun de listed fits => ?_
    by_contra registered
    rw [Bool.not_eq_false] at registered
    obtain ⟨_, inside⟩ := h.listed listed fits registered
    exact absurd (registers_length registered) (Nat.not_lt.mpr (largest _ inside fits.2))
  · rw [found] at largest ⊢
    have stored := get_of_mem h.sane.distinct listed
    rw [← Tables.global, h.handler] at stored
    split at stored
    · rename_i registered
      obtain ⟨last, isLast, rfl⟩ := Option.map_eq_some_iff.mp stored
      have some : (dispatch.find? (underPath path)).isSome := by
        rw [List.find?_isSome]
        exact ⟨last, List.mem_reverse.mp (List.mem_of_find?_eq_some isLast),
          List.find?_some isLast⟩
      obtain ⟨first, isFirst⟩ := Option.isSome_iff_exists.mp some
      have location := h.location path
      rw [isFirst] at location
      have longest : ∀ de ∈ dispatch, Fits uri de → registers (pathOf de) = true →
          (pathOf de).length ≤ path.length := by
        intro de listed fits registered
        obtain ⟨_, inside⟩ := h.listed listed fits registered
        exact largest _ inside fits.2
      have answer := Answered.entries registered fits longest isFirst isLast
      dsimp only
      rw [location]
      unfold handlerOf at answer ⊢
      split
      · rename_i hello
        dsimp only at hello
        split at hello <;> cases hello
      · exact answer
      · exact answer
    · cases stored

theorem lastKeepalive_own {dispatch : List DispatchEntry} {path : Bytes} {de : DispatchEntry}
    (isLast : dispatch.reverse.find? (underPath path) = some de)
    (kept : keepaliveOf de = none →
      ∀ other ∈ dispatch, underPath path other = true → keepaliveOf other = none) :
    lastKeepalive dispatch path = keepaliveOf de := by
  cases alive : keepaliveOf de with
  | none => exact lastKeepalive_eq_none.mpr (kept alive)
  | some ka => exact findSome_of_find isLast alive

theorem Answered.unshared {l : ListenEntry} {answer : Option Answer}
    (answered : Answered dispatch uri answer) (alone : AnsweredAlone dispatch l uri answer) :
    Unshared dispatch l uri := by
  rcases alone with ⟨de, listed, own, longestOwn, answers⟩ | ⟨stranger, unused⟩
  · cases answered with
    | default unfit => cases answers
    | @entries path first last registered fits longest isFirst isLast =>
      unfold handlerOf locationOf at answers
      simp only [Option.some.injEq, Answer.mk.injEq, Made.mk.injEq, Location.mk.injEq] at answers
      obtain ⟨⟨_, rfl⟩, ⟨_, alive⟩, rfl⟩ := answers
      have path := (underPath_path (List.find?_some isFirst)).2
      subst path
      refine Or.inl ⟨_, listed, own, registered, ?_, isFirst, isLast, ?_⟩
      · intro other listed fits which
        rcases which with name | registered
        · exact longestOwn other listed ⟨name, fits⟩
        · exact longest other listed fits registered
      · intro none
        exact lastKeepalive_eq_none.mp (alive.trans none)
  · cases answered with
    | default unfit =>
      exact Or.inr fun de listed fits =>
        ⟨fun name => stranger de listed ⟨name, fits⟩, unfit de listed fits⟩
    | entries _ _ _ _ _ => exact absurd (unused _ rfl).1 (Option.some_ne_none _)

theorem Answered.alone {l : ListenEntry} {answer : Option Answer}
    (answered : Answered dispatch uri answer) (unshared : Unshared dispatch l uri) :
    AnsweredAlone dispatch l uri answer := by
  rcases unshared with ⟨de, listed, own, registered, longest, isFirst, isLast, kept⟩ | unfit
  · cases answered with
    | default unfit => exact absurd (unfit de listed own.2) (by rw [registered]; decide)
    | @entries path first last registered' fits longest' isFirst' isLast' =>
      obtain ⟨works, under⟩ := underPath_path (List.find?_some isLast')
      have atMost : path.length ≤ (pathOf de).length := by
        have bound := longest last (List.mem_reverse.mp (List.mem_of_find?_eq_some isLast'))
          ⟨works, by rw [under]; exact fits⟩ (Or.inr (by rw [under]; exact registered'))
        rwa [under] at bound
      have atLeast := longest' de listed own.2 registered
      obtain rfl := matchesGlobal_unique fits own.2.2 (Nat.le_antisymm atMost atLeast)
      rw [isFirst] at isFirst'
      rw [isLast] at isLast'
      cases isFirst'
      cases isLast'
      rw [lastKeepalive_own isLast kept]
      exact Or.inl ⟨de, listed, own,
        fun other listed own' => longest other listed own'.2 (Or.inl own'.1), rfl⟩
  · cases answered with
    | default _ =>
      exact Or.inr ⟨fun de listed own => (unfit de listed own.2).1 own.1,
        fun _ answer => nomatch answer⟩
    | @entries path first last registered fits longest isFirst isLast =>
      obtain ⟨works, under⟩ := underPath_path (List.find?_some isLast)
      have stranger := unfit last (List.mem_reverse.mp (List.mem_of_find?_eq_some isLast))
        ⟨works, by rw [under]; exact fits⟩
      rw [under, registered] at stranger
      exact absurd stranger.2 (by decide)

/-- The tables without entries. -/
structure Demo (t : Tables) : Prop where
  pathless : Pathless t
  handlers : ∀ e ∈ t.global, e.2.origin = none
  locations : ∀ e ∈ t.locations, e.2.origin = none

/-- `stored` for a path that begins with a slash. -/
theorem stored_registered {h : Made HttpHandler} {before : Table Bytes (Made HttpHandler)}
    (registered : registers path = true)
    (put : StbDs.shputs hashString σ before path h = some table) :
    stored σ path h before = some table := by rw [stored, if_pos registered, put]

theorem serveHtml_spec (put : StbDs.shputs hashString σ t.globalHttpHandlers [SLASH]
      ⟨.httpStaticDir, none⟩ = some table) :
    ∃ t', serveHtml σ t = some t' ∧ t'.globalHttpHandlers = table ∧
      t'.locations = t.locations ++ [([SLASH], ⟨⟨ascii "html", none⟩, none⟩)] ∧
      (Pathless t → Pathless t') :=
  addHandler_spec (t := addLocation [SLASH] ⟨⟨ascii "html", none⟩, none⟩ t)
    (stored_registered (by decide) put)

/-- Without entries the tables are made, whatever the seed is. -/
theorem demo_made (σ : UInt64) : ∃ t, main σ [] = some t ∧ Demo t := by
  have keeps : keepsKeys hashString none [(σ, [SLASH], (⟨.httpStaticDir, none⟩ : Made HttpHandler)),
      (σ, [SLASH], ⟨.httpStaticDir, none⟩), (σ, ascii "/hello", ⟨.helloHttpHandler, none⟩)] = true :=
    StbDs.keepsKeys_again σ [SLASH] _ _ (show [[SLASH], ascii "/hello"].Nodup by decide)
  obtain ⟨last, all, -, entries⟩ := StbDs.shputsAll_sane StbDs.sane_newHeader keeps
  simp only [shputsAll, Option.bind_eq_some_iff] at all
  obtain ⟨a, first, b, second, c, third, same⟩ := all
  cases same
  obtain ⟨t₁, made₁, global₁, locations₁, pathless₁⟩ := serveHtml_spec (t := noTables) first
  subst global₁
  obtain ⟨t₂, made₂, global₂, locations₂, pathless₂⟩ := serveHtml_spec second
  subst global₂
  obtain ⟨t₃, made₃, global₃, locations₃, pathless₃⟩ := addHandler_spec
    (stored_registered (by decide) third)
  have made : main σ [] = some t₃ := by
    rw [main, if_pos rfl]
    change (serveHtml σ noTables >>= fun t => serveHtml σ t >>= fun t => _) = _
    rw [made₁]
    change (serveHtml σ t₁ >>= fun t => _) = _
    rw [made₂]
    exact made₃
  have pathless : Pathless noTables := fun _ listed => absurd listed List.not_mem_nil
  refine ⟨t₃, made, pathless₃ (pathless₂ (pathless₁ pathless)), ?_, ?_⟩
  · have both : t₃.global = [([SLASH], ⟨.httpStaticDir, none⟩),
        (ascii "/hello", ⟨.helloHttpHandler, none⟩)] := by
      rw [Tables.global, global₃, entries]
      rfl
    rw [both]
    decide
  · rw [locations₃, locations₂, locations₁]
    decide

/-- Without entries, what answers was made for none. -/
theorem Demo.unused (demo : Demo t) (listenUri uri : Bytes) :
    ∀ answer ∈ httpDispatcher t listenUri uri,
      answer.handler.origin = none ∧ ∀ loc ∈ answer.location, loc.origin = none := by
  unfold httpDispatcher
  rw [bestHandler_global demo.pathless]
  rcases (@scan_largest _ _ (matchesGlobal uri) List.length t.global none).1
    with none | ⟨⟨path, h⟩, listed, _, found⟩
  · rw [none]
    exact fun _ answer => nomatch answer
  · rw [found]
    dsimp only
    intro answer answered
    have located : ∀ loc ∈ get path t.locations, loc.origin = none :=
      fun loc stored => demo.locations _ (mem_of_get stored)
    split at answered
    · cases answered
      exact ⟨demo.handlers _ listed, fun _ loc => nomatch loc⟩
    · cases answered
      exact ⟨demo.handlers _ listed, located⟩
    · cases answered
      exact ⟨demo.handlers _ listed, located⟩

/-- Where every path is stored under itself, a request is answered by the entries of its own
listener exactly when they share their path with no other. -/
theorem listener_isolated_iff (σ : UInt64) (dispatch : List DispatchEntry) (l : ListenEntry)
    (uri : Bytes) (keeps : KeepsPaths σ dispatch) :
    Isolated σ dispatch l uri ↔ Unshared dispatch l uri := by
  by_cases entries : dispatch = []
  · subst entries
    obtain ⟨t, made, demo⟩ := demo_made σ
    have unshared : Unshared [] l uri := Or.inr fun _ listed => absurd listed List.not_mem_nil
    have isolated : Isolated σ [] l uri :=
      ⟨t, made, Or.inr ⟨fun _ listed => absurd listed List.not_mem_nil, demo.unused l.uri uri⟩⟩
    exact ⟨fun _ => unshared, fun _ => isolated⟩
  · obtain ⟨t, made, wiring⟩ := wireAll_wiring keeps
    have tables : main σ dispatch = some t := by rw [main, if_neg entries, made]
    have answered := wiring.answer l.uri uri
    constructor
    · rintro ⟨t', made', alone⟩
      cases tables.symm.trans made'
      exact answered.unshared alone
    · exact fun unshared => ⟨t, tables, answered.alone unshared⟩

def web : ListenEntry := ⟨some (ascii "web"), ascii "http://:8080"⟩

def tls : ListenEntry := ⟨some (ascii "tls"), ascii "https://:8443"⟩

/-- Each listener has its own directory. -/
def twoRoots : List DispatchEntry :=
  [⟨ascii "web", none, none, some (ascii "./public"), none⟩,
    ⟨ascii "tls", none, none, some (ascii "./private"), none⟩]

theorem listener_isolated_sample :
    Isolated firstSeed twoRoots tls [SLASH] ↔ Unshared twoRoots tls [SLASH] :=
  listener_isolated_iff firstSeed twoRoots tls [SLASH] (by decide +kernel)

/-- `/admin/` is given twice. -/
def twoAdmins : List DispatchEntry :=
  [⟨ascii "web", none, none, some (ascii "./public"), none⟩,
    ⟨ascii "web", some (ascii "/images/"), none, some (ascii "./images"), none⟩,
    ⟨ascii "web", some (ascii "/admin/"), none, some (ascii "./admin"), none⟩,
    ⟨ascii "web", some (ascii "/api/"), some (ascii "http://127.0.0.1:9000"), none, none⟩,
    ⟨ascii "tls", some (ascii "/admin/"), none, some (ascii "./private"), none⟩]

-- in the second table of a process, the fifth entry gets the path of the fourth
example : Unshared twoAdmins web (ascii "/api/") ∧
    ¬Isolated (seedAfter 1) twoAdmins web (ascii "/api/") := by decide +kernel

theorem root_shared :
    ¬ ∀ (σ : UInt64) (dispatch : List DispatchEntry) (l : ListenEntry) (uri : Bytes),
      Isolated σ dispatch l uri := by
  intro isolated
  exact absurd (isolated firstSeed twoRoots tls [SLASH]) (by decide +kernel)

end ListenerRouting
