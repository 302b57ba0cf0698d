import Mathlib.Data.List.Nodup
import NanoProxy.ListenerRouting

/-!
# The handler that is registered for a request

`http_dispatcher` takes the longest key of the tables that fits. `addHandler` puts the path of
a listener into a table that nothing refers to, so that such a handler is never taken.
-/

namespace RouteSelection

open CLib HttpRequestParser StringMap ListenerRouting
open StbDs (hashString newHeader firstSeed)

variable {uri listenUri : Bytes} {paths globals regs regs' : PathTable}
variable {e o : Bytes × Made HttpHandler} {σ : UInt64} {t : Tables}

/-- The table that a handler is for, of a listener or of all, and its key there. -/
def entryOf (uri : Bytes) : Option (Option Bytes × Bytes) :=
  if Limits.default.maxUrlSize < uri.length then none
  else if uri.head? = some SLASH then some (none, uri)
  else match strstr (ascii "://") uri with
    | none => none
    | some schemeLen =>
      if schemeLen = 0 || 16 ≤ schemeLen then none
      else
        let scheme := uri.take schemeLen
        if scheme = ascii "http" || scheme = ascii "https" then
          match memchr uri SLASH (schemeLen + 3) with
          | none => some (some uri, [SLASH])
          | some pathStart => some (some (uri.take pathStart), uri.drop pathStart)
        else none

/-- The handlers that were registered for a table. -/
def registeredIn (table : Option Bytes) (regs : PathTable) : PathTable :=
  regs.filterMap fun r =>
    (entryOf r.1).bind fun entry => if entry.1 = table then some (entry.2, r.2) else none

/-- No two handlers are registered for one table and one key. -/
def Distinct (regs : PathTable) : Prop := (regs.filterMap (entryOf ·.1)).Nodup

instance : DecidablePred Distinct := fun regs =>
  inferInstanceAs (Decidable (regs.filterMap (entryOf ·.1)).Nodup)

def register (σ : UInt64) (regs : PathTable) : Option Tables :=
  regs.foldlM (fun t r => addHandler σ r.1 r.2 t) noTables

/-- `best_key` and `best_h`; without them the default handler answers. -/
def choice (σ : UInt64) (regs : PathTable) (listenUri uri : Bytes) :
    Option (Option (Bytes × Made HttpHandler)) :=
  (register σ regs).map fun t => bestHandler t listenUri uri

/-- The longest key that fits, that of the listener before an equal one of all listeners. -/
inductive Longest (uri : Bytes) (paths globals : PathTable) :
    Option (Bytes × Made HttpHandler) → Prop
  | default (base : ∀ o ∈ paths, matchesBase uri o.1 = false)
      (global : ∀ o ∈ globals, matchesGlobal uri o.1 = false) : Longest uri paths globals none
  | listener {e : Bytes × Made HttpHandler} (listed : e ∈ paths) (fits : matchesBase uri e.1 = true)
      (base : ∀ o ∈ paths, matchesBase uri o.1 = true → o.1.length ≤ e.1.length)
      (global : ∀ o ∈ globals, matchesGlobal uri o.1 = true → o.1.length ≤ e.1.length) :
      Longest uri paths globals (some e)
  | all {e : Bytes × Made HttpHandler} (listed : e ∈ globals)
      (fits : matchesGlobal uri e.1 = true)
      (base : ∀ o ∈ paths, matchesBase uri o.1 = true → o.1.length < e.1.length)
      (global : ∀ o ∈ globals, matchesGlobal uri o.1 = true → o.1.length ≤ e.1.length) :
      Longest uri paths globals (some e)

/-- The longest of the handlers that were registered, in whatever order. -/
def RoutesRight (σ : UInt64) (regs : PathTable) (listenUri uri : Bytes) : Prop :=
  ∃ best, choice σ regs listenUri uri = some best ∧
    Longest uri (registeredIn (some listenUri) regs) (registeredIn none regs) best ∧
    ∀ regs', regs'.Perm regs → choice σ regs' listenUri uri = some best

theorem matchesBase_start {key : Bytes} (fits : matchesBase uri key = true) : key <+: uri := by
  unfold matchesBase at fits
  split at fits
  · exact of_decide_eq_true fits
  · have same : uri = key := of_decide_eq_true fits
    subst same
    exact List.prefix_refl uri

/-- The two loops of `http_dispatcher`, over any tables. -/
theorem bestHandler_longest (t : Tables) (listenUri uri : Bytes)
    (base : ∀ e ∈ (get listenUri t.baseHandlers).getD [], e.1 ≠ [])
    (global : ∀ e ∈ t.global, e.1 ≠ []) :
    Longest uri ((get listenUri t.baseHandlers).getD []) t.global
      (bestHandler t listenUri uri) := by
  unfold bestHandler
  dsimp only
  generalize (get listenUri t.baseHandlers).getD [] = paths at base
  generalize own : scan (matchesBase uri) List.length none paths = first
  obtain ⟨origin, _, longest⟩ := @scan_largest _ _ (matchesBase uri) List.length paths none
  obtain ⟨_, grows, longest'⟩ :=
    @scan_largest _ _ (matchesGlobal uri) List.length t.global first
  rw [own] at origin longest
  rcases @scan_beats _ _ (matchesGlobal uri) List.length t.global first with
    same | ⟨e, listed, fits, found, larger⟩
  · rw [same] at longest' ⊢
    rcases origin with rfl | ⟨e, listed, fits, rfl⟩
    · apply Longest.default
      · intro o listed
        by_contra fits
        have empty := longest o listed (by simpa using fits)
        exact base o listed (List.eq_nil_of_length_eq_zero (Nat.le_zero.mp empty))
      · intro o listed
        by_contra fits
        have empty := longest' o listed (by simpa using fits)
        exact global o listed (List.eq_nil_of_length_eq_zero (Nat.le_zero.mp empty))
    · exact .listener listed fits longest longest'
  · rw [found] at longest' ⊢
    exact .all listed fits (fun o listed fits => Nat.lt_of_le_of_lt (longest o listed fits) larger)
      longest'

theorem eq_of_keys {m : PathTable} (distinct : (m.map (·.1)).Nodup) (left : e ∈ m) (right : o ∈ m)
    (same : e.1 = o.1) : e = o := by
  have here := get_of_mem distinct left
  rw [same, get_of_mem distinct right, Option.some.injEq] at here
  exact Prod.ext same here.symm

/-- Keys that fit and are of one length are the same. -/
theorem same_key {a b : Bytes} (left : a <+: uri) (right : b <+: uri)
    (length : a.length = b.length) : a = b :=
  (List.prefix_of_prefix_length_le left right (Nat.le_of_eq length)).eq_of_length length

/-- There is one longest key. -/
theorem Longest.unique {a b : Option (Bytes × Made HttpHandler)}
    (distinct : (paths.map (·.1)).Nodup) (distinct' : (globals.map (·.1)).Nodup)
    (left : Longest uri paths globals a) (right : Longest uri paths globals b) : a = b := by
  cases left with
  | default base global =>
    cases right with
    | default => rfl
    | listener listed fits => exact absurd fits (by rw [base _ listed]; exact Bool.false_ne_true)
    | all listed fits => exact absurd fits (by rw [global _ listed]; exact Bool.false_ne_true)
  | listener listed fits base global =>
    cases right with
    | default base' _ => exact absurd fits (by rw [base' _ listed]; exact Bool.false_ne_true)
    | listener listed' fits' base' _ =>
      have length := Nat.le_antisymm (base' _ listed fits) (base _ listed' fits')
      rw [eq_of_keys distinct listed listed'
        (same_key (matchesBase_start fits) (matchesBase_start fits') length)]
    | all listed' fits' base' _ =>
      exact absurd (base' _ listed fits) (Nat.not_lt.mpr (global _ listed' fits'))
  | all listed fits base global =>
    cases right with
    | default _ global' => exact absurd fits (by rw [global' _ listed]; exact Bool.false_ne_true)
    | listener listed' fits' _ global' =>
      exact absurd (base _ listed' fits') (Nat.not_lt.mpr (global' _ listed fits))
    | all listed' fits' _ global' =>
      have length := Nat.le_antisymm (global' _ listed fits) (global _ listed' fits')
      rw [eq_of_keys distinct' listed listed'
        (same_key (matchesGlobal_start fits) (matchesGlobal_start fits') length)]

theorem entryOf_all {key : Bytes} : entryOf uri = some (none, key) ↔ registers uri = true ∧ uri = key := by
  unfold entryOf registers
  by_cases long : Limits.default.maxUrlSize < uri.length
  · rw [if_pos long]
    simp [Nat.not_le.mpr long]
  rw [if_neg long]
  by_cases rooted : uri.head? = some SLASH
  · rw [if_pos rooted]
    simp [rooted, Nat.le_of_not_lt long]
  rw [if_neg rooted]
  constructor
  · intro entry
    exfalso
    split at entry
    · cases entry
    · dsimp only at entry
      split at entry
      · cases entry
      · split at entry
        · split at entry
          · cases entry
          · cases entry
        · cases entry
  · rintro ⟨registered, _⟩
    simp [rooted] at registered

theorem mem_registeredIn {table : Option Bytes} :
    e ∈ registeredIn table regs ↔ ∃ r ∈ regs, entryOf r.1 = some (table, e.1) ∧ r.2 = e.2 := by
  unfold registeredIn
  rw [List.mem_filterMap]
  constructor
  · rintro ⟨r, listed, found⟩
    obtain ⟨⟨here, key⟩, entry, chosen⟩ := Option.bind_eq_some_iff.mp found
    split at chosen
    · rename_i same
      cases chosen
      rw [← same]
      exact ⟨r, listed, entry, rfl⟩
    · cases chosen
  · rintro ⟨r, listed, entry, same⟩
    refine ⟨r, listed, ?_⟩
    rw [entry, Option.bind_some, if_pos rfl, same]

theorem registeredIn_concat (table : Option Bytes) (regs : PathTable) (r : Bytes × Made HttpHandler) :
    registeredIn table (regs ++ [r]) = registeredIn table regs ++ registeredIn table [r] :=
  List.filterMap_append

theorem registeredIn_one (r : Bytes × Made HttpHandler) :
    registeredIn none [r] = if registers r.1 then [r] else [] := by
  split
  · rename_i registered
    have entry := entryOf_all.mpr ⟨registered, rfl⟩
    simp [registeredIn, entry]
  · rename_i unregistered
    rw [List.eq_nil_iff_forall_not_mem]
    intro e listed
    obtain ⟨r', listed, entry, _⟩ := mem_registeredIn.mp listed
    rw [List.mem_singleton.mp listed] at entry
    exact unregistered (entryOf_all.mp entry).1

/-- The tables after the registrations. The path of a listener is put into no table of a
listener. -/
structure Registered (regs : PathTable) (t : Tables) : Prop where
  pathless : Pathless t
  sane : (t.globalHttpHandlers.getD newHeader).Sane hashString
  global : t.global = registeredIn none regs

theorem Registered.next (h : Registered regs t) (r : Bytes × Made HttpHandler)
    (distinct : ((registeredIn none (regs ++ [r])).map (·.1)).Nodup) :
    ∃ t', addHandler σ r.1 r.2 t = some t' ∧ Registered (regs ++ [r]) t' := by
  rw [registeredIn_concat, List.map_append] at distinct
  obtain ⟨-, -, apart⟩ := List.nodup_append.mp distinct
  rw [registeredIn_one] at apart
  by_cases registered : registers r.1 = true
  · have fresh : r.1 ∉ t.global.map Prod.fst := by
      rw [if_pos registered] at apart
      rw [h.global]
      exact fun listed => apart _ listed _ List.mem_cons_self rfl
    have keeps := StbDs.keepsKey_fresh σ h.sane fresh
    obtain ⟨h', result, sane, entries⟩ := (StbDs.shputs_iff h.sane σ r.1 r.2).1 keeps
    obtain ⟨t', added, global, -, pathless⟩ :=
      addHandler_spec (stored_registered registered result)
    refine ⟨t', added, pathless h.pathless, ?_, ?_⟩
    · rw [global]
      exact sane
    · have all : t'.global = put r.1 r.2 t.global := by
        rw [Tables.global, global]
        exact entries
      rw [all, put_fresh fresh, h.global, registeredIn_concat, registeredIn_one, if_pos registered]
  · have put : stored σ r.1 r.2 t.globalHttpHandlers = some t.globalHttpHandlers := by
      rw [stored, if_neg registered]
    obtain ⟨t', added, global, -, pathless⟩ := addHandler_spec put
    refine ⟨t', added, pathless h.pathless, ?_, ?_⟩
    · rw [global]
      exact h.sane
    · rw [Tables.global, global, registeredIn_concat, registeredIn_one, if_neg registered,
        List.append_nil]
      exact h.global

/-- Where the keys are distinct, the tables hold the registrations, whatever the seed is. -/
theorem register_holds (σ : UInt64) (distinct : ((registeredIn none regs).map (·.1)).Nodup) :
    ∃ t, register σ regs = some t ∧ Registered regs t := by
  induction regs using List.reverseRecOn with
  | nil => exact ⟨noTables, rfl, List.forall_mem_nil _, StbDs.sane_newHeader, rfl⟩
  | append_singleton regs r ih =>
    have before := distinct
    rw [registeredIn_concat, List.map_append] at before
    obtain ⟨t, made, holds⟩ := ih (List.nodup_append.mp before).1
    obtain ⟨t', added, holds'⟩ := holds.next (σ := σ) r distinct
    refine ⟨t', ?_, holds'⟩
    rw [register, List.foldlM_append]
    change (register σ regs).bind _ = _
    rw [made, Option.bind_some, List.foldlM_cons, added]
    rfl

/-- What is chosen is the longest of the handlers of all listeners. -/
theorem choice_longest (σ : UInt64) (distinct : ((registeredIn none regs).map (·.1)).Nodup)
    (listenUri uri : Bytes) : ∃ best, choice σ regs listenUri uri = some best ∧
      Longest uri [] (registeredIn none regs) best := by
  obtain ⟨t, made, holds⟩ := register_holds σ distinct
  have paths : (get listenUri t.baseHandlers).getD [] = [] := by
    cases found : get listenUri t.baseHandlers with
    | none => rfl
    | some paths => exact holds.pathless _ (mem_of_get found)
  have global : ∀ e ∈ t.global, e.1 ≠ [] := by
    rw [holds.global]
    intro e listed
    obtain ⟨r, _, entry, _⟩ := mem_registeredIn.mp listed
    obtain ⟨registered, same⟩ := entryOf_all.mp entry
    rw [← same]
    exact List.length_pos_iff.mp (registers_length registered)
  have longest := bestHandler_longest t listenUri uri
    (by rw [paths]; exact List.forall_mem_nil _) global
  rw [paths, holds.global] at longest
  exact ⟨_, by rw [choice, made, Option.map_some], longest⟩

theorem Longest.of_mem {globals' : PathTable} {best : Option (Bytes × Made HttpHandler)}
    (h : Longest uri paths globals best) (same : ∀ o, o ∈ globals' ↔ o ∈ globals) :
    Longest uri paths globals' best := by
  cases h with
  | default base global => exact .default base fun o listed => global o ((same o).mp listed)
  | listener listed fits base global =>
    exact .listener listed fits base fun o listed => global o ((same o).mp listed)
  | all listed fits base global =>
    exact .all ((same _).mpr listed) fits base fun o listed => global o ((same o).mp listed)

theorem Distinct.keys (distinct : Distinct regs) (table : Option Bytes) :
    ((registeredIn table regs).map (·.1)).Nodup := by
  have keys : (registeredIn table regs).map (·.1) = (regs.filterMap (entryOf ·.1)).filterMap
      fun entry => if entry.1 = table then some entry.2 else none := by
    rw [registeredIn, List.map_filterMap, List.filterMap_filterMap]
    congr 1
    funext r
    cases entryOf r.1 with
    | none => rfl
    | some entry =>
      change Option.map _ (if _ then _ else _) = if _ then _ else _
      split <;> rfl
  rw [keys]
  apply List.Nodup.filterMap ?_ distinct
  rintro ⟨here, key⟩ ⟨there, key'⟩ k left right
  rw [Option.mem_def, Option.ite_none_right_eq_some] at left right
  exact Prod.ext (left.1.trans right.1.symm) (Option.some.inj (left.2.trans right.2.symm))

/-- The order of the registrations does not matter. -/
theorem choice_perm {best : Option (Bytes × Made HttpHandler)} (distinct : Distinct regs)
    (perm : regs'.Perm regs) (chosen : choice σ regs listenUri uri = some best) :
    choice σ regs' listenUri uri = some best := by
  have tables : (registeredIn none regs').Perm (registeredIn none regs) := perm.filterMap _
  have distinct' : Distinct regs' := (perm.filterMap _).nodup_iff.mpr distinct
  obtain ⟨best', chosen', longest'⟩ := choice_longest σ (distinct'.keys none) listenUri uri
  obtain ⟨_, same, longest⟩ := choice_longest σ (distinct.keys none) listenUri uri
  cases chosen.symm.trans same
  rw [chosen', Longest.unique (show (List.map Prod.fst []).Nodup from List.nodup_nil)
    (distinct.keys none) (longest'.of_mem fun _ => tables.mem_iff.symm) longest]

/-- The right handler is chosen if and only if no handler of the listener is the right one, or it
is registered for all listeners as well. -/
theorem routesRight_iff (σ : UInt64) (regs : PathTable) (listenUri uri : Bytes)
    (distinct : Distinct regs) :
    RoutesRight σ regs listenUri uri ↔
      ∀ e ∈ registeredIn (some listenUri) regs, matchesBase uri e.1 = true →
        ∃ g ∈ registeredIn none regs, matchesGlobal uri g.1 = true ∧
          (e.1.length < g.1.length ∨ g = e) := by
  obtain ⟨best, made, chosen⟩ := choice_longest σ (distinct.keys none) listenUri uri
  have found : RoutesRight σ regs listenUri uri ↔
      Longest uri (registeredIn (some listenUri) regs) (registeredIn none regs) best := by
    constructor
    · rintro ⟨best', made', right, -⟩
      cases made.symm.trans made'
      exact right
    · exact fun right => ⟨best, made, right, fun regs' perm => choice_perm distinct perm made⟩
  rw [found]
  constructor
  · intro right e own fits
    cases right with
    | default base _ =>
      rw [base e own] at fits
      cases fits
    | @listener best listed fits' base _ =>
      cases chosen with
      | listener nothing => cases nothing
      | all global fitsAll _ _ =>
        refine ⟨best, global, fitsAll, ?_⟩
        rcases Nat.lt_or_eq_of_le (base e own fits) with shorter | length
        · exact Or.inl shorter
        · have key := same_key (matchesBase_start fits') (matchesBase_start fits) length.symm
          exact Or.inr (eq_of_keys (distinct.keys (some listenUri)) listed own key)
    | @all best listed fits' base _ => exact ⟨best, listed, fits', Or.inl (base e own fits)⟩
  · intro beaten
    cases chosen with
    | default _ global =>
      refine .default (fun o own => ?_) global
      by_contra fits
      obtain ⟨g, listed, fits', _⟩ := beaten o own (by simpa using fits)
      rw [global g listed] at fits'
      cases fits'
    | listener nothing => cases nothing
    | @all best listed fits _ global =>
      have within (o : Bytes × Made HttpHandler) (own : o ∈ registeredIn (some listenUri) regs)
          (ownFits : matchesBase uri o.1 = true) : o.1.length < best.1.length ∨ o = best := by
        obtain ⟨g, listed', fits', shorter | rfl⟩ := beaten o own ownFits
        · exact Or.inl (Nat.lt_of_lt_of_le shorter (global g listed' fits'))
        · rcases Nat.lt_or_eq_of_le (global g listed' fits') with shorter | length
          · exact Or.inl shorter
          · have key := same_key (matchesGlobal_start fits') (matchesGlobal_start fits) length
            exact Or.inr (eq_of_keys (distinct.keys none) listed' listed key)
      by_cases both : best ∈ registeredIn (some listenUri) regs ∧ matchesBase uri best.1 = true
      · refine .listener both.1 both.2 (fun o own fits' => ?_) global
        rcases within o own fits' with shorter | rfl
        · exact Nat.le_of_lt shorter
        · exact Nat.le_refl _
      · refine .all listed fits (fun o own fits' => ?_) global
        rcases within o own fits' with shorter | rfl
        · exact shorter
        · exact absurd ⟨own, fits'⟩ both

def hello : Made HttpHandler := ⟨.helloHttpHandler, none⟩

def local8080 : Bytes := ascii "http://127.0.0.1:8080"

theorem routesRight_sample : RoutesRight firstSeed [(ascii "/", ⟨.httpStaticDir, none⟩),
    (ascii "/api/", hello), (local8080 ++ ascii "/", hello)] local8080 (ascii "/api/users") := by
  apply (routesRight_iff firstSeed _ local8080 (ascii "/api/users") (by decide +kernel)).mpr
  decide +kernel

/-- A handler of a listener is not found. -/
theorem not_routesRight :
    ¬∀ σ regs listenUri uri, Distinct regs → RoutesRight σ regs listenUri uri := by
  intro always
  obtain ⟨best, chosen, longest, -⟩ :=
    always firstSeed [(local8080 ++ ascii "/hello", hello)] local8080 (ascii "/hello")
      (by decide +kernel)
  have nothing : choice firstSeed [(local8080 ++ ascii "/hello", hello)] local8080
      (ascii "/hello") = some none := by decide +kernel
  have fits : (ascii "/hello", hello) ∈ registeredIn (some local8080)
      [(local8080 ++ ascii "/hello", hello)] := by decide +kernel
  cases nothing.symm.trans chosen
  cases longest with
  | default base _ => exact absurd (base _ fits) (by decide +kernel)

end RouteSelection
