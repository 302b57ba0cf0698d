import Mathlib.Data.List.Basic
import Mathlib.Data.List.Perm.Basic

/-!
# Tables that keep their entries in the order of insertion

`put` replaces the value of a key where it stands, so the last value that was put under a
key is the one found; an append leaves the first one to be found. `scan` runs over a table
and keeps the largest key that passes, the first of equals.
-/

namespace StringMap

universe u v

variable {κ : Type u} {ν : Type v} [DecidableEq κ]

def get (k : κ) (m : List (κ × ν)) : Option ν := (m.find? (·.1 = k)).map (·.2)

def put (k : κ) (v : ν) : List (κ × ν) → List (κ × ν)
  | [] => [(k, v)]
  | (k', v') :: m => if k' = k then (k', v) :: m else (k', v') :: put k v m

/-- Changes the entry that `get` finds. -/
def adjust (k : κ) (f : ν → ν) : List (κ × ν) → List (κ × ν)
  | [] => []
  | (k', v') :: m => if k' = k then (k', f v') :: m else (k', v') :: adjust k f m

/-- Drops every entry of a key. -/
def erase (k : κ) (m : List (κ × ν)) : List (κ × ν) := m.filter (·.1 ≠ k)

@[simp] theorem get_nil (k : κ) : get k ([] : List (κ × ν)) = none := rfl

theorem get_cons (k k' : κ) (v : ν) (m : List (κ × ν)) :
    get k ((k', v) :: m) = if k' = k then some v else get k m := by
  unfold get
  by_cases same : k' = k
  · simp [same]
  · simp [same]

theorem get_put (k k' : κ) (v : ν) (m : List (κ × ν)) :
    get k (put k' v m) = if k' = k then some v else get k m := by
  induction m with
  | nil => exact get_cons k k' v []
  | cons entry m ih =>
    obtain ⟨k₀, v₀⟩ := entry
    by_cases here : k₀ = k'
    · subst here
      rw [put, if_pos rfl, get_cons, get_cons]
      split <;> rfl
    · rw [put, if_neg here, get_cons, get_cons, ih]
      by_cases first : k₀ = k
      · rw [if_pos first, if_neg (fun same => here (first.trans same.symm)), if_pos first]
      · rw [if_neg first, if_neg first]

theorem get_adjust (k k' : κ) (f : ν → ν) (m : List (κ × ν)) :
    get k (adjust k' f m) = if k' = k then (get k m).map f else get k m := by
  induction m with
  | nil =>
    rw [adjust, get_nil]
    split <;> rfl
  | cons entry m ih =>
    obtain ⟨k₀, v₀⟩ := entry
    by_cases here : k₀ = k'
    · subst here
      rw [adjust, if_pos rfl, get_cons, get_cons]
      split <;> rfl
    · rw [adjust, if_neg here, get_cons, get_cons, ih]
      by_cases first : k₀ = k
      · rw [if_pos first, if_neg (fun same => here (first.trans same.symm)), if_pos first]
      · rw [if_neg first, if_neg first]

theorem get_append (k : κ) (m n : List (κ × ν)) : get k (m ++ n) = (get k m).or (get k n) := by
  unfold get
  rw [List.find?_append]
  cases m.find? (·.1 = k) <;> rfl

theorem get_erase (k k' : κ) (m : List (κ × ν)) :
    get k (erase k' m) = if k' = k then none else get k m := by
  induction m with
  | nil =>
    rw [erase, List.filter_nil, get_nil]
    split <;> rfl
  | cons entry m ih =>
    obtain ⟨k₀, v₀⟩ := entry
    unfold erase at *
    by_cases here : k₀ = k'
    · subst here
      rw [List.filter_cons_of_neg (by simp), ih, get_cons]
      split <;> rfl
    · rw [List.filter_cons_of_pos (by simpa using here), get_cons, get_cons, ih]
      by_cases first : k₀ = k
      · rw [if_pos first, if_neg (fun same => here (first.trans same.symm)), if_pos first]
      · rw [if_neg first, if_neg first]

/-- Whatever holds of an entry holds after a `put` if it holds of the new one. -/
theorem put_forall {p : κ × ν → Prop} {k : κ} {v : ν} {m : List (κ × ν)}
    (old : ∀ e ∈ m, p e) (new : p (k, v)) : ∀ e ∈ put k v m, p e := by
  induction m with
  | nil =>
    intro e listed
    cases List.mem_singleton.mp listed
    exact new
  | cons entry m ih =>
    obtain ⟨k₀, v₀⟩ := entry
    rw [List.forall_mem_cons] at old
    unfold put
    split
    · rename_i same
      subst same
      exact List.forall_mem_cons.mpr ⟨new, old.2⟩
    · exact List.forall_mem_cons.mpr ⟨old.1, ih old.2⟩

theorem adjust_forall {p : κ × ν → Prop} {k : κ} {f : ν → ν} {m : List (κ × ν)}
    (old : ∀ e ∈ m, p e) (keep : ∀ v, p (k, v) → p (k, f v)) : ∀ e ∈ adjust k f m, p e := by
  induction m with
  | nil => exact old
  | cons entry m ih =>
    obtain ⟨k₀, v₀⟩ := entry
    rw [List.forall_mem_cons] at old
    unfold adjust
    split
    · rename_i same
      subst same
      exact List.forall_mem_cons.mpr ⟨keep v₀ old.1, old.2⟩
    · exact List.forall_mem_cons.mpr ⟨old.1, ih old.2⟩

theorem adjust_keys (k : κ) (f : ν → ν) (m : List (κ × ν)) :
    (adjust k f m).map (·.1) = m.map (·.1) := by
  induction m with
  | nil => rfl
  | cons entry m ih =>
    obtain ⟨k₀, v₀⟩ := entry
    unfold adjust
    split
    · rfl
    · rw [List.map_cons, List.map_cons, ih]

theorem adjust_append (k : κ) (f : ν → ν) (m n : List (κ × ν)) :
    adjust k f (m ++ n) = if k ∈ m.map (·.1) then adjust k f m ++ n else m ++ adjust k f n := by
  induction m with
  | nil => rfl
  | cons entry m ih =>
    obtain ⟨k₀, v₀⟩ := entry
    by_cases here : k₀ = k
    · rw [if_pos (by simp [here]), List.cons_append, adjust, adjust, if_pos here, if_pos here,
        List.cons_append]
    · rw [List.cons_append, adjust, adjust, if_neg here, if_neg here, ih]
      by_cases later : k ∈ m.map (·.1)
      · rw [if_pos later, if_pos (by simp [later]), List.cons_append]
      · rw [if_neg later, if_neg (by simp [later, Ne.symm here]), List.cons_append]

/-- `put` never makes a second entry of a key. -/
theorem put_keys {k : κ} {v : ν} {m : List (κ × ν)} (distinct : (m.map (·.1)).Nodup) :
    ((put k v m).map (·.1)).Nodup := by
  induction m with
  | nil => exact List.nodup_cons.mpr ⟨List.not_mem_nil, List.nodup_nil⟩
  | cons entry m ih =>
    obtain ⟨k₀, v₀⟩ := entry
    obtain ⟨fresh, rest⟩ := List.nodup_cons.mp distinct
    unfold put
    split
    · exact distinct
    · rename_i other
      refine List.nodup_cons.mpr ⟨?_, ih rest⟩
      intro listed
      obtain ⟨e, inside, same⟩ := List.mem_map.mp listed
      have apart : ∀ e ∈ put k v m, e.1 ≠ k₀ :=
        put_forall (fun e old same => fresh (List.mem_map.mpr ⟨e, old, same⟩)) (Ne.symm other)
      exact apart e inside same

/-- With one entry for each key, the entries are what `get` finds. -/
theorem get_of_mem {k : κ} {v : ν} {m : List (κ × ν)} (distinct : (m.map (·.1)).Nodup)
    (listed : (k, v) ∈ m) : get k m = some v := by
  induction m with
  | nil => cases listed
  | cons entry m ih =>
    obtain ⟨k₀, v₀⟩ := entry
    obtain ⟨fresh, rest⟩ := List.nodup_cons.mp distinct
    rw [get_cons]
    rcases List.mem_cons.mp listed with here | later
    · cases here
      exact if_pos rfl
    · rw [if_neg (fun same => fresh (List.mem_map.mpr ⟨_, later, same.symm⟩)), ih rest later]

theorem mem_of_get {k : κ} {v : ν} {m : List (κ × ν)} (found : get k m = some v) : (k, v) ∈ m := by
  unfold get at found
  obtain ⟨⟨k', v'⟩, here, rfl⟩ := Option.map_eq_some_iff.mp found
  have same : k' = k := by simpa using List.find?_some here
  subst same
  exact List.mem_of_find?_eq_some here

theorem isSome_of_mem {k : κ} {v : ν} {m : List (κ × ν)} (listed : (k, v) ∈ m) :
    (get k m).isSome = true := by
  rw [get, Option.isSome_map]
  exact List.find?_isSome.mpr ⟨_, listed, decide_eq_true rfl⟩

/-- What a `put` replaces is no longer counted. -/
theorem countP_put (q : ν → Bool) (k : κ) (v : ν) (m : List (κ × ν)) :
    (put k v m).countP (fun e => q e.2) + ((get k m).any q).toNat =
      m.countP (fun e => q e.2) + (q v).toNat := by
  induction m with
  | nil => cases h : q v <;> simp [put, h]
  | cons entry m ih =>
    obtain ⟨k₀, v₀⟩ := entry
    rw [get_cons]
    unfold put
    split
    · rw [List.countP_cons, List.countP_cons, Option.any_some]
      cases q v₀ <;> cases q v <;> simp
    · rw [List.countP_cons, List.countP_cons]
      dsimp only
      omega

theorem countP_erase {k : κ} {m : List (κ × ν)} (distinct : (m.map (·.1)).Nodup) (q : ν → Bool) :
    (erase k m).countP (fun e => q e.2) + ((get k m).any q).toNat = m.countP fun e => q e.2 := by
  induction m with
  | nil => rfl
  | cons entry m ih =>
    obtain ⟨k₀, v₀⟩ := entry
    obtain ⟨fresh, rest⟩ := List.nodup_cons.mp distinct
    rw [get_cons]
    by_cases here : k₀ = k
    · subst here
      have others : erase k₀ m = m := by
        apply List.filter_eq_self.mpr
        intro e listed
        simp only [decide_eq_true_eq]
        exact fun same => fresh (List.mem_map.mpr ⟨e, listed, same⟩)
      have gone : erase k₀ ((k₀, v₀) :: m) = m := by
        rw [erase, List.filter_cons_of_neg (by simp)]
        exact others
      rw [gone, if_pos rfl, List.countP_cons]
      cases h : q v₀ <;> simp [h]
    · have kept : erase k ((k₀, v₀) :: m) = (k₀, v₀) :: erase k m := by
        rw [erase, List.filter_cons_of_pos (by simpa using here), erase]
      rw [kept, if_neg here, List.countP_cons, List.countP_cons, ← ih rest]
      omega

def size (length : κ → Nat) : Option (κ × ν) → Nat
  | none => 0
  | some e => length e.1

def better (passes : κ → Bool) (length : κ → Nat) (best : Option (κ × ν)) (e : κ × ν) :
    Option (κ × ν) :=
  if passes e.1 && size length best < length e.1 then some e else best

def scan (passes : κ → Bool) (length : κ → Nat) (best : Option (κ × ν)) (m : List (κ × ν)) :
    Option (κ × ν) :=
  m.foldl (better passes length) best

variable {passes : κ → Bool} {length : κ → Nat}

omit [DecidableEq κ] in
/-- The scan ends with its start or with an entry that passes, and nothing that passes is
larger. -/
theorem scan_largest (m : List (κ × ν)) (best : Option (κ × ν)) :
    (scan passes length best m = best ∨
      ∃ e ∈ m, passes e.1 = true ∧ scan passes length best m = some e) ∧
    size length best ≤ size length (scan passes length best m) ∧
    ∀ e ∈ m, passes e.1 = true → length e.1 ≤ size length (scan passes length best m) := by
  induction m generalizing best with
  | nil => exact ⟨Or.inl rfl, Nat.le_refl _, fun _ listed => nomatch listed⟩
  | cons e m ih =>
    obtain ⟨origin, grows, largest⟩ := ih (better passes length best e)
    have step : scan passes length best (e :: m) =
        scan passes length (better passes length best e) m := rfl
    rw [← step] at origin grows largest
    by_cases wins : passes e.1 = true ∧ size length best < length e.1
    · have won : better passes length best e = some e := by simp [better, wins]
      rw [won] at origin grows
      refine ⟨Or.inr ?_, Nat.le_trans (Nat.le_of_lt wins.2) grows, ?_⟩
      · rcases origin with kept | ⟨e', listed, passed, chosen⟩
        · exact ⟨e, List.mem_cons_self, wins.1, kept⟩
        · exact ⟨e', List.mem_cons_of_mem e listed, passed, chosen⟩
      · exact List.forall_mem_cons.mpr ⟨fun _ => grows, largest⟩
    · have kept : better passes length best e = best := by
        unfold better
        rw [if_neg (by simpa using wins)]
      rw [kept] at origin grows
      refine ⟨?_, grows, ?_⟩
      · rcases origin with same | ⟨e', listed, passed, chosen⟩
        · exact Or.inl same
        · exact Or.inr ⟨e', List.mem_cons_of_mem e listed, passed, chosen⟩
      · refine List.forall_mem_cons.mpr ⟨fun passed => ?_, largest⟩
        exact Nat.le_trans (Nat.le_of_not_lt fun larger => wins ⟨passed, larger⟩) grows

omit [DecidableEq κ] in
/-- What takes the place of the start is larger than it. -/
theorem scan_beats (m : List (κ × ν)) (best : Option (κ × ν)) :
    scan passes length best m = best ∨
      ∃ e ∈ m, passes e.1 = true ∧ scan passes length best m = some e ∧
        size length best < length e.1 := by
  induction m generalizing best with
  | nil => exact Or.inl rfl
  | cons e m ih =>
    have step : scan passes length best (e :: m) =
        scan passes length (better passes length best e) m := rfl
    rw [step]
    by_cases wins : passes e.1 = true ∧ size length best < length e.1
    · have won : better passes length best e = some e := by simp [better, wins]
      rw [won]
      right
      rcases ih (some e) with kept | ⟨e', listed, passed, chosen, larger⟩
      · exact ⟨e, List.mem_cons_self, wins.1, kept, wins.2⟩
      · exact ⟨e', List.mem_cons_of_mem e listed, passed, chosen, Nat.lt_trans wins.2 larger⟩
    · have kept : better passes length best e = best := by
        unfold better
        rw [if_neg (by simpa using wins)]
      rw [kept]
      rcases ih best with same | ⟨e', listed, rest⟩
      · exact Or.inl same
      · exact Or.inr ⟨e', List.mem_cons_of_mem e listed, rest⟩

/-- A new key comes to the end. -/
theorem put_fresh {k : κ} {v : ν} {m : List (κ × ν)} (fresh : k ∉ m.map (·.1)) :
    put k v m = m ++ [(k, v)] := by
  induction m with
  | nil => rfl
  | cons entry m ih =>
    obtain ⟨k₀, v₀⟩ := entry
    obtain ⟨other, rest⟩ := List.ne_and_not_mem_of_not_mem_cons fresh
    rw [put, if_neg (Ne.symm other), ih rest, List.cons_append]

/-- A change of every value. -/
theorem get_map (f : ν → ν) (k : κ) (m : List (κ × ν)) :
    get k (m.map fun e => (e.1, f e.2)) = (get k m).map f := by
  induction m with
  | nil => rfl
  | cons entry m ih =>
    rw [List.map_cons, get_cons, get_cons, ih]
    split <;> rfl

section Order

variable {k k' : κ} {v : ν} {m n : List (κ × ν)}

/-- With one entry for each key, the order of the entries does not matter. -/
theorem get_perm (same : m.Perm n) (distinct : (m.map (·.1)).Nodup) : get k m = get k n := by
  have distinct' : (n.map (·.1)).Nodup := (same.map (·.1)).nodup_iff.mp distinct
  refine Option.ext fun v => ?_
  constructor
  · exact fun found => get_of_mem distinct' (same.subset (mem_of_get found))
  · exact fun found => get_of_mem distinct (same.symm.subset (mem_of_get found))

/-- What is left after an entry has been taken out. -/
theorem get_rest (same : m.Perm ((k', v) :: n)) (distinct : (m.map (·.1)).Nodup) :
    get k n = if k' = k then none else get k m := by
  have distinct' : ((k', v) :: n |>.map (·.1)).Nodup := (same.map (·.1)).nodup_iff.mp distinct
  rw [get_perm same distinct, get_cons]
  split
  · rename_i here
    subst here
    refine Option.eq_none_iff_forall_not_mem.mpr fun w found => ?_
    exact (List.nodup_cons.mp distinct').1 (List.mem_map.mpr ⟨_, mem_of_get found, rfl⟩)
  · rfl

theorem get_eq_findIdx? (k : κ) (m : List (κ × ν)) :
    get k m = (m.findIdx? (·.1 = k)).bind fun i => m[i]?.map (·.2) := by
  induction m with
  | nil => rfl
  | cons entry m ih =>
    rw [get_cons, List.findIdx?_cons, ih]
    by_cases here : entry.1 = k
    · rw [if_pos here, if_pos (decide_eq_true here)]
      rfl
    · rw [if_neg here, if_neg (by simpa using here), Option.bind_map]
      rfl

/-- A known key keeps its place. -/
theorem put_known {i : Nat} (found : m.findIdx? (·.1 = k) = some i) :
    put k v m = m.modify i fun e => (e.1, v) := by
  induction m generalizing i with
  | nil => cases found
  | cons entry m ih =>
    rw [List.findIdx?_cons] at found
    by_cases here : entry.1 = k
    · rw [if_pos (decide_eq_true here), Option.some.injEq] at found
      rw [put, if_pos here, ← found]
      rfl
    · rw [if_neg (by simpa using here)] at found
      obtain ⟨j, inside, rfl⟩ := Option.map_eq_some_iff.mp found
      rw [put, if_neg here, ih inside]
      rfl

theorem findIdx?_eq_none_iff_fresh : m.findIdx? (·.1 = k) = none ↔ k ∉ m.map (·.1) := by
  rw [List.findIdx?_eq_none_iff, List.mem_map]
  constructor
  · rintro none ⟨e, listed, same⟩
    exact absurd (none e listed) (by simpa using same)
  · intro fresh e listed
    exact decide_eq_false fun same => fresh ⟨e, listed, same⟩

end Order

section SwapErase

variable {k k' : κ} {v : ν} {m : List (κ × ν)} {i : Nat}

/-- The last entry comes to the place of the deleted one. -/
def swapErase (k : κ) (m : List (κ × ν)) : List (κ × ν) :=
  match m.findIdx? (·.1 = k), m.getLast? with
  | some i, some last => (m.set i last).dropLast
  | _, _ => m

/-- In a table with one entry for each key a place belongs to its key. -/
theorem findIdx?_of_getElem? (distinct : (m.map (·.1)).Nodup) (there : m[i]? = some (k, v)) :
    m.findIdx? (·.1 = k) = some i := by
  induction m generalizing i with
  | nil => cases there
  | cons entry m ih =>
    obtain ⟨fresh, rest⟩ := List.nodup_cons.mp distinct
    rw [List.findIdx?_cons]
    cases i with
    | zero =>
      cases there
      exact if_pos (decide_eq_true rfl)
    | succ i =>
      have next : m[i]? = some (k, v) := there
      have later := List.mem_of_getElem? next
      have other : ¬entry.1 = k := by
        rintro rfl
        exact fresh (List.mem_map.mpr ⟨_, later, rfl⟩)
      rw [if_neg (by simpa using other), ih rest next]
      rfl

/-- The entries that are left, with the one that was deleted. -/
theorem swapErase_perm (there : m[i]? = some (k, v)) (found : m.findIdx? (·.1 = k) = some i) :
    m.Perm ((k, v) :: swapErase k m) := by
  obtain ⟨init, last, rfl⟩ : ∃ init last, m = init ++ [last] := by
    rcases List.eq_nil_or_concat m with rfl | ⟨init, last, whole⟩
    · cases there
    · exact ⟨init, last, whole.trans List.concat_eq_append⟩
  unfold swapErase
  rw [found, List.getLast?_concat]
  dsimp only
  obtain ⟨inside, here⟩ := List.getElem?_eq_some_iff.mp there
  rw [List.length_append, List.length_singleton] at inside
  by_cases final : i = init.length
  · subst final
    rw [List.getElem_concat_length rfl] at here
    rw [List.set_append_right _ _ (Nat.le_refl _), Nat.sub_self, List.set_cons_zero,
      List.dropLast_concat, ← here]
    exact List.perm_append_singleton _ _
  · have before : i < init.length := by omega
    rw [List.getElem_append_left before] at here
    rw [List.set_append_left _ _ before, List.dropLast_concat]
    refine (List.perm_append_singleton _ _).trans ?_
    have exchanged := List.set_perm_cons_eraseIdx before last
    refine List.Perm.trans ?_ (List.Perm.cons _ exchanged.symm)
    refine List.Perm.trans (List.Perm.cons last ?_) (List.Perm.swap _ _ _)
    rw [← here]
    exact (List.getElem_cons_eraseIdx_perm before).symm

theorem swapErase_fresh (fresh : k ∉ m.map (·.1)) : swapErase k m = m := by
  unfold swapErase
  rw [findIdx?_eq_none_iff_fresh.mpr fresh]

theorem swapErase_keys (distinct : (m.map (·.1)).Nodup) :
    ((swapErase k m).map (·.1)).Nodup := by
  cases found : m.findIdx? (·.1 = k) with
  | none => rwa [swapErase_fresh (findIdx?_eq_none_iff_fresh.mp found)]
  | some i =>
    obtain ⟨inside, same, -⟩ := List.findIdx?_eq_some_iff_getElem.mp found
    have here : m[i].1 = k := by simpa using same
    have there : m[i]? = some (k, m[i].2) := by rw [List.getElem?_eq_getElem inside, ← here]
    have left := ((swapErase_perm there found).map (·.1)).nodup_iff.mp distinct
    exact (List.nodup_cons.mp left).2

end SwapErase

end StringMap
