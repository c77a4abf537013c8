import Mathlib

set_option autoImplicit false

/-! # Insertion-ordered dictionaries

`Dict K V` is an association list whose keys are distinct: the order of the entries is the order in
which keys were first inserted, an assignment to a present key keeps its place, and a deleted key
that is inserted again goes to the end. The structure carries distinctness as a field, so a lookup
determines the entry and sums over the entries change by exactly one summand per update.

The library is generic in keys and values; programs instantiate it at their own tables. -/

open List

/-- A dictionary with its entries in insertion order and every key at most once. -/
structure Dict (K V : Type) where
  entries : List (K × V)
  nodup : (entries.map Prod.fst).Nodup

namespace Dict

variable {K V : Type}

def empty : Dict K V := ⟨[], nodup_nil⟩

instance : Inhabited (Dict K V) := ⟨empty⟩

instance [DecidableEq K] [DecidableEq V] : DecidableEq (Dict K V) := fun a b =>
  decidable_of_iff (a.entries = b.entries) (by cases a; cases b; simp)

@[ext]
theorem ext {a b : Dict K V} (h : a.entries = b.entries) : a = b := by
  cases a; cases b; simp_all

def keys (d : Dict K V) : List K := d.entries.map Prod.fst

def values (d : Dict K V) : List V := d.entries.map Prod.snd

variable [DecidableEq K] {d : Dict K V} {k : K} {l : List (K × V)} {v : V}

/-! ## Lookup -/

/-- The value stored under `k` in an association list. -/
def lookup (k : K) : List (K × V) → Option V
  | [] => none
  | (k', v) :: rest => if k' = k then some v else lookup k rest

/-- `d.get(k)`. -/
def get? (d : Dict K V) (k : K) : Option V := lookup k d.entries

/-- `k in d`. -/
def contains (d : Dict K V) (k : K) : Bool := (d.get? k).isSome

theorem mem_of_lookup (h : lookup k l = some v) : (k, v) ∈ l := by
  induction l with
  | nil => simp [lookup] at h
  | cons e rest ih =>
    obtain ⟨k', v'⟩ := e
    rw [lookup] at h
    split at h
    next he => cases h; subst he; exact mem_cons_self
    · exact mem_cons_of_mem _ (ih h)

theorem lookup_of_mem (hn : (l.map Prod.fst).Nodup) (h : (k, v) ∈ l) : lookup k l = some v := by
  induction l with
  | nil => simp at h
  | cons e rest ih =>
    obtain ⟨k', v'⟩ := e
    rw [map_cons, nodup_cons] at hn
    rw [lookup]
    rcases mem_cons.1 h with he | hr
    · cases he; simp
    · have hne : k' ≠ k := fun he => hn.1 (he ▸ mem_map.2 ⟨(k, v), hr, rfl⟩)
      rw [if_neg hne]
      exact ih hn.2 hr

theorem lookup_eq_none : lookup k l = none ↔ k ∉ l.map Prod.fst := by
  induction l with
  | nil => simp [lookup]
  | cons e rest ih =>
    obtain ⟨k', v'⟩ := e
    rw [lookup]
    split
    next he => simp [he]
    next he => simp only [ih, map_cons, mem_cons, not_or]; exact ⟨fun h => ⟨Ne.symm he, h⟩, And.right⟩

theorem lookup_filter (p : K → Bool) (k : K) (l : List (K × V)) :
    lookup k (l.filter (fun e => p e.1)) = if p k then lookup k l else none := by
  induction l with
  | nil => simp [lookup]
  | cons e rest ih =>
    obtain ⟨k', v'⟩ := e
    by_cases hp : p k' = true
    · rw [filter_cons_of_pos (by simpa using hp), lookup, lookup, ih]
      by_cases hk : k' = k
      · rw [if_pos hk, if_pos hk, if_pos (hk ▸ hp)]
      · rw [if_neg hk, if_neg hk]
    · rw [filter_cons_of_neg (by simpa using hp), ih, lookup]
      by_cases hk : k' = k
      · rw [if_neg (hk ▸ hp), if_neg (hk ▸ hp)]
      · rw [if_neg hk]

theorem lookup_map {W : Type} (f : V → W) (k : K) (l : List (K × V)) :
    lookup k (l.map (fun e => (e.1, f e.2))) = (lookup k l).map f := by
  induction l with
  | nil => rfl
  | cons e rest ih =>
    obtain ⟨k', v'⟩ := e
    rw [map_cons, lookup, lookup, ih]
    split <;> rfl

theorem mem_entries : (k, v) ∈ d.entries ↔ d.get? k = some v :=
  ⟨lookup_of_mem d.nodup, mem_of_lookup⟩

theorem get?_eq_none : d.get? k = none ↔ k ∉ d.keys := lookup_eq_none

theorem mem_keys : k ∈ d.keys ↔ ∃ v, d.get? k = some v := by
  cases h : d.get? k with
  | none => simpa using get?_eq_none.1 h
  | some v => exact ⟨fun _ => ⟨v, rfl⟩, fun _ => mem_map.2 ⟨(k, v), mem_entries.2 h, rfl⟩⟩

@[simp]
theorem get?_empty (k : K) : (empty : Dict K V).get? k = none := rfl

/-! ## Assignment -/

/-- Overwrite the value of `k` in place, or append the entry. -/
def setEntries (k : K) (v : V) : List (K × V) → List (K × V)
  | [] => [(k, v)]
  | (k', v') :: rest => if k' = k then (k', v) :: rest else (k', v') :: setEntries k v rest

theorem setEntries_of_not_mem (h : k ∉ l.map Prod.fst) : setEntries k v l = l ++ [(k, v)] := by
  induction l with
  | nil => rfl
  | cons e rest ih =>
    obtain ⟨k', v'⟩ := e
    simp only [map_cons, mem_cons, not_or] at h
    rw [setEntries, if_neg (Ne.symm h.1), ih h.2]
    rfl

theorem setEntries_keys_of_mem (h : k ∈ l.map Prod.fst) :
    (setEntries k v l).map Prod.fst = l.map Prod.fst := by
  induction l with
  | nil => simp at h
  | cons e rest ih =>
    obtain ⟨k', v'⟩ := e
    rw [setEntries]
    split
    · rfl
    next hne =>
      rcases mem_cons.1 h with he | hr
      · exact absurd he.symm hne
      · simp only [map_cons, ih hr]

theorem lookup_setEntries (k k' : K) (v : V) (l : List (K × V)) :
    lookup k' (setEntries k v l) = if k = k' then some v else lookup k' l := by
  induction l with
  | nil => rfl
  | cons e rest ih =>
    obtain ⟨k₀, v₀⟩ := e
    rw [setEntries]
    by_cases hk : k₀ = k
    · rw [if_pos hk, lookup, lookup]
      subst hk
      by_cases hk' : k₀ = k' <;> simp [hk']
    · rw [if_neg hk, lookup, lookup, ih]
      by_cases hk' : k₀ = k'
      · rw [if_pos hk', if_pos hk', if_neg (fun he => hk (hk'.trans he.symm))]
      · rw [if_neg hk', if_neg hk']

/-- `d[k] = v`. -/
def set (d : Dict K V) (k : K) (v : V) : Dict K V where
  entries := setEntries k v d.entries
  nodup := by
    by_cases h : k ∈ d.entries.map Prod.fst
    · rw [setEntries_keys_of_mem h]; exact d.nodup
    · rw [setEntries_of_not_mem h, map_append]
      exact d.nodup.append (nodup_singleton k) (disjoint_singleton.2 h)

theorem entries_set_of_not_mem (h : k ∉ d.keys) (v : V) :
    (d.set k v).entries = d.entries ++ [(k, v)] := setEntries_of_not_mem h

theorem get?_set (d : Dict K V) (k k' : K) (v : V) :
    (d.set k v).get? k' = if k = k' then some v else d.get? k' :=
  lookup_setEntries k k' v d.entries

@[simp]
theorem get?_set_self (d : Dict K V) (k : K) (v : V) : (d.set k v).get? k = some v := by
  rw [get?_set, if_pos rfl]

theorem get?_set_of_ne (d : Dict K V) {k' : K} (v : V) (h : k ≠ k') : (d.set k v).get? k' = d.get? k' := by
  rw [get?_set, if_neg h]

theorem get?_set_eq_some {k' : K} {v' : V} :
    (d.set k v).get? k' = some v' ↔ (k' = k ∧ v' = v) ∨ (k' ≠ k ∧ d.get? k' = some v') := by
  rw [get?_set]
  by_cases h : k = k'
  · simp [h, eq_comm]
  · simp [h, Ne.symm h]

theorem set_set (d : Dict K V) (k : K) (v v' : V) : (d.set k v).set k v' = d.set k v' := by
  refine Dict.ext ?_
  show setEntries k v' (setEntries k v d.entries) = setEntries k v' d.entries
  induction d.entries with
  | nil => simp [setEntries]
  | cons e rest ih =>
    obtain ⟨k₀, v₀⟩ := e
    by_cases hk : k₀ = k
    · simp [setEntries, hk]
    · simp [setEntries, hk, ih]

theorem mem_keys_set {k' : K} : k' ∈ (d.set k v).keys ↔ k' = k ∨ k' ∈ d.keys := by
  rw [mem_keys, mem_keys, get?_set]
  by_cases h : k = k'
  · simp [h]
  · rw [if_neg h]
    exact ⟨.inr, fun h' => h'.resolve_left (fun he => h he.symm)⟩

theorem entries_foldl_set {α : Type} {key : α → K} {val : α → V} {l : List α}
    (hl : (l.map key).Nodup) (hd : ∀ a ∈ l, key a ∉ d.keys) :
    (l.foldl (fun d a => d.set (key a) (val a)) d).entries =
      d.entries ++ l.map fun a => (key a, val a) := by
  induction l generalizing d with
  | nil => simp
  | cons a l ih =>
    obtain ⟨ha, hl⟩ := nodup_cons.1 hl
    rw [foldl_cons, ih hl, entries_set_of_not_mem (hd a mem_cons_self)]
    · simp
    · intro b hb hmem
      rcases mem_keys_set.1 hmem with heq | hold
      · exact ha (mem_map.2 ⟨b, hb, heq⟩)
      · exact hd b (.tail _ hb) hold

/-! ## Update in place -/

/-- Mutate the object stored under `k`, if there is one. -/
def modify (d : Dict K V) (k : K) (f : V → V) : Dict K V :=
  match d.get? k with
  | some v => d.set k (f v)
  | none => d

theorem modify_of_some (h : d.get? k = some v) (f : V → V) : d.modify k f = d.set k (f v) := by
  rw [modify, h]

theorem get?_modify (d : Dict K V) (k k' : K) (f : V → V) :
    (d.modify k f).get? k' = if k = k' then (d.get? k').map f else d.get? k' := by
  cases h : d.get? k with
  | none =>
    rw [modify, h]
    by_cases hk : k = k'
    · subst hk; simp [h]
    · rw [if_neg hk]
  | some v =>
    rw [modify_of_some h, get?_set]
    by_cases hk : k = k'
    · subst hk; simp [h]
    · rw [if_neg hk, if_neg hk]

/-! ## Deletion -/

/-- `d.pop(k, None)` without its result: the dictionary without `k`. -/
def erase (d : Dict K V) (k : K) : Dict K V where
  entries := d.entries.filter fun e => e.1 ≠ k
  nodup := d.nodup.sublist (List.Sublist.map _ filter_sublist)

theorem get?_erase (d : Dict K V) (k k' : K) :
    (d.erase k).get? k' = if k = k' then none else d.get? k' := by
  have h := lookup_filter (fun x => decide (x ≠ k)) k' d.entries
  by_cases hk : k = k'
  · rw [if_pos hk]
    simpa [hk, get?, erase] using h
  · rw [if_neg hk]
    simpa [Ne.symm hk, get?, erase] using h

@[simp]
theorem get?_erase_self (d : Dict K V) (k : K) : (d.erase k).get? k = none := by
  rw [get?_erase, if_pos rfl]

theorem get?_erase_of_ne (d : Dict K V) {k' : K} (h : k ≠ k') : (d.erase k).get? k' = d.get? k' := by
  rw [get?_erase, if_neg h]

theorem get?_erase_eq_some {k' : K} : (d.erase k).get? k' = some v ↔ k' ≠ k ∧ d.get? k' = some v := by
  rw [get?_erase]
  by_cases h : k = k'
  · simp [h]
  · simp [h, Ne.symm h]

theorem erase_erase_self (d : Dict K V) (k : K) : (d.erase k).erase k = d.erase k := by
  refine Dict.ext ?_
  simp only [erase, filter_filter, Bool.and_self]

/-! ## Sums over the entries

The quantities programs keep beside a table (bytes in use, entries of a kind) are sums over its
entries; these lemmas say by which summand one update changes them. -/

/-- The sum of `f` over the entries. -/
def sum {M : Type} [AddCommMonoid M] (d : Dict K V) (f : K → V → M) : M :=
  (d.entries.map (fun e => f e.1 e.2)).sum

variable {M : Type} [AddCommMonoid M]

theorem perm_of_get? {d' : Dict K V} (h : d.get? k = some v) (hd' : ∀ k', k' ≠ k → d'.get? k' = d.get? k')
    (hk : d'.get? k = none) : d.entries.Perm ((k, v) :: d'.entries) := by
  have hnot : (k, v) ∉ d'.entries := fun hmem => by
    rw [mem_entries, hk] at hmem
    cases hmem
  refine (perm_ext_iff_of_nodup (.of_map _ d.nodup)
    (nodup_cons.2 ⟨hnot, .of_map _ d'.nodup⟩)).2 fun e => ?_
  obtain ⟨k', v'⟩ := e
  rw [mem_cons, mem_entries, mem_entries, Prod.mk.injEq]
  by_cases hne : k' = k
  · subst hne
    simp [h, hk, eq_comm]
  · simp [hne, hd' k' hne]

theorem sum_erase_of_some (h : d.get? k = some v)
    (f : K → V → M) : (d.erase k).sum f + f k v = d.sum f := by
  have hperm := perm_of_get? h (fun k' hk' => get?_erase_of_ne d (Ne.symm hk')) (get?_erase_self d k)
  rw [sum, sum, (hperm.map _).sum_eq, map_cons, sum_cons, add_comm]

theorem sum_set_of_some {v₀ : V} (h : d.get? k = some v₀) (v : V)
    (f : K → V → M) : (d.set k v).sum f + f k v₀ = d.sum f + f k v := by
  have hperm := perm_of_get? (get?_set_self d k v) (fun k' hk' =>
    (get?_erase_of_ne d (Ne.symm hk')).trans (get?_set_of_ne d v (Ne.symm hk')).symm) (get?_erase_self d k)
  rw [← sum_erase_of_some h, sum, sum, (hperm.map _).sum_eq, map_cons, sum_cons]
  abel

theorem sum_set_of_none (h : d.get? k = none) (v : V) (f : K → V → M) :
    (d.set k v).sum f = d.sum f + f k v := by
  have hent : (d.set k v).entries = d.entries ++ [(k, v)] :=
    setEntries_of_not_mem (lookup_eq_none.1 h)
  simp only [sum, hent, map_append, sum_append, map_cons, map_nil, sum_cons, sum_nil, add_zero]

theorem length_keys_erase (h : k ∈ d.keys) : (d.erase k).keys.length + 1 = d.keys.length := by
  obtain ⟨v, hv⟩ := mem_keys.1 h
  have hsum := sum_erase_of_some hv fun _ _ => (1 : Nat)
  simpa [sum, keys] using hsum

end Dict
