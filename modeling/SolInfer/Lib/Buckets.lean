import SolInfer.Lib.Dict

set_option autoImplicit false

/-! # Buckets

An index that keeps a list of values for each key, as a dictionary of lists. A key without an entry has an
empty bucket. -/

namespace Dict

variable {K V : Type} [DecidableEq K]

variable (d : Dict K (List V))

def bucket (k : K) : List V := (d.get? k).getD []

/-- `d.entry(k).or_default().push(v)` -/
def push (k : K) (v : V) : Dict K (List V) := d.set k (d.bucket k ++ [v])

/-- `d.get_mut(k)`, and `retain` on what is found. -/
def retain (k : K) (p : V → Bool) : Dict K (List V) :=
  d.modify k fun vs => vs.filter p

theorem bucket_push (k k' : K) (v : V) :
    (d.push k v).bucket k' = if k = k' then d.bucket k' ++ [v] else d.bucket k' := by
  rw [bucket, push, get?_set]
  by_cases hk : k = k'
  · subst hk
    simp
  · simp [hk, bucket]

theorem bucket_retain (k k' : K) (p : V → Bool) :
    (d.retain k p).bucket k' = if k = k' then (d.bucket k').filter p else d.bucket k' := by
  rw [bucket, retain, get?_modify]
  by_cases hk : k = k'
  · subst hk
    cases hget : d.get? k <;> simp [bucket, hget]
  · simp [hk, bucket]

/-! ## Indexes by a key

A table of values by id is indexed by a key of the values when each id is kept once, under the key of its
value. -/

section Indexes

variable {I W : Type} [DecidableEq I] {key : W → K} {get : I → Option W} {d : Dict K (List I)}

/-- Each id is in the bucket of the key of its value, once, and in no other. -/
def Indexes (key : W → K) (get : I → Option W) (d : Dict K (List I)) : Prop :=
  ∀ k id, (d.bucket k).count id = if (get id).any (fun w => key w = k) then 1 else 0

theorem indexes_empty (key : W → K) : Indexes key (fun _ : I => none) empty := by
  intro k id
  simp [bucket]

theorem indexes_push_iff (h : Indexes key get d) {id : I} {w : W} :
    Indexes key (Function.update get id (some w)) (d.push (key w) id) ↔ get id = none := by
  constructor
  · intro hpush
    by_contra hsome
    obtain ⟨w₀, hw₀⟩ := Option.ne_none_iff_exists'.1 hsome
    -- the bucket in which the id is already
    have hcount := hpush (key w₀) id
    have hold := h (key w₀) id
    rw [bucket_push, Function.update_self] at hcount
    by_cases hk : key w = key w₀ <;> simp_all [List.count_append]
  · intro hnone k id'
    rw [bucket_push]
    by_cases hid : id' = id
    · subst hid
      have hold := h k id'
      by_cases hk : key w = k <;> simp_all [List.count_append]
    · have hold := h k id'
      rw [Function.update_of_ne hid]
      split
      · rw [List.count_append, hold, List.count_singleton]
        simp [Ne.symm hid]
      · exact hold

theorem Indexes.retain (h : Indexes key get d) {id : I} {w : W} (hw : get id = some w) :
    Indexes key (Function.update get id none) (d.retain (key w) (fun i => i ≠ id)) := by
  intro k id'
  have hold := h k id'
  rw [bucket_retain]
  by_cases hid : id' = id
  · subst hid
    rw [Function.update_self]
    by_cases hk : key w = k
    · rw [if_pos hk, List.count_eq_zero_of_not_mem (fun hmem => by simp at hmem)]
      rfl
    · simpa [hk, hw] using hold
  · rw [Function.update_of_ne hid]
    split
    · rw [List.count_filter (by simpa using hid), hold]
    · exact hold

end Indexes

end Dict
