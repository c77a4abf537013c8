import SolInfer.Lib.Python

set_option autoImplicit false

/-! # Dispatch policies

`dispatch_policy.py`: how an instance of a pool is chosen. Lists of free slots have one entry per
instance; an index outside the list counts as full here. -/

structure RoundRobin where
  numInstances : Nat
  next : Nat
deriving DecidableEq, Repr

namespace RoundRobin

/-- `RoundRobin.__init__`, with the check of the base class. -/
def new (numInstances : Int) : Except PyError RoundRobin :=
  if numInstances < 1 then .error (.valueError s!"num_instances must be >= 1, got {numInstances}")
  else .ok { numInstances := numInstances.toNat, next := 0 }

/-- `select`, which does not look at the active counts. -/
def select (p : RoundRobin) : Nat × RoundRobin :=
  (p.next, { p with next := (p.next + 1) % p.numInstances })

/-- The loop of `select_with_capacity`: at most `rounds` instances are looked at. -/
def scan (p : RoundRobin) (freeSlots : List Int) : Nat → Option Nat × RoundRobin
  | 0 => (none, p)
  | rounds + 1 =>
    let idx := p.next
    let p' := { p with next := (p.next + 1) % p.numInstances }
    if 0 < freeSlots.getD idx 0 then (some idx, p') else p'.scan freeSlots rounds

def selectWithCapacity (p : RoundRobin) (freeSlots : List Int) : Option Nat × RoundRobin :=
  p.scan freeSlots p.numInstances

end RoundRobin

structure MaxFreeSlotsFirst where
  numInstances : Nat
  tiebreak : Nat
deriving DecidableEq, Repr

namespace MaxFreeSlotsFirst

variable (p : MaxFreeSlotsFirst) (freeSlots : List Int)

/-- One round of the loop of `select_with_capacity`: the best instance so far, and its slots. -/
def better (best : Option Nat × Int) (i : Nat) : Option Nat × Int :=
  let free := freeSlots.getD i 0
  if best.2 < free then (some i, free)
  else if free = best.2 ∧ 0 < best.2 ∧ i = p.tiebreak % p.numInstances then (some i, best.2)
  else best

def selectWithCapacity : Option Nat × MaxFreeSlotsFirst :=
  (((List.range p.numInstances).foldl (p.better freeSlots) (none, 0)).1,
    { p with tiebreak := p.tiebreak + 1 })

/-- The best instance so far has as many free slots as noted, and at least one. -/
def Best (best : Option Nat × Int) : Prop :=
  0 ≤ best.2 ∧ ∀ i, best.1 = some i → freeSlots.getD i 0 = best.2 ∧ 0 < best.2

theorem better_best {p : MaxFreeSlotsFirst} {freeSlots : List Int} {best : Option Nat × Int}
    (h : Best freeSlots best) (i : Nat) : Best freeSlots (p.better freeSlots best i) := by
  simp only [better]
  obtain ⟨hnonneg, hbest⟩ := h
  split
  next hlt =>
    refine ⟨by omega, fun j hj => ?_⟩
    cases hj
    exact ⟨rfl, by omega⟩
  · split
    next heq =>
      refine ⟨hnonneg, fun j hj => ?_⟩
      cases hj
      exact ⟨heq.1, heq.2.1⟩
    · exact ⟨hnonneg, hbest⟩

end MaxFreeSlotsFirst

/-! ## What the dispatch policies choose

Both policies choose an instance with a free slot whenever there is one. `RoundRobin` starves none:
a call that passes an instance over moves the cursor closer to it, so an instance that stays free is
reached before the cursor has gone round once. -/

/-- `idx` is `none` exactly when no entry is positive, and otherwise a positive one. -/
structure Selects (freeSlots : List Int) (idx : Option Nat) : Prop where
  none_iff : idx = none ↔ ∀ s ∈ freeSlots, s ≤ 0
  positive : ∀ i, idx = some i → ∃ s, freeSlots[i]? = some s ∧ 0 < s

theorem getElem?_of_getD_pos {l : List Int} {i : Nat} (h : 0 < l.getD i 0) : l[i]? = some (l.getD i 0) := by
  rw [List.getD_eq_getElem?_getD] at h ⊢
  cases hi : l[i]? with
  | none => rw [hi] at h; exact absurd h (by decide)
  | some s => rfl

theorem forall_mem_le_iff {l : List Int} {m : Int} : (∀ s ∈ l, s ≤ m) ↔ ∀ i < l.length, l.getD i 0 ≤ m := by
  constructor
  · intro h i hi
    rw [List.getD_eq_getElem _ _ hi]
    exact h _ (List.getElem_mem hi)
  · intro h s hs
    obtain ⟨i, hi, rfl⟩ := List.getElem_of_mem hs
    have := h i hi
    rwa [List.getD_eq_getElem _ _ hi] at this

variable {freeSlots : List Int}

namespace RoundRobin

variable {p : RoundRobin}

inductive Reachable : RoundRobin → Prop where
  | new {numInstances : Int} {p : RoundRobin} (h : RoundRobin.new numInstances = .ok p) : Reachable p
  | select {p : RoundRobin} (h : Reachable p) : Reachable p.select.2
  | selectWithCapacity {p : RoundRobin} (h : Reachable p) (freeSlots : List Int)
      (hl : freeSlots.length = p.numInstances) : Reachable (p.selectWithCapacity freeSlots).2

/-! ## One call -/

/-- The instance `i` places after the cursor. -/
def ahead (p : RoundRobin) (i : Nat) : Nat := (p.next + i) % p.numInstances

theorem ahead_succ (p : RoundRobin) (i : Nat) :
    ({ p with next := (p.next + 1) % p.numInstances } : RoundRobin).ahead i = p.ahead (i + 1) := by
  show ((p.next + 1) % p.numInstances + i) % p.numInstances = (p.next + (i + 1)) % p.numInstances
  rw [Nat.mod_add_mod, Nat.add_assoc, Nat.add_comm 1 i]

/-- The loop takes the first free instance from the cursor on and leaves the cursor behind it. -/
theorem scan_cases (p : RoundRobin) (hp : p.next < p.numInstances) (freeSlots : List Int)
    (rounds : Nat) :
    ((p.scan freeSlots rounds).1 = none ∧ ∀ i < rounds, freeSlots.getD (p.ahead i) 0 ≤ 0) ∨
    ∃ i < rounds, p.scan freeSlots rounds
        = (some (p.ahead i), { p with next := p.ahead (i + 1) }) ∧
      0 < freeSlots.getD (p.ahead i) 0 ∧ ∀ j < i, freeSlots.getD (p.ahead j) 0 ≤ 0 := by
  induction rounds generalizing p with
  | zero => exact .inl ⟨rfl, fun i hi => by omega⟩
  | succ rounds ih =>
    have hzero : p.ahead 0 = p.next := Nat.mod_eq_of_lt hp
    by_cases hfree : 0 < freeSlots.getD p.next 0
    · refine .inr ⟨0, by omega, ?_, by rw [hzero]; exact hfree, fun j hj => by omega⟩
      simp only [scan, if_pos hfree, hzero]
      rfl
    · set p' : RoundRobin := { p with next := (p.next + 1) % p.numInstances } with hp'
      have hscan : p.scan freeSlots (rounds + 1) = p'.scan freeSlots rounds := by
        simp only [scan, if_neg hfree, hp']
      have hfirst : freeSlots.getD (p.ahead 0) 0 ≤ 0 := by rw [hzero]; omega
      rw [hscan]
      rcases ih p' (Nat.mod_lt _ (by omega)) with ⟨hnone, hall⟩ | ⟨i, hi, hsome, hpos, hall⟩
      · refine .inl ⟨hnone, fun j hj => ?_⟩
        cases j with
        | zero => exact hfirst
        | succ j => rw [← ahead_succ]; exact hall j (by omega)
      · refine .inr ⟨i + 1, by omega, ?_, by rw [← ahead_succ]; exact hpos, fun j hj => ?_⟩
        · rw [hsome, hp', ahead_succ, ahead_succ]
        · cases j with
          | zero => exact hfirst
          | succ j => rw [← ahead_succ]; exact hall j (by omega)

theorem scan_numInstances (p : RoundRobin) (freeSlots : List Int) (rounds : Nat) :
    (p.scan freeSlots rounds).2.numInstances = p.numInstances := by
  induction rounds generalizing p with
  | zero => rfl
  | succ rounds ih =>
    simp only [scan]
    split
    · rfl
    · exact ih _

theorem scan_next_lt (p : RoundRobin) (hp : p.next < p.numInstances) (freeSlots : List Int)
    (rounds : Nat) : (p.scan freeSlots rounds).2.next < p.numInstances := by
  induction rounds generalizing p with
  | zero => exact hp
  | succ rounds ih =>
    simp only [scan]
    split
    · exact Nat.mod_lt _ (by omega)
    · exact ih { p with next := (p.next + 1) % p.numInstances } (Nat.mod_lt _ (by omega))

theorem Reachable.next_lt (h : p.Reachable) : p.next < p.numInstances := by
  induction h with
  | new h =>
    rw [RoundRobin.new] at h
    split at h
    · cases h
    next hle =>
      cases h
      show 0 < Int.toNat _
      omega
  | select _ ih => exact Nat.mod_lt _ (by omega)
  | @selectWithCapacity p _ freeSlots _ ih =>
    rw [RoundRobin.selectWithCapacity, scan_numInstances]
    exact scan_next_lt p ih freeSlots _

theorem exists_ahead (hp : p.next < p.numInstances) {j : Nat} (hj : j < p.numInstances) :
    ∃ d < p.numInstances, p.ahead d = j := by
  refine ⟨(j + (p.numInstances - p.next)) % p.numInstances, Nat.mod_lt _ (by omega), ?_⟩
  rw [ahead, Nat.add_mod_mod, show p.next + (j + (p.numInstances - p.next)) = j + p.numInstances by
    omega, Nat.add_mod_right, Nat.mod_eq_of_lt hj]

theorem ahead_moved (p : RoundRobin) {i d : Nat} (h : i ≤ d) :
    ({ p with next := p.ahead i } : RoundRobin).ahead (d - i) = p.ahead d := by
  show ((p.next + i) % p.numInstances + (d - i)) % p.numInstances = (p.next + d) % p.numInstances
  rw [Nat.mod_add_mod, Nat.add_assoc, Nat.add_sub_cancel' h]

theorem selectWithCapacity_selects (hp : p.next < p.numInstances)
    (hl : freeSlots.length = p.numInstances) : Selects freeSlots (p.selectWithCapacity freeSlots).1 := by
  rcases scan_cases p hp freeSlots p.numInstances with ⟨hnone, hall⟩ | ⟨i, hi, hsome, hpos, -⟩
  · rw [selectWithCapacity, hnone]
    refine ⟨⟨fun _ => ?_, fun _ => rfl⟩, by rintro i ⟨⟩⟩
    rw [forall_mem_le_iff, hl]
    intro j hj
    obtain ⟨d, hd, rfl⟩ := exists_ahead hp hj
    exact hall d hd
  · rw [selectWithCapacity, hsome]
    have hget := getElem?_of_getD_pos hpos
    refine ⟨⟨by rintro ⟨⟩, fun hall => ?_⟩, ?_⟩
    · have := hall _ (List.mem_of_getElem? hget)
      omega
    · rintro j ⟨⟩
      exact ⟨_, hget, hpos⟩

/-! ## Calls in a row -/

/-- What a sequence of calls of `select_with_capacity` returns. -/
def selectAll (p : RoundRobin) : List (List Int) → List (Option Nat)
  | [] => []
  | freeSlots :: rest =>
    (p.selectWithCapacity freeSlots).1 :: (p.selectWithCapacity freeSlots).2.selectAll rest

/-- An instance that stays free is chosen before the cursor has passed the places up to it. The
    induction is on the calls; each one that chooses another instance brings the cursor closer. -/
theorem mem_selectAll (hp : p.next < p.numInstances) {d : Nat} (hd : d < p.numInstances)
    (lists : List (List Int)) (hfree : ∀ l ∈ lists, 0 < l.getD (p.ahead d) 0)
    (hlen : d < lists.length) : some (p.ahead d) ∈ p.selectAll lists := by
  induction lists generalizing p d with
  | nil => exact absurd hlen (Nat.not_lt_zero _)
  | cons l rest ih =>
    have hfirst : 0 < l.getD (p.ahead d) 0 := hfree l (List.mem_cons_self ..)
    rw [selectAll, List.mem_cons]
    rcases scan_cases p hp l p.numInstances with ⟨-, hall⟩ | ⟨i, hi, hsome, -, hall⟩
    · have := hall d hd
      omega
    · -- the loop does not go past the instance
      have hle : i ≤ d := by
        by_contra hgt
        have := hall d (by omega)
        omega
      rw [selectWithCapacity, hsome]
      rcases Nat.eq_or_lt_of_le hle with heq | hlt
      · left
        rw [heq]
      · right
        rw [List.length_cons] at hlen
        rw [← ahead_moved p hlt]
        refine ih (p := { p with next := p.ahead (i + 1) }) (Nat.mod_lt _ (by omega))
          (show d - (i + 1) < p.numInstances by omega) (fun l' hl' => ?_) (by omega)
        rw [ahead_moved p hlt]
        exact hfree l' (.tail _ hl')

end RoundRobin

namespace MaxFreeSlotsFirst

variable {p : MaxFreeSlotsFirst}

/-- The best instance so far is one of those looked at, none of which has more free slots; there is
    none as long as no instance looked at has a free slot. -/
structure BestOf (freeSlots : List Int) (seen : Nat → Prop) (best : Option Nat × Int) : Prop where
  noted : Best freeSlots best
  most : ∀ i, seen i → freeSlots.getD i 0 ≤ best.2
  unset : best.1 = none → best.2 = 0

theorem better_bestOf {seen : Nat → Prop} {best : Option Nat × Int}
    (h : BestOf freeSlots seen best) (i : Nat) :
    BestOf freeSlots (fun j => seen j ∨ j = i) (p.better freeSlots best i) := by
  obtain ⟨hbest, hmost, hnone⟩ := h
  have hbest' := better_best (p := p) hbest i
  refine ⟨hbest', ?_, ?_⟩
  · rintro j (hj | rfl)
    · have := hmost j hj
      simp only [better]
      split
      · omega
      · split <;> exact this
    · simp only [better]
      split
      · exact le_refl _
      · split <;> · show _ ≤ best.2; omega
  · simp only [better]
    split
    · rintro ⟨⟩
    · split
      · rintro ⟨⟩
      · exact hnone

theorem foldl_bestOf (l : List Nat) {seen : Nat → Prop}
    {best : Option Nat × Int} (h : BestOf freeSlots seen best) :
    BestOf freeSlots (fun j => seen j ∨ j ∈ l) (l.foldl (p.better freeSlots) best) := by
  induction l generalizing seen best with
  | nil => simpa using h
  | cons i rest ih =>
    have := ih (better_bestOf (p := p) h i)
    simpa [or_assoc] using this

theorem selectWithCapacity_selects (hl : freeSlots.length = p.numInstances) :
    Selects freeSlots (p.selectWithCapacity freeSlots).1 ∧
      ∀ i, (p.selectWithCapacity freeSlots).1 = some i → ∀ s ∈ freeSlots, s ≤ freeSlots.getD i 0 := by
  have hstart : BestOf freeSlots (fun _ => False) (none, 0) :=
    ⟨⟨le_refl 0, by simp⟩, by simp, fun _ => rfl⟩
  obtain ⟨hbest, hmost, hnone⟩ := foldl_bestOf (p := p) (List.range p.numInstances) hstart
  rw [selectWithCapacity]
  set best := (List.range p.numInstances).foldl (p.better freeSlots) (none, 0) with hdef
  have hall : ∀ s ∈ freeSlots, s ≤ best.2 := by
    rw [forall_mem_le_iff, hl]
    exact fun i hi => hmost i (.inr (List.mem_range.2 hi))
  refine ⟨⟨⟨fun h => ?_, fun h => ?_⟩, fun i hi => ?_⟩, fun i hi => ?_⟩
  · rw [← hnone h]
    exact hall
  · cases hi : best.1 with
    | none => rfl
    | some i =>
      obtain ⟨heq, hpos⟩ := hbest.2 i hi
      have := h _ (List.mem_of_getElem? (getElem?_of_getD_pos (heq ▸ hpos)))
      omega
  · obtain ⟨heq, hpos⟩ := hbest.2 i hi
    exact ⟨_, getElem?_of_getD_pos (heq ▸ hpos), heq ▸ hpos⟩
  · obtain ⟨heq, -⟩ := hbest.2 i hi
    rw [heq]
    exact hall

end MaxFreeSlotsFirst

/-- **The policies choose a free instance whenever there is one, the most free one under
    `max_free_slots`, and `round_robin` starves no instance**: one that is free in each of as many
    consecutive calls as there are instances is returned by one of them. -/
theorem dispatch_safe_and_fair :
    (∀ p : RoundRobin, p.Reachable → ∀ freeSlots : List Int, freeSlots.length = p.numInstances →
      Selects freeSlots (p.selectWithCapacity freeSlots).1) ∧
    (∀ (p : MaxFreeSlotsFirst) (freeSlots : List Int), freeSlots.length = p.numInstances →
      Selects freeSlots (p.selectWithCapacity freeSlots).1 ∧
      ∀ i, (p.selectWithCapacity freeSlots).1 = some i → ∀ s ∈ freeSlots, s ≤ freeSlots.getD i 0) ∧
    (∀ p : RoundRobin, p.Reachable → ∀ lists : List (List Int), lists.length = p.numInstances →
      (∀ l ∈ lists, l.length = p.numInstances) → ∀ j < p.numInstances,
      (∀ l ∈ lists, 0 < l.getD j 0) → some j ∈ p.selectAll lists) := by
  refine ⟨fun p hp l hl => RoundRobin.selectWithCapacity_selects hp.next_lt hl,
    fun p l hl => MaxFreeSlotsFirst.selectWithCapacity_selects hl, ?_⟩
  intro p hp lists hlen _ j hj hfree
  obtain ⟨d, hd, rfl⟩ := RoundRobin.exists_ahead hp.next_lt hj
  exact RoundRobin.mem_selectAll hp.next_lt hd lists hfree (hlen ▸ hd)

/-- Three instances, of which the last is free all the time while the others come and go. -/
theorem dispatch_fair_three_instances : ∃ p, RoundRobin.new 3 = .ok p ∧
    p.selectAll [[1, 0, 1], [0, 2, 1], [1, 1, 1]] = [some 0, some 1, some 2] ∧
    some 2 ∈ p.selectAll [[1, 0, 1], [0, 2, 1], [1, 1, 1]] := by
  refine ⟨_, rfl, by decide, ?_⟩
  exact dispatch_safe_and_fair.2.2 _ (@RoundRobin.Reachable.new 3 _ rfl) _ rfl (by decide) 2 (by decide)
    (by decide)
