import SolInfer.Transport.Allocator.Proofs

set_option autoImplicit false

/-! # Pools whose size is no power of two

`_next_power_of_2` returns a number that is no power of two on some arguments above `2 ^ 64`, and the
root block of such a pool has the size of no order. Orders are all that the free lists and the loops
go by, so the pool still takes the same decisions as the *rounded* one, whose root block has the size
of the largest order (`Like.run`): every call returns the same, and only the size recorded for the
root block differs, until the root is split for the first time. -/

namespace BuddyAllocator

variable {a a' : BuddyAllocator} {root : Nat} {b' b : Block}

/-- `b` is the block `b'` of the rounded pool, but for the size of the root block. -/
structure BlockLike (root pool : Nat) (b b' : Block) : Prop where
  offset : b.offset = b'.offset
  allocated : b.allocated = b'.allocated
  requestId : b.requestId = b'.requestId
  size : b.size = b'.size ∨ (b'.size = pool ∧ b.size = root)

/-- `a` is the allocator `a'` of the rounded pool, with a root block of `root` bytes. -/
structure Like (root : Nat) (a a' : BuddyAllocator) : Prop where
  minBlockSize : a.minBlockSize = a'.minBlockSize
  maxOrder : a.maxOrder = a'.maxOrder
  lists : a.freeLists = a'.freeLists
  order : sizeToOrder a'.minBlockSize a.poolSize = a'.maxOrder
  rootOrder : sizeToOrder a'.minBlockSize root = a'.maxOrder
  rootLe : a.poolSize ≤ root
  blocks : ∀ o, Option.Rel (BlockLike root a'.poolSize) (a.blocks.get? o) (a'.blocks.get? o)

theorem BlockLike.ofSize {pool : Nat} (h : BlockLike root pool b b') (s : Nat) :
    BlockLike root pool { b with size := s } { b' with size := s } :=
  ⟨h.offset, h.allocated, h.requestId, .inl rfl⟩

namespace Like

variable {o : Nat}

section

variable (h : Like root a a')
include h

theorem get_some (hb' : a'.blocks.get? o = some b') :
    ∃ b, a.blocks.get? o = some b ∧ BlockLike root a'.poolSize b b' := by
  have := h.blocks o
  rw [hb'] at this
  cases hb : a.blocks.get? o with
  | none => rw [hb] at this; cases this
  | some b =>
    rw [hb] at this
    cases this with
    | some hl => exact ⟨b, rfl, hl⟩

theorem get_none (hb' : a'.blocks.get? o = none) : a.blocks.get? o = none := by
  have := h.blocks o
  rw [hb'] at this
  cases hb : a.blocks.get? o with
  | none => rfl
  | some b => rw [hb] at this; cases this

theorem freeList_eq (k : Nat) : a.freeList k = a'.freeList k := by
  rw [freeList, freeList, h.lists]

theorem findOrder_eq (target : Nat) : a.findOrder target = a'.findOrder target := by
  simp only [findOrder, h.freeList_eq, h.maxOrder]

theorem sizeToOrder_eq (hg : a'.Geometry) (hb : BlockLike root a'.poolSize b b') :
    sizeToOrder a.minBlockSize b.size = sizeToOrder a'.minBlockSize b'.size := by
  rw [h.minBlockSize]
  rcases hb.size with hs | ⟨hs', hs⟩
  · rw [hs]
  · rw [hs, hs', h.rootOrder, hg.pool, sizeToOrder_mul_two_pow hg.min_pos]

theorem size_lt_iff (hg : a'.Geometry) (hb' : a'.blocks.get? o = some b')
    (hb : BlockLike root a'.poolSize b b') : b.size < a.poolSize ↔ b'.size < a'.poolSize := by
  rcases hb.size with hs | ⟨hs', hs⟩
  · obtain ⟨k, -, hk⟩ := hg.sized o b' hb'
    rw [hs, hk, hg.pool, ← not_le, ← sizeToOrder_le_iff hg.min_pos, h.order,
      Nat.mul_lt_mul_left hg.min_pos, Nat.pow_lt_pow_iff_right (by omega), not_le]
  · rw [hs, hs']
    have := h.rootLe
    omega

end

theorem size_eq_of_lt (hb : BlockLike root a'.poolSize b b')
    (hlt : b'.size < a'.poolSize) : b.size = b'.size :=
  hb.size.resolve_right fun hh => by omega

/-! ## The mutations -/

section

variable (h : Like root a a')
include h

theorem modifyFree (j : Nat) (f : List Nat → List Nat) :
    Like root (a.modifyFree j f) (a'.modifyFree j f) := by
  refine { h with lists := ?_ }
  simp only [BuddyAllocator.modifyFree, h.lists]

theorem pushFree (hg : a'.Geometry) (hb : BlockLike root a'.poolSize b b') :
    Like root (a.pushFree b) (a'.pushFree b') := by
  rw [BuddyAllocator.pushFree, BuddyAllocator.pushFree, h.sizeToOrder_eq hg hb, hb.offset]
  exact h.modifyFree _ _

theorem mark (hb : BlockLike root a'.poolSize b b') (f : Bool) (r : Option String) (m m' n n' : Int) :
    Like root (a.mark o b f r m n) (a'.mark o b' f r m' n') := by
  refine { h with blocks := fun x => ?_ }
  simp only [BuddyAllocator.mark, Dict.get?_set]
  split
  · exact Option.Rel.some ⟨hb.offset, rfl, rfl, hb.size⟩
  · exact h.blocks x

theorem splitOnce (hpos : 0 < a'.minBlockSize) {k : Nat} (hb' : a'.blocks.get? o = some b') :
    Like root (a.splitOnce o k) (a'.splitOnce o k) := by
  obtain ⟨b, hb, hl⟩ := h.get_some hb'
  refine { h with lists := ?_, blocks := fun x => ?_ }
  · simp only [BuddyAllocator.splitOnce, BuddyAllocator.modifyFree, h.lists, h.minBlockSize]
  · rw [splitOnce_get? a o k hb (h.minBlockSize ▸ hpos), splitOnce_get? a' o k hb' hpos,
      h.minBlockSize]
    split
    · exact Option.Rel.some (hl.ofSize _)
    · split
      · exact Option.Rel.some ⟨rfl, rfl, rfl, .inl rfl⟩
      · exact h.blocks x

theorem splitDown (hpos : 0 < a'.minBlockSize) (target n : Nat) (hb : a'.blocks.get? o = some b) :
    Like root (splitDown o target n a) (splitDown o target n a') := by
  induction n generalizing a a' b with
  | zero => exact h
  | succ n ih =>
    refine ih (h.splitOnce hpos hb) hpos
      (b := { b with size := a'.minBlockSize * 2 ^ (target + n) }) ?_
    rw [splitOnce_get? a' o _ hb hpos, if_pos rfl]

theorem mergeBuddy {p : Nat}
    (hlt : ∀ x c, x = o ∨ x = p → a'.blocks.get? x = some c → c.size < a'.poolSize) :
    Like root (a.mergeBuddy o p) (a'.mergeBuddy o p) := by
  -- the block that stays is doubled on both sides from the same size
  have hstay : ∀ x y z, y = o ∨ y = p →
      Option.Rel (BlockLike root a'.poolSize)
        (((a.blocks.erase z).modify y (fun b => { b with size := b.size * 2 })).get? x)
        (((a'.blocks.erase z).modify y (fun b => { b with size := b.size * 2 })).get? x) := by
    intro x y z hy
    simp only [Dict.get?_modify, Dict.get?_erase]
    by_cases hzx : z = x
    · rw [if_pos hzx, if_pos hzx]
      split <;> exact Option.Rel.none
    · rw [if_neg hzx, if_neg hzx]
      by_cases hyx : y = x
      · rw [if_pos hyx, if_pos hyx]
        cases hb' : a'.blocks.get? x with
        | none =>
          rw [h.get_none hb']
          exact Option.Rel.none
        | some b' =>
          obtain ⟨b, hb, hl⟩ := h.get_some hb'
          rw [hb]
          refine Option.Rel.some ⟨hl.offset, hl.allocated, hl.requestId, .inl ?_⟩
          show b.size * 2 = b'.size * 2
          rw [size_eq_of_lt hl (hlt x b' (hyx ▸ hy) hb')]
      · rw [if_neg hyx, if_neg hyx]
        exact h.blocks x
  unfold BuddyAllocator.mergeBuddy
  simp only
  split
  · exact { h with blocks := fun x => hstay x p o (.inr rfl) }
  · exact { h with blocks := fun x => hstay x o p (.inl rfl) }

/-! ## The calls -/

theorem allocateLocked (hwf : a'.WellFormed) (target : Nat) (r : Option String) :
    ∃ res c c', a.allocateLocked target r = .ok (res, c) ∧
      a'.allocateLocked target r = .ok (res, c') ∧ Like root c c' := by
  cases hfind : a'.findOrder target with
  | none =>
    refine ⟨none, a, a', ?_, ?_, h⟩
    · rw [BuddyAllocator.allocateLocked, h.findOrder_eq, hfind]
    · rw [BuddyAllocator.allocateLocked, hfind]
  | some k =>
    obtain ⟨o, b', rest, hl, hb', -, hsize, hpop, hok⟩ := allocateLocked_found hwf hfind
    obtain ⟨-, -, -, -, -, hget'⟩ := splitDown_inv hpop hb' hsize
    have hdown := (h.modifyFree k List.tail).splitDown hwf.geometry.min_pos target (k - target) hb'
    obtain ⟨b, hb, -⟩ := h.get_some hb'
    have hbpop : (a.modifyFree k List.tail).blocks.get? o = some b := hb
    obtain ⟨c, hget, hlike⟩ := hdown.get_some hget'
    rw [hok]
    simp only [BuddyAllocator.allocateLocked, h.findOrder_eq, hfind, h.freeList_eq, hl, hbpop, hget]
    exact ⟨_, _, _, rfl, rfl, hdown.mark hlike true r _ _ _ _⟩

theorem allocate (hwf : a'.WellFormed) {size : Int} (hsize : 0 < size) (r : Option String) :
    ∃ res c c', a.allocate size r = .ok (res, c) ∧ a'.allocate size r = .ok (res, c') ∧ Like root c c' := by
  have hnot : ¬ size ≤ 0 := by omega
  simp only [BuddyAllocator.allocate, if_neg hnot, h.minBlockSize, h.maxOrder]
  split
  · exact ⟨none, a, a', rfl, rfl, h⟩
  · exact h.allocateLocked hwf _ r

end

theorem coalesceLoop (fuel : Nat) (h : Like root a a') {k : Nat} {d : Block}
    (hinv : a'.Inv (some o)) (hd : a'.blocks.get? o = some d)
    (hsize : d.size = a'.minBlockSize * 2 ^ k) (hfuel : a'.maxOrder < k + fuel) :
    ∃ c c', coalesceLoop fuel o a = .ok c ∧ coalesceLoop fuel o a' = .ok c' ∧ Like root c c' := by
  induction fuel generalizing a a' o k d with
  | zero =>
    obtain ⟨j, hj, hsz⟩ := hinv.geometry.sized o d hd
    have := hinv.geometry.order_inj (hsize.symm.trans hsz)
    omega
  | succ fuel ih =>
    have hg := hinv.geometry
    obtain ⟨b, hb, hl⟩ := h.get_some hd
    have hpush := h.pushFree hg hl
    have hkey : d.offset = o := hg.keyed o d hd
    have hkey' : b.offset = o := hl.offset.trans hkey
    simp only [BuddyAllocator.coalesceLoop, hb, hd, hkey, hkey', h.size_lt_iff hg hd hl]
    by_cases hlt : d.size < a'.poolSize
    · rw [if_pos hlt, if_pos hlt, size_eq_of_lt hl hlt]
      cases hbuddy' : a'.blocks.get? (o ^^^ d.size) with
      | none =>
        rw [h.get_none hbuddy']
        exact ⟨_, _, rfl, rfl, hpush⟩
      | some buddy' =>
        obtain ⟨buddy, hbuddy, hlb⟩ := h.get_some hbuddy'
        simp only [hbuddy]
        -- a root block is no buddy, whatever size is recorded for it
        have hstop : (buddy.allocated = true ∨ buddy.size ≠ d.size) ↔
            (buddy'.allocated = true ∨ buddy'.size ≠ d.size) := by
          rw [hlb.allocated]
          rcases hlb.size with hs | ⟨hs', hs⟩
          · rw [hs]
          · have hlt' : d.size < a.poolSize := by
              have := (h.size_lt_iff hg hd hl).2 hlt
              rwa [size_eq_of_lt hl hlt] at this
            have := h.rootLe
            have h1 : buddy.size ≠ d.size := by omega
            have h2 : buddy'.size ≠ d.size := by omega
            simp [h1, h2]
        by_cases hst : buddy'.allocated = true ∨ buddy'.size ≠ d.size
        · rw [if_pos hst, if_pos (hstop.2 hst)]
          exact ⟨_, _, rfl, rfl, hpush⟩
        · rw [if_neg hst, if_neg (fun hh => hst (hstop.1 hh))]
          have hfree : buddy'.allocated = false := by
            cases hal : buddy'.allocated with
            | false => rfl
            | true => exact absurd (.inl hal) hst
          have hsize' : buddy'.size = d.size := by
            by_contra hne
            exact hst (.inr hne)
          obtain ⟨l, bl, bu, hmerge, hmin, hp⟩ :=
            merge_round hinv hd hsize hbuddy' hfree hsize'
          have horder : sizeToOrder a'.minBlockSize buddy'.size = k := by
            rw [hsize', hsize, sizeToOrder_mul_two_pow hg.min_pos]
          have hmem : o ^^^ d.size ∈ a'.freeList k := by
            refine (hinv.lists.mem k _).2
              ⟨fun he => ?_, buddy', hbuddy', hfree, hsize'.trans hsize⟩
            have := Option.some.inj he
            have hspos := hg.order_pos k
            rcases hp.places with ⟨h1, h2⟩ | ⟨h1, h2⟩ <;> omega
          rw [h.sizeToOrder_eq hg hlb, horder, h.freeList_eq, if_pos hmem, if_pos hmem, hmin]
          have hlike := (h.modifyFree k (·.erase (o ^^^ d.size))).mergeBuddy
            (o := o) (p := o ^^^ d.size) (by
              rintro x c (rfl | rfl) hc
              · have hc' : a'.blocks.get? x = some c := hc
                rw [hd] at hc'
                cases hc'
                exact hlt
              · have hc' : a'.blocks.get? (o ^^^ d.size) = some c := hc
                rw [hbuddy'] at hc'
                cases hc'
                rw [hsize']
                exact hlt)
          rw [hmerge] at hlike ⊢
          exact ih hlike (mergeAt_inv hinv hp)
            (d := { bl with size := a'.minBlockSize * 2 ^ (k + 1) }) (k := k + 1)
            (by rw [mergeAt_get? hg hp, if_pos rfl]) rfl
            (show a'.maxOrder < k + 1 + fuel by omega)
    · rw [if_neg hlt, if_neg hlt]
      exact ⟨_, _, rfl, rfl, hpush⟩

section

variable (h : Like root a a') (hwf : a'.WellFormed)
include h hwf

theorem freeLocked (o : Nat) :
    ∃ res c c', a.freeLocked o = .ok (res, c) ∧ a'.freeLocked o = .ok (res, c') ∧ Like root c c' := by
  cases hb' : a'.blocks.get? o with
  | none =>
    refine ⟨false, a, a', ?_, ?_, h⟩
    · rw [BuddyAllocator.freeLocked, h.get_none hb']
    · rw [BuddyAllocator.freeLocked, hb']
  | some b' =>
    obtain ⟨b, hb, hl⟩ := h.get_some hb'
    cases hal : b'.allocated with
    | false =>
      refine ⟨false, a, a', ?_, ?_, h⟩
      · simp only [BuddyAllocator.freeLocked, hb, hl.allocated.trans hal, if_true]
      · simp only [BuddyAllocator.freeLocked, hb', hal, if_true]
    | true =>
      obtain ⟨k, hk, hsize⟩ := hwf.geometry.sized o b' hb'
      obtain ⟨c, c', hc, hc', hlike⟩ := coalesceLoop (a'.maxOrder + 1)
        (h.mark (o := o) hl false none (a.allocatedBytes - b.size) _ (a.numAllocations - 1) _)
        (Inv.mark (f := false) hwf hb' hal none)
        (d := { b' with allocated := false, requestId := none }) (Dict.get?_set_self ..) hsize
        (show a'.maxOrder < k + (a'.maxOrder + 1) by omega)
      rw [← h.maxOrder] at hc
      exact ⟨true, c, c', freeLocked_of_live hb (hl.allocated.trans hal) hc,
        freeLocked_of_live hb' hal hc', hlike⟩

theorem step (op : Op) : Like root (a.step op) (a'.step op) := by
  cases op with
  | allocate size r =>
    by_cases hsize : 0 < size
    · obtain ⟨res, c, c', hc, hc', hlike⟩ := h.allocate hwf hsize r
      simp only [BuddyAllocator.step, hc, hc']
      exact hlike
    · simp only [BuddyAllocator.step, BuddyAllocator.allocate, if_pos (show size ≤ 0 by omega)]
      exact h
  | free offset =>
    cases offset with
    | ofNat o =>
      obtain ⟨res, c, c', hc, hc', hlike⟩ := h.freeLocked hwf o
      simp only [BuddyAllocator.step, free, hc, hc']
      exact hlike
    | negSucc n => exact h

/-- **A run on a pool takes the decisions of the run on the rounded pool.** -/
theorem run (ops : List Op) : Like root (a.run ops) (a'.run ops) := by
  induction ops generalizing a a' with
  | nil => exact h
  | cons op ops ih => exact ih (h.step hwf op) (step_wellFormed hwf op)

end

end Like

/-! ## The rounded pool -/

/-- The new pool with its size rounded up to the largest order. -/
def rounded (a : BuddyAllocator) : BuddyAllocator :=
  { a with
    poolSize := a.minBlockSize * 2 ^ a.maxOrder
    blocks := Dict.empty.set 0 { offset := 0, size := a.minBlockSize * 2 ^ a.maxOrder } }

section

variable {poolSize minBlockSize : Int} {a₀ : BuddyAllocator} (h : new poolSize minBlockSize = .ok a₀)
include h

theorem rounded_wellFormed : a₀.rounded.WellFormed := by
  obtain ⟨-, ⟨m, hm⟩, hmin, -, -, hlists, -, hbytes, hcount⟩ := new_eq_ok h
  exact wellFormed_of_root ⟨m, hmin.trans hm⟩ rfl hlists rfl hbytes hcount

theorem like_rounded : Like a₀.poolSize a₀ a₀.rounded := by
  obtain ⟨-, -, -, -, hmax, -, hblocks, -, -⟩ := new_eq_ok h
  refine ⟨rfl, rfl, rfl, hmax.symm, hmax.symm, le_refl _, fun o => ?_⟩
  rw [hblocks, rounded, Dict.get?_set, Dict.get?_set]
  split
  · exact Option.Rel.some ⟨rfl, rfl, rfl, .inr ⟨rfl, rfl⟩⟩
  · exact Option.Rel.none

end

theorem Like.ofSplit (h : Like root a a') (hwf : a'.WellFormed)
    (hsplit : ∀ o b, a'.blocks.get? o = some b → b.size ≠ a'.poolSize) :
    Like a'.poolSize a a' := by
  have hg := hwf.geometry
  have horder : sizeToOrder a'.minBlockSize a'.poolSize = a'.maxOrder := by
    rw [hg.pool, sizeToOrder_mul_two_pow hg.min_pos]
  refine ⟨h.minBlockSize, h.maxOrder, h.lists, h.order, horder, ?_, fun o => ?_⟩
  · rw [hg.pool, ← sizeToOrder_le_iff hg.min_pos, h.order]
  · cases hb' : a'.blocks.get? o with
    | none =>
      rw [h.get_none hb']
      exact Option.Rel.none
    | some b' =>
      obtain ⟨b, hb, hl⟩ := h.get_some hb'
      rw [hb]
      exact Option.Rel.some ⟨hl.offset, hl.allocated, hl.requestId,
        .inl (hl.size.resolve_right (fun hh => hsplit o b' hb' hh.1))⟩

end BuddyAllocator
