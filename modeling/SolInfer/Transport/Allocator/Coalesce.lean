import SolInfer.Lib.DyadicTiling
import SolInfer.Transport.Allocator.Rounding

set_option autoImplicit false

/-! # Free blocks are merged as far as they can be

Whatever the calls, no two free blocks are buddies of each other: `_coalesce` goes on until the buddy
of the freed block is not free in one piece, and a split hands one of its two halves out. The blocks
are a dyadic tiling of the pool, so the free ones are then determined by the live allocations. -/

namespace BuddyAllocator

variable {a a' : BuddyAllocator} {b : Block} {target o : Nat}

/-- There is a live allocation of `s` bytes at `o`. -/
def LiveAt (a : BuddyAllocator) (o s : Nat) : Prop := ∃ b, a.Live o b ∧ b.size = s

/-- No two free blocks are buddies, the block in hand apart. -/
def NoFreeBuddies (a : BuddyAllocator) (hole : Option Nat) : Prop :=
  ∀ o s, a.FreeAt o s → a.FreeAt (o ^^^ s) s → s < a.poolSize → hole = some o ∨ hole = some (o ^^^ s)

theorem NoFreeBuddies.weaken (h : a.NoFreeBuddies none) (hole : Option Nat) : a.NoFreeBuddies hole := by
  intro o s ho hb hlt
  rcases h o s ho hb hlt with he | he <;> cases he

theorem Geometry.xor_halves (hg : a.Geometry) {l k : Nat} (hdvd : a.minBlockSize * 2 ^ (k + 1) ∣ l) :
    l ^^^ (a.minBlockSize * 2 ^ k) = l + a.minBlockSize * 2 ^ k ∧
      (l + a.minBlockSize * 2 ^ k) ^^^ (a.minBlockSize * 2 ^ k) = l := by
  obtain ⟨m, hm⟩ := hg.minPow
  have hs : a.minBlockSize * 2 ^ k = 2 ^ (m + k) := by rw [hm, Nat.pow_add]
  have hpos : 0 < 2 ^ (m + k) := Nat.two_pow_pos _
  obtain ⟨q, rfl⟩ := hdvd
  have hl : a.minBlockSize * 2 ^ (k + 1) * q = 2 ^ (m + k) * (2 * q) := by
    rw [← hs, Nat.pow_succ]
    ring
  have hxor : 2 ^ (m + k) * (2 * q) ^^^ 2 ^ (m + k) = 2 ^ (m + k) * (2 * q) + 2 ^ (m + k) := by
    rw [Bits.xor_two_pow_of_dvd (Nat.dvd_mul_right ..), Nat.mul_div_cancel_left _ hpos, if_pos (by omega)]
  rw [hs, hl]
  refine ⟨hxor, ?_⟩
  rw [← hxor, Nat.xor_assoc, Nat.xor_self, Nat.xor_zero]

/-! ## What each mutation does to the free blocks -/

theorem splitOnce_noFreeBuddies {k : Nat} (h : a.Inv (some o))
    (hb : a.blocks.get? o = some b) (hsize : b.size = a.minBlockSize * 2 ^ (k + 1))
    (hn : a.NoFreeBuddies (some o)) : (a.splitOnce o k).NoFreeBuddies (some o) := by
  have hg := h.geometry
  have hget := splitOnce_get? a o k hb hg.min_pos
  obtain ⟨hlow, hup⟩ := hg.xor_halves (k := k) (l := o) (hsize ▸ hg.aligned o b hb)
  set t := a.minBlockSize * 2 ^ k with ht
  -- a free block is the one in hand, the half just cut off, or an old one
  have hold : ∀ x s, (a.splitOnce o k).FreeAt x s → x = o ∨ (x = o + t ∧ s = t) ∨ a.FreeAt x s := by
    rintro x s ⟨c, hc, hfree, hsz⟩
    rw [hget] at hc
    split at hc
    next hx => exact .inl hx.symm
    · split at hc
      next hx => cases hc; exact .inr (.inl ⟨hx.symm, hsz.symm⟩)
      · exact .inr (.inr ⟨c, hc, hfree, hsz⟩)
  intro x s hx hy hlt
  rcases hold x s hx with rfl | ⟨rfl, rfl⟩ | hx'
  · exact .inl rfl
  · exact .inr (congrArg some hup.symm)
  · rcases hold _ s hy with hyo | ⟨hyt, rfl⟩ | hy'
    · exact .inr (congrArg some hyo.symm)
    · -- the buddy of the half just cut off is the block in hand
      have hxo : x = o := by
        calc x = (x ^^^ t) ^^^ t := by rw [Nat.xor_assoc, Nat.xor_self, Nat.xor_zero]
          _ = o := by rw [hyt, hup]
      exact .inl (congrArg some hxo.symm)
    · exact hn x s hx' hy' hlt

theorem splitDown_noFreeBuddies {n : Nat} (h : a.Inv (some o))
    (hb : a.blocks.get? o = some b) (hsize : b.size = a.minBlockSize * 2 ^ (target + n))
    (hn : a.NoFreeBuddies (some o)) : (splitDown o target n a).NoFreeBuddies (some o) := by
  induction n generalizing a b with
  | zero => exact hn
  | succ n ih =>
    obtain ⟨hinv, hget⟩ := splitOnce_inv (k := target + n) h hb hsize
    exact ih (b := { b with size := a.minBlockSize * 2 ^ (target + n) }) hinv hget rfl
      (splitOnce_noFreeBuddies h hb hsize hn)

section Mark

variable {o x s : Nat} {b : Block} {f : Bool} {r : Option String} {m n : Int}

theorem FreeAt.of_mark (h : (a.mark o b f r m n).FreeAt x s) :
    (f = false ∧ o = x) ∨ (x ≠ o ∧ a.FreeAt x s) := by
  obtain ⟨c, hc, hfree, hsz⟩ := h
  rw [mark, Dict.get?_set] at hc
  split at hc
  next hx => cases hc; exact .inl ⟨hfree, hx⟩
  next hx => exact .inr ⟨Ne.symm hx, c, hc, hfree, hsz⟩

theorem markAllocated_noFreeBuddies (hn : a.NoFreeBuddies (some o)) :
    (a.mark o b true r m n).NoFreeBuddies none := by
  intro x s hx hy hlt
  obtain ⟨⟨⟩, -⟩ | ⟨hxo, hx'⟩ := hx.of_mark
  obtain ⟨⟨⟩, -⟩ | ⟨hyo, hy'⟩ := hy.of_mark
  rcases hn x s hx' hy' hlt with he | he
  · exact absurd (Option.some.inj he).symm hxo
  · exact absurd (Option.some.inj he).symm hyo

theorem markFree_noFreeBuddies (hn : a.NoFreeBuddies none) :
    (a.mark o b f r m n).NoFreeBuddies (some o) := by
  intro x s hx hy hlt
  rcases hx.of_mark with ⟨-, hxo⟩ | ⟨-, hx'⟩
  · exact .inl (congrArg some hxo)
  · rcases hy.of_mark with ⟨-, hyo⟩ | ⟨-, hy'⟩
    · exact .inr (congrArg some hyo)
    · exact hn.weaken (some o) x s hx' hy' hlt

end Mark

theorem mergeAt_noFreeBuddies {l k hole other : Nat} {bl bu : Block} (hg : a.Geometry)
    (hp : a.BuddyPair l k hole other bl bu) (hn : a.NoFreeBuddies (some hole)) :
    (a.mergeAt l k other).NoFreeBuddies (some l) := by
  have hold : ∀ x s, (a.mergeAt l k other).FreeAt x s → l = x ∨ (x ≠ hole ∧ a.FreeAt x s) := by
    rintro x s ⟨c, hc, hfree, hsz⟩
    rw [mergeAt_get? hg hp] at hc
    split at hc
    next hx => exact .inl hx
    next hx =>
      split at hc
      · cases hc
      next hx' =>
        refine .inr ⟨?_, c, hc, hfree, hsz⟩
        rcases hp.places with ⟨hh, -⟩ | ⟨hh, -⟩
        · exact fun he => hx (hh.symm.trans he.symm)
        · exact fun he => hx' (hh.symm.trans he.symm)
  intro x s hx hy hlt
  rcases hold x s hx with rfl | ⟨hxh, hx'⟩
  · exact .inl rfl
  · rcases hold _ s hy with hyl | ⟨hyh, hy'⟩
    · exact .inr (congrArg some hyl)
    · rcases hn x s hx' hy' hlt with he | he
      · exact absurd (Option.some.inj he).symm hxh
      · exact absurd (Option.some.inj he).symm hyh

/-- Where the loop stops, the block in hand has no free buddy. -/
theorem NoFreeBuddies.close (hn : a.NoFreeBuddies (some o))
    (hb : a.blocks.get? o = some b) (hfree : b.allocated = false)
    (hstop : ¬ (b.size < a.poolSize ∧ a.FreeAt (o ^^^ b.size) b.size)) : a.NoFreeBuddies none := by
  have ho : a.FreeAt o b.size := ⟨b, hb, hfree, rfl⟩
  intro x s hx hy hlt
  rcases hn x s hx hy hlt with he | he
  · cases he
    cases hx.size_eq ho
    exact absurd ⟨hlt, hy⟩ hstop
  · have hox : o = x ^^^ s := Option.some.inj he
    rw [← hox] at hy
    cases hy.size_eq ho
    have hxo : o ^^^ b.size = x := by rw [hox, Nat.xor_assoc, Nat.xor_self, Nat.xor_zero]
    exact absurd ⟨hlt, hxo ▸ hx⟩ hstop

/-! ## The calls -/

theorem coalesceLoop_noFreeBuddies (fuel : Nat) {k : Nat}
    (h : a.Inv (some o)) (hb : a.blocks.get? o = some b) (hsize : b.size = a.minBlockSize * 2 ^ k)
    (hn : a.NoFreeBuddies (some o)) (hok : coalesceLoop fuel o a = .ok a') :
    a'.NoFreeBuddies none := by
  induction fuel generalizing a o k b with
  | zero => cases hok
  | succ fuel ih =>
    rcases coalesceLoop_round fuel h hb hsize with ⟨hround, hstop⟩ | ⟨l, bl, bu, hp, hround⟩
    · rw [hround] at hok
      cases hok
      exact hn.close hb (h.hole_free hb) hstop
    · rw [hround] at hok
      exact ih (mergeAt_inv h hp) (b := { bl with size := a.minBlockSize * 2 ^ (k + 1) })
        (k := k + 1) (by rw [mergeAt_get? h.geometry hp, if_pos rfl]) rfl
        (mergeAt_noFreeBuddies h.geometry hp hn) hok

section

variable (h : a.WellFormed) (hn : a.NoFreeBuddies none)
include h hn

theorem allocateLocked_noFreeBuddies {r : Option String} {res : Option Nat}
    (hok : a.allocateLocked target r = .ok (res, a')) : a'.NoFreeBuddies none := by
  cases hfind : a.findOrder target with
  | none =>
    rw [allocateLocked, hfind] at hok
    cases hok
    exact hn
  | some k =>
    obtain ⟨o, b, rest, -, hb, -, hsize, hpop, hfound⟩ := allocateLocked_found h hfind
    rw [hfound] at hok
    cases hok
    have hn' : (a.modifyFree k List.tail).NoFreeBuddies (some o) := hn.weaken (some o)
    exact markAllocated_noFreeBuddies (splitDown_noFreeBuddies hpop hb hsize hn')

theorem freeLocked_noFreeBuddies {res : Bool} (hok : a.freeLocked o = .ok (res, a')) :
    a'.NoFreeBuddies none := by
  cases hb : a.blocks.get? o with
  | none =>
    rw [freeLocked, hb] at hok
    cases hok
    exact hn
  | some b =>
    cases hal : b.allocated with
    | false =>
      simp only [freeLocked, hb, hal, if_true] at hok
      cases hok
      exact hn
    | true =>
      obtain ⟨k, hk, hsize⟩ := h.geometry.sized o b hb
      have hinv := Inv.mark (f := false) h hb hal none
      obtain ⟨c, hc, -⟩ := coalesceLoop_spec (a.maxOrder + 1) hinv
        (b := { b with allocated := false, requestId := none }) (Dict.get?_set_self ..) hsize
        (show a.maxOrder < k + (a.maxOrder + 1) by omega)
      cases hok.symm.trans (freeLocked_of_live hb hal hc)
      exact coalesceLoop_noFreeBuddies (a.maxOrder + 1) hinv
        (b := { b with allocated := false, requestId := none }) (Dict.get?_set_self ..) hsize
        (markFree_noFreeBuddies hn) hc

theorem step_noFreeBuddies (op : Op) : (a.step op).NoFreeBuddies none := by
  cases op with
  | allocate size r =>
    rw [step]
    split
    next res a' hok =>
      rw [allocate] at hok
      split at hok
      · cases hok
      · simp only at hok
        split at hok
        · cases hok
          exact hn
        · exact allocateLocked_noFreeBuddies h hn hok
    · exact hn
  | free offset =>
    cases offset with
    | ofNat o =>
      rw [step, free]
      split
      next res a' hok => exact freeLocked_noFreeBuddies h hn hok
      · exact hn
    | negSucc n => exact hn

theorem run_noFreeBuddies (ops : List Op) : (a.run ops).NoFreeBuddies none := by
  induction ops generalizing a with
  | nil => exact hn
  | cons op ops ih => exact ih (step_wellFormed h op) (step_noFreeBuddies h hn op)

end

/-! ## The free blocks as a dyadic tiling -/

theorem Geometry.dyadic (hg : a.Geometry) : DyadicTiling a.minBlockSize a.maxOrder a.sizeAt where
  tiles := hg.pool ▸ hg.tiles
  sized o s h := by
    obtain ⟨b, hb, rfl⟩ := Option.map_eq_some_iff.1 h
    exact hg.sized o b hb
  aligned o s h := by
    obtain ⟨b, hb, rfl⟩ := Option.map_eq_some_iff.1 h
    exact hg.aligned o b hb

/-- The block at `o` is free. -/
def IsFree (a : BuddyAllocator) (o : Nat) : Prop :=
  ∃ b, a.blocks.get? o = some b ∧ b.allocated = false

theorem freeAt_iff {s : Nat} : a.FreeAt o s ↔ a.sizeAt o = some s ∧ a.IsFree o := by
  rw [FreeAt, IsFree, sizeAt]
  cases a.blocks.get? o with
  | none => simp
  | some b => simp [and_comm]

theorem liveAt_iff {s : Nat} : a.LiveAt o s ↔ a.sizeAt o = some s ∧ ¬ a.IsFree o := by
  rw [LiveAt, IsFree, sizeAt]
  simp only [Live]
  cases a.blocks.get? o with
  | none => simp
  | some b => simp [and_comm]

theorem NoFreeBuddies.coalesced (hn : a.NoFreeBuddies none) (hg : a.Geometry) :
    DyadicTiling.Coalesced a.minBlockSize a.sizeAt a.IsFree := by
  intro l k hdvd hl hu hfl hfu
  have hup := freeAt_iff.2 ⟨hu, hfu⟩
  obtain ⟨hpos, -⟩ := hg.tiles.inside l _ hl
  obtain ⟨-, hin⟩ := hg.tiles.inside _ _ hu
  rw [← (hg.xor_halves hdvd).1] at hup
  rcases hn l _ (freeAt_iff.2 ⟨hl, hfl⟩) hup (by omega) with he | he <;> cases he

theorem freeAt_congr (h : a.WellFormed) (hn : a.NoFreeBuddies none)
    (h' : a'.WellFormed) (hn' : a'.NoFreeBuddies none) (hcfg : a.SameConfig a')
    (hlive : ∀ o s, a.LiveAt o s ↔ a'.LiveAt o s) (o s : Nat) : a.FreeAt o s ↔ a'.FreeAt o s := by
  obtain ⟨hmin, -, hmax⟩ := hcfg
  have hd' := h'.geometry.dyadic
  have hc' := hn'.coalesced h'.geometry
  rw [hmin, hmax] at hd'
  rw [hmin] at hc'
  rw [freeAt_iff, freeAt_iff]
  refine (hn.coalesced h.geometry).free_congr h.geometry.dyadic hc' hd' h.geometry.min_pos ?_ o s
  intro x t
  rw [← liveAt_iff, ← liveAt_iff]
  exact hlive x t

theorem freeAt_of_no_live (h : a.WellFormed) (hn : a.NoFreeBuddies none)
    (hlive : ∀ o s, ¬ a.LiveAt o s) (o s : Nat) : a.FreeAt o s ↔ o = 0 ∧ s = a.poolSize := by
  have hall : ∀ o s, a.sizeAt o = some s → a.IsFree o := by
    intro x t hx
    by_contra hf
    exact hlive x t (liveAt_iff.2 ⟨hx, hf⟩)
  rw [freeAt_iff, h.geometry.pool, ← (hn.coalesced h.geometry).single h.geometry.dyadic
    h.geometry.min_pos hall o s]
  exact and_iff_left_of_imp (hall o s)

theorem run_sameConfig (h : a.WellFormed) (ops : List Op) : a.SameConfig (a.run ops) := by
  induction ops generalizing a with
  | nil => exact ⟨rfl, rfl, rfl⟩
  | cons op ops ih =>
    obtain ⟨hwf, h1, h2, h3⟩ := step_keeps h op
    obtain ⟨h1', h2', h3'⟩ := ih hwf
    exact ⟨h1'.trans h1, h2'.trans h2, h3'.trans h3⟩

/-! ## Runs -/

/-- The allocator coalesces maximally from `a₀` on: in every run no two free blocks are buddies, the
    free blocks depend on the live allocations only, and without live allocations they are the one
    block that is the pool. -/
structure CoalescesMaximally (a₀ : BuddyAllocator) : Prop where
  apart : ∀ ops o s, (a₀.run ops).FreeAt o s → s < (a₀.run ops).poolSize → ¬ (a₀.run ops).FreeAt (o ^^^ s) s
  determined : ∀ ops ops', (∀ o s, (a₀.run ops).LiveAt o s ↔ (a₀.run ops').LiveAt o s) →
    ∀ o s, (a₀.run ops).FreeAt o s ↔ (a₀.run ops').FreeAt o s
  whole : ∀ ops, (∀ o s, ¬ (a₀.run ops).LiveAt o s) →
    ∀ o s, (a₀.run ops).FreeAt o s ↔ o = 0 ∧ s = (a₀.run ops).poolSize

theorem WellFormed.coalescesMaximally (h : a.WellFormed) (hn : a.NoFreeBuddies none) :
    a.CoalescesMaximally where
  apart ops o s ho hlt hb := by
    rcases run_noFreeBuddies h hn ops o s ho hb hlt with he | he <;> cases he
  determined ops ops' hlive := by
    obtain ⟨h1, h2, h3⟩ := run_sameConfig h ops
    obtain ⟨h1', h2', h3'⟩ := run_sameConfig h ops'
    exact freeAt_congr (run_wellFormed h ops) (run_noFreeBuddies h hn ops) (run_wellFormed h ops')
      (run_noFreeBuddies h hn ops') ⟨h1'.trans h1.symm, h2'.trans h2.symm, h3'.trans h3.symm⟩ hlive
  whole ops hlive := freeAt_of_no_live (run_wellFormed h ops) (run_noFreeBuddies h hn ops) hlive

theorem root_noFreeBuddies (hblocks : a.blocks = Dict.empty.set 0 { offset := 0, size := a.poolSize }) :
    a.NoFreeBuddies none := by
  rintro o s ⟨b, hb, -, rfl⟩ - hlt
  rw [hblocks, Dict.get?_set] at hb
  split at hb
  · cases hb
    exact absurd hlt (Nat.lt_irrefl _)
  · cases hb

/-- The sizes of the blocks of an allocator and of its rounded twin whose root is already split. -/
theorem Like.freeAt_liveAt_iff (h : Like a'.poolSize a a') (o s : Nat) :
    (a.FreeAt o s ↔ a'.FreeAt o s) ∧ (a.LiveAt o s ↔ a'.LiveAt o s) := by
  simp only [FreeAt, LiveAt, Live]
  cases hb' : a'.blocks.get? o with
  | none => simp [h.get_none hb']
  | some b' =>
    obtain ⟨b, hb, hl⟩ := h.get_some hb'
    have hsize : b.size = b'.size := hl.size.elim id fun hh => hh.2.trans hh.1.symm
    simp [hb, hl.allocated, hsize]

theorem findOrder_eq_none_iff :
    a.findOrder target = none ↔ ∀ k, target ≤ k → k ≤ a.maxOrder → a.freeList k = [] := by
  rw [findOrder, List.find?_eq_none]
  constructor
  · intro h k hle hk
    simpa using h k (List.mem_range'_1.2 ⟨hle, by omega⟩)
  · intro h k hk
    obtain ⟨hle, hlt⟩ := List.mem_range'_1.1 hk
    simpa using h k hle (by omega)

theorem slotOrder_one (h : 0 < a.minBlockSize) : a.slotOrder 1 = 0 := by
  have hle : a.slotOrder 1 ≤ 0 := by
    rw [slotOrder, sizeToOrder_le_iff h]
    have : nextPowerOf2 1 = 1 := rfl
    omega
  omega

section

variable {poolSize minBlockSize : Int} {a₀ : BuddyAllocator} (h : new poolSize minBlockSize = .ok a₀)
include h

theorem exists_run_freeAt_root (hmax : 0 < a₀.maxOrder) :
    ∃ ops, (∀ o s, ¬ (a₀.run ops).LiveAt o s) ∧
      (a₀.run ops).FreeAt 0 (a₀.minBlockSize * 2 ^ a₀.maxOrder) := by
  have hwf := rounded_wellFormed h
  have hpos : 0 < a₀.rounded.minBlockSize := hwf.geometry.min_pos
  have hn : a₀.rounded.NoFreeBuddies none := root_noFreeBuddies rfl
  obtain ⟨-, -, -, -, -, hlists, -, -, -⟩ := new_eq_ok h
  have hroom : a₀.rounded.HasRoom 1 := by
    rw [HasRoom, slotOrder_one hpos, ne_eq, findOrder_eq_none_iff]
    intro hall
    have := hall a₀.maxOrder (Nat.zero_le _) (le_refl _)
    simp [freeList, rounded, hlists] at this
  rcases allocate_spec hwf Int.one_pos none with
    ⟨hno, -⟩ | ⟨o, b, c', -, hok', hwf', ⟨hmin', hpool', hmax'⟩, hb, -, -, hlive⟩
  · exact absurd hroom hno
  · obtain ⟨res, c, c'', hc, hc', hlike⟩ := (like_rounded h).allocate hwf Int.one_pos none
    rw [hok'] at hc'
    cases hc'
    have hlb : c'.Live o b := (hlive o b).2 (.inl ⟨rfl, rfl⟩)
    have hbsize : b.size < c'.poolSize := by
      rw [hb, slotSize, slotOrder_one hpos, hpool', hwf.geometry.pool]
      exact Nat.mul_lt_mul_of_pos_left (Nat.pow_lt_pow_right (by omega) hmax) hpos
    -- a block of the whole pool would be the one just handed out
    have hsplit : ∀ x d, c'.blocks.get? x = some d → d.size ≠ c'.poolSize := by
      intro x d hd hsz
      have ht := hwf'.geometry.tiles
      have hx := ht.inside x _ (Geometry.sizeAt_eq hd)
      have hbin := ht.inside o _ (Geometry.sizeAt_eq hlb.1)
      have hxo := ht.disjoint x _ o _ o (Geometry.sizeAt_eq hd) (Geometry.sizeAt_eq hlb.1)
        (by omega) (by omega) (le_refl o) (by omega)
      rw [hxo, hlb.1] at hd
      cases hd
      omega
    have hlike' := hlike.ofSplit hwf' hsplit
    rcases freeLocked_spec hwf' o with ⟨hno, -⟩ | ⟨-, d', -, hd', hwf'', ⟨hmin'', hpool'', hmax''⟩, hlive'⟩
    · exact absurd hlb (hno b)
    · obtain ⟨res, d, d'', hd, hd'', hlike''⟩ := hlike'.freeLocked hwf' o
      rw [hd'] at hd''
      cases hd''
      rw [← hpool''] at hlike''
      have hnd : d'.NoFreeBuddies none := by
        refine freeLocked_noFreeBuddies hwf' ?_ hd'
        have := step_noFreeBuddies hwf hn (.allocate 1 none)
        rwa [step, hok'] at this
      have hdead : ∀ x s, ¬ d'.LiveAt x s := by
        rintro x s ⟨e, hx, -⟩
        obtain ⟨hxo, hx'⟩ := (hlive' x e).1 hx
        rcases (hlive x e).1 hx' with ⟨he, -⟩ | ⟨he, hal⟩
        · exact hxo he
        · rw [rounded, Dict.get?_set] at he
          split at he
          · cases he
            cases hal
          · cases he
      have hrun : a₀.run [.allocate 1 none, .free (Int.ofNat o)] = d := by
        simp only [run, List.foldl_cons, List.foldl_nil, step, hc, free, hd]
      refine ⟨[.allocate 1 none, .free (Int.ofNat o)], ?_, ?_⟩
      · rw [hrun]
        exact fun x s hx => hdead x s ((hlike''.freeAt_liveAt_iff x s).2.1 hx)
      · rw [hrun, (hlike''.freeAt_liveAt_iff ..).1, freeAt_of_no_live hwf'' hnd hdead]
        exact ⟨rfl, by rw [hpool'', hpool', rounded]⟩

theorem CoalescesMaximally.poolSize_eq (hc : a₀.CoalescesMaximally) :
    a₀.poolSize = a₀.minBlockSize * 2 ^ a₀.maxOrder := by
  obtain ⟨hpos, -, hmin, hpool, hmax, -, hblocks, -, -⟩ := new_eq_ok h
  rcases Nat.eq_zero_or_pos a₀.maxOrder with hzero | hgt
  · -- a pool of a single order is as large as the smallest block
    have hminpos : 0 < a₀.minBlockSize := by omega
    have hle := le_sizeToOrder hminpos a₀.poolSize
    have := le_nextPowerOf2 (max poolSize minBlockSize)
    rw [← hmax, hzero] at hle
    rw [hzero]
    omega
  · obtain ⟨ops, hdead, hfree⟩ := exists_run_freeAt_root h hgt
    have hdead₀ : ∀ o s, ¬ (a₀.run []).LiveAt o s := by
      rintro o s ⟨b, ⟨hb, hal⟩, -⟩
      rw [run, List.foldl_nil, hblocks, Dict.get?_set] at hb
      split at hb
      · cases hb
        cases hal
      · cases hb
    have hroot : (a₀.run []).FreeAt 0 a₀.poolSize :=
      ⟨_, by rw [run, List.foldl_nil, hblocks, Dict.get?_set_self], rfl, rfl⟩
    have hsame := hc.determined [] ops
      fun o s => ⟨fun hl => absurd hl (hdead₀ o s), fun hl => absurd hl (hdead o s)⟩
    exact ((hsame 0 a₀.poolSize).1 hroot).size_eq hfree

end

/-- **Free blocks are merged as far as they can be, and the live allocations determine them, exactly
    when the rounded pool size is a power of two**: when the larger of `pool_size` and
    `min_block_size`, less one, has no 64 consecutive zero bits below its leading bit. -/
theorem coalescesMaximally_iff_noZeroRun {poolSize minBlockSize : Int} {a₀ : BuddyAllocator}
    (h : new poolSize minBlockSize = .ok a₀) :
    a₀.CoalescesMaximally ↔ Bits.NoZeroRun 64 (max poolSize minBlockSize - 1).toNat := by
  obtain ⟨hpos, ⟨m, hm⟩, hmin, hpool, -, -, hblocks, -, -⟩ := new_eq_ok h
  constructor
  · intro hc
    rw [← nextPowerOf2_isPow_iff (by omega), ← hpool, hc.poolSize_eq h, hmin, hm]
    exact ⟨m + a₀.maxOrder, (Nat.pow_add 2 m a₀.maxOrder).symm⟩
  · intro hz
    exact ((new_wellFormed_iff h).2 hz).coalescesMaximally (root_noFreeBuddies hblocks)

/-- A pool of four blocks of 256 bytes coalesces maximally. -/
theorem coalescesMaximally_four_blocks : ∃ a₀, new 1024 256 = .ok a₀ ∧ a₀.CoalescesMaximally := by
  refine ⟨_, rfl, (@coalescesMaximally_iff_noZeroRun 1024 256 _ rfl).2 ?_⟩
  exact Bits.noZeroRun_of_lt (by decide)

/-- A pool of `2 ^ 64 + 1` bytes with blocks of `2 ^ 60` bytes: before any call its one free block
    has `2 ^ 65 - 1` bytes, after one allocation has come and gone it has `2 ^ 65`. -/
theorem not_coalescesMaximally_two_pow_64 :
    ∃ a₀, new (2 ^ 64 + 1) (2 ^ 60) = .ok a₀ ∧
      (a₀.run []).blocks.values = [{ offset := 0, size := 2 ^ 65 - 1 }] ∧
      (a₀.run [.allocate 1 none, .free 0]).blocks.values = [{ offset := 0, size := 2 ^ 65 }] ∧
      ¬ a₀.CoalescesMaximally := by
  refine ⟨_, rfl, by decide +kernel, by decide +kernel, fun hc => ?_⟩
  have hsize := @CoalescesMaximally.poolSize_eq (2 ^ 64 + 1) (2 ^ 60) _ rfl hc
  exact absurd hsize (by decide +kernel)

end BuddyAllocator
