import SolInfer.Lib.Tiling

set_option autoImplicit false

/-! # Dyadic tilings

A tiling of `[0, u * 2 ^ n)` by intervals of `u * 2 ^ k` points, each aligned to its own size, some
of them free. Two such intervals are nested or apart. When no two free halves of one aligned interval
are left side by side, the free intervals are the maximal aligned intervals that meet no taken one
(`Coalesced.free_iff`), so the taken intervals alone determine them (`Coalesced.free_congr`). -/

/-- The intervals of a tiling are those of an order, each aligned to its size. -/
structure DyadicTiling (u n : Nat) (size : Nat → Option Nat) : Prop where
  tiles : Tiles size (u * 2 ^ n)
  sized : ∀ o s, size o = some s → ∃ k ≤ n, s = u * 2 ^ k
  aligned : ∀ o s, size o = some s → s ∣ o

namespace DyadicTiling

variable {u n o : Nat} {size : Nat → Option Nat}

/-! ## Aligned intervals -/

theorem le_of_dvd_of_lt {s a b : Nat} (ha : s ∣ a) (hb : s ∣ b) (h : a < b + s) : a ≤ b := by
  obtain ⟨i, rfl⟩ := ha
  obtain ⟨j, rfl⟩ := hb
  exact Nat.mul_le_mul_left s (Nat.lt_succ_iff.1 (Nat.lt_of_mul_lt_mul_left h))

theorem subset_of_mem {s p t x : Nat} (hst : s ∣ t) (ho : s ∣ o) (hp : t ∣ p) (hox : o ≤ x)
    (hxo : x < o + s) (hpx : p ≤ x) (hxp : x < p + t) : p ≤ o ∧ o + s ≤ p + t := by
  have hsp : s ∣ p := hst.trans hp
  refine ⟨le_of_dvd_of_lt hsp ho (by omega), le_of_dvd_of_lt (Nat.dvd_add ho (dvd_refl s))
    (Nat.dvd_add hsp hst) (by omega)⟩

theorem two_pow_dvd {j k : Nat} (h : j ≤ k) : u * 2 ^ j ∣ u * 2 ^ k :=
  Nat.mul_dvd_mul_left u (Nat.pow_dvd_pow 2 h)

theorem mul_two_pow_succ (u k : Nat) : u * 2 ^ (k + 1) = u * 2 ^ k + u * 2 ^ k := by
  ring

theorem subset_of_le (h : DyadicTiling u n size) {j p k x : Nat} (ho : u * 2 ^ j ∣ o)
    (hp : size p = some (u * 2 ^ k)) (hjk : j ≤ k) (hox : o ≤ x) (hxo : x < o + u * 2 ^ j)
    (hpx : p ≤ x) (hxp : x < p + u * 2 ^ k) : p ≤ o ∧ o + u * 2 ^ j ≤ p + u * 2 ^ k :=
  subset_of_mem (two_pow_dvd hjk) ho (h.aligned p _ hp) hox hxo hpx hxp

/-! ## Free and taken intervals -/

/-- `[o, o + s)` meets no taken interval. -/
def Untaken (size : Nat → Option Nat) (free : Nat → Prop) (o s : Nat) : Prop :=
  ∀ p t, size p = some t → ¬ free p → p + t ≤ o ∨ o + s ≤ p

/-- No aligned interval is left in two free halves. -/
def Coalesced (u : Nat) (size : Nat → Option Nat) (free : Nat → Prop) : Prop :=
  ∀ l k, u * 2 ^ (k + 1) ∣ l → size l = some (u * 2 ^ k) → size (l + u * 2 ^ k) = some (u * 2 ^ k) →
    free l → ¬ free (l + u * 2 ^ k)

variable {free : Nat → Prop}

theorem Untaken.mono {s o' s' : Nat} (h : Untaken size free o s) (hl : o ≤ o')
    (hr : o' + s' ≤ o + s) : Untaken size free o' s' := by
  intro p t hp hf
  have := h p t hp hf
  omega

theorem untaken_of_free (h : DyadicTiling u n size) {s : Nat} (hs : size o = some s) (hf : free o) :
    Untaken size free o s := by
  intro p t hp hnf
  have hpos := (h.tiles.inside o s hs).1
  have hpos' := (h.tiles.inside p t hp).1
  by_contra hover
  have hop := h.tiles.disjoint o s p t (max o p) hs hp (by omega) (by omega) (by omega) (by omega)
  exact hnf (hop ▸ hf)

theorem Untaken.free_of_mem {s p t x : Nat} (h : Untaken size free o s) (hp : size p = some t)
    (hox : o ≤ x) (hxo : x < o + s) (hpx : p ≤ x) (hxp : x < p + t) : free p := by
  by_contra hf
  have := h p t hp hf
  omega

/-- In a coalesced tiling an aligned interval that meets no taken one lies in a single free
    interval. The induction is on the order of the interval: of its two halves, either one lies in an
    interval that is larger than the half, hence contains the whole, or both are intervals of the
    tiling, and these would be two free halves. -/
theorem Coalesced.exists_free (hc : Coalesced u size free) (h : DyadicTiling u n size) {k : Nat}
    (hdvd : u * 2 ^ k ∣ o) (hin : o + u * 2 ^ k ≤ u * 2 ^ n) (hun : Untaken size free o (u * 2 ^ k))
    (hu : 0 < u) : ∃ p t, size p = some t ∧ free p ∧ p ≤ o ∧ o + u * 2 ^ k ≤ p + t := by
  induction k generalizing o with
  | zero =>
    have hs : 0 < u * 2 ^ 0 := by simpa using hu
    obtain ⟨p, t, hp, hpo, hop⟩ := h.tiles.cover o (by omega)
    obtain ⟨j, -, rfl⟩ := h.sized p t hp
    obtain ⟨h1, h2⟩ := h.subset_of_le hdvd hp (Nat.zero_le j) (le_refl o) (by omega) hpo hop
    exact ⟨p, _, hp, hun.free_of_mem hp (le_refl o) (by omega) hpo hop, h1, h2⟩
  | succ k ih =>
    have hs : 0 < u * 2 ^ k := Nat.mul_pos hu (Nat.two_pow_pos k)
    have hdouble := mul_two_pow_succ u k
    have hdvd' : u * 2 ^ k ∣ o := (two_pow_dvd (Nat.le_succ k)).trans hdvd
    obtain ⟨p, t, hp, hfp, hpo, hop⟩ := ih hdvd' (by omega) (hun.mono (le_refl o) (by omega))
    obtain ⟨q, r, hq, hfq, hqo, hoq⟩ := ih (o := o + u * 2 ^ k) (Nat.dvd_add_self_right.2 hdvd')
      (by omega) (hun.mono (by omega) (by omega))
    obtain ⟨i, -, rfl⟩ := h.sized p t hp
    obtain ⟨j, -, rfl⟩ := h.sized q r hq
    -- an interval of a larger order than the halves contains the whole
    by_cases hi : k + 1 ≤ i
    · obtain ⟨h1, h2⟩ := h.subset_of_le hdvd hp hi (le_refl o) (by omega) hpo (by omega)
      exact ⟨p, _, hp, hfp, h1, h2⟩
    · by_cases hj : k + 1 ≤ j
      · obtain ⟨h1, h2⟩ := h.subset_of_le hdvd hq hj (x := o + u * 2 ^ k) (by omega) (by omega)
          hqo (by omega)
        exact ⟨q, _, hq, hfq, h1, h2⟩
      · have hile : u * 2 ^ i ≤ u * 2 ^ k :=
          Nat.mul_le_mul_left u (Nat.pow_le_pow_right (by omega) (by omega))
        have hjle : u * 2 ^ j ≤ u * 2 ^ k :=
          Nat.mul_le_mul_left u (Nat.pow_le_pow_right (by omega) (by omega))
        have hpeq : p = o := by omega
        have hqeq : q = o + u * 2 ^ k := by omega
        have hik : u * 2 ^ i = u * 2 ^ k := by omega
        have hjk : u * 2 ^ j = u * 2 ^ k := by omega
        rw [hpeq] at hp hfp
        rw [hqeq] at hq hfq
        rw [hik] at hp
        rw [hjk] at hq
        exact absurd hfq (hc o k hdvd hp hq hfp)

theorem subset_parent {s : Nat} (hs : 0 < s) (hdvd : s ∣ o) :
    o / (s + s) * (s + s) ≤ o ∧ o + s ≤ o / (s + s) * (s + s) + (s + s) := by
  have hlt : o < o / (s + s) * (s + s) + (s + s) := Nat.lt_div_mul_add (by omega)
  refine ⟨Nat.div_mul_le_self o _, le_of_dvd_of_lt (Nat.dvd_add hdvd (dvd_refl s)) ?_ (by omega)⟩
  exact Nat.dvd_add (Dvd.dvd.mul_left (Nat.dvd_add_self_right.2 (dvd_refl s)) _)
    (Nat.dvd_add_self_right.2 (dvd_refl s))

section

variable (hc : Coalesced u size free) (h : DyadicTiling u n size)
include hc h

/-- **The free intervals of a coalesced tiling are the maximal untaken ones**: those aligned intervals
    that meet no taken interval while the aligned interval of twice their size does. -/
theorem Coalesced.free_iff (hu : 0 < u) (o s : Nat) :
    (size o = some s ∧ free o) ↔ ∃ k ≤ n, s = u * 2 ^ k ∧ s ∣ o ∧ o + s ≤ u * 2 ^ n ∧
      Untaken size free o s ∧
      (k < n → ¬ Untaken size free (o / (s + s) * (s + s)) (s + s)) := by
  constructor
  · rintro ⟨hs, hf⟩
    obtain ⟨k, hk, rfl⟩ := h.sized o s hs
    obtain ⟨hpos, hin⟩ := h.tiles.inside o _ hs
    refine ⟨k, hk, rfl, h.aligned o _ hs, hin, untaken_of_free h hs hf, fun hlt hun => ?_⟩
    obtain ⟨h1, h2⟩ := subset_parent hpos (h.aligned o _ hs)
    set l := o / (u * 2 ^ k + u * 2 ^ k) * (u * 2 ^ k + u * 2 ^ k) with hl
    have hdouble := mul_two_pow_succ u k
    have hdvd : u * 2 ^ (k + 1) ∣ l := by
      rw [hl, ← hdouble]
      exact Nat.dvd_mul_left _ _
    have hle : l + u * 2 ^ (k + 1) ≤ u * 2 ^ n :=
      le_of_dvd_of_lt (Nat.dvd_add hdvd (dvd_refl _)) (two_pow_dvd hlt) (by omega)
    obtain ⟨p, t, hp, -, hpl, hlp⟩ := hc.exists_free h hdvd hle (hdouble ▸ hun) hu
    -- the larger free interval and the one at `o` share the point `o`
    have hpo : p = o := h.tiles.disjoint p t o _ o hp hs (by omega) (by omega) (le_refl o) (by omega)
    rw [hpo, hs] at hp
    cases hp
    omega
  · rintro ⟨k, hk, rfl, hdvd, hin, hun, hmax⟩
    have hpos : 0 < u * 2 ^ k := Nat.mul_pos hu (Nat.two_pow_pos k)
    obtain ⟨p, t, hp, hf, hpo, hop⟩ := hc.exists_free h hdvd hin hun hu
    obtain ⟨j, hj, rfl⟩ := h.sized p t hp
    have hkj : u * 2 ^ k ≤ u * 2 ^ j := by omega
    have hkj' : k ≤ j := (Nat.pow_le_pow_iff_right (by omega)).1 (Nat.le_of_mul_le_mul_left hkj hu)
    rcases Nat.eq_or_lt_of_le hkj' with rfl | hlt
    · have hpo' : p = o := by omega
      rw [hpo'] at hp hf
      exact ⟨hp, hf⟩
    · -- the free interval is larger, so it contains the parent of the one at `o`
      refine absurd ?_ (hmax (by omega))
      obtain ⟨h1, h2⟩ := subset_parent hpos hdvd
      have hdouble := mul_two_pow_succ u k
      have hsub := h.subset_of_le (j := k + 1) (x := o)
        (o := o / (u * 2 ^ k + u * 2 ^ k) * (u * 2 ^ k + u * 2 ^ k))
        (by rw [hdouble]; exact Nat.dvd_mul_left _ _) hp hlt (by omega) (by omega) hpo (by omega)
      exact (untaken_of_free h hp hf).mono hsub.1 (by omega)

/-- Two coalesced tilings with the same taken intervals have the same free ones. -/
theorem Coalesced.free_congr {size' : Nat → Option Nat} {free' : Nat → Prop}
    (hc' : Coalesced u size' free') (h' : DyadicTiling u n size') (hu : 0 < u)
    (htaken : ∀ o s, (size o = some s ∧ ¬ free o) ↔ (size' o = some s ∧ ¬ free' o)) (o s : Nat) :
    (size o = some s ∧ free o) ↔ (size' o = some s ∧ free' o) := by
  have hun : ∀ p t, Untaken size free p t ↔ Untaken size' free' p t := by
    intro p t
    constructor
    · intro hp q r hq hf
      obtain ⟨hq', hf'⟩ := (htaken q r).2 ⟨hq, hf⟩
      exact hp q r hq' hf'
    · intro hp q r hq hf
      obtain ⟨hq', hf'⟩ := (htaken q r).1 ⟨hq, hf⟩
      exact hp q r hq' hf'
  rw [hc.free_iff h hu, hc'.free_iff h' hu]
  simp only [hun]

theorem Coalesced.single (hu : 0 < u) (hfree : ∀ o s, size o = some s → free o) (o s : Nat) :
    size o = some s ↔ o = 0 ∧ s = u * 2 ^ n := by
  have hun : Untaken size free 0 (u * 2 ^ n) := fun p t hp hf => absurd (hfree p t hp) hf
  obtain ⟨p, t, hp, -, hp0, hpt⟩ := hc.exists_free h (Nat.dvd_zero _) (by omega) hun hu
  obtain ⟨-, hin⟩ := h.tiles.inside p t hp
  have hp0' : p = 0 := by omega
  have ht : t = u * 2 ^ n := by omega
  rw [hp0', ht] at hp
  constructor
  · intro hs
    obtain ⟨hpos, hin'⟩ := h.tiles.inside o s hs
    have ho : o = 0 := h.tiles.disjoint o s 0 _ o hs hp (le_refl o) (by omega) (by omega) (by omega)
    rw [ho, hp] at hs
    exact ⟨ho, (Option.some.inj hs).symm⟩
  · rintro ⟨rfl, rfl⟩
    exact hp

end

end DyadicTiling
