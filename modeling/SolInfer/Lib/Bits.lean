import Mathlib

set_option autoImplicit false

/-! # Bit windows and buddies

Rounding up to a power of two by the or-shift cascade `n |= n >> 1; n |= n >> 2; …`: after the
shifts `1, 2, 4, …, 2 ^ (k - 1)` bit `i` of the result is set exactly when `n` has a bit set in the
window `[i, i + 2 ^ k)`. The cascade fills every bit below the leading one, and so rounds up,
exactly when no window below the leading bit is empty.

The second half is the buddy computation `o ^^^ 2 ^ j`, which moves an offset that is aligned to
`2 ^ j` to the other half of the enclosing block of size `2 ^ (j + 1)`. -/

namespace Bits

/-! ## The or-shift cascade -/

/-- One step of the cascade, `n |= n >> w`. -/
def orShift (w n : Nat) : Nat := n ||| (n >>> w)

/-- `m` has bit `i` set exactly when `n` has a bit set among `i, …, i + w - 1`. -/
def IsWindow (w n m : Nat) : Prop :=
  ∀ i, m.testBit i = true ↔ ∃ j < w, n.testBit (i + j) = true

theorem isWindow_one (n : Nat) : IsWindow 1 n n := fun i => by simp

theorem IsWindow.orShift {w n m : Nat} (h : IsWindow w n m) : IsWindow (w + w) n (Bits.orShift w m) := by
  intro i
  rw [Bits.orShift, Nat.testBit_or, Nat.testBit_shiftRight, Bool.or_eq_true, h i, h (w + i)]
  constructor
  · rintro (⟨j, hj, hb⟩ | ⟨j, hj, hb⟩)
    · exact ⟨j, by omega, hb⟩
    · exact ⟨w + j, by omega, by rwa [← Nat.add_assoc, Nat.add_comm i w]⟩
  · rintro ⟨j, hj, hb⟩
    by_cases hjw : j < w
    · exact .inl ⟨j, hjw, hb⟩
    · refine .inr ⟨j - w, by omega, ?_⟩
      rwa [show w + i + (j - w) = i + j by omega]

theorem le_orShift (w n : Nat) : n ≤ Bits.orShift w n := Nat.left_le_or

/-- No `w` consecutive zero bits of `n` lie below its leading bit. -/
def NoZeroRun (w n : Nat) : Prop := ∀ i, 2 ^ i ≤ n → n / 2 ^ i % 2 ^ w ≠ 0

theorem div_mod_two_pow_ne_zero {n i w : Nat} :
    n / 2 ^ i % 2 ^ w ≠ 0 ↔ ∃ j < w, n.testBit (i + j) = true := by
  constructor
  · intro h
    obtain ⟨j, hj⟩ := Nat.exists_testBit_of_ne_zero h
    rw [Nat.testBit_mod_two_pow, Bool.and_eq_true, decide_eq_true_iff, Nat.testBit_div_two_pow] at hj
    exact ⟨j, hj.1, by rw [Nat.add_comm]; exact hj.2⟩
  · rintro ⟨j, hj, hb⟩ h0
    have hbit : (n / 2 ^ i % 2 ^ w).testBit j = true := by
      rw [Nat.testBit_mod_two_pow, Nat.testBit_div_two_pow, Nat.add_comm j i, hb]
      simpa using hj
    rw [h0] at hbit
    simp at hbit

/-- The filled cascade is one below a power of two exactly when no window is empty. -/
theorem IsWindow.succ_eq_two_pow_iff {w n m : Nat} (h : IsWindow w n m) (hle : n ≤ m) :
    (∃ k, m + 1 = 2 ^ k) ↔ NoZeroRun w n := by
  constructor
  · rintro ⟨k, hk⟩ i hi
    have hik : i < k := by
      have hlt : 2 ^ i < 2 ^ k := by omega
      exact (Nat.pow_lt_pow_iff_right (by omega)).1 hlt
    have hm : m = 2 ^ k - 1 := by omega
    rw [div_mod_two_pow_ne_zero, ← h i, hm, Nat.testBit_two_pow_sub_one]
    simpa using hik
  · intro hz
    by_cases hn : n = 0
    · refine ⟨0, ?_⟩
      have hm : m = 0 := by
        refine Nat.eq_of_testBit_eq fun i => ?_
        rw [Nat.zero_testBit, ← Bool.not_eq_true, h i]
        simp [hn]
      simp [hm]
    · refine ⟨n.log2 + 1, ?_⟩
      have hm : m = 2 ^ (n.log2 + 1) - 1 := by
        refine Nat.eq_of_testBit_eq fun i => ?_
        rw [Nat.testBit_two_pow_sub_one, Bool.eq_iff_iff, h i, decide_eq_true_iff]
        constructor
        · rintro ⟨j, _, hb⟩
          have hge : 2 ^ (i + j) ≤ n := Nat.ge_two_pow_of_testBit hb
          have := (Nat.le_log2 hn).2 hge
          omega
        · intro hi
          exact div_mod_two_pow_ne_zero.1 (hz i ((Nat.le_log2 hn).1 (by omega)))
      have hpos : 0 < 2 ^ (n.log2 + 1) := Nat.two_pow_pos _
      omega

theorem noZeroRun_of_lt {w n : Nat} (h : n < 2 ^ w) : NoZeroRun w n := by
  intro i hi
  have hlt : n / 2 ^ i < 2 ^ w := lt_of_le_of_lt (Nat.div_le_self _ _) h
  have hpos : 0 < n / 2 ^ i := Nat.div_pos hi (Nat.two_pow_pos i)
  rw [Nat.mod_eq_of_lt hlt]
  omega

/-! ## Buddies -/

/-- The buddy of an offset aligned to `2 ^ j` is the other half of the enclosing pair. -/
theorem xor_two_pow_of_dvd {o j : Nat} (h : 2 ^ j ∣ o) :
    o ^^^ 2 ^ j = if o / 2 ^ j % 2 = 0 then o + 2 ^ j else o - 2 ^ j := by
  obtain ⟨q, rfl⟩ := h
  have hpos : 0 < 2 ^ j := Nat.two_pow_pos j
  have hshift : 2 ^ j * q ^^^ 2 ^ j = (q ^^^ 1) * 2 ^ j := by
    have hd := Nat.shiftLeft_xor_distrib (i := j) (a := q) (b := 1)
    simp only [Nat.shiftLeft_eq, one_mul] at hd
    rw [hd, Nat.mul_comm]
  rw [hshift, Nat.mul_div_cancel_left _ hpos]
  split
  next he =>
    rw [Nat.xor_one_of_even (Nat.even_iff.2 he)]
    ring
  next ho =>
    rw [Nat.xor_one_of_odd (Nat.odd_iff.2 (by omega)), Nat.sub_mul, one_mul, Nat.mul_comm]

theorem exists_two_pow_of_and_pred {n : Nat} (hpos : 0 < n) (h : n &&& (n - 1) = 0) : ∃ k, n = 2 ^ k := by
  refine ⟨n.log2, ?_⟩
  have hlow : 2 ^ n.log2 ≤ n := Nat.log2_self_le (by omega)
  by_contra hne
  have hlt : 2 ^ n.log2 ≤ n - 1 := by omega
  have hhigh : n < 2 ^ (n.log2 + 1) := Nat.lt_log2_self
  have hbit : (n &&& (n - 1)).testBit n.log2 = true := by
    rw [Nat.testBit_and]
    have hb1 : n.testBit n.log2 = true := Nat.testBit_of_two_pow_le_and_two_pow_add_one_gt hlow hhigh
    have hb2 : (n - 1).testBit n.log2 = true :=
      Nat.testBit_of_two_pow_le_and_two_pow_add_one_gt hlt (by omega)
    rw [hb1, hb2]
    rfl
  rw [h] at hbit
  simp at hbit

end Bits
