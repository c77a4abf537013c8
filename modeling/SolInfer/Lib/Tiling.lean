import Mathlib

set_option autoImplicit false

/-! # Tilings of an interval

A family of half-open intervals, given by its sizes at their offsets, that tiles `[0, n)`: every
interval is nonempty and inside, every point lies in one, and no point lies in two. Splitting one
interval in two and merging two neighbours keep a tiling a tiling; an offset strictly inside an
interval is never the offset of another. -/

/-- `size o = some s` says that `[o, o + s)` is in the family. -/
structure Tiles (size : Nat → Option Nat) (n : Nat) : Prop where
  inside : ∀ o s, size o = some s → 0 < s ∧ o + s ≤ n
  cover : ∀ x < n, ∃ o s, size o = some s ∧ o ≤ x ∧ x < o + s
  disjoint : ∀ o s o' s' x, size o = some s → size o' = some s' →
    o ≤ x → x < o + s → o' ≤ x → x < o' + s' → o = o'

namespace Tiles

variable {size : Nat → Option Nat} {n : Nat}

theorem single (hn : 0 < n) : Tiles (fun o => if o = 0 then some n else none) n where
  inside o s h := by
    split at h
    next ho => cases h; omega
    · cases h
  cover x hx := ⟨0, n, by simp, by omega, by omega⟩
  disjoint o s o' s' x h h' _ _ _ _ := by
    split at h
    next ho =>
      split at h'
      next ho' => rw [ho, ho']
      · cases h'
    · cases h

theorem eq_none_of_mem (h : Tiles size n) {o s x : Nat} (ho : size o = some s) (hlt : o < x)
    (hx : x < o + s) : size x = none := by
  cases hsx : size x with
  | none => rfl
  | some t =>
    have ht := (h.inside x t hsx).1
    have := h.disjoint o s x t x ho hsx (by omega) hx (le_refl x) (by omega)
    omega

/-- What the family has at `o` and `o + s` is `[o, o + s + t)`, in one piece or cut at `o + s`. -/
def Pair (size : Nat → Option Nat) (o s t : Nat) : Prop :=
  (size o = some (s + t) ∧ size (o + s) = none) ∨ (size o = some s ∧ size (o + s) = some t)

section Recut

variable {o s t c w x : Nat}

theorem Pair.within (h : Pair size o s t) (hc : c = o ∨ c = o + s) (hw : size c = some w) :
    (w = s ∨ w = t ∨ w = s + t) ∧ o ≤ c ∧ c + w ≤ o + (s + t) := by
  obtain ⟨h1, h2⟩ | ⟨h1, h2⟩ := h <;> obtain rfl | rfl := hc <;> simp_all <;> omega

theorem Pair.cover (h : Pair size o s t) (hle : o ≤ x) (hlt : x < o + (s + t)) :
    ∃ c w, (c = o ∨ c = o + s) ∧ size c = some w ∧ c ≤ x ∧ x < c + w := by
  rcases h with ⟨h1, -⟩ | ⟨h1, h2⟩
  · exact ⟨o, _, .inl rfl, h1, hle, hlt⟩
  · by_cases hx : x < o + s
    · exact ⟨o, s, .inl rfl, h1, hle, hx⟩
    · exact ⟨o + s, t, .inr rfl, h2, by omega, by omega⟩

theorem Pair.unique {c' w' : Nat} (h : Pair size o s t) (hc : c = o ∨ c = o + s)
    (hc' : c' = o ∨ c' = o + s) (hw : size c = some w) (hw' : size c' = some w') (hcx : c ≤ x)
    (hxc : x < c + w) (hcx' : c' ≤ x) (hxc' : x < c' + w') : c = c' := by
  obtain ⟨h1, h2⟩ | ⟨h1, h2⟩ := h <;> obtain rfl | rfl := hc <;> obtain rfl | rfl := hc' <;>
    simp_all <;> omega

theorem recut {size' : Nat → Option Nat} (h : Tiles size n) (hs : 0 < s) (ht : 0 < t)
    (hp : Pair size o s t) (hp' : Pair size' o s t)
    (hsame : ∀ x, x ≠ o → x ≠ o + s → size' x = size x) : Tiles size' n where
  inside x r hx := by
    by_cases hc : x = o ∨ x = o + s
    · obtain ⟨c, w, hco, hw, hle, hlt⟩ := hp.cover (x := o + (s + t) - 1) (by omega) (by omega)
      have hin := h.inside c w hw
      have hold := hp.within hco hw
      have hnew := hp'.within hc hx
      omega
    · rw [not_or] at hc
      exact h.inside x r (hsame x hc.1 hc.2 ▸ hx)
  cover x hx := by
    obtain ⟨c, w, hw, hle, hlt⟩ := h.cover x hx
    by_cases hc : c = o ∨ c = o + s
    · have hold := hp.within hc hw
      obtain ⟨c', w', -, hnew⟩ := hp'.cover (x := x) (by omega) (by omega)
      exact ⟨c', w', hnew⟩
    · rw [not_or] at hc
      exact ⟨c, w, (hsame c hc.1 hc.2).trans hw, hle, hlt⟩
  disjoint a u b v x ha hb hax hxa hbx hxb := by
    -- a point of the pair lies in no other interval of the old family
    have hout : ∀ c w c' w', (c = o ∨ c = o + s) → ¬ (c' = o ∨ c' = o + s) → size' c = some w →
        size' c' = some w' → c ≤ x → x < c + w → c' ≤ x → ¬ x < c' + w' := by
      intro c w c' w' hc hc' hw hw' hcx hxc hcx' hxc'
      have hnew := hp'.within hc hw
      obtain ⟨d, r, hd, hr, hdx, hxd⟩ := hp.cover (x := x) (by omega) (by omega)
      rw [hsame c' (fun he => hc' (.inl he)) (fun he => hc' (.inr he))] at hw'
      exact hc' (h.disjoint d r c' w' x hr hw' hdx hxd hcx' hxc' ▸ hd)
    by_cases hac : a = o ∨ a = o + s <;> by_cases hbc : b = o ∨ b = o + s
    · exact hp'.unique hac hbc ha hb hax hxa hbx hxb
    · exact absurd hxb (hout a u b v hac hbc ha hb hax hxa hbx)
    · exact absurd hxa (hout b v a u hbc hac hb ha hbx hxb hax)
    · rw [not_or] at hac hbc
      rw [hsame a hac.1 hac.2] at ha
      rw [hsame b hbc.1 hbc.2] at hb
      exact h.disjoint a u b v x ha hb hax hxa hbx hxb

end Recut

end Tiles
