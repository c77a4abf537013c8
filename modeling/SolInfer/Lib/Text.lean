import Mathlib

set_option autoImplicit false

/-! # Searching in texts

A text is the list of its characters. `find` is the index of the first occurrence of a text in another,
as `str.find` has it, and an occurrence of `t` at `i` in `s` is `t <+: s.drop i`. -/

open List

namespace Text

variable {α : Type} [DecidableEq α] {s t u v : List α} {i : Nat}

/-- `s.find(t)`, with `none` for -1. -/
def find (t : List α) : List α → Option Nat
  | [] => if t = [] then some 0 else none
  | a :: s => if t.isPrefixOf (a :: s) then some 0 else (find t s).map (· + 1)

/-- `t in s` -/
def contains (s t : List α) : Bool := (find t s).isSome

theorem find_eq_none : find t s = none ↔ ∀ i, ¬ t <+: s.drop i := by
  induction s with
  | nil => cases t <;> simp [find]
  | cons a s ih =>
    rw [find]
    split
    next hpre =>
      have hat : t <+: (a :: s).drop 0 := List.isPrefixOf_iff_prefix.1 hpre
      simp only [reduceCtorEq, false_iff, not_forall, not_not]
      exact ⟨0, hat⟩
    next hpre =>
      rw [Option.map_eq_none_iff, ih]
      constructor
      · intro h i
        rcases i with _ | i
        · exact fun hat => hpre (List.isPrefixOf_iff_prefix.2 hat)
        · exact h i
      · intro h i
        exact h (i + 1)

theorem find_eq_some (hat : t <+: s.drop i) (hi : i ≤ s.length)
    (hfirst : ∀ j < i, ¬ t <+: s.drop j) : find t s = some i := by
  induction s generalizing i with
  | nil =>
    obtain rfl : i = 0 := by simpa using hi
    have ht : t = [] := by simpa using hat
    simp [find, ht]
  | cons a s ih =>
    rcases i with _ | i
    · have hpre : t.isPrefixOf (a :: s) = true := List.isPrefixOf_iff_prefix.2 hat
      rw [find, if_pos hpre]
    · have hpre : ¬ t.isPrefixOf (a :: s) = true :=
        fun hpre => hfirst 0 (Nat.succ_pos i) (List.isPrefixOf_iff_prefix.1 hpre)
      rw [find, if_neg hpre, ih hat (by simpa using hi) (fun j hj => hfirst (j + 1) (by omega))]
      rfl

theorem contains_eq_false : contains s t = false ↔ ∀ i, ¬ t <+: s.drop i := by
  rw [← find_eq_none, contains, Option.isSome_eq_false_iff, Option.isNone_iff_eq_none]

omit [DecidableEq α] in
theorem occurs_of_isPrefix (h : s <+: u) (hat : t <+: s.drop i) : t <+: u.drop i := by
  obtain ⟨v, rfl⟩ := h
  by_cases hi : i ≤ s.length
  · rw [drop_append_of_le_length hi]
    exact hat.trans (prefix_append _ _)
  · have ht : t = [] := by simpa [drop_eq_nil_of_le (by omega : s.length ≤ i)] using hat
    rw [ht]
    exact nil_prefix

omit [DecidableEq α] in
theorem occurs_length (hat : t <+: s.drop i) (ht : t ≠ []) : i + t.length ≤ s.length := by
  have hle := hat.length_le
  have hpos := length_pos_iff.2 ht
  rw [length_drop] at hle
  omega

/-- `t` begins at `i` in `u`, and ends there or goes on behind it. -/
def Begins (t u : List α) (i : Nat) : Prop := t <+: u.drop i ∨ u.drop i <+: t

instance (t u : List α) (i : Nat) : Decidable (Begins t u i) := inferInstanceAs (Decidable (_ ∨ _))

omit [DecidableEq α] in
theorem occurs_append (hat : t <+: (u ++ v).drop i) :
    (u.length ≤ i ∧ t <+: v.drop (i - u.length)) ∨ (i < u.length ∧ t <+: u.drop i) ∨
      (i < u.length ∧ ∃ w, w ≠ [] ∧ t = u.drop i ++ w ∧ w <+: v) := by
  rcases Nat.lt_or_ge i u.length with hlt | hge
  · rw [drop_append_of_le_length hlt.le] at hat
    rcases Nat.lt_or_ge (u.drop i).length t.length with hlong | hshort
    · obtain ⟨w, rfl⟩ := prefix_of_prefix_length_le (prefix_append _ v) hat hlong.le
      refine .inr (.inr ⟨hlt, w, ?_, rfl, (prefix_append_right_inj _).1 hat⟩)
      rintro rfl
      rw [append_nil] at hlong
      exact lt_irrefl _ hlong
    · exact .inr (.inl ⟨hlt, prefix_of_prefix_length_le hat (prefix_append _ v) hshort⟩)
  · left
    refine ⟨hge, ?_⟩
    rwa [drop_append, drop_eq_nil_of_le hge, nil_append] at hat

theorem occurs_of_find (h : find t s = some i) : t <+: s.drop i := by
  induction s generalizing i with
  | nil =>
    rw [find] at h
    split at h
    next ht => simp [ht]
    · cases h
  | cons a s ih =>
    rw [find] at h
    split at h
    next hpre =>
      cases h
      exact List.isPrefixOf_iff_prefix.1 hpre
    · obtain ⟨j, hj, rfl⟩ := Option.map_eq_some_iff.1 h
      exact ih hj

theorem find_lt_length (h : find t s = some i) (ht : t ≠ []) : i < s.length := by
  have := occurs_length (occurs_of_find h) ht
  have := length_pos_iff.2 ht
  omega

/-! ## Several texts -/

variable {ts : List (List α)}

/-- The first position at which one of the texts begins. -/
def findAny (ts : List (List α)) (s : List α) : Option Nat := (ts.filterMap fun t => find t s).min?

theorem exists_of_findAny (h : findAny ts s = some i) : ∃ t ∈ ts, find t s = some i := by
  have hmem := (min?_eq_some_iff.1 h).1
  simpa using mem_filterMap.1 hmem

theorem findAny_le (h : findAny ts s = some i) (ht : t ∈ ts) {j : Nat} (hj : find t s = some j) : i ≤ j :=
  (min?_eq_some_iff.1 h).2 j (mem_filterMap.2 ⟨t, ht, hj⟩)

theorem exists_findAny (h : ∃ t ∈ ts, contains s t = true) : ∃ i, findAny ts s = some i := by
  obtain ⟨t, ht, hin⟩ := h
  obtain ⟨j, hj⟩ := Option.isSome_iff_exists.1 hin
  have hmem : j ∈ ts.filterMap fun t => find t s := mem_filterMap.2 ⟨t, ht, hj⟩
  exact Option.isSome_iff_exists.1 (isSome_min?_of_mem hmem)

end Text

/-! ## Texts and their UTF-8 bytes

A text is the list of its characters and `bytes` its encoding. -/

namespace Utf8

def bytes (s : List Char) : List UInt8 := s.flatMap String.utf8EncodeChar

/-- The text up to its first `n` bytes, `&s[..n]` at the start of a character. -/
def sliceTo : List Char → Nat → List Char
  | [], _ => []
  | c :: s, n => if n = 0 then [] else c :: sliceTo s (n - c.utf8Size)

/-- The text from a byte on, `&s[n..]` at the start of a character. -/
def sliceFrom : List Char → Nat → List Char
  | [], _ => []
  | c :: s, n => if n = 0 then c :: s else sliceFrom s (n - c.utf8Size)

def isAscii (bytes : List UInt8) : Bool := bytes.all (· < 128)

/-- The byte position of a character, `char_indices().nth(n)`. -/
def charIndex (s : List Char) (n : Nat) : Option Nat :=
  if n < s.length then some (bytes (s.take n)).length else none

variable {c : Char} {s : List Char} {n : Nat}

theorem bytes_cons (c : Char) (s : List Char) : bytes (c :: s) = String.utf8EncodeChar c ++ bytes s := rfl

theorem sliceFrom_bytes (s : List Char) (n : Nat) : sliceFrom s (bytes (s.take n)).length = s.drop n := by
  induction s generalizing n with
  | nil => simp [sliceFrom]
  | cons c s ih =>
    cases n with
    | zero => rfl
    | succ n =>
      have hpos := c.utf8Size_pos
      rw [take_succ_cons, bytes_cons, length_append, String.length_utf8EncodeChar, sliceFrom, if_neg (by omega),
        Nat.add_sub_cancel_left, ih, drop_succ_cons]

theorem encode_eq_of_ascii {b : UInt8} {rest : List UInt8} (h : String.utf8EncodeChar c = b :: rest)
    (hb : b < 128) : rest = [] ∧ c.toNat = b.toNat := by
  rw [String.utf8EncodeChar] at h
  have hlt : b.toNat < 128 := hb
  split at h
  next hle =>
    obtain ⟨rfl, rfl⟩ := cons.inj h
    refine ⟨rfl, ?_⟩
    rw [UInt8.toNat_ofNat', Nat.mod_eq_of_lt (by omega)]
    rfl
  · exfalso
    split at h
    · obtain ⟨rfl, -⟩ := cons.inj h
      rw [UInt8.toNat_ofNat'] at hlt
      omega
    · split at h
      · obtain ⟨rfl, -⟩ := cons.inj h
        rw [UInt8.toNat_ofNat'] at hlt
        omega
      · obtain ⟨rfl, -⟩ := cons.inj h
        rw [UInt8.toNat_ofNat'] at hlt
        omega

theorem exists_encode (c : Char) : ∃ b rest, String.utf8EncodeChar c = b :: rest := by
  refine exists_cons_of_ne_nil fun h => ?_
  have := congrArg length h
  rw [String.length_utf8EncodeChar] at this
  exact absurd this c.utf8Size_pos.ne'

theorem length_bytes_take (hn : n ≤ (bytes s).length) (h : isAscii ((bytes s).take n) = true) :
    (bytes (s.take n)).length = n := by
  induction s generalizing n with
  | nil =>
    have : n = 0 := by simpa [bytes] using hn
    simp [this, bytes]
  | cons c s ih =>
    cases n with
    | zero => rfl
    | succ n =>
      obtain ⟨b, rest, hc⟩ := exists_encode c
      rw [bytes_cons, hc] at h hn
      simp only [cons_append, take_succ_cons, isAscii, all_cons, Bool.and_eq_true, decide_eq_true_eq] at h
      obtain ⟨rfl, -⟩ := encode_eq_of_ascii hc h.1
      rw [take_succ_cons, bytes_cons, hc, length_append, ih (by simpa using hn) h.2]
      simp [Nat.add_comm]

end Utf8
