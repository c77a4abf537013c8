import Mathlib

set_option autoImplicit false

/-! # Lossy decoding of UTF-8

Bytes are decoded one after another. A character that has begun waits for its other bytes; a byte that does
not fit gives the replacement character and is read again as the beginning of a character, and so does the
end of the text. After a text that leaves no character waiting, decoding starts afresh. -/

namespace Lossy

/-- A character that has begun: how many bytes are to come, its value so far and the range of the next
    byte. -/
structure Pending where
  need : Nat
  value : Nat
  low : Nat
  high : Nat
  low_ge : 0x80 ≤ low
  high_le : high ≤ 0xBF

def replacement : Char := Char.ofNat 0xFFFD

/-- The beginning of a character. -/
def start (b : UInt8) : Option Pending × List Char :=
  let n := b.toNat
  if n < 0x80 then (none, [Char.ofNat n])
  else if 0xC2 ≤ n ∧ n ≤ 0xDF then (some ⟨1, n % 32, 0x80, 0xBF, by decide, by decide⟩, [])
  else if n = 0xE0 then (some ⟨2, n % 16, 0xA0, 0xBF, by decide, by decide⟩, [])
  else if n = 0xED then (some ⟨2, n % 16, 0x80, 0x9F, by decide, by decide⟩, [])
  else if 0xE1 ≤ n ∧ n ≤ 0xEF then (some ⟨2, n % 16, 0x80, 0xBF, by decide, by decide⟩, [])
  else if n = 0xF0 then (some ⟨3, n % 8, 0x90, 0xBF, by decide, by decide⟩, [])
  else if n = 0xF4 then (some ⟨3, n % 8, 0x80, 0x8F, by decide, by decide⟩, [])
  else if 0xF1 ≤ n ∧ n ≤ 0xF3 then (some ⟨3, n % 8, 0x80, 0xBF, by decide, by decide⟩, [])
  else (none, [replacement])

/-- One byte: the character that waits afterwards, and what is decoded. -/
def step : Option Pending → UInt8 → Option Pending × List Char
  | none, b => start b
  | some p, b =>
    if p.low ≤ b.toNat ∧ b.toNat ≤ p.high then
      let value := p.value * 64 + b.toNat % 64
      if p.need ≤ 1 then (none, [Char.ofNat value])
      else (some ⟨p.need - 1, value, 0x80, 0xBF, by decide, by decide⟩, [])
    else ((start b).1, replacement :: (start b).2)

def run : Option Pending → List UInt8 → Option Pending × List Char
  | s, [] => (s, [])
  | s, b :: bs => ((run (step s b).1 bs).1, (step s b).2 ++ (run (step s b).1 bs).2)

/-- What the end of the text makes of a character that waits. -/
def flush : Option Pending → List Char
  | none => []
  | some _ => [replacement]

def decode (bs : List UInt8) : List Char := (run none bs).2 ++ flush (run none bs).1

/-- No character waits after the text. -/
def Complete (bs : List UInt8) : Prop := (run none bs).1 = none

variable {x y : List UInt8}

theorem run_append (s : Option Pending) (x y : List UInt8) :
    run s (x ++ y) = ((run (run s x).1 y).1, (run s x).2 ++ (run (run s x).1 y).2) := by
  induction x generalizing s with
  | nil => simp [run]
  | cons b x ih => simp [run, ih]

theorem Complete.append (hx : Complete x) (hy : Complete y) : Complete (x ++ y) := by
  rw [Complete, run_append, hx]
  exact hy

/-- **After a complete text decoding starts afresh.** -/
theorem decode_append (hx : Complete x) (y : List UInt8) : decode (x ++ y) = decode x ++ decode y := by
  rw [Complete] at hx
  simp [decode, run_append, hx, flush]

/-- A text that does not end in a replacement character is complete. -/
theorem complete_of_getLast (hlast : (decode x).getLast? ≠ some replacement) : Complete x := by
  rw [Complete]
  cases hs : (run none x).1 with
  | none => rfl
  | some p =>
    rw [decode, hs, flush, List.getLast?_concat] at hlast
    exact absurd rfl hlast

theorem start_of_tail {b : UInt8} (hlow : 0x80 ≤ b.toNat) (hhigh : b.toNat ≤ 0xBF) :
    start b = (none, [replacement]) := by
  unfold start
  simp only
  rw [if_neg (by omega), if_neg (by omega), if_neg (by omega), if_neg (by omega), if_neg (by omega),
    if_neg (by omega), if_neg (by omega), if_neg (by omega)]

/-- A character that waits does not outlast what decoding afresh would leave. -/
theorem run_none_of_run {s : Option Pending} (h : (run s y).1 = none) : (run none y).1 = none := by
  induction y generalizing s with
  | nil => rfl
  | cons b y ih =>
    cases s with
    | none => exact h
    | some p =>
      simp only [run, step] at h ⊢
      split at h
      next hin =>
        -- the byte belongs to the character that waits, so it begins none
        rw [start_of_tail (p.low_ge.trans hin.1) (hin.2.trans p.high_le)]
        exact ih h
      next hout => exact h

/-- **The end of a complete text is complete**, wherever it is cut. -/
theorem Complete.suffix (h : Complete (x ++ y)) : Complete y := by
  rw [Complete, run_append] at h
  exact run_none_of_run h

theorem length_pending (p : Pending) (y : List UInt8) :
    1 ≤ ((run (some p) y).2 ++ flush (run (some p) y).1).length := by
  induction y generalizing p with
  | nil => simp [run, flush]
  | cons b y ih =>
    simp only [run, step]
    split
    · split
      · simp
      · simpa using ih _
    · simp

theorem length_decode_le (x y : List UInt8) : (decode x).length ≤ (decode (x ++ y)).length := by
  rw [decode, decode, run_append]
  cases hs : (run none x).1 with
  | none => simp [flush]
  | some p =>
    have := length_pending p y
    simp only [List.length_append, flush, List.length_singleton] at this ⊢
    omega

/-- **Only the last character of a text can change** when more bytes come. -/
theorem dropLast_decode_prefix (x y : List UInt8) : (decode x).dropLast <+: decode (x ++ y) := by
  cases hs : (run none x).1 with
  | none =>
    rw [decode_append hs]
    exact (List.dropLast_prefix _).trans (List.prefix_append _ _)
  | some p =>
    have hdrop : (decode x).dropLast = (run none x).2 := by
      rw [decode, hs, flush, List.dropLast_concat]
    rw [hdrop, decode, run_append, List.append_assoc]
    exact List.prefix_append _ _

example : decode [0xE4, 0xBD, 0xA0, 0xE5, 0x61] = [Char.ofNat 0x4F60, replacement, Char.ofNat 0x61] := by
  decide

end Lossy
