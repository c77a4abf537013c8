import Mathlib

set_option autoImplicit false

/-! # Chunks that are held back

A reader appends the chunks of a text to a buffer. While the buffer is `held`, it waits for more; otherwise
it releases the buffer as one segment and starts with an empty one. -/

namespace Chunks

variable {α : Type} (held : List α → Bool)

def segments : List α → List (List α) → List (List α)
  | _, [] => []
  | buffer, c :: rest =>
    if held (buffer ++ c) then segments (buffer ++ c) rest
    else (buffer ++ c) :: segments [] rest

/-- What is in the buffer at the end, for a reader that waits as long as `first` says before it releases
    anything. -/
def carry (first held : List α → Bool) : List α → List (List α) → List α
  | buffer, [] => buffer
  | buffer, c :: rest =>
    if first (buffer ++ c) then carry first held (buffer ++ c) rest
    else carry held held [] rest

theorem segments_append_carry (buffer : List α) (chunks : List (List α)) :
    (segments held buffer chunks).flatten ++ carry held held buffer chunks =
      buffer ++ chunks.flatten := by
  induction chunks generalizing buffer with
  | nil => simp [segments, carry]
  | cons c rest ih =>
    rw [segments, carry]
    split
    · rw [ih]
      simp
    · simp [ih]

theorem carry_length_le (buffer : List α) (chunks : List (List α)) :
    (carry held held buffer chunks).length ≤ (buffer ++ chunks.flatten).length := by
  rw [← segments_append_carry held]
  simp

variable {held}

theorem carry_cases (first held : List α → Bool) (buffer : List α) (chunks : List (List α)) :
    carry first held buffer chunks = buffer ++ chunks.flatten ∨
      ∃ text, first text = false ∧
        text.length + (carry first held buffer chunks).length ≤ (buffer ++ chunks.flatten).length := by
  induction chunks generalizing buffer with
  | nil => exact .inl (by simp [carry])
  | cons c rest ih =>
    have hsplit : buffer ++ (c :: rest).flatten = (buffer ++ c) ++ rest.flatten := by simp
    rw [carry, hsplit]
    split
    · exact ih (buffer ++ c)
    next hfirst =>
      have hle := carry_length_le held [] rest
      refine .inr ⟨buffer ++ c, Bool.eq_false_iff.2 hfirst, ?_⟩
      rw [List.nil_append] at hle
      simp only [List.length_append] at hle ⊢
      omega

theorem not_held_of_mem_segments {buffer : List α} {chunks : List (List α)} {seg : List α}
    (h : seg ∈ segments held buffer chunks) : held seg = false := by
  induction chunks generalizing buffer with
  | nil => cases h
  | cons c rest ih =>
    rw [segments] at h
    split at h
    · exact ih h
    next hnot =>
      rcases List.mem_cons.1 h with rfl | h
      · exact Bool.eq_false_iff.2 hnot
      · exact ih h

end Chunks
