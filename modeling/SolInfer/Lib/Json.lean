import Mathlib

set_option autoImplicit false

/-! # JSON values -/

/-- What `json.loads` returns: `None`, booleans, numbers, strings, lists and string-keyed
    dictionaries. A finite float is the rational it denotes. -/
inductive Json where
  | null
  | bool (b : Bool)
  | int (n : Int)
  | float (q : ℚ)
  | str (s : String)
  | list (items : List Json)
  | obj (entries : List (String × Json))

instance : Inhabited Json := ⟨.null⟩

namespace Json

/-- The number that a boolean, integer or float stands for in Python arithmetic. -/
def number : Json → Option ℚ
  | .bool b => some (if b then 1 else 0)
  | .int n => some n
  | .float q => some q
  | _ => none

/-- Python's `==` with a scalar on the right; a list or dictionary equals no scalar. -/
def eqScalar (a b : Json) : Bool :=
  match a.number, b.number with
  | some p, some q => decide (p = q)
  | _, _ =>
    match a, b with
    | .null, .null => true
    | .str s, .str t => decide (s = t)
    | _, _ => false

def isNull : Json → Bool
  | .null => true
  | _ => false

theorem isNull_iff {j : Json} : j.isNull = true ↔ j = .null := by
  cases j <;> simp [isNull]

theorem eqScalar_null {j : Json} (h : j.isNull = false) : j.eqScalar .null = false := by
  cases j <;> simp_all [isNull, eqScalar, number]

/-- The digits of a Python integer literal: single underscores may stand between digits. -/
def parseDigits : Bool → Nat → List Char → Option Nat
  | afterDigit, acc, [] => if afterDigit then some acc else none
  | afterDigit, acc, c :: cs =>
    if c.isDigit then parseDigits true (acc * 10 + (c.toNat - 48)) cs
    else if c = '_' ∧ afterDigit = true then parseDigits false acc cs
    else none

/-- `int(s)` for a string of ASCII characters. -/
def parseInt (s : String) : Option Int :=
  let cs := (s.toList.dropWhile Char.isWhitespace).rdropWhile Char.isWhitespace
  match cs with
  | '-' :: ds => (parseDigits false 0 ds).map fun n => -(n : Int)
  | '+' :: ds => (parseDigits false 0 ds).map Int.ofNat
  | ds => (parseDigits false 0 ds).map Int.ofNat

/-! ## Reading an integer back -/

theorem parseDigits_digits {ds : List Char} (h : ∀ c ∈ ds, c.isDigit = true) (acc : Nat) :
    parseDigits true acc ds = some (Nat.ofDigitChars 10 ds acc) := by
  induction ds generalizing acc with
  | nil => rfl
  | cons c rest ih =>
    rw [parseDigits, if_pos (h c (List.mem_cons_self ..)),
      ih (fun d hd => h d (.tail _ hd)), Nat.ofDigitChars_cons, Nat.mul_comm]
    rfl

theorem isWhitespace_of_isDigit {c : Char} (h : c.isDigit = true) : c.isWhitespace = false := by
  by_contra hw
  rw [Bool.not_eq_false, Char.isWhitespace] at hw
  simp only [Bool.or_eq_true, decide_eq_true_eq] at hw
  rcases hw with ((rfl | rfl) | rfl) | rfl <;> exact absurd h (by decide)

theorem parseInt_repr (n : Nat) : parseInt n.repr = some (n : Int) := by
  have hdigit : ∀ c ∈ Nat.toDigits 10 n, c.isDigit = true :=
    fun c hc => Nat.isDigit_of_mem_toDigits (by decide) (le_refl 10) hc
  have hleft : (Nat.toDigits 10 n).dropWhile Char.isWhitespace = Nat.toDigits 10 n := by
    rw [List.dropWhile_eq_self_iff]
    intro hl
    rw [isWhitespace_of_isDigit (hdigit _ (List.getElem_mem hl))]
    decide
  have hright : (Nat.toDigits 10 n).rdropWhile Char.isWhitespace = Nat.toDigits 10 n := by
    rw [List.rdropWhile_eq_self_iff]
    intro hl
    rw [isWhitespace_of_isDigit (hdigit _ (List.getLast_mem hl))]
    decide
  have hparse : parseDigits false 0 (Nat.toDigits 10 n) = some n := by
    obtain ⟨c, rest, hcons⟩ := List.exists_cons_of_ne_nil (Nat.toDigits_ne_nil (n := n) (b := 10))
    have hc := hdigit c (by rw [hcons]; exact List.mem_cons_self ..)
    have hall := parseDigits_digits hdigit 0
    rw [Nat.ofDigitChars_toDigits (by decide) (le_refl 10), hcons] at hall
    rw [hcons, parseDigits, if_pos hc]
    rwa [parseDigits, if_pos hc] at hall
  -- a digit is no sign
  simp only [parseInt, Nat.toList_repr, hleft, hright]
  split
  next ds hds => exact absurd (hdigit '-' (by rw [hds]; exact List.mem_cons_self ..)) (by decide)
  next ds hds => exact absurd (hdigit '+' (by rw [hds]; exact List.mem_cons_self ..)) (by decide)
  · rw [hparse]
    rfl

end Json
