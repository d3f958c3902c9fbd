import Mathlib.Algebra.Order.Ring.Int
import Mathlib.Data.String.Basic

/-!
# Machine integers

Signed words of `w` bits as integers: the bounds, saturation at them, wrapping around, and the
numerals a word is read from. A numeral is an optional sign and decimal digits; one outside the
range of the word is not read.
-/

namespace Machine

/-- The least value of a word. -/
def lo (w : Nat) : Int := -2 ^ (w - 1)

/-- The greatest value of a word. -/
def hi (w : Nat) : Int := 2 ^ (w - 1) - 1

/-- The nearest value in range. -/
def saturate (w : Nat) (x : Int) : Int := max (lo w) (min (hi w) x)

/-- The value that a word keeps of an operation that is not checked. -/
def wrap (w : Nat) (x : Int) : Int := x.bmod (2 ^ w)

variable {w : Nat} {x y : Int}

theorem wrap_of_mem (hlo : lo 64 ≤ x) (hhi : x ≤ hi 64) : wrap 64 x = x :=
  Int.bmod_eq_of_le hlo (Int.lt_of_le_sub_one hhi)

theorem hi_nonneg (w : Nat) : 0 ≤ hi w := sub_nonneg.mpr (one_le_pow₀ (by decide))

theorem lo_neg (w : Nat) : lo w < 0 := neg_neg_of_pos (pow_pos (by decide) _)

theorem saturate_nonneg (h : 0 ≤ x) : 0 ≤ saturate w x :=
  le_max_of_le_right (le_min (hi_nonneg w) h)

/-- Above the lower bound saturation only takes away. -/
theorem saturate_le_of_pos (h : 0 < saturate w x) : saturate w x ≤ x := by
  have hlo := lo_neg w
  unfold saturate at h ⊢
  omega

theorem saturate_mono (h : x ≤ y) : saturate w x ≤ saturate w y :=
  max_le_max le_rfl (min_le_min le_rfl h)

theorem saturate_max : saturate w (max x y) = max (saturate w x) (saturate w y) := by
  unfold saturate
  omega

/-- Amounts that are not negative can be added one by one. -/
theorem saturate_add (hx : 0 ≤ x) (hy : 0 ≤ y) :
    saturate w (saturate w x + y) = saturate w (x + y) := by
  have hhi := hi_nonneg w
  have hlo := lo_neg w
  unfold saturate
  omega

/-! ## Numerals -/

/-- The number that decimal digits write. -/
def digits (s : List Char) : Option Nat :=
  if s.isEmpty || !s.all Char.isDigit then none
  else some (s.foldl (fun n c => 10 * n + (c.toNat - '0'.toNat)) 0)

theorem digits_toDigits (n : Nat) : digits (Nat.toDigits 10 n) = some n := by
  have hall : (Nat.toDigits 10 n).all Char.isDigit = true := List.all_eq_true.mpr fun c hc =>
    Nat.isDigit_of_mem_toDigits (by decide) (by decide) hc
  have hne : (Nat.toDigits 10 n).isEmpty = false := by simp
  have hval : (Nat.toDigits 10 n).foldl (fun n c => 10 * n + (c.toNat - '0'.toNat)) 0 = n :=
    Nat.ofDigitChars_ten_toDigits
  rw [digits, if_neg (by simp [hall, hne]), hval]

/-- A decimal numeral of any size, with an optional plus sign. -/
def readNat : List Char → Option Nat
  | '+' :: ds => digits ds
  | ds => digits ds

theorem readNat_toString (n : Nat) : readNat (toString n).toList = some n := by
  have hlist : (toString n).toList = Nat.toDigits 10 n := by
    rw [Nat.toString_eq_ofList_toDigits, String.toList_ofList]
  have hsign : ∀ ds, Nat.toDigits 10 n ≠ '+' :: ds := by
    intro ds h
    have hdigit : '+'.isDigit = true :=
      Nat.isDigit_of_mem_toDigits (by decide) (by decide) (h ▸ (.head _) : '+' ∈ Nat.toDigits 10 n)
    exact absurd hdigit (by decide)
  rw [hlist, readNat]
  · exact digits_toDigits n
  · exact hsign

/-- An unsigned numeral, with an optional plus sign. -/
def readUnsigned (w : Nat) (s : List Char) : Option Nat :=
  (readNat s).filter fun n => n < 2 ^ w

/-- A signed numeral. -/
def readSigned (w : Nat) (s : List Char) : Option Int :=
  (match s with
    | '-' :: ds => (digits ds).map fun n => -(n : Int)
    | ds => (readNat ds).map Int.ofNat).filter fun i => lo w ≤ i && i ≤ hi w

end Machine
