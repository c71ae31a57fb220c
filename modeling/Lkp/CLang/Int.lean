/-
The `int` of C, where overflow is undefined.

A value of type `int` is an integer with the proof that it fits.  An operation gives
`none` where C leaves the result undefined: a result that does not fit, or a division
by zero.  So "nothing on the way overflows or divides by zero" is the statement that a
computation is not `none`.  Division truncates toward zero.

`&&` and `||` do not evaluate their right operand when the left one decides, so that an
undefined right operand then does no harm.
-/
import Mathlib.Tactic

namespace Lkp

def INT_MIN : ℤ := -0x80000000
def INT_MAX : ℤ := 0x7fffffff

/-- The number has a representation as `int`. -/
def FitsInt (x : ℤ) : Prop := INT_MIN ≤ x ∧ x ≤ INT_MAX

instance : DecidablePred FitsInt := fun x =>
  inferInstanceAs (Decidable (INT_MIN ≤ x ∧ x ≤ INT_MAX))

/-- A value of type `int`. -/
@[ext] structure CInt where
  val : ℤ
  fits : FitsInt val
  deriving DecidableEq

namespace CInt

/-- `INT_MAX` as a value. -/
def max : CInt := ⟨INT_MAX, by decide⟩

/-- `INT_MIN` as a value. -/
def min : CInt := ⟨INT_MIN, by decide⟩

/-- The value of an expression, if it fits. -/
def ofInt (x : ℤ) : Option CInt := if h : FitsInt x then some ⟨x, h⟩ else none

/-- `a * b` -/
def mul (a b : CInt) : Option CInt := ofInt (a.val * b.val)

/-- `a / b` -/
def div (a b : CInt) : Option CInt := if b.val = 0 then none else ofInt (a.val.tdiv b.val)

variable {a b : CInt} {x : ℤ}

theorem ofInt_of_fits (h : FitsInt x) : ofInt x = some ⟨x, h⟩ := dif_pos h

/-- Only `INT_MIN / -1` has a quotient that does not fit. -/
theorem tdiv_fits {b : ℤ} (ha : FitsInt x) (hb : b ≠ 0) (h : b ≠ -1) : FitsInt (x.tdiv b) := by
  obtain ⟨hlo, hhi⟩ := ha
  have hquot : (x.tdiv b).natAbs = x.natAbs / b.natAbs := Int.natAbs_tdiv x b
  have hle : x.natAbs / b.natAbs ≤ x.natAbs := Nat.div_le_self _ _
  by_cases hone : b = 1
  · rw [hone, Int.tdiv_one]
    exact ⟨hlo, hhi⟩
  · have hhalf : x.natAbs / b.natAbs ≤ x.natAbs / 2 := Nat.div_le_div_left (by omega) (by omega)
    unfold FitsInt INT_MIN INT_MAX at *
    omega

theorem div_eq (hb : b.val ≠ 0) (h : b.val ≠ -1) :
    a.div b = some ⟨a.val.tdiv b.val, tdiv_fits a.fits hb h⟩ := by
  rw [div, if_neg hb, ofInt_of_fits]

end CInt

/-! ### Truncated quotients in comparisons

Where the quotient is rounded toward the side that is compared with, the comparison is
one of the product.
-/

section Quotients

variable {m d b : ℤ}

theorem tdiv_lt_iff (hm : 0 ≤ m) (hd : 0 < d) : m.tdiv d < b ↔ m < d * b := by
  rw [Int.tdiv_eq_ediv_of_nonneg hm, Int.ediv_lt_iff_lt_mul hd, mul_comm]

theorem lt_tdiv_iff (hm : m ≤ 0) (hd : 0 < d) : b < m.tdiv d ↔ d * b < m := by
  have hneg : (-m).tdiv d < -b ↔ -m < d * -b := tdiv_lt_iff (by omega) hd
  rw [Int.neg_tdiv, mul_neg] at hneg
  omega

theorem tdiv_lt_iff_of_neg (hm : m ≤ 0) (hd : d < 0) : m.tdiv d < b ↔ d * b < m := by
  have hneg : (-m).tdiv (-d) < b ↔ -m < -d * b := tdiv_lt_iff (by omega) (by omega)
  rw [Int.neg_tdiv_neg, neg_mul] at hneg
  omega

theorem lt_tdiv_iff_of_neg (hm : 0 ≤ m) (hd : d < 0) : b < m.tdiv d ↔ m < d * b := by
  have hneg : b < (-m).tdiv (-d) ↔ -d * b < -m := lt_tdiv_iff (by omega) (by omega)
  rw [Int.neg_tdiv_neg, neg_mul] at hneg
  omega

end Quotients

/-! ### `&&` and `||` -/

/-- `x && y` -/
def cAnd (x y : Option Bool) : Option Bool := x.bind fun b => if b then y else some false

/-- `x || y` -/
def cOr (x y : Option Bool) : Option Bool := x.bind fun b => if b then some true else y

@[simp] theorem cAnd_some (p q : Bool) : cAnd (some p) (some q) = some (p && q) := by
  cases p <;> rfl

@[simp] theorem cOr_some (p q : Bool) : cOr (some p) (some q) = some (p || q) := by
  cases p <;> rfl

/-- The right operand is not evaluated. -/
@[simp] theorem cAnd_false (y : Option Bool) : cAnd (some false) y = some false := rfl

end Lkp
