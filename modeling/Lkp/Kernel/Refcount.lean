/-
`refcount_t`: a counter that saturates instead of wrapping.

A `refcount_t` is an `int` that counts from 1 up.  Going past `INT_MAX`, going
down to 0, and counting up from 0 or below are bugs of the caller; the counter
then takes one fixed negative value, and no later increment or decrement ever
leaves it.
-/
import Mathlib.Tactic

namespace Lkp

/-- `INT_MAX`. -/
def intMax : Int := 2147483647

namespace Refcount

/-- `REFCOUNT_SATURATED`, which is `INT_MIN / 2`. -/
def saturated : Int := -1073741824

/-- `refcount_inc`. -/
def inc (v : Int) : Int := if 1 ≤ v ∧ v < intMax then v + 1 else saturated

/-- `refcount_dec`, which must not be the one that reaches 0. -/
def dec (v : Int) : Int := if v ≤ 1 then saturated else v - 1

theorem inc_of_lt {v : Int} (h1 : 1 ≤ v) (h : v < intMax) : inc v = v + 1 := if_pos ⟨h1, h⟩

theorem dec_of_lt {v : Int} (h : 1 < v) : dec v = v - 1 := if_neg (Int.not_le.mpr h)

theorem dec_of_le {v : Int} (h : v ≤ 1) : dec v = saturated := if_pos h

/-- Saturation is for good. -/
@[simp] theorem inc_saturated : inc saturated = saturated := rfl

@[simp] theorem dec_saturated : dec saturated = saturated := rfl

end Refcount

end Lkp
