/-
The library routine of the module that multiplies two `int`s.

The test for overflow divides `INT_MAX` and `INT_MIN` by `a`, in an order that keeps the
division from being evaluated where `a` is 0 or -1.  `prodint_exact` says that the test
is right for every pair, and that neither it nor the product that follows is undefined.
-/
import Lkp.CLang.Int

namespace Lkp.Libtest

/-- The two comparisons with a quotient: `b > m/a || b < n/a`. -/
def outside (a b m n : CInt) : Option Bool :=
  cOr ((m.div a).map fun q => decide (b.val > q.val))
    ((n.div a).map fun q => decide (b.val < q.val))

/-- The condition under which `prodint` warns. -/
def overflows (a b : CInt) : Option Bool :=
  cOr
    (cOr (cAnd (some (decide (a.val > 0))) (outside a b .max .min))
      (cAnd (some (decide (a.val < -1))) (outside a b .min .max)))
    (cAnd (some (decide (a.val = -1))) (some (decide (b.val = INT_MIN))))

/-- What a call prints and returns. -/
structure Result where
  /-- `signed integer multiplication overflow detected!` -/
  warned : Bool
  ret : CInt
  deriving DecidableEq

/-- `prodint(a, b)` -/
def prodint (a b : CInt) : Option Result :=
  (overflows a b).bind fun warned =>
    if warned then some { warned := true, ret := ⟨-1, by decide⟩ }
    else (a.mul b).map fun ret => { warned := false, ret := ret }

variable {a b : CInt}

/-- Divided by a positive `a`, the quotients bound `b` from both sides. -/
theorem outside_of_pos (ha : 0 < a.val) :
    outside a b .max .min = some (decide ¬ FitsInt (a.val * b.val)) := by
  have hne : a.val ≠ 0 := by omega
  have hne' : a.val ≠ -1 := by omega
  have hmax : INT_MAX.tdiv a.val < b.val ↔ INT_MAX < a.val * b.val := tdiv_lt_iff (by decide) ha
  have hmin : b.val < INT_MIN.tdiv a.val ↔ a.val * b.val < INT_MIN := lt_tdiv_iff (by decide) ha
  rw [outside, CInt.div_eq hne hne', CInt.div_eq hne hne', Option.map_some, Option.map_some,
    cOr_some, ← Bool.decide_or, Option.some.injEq, decide_eq_decide]
  show INT_MAX.tdiv a.val < b.val ∨ b.val < INT_MIN.tdiv a.val ↔ _
  rw [hmax, hmin, FitsInt]
  omega

/-- Divided by a negative one they change places. -/
theorem outside_of_neg (ha : a.val < -1) :
    outside a b .min .max = some (decide ¬ FitsInt (a.val * b.val)) := by
  have hne : a.val ≠ 0 := by omega
  have hne' : a.val ≠ -1 := by omega
  have hmin : INT_MIN.tdiv a.val < b.val ↔ a.val * b.val < INT_MIN :=
    tdiv_lt_iff_of_neg (by decide) (by omega)
  have hmax : b.val < INT_MAX.tdiv a.val ↔ INT_MAX < a.val * b.val :=
    lt_tdiv_iff_of_neg (by decide) (by omega)
  rw [outside, CInt.div_eq hne hne', CInt.div_eq hne hne', Option.map_some, Option.map_some,
    cOr_some, ← Bool.decide_or, Option.some.injEq, decide_eq_decide]
  show INT_MIN.tdiv a.val < b.val ∨ b.val < INT_MAX.tdiv a.val ↔ _
  rw [hmin, hmax, FitsInt]
  omega

/-- The test is defined, and says whether the product fits. -/
theorem overflows_eq (a b : CInt) : overflows a b = some (decide ¬ FitsInt (a.val * b.val)) := by
  have hb := b.fits
  rcases lt_trichotomy a.val 0 with hneg | hzero | hpos
  · by_cases hone : a.val = -1
    · -- neither quotient is evaluated
      have hfits : ¬ FitsInt (a.val * b.val) ↔ b.val = INT_MIN := by
        unfold FitsInt INT_MIN INT_MAX at *
        rw [hone]
        omega
      simp [overflows, hone, ← hfits]
    · have hlt : a.val < -1 := by omega
      have hle : ¬ a.val > 0 := by omega
      simp [overflows, outside_of_neg hlt, hlt, hle, hone]
  · have hfits : FitsInt (a.val * b.val) := by
      rw [hzero, zero_mul]
      decide
    simp [overflows, hzero]
    rw [hzero, zero_mul] at hfits
    exact hfits
  · have hle : ¬ a.val < -1 := by omega
    have hone : a.val ≠ -1 := by omega
    simp [overflows, outside_of_pos hpos, hpos, hle, hone]

/-- The call returns, and warns or multiplies. -/
structure Exact (a b : CInt) (r : Result) : Prop where
  warned : r.warned = true ↔ ¬ FitsInt (a.val * b.val)
  failed : r.warned = true → r.ret.val = -1
  product : r.warned = false → r.ret.val = a.val * b.val

/-- **`prodint` multiplies, or says that it cannot, and evaluates nothing undefined.** -/
theorem prodint_exact (a b : CInt) : ∃ r, prodint a b = some r ∧ Exact a b r := by
  rw [prodint, overflows_eq, Option.bind_some]
  by_cases hfits : FitsInt (a.val * b.val)
  · have hmul : a.mul b = some ⟨a.val * b.val, hfits⟩ := CInt.ofInt_of_fits hfits
    refine ⟨{ warned := false, ret := ⟨_, hfits⟩ }, ?_, ?_, nofun, fun _ => rfl⟩
    · simp [hmul, hfits]
    · simp [hfits]
  · refine ⟨{ warned := true, ret := ⟨-1, by decide⟩ }, ?_, ?_, fun _ => rfl, nofun⟩
    · simp [hfits]
    · simp [hfits]

end Lkp.Libtest
