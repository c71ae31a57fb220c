/-
How the script that explores cgroups prints a size of memory.

The loop looks for the first unit whose threshold times 1024 is above the size.  Shell
arithmetic is that of signed 64-bit integers, where 1024 times the last threshold is 0.  So
from that threshold on, no unit is found, and the size is printed without one
(`fits_iff`).
-/
import Lkp.CLang.Format
import Lkp.CLang.Loop

namespace Lkp.Cgroups.HumanSize

/-! ### Decimals, as `bc` prints them -/

/-- `echo "scale=2; n / t" | bc`, where the quotient comes to `h` hundredths. -/
def bcHundredths (h : Nat) : Buf :=
  if h = 0 then ascii ['0']
  -- no 0 before the point
  else (if h < 100 then [] else decimal (h / 100)) ++
    ascii ['.', Nat.digitChar (h / 10 % 10), Nat.digitChar (h % 10)]

/-- The value of a digit. -/
def digitValue (c : UInt8) : Nat := c.toNat - 48

/-- What follows the digits before the point, in hundredths. -/
def readFraction : Buf → Option Nat
  | [] => some 0
  | [46, a, b] => some (10 * digitValue a + digitValue b)
  | _ => none

/-- A decimal, in hundredths. -/
def readHundredths (t : Buf) : Option Nat :=
  match readDecimal t with
  | some (n, u) => (readFraction u).map fun f => 100 * n + f
  | none => if t = [] then none else readFraction t

section Decimals

variable {h d : Nat}

theorem digitValue_digitChar (hd : d < 10) :
    digitValue (UInt8.ofNat (Nat.digitChar d).toNat) = d := by
  interval_cases d <;> decide

/-- The two digits after the point. -/
theorem readFraction_digits : readFraction
    (ascii ['.', Nat.digitChar (h / 10 % 10), Nat.digitChar (h % 10)]) = some (h % 100) := by
  show some (10 * digitValue (UInt8.ofNat (Nat.digitChar (h / 10 % 10)).toNat) +
    digitValue (UInt8.ofNat (Nat.digitChar (h % 10)).toNat)) = some (h % 100)
  rw [digitValue_digitChar (Nat.mod_lt _ (by decide)),
    digitValue_digitChar (Nat.mod_lt _ (by decide))]
  congr 1
  omega

/-- **What `bc` printed is read back.** -/
theorem readHundredths_bcHundredths : readHundredths (bcHundredths h) = some h := by
  have hpoint : (charOf 46).isDigit = false := by decide
  by_cases hzero : h = 0
  · rw [hzero]
    decide
  · rw [bcHundredths, if_neg hzero]
    by_cases hsmall : h < 100
    · rw [if_pos hsmall, List.nil_append]
      have hnone : readDecimal
          (ascii ['.', Nat.digitChar (h / 10 % 10), Nat.digitChar (h % 10)]) = none := by
        unfold readDecimal
        rw [show ascii ['.', Nat.digitChar (h / 10 % 10), Nat.digitChar (h % 10)] =
          46 :: ascii [Nat.digitChar (h / 10 % 10), Nat.digitChar (h % 10)] from rfl,
          List.takeWhile_cons, hpoint]
        rfl
      rw [readHundredths, hnone]
      show (if _ then none else readFraction _) = some h
      rw [if_neg (by exact List.cons_ne_nil _ _), readFraction_digits, Nat.mod_eq_of_lt hsmall]
    · rw [if_neg hsmall, readHundredths, readDecimal_decimal (fun c hc => ?_)]
      · show (readFraction _).map _ = some h
        rw [readFraction_digits, Option.map_some]
        congr 1
        omega
      · obtain rfl : 46 = c := Option.some.inj hc
        exact hpoint

end Decimals

/-! ### The function -/

/-- `units` -/
def units : List Buf :=
  [ascii ['B'], ascii ['K', 'B'], ascii ['M', 'B'], ascii ['G', 'B'], ascii ['T', 'B'],
    ascii ['P', 'B'], ascii ['E', 'B']]

/-- `thresholds` -/
def thresholds : List Nat :=
  [1, 1024, 1048576, 1073741824, 1099511627776, 1125899906842624, 1152921504606846976]

/-- `unit` and `threshold`, as the loop leaves them. -/
structure Choice where
  unit : Buf
  threshold : Nat

/-- One pass of the loop: `((size_in_bytes < threshold * 1024))`. -/
def tryUnit (size : BitVec 64) (i : Nat) (s : Choice) : Option (Pass Choice) :=
  let threshold := thresholds.getD i 0
  if size.slt (BitVec.ofNat 64 threshold * 1024) then
    some (.stop { unit := units.getD i [], threshold := threshold })
  else some (.next { s with threshold := threshold })

/-- What is printed: `"$converted_size $unit"`. -/
structure Printed where
  converted : Buf
  unit : Buf
  deriving DecidableEq

/-- `memory_size_to_human_readable`, of a number that is given in decimal. -/
def memorySizeToHumanReadable (n : Nat) : Option Printed :=
  (forUp (tryUnit (BitVec.ofNat 64 n)) thresholds.length 0 { unit := [], threshold := 0 }).map
    fun p => { converted := bcHundredths (n * 100 / p.state.threshold), unit := p.state.unit }

/-- A unit of the list is printed, which fits the size, and the size in that unit. -/
def Fits (n : Nat) : Prop :=
  ∃ (i : Nat) (u : Buf) (t : Nat) (printed : Printed), units[i]? = some u ∧
    thresholds[i]? = some t ∧ memorySizeToHumanReadable n = some printed ∧ printed.unit = u ∧
    readHundredths printed.converted = some (n * 100 / t) ∧
    ((n < 1024 ∧ u = ascii ['B']) ∨ (t ≤ n ∧ n < 1024 * t))

section Units

variable {n i : Nat} {s : Choice}

theorem thresholds_eq (hi : i < 7) : thresholds[i]? = some (1024 ^ i) := by
  interval_cases i <;> rfl

theorem getD_thresholds (hi : i < 7) : thresholds.getD i 0 = 1024 ^ i := by
  rw [List.getD_eq_getElem?_getD, thresholds_eq hi, Option.getD_some]

/-- A number that fits is what it is as a signed one. -/
theorem toInt_ofNat_of_lt (hn : n < 2 ^ 63) : (BitVec.ofNat 64 n).toInt = n := by
  have hmod : n % 2 ^ 64 = n := Nat.mod_eq_of_lt (by omega)
  rw [BitVec.toInt_eq_toNat_cond, BitVec.toNat_ofNat, hmod, if_pos (by omega)]

/-- All products but the last are what they should be. -/
theorem slt_product (hn : n < 2 ^ 63) (hi : i < 6) :
    (BitVec.ofNat 64 n).slt (BitVec.ofNat 64 (1024 ^ i) * 1024) =
      decide (n < 1024 * 1024 ^ i) := by
  have hle : 1024 ^ i ≤ 1024 ^ 5 := Nat.pow_le_pow_right (by decide) (by omega)
  have hproduct : (BitVec.ofNat 64 (1024 ^ i) * 1024).toInt = ((1024 * 1024 ^ i : Nat) : Int) := by
    rw [show (1024 : BitVec 64) = BitVec.ofNat 64 1024 from rfl, ← BitVec.ofNat_mul, mul_comm]
    exact toInt_ofNat_of_lt (by omega)
  rw [BitVec.slt, toInt_ofNat_of_lt hn, hproduct]
  exact decide_eq_decide.mpr Int.ofNat_lt

/-- The last one is 0, and no size is below it. -/
theorem slt_last (hn : n < 2 ^ 63) :
    (BitVec.ofNat 64 n).slt (BitVec.ofNat 64 (1024 ^ 6) * 1024) = false := by
  have hproduct : (BitVec.ofNat 64 (1024 ^ 6) * 1024).toInt = 0 := by decide
  rw [BitVec.slt, toInt_ofNat_of_lt hn, hproduct]
  exact decide_eq_false (by omega)

/-- Below the last threshold the loop stops at the unit that fits. -/
theorem tryUnit_ends (hn : n < 2 ^ 60) (hi : i < 7) (hs : i = 0 ∨ 1024 ^ i ≤ n) :
    Ends (fun _ => i + 1 = 0 ∨ 1024 ^ (i + 1) ≤ n)
      (fun t => ∃ j, j < 7 ∧ t.unit = units.getD j [] ∧ t.threshold = 1024 ^ j ∧
        (j = 0 ∨ 1024 ^ j ≤ n) ∧ n < 1024 * 1024 ^ j)
      (tryUnit (BitVec.ofNat 64 n) i s) := by
  have hsix : i < 6 := by
    by_contra hlast
    obtain rfl : i = 6 := by omega
    rcases hs with hzero | hle
    · omega
    · norm_num at hle hn
      omega
  rw [tryUnit, getD_thresholds hi]
  simp only [slt_product (show n < 2 ^ 63 by omega) hsix, decide_eq_true_eq]
  split
  · rename_i hlt
    exact .stop ⟨i, hi, rfl, rfl, hs, hlt⟩
  · rename_i hge
    refine .next (.inr ?_)
    rw [pow_succ, mul_comm]
    omega

/-- From the last threshold on it goes through without finding one. -/
theorem tryUnit_next (hlarge : 2 ^ 60 ≤ n) (hn : n < 2 ^ 63) (hi : i < 7) (hs : s.unit = []) :
    Ends (fun t : Choice => t.unit = []) (fun _ => False)
      (tryUnit (BitVec.ofNat 64 n) i s) := by
  have hnot : (BitVec.ofNat 64 n).slt (BitVec.ofNat 64 (1024 ^ i) * 1024) = false := by
    by_cases hsix : i < 6
    · rw [slt_product hn hsix]
      have hle : 1024 ^ i ≤ 1024 ^ 5 := Nat.pow_le_pow_right (by decide) (by omega)
      exact decide_eq_false (by omega)
    · obtain rfl : i = 6 := by omega
      exact slt_last hn
  rw [tryUnit, getD_thresholds hi]
  simp only [hnot]
  exact .next hs

/-- Then nothing that is printed has a unit. -/
theorem unit_eq_nil {printed : Printed} (hlarge : 2 ^ 60 ≤ n) (hn : n < 2 ^ 63)
    (hrun : memorySizeToHumanReadable n = some printed) : printed.unit = [] := by
  have hends := forUp_ends (P := fun _ (s : Choice) => s.unit = []) (k := 0)
    (n := thresholds.length) (s := ({ unit := [], threshold := 0 } : Choice))
    (fun i s _ hi hs => tryUnit_next hlarge hn (by simpa [thresholds] using hi) hs) rfl
  obtain ⟨s, hs, hnil⟩ := hends.exists_next
  rw [memorySizeToHumanReadable, hs, Option.map_some] at hrun
  obtain rfl := Option.some.inj hrun
  exact hnil

/-- No unit of the list is empty. -/
theorem nil_notMem_units : [] ∉ units := by decide

/-- Below the last threshold the size is printed in the unit that fits. -/
theorem fits_of_lt (hsmall : n < 2 ^ 60) : Fits n := by
  have hstep : ∀ (i : Nat) (s : Choice), 0 ≤ i → i < 0 + thresholds.length →
      (i = 0 ∨ 1024 ^ i ≤ n) → Ends _ _ (tryUnit (BitVec.ofNat 64 n) i s) :=
    fun i s _ hi hs => tryUnit_ends hsmall (by simpa [thresholds] using hi) hs
  have hends := forUp_ends (s := ({ unit := [], threshold := 0 } : Choice)) hstep (.inl rfl)
  rw [Fits, memorySizeToHumanReadable]
  generalize forUp (tryUnit (BitVec.ofNat 64 n)) thresholds.length 0 _ = x at hends
  cases hends with
  | next h =>
      rcases h with hzero | hle
      · cases hzero
      · norm_num [thresholds] at hle hsmall
        omega
  | @stop t h =>
      obtain ⟨j, hj, hunit, hthreshold, hlow, hhigh⟩ := h
      have hget : units[j]? = some (units.getD j []) := by
        interval_cases j <;> rfl
      refine ⟨j, _, 1024 ^ j, _, hget, thresholds_eq hj, rfl, hunit, ?_, ?_⟩
      · show readHundredths (bcHundredths (n * 100 / t.threshold)) = _
        rw [readHundredths_bcHundredths, hthreshold]
      · rcases hlow with rfl | hle
        · exact .inl ⟨by omega, rfl⟩
        · exact .inr ⟨hle, hhigh⟩

/-- **A fitting unit is printed exactly below the last threshold.** -/
theorem fits_iff (hn : n < 2 ^ 63) : Fits n ↔ n < 2 ^ 60 := by
  refine ⟨fun hfits => ?_, fits_of_lt⟩
  by_contra hlarge
  obtain ⟨i, u, t, printed, hu, -, hrun, hunit, -⟩ := hfits
  have hnil := unit_eq_nil (by omega) hn hrun
  rw [hunit] at hnil
  exact nil_notMem_units (hnil ▸ List.mem_of_getElem? hu)

/-- Half a kilobyte less than 2 GB. -/
theorem fits_2147483136 : Fits 2147483136 := (fits_iff (by norm_num)).mpr (by norm_num)

/-- From `2^60` on there is no unit. -/
theorem not_fits : ¬ ∀ n : Nat, n < 2 ^ 63 → Fits n := by
  intro h
  obtain ⟨i, u, t, printed, hu, -, hrun, hunit, -⟩ := h (2 ^ 60) (by norm_num)
  have hprinted : memorySizeToHumanReadable (2 ^ 60) =
      some { converted := ascii ['1', '.', '0', '0'], unit := [] } := by
    decide +kernel
  rw [hprinted] at hrun
  obtain rfl := Option.some.inj hrun
  obtain rfl : [] = u := hunit
  exact nil_notMem_units (List.mem_of_getElem? hu)

end Units

end Lkp.Cgroups.HumanSize
