/-
The program that generates primes to keep a CPU busy.

`simple_primegen` tries as divisors of every number up to `limit` all those below
`limit / 2`, whatever the number.  A composite up to `limit` has a divisor there as soon
as `limit` is 6 (`noDivisor_iff`); for 4 and 5, which `main` accepts, there is nothing to
try, and 4 is printed as a prime.

`main` caps the limit.  Without the cap the loop would step past the largest `int` there
is, which C leaves undefined.
-/
import Lkp.CLang.Int
import Lkp.CLang.Loop
import Mathlib.Data.Nat.Prime.Basic

namespace Lkp.Cgroups

/-- What is printed: a number, or a new line. -/
inductive Printed
  | number (n : Nat)
  | newline
  deriving DecidableEq

/-- `WRAP` -/
def wrap : Nat := 16

/-- `num`, how many numbers are printed, and what was printed. -/
structure Gen where
  num : Nat
  out : List Printed

/-- One pass of the inner loop: `isprime` is 0 where it breaks off. -/
def tryDivisor (i j : Nat) (isprime : Bool) : Option (Pass Bool) :=
  if i ≠ j ∧ i % j = 0 then some (.stop false) else some (.next isprime)

/-- `isprime` after `for (j = 2; j < limit / 2; j++)`. -/
def isPrime (limit i : Nat) : Option Bool :=
  (forUp (tryDivisor i) (limit / 2 - 2) 2 true).map Pass.state

/-- Print a prime, and wrap after `WRAP` of them. -/
def Gen.print (s : Gen) (i : Nat) : Gen where
  num := s.num + 1
  out := s.out ++ .number i :: if (s.num + 1) % wrap = 0 then [.newline] else []

/-- One pass of the outer loop, and the `i++` after it. -/
def consider (limit i : Nat) (s : Gen) : Option (Pass Gen) :=
  (isPrime limit i).bind fun isprime =>
    if i < INT_MAX then some (.next (if isprime then s.print i else s)) else none

/-- `simple_primegen(limit)`, with `for (i = 4; i <= limit; i++)`. -/
def simplePrimegen (limit : CInt) : Option (List Printed) :=
  (forUp (consider limit.val.toNat) (limit.val.toNat - 3) 4
    { num := 2, out := [.number 2, .number 3] }).map fun p => p.state.out ++ [.newline]

/-- `MAX` -/
def MAX : ℤ := 10000000

/-- The check of `main` on its first argument. -/
def accepts (limit : CInt) : Bool := ¬ (limit.val < 4 ∨ limit.val > MAX)

/-- The numbers among what is printed. -/
def numbers (out : List Printed) : List Nat :=
  out.filterMap fun
    | .number n => some n
    | .newline => none

/-- The primes up to the limit, in increasing order, are what is printed. -/
def PrintsPrimes (limit : CInt) : Prop :=
  ∃ out, simplePrimegen limit = some out ∧
    numbers out = (List.range (limit.val.toNat + 1)).filter Nat.Prime

/-! ### The inner loop -/

section Divisors

variable {limit i : Nat}

/-- What the inner loop looks for. -/
def HasDivisor (limit i : Nat) : Prop := ∃ d, 2 ≤ d ∧ d < limit / 2 ∧ i ≠ d ∧ d ∣ i

/-- The flag after the divisors below `j`. -/
structure Tried (limit i j : Nat) (isprime : Bool) : Prop where
  flag : isprime = true
  none : ∀ d, 2 ≤ d → d < j → i ≠ d → ¬ d ∣ i

theorem tryDivisor_ends {j : Nat} {b : Bool} (hj : 2 ≤ j) (hlt : j < limit / 2)
    (h : Tried limit i j b) :
    Ends (Tried limit i (j + 1)) (fun b => b = false ∧ HasDivisor limit i) (tryDivisor i j b) := by
  unfold tryDivisor
  split
  · rename_i hdiv
    exact .stop ⟨rfl, j, hj, hlt, hdiv.1, Nat.dvd_of_mod_eq_zero hdiv.2⟩
  · rename_i hnot
    refine .next ⟨h.flag, fun d hd hdj hne hdvd => ?_⟩
    rcases Nat.lt_or_ge d j with hlt | hge
    · exact h.none d hd hlt hne hdvd
    · obtain rfl : d = j := by omega
      exact hnot ⟨hne, Nat.mod_eq_zero_of_dvd hdvd⟩

/-- The flag says that there is no divisor to be found. -/
theorem isPrime_eq (limit i : Nat) :
    ∃ b, isPrime limit i = some b ∧ (b = true ↔ ¬ HasDivisor limit i) := by
  have hstart : Tried limit i 2 true := ⟨rfl, fun d hd hlt => absurd hlt (by omega)⟩
  have hends := forUp_ends (n := limit / 2 - 2)
    (fun j b hj hlt hb => tryDivisor_ends hj (by omega) hb) hstart
  rw [isPrime]
  generalize forUp .. = x at hends
  cases hends with
  | @next b h =>
      refine ⟨b, rfl, iff_of_true h.flag fun hdiv => ?_⟩
      obtain ⟨d, hd, hlt, hne, hdvd⟩ := hdiv
      exact h.none d hd (by omega) hne hdvd
  | @stop b h =>
      refine ⟨b, rfl, iff_of_false ?_ (not_not.mpr h.2)⟩
      rw [h.1]
      exact Bool.false_ne_true

/-- **Divisors below `limit / 2` are enough** from 6 on. -/
theorem noDivisor_iff (hlimit : 6 ≤ limit) (hi : 4 ≤ i) (hle : i ≤ limit) :
    ¬ HasDivisor limit i ↔ i.Prime := by
  constructor
  · intro hnone
    by_contra hcomp
    have hprime : i.minFac.Prime := Nat.minFac_prime (by omega)
    have hne : i ≠ i.minFac := fun heq => hcomp (heq ▸ hprime)
    have hsq : i.minFac ^ 2 ≤ i := Nat.minFac_sq_le_self (by omega) hcomp
    have htwo := hprime.two_le
    refine hnone ⟨i.minFac, htwo, ?_, hne, Nat.minFac_dvd i⟩
    rw [Nat.lt_div_iff_mul_lt (by decide)]
    rcases Nat.lt_or_ge i.minFac 3 with hlt | hge
    · omega
    · have hthree : 3 * i.minFac ≤ i.minFac ^ 2 := by
        rw [pow_two]
        exact Nat.mul_le_mul_right _ hge
      omega
  · intro hprime hdiv
    obtain ⟨d, hd, -, hne, hdvd⟩ := hdiv
    rcases hprime.eq_one_or_self_of_dvd d hdvd with rfl | rfl
    · omega
    · exact hne rfl

end Divisors

/-! ### The outer loop -/

section Generating

variable {n i : Nat} {limit : CInt}

/-- Before pass `i` the primes below `i` are printed. -/
def Generated (i : Nat) (s : Gen) : Prop := numbers s.out = (List.range i).filter Nat.Prime

theorem numbers_print (s : Gen) (i : Nat) : numbers (s.print i).out = numbers s.out ++ [i] := by
  unfold Gen.print numbers
  rw [List.filterMap_append]
  congr 1
  split <;> rfl

theorem consider_ends {s : Gen} (hn : 6 ≤ n) (hi : 4 ≤ i) (hle : i ≤ n) (hlt : (i : ℤ) < INT_MAX)
    (h : Generated i s) : Ends (Generated (i + 1)) (fun _ => False) (consider n i s) := by
  obtain ⟨b, hb, hflag⟩ := isPrime_eq n i
  rw [noDivisor_iff hn hi hle] at hflag
  rw [consider, hb, Option.bind_some, if_pos hlt]
  refine .next ?_
  unfold Generated at *
  rw [List.range_succ, List.filter_append, ← h]
  cases b with
  | true =>
      rw [List.filter_singleton, decide_eq_true (hflag.mp rfl)]
      exact numbers_print s i
  | false =>
      have hcomp : ¬ i.Prime := fun hprime => Bool.false_ne_true (hflag.mpr hprime)
      rw [List.filter_singleton, decide_eq_false hcomp]
      exact (List.append_nil _).symm

/-- With the largest `int` as limit the loop steps past it. -/
theorem simplePrimegen_max (h : limit.val = INT_MAX) : simplePrimegen limit = none := by
  have hn : limit.val.toNat - 3 = (limit.val.toNat - 4) + 1 := by
    rw [h]
    decide
  have hstep : ∀ (j : Nat) (s : Gen), 4 ≤ j → j < 4 + (limit.val.toNat - 4) → True →
      Ends (fun _ => True) (fun _ => False) (consider limit.val.toNat j s) := by
    intro j s _ hj _
    obtain ⟨b, hb, -⟩ := isPrime_eq limit.val.toNat j
    rw [consider, hb, Option.bind_some, if_pos (by omega)]
    exact .next trivial
  obtain ⟨s, hs, -⟩ := (forUp_ends hstep trivial).exists_next
  have hlast : ∀ s, consider limit.val.toNat (4 + (limit.val.toNat - 4)) s = none := by
    intro s
    obtain ⟨b, hb, -⟩ := isPrime_eq limit.val.toNat (4 + (limit.val.toNat - 4))
    rw [consider, hb, Option.bind_some, if_neg]
    rw [h]
    decide
  rw [simplePrimegen, hn, forUp_succ_right, hs, Option.bind_some]
  show (consider _ _ s).map _ = none
  rw [hlast]
  rfl

/-- For 4 and 5 nothing is tried, and 4 is printed. -/
theorem not_printsPrimes_of_lt (h : 4 ≤ limit.val) (hlt : limit.val < 6) :
    ¬ PrintsPrimes limit := by
  intro hprints
  obtain ⟨out, hout, hnumbers⟩ := hprints
  have hfour : 4 ∈ numbers out := by
    have hcases : limit = ⟨4, by decide⟩ ∨ limit = ⟨5, by decide⟩ := by
      rw [CInt.ext_iff, CInt.ext_iff]
      show limit.val = 4 ∨ limit.val = 5
      omega
    rcases hcases with rfl | rfl
    · obtain rfl : [.number 2, .number 3, .number 4, .newline] = out :=
        Option.some.inj (Eq.trans (by decide +kernel) hout)
      decide
    · obtain rfl : [.number 2, .number 3, .number 4, .number 5, .newline] = out :=
        Option.some.inj (Eq.trans (by decide +kernel) hout)
      decide
  rw [hnumbers, List.mem_filter] at hfour
  exact absurd (of_decide_eq_true hfour.2) (by norm_num)

/-- **The primes are printed** for every limit from 6 on that the loop does not step past. -/
theorem printsPrimes_iff (h : 4 ≤ limit.val) :
    PrintsPrimes limit ↔ 6 ≤ limit.val ∧ limit.val < INT_MAX := by
  constructor
  · intro hprints
    refine ⟨?_, ?_⟩
    · by_contra hlt
      exact not_printsPrimes_of_lt h (by omega) hprints
    · by_contra hge
      obtain ⟨out, hout, -⟩ := hprints
      have hmax := limit.fits.2
      rw [simplePrimegen_max (by omega)] at hout
      cases hout
  · intro hlimit
    obtain ⟨hsix, hmax⟩ := hlimit
    have hstart : Generated 4 { num := 2, out := [.number 2, .number 3] } := by
      show [2, 3] = (List.range 4).filter Nat.Prime
      norm_num [List.range_succ]
    have hends := forUp_ends (n := limit.val.toNat - 3)
      (fun i s hi hlt hs => consider_ends (n := limit.val.toNat) (by omega) hi (by omega) (by omega)
        hs) hstart
    obtain ⟨s, hs, hout⟩ := hends.exists_next
    rw [show 4 + (limit.val.toNat - 3) = limit.val.toNat + 1 by omega] at hout
    refine ⟨s.out ++ [.newline], ?_, ?_⟩
    · rw [simplePrimegen, hs]
      rfl
    · rw [← hout, numbers, List.filterMap_append]
      exact List.append_nil _

end Generating

/-- The primes up to 6. -/
theorem printsPrimes_six : PrintsPrimes ⟨6, by decide⟩ :=
  (printsPrimes_iff (by decide)).mpr (by decide)

/-- `main` accepts 4, and 4 is printed. -/
theorem not_printsPrimes :
    accepts ⟨4, by decide⟩ = true ∧ ¬ ∀ limit : CInt, 4 ≤ limit.val → PrintsPrimes limit :=
  have hfour : ¬ PrintsPrimes ⟨4, by decide⟩ := not_printsPrimes_of_lt (by decide) (by decide)
  ⟨by decide, fun h => hfour (h _ (by decide))⟩

end Lkp.Cgroups
