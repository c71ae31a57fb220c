/-
`powerof` of the common library code: a power by repeated multiplication in `u64`.

The comment above it promises `-1UL` on failure, and it does return that for arguments it
has no power for.  A power that needs more than 64 bits comes back reduced modulo
`2 ^ 64` instead.  No such remainder happens to be `-1UL`, so the promise is kept exactly
for the powers below `2 ^ 64` (`powerOrFailure_iff`).
-/
import Lkp.CLang.Int
import Lkp.CLang.Loop
import Mathlib.NumberTheory.Multiplicity

namespace Lkp.Klib

/-- `-1UL` -/
def failure : BitVec 64 := -1

/-- One pass of `while (exponent--)`. -/
def multiply (base : CInt) (_ : Nat) (res : BitVec 64) : Option (Pass (BitVec 64)) :=
  -- the `int` is converted to `u64`
  some (.next (res * BitVec.ofInt 64 base.val))

/-- `powerof(base, exponent)` -/
def powerof (base exponent : CInt) : Option (BitVec 64) :=
  if base.val = 0 then some 0
  else if base.val ≤ 0 ∨ exponent.val < 0 then some failure
  else if exponent.val = 0 then some 1
  else (forUp (multiply base) exponent.val.toNat 0 1).map Pass.state

/-! ### What a power modulo `2 ^ n` can be -/

/-- No power of a number below `2 ^ n - 1` is one less than a multiple of `2 ^ n`. -/
theorem not_two_pow_dvd_pow_add_one {n b e : Nat} (hn : 2 ≤ n) (hb : b + 1 < 2 ^ n) :
    ¬ 2 ^ n ∣ b ^ e + 1 := by
  intro hdvd
  have hfour : 4 ∣ b ^ e + 1 := (pow_dvd_pow 2 hn).trans hdvd
  rcases Nat.even_or_odd e with heven | hodd
  · -- a square is 0 or 1 modulo 4
    obtain ⟨k, rfl⟩ := heven
    rw [pow_add] at hfour
    have hsq : b ^ k % 4 = 0 ∨ b ^ k % 4 = 1 ∨ b ^ k % 4 = 2 ∨ b ^ k % 4 = 3 := by omega
    have hmod := Nat.mod_eq_zero_of_dvd hfour
    rw [Nat.add_mod, Nat.mul_mod] at hmod
    rcases hsq with h | h | h | h <;> rw [h] at hmod <;> omega
  · have hbodd : ¬ 2 ∣ b := by
      intro htwo
      have hpow : 2 ∣ b ^ e := dvd_pow htwo hodd.pos.ne'
      omega
    -- an odd exponent leaves the powers of 2 in `b + 1` as they are
    have hmult : emultiplicity (2 : ℤ) ((b : ℤ) ^ e - (-1) ^ e) = emultiplicity 2 ((b : ℤ) - -1) :=
      emultiplicity_pow_sub_pow_of_prime Int.prime_two (by omega) (by omega)
        (by exact_mod_cast hodd.not_two_dvd_nat)
    rw [hodd.neg_one_pow, sub_neg_eq_add, sub_neg_eq_add] at hmult
    have hint : (2 : ℤ) ^ n ∣ (b : ℤ) ^ e + 1 := by exact_mod_cast hdvd
    rw [pow_dvd_iff_le_emultiplicity, hmult, ← pow_dvd_iff_le_emultiplicity] at hint
    have hbase : 2 ^ n ∣ b + 1 := by exact_mod_cast hint
    exact absurd (Nat.le_of_dvd (Nat.succ_pos b) hbase) (by omega)

/-! ### The loop -/

variable {base exponent : CInt}

theorem powerof_eq (hbase : 1 ≤ base.val) (hexp : 0 ≤ exponent.val) :
    powerof base exponent = some (BitVec.ofNat 64 (base.val.toNat ^ exponent.val.toNat)) := by
  have hzero : base.val ≠ 0 := by omega
  have hneg : ¬ (base.val ≤ 0 ∨ exponent.val < 0) := by omega
  rw [powerof, if_neg hzero, if_neg hneg]
  split
  · rename_i hzero
    rw [hzero]
    rfl
  · have hbody : ∀ (i : Nat) (s : BitVec 64), 0 ≤ i → i < 0 + exponent.val.toNat →
        s = BitVec.ofNat 64 (base.val.toNat ^ i) →
        Ends (fun t => t = BitVec.ofNat 64 (base.val.toNat ^ (i + 1))) (fun _ => False)
          (multiply base i s) := by
      intro i s _ _ hs
      refine .next ?_
      have hconv : BitVec.ofInt 64 base.val = BitVec.ofNat 64 base.val.toNat := by
        rw [← BitVec.ofInt_natCast, Int.toNat_of_nonneg (by omega)]
      rw [hs, hconv, ← BitVec.ofNat_mul, pow_succ]
    have hone : (1 : BitVec 64) = BitVec.ofNat 64 (base.val.toNat ^ 0) := rfl
    obtain ⟨res, hres, hpow⟩ := (forUp_ends hbody hone).exists_next
    rw [hres, Option.map_some, Pass.state, hpow, Nat.zero_add]

/-- The power where it fits, and the failure value where it does not. -/
structure PowerOrFailure (base exponent : CInt) : Prop where
  power : base.val ^ exponent.val.toNat < 2 ^ 64 →
    ∃ res, powerof base exponent = some res ∧ (res.toNat : ℤ) = base.val ^ exponent.val.toNat
  failure : 2 ^ 64 ≤ base.val ^ exponent.val.toNat → powerof base exponent = some failure

/-- **`powerof` keeps its promise exactly where the power fits.** -/
theorem powerOrFailure_iff (hbase : 1 ≤ base.val) (hexp : 0 ≤ exponent.val) :
    PowerOrFailure base exponent ↔ base.val ^ exponent.val.toNat < 2 ^ 64 := by
  have hcast : ((base.val.toNat ^ exponent.val.toNat : Nat) : ℤ) =
      base.val ^ exponent.val.toNat := by
    rw [Nat.cast_pow, Int.toNat_of_nonneg (by omega)]
  have hreturn := powerof_eq hbase hexp
  constructor
  · intro h
    by_contra hbig
    have hfail := h.failure (by omega)
    rw [hreturn, Option.some.injEq] at hfail
    have hmod := congrArg BitVec.toNat hfail
    have hall : failure.toNat = 2 ^ 64 - 1 := rfl
    rw [BitVec.toNat_ofNat, hall] at hmod
    have hsmall : base.val.toNat + 1 < 2 ^ 64 := by
      have hmax := base.fits.2
      unfold INT_MAX at hmax
      omega
    refine not_two_pow_dvd_pow_add_one (e := exponent.val.toNat) (by decide) hsmall ?_
    rw [Nat.dvd_iff_mod_eq_zero, Nat.add_mod, hmod]
    rfl
  · intro hfits
    refine ⟨fun _ => ⟨_, hreturn, ?_⟩, fun hbig => absurd hfits (by omega)⟩
    rw [BitVec.toNat_ofNat, Nat.mod_eq_of_lt (by omega), hcast]

/-- `powerof(2, 5)` -/
theorem powerOrFailure_thirtyTwo : PowerOrFailure ⟨2, by decide⟩ ⟨5, by decide⟩ :=
  (powerOrFailure_iff (by decide) (by decide)).mpr (by decide)

/-- `powerof(2, 64)` is 0. -/
theorem not_powerOrFailure :
    ¬ ∀ base exponent : CInt, 1 ≤ base.val → 0 ≤ exponent.val → PowerOrFailure base exponent := by
  intro h
  have hfail := (h ⟨2, by decide⟩ ⟨64, by decide⟩ (by decide) (by decide)).failure (by decide)
  revert hfail
  decide +kernel

end Lkp.Klib
