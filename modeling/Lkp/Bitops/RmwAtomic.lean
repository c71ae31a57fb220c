/-
Two ways to set a bit of a variable: the atomic bit operation, and a read, an update and
a write back under a spinlock.

The second one reads the variable, an `unsigned long`, into a `u8`, and writes that back.
So it sets the bit and clears all the bits above it.  The two agree exactly for the
values that a `u8` holds (`agree_iff`).
-/
import Mathlib.Tactic

namespace Lkp.Bitops

/-- `MSB`: `BITS_PER_BYTE - 1`. -/
def MSB : Nat := 7

/-- `set_bit(nr, &mem)` -/
def setBit (nr : Nat) (mem : BitVec 64) : BitVec 64 := mem ||| BitVec.twoPow 64 nr

/-- The value of `mem` after `setmsb_optimal`. -/
def setmsbOptimal (mem : BitVec 64) : BitVec 64 := setBit MSB mem

/-- The value of `mem` after `setmsb_suboptimal`, whose section the spinlock makes one step. -/
def setmsbSuboptimal (mem : BitVec 64) : BitVec 64 :=
  -- `u8 tmp = mem`
  let tmp := mem.setWidth 8
  let tmp := tmp ||| 0x80
  tmp.setWidth 64

/-- The two functions. -/
inductive Setmsb
  | optimal
  | suboptimal
  deriving DecidableEq

/-- What a call does to `mem`. -/
def Setmsb.run : Setmsb → BitVec 64 → BitVec 64
  | .optimal => setmsbOptimal
  | .suboptimal => setmsbSuboptimal

/-- Calls of them, one after another. -/
def runAll (calls : List Setmsb) (mem : BitVec 64) : BitVec 64 :=
  calls.foldl (fun mem call => call.run mem) mem

/-- The two ways agree on a value of `mem`, also when they are mixed. -/
structure Agree (mem : BitVec 64) : Prop where
  same : setmsbSuboptimal mem = setmsbOptimal mem
  /-- Bit 7 is set and every other bit is unchanged. -/
  bits : ∀ i, i < 64 → (setmsbSuboptimal mem).getLsbD i = (mem.getLsbD i || decide (i = 7))
  commute : setmsbSuboptimal (setmsbOptimal mem) = setmsbOptimal (setmsbSuboptimal mem)
  idempotent : ∀ call : Setmsb, call.run (call.run mem) = call.run mem
  /-- Any sequence of calls comes to one call. -/
  sequence : ∀ calls, calls ≠ [] → runAll calls mem = setmsbOptimal mem

/-! ### Bit by bit -/

section Bits

variable {mem : BitVec 64} {i : Nat}

theorem getLsbD_setmsbOptimal :
    (setmsbOptimal mem).getLsbD i = (mem.getLsbD i || decide (i = 7)) := by
  rw [setmsbOptimal, setBit, BitVec.getLsbD_or, BitVec.getLsbD_twoPow, MSB]
  congr 1
  simp [eq_comm]

/-- Of the bits above the seventh nothing is left. -/
theorem getLsbD_setmsbSuboptimal (hi : i < 64) :
    (setmsbSuboptimal mem).getLsbD i = (decide (i < 8) && (mem.getLsbD i || decide (i = 7))) := by
  have hmask : (0x80 : BitVec 8) = BitVec.twoPow 8 7 := rfl
  rw [setmsbSuboptimal, BitVec.getLsbD_setWidth, BitVec.getLsbD_or, BitVec.getLsbD_setWidth, hmask,
    BitVec.getLsbD_twoPow]
  by_cases hlow : i < 8
  · simp [hi, hlow, eq_comm]
  · have hne : i ≠ 7 := by omega
    simp [hlow, hne.symm]

/-- A call before a plain one makes no difference to what that leaves. -/
theorem setmsbSuboptimal_run (call : Setmsb) :
    setmsbSuboptimal (call.run mem) = setmsbSuboptimal mem := by
  refine BitVec.eq_of_getLsbD_eq fun i hi => ?_
  cases call with
  | optimal =>
      show (setmsbSuboptimal (setmsbOptimal mem)).getLsbD i = _
      rw [getLsbD_setmsbSuboptimal hi, getLsbD_setmsbSuboptimal hi, getLsbD_setmsbOptimal,
        Bool.or_assoc, Bool.or_self]
  | suboptimal =>
      show (setmsbSuboptimal (setmsbSuboptimal mem)).getLsbD i = _
      rw [getLsbD_setmsbSuboptimal hi, getLsbD_setmsbSuboptimal hi]
      cases decide (i < 8) <;> cases mem.getLsbD i <;> cases decide (i = 7) <;> rfl

theorem setmsbOptimal_run (call : Setmsb) : setmsbOptimal (call.run mem) = call.run mem := by
  refine BitVec.eq_of_getLsbD_eq fun i hi => ?_
  cases call with
  | optimal =>
      show (setmsbOptimal (setmsbOptimal mem)).getLsbD i = (setmsbOptimal mem).getLsbD i
      rw [getLsbD_setmsbOptimal, getLsbD_setmsbOptimal, Bool.or_assoc, Bool.or_self]
  | suboptimal =>
      show (setmsbOptimal (setmsbSuboptimal mem)).getLsbD i = (setmsbSuboptimal mem).getLsbD i
      rw [getLsbD_setmsbOptimal, getLsbD_setmsbSuboptimal hi]
      by_cases hseven : i = 7
      · simp [hseven]
      · simp [hseven]

end Bits

/-! ### Where they agree -/

variable {mem : BitVec 64}

/-- Once bit 7 is set, calls that agree change nothing. -/
theorem runAll_eq (hsame : setmsbSuboptimal mem = setmsbOptimal mem) (calls : List Setmsb) :
    runAll calls (setmsbOptimal mem) = setmsbOptimal mem := by
  induction calls with
  | nil => rfl
  | cons call calls ih =>
      have hcall : call.run (setmsbOptimal mem) = setmsbOptimal mem := by
        cases call with
        | optimal => exact setmsbOptimal_run .optimal
        | suboptimal => exact (setmsbSuboptimal_run .optimal).trans hsame
      show runAll calls (call.run (setmsbOptimal mem)) = _
      rw [hcall]
      exact ih

/-- **The two functions agree exactly on what a `u8` holds.** -/
theorem agree_iff : Agree mem ↔ mem.toNat < 2 ^ 8 := by
  constructor
  · intro h
    refine Nat.lt_pow_two_of_testBit _ fun i hi => ?_
    show mem.getLsbD i = false
    rcases Nat.lt_or_ge i 64 with hlt | hge
    · have hne : i ≠ 7 := by omega
      have hbit := h.bits i hlt
      rw [getLsbD_setmsbSuboptimal hlt, decide_eq_false (by omega), decide_eq_false hne,
        Bool.or_false, Bool.false_and] at hbit
      exact hbit.symm
    · exact BitVec.getLsbD_of_ge _ _ hge
  · intro hbyte
    have hhigh : ∀ i, 8 ≤ i → mem.getLsbD i = false := fun i hi =>
      Nat.testBit_lt_two_pow (Nat.lt_of_lt_of_le hbyte (Nat.pow_le_pow_right (by decide) hi))
    have hbits : ∀ i, i < 64 →
        (setmsbSuboptimal mem).getLsbD i = (mem.getLsbD i || decide (i = 7)) := by
      intro i hi
      rw [getLsbD_setmsbSuboptimal hi]
      rcases Nat.lt_or_ge i 8 with hlow | hge
      · rw [decide_eq_true hlow, Bool.true_and]
      · have hne : i ≠ 7 := by omega
        rw [decide_eq_false (by omega), Bool.false_and, hhigh i hge, decide_eq_false hne]
        rfl
    have hsame : setmsbSuboptimal mem = setmsbOptimal mem :=
      BitVec.eq_of_getLsbD_eq fun i hi => (hbits i hi).trans getLsbD_setmsbOptimal.symm
    refine ⟨hsame, hbits, ?_, fun call => ?_, fun calls hne => ?_⟩
    · exact (setmsbSuboptimal_run .optimal).trans (setmsbOptimal_run .suboptimal).symm
    · cases call with
      | optimal => exact setmsbOptimal_run .optimal
      | suboptimal => exact setmsbSuboptimal_run .suboptimal
    · cases calls with
      | nil => exact absurd rfl hne
      | cons call calls =>
          have hfirst : call.run mem = setmsbOptimal mem := by
            cases call with
            | optimal => rfl
            | suboptimal => exact hsame
          show runAll calls (call.run mem) = _
          rw [hfirst]
          exact runAll_eq hsame calls

/-- `mem` is 256: the plain path leaves 128. -/
theorem not_agree : ¬ ∀ mem, Agree mem := by
  intro h
  have hsame := (h 256).same
  revert hsame
  decide

end Lkp.Bitops
