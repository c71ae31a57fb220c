/-
Sets of small numbers as bits of an array of words.

Number `i` is bit `i % w` of word `i / w`.  A number is put into the set, and asked for,
with a mask of one bit, and every operation does to the set what its name says
(`mem_insert`, `mem_zero`): which word holds a bit is of no concern to anyone else.
-/
import Mathlib.Tactic

namespace Lkp

/-- `n` words of `w` bits. -/
structure BitArray (w n : Nat) where
  words : Vector (BitVec w) n
  deriving DecidableEq

namespace BitArray

variable {w n i j : Nat}

/-- No number is in it. -/
def zero (w n : Nat) : BitArray w n := ⟨Vector.replicate n 0⟩

/-- The word of a number. -/
def wordOf (a : BitArray w n) (i : Nat) : BitVec w := a.words[i / w]?.getD 0

/-- The mask of a number in its word. -/
def mask (w i : Nat) : BitVec w := 1#w <<< (i % w)

/-- Put a number into the set, if it has a word. -/
def insert (a : BitArray w n) (i : Nat) : BitArray w n :=
  ⟨a.words.setIfInBounds (i / w) (a.wordOf i ||| mask w i)⟩

/-- Ask for a number. -/
def test (a : BitArray w n) (i : Nat) : Bool := decide (a.wordOf i &&& mask w i ≠ 0)

/-- The set. -/
def members (a : BitArray w n) : Set Nat := { i | a.test i = true }

theorem getLsbD_mask (hw : 0 < w) : (mask w i).getLsbD j = decide (j = i % w) := by
  have hi : i % w < w := Nat.mod_lt i hw
  rw [mask, ← BitVec.twoPow_eq, BitVec.getLsbD_twoPow, decide_eq_true hi, Bool.true_and]
  exact decide_eq_decide.mpr eq_comm

/-- A mask of one bit picks that bit. -/
theorem and_mask_ne_zero (hw : 0 < w) (x : BitVec w) :
    x &&& mask w i ≠ 0 ↔ x.getLsbD (i % w) = true := by
  constructor
  · intro hne
    by_contra hbit
    refine hne (BitVec.eq_of_getLsbD_eq fun j hj => ?_)
    show (x &&& mask w i).getLsbD j = (0#w).getLsbD j
    rw [BitVec.getLsbD_and, getLsbD_mask hw, BitVec.getLsbD_zero]
    by_cases heq : j = i % w
    · rw [heq, Bool.eq_false_iff.mpr hbit, Bool.false_and]
    · rw [decide_eq_false heq, Bool.and_false]
  · intro hbit hzero
    have hget := congrArg (fun y => y.getLsbD (i % w)) hzero
    simp only [BitVec.getLsbD_and, getLsbD_mask hw, hbit] at hget
    simp at hget

theorem mem_members (hw : 0 < w) (a : BitArray w n) :
    i ∈ a.members ↔ (a.wordOf i).getLsbD (i % w) = true := by
  show decide (a.wordOf i &&& mask w i ≠ 0) = true ↔ _
  rw [decide_eq_true_iff]
  exact and_mask_ne_zero hw _

theorem notMem_zero (hw : 0 < w) : i ∉ (zero w n).members := by
  rw [mem_members hw, wordOf, zero]
  by_cases hlt : i / w < n
  · simp [hlt]
  · simp [hlt]

/-- The word of a number after another was put in. -/
theorem wordOf_insert (a : BitArray w n) (h : i / w < n) :
    (a.insert i).wordOf j = if i / w = j / w then a.wordOf i ||| mask w i else a.wordOf j := by
  by_cases hword : i / w = j / w
  · rw [if_pos hword, wordOf, insert, hword, Vector.getElem?_setIfInBounds_self]
    rw [← hword, if_pos h]
    rfl
  · rw [if_neg hword, wordOf, insert, Vector.getElem?_setIfInBounds_ne hword]
    rfl

/-- **A number is put into the set**, and no other comes or goes. -/
theorem members_insert (hw : 0 < w) (a : BitArray w n) (h : i < w * n) :
    (a.insert i).members = Insert.insert i a.members := by
  have hword : i / w < n := Nat.div_lt_of_lt_mul h
  ext j
  rw [Set.mem_insert_iff, mem_members hw, mem_members hw, wordOf_insert a hword]
  by_cases hsame : i / w = j / w
  · have hbit : j % w = i % w ↔ j = i := by
      constructor
      · intro hmod
        rw [← Nat.div_add_mod j w, ← Nat.div_add_mod i w, hmod, hsame]
      · intro heq
        rw [heq]
    rw [if_pos hsame, BitVec.getLsbD_or, getLsbD_mask hw, Bool.or_eq_true,
      decide_eq_true_iff, hbit, or_comm, wordOf, wordOf, hsame]
  · have hne : j ≠ i := fun heq => hsame (by rw [heq])
    rw [if_neg hsame]
    exact (or_iff_right hne).symm

end BitArray

end Lkp
