/-
What the drivers have in common: error numbers and the C integer types.

A method returns a `ssize_t` holding either a byte count or a negative error
number, so results are `Int`.  A C `int` is 32 bits wide and the kernel is built
with wrapping signed arithmetic: counters are `BitVec 32`, and a `size_t` stored
into an `int` keeps its low 32 bits.
-/
import Mathlib.Tactic

namespace Lkp

def EINVAL : Int := 22
def EFAULT : Int := 14
def ENOMEM : Int := 12
def ENOSYS : Int := 38

/-- `MAX_RW_COUNT`: the VFS passes no larger count to a method. -/
def maxRwCount : Nat := 0x7ffff000

/-- A line of `showlist`: two numbers as they are printed, and a letter. -/
abbrev Line := Int × Int × BitVec 8

/-- A method that returns `ret` for `count` has done all it should, or reports an error. -/
structure AllOrNothing (ret : Int) (count : Nat) (whole unchanged : Prop) : Prop where
  whole : ret = count → whole
  failed : ret ≠ count → ret < 0 ∧ unchanged

/-- The value an `int` has after a `size_t` was stored into it. -/
def toInt (n : Nat) : Int := (BitVec.ofNat 32 n).toInt

/-- A count that fits is stored as it is. -/
theorem toInt_of_lt {n : Nat} (h : n < 2 ^ 31) : toInt n = n := by
  have hmod : n % 2 ^ 32 = n := Nat.mod_eq_of_lt (by omega)
  rw [toInt, BitVec.toInt_eq_toNat_cond, BitVec.toNat_ofNat, hmod, if_pos (by omega)]

end Lkp
