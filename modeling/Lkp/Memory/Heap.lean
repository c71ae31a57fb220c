/-
Objects that are allocated and freed.

An address is a number, and `obj` says what is allocated there.  Addresses are
handed out in order and never again, so an address stands for one allocation: an
access to a freed object finds nothing, rather than whatever the allocator put
there next.
-/
import Mathlib.Tactic
import Mathlib.Logic.Function.Basic

namespace Lkp

/-- What is allocated, and the next address. -/
structure Heap (α : Type*) where
  obj : Nat → Option α
  brk : Nat

namespace Heap

variable {α : Type*}

/-- Nothing is allocated.  Address 0 is NULL. -/
def empty : Heap α := { obj := fun _ => none, brk := 1 }

/-- Allocate at address `brk`. -/
def alloc (h : Heap α) (a : α) : Heap α :=
  { obj := Function.update h.obj h.brk (some a), brk := h.brk + 1 }

/-- `kfree`. -/
def free (h : Heap α) (o : Nat) : Heap α := { h with obj := Function.update h.obj o none }

/-- Overwrite the object at an address. -/
def store (h : Heap α) (o : Nat) (a : α) : Heap α :=
  { h with obj := Function.update h.obj o (some a) }

/-- Objects have addresses that were handed out. -/
def WF (h : Heap α) : Prop := ∀ o a, h.obj o = some a → o < h.brk

variable {h : Heap α} {o o' : Nat} {a : α}

@[simp] theorem alloc_self : (h.alloc a).obj h.brk = some a := Function.update_self ..

theorem alloc_of_ne (ho : o ≠ h.brk) : (h.alloc a).obj o = h.obj o :=
  Function.update_of_ne ho ..

theorem alloc_of_lt (ho : o < h.brk) : (h.alloc a).obj o = h.obj o :=
  alloc_of_ne (Nat.ne_of_lt ho)

@[simp] theorem free_self : (h.free o).obj o = none := Function.update_self ..

theorem free_of_ne (ho : o' ≠ o) : (h.free o).obj o' = h.obj o' := Function.update_of_ne ho ..

@[simp] theorem store_self : (h.store o a).obj o = some a := Function.update_self ..

theorem store_of_ne (ho : o' ≠ o) : (h.store o a).obj o' = h.obj o' :=
  Function.update_of_ne ho ..

/-- What is written last stays. -/
theorem store_store {b : α} : (h.store o a).store o b = h.store o b := by
  rw [store, store, store, Function.update_idem]

theorem store_eq_self (ho : h.obj o = some a) : h.store o a = h := by
  rw [store, ← ho, Function.update_eq_self]

/-- A new object that is overwritten is as if it had been allocated so. -/
theorem alloc_store {b : α} : (h.alloc a).store h.brk b = h.alloc b := by
  rw [store, alloc, alloc, Function.update_idem]

namespace WF

theorem lt (hw : h.WF) (ho : h.obj o = some a) : o < h.brk := hw o a ho

theorem empty : (empty : Heap α).WF := nofun

/-- Nothing is at the next address. -/
theorem brk_none (hw : h.WF) : h.obj h.brk = none :=
  Option.eq_none_iff_forall_ne_some.mpr fun _ hsome => absurd (hw.lt hsome) (Nat.lt_irrefl _)

theorem alloc (hw : h.WF) : (h.alloc a).WF := by
  intro u b hu
  by_cases hub : u < h.brk
  · exact Nat.lt_succ_of_lt hub
  · by_cases heq : u = h.brk
    · exact heq ▸ Nat.lt_succ_self _
    · rw [alloc_of_ne heq] at hu
      exact absurd (hw u b hu) hub

theorem free (hw : h.WF) : (h.free o).WF := by
  intro u b hu
  by_cases heq : u = o
  · rw [heq, free_self] at hu
    cases hu
  · exact hw u b (free_of_ne heq ▸ hu)

theorem store (hw : h.WF) (ho : o < h.brk) : (h.store o a).WF := by
  intro u b hu
  by_cases heq : u = o
  · exact heq ▸ ho
  · exact hw u b (store_of_ne heq ▸ hu)

end WF

end Heap

end Lkp
