/-
Blocks of memory and a record of what was freed.

`freed` keeps every block that was freed, so that "each block once" can be read off it, and a
block that is neither freed nor given back to anyone is still found in the heap.
-/
import Lkp.Memory.Heap

namespace Lkp

/-- The blocks, and those freed so far. -/
structure Ledger (α : Type*) where
  heap : Heap α
  freed : List Nat

namespace Ledger

variable {α : Type*}

/-- Nothing was allocated, and nothing freed. -/
def empty : Ledger α := { heap := .empty, freed := [] }

/-- Allocate a block. -/
def alloc (s : Ledger α) (a : α) : Ledger α := { s with heap := s.heap.alloc a }

/-- The blocks `os` are gone, in that order. -/
def release (s : Ledger α) (os : List Nat) : Ledger α where
  heap := os.foldl Heap.free s.heap
  freed := s.freed ++ os

variable {s : Ledger α} {o : Nat} {os : List Nat}

theorem release_nil : s.release [] = s := by
  rw [release, List.append_nil]
  rfl

theorem release_release (os us : List Nat) : (s.release os).release us = s.release (os ++ us) := by
  rw [release, release, release, List.foldl_append, List.append_assoc]

theorem release_cons (o : Nat) (os : List Nat) :
    s.release (o :: os) = (s.release [o]).release os :=
  (release_release [o] os).symm

theorem obj_release (h : o ∉ os) : (s.release os).heap.obj o = s.heap.obj o := by
  induction os generalizing s with
  | nil => rw [release_nil]
  | cons u os ih =>
      obtain ⟨hne, hrest⟩ := not_or.mp (mt List.mem_cons.mpr h)
      rw [release_cons, ih hrest]
      exact Heap.free_of_ne hne

theorem obj_release_self (h : o ∈ os) : (s.release os).heap.obj o = none := by
  induction os generalizing s with
  | nil => cases h
  | cons u os ih =>
      rw [release_cons]
      by_cases hin : o ∈ os
      · exact ih hin
      · rw [obj_release hin, (List.mem_cons.mp h).resolve_right hin]
        exact Heap.free_self

theorem brk_release : (s.release os).heap.brk = s.heap.brk := by
  induction os generalizing s with
  | nil => rw [release_nil]
  | cons u os ih =>
      rw [release_cons, ih]
      rfl

end Ledger

end Lkp
