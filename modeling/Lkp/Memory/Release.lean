/-
Blocks that are given back by functions which take some blocks and not others.

A function that releases memory may want a block of its own kind, or of the size it is
called with.  To call it for another block, or for one that is not allocated, is undefined
(`put`).  So a number of such calls is defined exactly where each finds a block that it
takes, and no two find the same one (`putAll_eq_some_iff`).

Blocks that are allocated one after another lie at one address after another
(`obj_allocAll`), and when all of them are gone the memory is as before.
-/
import Lkp.CLang.Loop
import Lkp.Memory.Ledger
import Mathlib.Data.List.ReduceOption

namespace Lkp

/-- A call that releases: its pointer, and the blocks that the function takes. -/
structure Release (α : Type*) where
  ptr : Option Nat
  takes : α → Bool

namespace Ledger

variable {α : Type*}

/-- Give back the block at `o`, to a function that takes the blocks `takes`. -/
def put (takes : α → Bool) (o : Nat) (s : Ledger α) : Option (Ledger α) :=
  if (s.heap.obj o).any takes then some (s.release [o]) else none

/-- The same for a pointer, where `NULL` is ignored. -/
def putPtr (takes : α → Bool) : Option Nat → Ledger α → Option (Ledger α)
  | none, s => some s
  | some o, s => s.put takes o

/-- `kfree(ptr)`, which takes any block. -/
def kfree (s : Ledger α) (ptr : Option Nat) : Option (Ledger α) := s.putPtr (fun _ => true) ptr

/-- One call after another. -/
def putAll : List (Release α) → Ledger α → Option (Ledger α)
  | [], s => some s
  | c :: cs, s => (s.putPtr c.takes c.ptr).bind (putAll cs)

/-- The blocks that calls release. -/
def released (cs : List (Release α)) : List Nat := (cs.map Release.ptr).reduceOption

/-- Each call finds a block that it takes, and no two find the same. -/
structure Proper (cs : List (Release α)) (s : Ledger α) : Prop where
  nodup : (released cs).Nodup
  takes : ∀ c ∈ cs, ∀ o, c.ptr = some o → (s.heap.obj o).any c.takes = true

variable {s t : Ledger α} {o : Nat} {c : Release α} {cs : List (Release α)}

theorem put_eq_some_iff {takes : α → Bool} :
    s.put takes o = some t ↔ (s.heap.obj o).any takes = true ∧ t = s.release [o] := by
  unfold put
  split
  · rename_i h
    simp [h, eq_comm]
  · rename_i h
    simp [h]

theorem released_cons_none (h : c.ptr = none) : released (c :: cs) = released cs := by
  rw [released, List.map_cons, h, List.reduceOption_cons_of_none]
  rfl

theorem released_cons_some (h : c.ptr = some o) : released (c :: cs) = o :: released cs := by
  rw [released, List.map_cons, h, List.reduceOption_cons_of_some]
  rfl

theorem mem_released_iff : o ∈ released cs ↔ ∃ c ∈ cs, c.ptr = some o := by
  rw [released, List.reduceOption_mem_iff, List.mem_map]

theorem proper_nil : Proper [] s := ⟨List.nodup_nil, nofun⟩

theorem proper_cons_none (h : c.ptr = none) : Proper (c :: cs) s ↔ Proper cs s := by
  constructor
  · intro hp
    refine ⟨released_cons_none h ▸ hp.nodup, fun d hd => hp.takes d (List.mem_cons_of_mem _ hd)⟩
  · intro hp
    refine ⟨(released_cons_none h).symm ▸ hp.nodup, fun d hd u hu => ?_⟩
    rcases List.mem_cons.mp hd with rfl | hd
    · rw [h] at hu
      cases hu
    · exact hp.takes d hd u hu

theorem proper_cons_some (h : c.ptr = some o) :
    Proper (c :: cs) s ↔ (s.heap.obj o).any c.takes = true ∧ Proper cs (s.release [o]) := by
  have hother : ∀ u ∈ released cs, o ∉ released cs →
      (s.release [o]).heap.obj u = s.heap.obj u := by
    intro u hu hnot
    refine obj_release fun hmem => hnot ?_
    rwa [← List.mem_singleton.mp hmem]
  constructor
  · intro hp
    obtain ⟨hnot, hnodup⟩ := List.nodup_cons.mp (released_cons_some h ▸ hp.nodup)
    refine ⟨hp.takes c List.mem_cons_self o h, hnodup, fun d hd u hu => ?_⟩
    rw [hother u (mem_released_iff.mpr ⟨d, hd, hu⟩) hnot]
    exact hp.takes d (List.mem_cons_of_mem _ hd) u hu
  · intro hp
    obtain ⟨hself, hrest⟩ := hp
    have hnot : o ∉ released cs := by
      intro hmem
      obtain ⟨d, hd, hu⟩ := mem_released_iff.mp hmem
      have htakes := hrest.takes d hd o hu
      rw [obj_release_self List.mem_cons_self] at htakes
      cases htakes
    refine ⟨?_, fun d hd u hu => ?_⟩
    · rw [released_cons_some h]
      exact List.nodup_cons.mpr ⟨hnot, hrest.nodup⟩
    · rcases List.mem_cons.mp hd with rfl | hd
      · rw [h] at hu
        cases hu
        exact hself
      · have htakes := hrest.takes d hd u hu
        rwa [hother u (mem_released_iff.mpr ⟨d, hd, hu⟩) hnot] at htakes

/-- **Calls are defined exactly if they are proper**, and then release each its block. -/
theorem putAll_eq_some_iff : putAll cs s = some t ↔ Proper cs s ∧ t = s.release (released cs) := by
  induction cs generalizing s with
  | nil =>
      rw [putAll, released, List.map_nil, List.reduceOption_nil, release_nil, Option.some.injEq,
        eq_comm]
      exact (and_iff_right proper_nil).symm
  | cons c cs ih =>
      rw [putAll]
      cases h : c.ptr with
      | none => rw [putPtr, Option.bind_some, ih, proper_cons_none h, released_cons_none h]
      | some o =>
          rw [putPtr, Option.bind_eq_some_iff, proper_cons_some h, released_cons_some h,
            release_cons o (released cs), and_assoc]
          constructor
          · intro hex
            obtain ⟨u, hu, ht⟩ := hex
            obtain ⟨htakes, rfl⟩ := put_eq_some_iff.mp hu
            exact ⟨htakes, ih.mp ht⟩
          · intro hp
            exact ⟨_, put_eq_some_iff.mpr ⟨hp.1, rfl⟩, ih.mpr hp.2⟩

/-! ### Blocks allocated one after another -/

/-- Allocate the blocks `as`. -/
def allocAll (s : Ledger α) (as : List α) : Ledger α := as.foldl alloc s

/-- Their addresses. -/
def addrs (s : Ledger α) (as : List α) : List Nat := List.range' s.heap.brk as.length

/-- Since `t` the blocks `os` were released, each once, and the memory is as it was in `s`. -/
structure GaveBack (s t t' : Ledger α) (os : List Nat) : Prop where
  once : ∃ fs, t'.freed = t.freed ++ fs ∧ fs.Perm os
  heap : t'.heap.obj = s.heap.obj

variable {a : α} {as : List α} {os : List Nat}

theorem allocAll_concat : s.allocAll (as ++ [a]) = (s.allocAll as).alloc a := by
  rw [allocAll, List.foldl_append]
  rfl

theorem freed_allocAll : (s.allocAll as).freed = s.freed := by
  induction as using List.reverseRecOn with
  | nil => rfl
  | append_singleton as a ih =>
      rw [allocAll_concat]
      exact ih

theorem brk_allocAll : (s.allocAll as).heap.brk = s.heap.brk + as.length := by
  induction as using List.reverseRecOn with
  | nil => rfl
  | append_singleton as a ih =>
      rw [allocAll_concat, List.length_append, List.length_singleton, ← Nat.add_assoc, ← ih]
      rfl

theorem obj_allocAll (hs : s.heap.WF) :
    (s.allocAll as).heap.obj o =
      if o < s.heap.brk then s.heap.obj o else as[o - s.heap.brk]? := by
  induction as using List.reverseRecOn with
  | nil =>
      rw [List.getElem?_nil]
      split
      · rfl
      · rename_i h
        exact Option.eq_none_iff_forall_ne_some.mpr fun b hb => h (hs.lt hb)
  | append_singleton as a ih =>
      rw [allocAll_concat]
      by_cases heq : o = (s.allocAll as).heap.brk
      · have hlen : o - s.heap.brk = as.length := by
          rw [heq, brk_allocAll]
          omega
        have hge : ¬ o < s.heap.brk := by
          rw [heq, brk_allocAll]
          omega
        rw [if_neg hge, hlen, List.getElem?_concat_length, heq]
        exact Heap.alloc_self
      · have hsame : ((s.allocAll as).alloc a).heap.obj o = (s.allocAll as).heap.obj o :=
          Heap.alloc_of_ne heq
        rw [hsame, ih]
        rw [brk_allocAll] at heq
        split
        · rfl
        · rename_i hge
          rcases Nat.lt_or_ge (o - s.heap.brk) as.length with hlt | hout
          · rw [List.getElem?_append_left hlt]
          · rw [List.getElem?_eq_none hout, List.getElem?_eq_none]
            rw [List.length_append, List.length_singleton]
            omega

theorem obj_allocAll_of_lt (hs : s.heap.WF) {i : Nat} (hi : i < as.length) :
    (s.allocAll as).heap.obj (s.heap.brk + i) = some as[i] := by
  rw [obj_allocAll hs, if_neg (by omega), Nat.add_sub_cancel_left, List.getElem?_eq_getElem hi]

/-- With all of them gone, the memory is as before. -/
theorem obj_release_allocAll (hs : s.heap.WF) (hos : ∀ o, o ∈ os ↔ o ∈ s.addrs as) :
    ((s.allocAll as).release os).heap.obj = s.heap.obj := by
  funext o
  by_cases hin : o ∈ os
  · have hge := (List.mem_range'_1.mp ((hos o).mp hin)).1
    rw [obj_release_self hin]
    exact (Option.eq_none_iff_forall_ne_some.mpr fun b hb => absurd (hs.lt hb) (by omega)).symm
  · rw [obj_release hin, obj_allocAll hs]
    split
    · rfl
    · rename_i hge
      have hout : as.length ≤ o - s.heap.brk := by
        by_contra hlt
        exact hin ((hos o).mpr (List.mem_range'_1.mpr (by omega)))
      rw [List.getElem?_eq_none hout]
      exact (Option.eq_none_iff_forall_ne_some.mpr fun b hb => hge (hs.lt hb)).symm

end Ledger

end Lkp
