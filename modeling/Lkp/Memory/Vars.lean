/-
Pointer variables, each with a name of its own.

A function that allocates into one variable after another leaves them pointing to
different blocks (`Got`).  What releases them is a list of calls, each of a function with a
variable.  Where the calls have every variable that got a block once, and each function
takes the block it is called for, they give back all that was allocated (`Got.putAll`).
-/
import Lkp.Memory.Release

namespace Lkp

/-- The memory, and the variables `ι`. -/
structure Vars (ι α : Type*) where
  mem : Ledger α
  ptr : ι → Option Nat

namespace Vars

variable {ι α φ : Type*}

/-- `v = alloc(..)`, which gets the block `b`, or `NULL`. -/
def get [DecidableEq ι] (s : Vars ι α) (v : ι) : Option α → Vars ι α
  | none => { s with ptr := Function.update s.ptr v none }
  | some b =>
      { mem := s.mem.alloc b, ptr := Function.update s.ptr v (some s.mem.heap.brk) }

/-- What calls of functions `φ` with variables release, where `f` takes the blocks `takes f`. -/
def releases (takes : φ → α → Bool) (s : Vars ι α) (cs : List (φ × ι)) : List (Release α) :=
  cs.map fun c => { ptr := s.ptr c.2, takes := takes c.1 }

/-- What was allocated since `s`. -/
def obtained (s t : Ledger α) : List Nat := List.range' s.heap.brk (t.heap.brk - s.heap.brk)

/-- The variables have got blocks, one after another. -/
structure Got (s : Ledger α) (obs : List (ι × α)) (t : Vars ι α) : Prop where
  mem : t.mem = s.allocAll (obs.map Prod.snd)
  ptrs : ∀ i (h : i < obs.length), t.ptr obs[i].1 = some (s.heap.brk + i)

namespace Got

variable {s : Ledger α} {obs : List (ι × α)} {t : Vars ι α}

theorem start : Got t.mem [] t := ⟨rfl, nofun⟩

theorem brk (h : Got s obs t) : t.mem.heap.brk = s.heap.brk + obs.length := by
  rw [h.mem, Ledger.brk_allocAll, List.length_map]

theorem freed (h : Got s obs t) : t.mem.freed = s.freed := by
  rw [h.mem, Ledger.freed_allocAll]

/-- A variable that has none gets a block. -/
theorem get_some [DecidableEq ι] (h : Got s obs t) {v : ι} (hv : v ∉ obs.map Prod.fst) (b : α) :
    Got s (obs ++ [(v, b)]) (t.get v (some b)) := by
  refine ⟨?_, fun i hi => ?_⟩
  · rw [List.map_append, List.map_singleton, Ledger.allocAll_concat, ← h.mem]
    rfl
  · rw [List.length_append, List.length_singleton] at hi
    by_cases hlast : i = obs.length
    · subst hlast
      rw [List.getElem_concat_length rfl, ← h.brk]
      exact Function.update_self ..
    · have hlt : i < obs.length := by omega
      rw [List.getElem_append_left hlt]
      have hne : obs[i].1 ≠ v := fun heq =>
        hv (heq ▸ List.mem_map_of_mem (List.getElem_mem hlt))
      exact (Function.update_of_ne hne ..).trans (h.ptrs i hlt)

/-- A variable that has none gets `NULL`. -/
theorem get_none [DecidableEq ι] (h : Got s obs t) {v : ι} (hv : v ∉ obs.map Prod.fst) :
    Got s obs (t.get v none) := by
  refine ⟨h.mem, fun i hi => ?_⟩
  have hne : obs[i].1 ≠ v := fun heq => hv (heq ▸ List.mem_map_of_mem (List.getElem_mem hi))
  exact (Function.update_of_ne hne ..).trans (h.ptrs i hi)

/-- The block of a variable. -/
theorem obj (h : Got s obs t) (hs : s.heap.WF) {v : ι} {b : α} (hv : (v, b) ∈ obs) :
    ∃ o, t.ptr v = some o ∧ t.mem.heap.obj o = some b := by
  obtain ⟨i, hi, heq⟩ := List.getElem_of_mem hv
  refine ⟨s.heap.brk + i, ?_, ?_⟩
  · rw [← h.ptrs i hi, heq]
  · have hlen : i < (obs.map Prod.snd).length := by rwa [List.length_map]
    rw [h.mem, Ledger.obj_allocAll_of_lt hs hlen, List.getElem_map, heq]

/-- The variables point to the blocks in their order. -/
theorem map_ptr (h : Got s obs t) :
    obs.map (fun p => t.ptr p.1) = (List.range' s.heap.brk obs.length).map some := by
  refine List.ext_getElem (by simp) fun i hi _ => ?_
  rw [List.length_map] at hi
  rw [List.getElem_map, List.getElem_map, List.getElem_range', h.ptrs i hi, one_mul]

variable {takes : φ → α → Bool} {cs : List (φ × ι)}

/-- Calls with every variable once release every block once. -/
theorem released_perm (takes : φ → α → Bool) (h : Got s obs t)
    (hperm : (cs.map Prod.snd).Perm (obs.map Prod.fst)) :
    (Ledger.released (t.releases takes cs)).Perm (List.range' s.heap.brk obs.length) := by
  have hptrs : ((t.releases takes cs).map Release.ptr).Perm
      ((List.range' s.heap.brk obs.length).map some) := by
    rw [← h.map_ptr]
    have hmap := hperm.map t.ptr
    rw [List.map_map, List.map_map] at hmap
    rw [releases, List.map_map]
    exact hmap
  have hall := hptrs.filterMap id
  rw [List.filterMap_map] at hall
  simpa [Ledger.released, List.reduceOption] using hall

/-- **Such calls give back everything**, if each function takes its block. -/
theorem putAll (h : Got s obs t) (hs : s.heap.WF)
    (hperm : (cs.map Prod.snd).Perm (obs.map Prod.fst))
    (htakes : ∀ c ∈ cs, ∀ b, (c.2, b) ∈ obs → takes c.1 b = true) :
    ∃ m, Ledger.putAll (t.releases takes cs) t.mem = some m ∧
      Ledger.GaveBack s s m (obtained s m) := by
  have hreleased := h.released_perm takes hperm
  refine ⟨_, Ledger.putAll_eq_some_iff.mpr ⟨⟨?_, fun c hc o ho => ?_⟩, rfl⟩, ?_, ?_⟩
  · exact hreleased.nodup_iff.mpr List.nodup_range'
  · obtain ⟨d, hd, rfl⟩ := List.mem_map.mp hc
    have hvar : d.2 ∈ obs.map Prod.fst := hperm.mem_iff.mp (List.mem_map_of_mem hd)
    obtain ⟨p, hp, heq⟩ := List.mem_map.mp hvar
    obtain ⟨u, hu, hobj⟩ := h.obj hs (v := d.2) (b := p.2) (heq ▸ hp)
    obtain rfl : u = o := Option.some.inj (hu.symm.trans ho)
    rw [hobj, Option.any_some]
    exact htakes d hd p.2 (heq ▸ hp)
  · refine ⟨_, by rw [Ledger.release, h.freed], hreleased.trans ?_⟩
    rw [obtained, Ledger.brk_release, h.brk, Nat.add_sub_cancel_left]
  · rw [h.mem]
    refine Ledger.obj_release_allocAll hs fun o => ?_
    rw [Ledger.addrs, List.length_map]
    exact hreleased.mem_iff

end Got

end Vars

end Lkp
