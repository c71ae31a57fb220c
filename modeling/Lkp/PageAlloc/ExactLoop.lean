/-
The module that allocates exact numbers of pages in a loop.

Where an allocation fails, init goes to free what the iterations before it got, and starts
with the slot of the failing one.  That slot is `NULL`, and `free_pages_exact` does not
ignore it: it frees the pages at whatever address it is given.  So init is right only
where nothing fails (`undoes_iff`).  The number of iterations and the size are parameters.
-/
import Lkp.Kernel.Basic
import Lkp.Memory.Bytes
import Lkp.Memory.Slots

namespace Lkp.PageAlloc

/-- The memory, and `gptr`. -/
abbrev Drv := Slots Buf

/-- `MAXTIMES` -/
def MAXTIMES : Nat := 3

/-- `gsz` as the module has it. -/
def gsz0 : Nat := 33 * 1024

/-- A block once `memset(gptr[i], 'x', gsz)` has poisoned it. -/
def poisoned (gsz : Nat) : Buf := List.replicate gsz 0x78

/-- One pass of the loop of init: `ok i` is the `alloc_pages_exact` of slot `i` going well. -/
def allocSlot (gsz : Nat) (ok : Nat → Bool) : Nat → Drv × Nat → Option (Pass (Drv × Nat)) :=
  Slots.fillOrStop (fun _ => poisoned gsz) ok

/-- `free_pages_exact(ptr, size)`, which wants a block of that size. -/
def freePagesExact (size : Nat) (ptr : Option Nat) (m : Ledger Buf) : Option (Ledger Buf) :=
  ptr.bind fun o => m.put (fun b => b.length = size) o

/-- What init does and returns after that loop. -/
def leaveInit (gsz : Nat) : Pass (Drv × Nat) → Option (Int × Drv)
  | .next t => some (0, t.1)
  -- `for (j = i; j >= 0; j--)`
  | .stop t =>
      (forDown (fun j m => (freePagesExact gsz (t.1.ptr (j - 1)) m).map .next) (t.2 + 1)
        t.1.mem).map fun p => (-ENOMEM, { t.1 with mem := p.state })

/-- `page_exact_loop_init`, for `n` iterations. -/
def pageExactLoopInit (n gsz : Nat) (ok : Nat → Bool) (s : Drv) : Option (Int × Drv) :=
  (forUp (allocSlot gsz ok) n 0 (s, 0)).bind (leaveInit gsz)

/-- `page_exact_loop_exit`, for `n` iterations. -/
def pageExactLoopExit (n gsz : Nat) (s : Drv) : Option Drv :=
  (forUp (fun i m => (freePagesExact gsz (s.ptr i) m).map .next) n 0 s.mem).map fun p =>
    { s with mem := p.state }

/-- Init undoes what it has done where it fails, and exit where it does not. -/
structure Undoes (n gsz : Nat) (ok : Nat → Bool) (s : Drv) (ret : Int) (s' : Drv) : Prop where
  returns : ret = 0 ∨ ret = -ENOMEM
  failed : ret = -ENOMEM → ∃ i, i < n ∧ ok i = false ∧ (∀ j, j < i → ok j = true) ∧
    Ledger.GaveBack s.mem s.mem s'.mem (s.addrs i)
  exit : ret = 0 → ∃ s'', pageExactLoopExit n gsz s' = some s'' ∧
    Ledger.GaveBack s.mem s'.mem s''.mem (s.addrs n)

variable {n gsz k : Nat} {ok : Nat → Bool} {s t : Drv}

/-- With all slots filled, exit frees the block of each. -/
theorem pageExactLoopExit_eq (h : Slots.Filled (fun _ => poisoned gsz) s n t)
    (hs : s.mem.heap.WF) :
    pageExactLoopExit n gsz t = some { t with mem := t.mem.release (s.addrs n) } := by
  have hbody : forUp (fun i m => (freePagesExact gsz (t.ptr i) m).map .next) n 0 t.mem =
      forUp (fun i m => (m.putPtr (fun b => b.length = gsz) (t.ptr i)).map .next) n 0 t.mem := by
    refine forUp_congr fun i m _ hi => ?_
    rw [h.ptrs i (by omega)]
    rfl
  have hput : Ledger.putAll ((List.range' 0 n).map fun i => ⟨t.ptr i, fun b => b.length = gsz⟩)
      t.mem = some (t.mem.release (s.addrs n)) :=
    h.putAll hs fun _ _ => by simp [poisoned]
  have hloop := Slots.forUp_putPtr (fun i => ⟨t.ptr i, fun b => b.length = gsz⟩) n 0 t.mem
  rw [hput] at hloop
  rw [pageExactLoopExit, hbody, hloop]
  rfl

/-- The first call of the undo loop is with the pointer of the slot that failed. -/
theorem leaveInit_stop {i : Nat} (hnull : t.ptr i = none) :
    leaveInit gsz (.stop (t, i)) = none := by
  rw [leaveInit, forDown, Nat.add_sub_cancel, hnull]
  rfl

/-- **Init does as it should only where nothing fails.** -/
theorem undoes_iff (hs : s.mem.heap.WF) :
    (∃ ret s', pageExactLoopInit n gsz ok s = some (ret, s') ∧ Undoes n gsz ok s ret s') ↔
      ∀ i, i < n → ok i = true := by
  have hends := Slots.fillOrStop_loop (fun _ => poisoned gsz) ok n s
  unfold pageExactLoopInit allocSlot
  generalize forUp (Slots.fillOrStop (fun _ => poisoned gsz) ok) n 0 (s, 0) = x at hends
  cases hends with
  | @next t h =>
      obtain ⟨hfilled, hok⟩ := h
      refine iff_of_true ⟨0, t.1, rfl, .inl rfl, fun hret => absurd hret (by decide), ?_⟩ hok
      intro _
      exact ⟨_, pageExactLoopExit_eq hfilled hs, hfilled.gaveBack hs⟩
  | @stop t h =>
      obtain ⟨hi, hbad, -, -, hnull⟩ := h
      refine iff_of_false (fun hex => ?_) fun hall => ?_
      · obtain ⟨ret, s', hinit, -⟩ := hex
        rw [Option.bind_some, leaveInit_stop hnull] at hinit
        cases hinit
      · rw [hall t.2 hi] at hbad
        cases hbad

/-- Three iterations that go well. -/
theorem undoes_three : ∃ ret s', pageExactLoopInit MAXTIMES gsz0 (fun _ => true) .empty =
    some (ret, s') ∧ Undoes MAXTIMES gsz0 (fun _ => true) .empty ret s' :=
  (undoes_iff .empty).mpr fun _ _ => rfl

/-- The second allocation fails, and the first call is `free_pages_exact(NULL, gsz)`. -/
theorem not_undoes : ¬ ∀ (n gsz : Nat) (ok : Nat → Bool) (s : Drv), s.mem.heap.WF →
    ∃ ret s', pageExactLoopInit n gsz ok s = some (ret, s') ∧ Undoes n gsz ok s ret s' := by
  intro h
  obtain ⟨ret, s', hinit, -⟩ := h MAXTIMES gsz0 (fun i => decide (i ≠ 1)) .empty .empty
  have hloop : forUp (allocSlot gsz0 fun i => decide (i ≠ 1)) MAXTIMES 0 (.empty, 0) =
      some (.stop ((Slots.empty.fill 0 (poisoned gsz0)).clear 1, 1)) := rfl
  rw [pageExactLoopInit, hloop, Option.bind_some, leaveInit_stop Slots.clear_self] at hinit
  cases hinit

end Lkp.PageAlloc
