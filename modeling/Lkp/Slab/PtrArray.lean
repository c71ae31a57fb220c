/-
The module that keeps an array of pointers to kilobytes of slab memory.

Where an allocation fails, init goes to a loop that is to free the blocks allocated before
it.  That loop counts down from the failing slot, whose pointer is `NULL`, and stops
before slot 0: the block of slot 0 is leaked.  So init keeps its books exactly where no
allocation fails or the first one does (`keepsBooks_iff`).  The number of slots is a parameter.
-/
import Lkp.Kernel.Basic
import Lkp.Memory.Bytes
import Lkp.Memory.Slots

namespace Lkp.Slab

/-- The memory, and `gkptr`. -/
abbrev Drv := Slots Buf

/-- `SLAB_MAXLOOP` -/
def SLAB_MAXLOOP : Nat := 5

/-- The byte that `memset(gkptr[i], i+0x61, 1024)` stores. -/
def fillByte (i : Nat) : UInt8 := UInt8.ofNat (i + 0x61)

/-- Block `i` once it is filled: `memset` overwrites all that `kmalloc` left in it. -/
def block (i : Nat) : Buf := List.replicate 1024 (fillByte i)

/-- One pass of the loop of init: `ok i` is the `kmalloc` of slot `i` going well. -/
def allocSlot (ok : Nat → Bool) : Nat → Drv × Nat → Option (Pass (Drv × Nat)) :=
  Slots.fillOrStop block ok

/-- What init returns after that loop: `cleanup` is where it goes when `kmalloc` fails. -/
def leaveInit : Pass (Drv × Nat) → Option (Int × Drv)
  | .next t => some (0, t.1)
  -- `cleanup: for (j = i; j > 0; j--)`
  | .stop t => (forDown (fun j m => (m.kfree (t.1.ptr j)).map .next) t.2 t.1.mem).map fun p =>
      (-ENOMEM, { t.1 with mem := p.state })

/-- `slab_ptr_array_init`, for `n` slots. -/
def slabPtrArrayInit (n : Nat) (ok : Nat → Bool) (s : Drv) : Option (Int × Drv) :=
  (forUp (allocSlot ok) n 0 (s, 0)).bind leaveInit

/-- `slab_ptr_array_cleanup`, for `n` slots. -/
def slabPtrArrayCleanup (n : Nat) (s : Drv) : Option Drv :=
  (forUp (fun i m => (m.kfree (s.ptr i)).map .next) n 0 s.mem).map fun p =>
    { s with mem := p.state }

/-- Init and cleanup keep their books. -/
structure KeepsBooks (n : Nat) (ok : Nat → Bool) (s : Drv) (ret : Int) (s' : Drv) : Prop where
  returns : ret = 0 ∨ ret = -ENOMEM
  failed : ret = -ENOMEM → ∃ i, i < n ∧ ok i = false ∧ (∀ j, j < i → ok j = true) ∧
    Ledger.GaveBack s.mem s.mem s'.mem (s.addrs i)
  filled : ret = 0 → ∀ j, j < n → s'.ptr j = some (s.mem.heap.brk + j) ∧
    s'.mem.heap.obj (s.mem.heap.brk + j) = some (block j)
  cleanup : ret = 0 → ∃ s'', slabPtrArrayCleanup n s' = some s'' ∧
    Ledger.GaveBack s.mem s'.mem s''.mem (s.addrs n)

variable {n k i : Nat} {ok : Nat → Bool} {s t : Drv}

/-! ### The two loops that free -/

/-- The calls of the loop at `cleanup:`. -/
def cleanupCalls (s : Drv) (k : Nat) : List (Release Buf) :=
  (List.range' 1 k).reverse.map fun j => ⟨s.ptr j, fun _ => true⟩

theorem released_cleanupCalls (h : Slots.Filled block s k t) (hnull : t.ptr k = none) :
    Ledger.released (cleanupCalls t k) = (List.range' (s.mem.heap.brk + 1) (k - 1)).reverse := by
  rw [Ledger.released, cleanupCalls, List.map_map, show Release.ptr ∘ _ = t.ptr from rfl,
    List.map_reverse, List.reduceOption, List.filterMap_reverse]
  congr 1
  cases k with
  | zero => rfl
  | succ m =>
      rw [List.range'_1_concat, List.map_append, h.map_ptr (by omega), List.filterMap_append,
        Nat.add_comm 1 m, List.map_singleton, hnull]
      simp

/-- The loop at `cleanup:` frees the blocks of slots `k - 1` to 1. -/
theorem freed_down (h : Slots.Filled block s k t) (hs : s.mem.heap.WF) (hnull : t.ptr k = none) :
    forDown (fun j m => (m.kfree (t.ptr j)).map .next) k t.mem =
      some (.next (t.mem.release (List.range' (s.mem.heap.brk + 1) (k - 1)).reverse)) := by
  have hreleased := released_cleanupCalls h hnull
  have hproper : Ledger.Proper (cleanupCalls t k) t.mem := by
    refine h.proper hs ?_ fun c hc o ho => ?_
    · rw [hreleased]
      exact List.nodup_reverse.mpr List.nodup_range'
    · have hmem := Ledger.mem_released_iff.mpr ⟨c, hc, ho⟩
      rw [hreleased, List.mem_reverse, List.mem_range'_1] at hmem
      obtain ⟨j, -, rfl⟩ := List.mem_map.mp hc
      exact ⟨o - s.mem.heap.brk, by omega, by omega, rfl⟩
  have hloop : forDown (fun j m => (m.kfree (t.ptr j)).map .next) k t.mem =
      (Ledger.putAll (cleanupCalls t k) t.mem).map .next :=
    Slots.forDown_putPtr (fun j => ⟨t.ptr j, fun _ => true⟩) k t.mem
  rw [hloop, Ledger.putAll_eq_some_iff.mpr ⟨hproper, rfl⟩, hreleased]
  rfl

/-- `slab_ptr_array_cleanup` frees the blocks of all slots. -/
theorem freed_up (h : Slots.Filled block s n t) (hs : s.mem.heap.WF) :
    slabPtrArrayCleanup n t = some { t with mem := t.mem.release (s.addrs n) } := by
  have hloop : forUp (fun i m => (m.kfree (t.ptr i)).map .next) n 0 t.mem =
      (Ledger.putAll ((List.range' 0 n).map fun i => ⟨t.ptr i, fun _ => true⟩) t.mem).map .next :=
    Slots.forUp_putPtr (fun i => ⟨t.ptr i, fun _ => true⟩) n 0 t.mem
  rw [slabPtrArrayCleanup, hloop, h.putAll hs fun _ _ => rfl]
  rfl

/-! ### The books -/

/-- With all slots filled the books are kept. -/
theorem keepsBooks_filled (h : Slots.Filled block s n t) (hs : s.mem.heap.WF) :
    KeepsBooks n ok s 0 t where
  returns := .inl rfl
  failed hret := absurd hret (by decide)
  filled _ j hj := ⟨h.ptrs j hj, h.obj hs hj⟩
  cleanup _ := ⟨_, freed_up h hs, h.gaveBack hs⟩

/-- The loop at `cleanup:` gives all back only if there is nothing to free. -/
theorem gaveBack_iff (h : Slots.Filled block s k t) (hs : s.mem.heap.WF) :
    Ledger.GaveBack s.mem s.mem
        (t.mem.release (List.range' (s.mem.heap.brk + 1) (k - 1)).reverse) (s.addrs k) ↔
      k = 0 := by
  constructor
  · intro hback
    by_contra hk
    -- the block of slot 0 is not among those that are freed
    have hkept : s.mem.heap.brk ∉ (List.range' (s.mem.heap.brk + 1) (k - 1)).reverse := by
      rw [List.mem_reverse, List.mem_range'_1]
      omega
    have hleak := congrFun hback.heap s.mem.heap.brk
    have hblock := h.obj hs (Nat.pos_of_ne_zero hk)
    rw [Ledger.obj_release hkept, hs.brk_none] at hleak
    rw [Nat.add_zero, hleak] at hblock
    cases hblock
  · intro hk
    subst hk
    refine ⟨⟨[], ?_, .refl _⟩, h.released hs fun _ => Iff.rfl⟩
    rw [h.mem]
    rfl

/-- Where `kmalloc` failed, the books are kept if the memory is as before. -/
theorem keepsBooks_failed_iff {t' : Drv} (hi : i < n) (hbad : ok i = false)
    (hok : ∀ j, j < i → ok j = true) :
    KeepsBooks n ok s (-ENOMEM) t' ↔ Ledger.GaveBack s.mem s.mem t'.mem (s.addrs i) := by
  constructor
  · intro hbooks
    obtain ⟨j, -, hbad', hok', hback⟩ := hbooks.failed rfl
    have hsame : i = j := by
      rcases Nat.lt_trichotomy i j with hlt | heq | hgt
      · rw [hok' i hlt] at hbad
        cases hbad
      · exact heq
      · rw [hok j hgt] at hbad'
        cases hbad'
    rw [hsame]
    exact hback
  · intro hback
    exact ⟨.inr rfl, fun _ => ⟨i, hi, hbad, hok, hback⟩, nofun, nofun⟩

/-- **The books are kept** exactly if no allocation fails, or the first one does. -/
theorem keepsBooks_iff (hs : s.mem.heap.WF) :
    (∃ ret s', slabPtrArrayInit n ok s = some (ret, s') ∧ KeepsBooks n ok s ret s') ↔
      (∀ i, i < n → ok i = true) ∨ ok 0 = false := by
  have hends := Slots.fillOrStop_loop block ok n s
  unfold slabPtrArrayInit allocSlot
  generalize forUp (Slots.fillOrStop block ok) n 0 (s, 0) = x at hends
  cases hends with
  | @next t h =>
      obtain ⟨hfilled, hok⟩ := h
      exact iff_of_true ⟨0, t.1, rfl, keepsBooks_filled hfilled hs⟩ (.inl hok)
  | @stop t h =>
      obtain ⟨hi, hbad, hok, hfilled, hnull⟩ := h
      have hall : ¬ ∀ i, i < n → ok i = true := by
        intro hall
        rw [hall t.2 hi] at hbad
        cases hbad
      have hzero : t.2 = 0 ↔ ok 0 = false := by
        constructor
        · intro h0
          exact h0 ▸ hbad
        · intro h0
          by_contra hne
          rw [hok 0 (Nat.pos_of_ne_zero hne)] at h0
          cases h0
      rw [Option.bind_some, leaveInit, freed_down hfilled hs hnull, Option.map_some,
        or_iff_right hall, ← hzero, ← gaveBack_iff hfilled hs]
      constructor
      · intro hbooks
        obtain ⟨ret, s', heq, hbooks⟩ := hbooks
        obtain ⟨rfl, rfl⟩ := Prod.mk.inj (Option.some.inj heq)
        exact (keepsBooks_failed_iff hi hbad hok).mp hbooks
      · intro hback
        exact ⟨_, _, rfl, (keepsBooks_failed_iff hi hbad hok).mpr hback⟩

/-- There is memory for all five slots. -/
theorem keepsBooks_allFive : ∃ ret s', slabPtrArrayInit SLAB_MAXLOOP (fun _ => true) .empty =
    some (ret, s') ∧ KeepsBooks SLAB_MAXLOOP (fun _ => true) .empty ret s' :=
  (keepsBooks_iff .empty).mpr (.inl fun _ _ => rfl)

/-- The `kmalloc` of slot 1 fails, and the block of slot 0 stays. -/
theorem not_keepsBooks : ¬ ∀ (n : Nat) (ok : Nat → Bool) (s : Drv), s.mem.heap.WF →
    ∃ ret s', slabPtrArrayInit n ok s = some (ret, s') ∧ KeepsBooks n ok s ret s' := by
  intro h
  obtain ⟨ret, s', hinit, hbooks⟩ := h SLAB_MAXLOOP (fun i => decide (i ≠ 1)) .empty .empty
  have hrun : (slabPtrArrayInit SLAB_MAXLOOP (fun i => decide (i ≠ 1)) .empty).map
      (fun r => (r.1, (r.2.mem.heap.obj 1).isSome)) = some (-ENOMEM, true) := by
    decide +kernel
  rw [hinit, Option.map_some, Option.some.injEq, Prod.mk.injEq] at hrun
  obtain ⟨hret, hleak⟩ := hrun
  obtain ⟨i, -, -, -, hback⟩ := hbooks.failed hret
  rw [hback.heap] at hleak
  cases hleak

end Lkp.Slab
