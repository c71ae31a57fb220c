/-
Arrays of pointers to blocks.

A loop fills the slots of an array with new blocks, one slot after another (`Filled`).  Where
an allocation fails it may stop there (`fillOrStop`) or leave `NULL` in the slot and go on
(`fillOrSkip`).  A loop that releases what the slots point to comes to one call after
another (`forUp_putPtr`, `forDown_putPtr`).
-/
import Lkp.Memory.Release

namespace Lkp

/-- The memory, and an array of pointers into it. -/
structure Slots (α : Type*) where
  mem : Ledger α
  ptr : Nat → Option Nat

namespace Slots

variable {α : Type*}

/-- Nothing was allocated, and every pointer is `NULL`. -/
def empty : Slots α where
  mem := .empty
  ptr := fun _ => none

/-- Slot `i` gets a new block. -/
def fill (s : Slots α) (i : Nat) (a : α) : Slots α where
  mem := s.mem.alloc a
  ptr := Function.update s.ptr i (some s.mem.heap.brk)

/-- The allocation for slot `i` fails. -/
def clear (s : Slots α) (i : Nat) : Slots α := { s with ptr := Function.update s.ptr i none }

/-- A pass that stops where the allocation fails; the state has the index of the loop. -/
def fillOrStop (as : Nat → α) (ok : Nat → Bool) (i : Nat) (s : Slots α × Nat) :
    Option (Pass (Slots α × Nat)) :=
  if ok i then some (.next (s.1.fill i (as i), i + 1)) else some (.stop (s.1.clear i, i))

/-- A pass that goes on where the allocation fails. -/
def fillOrSkip (as : Nat → α) (ok : Nat → Bool) (i : Nat) (s : Slots α) : Slots α :=
  if ok i then s.fill i (as i) else s.clear i

/-- The first `k` blocks. -/
def firstBlocks (as : Nat → α) (k : Nat) : List α := (List.range k).map as

/-- Their addresses. -/
def addrs (s : Slots α) (k : Nat) : List Nat := List.range' s.mem.heap.brk k

/-- The first `k` slots have their blocks, and nothing else was allocated. -/
structure Filled (as : Nat → α) (s : Slots α) (k : Nat) (t : Slots α) : Prop where
  mem : t.mem = s.mem.allocAll (firstBlocks as k)
  ptrs : ∀ j, j < k → t.ptr j = some (s.mem.heap.brk + j)

variable {as : Nat → α} {ok : Nat → Bool} {s t : Slots α} {n k i : Nat}

@[simp] theorem fill_self (a : α) : (s.fill i a).ptr i = some s.mem.heap.brk :=
  Function.update_self ..

@[simp] theorem clear_self : (s.clear i).ptr i = none := Function.update_self ..

theorem fill_of_ne {a : α} {j : Nat} (h : j ≠ i) : (s.fill i a).ptr j = s.ptr j :=
  Function.update_of_ne h ..

theorem clear_of_ne {j : Nat} (h : j ≠ i) : (s.clear i).ptr j = s.ptr j :=
  Function.update_of_ne h ..

@[simp] theorem length_firstBlocks : (firstBlocks as k).length = k := by simp [firstBlocks]

theorem firstBlocks_succ : firstBlocks as (k + 1) = firstBlocks as k ++ [as k] := by
  rw [firstBlocks, List.range_succ, List.map_append]
  rfl

theorem addrs_firstBlocks : s.mem.addrs (firstBlocks as k) = s.addrs k := by
  rw [Ledger.addrs, length_firstBlocks, addrs]

namespace Filled

theorem start : Filled as s 0 s := ⟨rfl, nofun⟩

theorem brk (h : Filled as s k t) : t.mem.heap.brk = s.mem.heap.brk + k := by
  rw [h.mem, Ledger.brk_allocAll, length_firstBlocks]

/-- One more slot is filled. -/
theorem fill (h : Filled as s k t) : Filled as s (k + 1) (t.fill k (as k)) := by
  refine ⟨?_, fun j hj => ?_⟩
  · rw [firstBlocks_succ, Ledger.allocAll_concat, ← h.mem]
    rfl
  · by_cases heq : j = k
    · rw [heq, fill_self, h.brk]
    · rw [fill_of_ne heq]
      exact h.ptrs j (by omega)

/-- The slots after those that are filled do not matter. -/
theorem clear (h : Filled as s k t) : Filled as s k (t.clear k) :=
  ⟨h.mem, fun j hj => (clear_of_ne hj.ne).trans (h.ptrs j hj)⟩

theorem obj (h : Filled as s k t) (hs : s.mem.heap.WF) {j : Nat} (hj : j < k) :
    t.mem.heap.obj (s.mem.heap.brk + j) = some (as j) := by
  have hlen : j < (firstBlocks as k).length := by rwa [length_firstBlocks]
  rw [h.mem, Ledger.obj_allocAll_of_lt hs hlen]
  simp [firstBlocks]

/-- With the blocks of all slots gone, the memory is as before. -/
theorem released (h : Filled as s k t) (hs : s.mem.heap.WF) {os : List Nat}
    (hos : ∀ o, o ∈ os ↔ o ∈ s.addrs k) : (t.mem.release os).heap.obj = s.mem.heap.obj := by
  rw [h.mem]
  exact Ledger.obj_release_allocAll hs fun o => by rw [hos, addrs_firstBlocks]

end Filled

/-! ### Loops that fill -/

/-- How a loop ends that stops where an allocation fails. -/
theorem fillOrStop_loop (as : Nat → α) (ok : Nat → Bool) (n : Nat) (s : Slots α) :
    Ends (fun t => Filled as s n t.1 ∧ ∀ j, j < n → ok j = true)
      (fun t => t.2 < n ∧ ok t.2 = false ∧ (∀ j, j < t.2 → ok j = true) ∧
        Filled as s t.2 t.1 ∧ t.1.ptr t.2 = none)
      (forUp (fillOrStop as ok) n 0 (s, 0)) := by
  have hstep : ∀ (i : Nat) (t : Slots α × Nat), 0 ≤ i → i < 0 + n →
      (Filled as s i t.1 ∧ t.2 = i ∧ ∀ j, j < i → ok j = true) →
      Ends (fun t => Filled as s (i + 1) t.1 ∧ t.2 = i + 1 ∧ ∀ j, j < i + 1 → ok j = true)
        (fun t => t.2 < n ∧ ok t.2 = false ∧ (∀ j, j < t.2 → ok j = true) ∧
          Filled as s t.2 t.1 ∧ t.1.ptr t.2 = none)
        (fillOrStop as ok i t) := by
    intro i t _ hi ht
    obtain ⟨hfilled, -, hok⟩ := ht
    unfold fillOrStop
    split
    · rename_i hgood
      refine .next ⟨hfilled.fill, rfl, fun j hj => ?_⟩
      rcases Nat.lt_succ_iff_lt_or_eq.mp hj with hlt | rfl
      · exact hok j hlt
      · exact hgood
    · rename_i hbad
      exact .stop ⟨by omega, Bool.eq_false_iff.mpr hbad, hok, hfilled.clear, clear_self⟩
  have hstart : Filled as s 0 (s, 0).1 ∧ (s, 0).2 = 0 ∧ ∀ j, j < 0 → ok j = true :=
    ⟨Filled.start, rfl, nofun⟩
  have hends := forUp_ends hstep hstart
  rw [Nat.zero_add] at hends
  exact hends.mono (fun t ht => ⟨ht.1, ht.2.2⟩) fun _ ht => ht

/-- After `k` passes that go on, a slot is `NULL` exactly if its allocation failed. -/
structure Tried (as : Nat → α) (ok : Nat → Bool) (s : Slots α) (k : Nat) (t : Slots α) :
    Prop where
  ptrs : ∀ j, j < k → (t.ptr j).isSome = ok j
  filled : (∀ j, j < k → ok j = true) → Filled as s k t

theorem Tried.start : Tried as ok s 0 s := ⟨nofun, fun _ => .start⟩

theorem Tried.step (h : Tried as ok s k t) : Tried as ok s (k + 1) (fillOrSkip as ok k t) := by
  unfold fillOrSkip
  cases hk : ok k with
  | true =>
      refine ⟨fun j hj => ?_, fun hall => ?_⟩
      · rcases Nat.lt_succ_iff_lt_or_eq.mp hj with hlt | rfl
        · rw [if_pos rfl, fill_of_ne hlt.ne]
          exact h.ptrs j hlt
        · rw [if_pos rfl, fill_self, hk]
          rfl
      · exact (h.filled fun j hj => hall j (Nat.lt_succ_of_lt hj)).fill
  | false =>
      refine ⟨fun j hj => ?_, fun hall => ?_⟩
      · rcases Nat.lt_succ_iff_lt_or_eq.mp hj with hlt | rfl
        · rw [if_neg Bool.false_ne_true, clear_of_ne hlt.ne]
          exact h.ptrs j hlt
        · rw [if_neg Bool.false_ne_true, clear_self, hk]
          rfl
      · rw [hall k (Nat.lt_succ_self k)] at hk
        cases hk

/-! ### Loops that release -/

/-- A loop of calls that release makes one call after another. -/
theorem forUp_putPtr (c : Nat → Release α) (n k : Nat) (m : Ledger α) :
    forUp (fun i m => (m.putPtr (c i).takes (c i).ptr).map .next) n k m =
      (Ledger.putAll ((List.range' k n).map c) m).map .next := by
  induction n generalizing k m with
  | zero => rfl
  | succ n ih =>
      rw [forUp, List.range'_succ, List.map_cons, Ledger.putAll]
      cases m.putPtr (c k).takes (c k).ptr with
      | none => rfl
      | some t => exact ih (k + 1) t

/-- A loop that counts down makes them in the other order. -/
theorem forDown_putPtr (c : Nat → Release α) (n : Nat) (m : Ledger α) :
    forDown (fun i m => (m.putPtr (c i).takes (c i).ptr).map .next) n m =
      (Ledger.putAll ((List.range' 1 n).reverse.map c) m).map .next := by
  induction n generalizing m with
  | zero => rfl
  | succ n ih =>
      rw [forDown, List.range'_1_concat, List.reverse_append, Nat.add_comm 1 n]
      show _ = (Ledger.putAll (c (n + 1) :: (List.range' 1 n).reverse.map c) m).map _
      rw [Ledger.putAll]
      cases m.putPtr (c (n + 1)).takes (c (n + 1)).ptr with
      | none => rfl
      | some t => exact ih t

/-- The pointers of filled slots. -/
theorem Filled.map_ptr (h : Filled as s k t) {j l : Nat} (hl : j + l ≤ k) :
    (List.range' j l).map t.ptr = (List.range' (s.mem.heap.brk + j) l).map some := by
  rw [← List.map_add_range', List.map_map]
  refine List.map_congr_left fun i hi => ?_
  exact h.ptrs i (by have hlt := (List.mem_range'_1.mp hi).2; omega)

/-- Calls for blocks of filled slots, no two for the same one, find what they take. -/
theorem Filled.proper (h : Filled as s k t) (hs : s.mem.heap.WF) {cs : List (Release α)}
    (hnodup : (Ledger.released cs).Nodup)
    (hcs : ∀ c ∈ cs, ∀ o, c.ptr = some o → ∃ j, j < k ∧ o = s.mem.heap.brk + j ∧
      c.takes (as j) = true) : Ledger.Proper cs t.mem := by
  refine ⟨hnodup, fun c hc o ho => ?_⟩
  obtain ⟨j, hj, rfl, htakes⟩ := hcs c hc o ho
  rw [h.obj hs hj]
  exact htakes

/-- The slots that are filled can all be released, to a function that takes their blocks. -/
theorem Filled.putAll (h : Filled as s k t) (hs : s.mem.heap.WF) {takes : α → Bool}
    (htakes : ∀ j, j < k → takes (as j) = true) :
    Ledger.putAll ((List.range' 0 k).map fun i => ⟨t.ptr i, takes⟩) t.mem =
      some (t.mem.release (s.addrs k)) := by
  have hreleased : Ledger.released ((List.range' 0 k).map fun i => ⟨t.ptr i, takes⟩) =
      s.addrs k := by
    rw [Ledger.released, List.map_map, show Release.ptr ∘ _ = t.ptr from rfl,
      h.map_ptr (by omega), Nat.add_zero, addrs]
    simp [List.reduceOption]
  refine Ledger.putAll_eq_some_iff.mpr ⟨h.proper hs ?_ fun c hc o ho => ?_, by rw [hreleased]⟩
  · rw [hreleased]
    exact List.nodup_range'
  · obtain ⟨i, hi, rfl⟩ := List.mem_map.mp hc
    have hlt : i < k := by
      have hlt := (List.mem_range'_1.mp hi).2
      omega
    exact ⟨i, hlt, (Option.some.inj ((h.ptrs i hlt).symm.trans ho)).symm, htakes i hlt⟩

/-- Doing so gives back all that was allocated. -/
theorem Filled.gaveBack (h : Filled as s k t) (hs : s.mem.heap.WF) :
    Ledger.GaveBack s.mem t.mem (t.mem.release (s.addrs k)) (s.addrs k) :=
  ⟨⟨_, rfl, .refl _⟩, h.released hs fun _ => Iff.rfl⟩

end Slots

end Lkp
