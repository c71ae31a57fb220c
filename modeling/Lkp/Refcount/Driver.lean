/-
The driver whose two counters move in opposite directions.

`ga` goes up and `gb` goes down with every file opened, and back with every file
closed, both starting from 42.  They mirror the number of open files as long as
`gb` does not come down to 0 — and the 42nd file open at once does that: `gb`
saturates, and stays saturated after every file is closed again.

The VFS decides which calls are made: `open` gives a file a number no open file
has, `release` comes once for a file that is open.
-/
import Mathlib.Data.Finset.Card
import Lkp.Concurrency.Machine
import Lkp.Kernel.Refcount

namespace Lkp.Refcount

/-- The two counters. -/
structure Drv where
  ga : Int
  gb : Int
  deriving DecidableEq

/-- `open_miscdrv_rdwr`, with the pair `val_a`, `val_b` it reports. -/
def openMiscdrvRdwr (s : Drv) : Drv × Int × Int :=
  let s' := { s with ga := inc s.ga, gb := dec s.gb }
  (s', s'.ga, s'.gb)

/-- `close_miscdrv_rdwr`, with the pair it reports. -/
def closeMiscdrvRdwr (s : Drv) : Drv × Int × Int :=
  let s' := { s with ga := dec s.ga, gb := inc s.gb }
  (s', s'.ga, s'.gb)

/-- The driver, the files now open, and the pairs reported so far, newest first. -/
structure Vfs where
  drv : Drv
  files : Finset Nat
  reports : List (Int × Int)
  deriving DecidableEq

/-- The calls the VFS makes. -/
inductive Act
  | opening (f : Nat)
  | closing (f : Nat)
  deriving DecidableEq

instance : Inhabited Act := ⟨.opening 0⟩

/-- One call: `none` for the opening of a file that is open or the closing of one that is not. -/
def next (s : Vfs) : Act → Option Vfs
  | .opening f =>
      if f ∈ s.files then none
      else
        let r := openMiscdrvRdwr s.drv
        some { drv := r.1, files := insert f s.files, reports := r.2 :: s.reports }
  | .closing f =>
      if f ∈ s.files then
        let r := closeMiscdrvRdwr s.drv
        some { drv := r.1, files := s.files.erase f, reports := r.2 :: s.reports }
      else none

/-- `REFCOUNT_INIT(42)` for both, and no file open. -/
def vfs0 : Vfs := { drv := { ga := 42, gb := 42 }, files := ∅, reports := [] }

/-- Any sequence of opens and closes, each close of a file opened before. -/
def machine : Machine Vfs Act where
  init s := s = vfs0
  next := next

/-! ### The counters mirror the open files -/

/-- What the two counters should say. -/
structure Balanced (s : Vfs) : Prop where
  ga : s.drv.ga = 42 + s.files.card
  gb : s.drv.gb = 42 - s.files.card
  unsaturated : s.drv.ga ≠ saturated ∧ s.drv.gb ≠ saturated
  /-- With every file closed both are back. -/
  closed : s.files = ∅ → s.drv.ga = 42 ∧ s.drv.gb = 42

/-- A file is opened only while fewer than 41 are open. -/
def Room (s : Vfs) : Act → Prop
  | .opening _ => s.files.card < 41
  | .closing _ => True

instance : DecidableRel Room := fun s a => by
  unfold Room; split <;> infer_instance

/-- The counters mirror at most 41 open files, and every pair reported summed to 84. -/
structure Mirrors (s : Vfs) : Prop where
  ga : s.drv.ga = 42 + s.files.card
  gb : s.drv.gb = 42 - s.files.card
  few : s.files.card ≤ 41
  reports : ∀ ab ∈ s.reports, ab.1 + ab.2 = 84

theorem Mirrors.balanced {s : Vfs} (h : Mirrors s) : Balanced s := by
  have hga := h.ga
  have hgb := h.gb
  have hfew := h.few
  refine ⟨hga, hgb, ⟨?_, ?_⟩, fun hnone => ?_⟩
  · unfold saturated; omega
  · unfold saturated; omega
  · rw [hnone, Finset.card_empty] at hga hgb
    exact ⟨by omega, by omega⟩

/-- An opening with room moves both counters by one. -/
theorem Mirrors.opening {s s' : Vfs} {f : Nat} (h : Mirrors s) (hroom : s.files.card < 41)
    (hs : next s (.opening f) = some s') : Mirrors s' := by
  have hga := h.ga
  have hgb := h.gb
  simp only [next] at hs
  split at hs
  · cases hs
  · rename_i hf
    cases hs
    have hcard : (insert f s.files).card = s.files.card + 1 := Finset.card_insert_of_notMem hf
    have hinc : inc s.drv.ga = s.drv.ga + 1 :=
      inc_of_lt (by omega) (by unfold intMax; omega)
    have hdec : dec s.drv.gb = s.drv.gb - 1 := dec_of_lt (by omega)
    refine ⟨?_, ?_, ?_, fun ab hab => ?_⟩
    · simp only [openMiscdrvRdwr, hinc, hcard]; omega
    · simp only [openMiscdrvRdwr, hdec, hcard]; omega
    · simp only [hcard]; omega
    · rcases List.mem_cons.mp hab with rfl | hold
      · simp only [openMiscdrvRdwr, hinc, hdec]; omega
      · exact h.reports ab hold

/-- A closing moves them back. -/
theorem Mirrors.closing {s s' : Vfs} {f : Nat} (h : Mirrors s)
    (hs : next s (.closing f) = some s') : Mirrors s' := by
  have hga := h.ga
  have hgb := h.gb
  have hfew := h.few
  simp only [next] at hs
  split at hs
  · rename_i hf
    cases hs
    have hcard : (s.files.erase f).card + 1 = s.files.card := Finset.card_erase_add_one hf
    have hdec : dec s.drv.ga = s.drv.ga - 1 := dec_of_lt (by omega)
    have hinc : inc s.drv.gb = s.drv.gb + 1 :=
      inc_of_lt (by omega) (by unfold intMax; omega)
    refine ⟨?_, ?_, ?_, fun ab hab => ?_⟩
    · simp only [closeMiscdrvRdwr, hdec]; omega
    · simp only [closeMiscdrvRdwr, hinc]; omega
    · show (s.files.erase f).card ≤ 41
      omega
    · rcases List.mem_cons.mp hab with rfl | hold
      · simp only [closeMiscdrvRdwr, hinc, hdec]; omega
      · exact h.reports ab hold
  · cases hs

theorem inductive_mirrors : machine.Inductive Room Mirrors where
  init := by
    rintro s rfl
    exact ⟨rfl, rfl, by decide, by simp [vfs0]⟩
  step := by
    intro s a s' h hok hs
    cases a with
    | opening f => exact h.opening hok hs
    | closing f => exact h.closing hs

/-- An opening without room takes `gb` to 0, or finds it there already. -/
theorem not_balanced_of_full {s s' : Vfs} {f : Nat} (h : Balanced s) (hfull : 41 ≤ s.files.card)
    (hs : next s (.opening f) = some s') : ¬ Balanced s' := by
  intro hbal
  have hgb := h.gb
  simp only [next] at hs
  split at hs
  · cases hs
  · cases hs
    exact hbal.unsaturated.2 (dec_of_le (by omega))

/-- **The counters are right throughout a run exactly if no more than 41 files are ever open.** -/
theorem balanced_iff_room {n : Nat} (r : machine.Run n) :
    (∀ i, i ≤ n → Balanced (r.state i)) ↔ r.Meets Room := by
  constructor
  · intro h i hi
    have hnext := r.step i hi
    cases hact : r.act i with
    | closing f => trivial
    | opening f =>
        show (r.state i).files.card < 41
        by_contra hfull
        rw [hact] at hnext
        exact not_balanced_of_full (h i hi.le) (Nat.le_of_not_lt hfull) hnext (h (i + 1) hi)
  · intro h i hi
    exact (inductive_mirrors.holds (r.reachableBy h i hi)).balanced

/-! ### Too many files -/

/-- A call leaves a saturated `gb` as it is. -/
theorem next_saturated {s s' : Vfs} {a : Act} (hs : next s a = some s')
    (h : s.drv.gb = saturated) : s'.drv.gb = saturated := by
  cases a with
  | opening f =>
      simp only [next] at hs
      split at hs
      · cases hs
      · cases hs
        simp [openMiscdrvRdwr, h]
  | closing f =>
      simp only [next] at hs
      split at hs
      · cases hs
        simp [closeMiscdrvRdwr, h]
      · cases hs

/-- Closing files never repairs it. -/
theorem saturated_stays {n : Nat} (r : machine.Run n) {i j : Nat} (hij : i ≤ j) (hj : j ≤ n)
    (h : (r.state i).drv.gb = saturated) : (r.state j).drv.gb = saturated :=
  r.stays (P := fun s => s.drv.gb = saturated) hij hj
    (fun k _ hkj hk => next_saturated (r.step k (Nat.lt_of_lt_of_le hkj hj)) hk) h

/-- Open `k` files and close them again. -/
def openAll (k : Nat) : List Act :=
  (List.range k).map .opening ++ (List.range k).map .closing

/-- 42 files open at once, and then none. -/
def fullRun : machine.Run 84 := .ofActs vfs0 (openAll 42) rfl (by decide +kernel)

/-- After all is closed `gb` is still saturated. -/
theorem not_balanced : ¬ ∀ n (r : machine.Run n) i, i ≤ n → Balanced (r.state i) := by
  intro h
  have hgb : (fullRun.state 84).drv.gb = saturated := by decide +kernel
  exact (h 84 fullRun 84 (by decide)).unsaturated.2 hgb

end Lkp.Refcount
