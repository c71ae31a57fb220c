/-
What the modules that list tasks have in common.

A snapshot of the task list is a list of processes, each with its threads.  The modules go
through it and print a row for each process or thread, which they put together with
`snprintf_lkp`.  A pass through the loop is a step that prints one row, and a run prints one
row after another (`foldlM_extends`).

The texts of the fields have bounded lengths, since a name has at most 15 bytes.
-/
import Lkp.Klib.Snprintf

namespace Lkp.Tasks

open Klib (SnprintfCall)

/-- `TASK_COMM_LEN` -/
def TASK_COMM_LEN : Nat := 16

/-- The name of a task: a string with its terminator fits into `TASK_COMM_LEN` bytes. -/
structure Comm where
  bytes : Buf
  short : bytes.length ≤ TASK_COMM_LEN - 1
  noNul : NoNul bytes

/-- The members of `struct task_struct` that are shown, and its address. -/
structure Task where
  tgid : BitVec 32
  pid : BitVec 32
  uid : BitVec 32
  euid : BitVec 32
  /-- There is an `mm`: it is not a kernel thread. -/
  mm : Bool
  addr : BitVec 64
  stack : BitVec 64
  comm : Comm

/-- A process: the task that stands for it, `get_nr_threads` of it, and its threads. -/
structure Process where
  g : Task
  nrThreads : BitVec 32
  threads : List Task

/-- All threads, in the order of the traversal, each with its process. -/
def traversal (ps : List Process) : List (Process × Task) :=
  ps.flatMap fun p => p.threads.map fun t => (p, t)

/-- A userspace process of several threads, and the thread whose PID is its TGID. -/
def isMain (p : Process) (t : Task) : Bool :=
  p.g.mm && decide (p.g.tgid = t.pid) && decide (1 < p.nrThreads.toInt)

/-! ### Fields -/

/-- `" [%16s]"` for a kernel thread, and `"  %16s "` otherwise. -/
def nameField (mm : Bool) (comm : Buf) : Buf :=
  if mm then ascii [' ', ' '] ++ padLeft 16 comm ++ ascii [' ']
  else ascii [' ', '['] ++ padLeft 16 comm ++ ascii [']']

/-- `" %3d"` -/
def countField (nrThrds : BitVec 32) : Buf := ascii [' '] ++ padLeft 3 (signed nrThrds.toInt)

/-- `"\n"` -/
def newline : Buf := [10]

section Fields

variable {v : BitVec 32} {mm : Bool} {comm : Comm} {w : Nat} {x : ℤ}

theorem length_padLeft_int_le (hw : w ≤ 11) : (padLeft w (signed v.toInt)).length ≤ 11 := by
  have hlen := length_signed_int_le v
  rw [length_padLeft]
  omega

theorem length_nameField (mm : Bool) (comm : Comm) : (nameField mm comm.bytes).length = 19 := by
  have hshort := comm.short
  unfold TASK_COMM_LEN at hshort
  have hpad : (padLeft 16 comm.bytes).length = 16 := by
    rw [length_padLeft]
    omega
  unfold nameField
  split <;> simp [hpad]

theorem length_countField_le : (countField v).length ≤ 12 := by
  have hlen := length_padLeft_int_le (v := v) (w := 3) (by decide)
  rw [countField, List.length_append, length_ascii, List.length_singleton]
  omega

theorem noNul_nameField (mm : Bool) (comm : Comm) : NoNul (nameField mm comm.bytes) := by
  unfold nameField
  split
  · exact ((noNul_ascii (by simp)).append comm.noNul.padLeft).append (noNul_ascii (by simp))
  · exact ((noNul_ascii (by simp)).append comm.noNul.padLeft).append (noNul_ascii (by simp))

theorem noNul_countField : NoNul (countField v) :=
  (noNul_ascii (by simp)).append (noNul_signed _).padLeft

theorem noNul_newline : NoNul newline := by
  unfold NoNul newline
  decide

/-- A number has no newline in it. -/
theorem newline_notMem_signed (x : ℤ) : (10 : UInt8) ∉ signed x := by
  have hdecimal : ∀ n : Nat, (10 : UInt8) ∉ decimal n := by
    intro n hmem
    exact absurd (range_of_mem_decimal hmem).1 (by decide)
  unfold signed
  split
  · intro hmem
    rcases List.mem_append.mp hmem with hsign | hdigits
    · exact absurd hsign (by decide)
    · exact hdecimal _ hdigits
  · exact hdecimal _

/-- Neither does the field of the name end with one, nor that of the count. -/
theorem getLast?_nameField : (nameField mm comm.bytes).getLast? ≠ some 10 := by
  unfold nameField
  split
  · rw [List.getLast?_append_of_ne_nil _ (by decide)]
    decide
  · rw [List.getLast?_append_of_ne_nil _ (by decide)]
    decide

theorem getLast?_countField : (countField v).getLast? ≠ some 10 := by
  have hne : signed v.toInt ≠ [] := by
    unfold signed decimal ascii
    split
    · simp
    · simp [Nat.toDigits_ne_nil]
  rw [countField, padLeft, ← List.append_assoc, List.getLast?_append_of_ne_nil _ hne]
  intro hlast
  exact newline_notMem_signed _ (List.mem_of_getLast? hlast)

end Fields

/-! ### Rows -/

/-- The calls of `snprintf_lkp`, the rows printed, and `total`. -/
structure Log where
  calls : List SnprintfCall
  rows : List Buf
  total : BitVec 32

/-- A call of `snprintf_lkp` is made. -/
def Log.call (l : Log) (c : SnprintfCall) : Log := { l with calls := l.calls ++ [c] }

/-- Rows were printed, and all calls for them were complete. -/
structure Log.Extends (l l' : Log) (new : List Buf) : Prop where
  rows : l'.rows = l.rows ++ new
  total : l'.total = l.total + BitVec.ofNat 32 new.length
  calls : ∃ cs, l'.calls = l.calls ++ cs ∧ ∀ c ∈ cs, c.Complete

namespace Log.Extends

variable {l l' l'' : Log} {rows rows' : List Buf}

theorem refl (l : Log) : l.Extends l [] :=
  ⟨(List.append_nil _).symm, (BitVec.add_zero _).symm, [], (List.append_nil _).symm, nofun⟩

theorem trans (h : l.Extends l' rows) (h' : l'.Extends l'' rows') :
    l.Extends l'' (rows ++ rows') := by
  obtain ⟨cs, hcs, hall⟩ := h.calls
  obtain ⟨cs', hcs', hall'⟩ := h'.calls
  refine ⟨?_, ?_, cs ++ cs', ?_, fun c hc => ?_⟩
  · rw [h'.rows, h.rows, List.append_assoc]
  · rw [h'.total, h.total, BitVec.add_assoc, List.length_append, BitVec.ofNat_add]
  · rw [hcs', hcs, List.append_assoc]
  · exact (List.mem_append.mp hc).elim (hall c) (hall' c)

end Log.Extends

/-- **A loop of which each pass prints a row prints one row after another.** -/
theorem foldlM_extends {σ α : Type} {pass : σ → α → Option σ} {log : σ → Log} {I : σ → Prop}
    {row : α → Buf}
    (hstep : ∀ s a, I s → ∃ s', pass s a = some s' ∧ I s' ∧ (log s).Extends (log s') [row a])
    (as : List α) {s : σ} (hs : I s) :
    ∃ s', as.foldlM pass s = some s' ∧ I s' ∧ (log s).Extends (log s') (as.map row) := by
  induction as generalizing s with
  | nil => exact ⟨s, rfl, hs, .refl _⟩
  | cons a as ih =>
      obtain ⟨t, ht, hI, hrow⟩ := hstep s a hs
      obtain ⟨s', hs', hI', hrows⟩ := ih hI
      refine ⟨s', ?_, hI', hrow.trans hrows⟩
      rw [List.foldlM_cons, ht]
      exact hs'

end Lkp.Tasks
