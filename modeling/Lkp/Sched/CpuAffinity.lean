/-
The program that sets the CPU affinity of a process and shows it.

`set_cpu_affinity` takes a word apart, bit by bit upwards, into a set of CPUs.
`disp_cpumask` prints such a set as a row of cells downwards, for as many CPUs as there are
cores.  What is printed is the word again in binary, as far as there are cores for its bits
(`showsMask`).

The width of `unsigned long` is a parameter.  All that is asked of it is that the bits of a
`cpu_set_t` come in whole words.
-/
import Lkp.CLang.Loop
import Lkp.CLang.Format
import Lkp.Memory.BitArray

namespace Lkp.Sched

/-! ### CPU sets -/

/-- `CPU_SETSIZE` -/
def CPU_SETSIZE : Nat := 1024

/-- `cpu_set_t`, where `unsigned long` has `w` bits. -/
abbrev CpuSet (w : Nat) := BitArray w (CPU_SETSIZE / w)

/-- `CPU_ZERO` -/
def cpuZero (w : Nat) : CpuSet w := .zero w _

/-- `CPU_SET`, which does nothing for a CPU that is out of range. -/
def cpuSet {w : Nat} (cpu : Nat) (s : CpuSet w) : CpuSet w :=
  if cpu < CPU_SETSIZE then s.insert cpu else s

/-- `CPU_ISSET` -/
def cpuIsset {w : Nat} (cpu : Nat) (s : CpuSet w) : Nat :=
  if cpu < CPU_SETSIZE then if s.test cpu then 1 else 0 else 0

/-! ### `disp_cpumask` -/

/-- `print_ruler_line` -/
def rulerLine (len : BitVec 32) : Buf :=
  ascii "       +".toList ++
    ascii ((List.range (len * 4).toNat).map fun k => if (k + 1) % 4 = 0 then '+' else '-') ++
    ascii ['\n']

/-- `for (i = n - 1; i >= 0; i--) printf("..|", ..)`, where `cell i` is what is printed. -/
def cellsDown (cell : Nat → Buf) : Nat → Buf
  | 0 => []
  | n + 1 => cell n ++ ascii ['|'] ++ cellsDown cell n

/-- How many passes the loops over the cores make, whose `i` is an `int`. -/
def coresOf (ncores : BitVec 32) : Nat := ((ncores - 1).toInt + 1).toNat

/-- A row of the table. -/
def tableRow (label : String) (cell : Nat → Buf) (ncores : BitVec 32) : Buf :=
  ascii label.toList ++ ascii ['|'] ++ cellsDown cell (coresOf ncores) ++ ascii ['\n']

/-- The row of the numbers of the cores: `"%3d|"` -/
def coreRow (ncores : BitVec 32) : Buf :=
  tableRow "core#  " (fun i => padLeft 3 (signed i)) ncores

/-- The row of the set: `"%3u|"` -/
def maskRow {w : Nat} (cpumask : CpuSet w) (ncores : BitVec 32) : Buf :=
  tableRow "cpumask" (fun i => padLeft 3 (decimal (cpuIsset i cpumask))) ncores

/-- What is printed, the command that is run, and whether there was a warning that it failed. -/
structure Shown where
  title : Buf
  command : Buf
  warned : Bool
  ruler : Buf
  cores : Buf
  cpumask : Buf

/-- The table, line by line. -/
def Shown.table (s : Shown) : List Buf := [s.ruler, s.cores, s.ruler, s.cpumask, s.ruler]

/-- The command that shows the process. -/
def psCommand (pid : BitVec 32) : Buf :=
  ascii "ps -A |awk '$1 == ".toList ++ signed pid.toInt ++ ascii " \x7bprint $0\x7d'".toList

/-- `disp_cpumask`; `tmpbuf` holds anything at first, and `ok` is `system` not returning -1. -/
def dispCpumask {w : Nat} (pid : BitVec 32) (cpumask : CpuSet w) (ncores : BitVec 32)
    (tmpbuf : Vector UInt8 128) (ok : Bool) : Option Shown :=
  (snprintf 127 (psCommand pid) tmpbuf.toList).map fun tmpbuf =>
    { title := ascii "CPU affinity mask for PID ".toList ++ signed pid.toInt ++ ascii ":\n".toList
      command := cstr tmpbuf
      warned := !ok
      ruler := rulerLine ncores
      cores := coreRow ncores
      cpumask := maskRow cpumask ncores }

/-! ### `set_cpu_affinity` -/

/-- A pass of the loop: `if ((bitmask >> i) & 1) CPU_SET(i, &cpumask);` -/
def setPass {w : Nat} (bitmask : BitVec w) (i : Nat) (s : CpuSet w) : Option (Pass (CpuSet w)) :=
  some (.next (if bitmask >>> i &&& 1 ≠ 0 then cpuSet i s else s))

/--
What is announced, the set that `sched_setaffinity` is given, what is shown, and what is
returned.
-/
structure Setting (w : Nat) where
  title : Buf
  asked : CpuSet w
  shown : Option Shown
  ret : Int

/-- `set_cpu_affinity`; `ok` is `sched_setaffinity` succeeding. -/
def setCpuAffinity {w : Nat} (pid : BitVec 32) (bitmask : BitVec w) (numcores : BitVec 32)
    (tmpbuf : Vector UInt8 128) (ok systemOk : Bool) : Option (Setting w) :=
  (forUp (setPass bitmask) w 0 (cpuZero w)).bind fun pass =>
    let title := ascii "\nSetting CPU affinity mask for PID ".toList ++ signed pid.toInt ++
      ascii " now...\n".toList
    if ok then
      (dispCpumask pid pass.state numcores tmpbuf systemOk).map fun shown =>
        { title := title, asked := pass.state, shown := some shown, ret := 0 }
    else some { title := title, asked := pass.state, shown := none, ret := -1 }

/-! ### The set -/

section Sets

variable {w : Nat} {s : CpuSet w} {bitmask : BitVec w} {i j : Nat}

/-- The CPUs of a set. -/
def cpus (s : CpuSet w) : Set Nat := { i | cpuIsset i s = 1 }

theorem mem_cpus : i ∈ cpus s ↔ i < CPU_SETSIZE ∧ i ∈ s.members := by
  show cpuIsset i s = 1 ↔ i < CPU_SETSIZE ∧ s.test i = true
  unfold cpuIsset
  split
  · split <;> simp_all
  · simp_all

theorem cpuIsset_le (i : Nat) (s : CpuSet w) : cpuIsset i s ≤ 1 := by
  unfold cpuIsset
  split
  · split <;> decide
  · decide

theorem pos_of_dvd (hw : w ∣ CPU_SETSIZE) : 0 < w := Nat.pos_of_dvd_of_pos hw (by decide)

theorem notMem_cpuZero (hw : w ∣ CPU_SETSIZE) : i ∉ cpus (cpuZero w) := by
  rw [mem_cpus]
  exact fun h => BitArray.notMem_zero (pos_of_dvd hw) h.2

theorem mem_cpuSet (hw : w ∣ CPU_SETSIZE) (hi : i < CPU_SETSIZE) :
    j ∈ cpus (cpuSet i s) ↔ j = i ∨ j ∈ cpus s := by
  have hbits : i < w * (CPU_SETSIZE / w) := by
    rw [Nat.mul_div_cancel' hw]
    exact hi
  rw [mem_cpus, mem_cpus, cpuSet, if_pos hi, BitArray.members_insert (pos_of_dvd hw) s hbits,
    Set.mem_insert_iff]
  constructor
  · intro h
    exact h.2.imp id fun hj => ⟨h.1, hj⟩
  · intro h
    rcases h with rfl | hj
    · exact ⟨hi, .inl rfl⟩
    · exact ⟨hj.1, .inr hj.2⟩

/-- `(bitmask >> i) & 1` -/
theorem shift_and_one_ne_zero (hw : 0 < w) :
    bitmask >>> i &&& 1 ≠ 0 ↔ bitmask.getLsbD i = true := by
  have hbit := BitArray.and_mask_ne_zero (i := 0) hw (bitmask >>> i)
  rw [BitArray.mask, Nat.zero_mod, BitVec.shiftLeft_zero, BitVec.getLsbD_ushiftRight] at hbit
  exact hbit

/-- **The loop puts a CPU into the set for every bit of the mask.** -/
theorem setLoop_spec (hw : w ∣ CPU_SETSIZE) (bitmask : BitVec w) :
    ∃ s, forUp (setPass bitmask) w 0 (cpuZero w) = some (.next s) ∧
      ∀ j, j ∈ cpus s ↔ j < w ∧ bitmask.getLsbD j = true := by
  have hwpos := pos_of_dvd hw
  have hwle : w ≤ CPU_SETSIZE := Nat.le_of_dvd (by decide) hw
  have hloop : Ends (fun s : CpuSet w => ∀ j, j ∈ cpus s ↔ j < 0 + w ∧ bitmask.getLsbD j = true)
      (fun _ => False) (forUp (setPass bitmask) w 0 (cpuZero w)) := by
    refine forUp_ends (P := fun i s => ∀ j, j ∈ cpus s ↔ j < i ∧ bitmask.getLsbD j = true)
      (fun i s _ hi hs => .next fun j => ?_) fun j => ?_
    · by_cases hbit : bitmask.getLsbD i = true
      · rw [if_pos ((shift_and_one_ne_zero hwpos).mpr hbit), mem_cpuSet hw (by omega), hs j]
        constructor
        · intro h
          rcases h with rfl | hj
          · exact ⟨Nat.lt_succ_self j, hbit⟩
          · exact ⟨Nat.lt_succ_of_lt hj.1, hj.2⟩
        · intro h
          by_cases heq : j = i
          · exact .inl heq
          · exact .inr ⟨by omega, h.2⟩
      · rw [if_neg fun h => hbit ((shift_and_one_ne_zero hwpos).mp h), hs j]
        constructor
        · intro h
          exact ⟨Nat.lt_succ_of_lt h.1, h.2⟩
        · intro h
          have hne : j ≠ i := fun heq => hbit (heq ▸ h.2)
          exact ⟨by omega, h.2⟩
    · exact iff_of_false (notMem_cpuZero hw) fun h => Nat.not_lt_zero j h.1
  rw [Nat.zero_add] at hloop
  exact hloop.exists_next

end Sets

/-! ### Reading a row -/

/-- The number in a cell, at the right of any blanks. -/
def readCell (t : Buf) : Option Nat :=
  (readDecimal (t.dropWhile (· = 32))).bind fun r => if r.2 = [] then some r.1 else none

/-- The numbers of a row, after its label and up to the end of the line. -/
def readRow (t : Buf) : Option (List Nat) := (t.splitOn 124).tail.dropLast.mapM readCell

section Rows

variable {t : Buf} {cell : Nat → Buf} {f : Nat → Nat} {n w : Nat}

theorem readCell_padLeft (w n : Nat) : readCell (padLeft w (decimal n)) = some n := by
  have hblanks : ∀ c ∈ List.replicate (w - (decimal n).length) (32 : UInt8),
      decide (c = 32) = true := by
    intro c hc
    rw [List.eq_of_mem_replicate hc]
    rfl
  have hdrop : (padLeft w (decimal n)).dropWhile (· = 32) = decimal n := by
    rw [padLeft, List.dropWhile_append_of_pos hblanks]
    refine List.dropWhile_eq_self_iff.mpr fun hlen hblank => ?_
    have hrange := (range_of_mem_decimal (List.getElem_mem hlen)).1
    rw [of_decide_eq_true hblank] at hrange
    exact absurd hrange (by decide)
  have hread := readDecimal_decimal (n := n) noDigit_nil
  rw [List.append_nil] at hread
  rw [readCell, hdrop, hread, Option.bind_some]
  rfl

theorem bar_notMem_padLeft (w n : Nat) : (124 : UInt8) ∉ padLeft w (decimal n) := by
  intro hmem
  rcases List.mem_append.mp hmem with hblank | hdigit
  · exact absurd (List.eq_of_mem_replicate hblank) (by decide)
  · exact absurd (range_of_mem_decimal hdigit).2 (by decide)

/-- Cells that are printed one after another come apart again. -/
theorem splitOn_cellsDown (h : ∀ i, (124 : UInt8) ∉ cell i) (n : Nat) (t : Buf) :
    (cellsDown cell n ++ t).splitOn 124 = (List.range n).reverse.map cell ++ t.splitOn 124 := by
  induction n with
  | zero => rfl
  | succ n ih =>
      have hbar : ascii ['|'] = [124] := rfl
      rw [cellsDown, hbar, List.append_assoc, List.append_assoc, List.singleton_append,
        List.splitOn_append_cons_self_of_not_mem (h n), ih, List.range_succ,
        List.reverse_append, List.reverse_singleton, List.singleton_append, List.map_cons,
        List.cons_append]

/-- **A row is read back**: the numbers in its cells, from the last core down to core 0. -/
theorem readRow_tableRow {label : String} (hlabel : (124 : UInt8) ∉ ascii label.toList)
    (w : Nat) (f : Nat → Nat) (ncores : BitVec 32) :
    readRow (tableRow label (fun i => padLeft w (decimal (f i))) ncores) =
      some ((List.range (coresOf ncores)).reverse.map f) := by
  have hbar : ascii ['|'] = [124] := rfl
  have hend : (ascii ['\n']).splitOn 124 = [ascii ['\n']] :=
    List.splitOn_eq_singleton (by decide)
  rw [readRow, tableRow, hbar, List.append_assoc, List.append_assoc, List.singleton_append,
    List.splitOn_append_cons_self_of_not_mem hlabel,
    splitOn_cellsDown (fun i => bar_notMem_padLeft w (f i)), hend, List.tail_cons,
    List.dropLast_concat]
  induction (List.range (coresOf ncores)).reverse with
  | nil => rfl
  | cons i is ih =>
      rw [List.map_cons, List.mapM_cons, readCell_padLeft, ih]
      rfl

end Rows

/-! ### What is shown -/

section Shows

variable {w : Nat} {ncores : BitVec 32}

/-- The conversions of `ncores - 1` to `int` and back do no harm, even for no core at all. -/
theorem coresOf_eq (h : ncores.toNat ≤ 1000) : coresOf ncores = ncores.toNat := by
  by_cases hzero : ncores = 0
  · rw [hzero]
    rfl
  · have hpos : 0 < ncores.toNat := by
      refine Nat.pos_of_ne_zero fun h0 => hzero ?_
      exact BitVec.eq_of_toNat_eq h0
    have hsub : (ncores - 1).toNat = ncores.toNat - 1 := by
      rw [BitVec.toNat_sub_of_le (by rw [BitVec.le_def]; exact hpos)]
      rfl
    rw [coresOf, BitVec.toInt_eq_toNat_of_lt (by omega), hsub]
    omega

/-- The lowest bits of a number, with the lowest first. -/
theorem ofDigits_testBit (x n : Nat) :
    Nat.ofDigits 2 ((List.range n).map fun i => (x.testBit i).toNat) = x % 2 ^ n := by
  induction n with
  | zero => rw [Nat.pow_zero, Nat.mod_one, List.range_zero, List.map_nil, Nat.ofDigits_nil]
  | succ n ih =>
      rw [List.range_succ, List.map_append, Nat.ofDigits_append, ih, List.length_map,
        List.length_range, List.map_singleton, Nat.ofDigits_singleton, Nat.toNat_testBit,
        Nat.mod_pow_succ]

variable {pid : BitVec 32} {cpumask : CpuSet w} {bitmask : BitVec w} {tmpbuf : Vector UInt8 128}
  {ok systemOk : Bool}

theorem length_psCommand_lt (pid : BitVec 32) : (psCommand pid).length < 127 := by
  have hpid := length_signed_int_le pid
  have hps : (ascii "ps -A |awk '$1 == ".toList).length = 18 := by decide
  have hprint : (ascii " \x7bprint $0\x7d'".toList).length = 12 := by decide
  rw [psCommand, List.length_append, List.length_append, hps, hprint]
  omega

theorem noNul_psCommand (pid : BitVec 32) : NoNul (psCommand pid) := by
  have hps : NoNul (ascii "ps -A |awk '$1 == ".toList) := by
    unfold NoNul
    decide
  have hprint : NoNul (ascii " \x7bprint $0\x7d'".toList) := by
    unfold NoNul
    decide
  exact (hps.append (noNul_signed _)).append hprint

/-- What `disp_cpumask` shows; the command it runs is not cut. -/
theorem dispCpumask_spec (pid : BitVec 32) (cpumask : CpuSet w) (ncores : BitVec 32)
    (tmpbuf : Vector UInt8 128) (ok : Bool) :
    ∃ s, dispCpumask pid cpumask ncores tmpbuf ok = some s ∧ s.command = psCommand pid ∧
      s.ruler = rulerLine ncores ∧ s.cores = coreRow ncores ∧
      s.cpumask = maskRow cpumask ncores := by
  obtain ⟨d, hd, hstr, -⟩ := snprintf_whole (d := tmpbuf.toList) (noNul_psCommand pid)
    (length_psCommand_lt pid) (by rw [Vector.length_toList]; decide)
  exact ⟨_, by rw [dispCpumask, hd, Option.map_some], hstr, rfl, rfl, rfl⟩

/-- The head of the table has the numbers of the cores, the highest at the left. -/
theorem readRow_coreRow (h : ncores.toNat ≤ 1000) :
    readRow (coreRow ncores) = some (List.range ncores.toNat).reverse := by
  have hsigned : (fun i : Nat => padLeft 3 (signed i)) = fun i => padLeft 3 (decimal i) := by
    funext i
    rw [signed_natCast]
  have hread : readRow (tableRow "core#  " (fun i => padLeft 3 (decimal i)) ncores) =
      some ((List.range (coresOf ncores)).reverse.map id) :=
    readRow_tableRow (by decide) 3 id ncores
  rw [coresOf_eq h, List.map_id] at hread
  rw [coreRow, hsigned]
  exact hread

/-- Below each of them it says whether the core is in the set. -/
theorem readRow_maskRow (h : ncores.toNat ≤ 1000) : readRow (maskRow cpumask ncores) =
    some ((List.range ncores.toNat).reverse.map fun i => cpuIsset i cpumask) := by
  rw [maskRow, readRow_tableRow (by decide) 3 (fun i => cpuIsset i cpumask) ncores,
    coresOf_eq h]

theorem length_cellsDown {cell : Nat → Buf} {n k : Nat} (h : ∀ i, i < n → (cell i).length = k) :
    (cellsDown cell n).length = n * (k + 1) := by
  induction n with
  | zero => rw [Nat.zero_mul, cellsDown, List.length_nil]
  | succ n ih =>
      have hcell := h n (Nat.lt_succ_self n)
      have hrest := ih fun i hi => h i (Nat.lt_succ_of_lt hi)
      rw [cellsDown, List.length_append, List.length_append, hcell, hrest, length_ascii,
        List.length_singleton, Nat.succ_mul]
      omega

theorem length_tableRow {label : String} {cell : Nat → Buf} (hlabel : label.toList.length = 7)
    (hcores : ncores.toNat ≤ 1000) (hcell : ∀ i, i < 1000 → (cell i).length = 3) :
    (tableRow label cell ncores).length = ncores.toNat * 4 + 9 := by
  have hcells := length_cellsDown (n := ncores.toNat) fun i hi =>
    hcell i (Nat.lt_of_lt_of_le hi hcores)
  simp only [tableRow, coresOf_eq hcores, List.length_append, length_ascii, hlabel, hcells,
    List.length_singleton]
  omega

/-- The columns stand below one another, since no core has a number of four digits. -/
theorem length_of_mem_table (hcores : ncores.toNat ≤ 1000) {s : Shown}
    (hs : dispCpumask pid cpumask ncores tmpbuf ok = some s) :
    ∀ l ∈ s.table, l.length = ncores.toNat * 4 + 9 := by
  obtain ⟨s', hs', -, hruler, hcore, hmask⟩ := dispCpumask_spec pid cpumask ncores tmpbuf ok
  obtain rfl : s = s' := Option.some.inj (hs.symm.trans hs')
  have hwide : ∀ i, i < 1000 → (padLeft 3 (decimal i)).length = 3 := by
    intro i hi
    have hle : (decimal i).length ≤ 3 := length_decimal_le (by decide) (by omega)
    rw [length_padLeft]
    omega
  have hruler : s.ruler.length = ncores.toNat * 4 + 9 := by
    have hmul : (ncores * 4).toNat = ncores.toNat * 4 := by
      rw [BitVec.toNat_mul]
      exact Nat.mod_eq_of_lt (by show ncores.toNat * 4 < 2 ^ 32; omega)
    have hplus : "       +".toList.length = 8 := by decide
    simp only [hruler, rulerLine, List.length_append, length_ascii, List.length_map,
      List.length_range, hmul, hplus, List.length_singleton]
    omega
  have hcore : s.cores.length = ncores.toNat * 4 + 9 := by
    rw [hcore]
    refine length_tableRow (by decide) hcores fun i hi => ?_
    rw [signed_natCast]
    exact hwide i hi
  have hmask : s.cpumask.length = ncores.toNat * 4 + 9 := by
    rw [hmask]
    refine length_tableRow (by decide) hcores fun i _ => hwide _ ?_
    exact Nat.lt_of_le_of_lt (cpuIsset_le i cpumask) (by decide)
  intro l hl
  simp only [Shown.table, List.mem_cons, List.not_mem_nil, or_false] at hl
  rcases hl with rfl | rfl | rfl | rfl | rfl
  · exact hruler
  · exact hcore
  · exact hruler
  · exact hmask
  · exact hruler

/--
The set asked for has the CPUs of the bits that are 1.  Shown, it is a row of as many
binary digits as there are cores, and these are the lowest bits of the mask.
-/
structure ShowsMask (pid : BitVec 32) (bitmask : BitVec w) (numcores : BitVec 32)
    (tmpbuf : Vector UInt8 128) (ok systemOk : Bool) (r : Setting w) : Prop where
  set : ∀ i, i ∈ cpus r.asked ↔ i < w ∧ bitmask.getLsbD i = true
  shown : r.shown = if ok then dispCpumask pid r.asked numcores tmpbuf systemOk else none
  row : ∃ s ds, dispCpumask pid r.asked numcores tmpbuf systemOk = some s ∧
    readRow s.cpumask = some ds ∧ ds.length = numcores.toNat ∧ (∀ d ∈ ds, d < 2) ∧
    Nat.ofDigits 2 ds.reverse = bitmask.toNat % 2 ^ numcores.toNat

/-- Where it holds the CPUs of a mask, a set is shown as the bits of it. -/
theorem cpuIsset_eq (hset : ∀ i, i ∈ cpus cpumask ↔ i < w ∧ bitmask.getLsbD i = true) (i : Nat) :
    cpuIsset i cpumask = (bitmask.toNat.testBit i).toNat := by
  have hle := cpuIsset_le i cpumask
  have hmem : cpuIsset i cpumask = 1 ↔ bitmask.getLsbD i = true := by
    refine (hset i).trans ⟨fun h => h.2, fun h => ⟨?_, h⟩⟩
    exact BitVec.lt_of_getLsbD h
  rw [BitVec.testBit_toNat]
  cases hbit : bitmask.getLsbD i with
  | true => exact hmem.mpr hbit
  | false =>
      have hne : cpuIsset i cpumask ≠ 1 := by
        intro hone
        rw [hmem.mp hone] at hbit
        cases hbit
      show cpuIsset i cpumask = 0
      omega

/-- **What is shown is the mask**, as far as there are cores. -/
theorem showsMask (hw : w ∣ CPU_SETSIZE) (bitmask : BitVec w) {numcores : BitVec 32}
    (hcores : numcores.toNat ≤ 1000) (pid : BitVec 32) (tmpbuf : Vector UInt8 128)
    (ok systemOk : Bool) :
    ∃ r, setCpuAffinity pid bitmask numcores tmpbuf ok systemOk = some r ∧
      ShowsMask pid bitmask numcores tmpbuf ok systemOk r := by
  obtain ⟨cpumask, hloop, hset⟩ := setLoop_spec hw bitmask
  obtain ⟨s, hs, -, -, -, hrow⟩ := dispCpumask_spec pid cpumask numcores tmpbuf systemOk
  have hshows : ∀ r : Setting w, r.asked = cpumask →
      r.shown = (if ok then dispCpumask pid cpumask numcores tmpbuf systemOk else none) →
      ShowsMask pid bitmask numcores tmpbuf ok systemOk r := by
    intro r hasked hshown
    rw [← hasked] at hset hshown hs hrow
    refine ⟨hset, hshown, s, _, hs, by rw [hrow, readRow_maskRow hcores], ?_, fun d hd => ?_, ?_⟩
    · rw [List.length_map, List.length_reverse, List.length_range]
    · obtain ⟨i, -, rfl⟩ := List.mem_map.mp hd
      rw [cpuIsset_eq hset]
      exact Bool.toNat_lt _
    · rw [← List.map_reverse, List.reverse_reverse, ← ofDigits_testBit]
      exact congrArg _ (List.map_congr_left fun i _ => cpuIsset_eq hset i)
  rw [setCpuAffinity, hloop, Option.bind_some]
  cases ok with
  | true =>
      refine ⟨_, by rw [if_pos rfl, Pass.state, hs, Option.map_some], hshows _ rfl ?_⟩
      rw [if_pos rfl, hs]
  | false => exact ⟨_, rfl, hshows _ rfl rfl⟩

/-- CPUs 0, 1 and 3 are asked for where there are 100, which is more than the mask has bits. -/
theorem showsMask_b :
    ∃ r, setCpuAffinity 1000 0xb#64 100 (Vector.replicate 128 0xff) true true = some r ∧
      ShowsMask 1000 0xb#64 100 (Vector.replicate 128 0xff) true true r :=
  showsMask (by decide) _ (by decide) _ _ _ _

end Shows

end Lkp.Sched
