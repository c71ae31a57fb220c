/-
The module that shows all threads.

A row is three texts, each in a buffer of its own, that are printed together.  The third is
written only for the rows that show a number of threads, so for the others it has to be
empty: it is, since all three are cleared after each row (`showThread_spec`).
-/
import Lkp.Tasks.Task

namespace Lkp.Tasks.ThrdShowall

/-- `TMPMAX` -/
def TMPMAX : Nat := 128

/-- The line of `hdr` that names the columns. -/
def columns : String :=
  "    TGID     PID         current           stack-start         Thread Name     MT? # thrds\n"

/-- `hdr` -/
def hdr : Buf :=
  let line := ascii (List.replicate 90 '-' ++ ['\n'])
  line ++ ascii columns.toList ++ line

/-- `tmp1`, `tmp2` and `tmp3`, and what was done so far. -/
structure St where
  tmp1 : Buf
  tmp2 : Buf
  tmp3 : Buf
  log : Log

/-- `pr_info("%s%s%s\n", tmp1, tmp2, tmp3)`, `total++`, and the three `memset`s. -/
def St.print (s : St) : St where
  tmp1 := List.replicate TMPMAX 0
  tmp2 := List.replicate TMPMAX 0
  tmp3 := List.replicate TMPMAX 0
  log :=
    { s.log with
      rows := s.log.rows ++ [cstr s.tmp1 ++ cstr s.tmp2 ++ cstr s.tmp3 ++ newline]
      total := s.log.total + 1 }

/-- `"%8d %8d  0x%px 0x%px"` -/
def idsField (tgid pid : BitVec 32) (t stack : BitVec 64) : Buf :=
  padLeft 8 (signed tgid.toInt) ++ ascii [' '] ++ padLeft 8 (signed pid.toInt) ++
    ascii [' ', ' ', '0', 'x'] ++ pointer t ++ ascii [' ', '0', 'x'] ++ pointer stack

/-- The body of the loop, for a thread and its process. -/
def showThread (s : St) (gt : Process × Task) : Option St :=
  let p := gt.1
  let t := gt.2
  (Klib.snprintfLkp (TMPMAX - 1) (idsField p.g.tgid t.pid t.addr t.stack) s.tmp1).bind fun r1 =>
  (Klib.snprintfLkp (TMPMAX - 1) (nameField p.g.mm t.comm.bytes) s.tmp2).bind fun r2 =>
  if isMain p t then
    (Klib.snprintfLkp (TMPMAX - 1) (countField p.nrThreads) s.tmp3).map fun r3 =>
      St.print
        { tmp1 := r1.1, tmp2 := r2.1, tmp3 := r3.1
          log := ((s.log.call r1.2).call r2.2).call r3.2 }
  else
    some (St.print
      { s with
        tmp1 := r1.1, tmp2 := r2.1
        log := (s.log.call r1.2).call r2.2 })

/-- `disp_idle_thread`, which prints `"%8d %8d  0x%px 0x%px [%16s]\n"` of `init_task`. -/
def idleRow (t : Task) : Buf :=
  idsField t.pid t.pid t.addr t.stack ++ nameField false t.comm.bytes ++ newline

/-- `showthrds`; the buffers are cleared before the loop, and the idle thread is counted. -/
def showthrds (initTask : Task) (ps : List Process) : Option St :=
  (traversal ps).foldlM showThread
    { tmp1 := List.replicate TMPMAX 0, tmp2 := List.replicate TMPMAX 0
      tmp3 := List.replicate TMPMAX 0
      log := { calls := [], rows := [hdr, idleRow initTask], total := 1 } }

/-- A row, without its newline. -/
def rowText (gt : Process × Task) : Buf :=
  idsField gt.1.g.tgid gt.2.pid gt.2.addr gt.2.stack ++ nameField gt.1.g.mm gt.2.comm.bytes ++
    if isMain gt.1 gt.2 then countField gt.1.nrThreads else []

/-- Before a row the buffers have their sizes, and the one for the number is empty. -/
structure Clear (s : St) : Prop where
  tmp1 : s.tmp1.length = TMPMAX
  tmp2 : s.tmp2.length = TMPMAX
  tmp3 : s.tmp3.length = TMPMAX
  empty : cstr s.tmp3 = []

variable {s : St} {v w : BitVec 32} {p q : BitVec 64} {gt : Process × Task}

theorem clear_print : Clear s.print :=
  ⟨List.length_replicate, List.length_replicate, List.length_replicate, rfl⟩

theorem length_idsField_lt : (idsField v w p q).length < TMPMAX - 1 := by
  have hv := length_padLeft_int_le (v := v) (w := 8) (by decide)
  have hw := length_padLeft_int_le (v := w) (w := 8) (by decide)
  simp only [idsField, List.length_append, length_ascii, length_pointer, List.length_cons,
    List.length_nil, TMPMAX]
  omega

theorem noNul_idsField : NoNul (idsField v w p q) := by
  have hv : NoNul (padLeft 8 (signed v.toInt)) := (noNul_signed _).padLeft
  have hw : NoNul (padLeft 8 (signed w.toInt)) := (noNul_signed _).padLeft
  have hp := (noNul_pointer p).append (noNul_ascii (s := [' ', '0', 'x']) (by simp))
  have hids := (hv.append (noNul_ascii (s := [' ']) (by simp))).append hw
  have hall := ((hids.append (noNul_ascii (s := [' ', ' ', '0', 'x']) (by simp))).append
    hp).append (noNul_pointer q)
  simpa [idsField] using hall

/-- **A pass prints the row of its thread.** -/
theorem showThread_spec (s : St) (gt : Process × Task) (hs : Clear s) :
    ∃ s', showThread s gt = some s' ∧ Clear s' ∧
      s.log.Extends s'.log [rowText gt ++ newline] := by
  have hname := length_nameField gt.1.g.mm gt.2.comm
  have hcount := length_countField_le (v := gt.1.nrThreads)
  obtain ⟨d1, c1, h1, hc1, hstr1, -⟩ := Klib.snprintfLkp_whole (d := s.tmp1)
    (noNul_idsField (v := gt.1.g.tgid) (w := gt.2.pid) (p := gt.2.addr) (q := gt.2.stack))
    length_idsField_lt (by rw [hs.tmp1]; decide)
  obtain ⟨d2, c2, h2, hc2, hstr2, -⟩ := Klib.snprintfLkp_whole (d := s.tmp2)
    (noNul_nameField gt.1.g.mm gt.2.comm)
    (show _ < TMPMAX - 1 by rw [hname]; decide) (by rw [hs.tmp2]; decide)
  obtain ⟨d3, c3, h3, hc3, hstr3, -⟩ := Klib.snprintfLkp_whole (d := s.tmp3)
    (noNul_countField (v := gt.1.nrThreads))
    (show _ < TMPMAX - 1 by unfold TMPMAX; omega) (by rw [hs.tmp3]; decide)
  rw [showThread, h1, Option.bind_some, h2, Option.bind_some]
  by_cases hmain : isMain gt.1 gt.2 = true
  · rw [if_pos hmain, h3, Option.map_some]
    refine ⟨_, rfl, clear_print, ?_, rfl, [c1, c2, c3], ?_, ?_⟩
    · show s.log.rows ++ [cstr d1 ++ cstr d2 ++ cstr d3 ++ newline] = _
      rw [hstr1, hstr2, hstr3, rowText, if_pos hmain]
    · simp [St.print, Log.call]
    · simp [hc1, hc2, hc3]
  · rw [if_neg hmain]
    refine ⟨_, rfl, clear_print, ?_, rfl, [c1, c2], ?_, ?_⟩
    · show s.log.rows ++ [cstr d1 ++ cstr d2 ++ cstr s.tmp3 ++ newline] = _
      rw [hstr1, hstr2, hs.empty, rowText, if_neg hmain]
    · simp [St.print, Log.call]
    · simp [hc1, hc2]

/-- **All threads are shown**, and everything that is printed on the way is complete. -/
theorem showthrds_spec (initTask : Task) (ps : List Process) :
    ∃ s, showthrds initTask ps = some s ∧ (∀ c ∈ s.log.calls, c.Complete) ∧
      s.log.rows =
        hdr :: idleRow initTask :: (traversal ps).map (fun gt => rowText gt ++ newline) ∧
      s.log.total = 1 + BitVec.ofNat 32 (traversal ps).length := by
  obtain ⟨s, hs, -, hext⟩ := foldlM_extends showThread_spec (traversal ps)
    (s := { tmp1 := List.replicate TMPMAX 0, tmp2 := List.replicate TMPMAX 0
            tmp3 := List.replicate TMPMAX 0
            log := { calls := [], rows := [hdr, idleRow initTask], total := 1 } })
    ⟨List.length_replicate, List.length_replicate, List.length_replicate, rfl⟩
  obtain ⟨cs, hcs, hall⟩ := hext.calls
  refine ⟨s, hs, ?_, hext.rows, ?_⟩
  · rw [hcs]
    exact hall
  · rw [hext.total, List.length_map]

end Lkp.Tasks.ThrdShowall
