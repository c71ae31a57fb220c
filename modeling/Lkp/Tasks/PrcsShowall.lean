/-
The module that shows all processes, one row for each; and what is true of the rows of all
three modules (`rowsComplete`).
-/
import Lkp.Tasks.ThrdShowall
import Lkp.Tasks.ThrdShowallRcu

namespace Lkp.Tasks

namespace PrcsShowall

/-- `MAXLEN` -/
def MAXLEN : Nat := 128

/-- `hdr`, and the newline it is printed with. -/
def hdr : Buf := ascii "     Name       |  TGID  |   PID  |  RUID |  EUID\n".toList

/-- `numread`, and what was done so far.  `tmp` is cleared before a row. -/
structure St where
  numread : BitVec 32
  log : Log

/-- `"%-16s|%8d|%8d|%7u|%7u\n"` -/
def rowText (p : Task) : Buf :=
  padRight 16 p.comm.bytes ++ ascii ['|'] ++ padLeft 8 (signed p.tgid.toInt) ++ ascii ['|'] ++
    padLeft 8 (signed p.pid.toInt) ++ ascii ['|'] ++ padLeft 7 (decimal p.uid.toNat) ++
    ascii ['|'] ++ padLeft 7 (decimal p.euid.toNat) ++ newline

/-- The body of the loop, for a process. -/
def showProcess (s : St) (p : Task) : Option St :=
  (Klib.snprintfLkp 128 (rowText p) (List.replicate MAXLEN 0)).map fun r =>
    { numread := s.numread + BitVec.ofNat 32 r.2.ret
      log :=
        { calls := s.log.calls ++ [r.2]
          rows := s.log.rows ++ [cstr r.1]
          total := s.log.total + 1 } }

/-- `show_prcs_in_tasklist` -/
def showPrcsInTasklist (ps : List Process) : Option St :=
  (ps.map Process.g).foldlM showProcess
    { numread := 0, log := { calls := [], rows := [hdr], total := 0 } }

theorem length_rowText_lt (p : Task) : (rowText p).length < MAXLEN := by
  have hcomm := p.comm.short
  have htgid := length_padLeft_int_le (v := p.tgid) (w := 8) (by decide)
  have hpid := length_padLeft_int_le (v := p.pid) (w := 8) (by decide)
  have huid := length_decimal_uint_le p.uid
  have heuid := length_decimal_uint_le p.euid
  unfold TASK_COMM_LEN at hcomm
  simp only [rowText, List.length_append, length_ascii, List.length_singleton, newline,
    length_padRight, MAXLEN]
  rw [length_padLeft (t := decimal _), length_padLeft (t := decimal _)]
  omega

theorem noNul_rowText (p : Task) : NoNul (rowText p) := by
  have hbar : NoNul (ascii ['|']) := noNul_ascii (by simp)
  have hname : NoNul (padRight 16 p.comm.bytes) := p.comm.noNul.padRight
  have htgid : NoNul (padLeft 8 (signed p.tgid.toInt)) := (noNul_signed _).padLeft
  have hpid : NoNul (padLeft 8 (signed p.pid.toInt)) := (noNul_signed _).padLeft
  have huid : NoNul (padLeft 7 (decimal p.uid.toNat)) := (noNul_decimal _).padLeft
  have heuid : NoNul (padLeft 7 (decimal p.euid.toNat)) := (noNul_decimal _).padLeft
  exact ((((((((hname.append hbar).append htgid).append hbar).append hpid).append hbar).append
    huid).append hbar).append heuid).append noNul_newline

/-- **A pass prints the row of its process.** -/
theorem showProcess_spec (s : St) (p : Task) (_ : True) :
    ∃ s', showProcess s p = some s' ∧ True ∧ s.log.Extends s'.log [rowText p] := by
  obtain ⟨d, c, h, hc, hstr, -⟩ := Klib.snprintfLkp_whole (d := List.replicate MAXLEN 0)
    (noNul_rowText p) (length_rowText_lt p) (by rw [List.length_replicate])
  refine ⟨_, by rw [showProcess, show 128 = MAXLEN from rfl, h, Option.map_some], trivial, ?_, rfl,
    [c], rfl, ?_⟩
  · show s.log.rows ++ [cstr d] = s.log.rows ++ [rowText p]
    rw [hstr]
  · intro c' hc'
    rw [List.mem_singleton.mp hc']
    exact hc

/-- **All processes are shown**, and everything that is printed on the way is complete. -/
theorem showPrcsInTasklist_spec (ps : List Process) :
    ∃ s, showPrcsInTasklist ps = some s ∧ (∀ c ∈ s.log.calls, c.Complete) ∧
      s.log.rows = hdr :: (ps.map Process.g).map rowText ∧
      s.log.total = BitVec.ofNat 32 ps.length := by
  obtain ⟨s, hs, -, hext⟩ := foldlM_extends showProcess_spec (ps.map Process.g)
    (s := { numread := 0, log := { calls := [], rows := [hdr], total := 0 } }) trivial
  obtain ⟨cs, hcs, hall⟩ := hext.calls
  refine ⟨s, hs, ?_, hext.rows, ?_⟩
  · rw [hcs]
    exact hall
  · rw [hext.total, List.length_map, List.length_map]
    exact BitVec.zero_add _

end PrcsShowall

/--
All calls of `snprintf_lkp` are complete, in all three modules, and every process or thread
has the row that is its text.  Under RCU no `strncat` goes beyond `buf`, and what it holds in
the end, which is printed, is all fields of the row and one newline.
-/
structure RowsComplete (ps : List Process) (initTask : Task) (buf tmp : Buf) : Prop where
  prcs : ∃ s, PrcsShowall.showPrcsInTasklist ps = some s ∧ (∀ c ∈ s.log.calls, c.Complete) ∧
    s.log.rows = PrcsShowall.hdr :: (ps.map Process.g).map PrcsShowall.rowText
  thrds : ∃ s, ThrdShowall.showthrds initTask ps = some s ∧ (∀ c ∈ s.log.calls, c.Complete) ∧
    s.log.rows = ThrdShowall.hdr :: ThrdShowall.idleRow initTask ::
      (traversal ps).map fun gt => ThrdShowall.rowText gt ++ newline
  rcu : ∃ s, ThrdShowallRcu.showthrdsRcu buf tmp ps = some s ∧
    (∀ c ∈ s.log.calls, c.Complete) ∧
    s.log.rows = ThrdShowallRcu.hdr :: (traversal ps).map (fun gt =>
      (ThrdShowallRcu.fields gt).flatten ++ newline)
  single : ∀ gt ∈ traversal ps, (ThrdShowallRcu.fields gt).flatten.getLast? ≠ some 10

/-- **The rows are complete**, whatever the tasks and whatever the buffers hold at first. -/
theorem rowsComplete (ps : List Process) (initTask : Task) {buf tmp : Buf}
    (hbuf : buf.length = ThrdShowallRcu.BUFMAX) (htmp : tmp.length = ThrdShowallRcu.TMPMAX) :
    RowsComplete ps initTask buf tmp := by
  obtain ⟨s1, h1, hc1, hr1, -⟩ := PrcsShowall.showPrcsInTasklist_spec ps
  obtain ⟨s2, h2, hc2, hr2, -⟩ := ThrdShowall.showthrds_spec initTask ps
  obtain ⟨s3, h3, hc3, hr3, -⟩ := ThrdShowallRcu.showthrdsRcu_spec hbuf htmp ps
  refine ⟨⟨s1, h1, hc1, hr1⟩, ⟨s2, h2, hc2, hr2⟩, ⟨s3, h3, hc3, hr3⟩, fun gt _ => ?_⟩
  exact ThrdShowallRcu.getLast?_rowText

/-- A task with the longest name there is, and the largest numbers. -/
def task0 (pid : BitVec 32) : Task where
  tgid := 0x80000000
  pid := pid
  uid := 0xffffffff
  euid := 0xffffffff
  mm := true
  addr := 0xffff888000000000
  stack := 0xffffc90000000000
  comm := ⟨List.replicate 15 0x78, by decide, by unfold NoNul; decide⟩

/-- A process of two such threads, with buffers that hold no string at first. -/
theorem rowsComplete_task0 :
    RowsComplete [⟨task0 0x80000000, 2, [task0 0x80000000, task0 0x80000001]⟩] (task0 0)
      (List.replicate 256 0xff) (List.replicate 128 0xff) :=
  rowsComplete _ _ List.length_replicate List.length_replicate

end Lkp.Tasks
