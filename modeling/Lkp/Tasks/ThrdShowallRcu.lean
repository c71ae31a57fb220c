/-
The module that shows all threads under RCU.

A row is put together in `buf`: the first field is written there, and every other one into
`tmp` and appended with `strncat`.  That is bounded by the size of `tmp`, not by the room
there is left in `buf`; but no row has more than 96 characters (`length_rowText`).  Both
buffers are cleared after a row, so that the next one starts anew whatever was in them
(`showThread_spec`).
-/
import Lkp.Tasks.Task

namespace Lkp.Tasks.ThrdShowallRcu

/-- `BUFMAX` -/
def BUFMAX : Nat := 256

/-- `TMPMAX` -/
def TMPMAX : Nat := 128

/-- The line of `hdr` that names the columns. -/
def columns : String :=
  "    TGID   PID         current        stack-start      Thread Name   MT? # thrds\n"

/-- `hdr` -/
def hdr : Buf :=
  let line := ascii (List.replicate 80 '-' ++ ['\n'])
  line ++ ascii columns.toList ++ line

/-- `buf` and `tmp`, and what was done so far. -/
structure St where
  buf : Buf
  tmp : Buf
  log : Log

/-- `snprintf_lkp(buf, maxsize, ..)` -/
def St.write (s : St) (maxsize : Nat) (t : Buf) : Option St :=
  (Klib.snprintfLkp maxsize t s.buf).map fun r =>
    { s with buf := r.1, log := s.log.call r.2 }

/-- `snprintf_lkp(tmp, maxsize, ..)`, and then `strncat(buf, tmp, n)`. -/
def St.add (s : St) (maxsize : Nat) (t : Buf) (n : Nat) : Option St :=
  (Klib.snprintfLkp maxsize t s.tmp).bind fun r =>
    (strncat s.buf r.1 n).map fun buf =>
      { buf := buf, tmp := r.1, log := s.log.call r.2 }

/-- `pr_info("%s", buf)`, `total++`, and the two `memset`s. -/
def St.print (s : St) : St where
  buf := List.replicate BUFMAX 0
  tmp := List.replicate TMPMAX 0
  log := { s.log with rows := s.log.rows ++ [cstr s.buf], total := s.log.total + 1 }

/-- `"%6d %6d "` -/
def idsField (tgid pid : BitVec 32) : Buf :=
  padLeft 6 (signed tgid.toInt) ++ ascii [' '] ++ padLeft 6 (signed pid.toInt) ++ ascii [' ']

/-- `"  0x%px"` -/
def ptrField (p : BitVec 64) : Buf := ascii [' ', ' ', '0', 'x'] ++ pointer p

/-- The body of the loop, for a thread and its process. -/
def showThread (s : St) (gt : Process × Task) : Option St :=
  let p := gt.1
  let t := gt.2
  (s.write (BUFMAX - 1) (idsField p.g.tgid t.pid)).bind fun s =>
  (s.add (TMPMAX - 1) (ptrField t.addr) TMPMAX).bind fun s =>
  (s.add (TMPMAX - 1) (ptrField t.stack) TMPMAX).bind fun s =>
  (s.add (TASK_COMM_LEN + 4) (nameField p.g.mm t.comm.bytes) TMPMAX).bind fun s =>
  (if isMain p t then s.add (TMPMAX - 1) (countField p.nrThreads) TMPMAX else some s).bind fun s =>
  (s.add 2 newline 2).map St.print

/-- `showthrds_rcu`; the buffers hold anything at first. -/
def showthrdsRcu (buf tmp : Buf) (ps : List Process) : Option St :=
  (traversal ps).foldlM showThread
    { buf := buf, tmp := tmp, log := { calls := [], rows := [hdr], total := 0 } }

/-- The fields of a row. -/
def fields (gt : Process × Task) : List Buf :=
  [idsField gt.1.g.tgid gt.2.pid, ptrField gt.2.addr, ptrField gt.2.stack,
    nameField gt.1.g.mm gt.2.comm.bytes] ++
    if isMain gt.1 gt.2 then [countField gt.1.nrThreads] else []

/-- A row, without its newline. -/
def rowText (gt : Process × Task) : Buf := (fields gt).flatten

/-- The buffers have their sizes. -/
structure Sized (s : St) : Prop where
  buf : s.buf.length = BUFMAX
  tmp : s.tmp.length = TMPMAX

/-- In the middle of a row: `buf` holds `t`, and all calls since `l` were complete. -/
structure Holds (l : Log) (t : Buf) (s : St) : Prop where
  sized : Sized s
  text : cstr s.buf = t
  rows : s.log.rows = l.rows
  total : s.log.total = l.total
  calls : ∃ cs, s.log.calls = l.calls ++ cs ∧ ∀ c ∈ cs, c.Complete

variable {s : St} {l : Log} {t u : Buf} {maxsize n : Nat} {v w : BitVec 32} {p : BitVec 64}
  {gt : Process × Task}

theorem length_idsField_le : (idsField v w).length ≤ 24 := by
  have hv := length_padLeft_int_le (v := v) (w := 6) (by decide)
  have hw := length_padLeft_int_le (v := w) (w := 6) (by decide)
  simp only [idsField, List.length_append, length_ascii, List.length_singleton]
  omega

theorem noNul_idsField : NoNul (idsField v w) :=
  (((noNul_signed _).padLeft.append (noNul_ascii (by simp))).append
    (noNul_signed _).padLeft).append (noNul_ascii (by simp))

theorem length_ptrField : (ptrField p).length = 20 := by simp [ptrField]

theorem noNul_ptrField : NoNul (ptrField p) :=
  (noNul_ascii (by simp)).append (noNul_pointer p)

/-- The first field takes the place of whatever `buf` holds. -/
theorem Holds.write (hs : Sized s) (ht : NoNul t) (h : t.length < maxsize)
    (hmax : maxsize ≤ BUFMAX) : ∃ s', s.write maxsize t = some s' ∧ Holds s.log t s' := by
  obtain ⟨d, c, heq, hcomplete, hstr, hlen⟩ :=
    Klib.snprintfLkp_whole ht h (d := s.buf) (by rw [hs.buf]; exact hmax)
  refine ⟨{ s with buf := d, log := s.log.call c },
    by rw [St.write, heq, Option.map_some], ⟨?_, hs.tmp⟩, hstr, rfl, rfl, [c], rfl, ?_⟩
  · rw [hlen, hs.buf]
  · intro c' hc'
    rw [List.mem_singleton.mp hc']
    exact hcomplete

/-- A further field is appended to it. -/
theorem Holds.add (h : Holds l t s) (hu : NoNul u) (hlt : u.length < maxsize)
    (hmax : maxsize ≤ TMPMAX) (hn : u.length ≤ n) (hroom : t.length + u.length < BUFMAX) :
    ∃ s', s.add maxsize u n = some s' ∧ Holds l (t ++ u) s' := by
  obtain ⟨d, c, heq, hcomplete, hstr, hlen⟩ :=
    Klib.snprintfLkp_whole hu hlt (d := s.tmp) (by rw [h.sized.tmp]; exact hmax)
  have hzero : (0 : UInt8) ∈ d := by
    by_contra hnot
    have hself := cstr_eq_self hnot
    rw [hstr] at hself
    rw [← hself, h.sized.tmp] at hlen
    omega
  obtain ⟨b, hb, hcat, hblen⟩ := strncat_whole (d := s.buf) (n := n) hzero (by rw [hstr]; exact hn)
    (by rw [h.text, hstr, h.sized.buf]; exact hroom)
  obtain ⟨cs, hcs, hall⟩ := h.calls
  refine ⟨{ buf := b, tmp := d, log := s.log.call c },
    by rw [St.add, heq, Option.bind_some, hb, Option.map_some], ⟨?_, ?_⟩, ?_, h.rows, h.total,
    cs ++ [c], ?_, fun c' hc' => ?_⟩
  · rw [hblen, h.sized.buf]
  · rw [hlen, h.sized.tmp]
  · rw [hcat, h.text, hstr]
  · rw [Log.call, hcs, List.append_assoc]
  · rcases List.mem_append.mp hc' with hold | hnew
    · exact hall c' hold
    · rw [List.mem_singleton.mp hnew]
      exact hcomplete

/-- A row is printed as `buf` holds it. -/
theorem Holds.print (h : Holds l t s) : Sized s.print ∧ l.Extends s.print.log [t] := by
  refine ⟨⟨List.length_replicate, List.length_replicate⟩, ?_, ?_, h.calls⟩
  · show s.log.rows ++ [cstr s.buf] = l.rows ++ [t]
    rw [h.rows, h.text]
  · show s.log.total + 1 = l.total + BitVec.ofNat 32 1
    rw [h.total]
    rfl

/-- The count is a field of the rows that have it. -/
def countText (gt : Process × Task) : Buf :=
  if isMain gt.1 gt.2 then countField gt.1.nrThreads else []

theorem rowText_eq : rowText gt =
    idsField gt.1.g.tgid gt.2.pid ++ ptrField gt.2.addr ++ ptrField gt.2.stack ++
      nameField gt.1.g.mm gt.2.comm.bytes ++ countText gt := by
  unfold rowText fields countText
  split <;> simp

theorem length_countText_le (gt : Process × Task) : (countText gt).length ≤ 12 := by
  unfold countText
  split
  · exact length_countField_le
  · simp

/-- A row with its newline has at most 96 characters. -/
theorem length_rowText (gt : Process × Task) : (rowText gt ++ newline).length ≤ 96 := by
  have hids := length_idsField_le (v := gt.1.g.tgid) (w := gt.2.pid)
  have hcount := length_countText_le gt
  simp only [rowText_eq, List.length_append, length_ptrField, length_nameField, newline,
    List.length_singleton]
  omega

/-- The last field, if the row has it. -/
theorem Holds.addCount (h : Holds l t s) (gt : Process × Task) (hroom : t.length + 12 < BUFMAX) :
    ∃ s', (if isMain gt.1 gt.2 then s.add (TMPMAX - 1) (countField gt.1.nrThreads) TMPMAX
      else some s) = some s' ∧ Holds l (t ++ countText gt) s' := by
  unfold countText
  split
  · have hlen := length_countField_le (v := gt.1.nrThreads)
    exact h.add noNul_countField (by unfold TMPMAX; omega) (by decide) (by unfold TMPMAX; omega)
      (by omega)
  · exact ⟨s, rfl, by rwa [List.append_nil]⟩

/-- **A pass prints the row of its thread.** -/
theorem showThread_spec (s : St) (gt : Process × Task) (hs : Sized s) :
    ∃ s', showThread s gt = some s' ∧ Sized s' ∧
      s.log.Extends s'.log [rowText gt ++ newline] := by
  have hids := length_idsField_le (v := gt.1.g.tgid) (w := gt.2.pid)
  have hptr : ∀ p, (ptrField p).length = 20 := fun p => length_ptrField
  have hname := length_nameField gt.1.g.mm gt.2.comm
  -- the row has room as a whole, so each part of it has
  have hrow := length_rowText gt
  simp only [rowText_eq, List.length_append, newline, List.length_singleton] at hrow
  obtain ⟨s1, h1, hold⟩ := Holds.write hs noNul_idsField
    (show (idsField gt.1.g.tgid gt.2.pid).length < BUFMAX - 1 by unfold BUFMAX; omega)
    (by decide)
  obtain ⟨s2, h2, hold⟩ := hold.add (noNul_ptrField (p := gt.2.addr))
    (show _ < TMPMAX - 1 by rw [hptr]; decide) (by decide)
    (show _ ≤ TMPMAX by rw [hptr]; decide) (by unfold BUFMAX; omega)
  obtain ⟨s3, h3, hold⟩ := hold.add (noNul_ptrField (p := gt.2.stack))
    (show _ < TMPMAX - 1 by rw [hptr]; decide) (by decide)
    (show _ ≤ TMPMAX by rw [hptr]; decide)
    (by rw [List.length_append]; unfold BUFMAX; omega)
  obtain ⟨s4, h4, hold⟩ := hold.add (noNul_nameField gt.1.g.mm gt.2.comm)
    (show _ < TASK_COMM_LEN + 4 by rw [hname]; decide) (by decide)
    (show _ ≤ TMPMAX by rw [hname]; decide)
    (by rw [List.length_append, List.length_append]; unfold BUFMAX; omega)
  obtain ⟨s5, h5, hold⟩ := hold.addCount gt
    (by simp only [List.length_append]; unfold BUFMAX; omega)
  obtain ⟨s6, h6, hold⟩ := hold.add noNul_newline (show _ < 2 by decide) (by decide)
    (show _ ≤ 2 by decide)
    (by simp only [List.length_append, newline, List.length_singleton]
        unfold BUFMAX
        omega)
  refine ⟨s6.print, ?_, hold.print.1, ?_⟩
  · rw [showThread, h1, Option.bind_some, h2, Option.bind_some, h3, Option.bind_some, h4,
      Option.bind_some, h5, Option.bind_some, h6, Option.map_some]
  · rw [rowText_eq]
    exact hold.print.2

/-- **All threads are shown**, and everything that is printed on the way is complete. -/
theorem showthrdsRcu_spec {buf tmp : Buf} (hbuf : buf.length = BUFMAX)
    (htmp : tmp.length = TMPMAX) (ps : List Process) :
    ∃ s, showthrdsRcu buf tmp ps = some s ∧ (∀ c ∈ s.log.calls, c.Complete) ∧
      s.log.rows = hdr :: (traversal ps).map (fun gt => rowText gt ++ newline) ∧
      s.log.total = BitVec.ofNat 32 (traversal ps).length := by
  obtain ⟨s, hs, -, hext⟩ := foldlM_extends showThread_spec (traversal ps)
    (s := { buf := buf, tmp := tmp, log := { calls := [], rows := [hdr], total := 0 } })
    ⟨hbuf, htmp⟩
  obtain ⟨cs, hcs, hall⟩ := hext.calls
  refine ⟨s, hs, ?_, hext.rows, ?_⟩
  · rw [hcs]
    exact hall
  · rw [hext.total, List.length_map]
    exact BitVec.zero_add _

/-- No row ends with two newlines. -/
theorem getLast?_rowText : (rowText gt).getLast? ≠ some 10 := by
  have hne : nameField gt.1.g.mm gt.2.comm.bytes ≠ [] := by
    intro hnil
    have hlen := length_nameField gt.1.g.mm gt.2.comm
    rw [hnil] at hlen
    cases hlen
  rw [rowText_eq, countText]
  split
  · have hcount : countField gt.1.nrThreads ≠ [] := List.cons_ne_nil _ _
    rw [List.getLast?_append_of_ne_nil _ hcount]
    exact getLast?_countField
  · rw [List.append_nil, List.getLast?_append_of_ne_nil _ hne]
    exact getLast?_nameField

end Lkp.Tasks.ThrdShowallRcu
