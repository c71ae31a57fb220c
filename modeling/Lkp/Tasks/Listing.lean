/-
What the two modules that show all threads make of a snapshot.

In a snapshot every process has its leader as its first thread, and that is the only one
whose PID is the TGID (`ThreadGroup`).  So each of the two lists the processes one after
another, with a row for every thread, and the column for the number of threads is blank but
in the row of the leader of a userspace process that has several (`Entry`).  A row is a
function of its entry alone: what the buffers held before it does not show.
-/
import Lkp.Tasks.PrcsShowall

namespace Lkp.Tasks

/-- A process as the kernel keeps it: its leader, the other threads, and `get_nr_threads`. -/
structure ThreadGroup where
  leader : Task
  others : List Task
  nrThreads : BitVec 32
  tgid : leader.tgid = leader.pid
  notLeader : ∀ t ∈ others, t.pid ≠ leader.pid
  counted : nrThreads.toInt = (others.length + 1 : Nat)

namespace ThreadGroup

def threads (g : ThreadGroup) : List Task := g.leader :: g.others

/-- What the modules see of it. -/
def process (g : ThreadGroup) : Process where
  g := g.leader
  nrThreads := g.nrThreads
  threads := g.threads

/-- It has an `mm` and more than one thread. -/
def Multithreaded (g : ThreadGroup) : Prop := g.leader.mm = true ∧ 1 < g.threads.length

instance : DecidablePred Multithreaded := fun g =>
  inferInstanceAs (Decidable (g.leader.mm = true ∧ 1 < g.threads.length))

/-- The number of its threads, in three columns after a blank. -/
def number (g : ThreadGroup) : Buf := ascii [' '] ++ padLeft 3 (decimal g.threads.length)

end ThreadGroup

/-- One line of the list: a thread, the leader of its process, and the column for the number. -/
structure Entry where
  leader : Task
  thread : Task
  count : Buf

/-- The lines of a process. -/
def ThreadGroup.entries (g : ThreadGroup) : List Entry :=
  { leader := g.leader, thread := g.leader, count := if g.Multithreaded then g.number else [] } ::
    g.others.map fun t => { leader := g.leader, thread := t, count := [] }

/-- The row of a line, where `cols` is what stands before the column for the number. -/
def Entry.row (cols : Task → Task → Buf) (e : Entry) : Buf :=
  cols e.leader e.thread ++ e.count ++ newline

/-- The columns of `showthrds` before the number. -/
def ThrdShowall.columnsOf (g t : Task) : Buf :=
  idsField g.tgid t.pid t.addr t.stack ++ nameField g.mm t.comm.bytes

/-- The columns of `showthrds_rcu` before the number. -/
def ThrdShowallRcu.columnsOf (g t : Task) : Buf :=
  idsField g.tgid t.pid ++ ptrField t.addr ++ ptrField t.stack ++ nameField g.mm t.comm.bytes

/--
After the rows `first`, a row was printed for every thread, in the order of the snapshot,
with the number of threads in one row of every process that has several; and `total`
is their number, counted from `start`.
-/
structure Lists (gs : List ThreadGroup) (cols : Task → Task → Buf) (first : List Buf)
    (start : Nat) (log : Log) : Prop where
  rows : log.rows = first ++ (gs.flatMap ThreadGroup.entries).map (Entry.row cols)
  threads : (gs.flatMap ThreadGroup.entries).map Entry.thread = gs.flatMap ThreadGroup.threads
  counts : ∀ g ∈ gs, g.entries.filter (fun e => e.count ≠ []) =
    if g.Multithreaded then [⟨g.leader, g.leader, g.number⟩] else []
  total : log.total = BitVec.ofNat 32 (start + (gs.flatMap ThreadGroup.threads).length)
  /-- An `int` holds the number, as long as it can. -/
  returns : start + (gs.flatMap ThreadGroup.threads).length < 2 ^ 31 →
    log.total.toInt = (start + (gs.flatMap ThreadGroup.threads).length : Nat)

/-! ### Entries -/

variable {g : ThreadGroup} {gs : List ThreadGroup} {t : Task} {cols : Task → Task → Buf}

theorem map_thread_entries (g : ThreadGroup) : g.entries.map Entry.thread = g.threads := by
  rw [ThreadGroup.entries, List.map_cons, List.map_map]
  exact congrArg _ (List.map_id g.others)

theorem number_ne_nil : g.number ≠ [] := List.cons_ne_nil _ _

/-- **One line of a process shows the number, or none does.** -/
theorem filter_count (g : ThreadGroup) : g.entries.filter (fun e => e.count ≠ []) =
    if g.Multithreaded then [⟨g.leader, g.leader, g.number⟩] else [] := by
  have hothers : (g.others.map fun t => Entry.mk g.leader t []).filter
      (fun e => e.count ≠ []) = [] := by
    refine List.filter_eq_nil_iff.mpr fun e he => ?_
    obtain ⟨t, -, rfl⟩ := List.mem_map.mp he
    simp
  rw [ThreadGroup.entries, List.filter_cons, hothers]
  by_cases hmulti : g.Multithreaded
  · simp [hmulti, number_ne_nil]
  · simp [hmulti]

/-! ### What the modules test -/

theorem isMain_leader : isMain g.process g.leader = decide g.Multithreaded := by
  have hcount := g.counted
  have hlen : g.threads.length = g.others.length + 1 := rfl
  have hmany : decide (1 < g.nrThreads.toInt) = decide (1 < g.threads.length) :=
    decide_eq_decide.mpr (by omega)
  rw [isMain, ThreadGroup.process, decide_eq_true g.tgid, Bool.and_true, hmany]
  rw [Bool.eq_iff_iff, Bool.and_eq_true, decide_eq_true_iff, decide_eq_true_iff]
  rfl

theorem isMain_other (ht : t ∈ g.others) : isMain g.process t = false := by
  have hne : ¬ g.leader.tgid = t.pid := by
    rw [g.tgid]
    exact fun heq => g.notLeader t ht heq.symm
  rw [isMain, ThreadGroup.process, decide_eq_false hne, Bool.and_false, Bool.false_and]

theorem countField_nrThreads : countField g.nrThreads = g.number := by
  rw [countField, g.counted, signed_natCast]
  rfl

/-- A column that is shown by the test of the modules is the one of the list. -/
theorem map_row_entries {row : Process × Task → Buf}
    (hrow : ∀ p t, row (p, t) =
      cols p.g t ++ if isMain p t then countField p.nrThreads else []) :
    (g.threads.map fun t => row (g.process, t) ++ newline) = g.entries.map (Entry.row cols) := by
  rw [ThreadGroup.threads, ThreadGroup.entries, List.map_cons, List.map_cons, List.map_map]
  congr 1
  · have hcount : countField g.process.nrThreads = g.number := countField_nrThreads
    rw [hrow, isMain_leader, hcount, Entry.row]
    by_cases hmulti : g.Multithreaded
    · simp [hmulti, ThreadGroup.process]
    · simp [hmulti, ThreadGroup.process]
  · refine List.map_congr_left fun t ht => ?_
    rw [hrow, isMain_other ht]
    rfl

theorem map_row_traversal {row : Process × Task → Buf}
    (hrow : ∀ p t, row (p, t) =
      cols p.g t ++ if isMain p t then countField p.nrThreads else []) :
    ((traversal (gs.map ThreadGroup.process)).map fun gt => row gt ++ newline) =
      (gs.flatMap ThreadGroup.entries).map (Entry.row cols) := by
  induction gs with
  | nil => rfl
  | cons g gs ih =>
      rw [List.map_cons, traversal, List.flatMap_cons, List.map_append, List.flatMap_cons,
        List.map_append, ← map_row_entries hrow, List.map_map]
      exact congrArg _ ih

theorem length_traversal (gs : List ThreadGroup) :
    (traversal (gs.map ThreadGroup.process)).length =
      (gs.flatMap ThreadGroup.threads).length := by
  induction gs with
  | nil => rfl
  | cons g gs ih =>
      rw [List.map_cons, traversal, List.flatMap_cons, List.length_append, List.length_map,
        List.flatMap_cons, List.length_append]
      exact congrArg _ ih

/-- What is left to check of a module: its rows, and its `total`. -/
theorem lists_of_rows {row : Process × Task → Buf} {first : List Buf} {start : Nat} {log : Log}
    (hrow : ∀ p t, row (p, t) =
      cols p.g t ++ if isMain p t then countField p.nrThreads else [])
    (hrows : log.rows = first ++
      (traversal (gs.map ThreadGroup.process)).map fun gt => row gt ++ newline)
    (htotal : log.total = BitVec.ofNat 32 start +
      BitVec.ofNat 32 (traversal (gs.map ThreadGroup.process)).length) :
    Lists gs cols first start log := by
  have hsum : log.total =
      BitVec.ofNat 32 (start + (gs.flatMap ThreadGroup.threads).length) := by
    rw [htotal, length_traversal, BitVec.ofNat_add]
  refine ⟨?_, ?_, fun g _ => filter_count g, hsum, fun hlt => ?_⟩
  · rw [hrows, map_row_traversal hrow]
  · rw [List.map_flatMap]
    exact List.flatMap_congr fun g _ => map_thread_entries g
  · generalize start + (gs.flatMap ThreadGroup.threads).length = k at hsum hlt ⊢
    have hnat : (BitVec.ofNat 32 k).toNat = k := by
      rw [BitVec.toNat_ofNat]
      exact Nat.mod_eq_of_lt (by omega)
    rw [hsum, BitVec.toInt_eq_toNat_of_lt (by omega), hnat]

/-! ### The two modules -/

/-- Both modules list the threads, and `showthrds` counts the idle thread as well. -/
structure ListsThreads (gs : List ThreadGroup) (initTask : Task) (buf tmp : Buf) : Prop where
  thrds : ∃ s, ThrdShowall.showthrds initTask (gs.map ThreadGroup.process) = some s ∧
    Lists gs ThrdShowall.columnsOf [ThrdShowall.hdr, ThrdShowall.idleRow initTask] 1 s.log
  rcu : ∃ s, ThrdShowallRcu.showthrdsRcu buf tmp (gs.map ThreadGroup.process) = some s ∧
    Lists gs ThrdShowallRcu.columnsOf [ThrdShowallRcu.hdr] 0 s.log

/-- **Every thread has its row**, and every process that has several its number, once. -/
theorem listsThreads (gs : List ThreadGroup) (initTask : Task) {buf tmp : Buf}
    (hbuf : buf.length = ThrdShowallRcu.BUFMAX) (htmp : tmp.length = ThrdShowallRcu.TMPMAX) :
    ListsThreads gs initTask buf tmp := by
  obtain ⟨s, hs, -, hrows, htotal⟩ :=
    ThrdShowall.showthrds_spec initTask (gs.map ThreadGroup.process)
  obtain ⟨s', hs', -, hrows', htotal'⟩ :=
    ThrdShowallRcu.showthrdsRcu_spec hbuf htmp (gs.map ThreadGroup.process)
  refine ⟨⟨s, hs, lists_of_rows (fun p t => ?_) hrows htotal⟩,
    ⟨s', hs', lists_of_rows (fun p t => ?_) hrows' ?_⟩⟩
  · rfl
  · exact ThrdShowallRcu.rowText_eq
  · rw [htotal']
    exact (BitVec.zero_add _).symm

/-- A process of two threads. -/
def group0 : ThreadGroup where
  leader := { task0 500 with tgid := 500 }
  others := [{ task0 501 with tgid := 500 }]
  nrThreads := 2
  tgid := rfl
  notLeader := by simp [task0]
  counted := by decide

/-- The column for the number of each of its rows. -/
example : group0.entries.map Entry.count = [[32, 32, 32, 50], []] := by decide

/-- It is listed, with buffers that hold no string at first. -/
theorem listsThreads_group0 :
    ListsThreads [group0] (task0 0) (List.replicate 256 0xff) (List.replicate 128 0xff) :=
  listsThreads _ _ List.length_replicate List.length_replicate

end Lkp.Tasks
