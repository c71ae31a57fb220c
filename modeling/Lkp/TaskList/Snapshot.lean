/-
The texts a listing prints when nothing disturbs it.

`Lkp.Tasks` has what the modules make of a snapshot of the task list, down to the bytes of
each row; the listings of `Lkp.TaskList` go along the lists step by step, and have the
members of a row as they were read.  Where nothing disturbs a listing the two are the same:
what is printed for the snapshot of the lists is what the rows of the listing say
(`prints_snapshot`).
-/
import Lkp.TaskList.Alone
import Lkp.Tasks.Listing

namespace Lkp.TaskList

open Tasks (Task Process traversal nameField countField newline)

/-- A process as it stands. -/
def Sys.process (s : Sys) (g : Nat) : Option Process :=
  (s.heap.obj g).map fun og =>
    { g := og.task
      nrThreads := og.nrThreads
      threads := (g :: (s.threads g).rest s.heap.brk g).filterMap fun t =>
        (s.heap.obj t).map Obj.task }

/-- The task list as it stands. -/
def Sys.snapshot (s : Sys) : List Process :=
  (s.procs.rest s.heap.brk initTask).filterMap s.process

/-! ### Rows as texts -/

/-- The address of a task, as it is printed. -/
def Sys.addr (s : Sys) (t : Nat) : BitVec 64 :=
  ((s.heap.obj t).map fun ot => ot.task.addr).getD 0

/-- The number of threads is shown. -/
def Row.isMain (r : Row) : Bool :=
  r.mmAgain && decide (r.tgid = r.pid) && decide (1 < r.nrThreads.toInt)

/-- The column for it. -/
def Row.count (r : Row) : Buf := if r.isMain then countField r.nrThreads else []

/-- A row of `showthrds_rcu`. -/
def textRcu (s : Sys) (x : Shown) : Buf :=
  Tasks.ThrdShowallRcu.idsField x.row.tgid x.row.pid ++
    Tasks.ThrdShowallRcu.ptrField (s.addr x.t) ++ Tasks.ThrdShowallRcu.ptrField x.row.stack ++
    nameField x.row.mm x.row.comm.bytes ++ x.row.count ++ newline

/-- A row of `showthrds`. -/
def textThrds (s : Sys) (x : Shown) : Buf :=
  Tasks.ThrdShowall.idsField x.row.tgid x.row.pid (s.addr x.t) x.row.stack ++
    nameField x.row.mm x.row.comm.bytes ++ x.row.count ++ newline

/-- A row of `show_prcs_in_tasklist`. -/
def textPrcs (x : Shown) : Buf :=
  padRight 16 x.row.comm.bytes ++ ascii ['|'] ++ padLeft 8 (signed x.row.tgid.toInt) ++
    ascii ['|'] ++ padLeft 8 (signed x.row.pid.toInt) ++ ascii ['|'] ++
    padLeft 7 (decimal x.row.uid.toNat) ++ ascii ['|'] ++ padLeft 7 (decimal x.row.euid.toNat) ++
    newline

section Rows

variable {s : Sys} {M : Listing} {β : Type*}

/-- What is made of the elements is made of their images, if each has one. -/
theorem map_eq_map_filterMap {α γ : Type*} {f : α → Option β} {k : α → γ} {k' : β → γ} (xs : List α)
    (h : ∀ a ∈ xs, ∃ b, f a = some b ∧ k a = k' b) : xs.map k = (xs.filterMap f).map k' := by
  induction xs with
  | nil => rfl
  | cons a xs ih =>
      obtain ⟨b, hb, hk⟩ := h a (List.mem_cons_self ..)
      rw [List.filterMap_cons_some hb, List.map_cons, List.map_cons, hk]
      exact congrArg _ (ih fun a ha => h a (List.mem_cons_of_mem _ ha))

theorem exists_process (hS : Shape s) {g : Nat} (hg : g ∈ s.procs.rest s.heap.brk initTask) :
    s.procs.Listed g ∧ ∃ og, s.heap.obj g = some og := by
  have hlisted := (Chain.mem_rest.mp hg).2.1
  obtain ⟨og, hog, -⟩ := hS.alive g ((hS.link_process hlisted.ne_absent).trans hlisted)
  exact ⟨hlisted, og, hog⟩

theorem exists_thread (hS : Shape s) {g t : Nat} (hg : s.procs.Listed g)
    (ht : t ∈ g :: (s.threads g).rest s.heap.brk g) : ∃ ot, s.heap.obj t = some ot := by
  by_cases heq : t = g
  · obtain ⟨ot, hot, -⟩ := hS.alive t
      (heq ▸ (hS.link_process hg.ne_absent).trans hg)
    exact ⟨ot, hot⟩
  · have hlisted := (Chain.mem_rest.mp ((List.mem_cons.mp ht).resolve_left heq)).2.1
    obtain ⟨ot, hot, -⟩ := hS.alive t
      ((hS.link_thread hg.ne_absent hlisted.ne_absent heq).trans hlisted)
    exact ⟨ot, hot⟩

/-- The rows for all threads, and the traversal of the snapshot, are made of the same tasks. -/
theorem map_rows_threads (hS : Shape s) (hM : M.threads = true) {F : Shown → β}
    {G : Process × Task → β}
    (h : ∀ g t og ot P, s.heap.obj t = some ot → P.g = og.task → P.nrThreads = og.nrThreads →
      F ⟨g, t, rowOf og ot M.body .blank⟩ = G (P, ot.task)) :
    (s.rows M).map F = (traversal s.snapshot).map G := by
  rw [Sys.rows, Sys.snapshot, traversal, List.map_flatMap, List.map_flatMap, List.flatMap_def,
    List.flatMap_def]
  refine congrArg _ (map_eq_map_filterMap _ fun g hg => ?_)
  obtain ⟨hlisted, og, hog⟩ := exists_process hS hg
  refine ⟨_, by rw [Sys.process, hog]; rfl, ?_⟩
  rw [Sys.rowsOf, Sys.members, if_pos hM, List.map_map, List.map_map]
  refine map_eq_map_filterMap (f := fun t => (s.heap.obj t).map Obj.task) _ fun t ht => ?_
  obtain ⟨ot, hot⟩ := exists_thread hS hlisted ht
  refine ⟨ot.task, by rw [hot]; rfl, ?_⟩
  show F ⟨g, t, rowAt M s g t⟩ = G (_, ot.task)
  rw [rowAt, hog, hot]
  exact h g t og ot _ hot rfl rfl

/-- Those for the processes, and the processes of the snapshot. -/
theorem map_rows_processes (hS : Shape s) (hM : M.threads = false) {F : Shown → β} {G : Task → β}
    (h : ∀ g og, F ⟨g, g, rowOf og og M.body .blank⟩ = G og.task) :
    (s.rows M).map F = (s.snapshot.map Process.g).map G := by
  rw [Sys.rows, Sys.snapshot, List.map_flatMap, List.map_map]
  have hone : ∀ g, (s.rowsOf M g (s.members M g)).map F = [F ⟨g, g, rowAt M s g g⟩] := by
    intro g
    rw [Sys.rowsOf, Sys.members, if_neg (by simp [hM])]
    rfl
  rw [List.flatMap_congr fun g _ => hone g, ← List.map_eq_flatMap]
  refine map_eq_map_filterMap _ fun g hg => ?_
  obtain ⟨-, og, hog⟩ := exists_process hS hg
  refine ⟨_, by rw [Sys.process, hog]; rfl, ?_⟩
  rw [rowAt, hog]
  exact h g og

/-! ### The rows of each module -/

theorem addr_eq {t : Nat} {ot : Obj} (ht : s.heap.obj t = some ot) : s.addr t = ot.task.addr := by
  rw [Sys.addr, ht]
  rfl

theorem map_textRcu (hS : Shape s) : (s.rows showthrdsRcu).map (textRcu s) =
    (traversal s.snapshot).map fun gt => Tasks.ThrdShowallRcu.rowText gt ++ newline := by
  refine map_rows_threads hS rfl fun g t og ot P ht hg hn => ?_
  simp only [Tasks.ThrdShowallRcu.rowText_eq, Tasks.ThrdShowallRcu.countText, textRcu, addr_eq ht,
    hg, hn, Tasks.isMain]
  rfl

theorem map_textThrds (hS : Shape s) : (s.rows showthrds).map (textThrds s) =
    (traversal s.snapshot).map fun gt => Tasks.ThrdShowall.rowText gt ++ newline := by
  refine map_rows_threads hS rfl fun g t og ot P ht hg hn => ?_
  simp only [Tasks.ThrdShowall.rowText, textThrds, addr_eq ht, hg, hn, Tasks.isMain]
  rfl

theorem map_textPrcs (hS : Shape s) : (s.rows showPrcsInTasklist).map textPrcs =
    (s.snapshot.map Process.g).map Tasks.PrcsShowall.rowText :=
  map_rows_processes hS rfl fun _ _ => rfl

end Rows

/-! ### The result -/

/-- A listing that runs alone prints these rows, after the lines `first`, and returns `log.total`. -/
def Prints (L : Nat → Listing) (c : Nat) (s : Sys) (first : List Buf) (text : Shown → Buf)
    (log : Tasks.Log) : Prop :=
  ∃ s' shown, Returns (step L) returned c solo s .idle s' (.ret shown log.total) ∧
    log.rows = first ++ shown.map text

theorem prints_of_rows {L : Nat → Listing} {p : Pool Sys Call} {c : Nat} {first : List Buf}
    {text : Shown → Buf} {log : Tasks.Log} (hp : (machine L).Reachable p)
    (hself : selfLocks (L c).body = false) (hidle : p.call c = .idle)
    (hfree : ∀ o obj, p.shared.heap.obj o = some obj → obj.lock = none)
    (hrows : log.rows = first ++ (p.shared.rows (L c)).map text)
    (htotal : log.total = (L c).total + BitVec.ofNat 32 (p.shared.rows (L c)).length) :
    Prints L c p.shared first text log := by
  obtain ⟨s', shown, total, hrun, rfl, rfl, -⟩ := listing_alone L p hp c hself hidle hfree
  rw [← htotal] at hrun
  exact ⟨s', _, hrun, hrows⟩

/-- What the modules print for the snapshot is what their listings print. -/
structure PrintsSnapshot (L : Nat → Listing) (c : Nat) (s : Sys) (buf tmp : Buf) : Prop where
  rcu : L c = showthrdsRcu →
    ∃ st, Tasks.ThrdShowallRcu.showthrdsRcu buf tmp s.snapshot = some st ∧
      Prints L c s [Tasks.ThrdShowallRcu.hdr] (textRcu s) st.log
  thrds : L c = showthrds → ∀ idle, s.heap.obj initTask = some idle →
    ∃ st, Tasks.ThrdShowall.showthrds idle.task s.snapshot = some st ∧
      Prints L c s [Tasks.ThrdShowall.hdr, Tasks.ThrdShowall.idleRow idle.task] (textThrds s) st.log
  prcs : L c = showPrcsInTasklist →
    ∃ st, Tasks.PrcsShowall.showPrcsInTasklist s.snapshot = some st ∧
      Prints L c s [Tasks.PrcsShowall.hdr] textPrcs st.log

/--
**Where nothing disturbs it a listing prints the snapshot of the lists**, row by row, and
returns the same count.
-/
theorem prints_snapshot (L : Nat → Listing) (p : Pool Sys Call) (hp : (machine L).Reachable p)
    (c : Nat) (hidle : p.call c = .idle)
    (hfree : ∀ o obj, p.shared.heap.obj o = some obj → obj.lock = none) {buf tmp : Buf}
    (hbuf : buf.length = Tasks.ThrdShowallRcu.BUFMAX)
    (htmp : tmp.length = Tasks.ThrdShowallRcu.TMPMAX) :
    PrintsSnapshot L c p.shared buf tmp := by
  have hS := ((inductive_safe (fun _ _ => True)).holds hp).shared
  refine ⟨fun hL => ?_, fun hL idle hidleTask => ?_, fun hL => ?_⟩
  · obtain ⟨st, hst, -, hrows, htotal⟩ :=
      Tasks.ThrdShowallRcu.showthrdsRcu_spec hbuf htmp p.shared.snapshot
    have hmap := map_textRcu hS
    have hlen := congrArg List.length hmap
    rw [List.length_map, List.length_map] at hlen
    refine ⟨st, hst, prints_of_rows hp (by rw [hL]; decide) hidle hfree ?_ ?_⟩
    · rw [hrows, hL, hmap]
      rfl
    · rw [htotal, hL, hlen]
      exact (BitVec.zero_add _).symm
  · obtain ⟨st, hst, -, hrows, htotal⟩ :=
      Tasks.ThrdShowall.showthrds_spec idle.task p.shared.snapshot
    have hmap := map_textThrds hS
    have hlen := congrArg List.length hmap
    rw [List.length_map, List.length_map] at hlen
    refine ⟨st, hst, prints_of_rows hp (by rw [hL]; decide) hidle hfree ?_ ?_⟩
    · rw [hrows, hL, hmap]
      rfl
    · rw [htotal, hL, hlen]
      rfl
  · obtain ⟨st, hst, -, hrows, htotal⟩ :=
      Tasks.PrcsShowall.showPrcsInTasklist_spec p.shared.snapshot
    have hmap := map_textPrcs hS
    have hlen := congrArg List.length hmap
    rw [List.length_map, List.length_map, List.length_map] at hlen
    refine ⟨st, hst, prints_of_rows hp (by rw [hL]; decide) hidle hfree ?_ ?_⟩
    · rw [hrows, hL, hmap]
      rfl
    · rw [htotal, hL, hlen]
      exact (BitVec.zero_add _).symm

/-- A process of two threads, and no listing yet. -/
def runTwoThreads : (machine fun _ => showthrdsRcu).Run 2 :=
  .ofActs pool0 [(0, .kernel (.fork someTask 2)), (0, .kernel (.clone 1 someTask))] machine_init rfl

theorem prints_snapshot_two :
    PrintsSnapshot (fun _ => showthrdsRcu) 1 (runTwoThreads.state 2).shared
      (List.replicate 256 0) (List.replicate 128 0) ∧
    ((runTwoThreads.state 2).shared.snapshot.map fun P => P.threads.length) = [2] := by
  have hreach := runTwoThreads.reachable 2 (by decide)
  refine ⟨prints_snapshot _ _ hreach 1 rfl (fun o obj ho => ?_) List.length_replicate
    List.length_replicate, rfl⟩
  have hlt : o < 3 := ((inductive_safe (fun _ _ => True)).holds hreach).shared.heap.lt ho
  interval_cases o <;> (cases ho; rfl)

end Lkp.TaskList
