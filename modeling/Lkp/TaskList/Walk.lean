/-
The modules that list tasks, while tasks come and go.

`do_each_thread` goes along the list of processes, and for each of them along the ring of
its threads; `for_each_process` goes along the first only.  What is done for a task is a
list of instructions (`Instr`), so each of the functions is a value of one type
(`Listing`): its instructions, and whether it runs inside a read-side section.

Meanwhile the kernel forks and clones, unlinks tasks that exit, and drops its reference
to one when a grace period has passed since; it holds the lock of a task for as long as
it likes, and changes what a task shows.  A `task_struct` is freed with the last
reference.  An access to one that is gone ends the listing (`Call.oops`).

Task 0 is `init_task`.  `users` records which listings have taken a reference.
-/
import Lkp.Concurrency.Pool
import Lkp.Concurrency.Rcu
import Lkp.Memory.Chain
import Lkp.Memory.Heap
import Lkp.Tasks.Task

namespace Lkp.TaskList

open Tasks (Task Comm)

/-! ### The kernel's data -/

/-- Who holds the `alloc_lock` of a task. -/
inductive Owner
  | kernel
  | call (c : Nat)
  deriving DecidableEq

/-- A `task_struct`. -/
structure Obj where
  task : Task
  nrThreads : BitVec 32
  /-- `alloc_lock` -/
  lock : Option Owner
  refs : Nat
  /-- The kernel has dropped its own reference. -/
  reaped : Bool
  /-- The listings that have taken a reference. -/
  users : Finset Nat

/-- The tasks, the list of processes, the threads of each, and the read-side sections. -/
structure Sys where
  heap : Heap Obj
  rcu : Rcu
  procs : Chain
  threads : Nat → Chain
  /-- `group_leader` -/
  leader : Nat → Nat

/-- `init_task` -/
def initTask : Nat := 0

/-- A task that is new. -/
def newObj (t : Task) (nr : BitVec 32) : Obj :=
  { task := t, nrThreads := nr, lock := none, refs := 1, reaped := false, users := ∅ }

/-- There is `init_task` and nothing else. -/
def boot (t : Task) : Sys where
  heap := { obj := Function.update (fun _ => none) initTask (some (newObj t 1)), brk := 1 }
  rcu := .fresh
  procs := .single initTask
  threads := .single
  leader x := x

/-- What has become of a task: a leader is in the list of processes, any other in its group's. -/
def Sys.link (s : Sys) (o : Nat) : Link :=
  if s.leader o = o then s.procs.link o else (s.threads (s.leader o)).link o

/-- Change a task. -/
def Sys.store (s : Sys) (o : Nat) (obj : Obj) : Sys := { s with heap := s.heap.store o obj }

/-- `put_task_struct`, after which the task is `obj`; the last reference frees it. -/
def Sys.put (s : Sys) (o : Nat) (obj : Obj) : Sys :=
  if obj.refs = 0 then { s with heap := s.heap.free o } else s.store o obj

/-- A process is created. -/
def Sys.fork (s : Sys) (t : Task) (nr : BitVec 32) : Sys :=
  { s with
    heap := s.heap.alloc (newObj t nr)
    procs := s.procs.add s.heap.brk
    threads := Function.update s.threads s.heap.brk (.single s.heap.brk)
    leader := Function.update s.leader s.heap.brk s.heap.brk }

/-- A thread of `g` is created. -/
def Sys.clone (s : Sys) (g : Nat) (t : Task) : Sys :=
  { s with
    heap := s.heap.alloc (newObj t 0)
    threads := Function.update s.threads g ((s.threads g).add s.heap.brk)
    leader := Function.update s.leader s.heap.brk g }

/-- `__unhash_process`, for a leader without further threads or for a thread. -/
def Sys.unhash (s : Sys) (o : Nat) : Sys :=
  if s.leader o = o then { s with procs := s.procs.del o s.rcu.next s.heap.brk }
  else
    { s with
      threads := Function.update s.threads (s.leader o)
        ((s.threads (s.leader o)).del o s.rcu.next s.heap.brk) }

/-- What the kernel does meanwhile. -/
inductive Kernel
  | fork (t : Task) (nr : BitVec 32)
  | clone (g : Nat) (t : Task)
  | exit (o : Nat)
  /-- A grace period has passed since the task was unlinked. -/
  | reap (o : Nat)
  | lock (o : Nat)
  | unlock (o : Nat)
  /-- Members that are changed with `alloc_lock` held. -/
  | rename (o : Nat) (comm : Comm) (mm : Bool)
  | change (o : Nat) (uid euid nr : BitVec 32)

/-- A task that may exit: a leader only when it is the last thread of its group. -/
def Sys.Leaves (s : Sys) (o : Nat) : Prop :=
  o ≠ initTask ∧ s.link o = .listed ∧ (s.leader o = o → (s.threads o).next o = o)

instance (s : Sys) (o : Nat) : Decidable (s.Leaves o) := by unfold Sys.Leaves; infer_instance

/-- No listing reads the task through its lock. -/
def Obj.Unlocked (obj : Obj) : Prop := obj.lock = none ∨ obj.lock = some .kernel

instance (obj : Obj) : Decidable obj.Unlocked := by unfold Obj.Unlocked; infer_instance

/-- A change of a task that is there. -/
def Sys.modify (s : Sys) (o : Nat) (f : Obj → Option Obj) : Option Sys :=
  ((s.heap.obj o).bind f).map (s.store o)

/-- The kernel takes a step. -/
def kernelStep (s : Sys) : Kernel → Option Sys
  | .fork t nr => some (s.fork t nr)
  | .clone g t => if s.procs.Listed g ∧ g ≠ initTask then some (s.clone g t) else none
  | .exit o => if s.Leaves o then some (s.unhash o) else none
  | .reap o =>
      match s.link o, s.heap.obj o with
      | .unlinked tick _, some obj =>
          if s.rcu.Over tick ∧ obj.reaped = false then
            some (s.put o { obj with refs := obj.refs - 1, reaped := true })
          else none
      | _, _ => none
  | .lock o => s.modify o fun obj =>
      if obj.lock = none then some { obj with lock := some .kernel } else none
  | .unlock o => s.modify o fun obj =>
      if obj.lock = some .kernel then some { obj with lock := none } else none
  | .rename o comm mm => s.modify o fun obj =>
      if obj.Unlocked then some { obj with task := { obj.task with comm := comm, mm := mm } }
      else none
  | .change o uid euid nr => s.modify o fun obj =>
      some { obj with task := { obj.task with uid := uid, euid := euid }, nrThreads := nr }

/-! ### The listings -/

/-- The members that are read, of the process `g` or of the thread `t`. -/
inductive Field
  | gTgid
  | gMm
  | gNrThreads
  /-- `g->mm` once more, for the column with the number of threads. -/
  | gMmAgain
  | tTgid
  | tPid
  | tStack
  | tComm
  | tUid
  | tEuid
  deriving DecidableEq

/-- What is done for a task. -/
inductive Instr
  | getTaskStruct
  | putTaskStruct
  | taskLock
  | taskUnlock
  | load (f : Field)
  /-- It takes `alloc_lock` to copy the name. -/
  | getTaskComm
  /-- `pr_info` of the row, and `total++`. -/
  | print
  deriving DecidableEq

/-- What a listing has of a task: a reference, its lock. -/
structure Holding where
  ref : Bool
  lock : Bool
  deriving DecidableEq

/-- What it has before the instructions, so as to have nothing after them. -/
def holding : List Instr → Holding
  | [] => ⟨false, false⟩
  | .getTaskStruct :: is => { holding is with ref := false }
  | .putTaskStruct :: is => { holding is with ref := true }
  | .taskLock :: is => { holding is with lock := false }
  | .taskUnlock :: is => { holding is with lock := true }
  | _ :: is => holding is

/-- References and locks are taken and dropped in turn, and a lock only under a reference. -/
def Paired : List Instr → Prop
  | [] => True
  | .getTaskStruct :: is => holding is = ⟨true, false⟩ ∧ Paired is
  | .putTaskStruct :: is => holding is = ⟨false, false⟩ ∧ Paired is
  | .taskLock :: is => holding is = ⟨true, true⟩ ∧ Paired is
  | .taskUnlock :: is => holding is = ⟨true, false⟩ ∧ Paired is
  | .getTaskComm :: is => (holding is).ref = true ∧ Paired is
  | _ :: is => Paired is

instance decidablePaired : ∀ is : List Instr, Decidable (Paired is)
  | [] => isTrue trivial
  | i :: is => by
      have := decidablePaired is
      cases i <;> unfold Paired <;> infer_instance

/-- A function that lists tasks. -/
structure Listing where
  /-- Inside `rcu_read_lock` and `rcu_read_unlock`. -/
  rcu : Bool
  /-- `do_each_thread`, and not `for_each_process`. -/
  threads : Bool
  /-- `total` at the start. -/
  total : BitVec 32
  body : List Instr
  paired : Paired body
  begins : body.head? = some .getTaskStruct
  prints : body.count .print = 1

/-- The members a row is made from, as they were read. -/
structure Row where
  tgid : BitVec 32
  pid : BitVec 32
  uid : BitVec 32
  euid : BitVec 32
  stack : BitVec 64
  mm : Bool
  mmAgain : Bool
  nrThreads : BitVec 32
  comm : Comm

/-- Nothing is read yet. -/
def Row.blank : Row where
  tgid := 0
  pid := 0
  uid := 0
  euid := 0
  stack := 0
  mm := false
  mmAgain := false
  nrThreads := 0
  comm := { bytes := [], short := Nat.zero_le _, noNul := List.not_mem_nil }

/-- A row that was printed, with the process and the thread it is about. -/
structure Shown where
  g : Nat
  t : Nat
  row : Row

/-- The variables of a listing. -/
structure Vars where
  /-- The ticket of its section. -/
  ticket : Option Nat
  g : Nat
  t : Nat
  row : Row
  shown : List Shown
  total : BitVec 32

/-- Where a listing has got to. -/
inductive Call
  | idle
  /-- The function is entered. -/
  | enter
  /-- `next_task(g)` comes next. -/
  | nextTask (v : Vars)
  /-- The instructions yet to be run for the task. -/
  | body (v : Vars) (todo : List Instr)
  /-- In `get_task_comm`, with the lock held; the copy and the unlock come next. -/
  | copy (v : Vars) (todo : List Instr)
  /-- `next_thread(t)` comes next. -/
  | nextThread (v : Vars)
  /-- The loop is through. -/
  | leave (v : Vars)
  | ret (shown : List Shown) (total : BitVec 32)
  /-- A task was used that is gone. -/
  | oops (v : Vars) (todo : List Instr)

/-- What a member is read from. -/
def Field.of (f : Field) (v : Vars) : Nat :=
  match f with
  | .gTgid | .gMm | .gNrThreads | .gMmAgain => v.g
  | _ => v.t

/-- The member is read. -/
def Row.load (r : Row) (f : Field) (obj : Obj) : Row :=
  match f with
  | .gTgid => { r with tgid := obj.task.tgid }
  | .gMm => { r with mm := obj.task.mm }
  | .gNrThreads => { r with nrThreads := obj.nrThreads }
  | .gMmAgain => { r with mmAgain := obj.task.mm }
  | .tTgid => { r with tgid := obj.task.tgid }
  | .tPid => { r with pid := obj.task.pid }
  | .tStack => { r with stack := obj.task.stack }
  | .tComm => { r with comm := obj.task.comm }
  | .tUid => { r with uid := obj.task.uid }
  | .tEuid => { r with euid := obj.task.euid }

def Vars.load (v : Vars) (f : Field) (obj : Obj) : Vars := { v with row := v.row.load f obj }

/-- The task is printed and counted. -/
def Vars.print (v : Vars) : Vars :=
  { v with shown := v.shown ++ [⟨v.g, v.t, v.row⟩], total := v.total + 1 }

/-- On to the thread `t` of `g`. -/
def Vars.at (v : Vars) (g t : Nat) : Vars := { v with g := g, t := t, row := .blank }

/-- The reference of listing `c`. -/
def Obj.get (obj : Obj) (c : Nat) : Obj :=
  { obj with refs := obj.refs + 1, users := insert c obj.users }

def Obj.drop (obj : Obj) (c : Nat) : Obj :=
  { obj with refs := obj.refs - 1, users := obj.users.erase c }

/-- One of the instructions. -/
def instrStep (c : Nat) (s : Sys) (v : Vars) (i : Instr) (todo : List Instr) :
    Option (Sys × Call) :=
  match i with
  | .print => some (s, .body v.print todo)
  | .load f =>
      match s.heap.obj (f.of v) with
      | some obj => some (s, .body (v.load f obj) todo)
      | none => some (s, .oops v (i :: todo))
  | _ =>
      match s.heap.obj v.t with
      | none => some (s, .oops v (i :: todo))
      | some obj =>
          match i with
          | .getTaskStruct => some (s.store v.t (obj.get c), .body v todo)
          | .putTaskStruct => some (s.put v.t (obj.drop c), .body v todo)
          | .taskLock =>
              if obj.lock = none then
                some (s.store v.t { obj with lock := some (.call c) }, .body v todo)
              else none
          | .taskUnlock => some (s.store v.t { obj with lock := none }, .body v todo)
          | _ =>
              if obj.lock = none then
                some (s.store v.t { obj with lock := some (.call c) }, .copy v todo)
              else none

/-- A listing, one step at a time. -/
def listStep (L : Listing) (c : Nat) (s : Sys) : Call → Option (Sys × Call)
  | .enter =>
      if L.rcu then
        some ({ s with rcu := s.rcu.lock },
          .nextTask ⟨some s.rcu.next, initTask, initTask, .blank, [], L.total⟩)
      else some (s, .nextTask ⟨none, initTask, initTask, .blank, [], L.total⟩)
  | .nextTask v =>
      match s.heap.obj v.g with
      | none => some (s, .oops v [])
      | some _ =>
          if s.procs.next v.g = initTask then some (s, .leave v)
          else some (s, .body (v.at (s.procs.next v.g) (s.procs.next v.g)) L.body)
  | .body v [] => some (s, if L.threads then .nextThread v else .nextTask v)
  | .body v (i :: todo) => instrStep c s v i todo
  | .copy v todo =>
      match s.heap.obj v.t with
      | none => some (s, .oops v todo)
      | some obj =>
          some (s.store v.t { obj with lock := none }, .body (v.load .tComm obj) todo)
  | .nextThread v =>
      match s.heap.obj v.t with
      | none => some (s, .oops v [])
      | some _ =>
          if (s.threads v.g).next v.t = v.g then some (s, .nextTask v)
          else some (s, .body (v.at v.g ((s.threads v.g).next v.t)) L.body)
  | .leave v =>
      match v.ticket with
      | some t => some ({ s with rcu := s.rcu.unlock t }, .ret v.shown v.total)
      | none => some (s, .ret v.shown v.total)
  | _ => none

/-- Who moves: a listing begins or goes on, or the kernel takes a step. -/
inductive Env
  | start
  | run
  | kernel (k : Kernel)

instance : Inhabited Env := ⟨.run⟩

/-- Call `c` runs the listing `L c`; the kernel's steps are taken by calls that stay idle. -/
def step (L : Nat → Listing) : CallStep Sys Call Env := fun c e s l =>
  match e, l with
  | .start, .idle => some (s, .enter)
  | .run, l => listStep (L c) c s l
  | .kernel k, .idle => (kernelStep s k).map fun s' => (s', .idle)
  | _, _ => none

/-- Any listings, from the boot of the kernel on. -/
def machine (L : Nat → Listing) : Machine (Pool Sys Call) (Nat × Env) :=
  Pool.machine (fun s => ∃ t, s = boot t) .idle (step L)

/-! ### The functions of the modules -/

/-- The test for the column with the number of threads. -/
def mainTest : List Instr :=
  [.load .gNrThreads, .load .gMmAgain, .load .gTgid, .load .tPid]

/-- `showthrds_rcu` -/
def showthrdsRcu : Listing where
  rcu := true
  threads := true
  total := 0
  body := [.getTaskStruct, .load .gTgid, .load .tPid, .load .tStack, .getTaskComm, .load .gMm] ++
    mainTest ++ [.print, .putTaskStruct]
  paired := by decide
  begins := rfl
  prints := by decide

/-- `showthrds`, where the idle thread is counted before. -/
def showthrds : Listing where
  rcu := false
  threads := true
  total := 1
  body := [.getTaskStruct, .taskLock, .load .gTgid, .load .tPid, .load .tStack, .load .gMm,
    .load .tComm] ++ mainTest ++ [.print, .taskUnlock, .putTaskStruct]
  paired := by decide
  begins := rfl
  prints := by decide

/-- `showthrds_buggy` -/
def showthrdsBuggy : Listing where
  rcu := false
  threads := true
  total := 0
  body := [.getTaskStruct, .taskLock, .load .gTgid, .load .tPid, .load .tStack, .getTaskComm,
    .load .gMm] ++ mainTest ++ [.print, .taskUnlock, .putTaskStruct]
  paired := by decide
  begins := rfl
  prints := by decide

/-- The function of that name in the module where it is fixed. -/
def showthrdsFixed : Listing where
  rcu := false
  threads := true
  total := 0
  body := [.getTaskStruct, .taskLock, .load .gTgid, .load .tPid, .load .tStack, .taskUnlock,
    .getTaskComm, .taskLock, .load .gMm] ++ mainTest ++ [.print, .taskUnlock, .putTaskStruct]
  paired := by decide
  begins := rfl
  prints := by decide

/-- `show_prcs_in_tasklist` -/
def showPrcsInTasklist : Listing where
  rcu := true
  threads := false
  total := 0
  body := [.getTaskStruct, .load .tComm, .load .tTgid, .load .tPid, .load .tUid, .load .tEuid,
    .putTaskStruct, .print]
  paired := by decide
  begins := rfl
  prints := by decide

end Lkp.TaskList
