/-
Who keeps the `task_struct` of the two kernel threads.

A thread that is created holds its own `task_struct`, and lets go of it some time
after it has finished.  `run_kthrd` takes one more reference, so that the pointers in
`arr_tsk` stay good for `kthread_stop`.  The count of a `task_struct` is always what the
thread, `run_kthrd` and a `kthread_stop` in progress have taken (`Books`); at 0 it is freed.

That much holds of every run, but it is not enough.  `kthread_run` reports failure by
an error pointer, for which `run_kthrd` does not test.  A thread that is quick may be
gone before `run_kthrd` takes its reference.  And exit stops the threads without ever
giving that reference back.  In a run clear of all three (`Timely`) the module keeps
its promises (`threads_sound`), and the first step that is not clear of them breaks one
(`unsound_of_untimely`).
-/
import Lkp.Concurrency.Machine
import Lkp.Memory.Heap

namespace Lkp.PerCpu

/-- What has become of a thread. -/
inductive Life
  | running
  /-- `thrd_work` has returned. -/
  | finished
  /-- The thread has dropped its own references. -/
  | reaped
  deriving DecidableEq

/-- The part of a `task_struct` that matters here. -/
structure Task where
  refs : Nat
  life : Life
  deriving DecidableEq

/-- An entry of `arr_tsk`; `kthread_run` fails with an error pointer. -/
inductive Ptr
  | null
  | err
  | task (o : Nat)
  deriving DecidableEq

/-- The calls of `kthread_stop`: one at `out3` in init, two in exit. -/
inductive Site
  | out3
  | exit0
  | exit1
  deriving DecidableEq

/-- The entry of `arr_tsk` that is passed. -/
def Site.slot : Site → Fin 2
  | .out3 | .exit0 => 0
  | .exit1 => 1

/-- Where the module stands. -/
inductive Phase
  /-- Not loaded: never, or exit is through. -/
  | absent
  /-- init has returned an error. -/
  | failed
  /-- In init: the test of `func_ptr` comes next. -/
  | init
  /-- In init: `alloc_percpu` comes next. -/
  | initAlloc
  /-- In `run_kthrd(.., i)`: `kthread_run` comes next. -/
  | create (i : Fin 2)
  /-- In `run_kthrd(.., i)`: the test of the pointer and `get_task_struct` come next. -/
  | taking (i : Fin 2)
  /-- `kthread_stop` comes next. -/
  | stop (site : Site)
  /-- In `kthread_stop`, until the thread has finished. -/
  | wait (site : Site) (o : Nat)
  /-- In init, at `out2`. -/
  | out2
  /-- init has returned 0. -/
  | live
  /-- In exit: `free_percpu` comes next. -/
  | exitFree
  /-- A `task_struct` was used that does not exist. -/
  | oops
  deriving DecidableEq

/-- The module with the kernel's view of its threads. -/
structure Kthreads where
  phase : Phase
  tasks : Heap Task
  arrTsk : Fin 2 → Ptr
  /-- `pcp_ctx` is allocated. -/
  area : Bool
  /-- The references `run_kthrd` has taken and nobody has dropped. -/
  held : List Nat

/-- `init` and `exit` take a step, or a thread does; `ok` is what is called going well. -/
inductive Act
  | module (ok : Bool)
  | thread (o : Nat)
  deriving DecidableEq

instance : Inhabited Act := ⟨.module true⟩

/-- The references a thread has on its own `task_struct`. -/
def Life.own : Life → Nat
  | .running | .finished => 2
  | .reaped => 0

/-- A new thread. -/
def newTask : Task := { refs := 2, life := .running }

/-- `put_task_struct`: at 0 the `task_struct` is freed. -/
def Kthreads.put (s : Kthreads) (o : Nat) (t : Task) : Kthreads :=
  if t.refs = 0 then { s with tasks := s.tasks.free o } else { s with tasks := s.tasks.store o t }

/-- `get_task_struct`. -/
def Kthreads.get (s : Kthreads) (o : Nat) (t : Task) : Kthreads :=
  { s with tasks := s.tasks.store o { t with refs := t.refs + 1 } }

/-- What follows a `kthread_stop`. -/
def Site.after : Site → Phase
  | .out3 => .out2
  | .exit0 => .stop .exit1
  | .exit1 => .exitFree

/-- `run_kthrd` and the start of `kthread_stop` use the pointer `p`. -/
def Kthreads.use (s : Kthreads) (p : Ptr) (k : Nat → Task → Kthreads) : Kthreads :=
  match p with
  | .null | .err => { s with phase := .oops }
  | .task o =>
      match s.tasks.obj o with
      | some t => k o t
      | none => { s with phase := .oops }

/-- `init_percpu_var` and `exit_percpu_var`, one step at a time. -/
def moduleNext (ok : Bool) (s : Kthreads) : Option Kthreads :=
  match s.phase with
  | .absent | .failed => some { s with phase := .init, arrTsk := fun _ => .null }
  | .init => some { s with phase := if ok then .initAlloc else .failed }
  | .initAlloc =>
      if ok then some { s with phase := .create 0, area := true }
      else some { s with phase := .failed }
  | .create i =>
      if ok then
        some { s with
          phase := .taking i
          tasks := s.tasks.alloc newTask
          arrTsk := Function.update s.arrTsk i (.task s.tasks.brk) }
      else some { s with phase := .taking i, arrTsk := Function.update s.arrTsk i .err }
  | .taking i =>
      if s.arrTsk i = .null then some { s with phase := if i = 0 then .out2 else .stop .out3 }
      else some (s.use (s.arrTsk i) fun o t =>
        { s.get o t with phase := if i = 0 then .create 1 else .live, held := o :: s.held })
  | .stop site =>
      some (s.use (s.arrTsk site.slot) fun o t => { s.get o t with phase := .wait site o })
  | .wait site o =>
      match s.tasks.obj o with
      | some t =>
          if t.life = .running then none
          else some { s.put o { t with refs := t.refs - 1 } with phase := site.after }
      | none => some { s with phase := .oops }
  | .out2 => some { s with phase := .failed, area := false }
  | .live => some { s with phase := .stop .exit0 }
  | .exitFree => some { s with phase := .absent, area := false }
  | .oops => none

/-- A thread returns from `thrd_work`, and later drops its own references. -/
def threadNext (o : Nat) (s : Kthreads) : Option Kthreads :=
  match s.tasks.obj o with
  | some ⟨refs, .running⟩ => some { s with tasks := s.tasks.store o ⟨refs, .finished⟩ }
  | some ⟨refs, .finished⟩ => some (s.put o ⟨refs - 2, .reaped⟩)
  | _ => none

/-- No module and no thread. -/
def kthreads0 : Kthreads where
  phase := .absent
  tasks := { obj := fun _ => none, brk := 0 }
  arrTsk := fun _ => .null
  area := false
  held := []

/-- Any loads and unloads, and the threads they create. -/
def kthreadMachine : Machine Kthreads Act where
  init s := s = kthreads0
  next s a :=
    match a with
    | .module ok => moduleNext ok s
    | .thread o => threadNext o s

/-- `kthread_run` gave a thread for entry `i` in the last load. -/
def Created (s : Kthreads) (i : Fin 2) : Prop := ∃ o, s.arrTsk i = .task o

/-- What the module promises. -/
structure Sound (s : Kthreads) : Prop where
  /-- `get_task_struct` and `kthread_stop` only ever get a `task_struct` that is there. -/
  noOops : s.phase ≠ .oops
  /-- An init that returns 0 has created both threads. -/
  both : s.phase = .live → ∀ i, Created s i
  /-- One that returns an error has not, and leaves no thread and no per-CPU area. -/
  nothing : s.phase = .failed → (¬ ∀ i, Created s i) ∧ s.area = false ∧
    ∀ o t, s.tasks.obj o = some t → t.life ≠ .running
  /-- After exit `run_kthrd` holds nothing. -/
  dropped : s.phase = .absent → s.held = []

/--
`kthread_run` succeeds, the thread has not dropped its own references when `run_kthrd`
takes one, and exit is never through.
-/
def Timely (s : Kthreads) (a : Act) : Prop :=
  match a, s.phase with
  | .module ok, .create _ => ok = true
  | .module _, .taking i => ∀ o, s.arrTsk i = .task o →
      (s.tasks.obj o).map Task.life = some .running ∨
        (s.tasks.obj o).map Task.life = some .finished
  | .module _, .exitFree => False
  | _, _ => True

instance (p : Ptr) (P : Nat → Prop) [DecidablePred P] : Decidable (∀ o, p = .task o → P o) :=
  match p with
  | .null | .err => isTrue nofun
  | .task o => decidable_of_iff (P o) ⟨fun h _ hu => Ptr.task.inj hu ▸ h, fun h => h o rfl⟩

instance (s : Kthreads) (a : Act) : Decidable (Timely s a) := by
  unfold Timely
  cases a with
  | module ok => cases s.phase <;> simp only <;> infer_instance
  | thread o => exact isTrue trivial

/-! ### What the module and the threads can do -/

section Steps

variable {s s' : Kthreads} {o : Nat} {ok : Bool}

/-- A pointer is used: the `task_struct` is there, or it is not. -/
theorem Kthreads.use_cases (s : Kthreads) (p : Ptr) (k : Nat → Task → Kthreads) :
    (∃ o t, p = .task o ∧ s.tasks.obj o = some t ∧ s.use p k = k o t) ∨
      (∀ o, p = .task o → s.tasks.obj o = none) ∧ s.use p k = { s with phase := .oops } := by
  cases p with
  | null => exact Or.inr ⟨nofun, rfl⟩
  | err => exact Or.inr ⟨nofun, rfl⟩
  | task o =>
      cases hobj : s.tasks.obj o with
      | none =>
          refine Or.inr ⟨fun u hu => ?_, ?_⟩
          · cases hu
            exact hobj
          · rw [Kthreads.use]
            simp only [hobj]
      | some t =>
          refine Or.inl ⟨o, t, rfl, hobj, ?_⟩
          rw [Kthreads.use]
          simp only [hobj]

/-! Dropping a reference touches the `task_struct` only. -/

theorem put_phase (s : Kthreads) (o : Nat) (t : Task) : (s.put o t).phase = s.phase := by
  rw [Kthreads.put]
  split <;> rfl

theorem put_held (s : Kthreads) (o : Nat) (t : Task) : (s.put o t).held = s.held := by
  rw [Kthreads.put]
  split <;> rfl

theorem put_arrTsk (s : Kthreads) (o : Nat) (t : Task) : (s.put o t).arrTsk = s.arrTsk := by
  rw [Kthreads.put]
  split <;> rfl

theorem put_area (s : Kthreads) (o : Nat) (t : Task) : (s.put o t).area = s.area := by
  rw [Kthreads.put]
  split <;> rfl

/-- A step of init or exit. -/
inductive Code (ok : Bool) (s : Kthreads) : Kthreads → Prop
  | load (hphase : s.phase = .absent ∨ s.phase = .failed) :
      Code ok s { s with phase := .init, arrTsk := fun _ => .null }
  | found (hphase : s.phase = .init) : Code ok s { s with phase := .initAlloc }
  | notFound (hphase : s.phase = .init) : Code ok s { s with phase := .failed }
  | alloc (hphase : s.phase = .initAlloc) :
      Code ok s { s with phase := .create 0, area := true }
  | noMem (hphase : s.phase = .initAlloc) : Code ok s { s with phase := .failed }
  | created (i : Fin 2) (hphase : s.phase = .create i) (hok : ok = true) :
      Code ok s { s with
        phase := .taking i
        tasks := s.tasks.alloc newTask
        arrTsk := Function.update s.arrTsk i (.task s.tasks.brk) }
  | notCreated (i : Fin 2) (hphase : s.phase = .create i) (hok : ok = false) :
      Code ok s { s with phase := .taking i, arrTsk := Function.update s.arrTsk i .err }
  | tested (i : Fin 2) (hphase : s.phase = .taking i) (harr : s.arrTsk i = .null) :
      Code ok s { s with phase := if i = 0 then .out2 else .stop .out3 }
  | take (i : Fin 2) (o : Nat) (t : Task) (hphase : s.phase = .taking i)
      (harr : s.arrTsk i = .task o) (hobj : s.tasks.obj o = some t) :
      Code ok s { s.get o t with
        phase := if i = 0 then .create 1 else .live, held := o :: s.held }
  | stop (site : Site) (o : Nat) (t : Task) (hphase : s.phase = .stop site)
      (harr : s.arrTsk site.slot = .task o) (hobj : s.tasks.obj o = some t) :
      Code ok s { s.get o t with phase := .wait site o }
  | stopped (site : Site) (o : Nat) (t : Task) (hphase : s.phase = .wait site o)
      (hobj : s.tasks.obj o = some t) (hlife : t.life ≠ .running) :
      Code ok s { s.put o { t with refs := t.refs - 1 } with phase := site.after }
  | freed (hphase : s.phase = .out2) : Code ok s { s with phase := .failed, area := false }
  | unload (hphase : s.phase = .live) : Code ok s { s with phase := .stop .exit0 }
  | removed (hphase : s.phase = .exitFree) :
      Code ok s { s with phase := .absent, area := false }
  | badTake (i : Fin 2) (hphase : s.phase = .taking i)
      (hnone : ∀ o, s.arrTsk i = .task o → s.tasks.obj o = none) :
      Code ok s { s with phase := .oops }
  | badStop (site : Site) (hphase : s.phase = .stop site)
      (hnone : ∀ o, s.arrTsk site.slot = .task o → s.tasks.obj o = none) :
      Code ok s { s with phase := .oops }
  | badWait (site : Site) (o : Nat) (hphase : s.phase = .wait site o)
      (hnone : s.tasks.obj o = none) : Code ok s { s with phase := .oops }

theorem code_of_moduleNext (hnext : moduleNext ok s = some s') : Code ok s s' := by
  unfold moduleNext at hnext
  cases hphase : s.phase with
  | absent =>
      simp only [hphase, Option.some.injEq] at hnext
      exact hnext ▸ .load (Or.inl hphase)
  | failed =>
      simp only [hphase, Option.some.injEq] at hnext
      exact hnext ▸ .load (Or.inr hphase)
  | init =>
      simp only [hphase, Option.some.injEq] at hnext
      cases ok with
      | true => exact hnext ▸ .found hphase
      | false => exact hnext ▸ .notFound hphase
  | initAlloc =>
      cases ok with
      | true =>
          simp only [hphase, if_true, Option.some.injEq] at hnext
          exact hnext ▸ .alloc hphase
      | false =>
          simp only [hphase, Bool.false_eq_true, if_false, Option.some.injEq] at hnext
          exact hnext ▸ .noMem hphase
  | create i =>
      cases ok with
      | true =>
          simp only [hphase, if_true, Option.some.injEq] at hnext
          exact hnext ▸ .created i hphase rfl
      | false =>
          simp only [hphase, Bool.false_eq_true, if_false, Option.some.injEq] at hnext
          exact hnext ▸ .notCreated i hphase rfl
  | taking i =>
      simp only [hphase] at hnext
      by_cases harr : s.arrTsk i = .null
      · rw [if_pos harr, Option.some.injEq] at hnext
        exact hnext ▸ .tested i hphase harr
      · rw [if_neg harr, Option.some.injEq] at hnext
        rcases s.use_cases (s.arrTsk i) _ with ⟨o, t, htask, hobj, huse⟩ | ⟨hnone, huse⟩
        · rw [huse] at hnext
          exact hnext ▸ .take i o t hphase htask hobj
        · rw [huse] at hnext
          exact hnext ▸ .badTake i hphase hnone
  | stop site =>
      simp only [hphase, Option.some.injEq] at hnext
      rcases s.use_cases (s.arrTsk site.slot) _ with ⟨o, t, htask, hobj, huse⟩ | ⟨hnone, huse⟩
      · rw [huse] at hnext
        exact hnext ▸ .stop site o t hphase htask hobj
      · rw [huse] at hnext
        exact hnext ▸ .badStop site hphase hnone
  | wait site o =>
      cases hobj : s.tasks.obj o with
      | none =>
          simp only [hphase, hobj, Option.some.injEq] at hnext
          exact hnext ▸ .badWait site o hphase hobj
      | some t =>
          simp only [hphase, hobj] at hnext
          by_cases hlife : t.life = .running
          · rw [if_pos hlife] at hnext
            cases hnext
          · rw [if_neg hlife, Option.some.injEq] at hnext
            exact hnext ▸ .stopped site o t hphase hobj hlife
  | out2 =>
      simp only [hphase, Option.some.injEq] at hnext
      exact hnext ▸ .freed hphase
  | live =>
      simp only [hphase, Option.some.injEq] at hnext
      exact hnext ▸ .unload hphase
  | exitFree =>
      simp only [hphase, Option.some.injEq] at hnext
      exact hnext ▸ .removed hphase
  | oops =>
      simp only [hphase] at hnext
      cases hnext

/-- A step of a thread. -/
inductive Ends (o : Nat) (s : Kthreads) : Kthreads → Prop
  | finish (refs : Nat) (hobj : s.tasks.obj o = some ⟨refs, .running⟩) :
      Ends o s { s with tasks := s.tasks.store o ⟨refs, .finished⟩ }
  | reap (refs : Nat) (hobj : s.tasks.obj o = some ⟨refs, .finished⟩) :
      Ends o s (s.put o ⟨refs - 2, .reaped⟩)

theorem ends_of_threadNext (hnext : threadNext o s = some s') : Ends o s s' := by
  unfold threadNext at hnext
  cases hobj : s.tasks.obj o with
  | none =>
      simp only [hobj] at hnext
      cases hnext
  | some t =>
      obtain ⟨refs, life⟩ := t
      cases life with
      | running =>
          simp only [hobj, Option.some.injEq] at hnext
          exact hnext ▸ .finish refs hobj
      | finished =>
          simp only [hobj, Option.some.injEq] at hnext
          exact hnext ▸ .reap refs hobj
      | reaped =>
          simp only [hobj] at hnext
          cases hnext

end Steps

/-! ### The books -/

/-- A `kthread_stop` in progress has a reference, too. -/
def Phase.stops : Phase → Nat → Nat
  | .wait _ u, o => if u = o then 1 else 0
  | _, _ => 0

/-- The references that are not the thread's own. -/
def Kthreads.taken (s : Kthreads) (o : Nat) : Nat := s.held.count o + s.phase.stops o

/-- The count of a `task_struct` is what has been taken of it, and it goes with the last. -/
structure Books (s : Kthreads) : Prop where
  wf : s.tasks.WF
  counted : ∀ o t, s.tasks.obj o = some t → t.refs = t.life.own + s.taken o ∧ 0 < t.refs
  there : ∀ o, 0 < s.taken o → ∃ t, s.tasks.obj o = some t

section Bookkeeping

variable {s s' : Kthreads} {o : Nat} {t : Task}

/-- Nothing is taken of a `task_struct` that does not exist yet. -/
theorem Books.taken_brk (h : Books s) : s.taken s.tasks.brk = 0 := by
  by_contra hne
  obtain ⟨t, ht⟩ := h.there _ (Nat.pos_of_ne_zero hne)
  exact absurd (h.wf.lt ht) (Nat.lt_irrefl _)

/-- `kthread_stop` waits for a thread that is there. -/
theorem Books.of_wait (h : Books s) {site : Site} (hphase : s.phase = .wait site o) :
    ∃ t, s.tasks.obj o = some t := by
  refine h.there o ?_
  rw [Kthreads.taken, hphase]
  show 0 < _ + if o = o then 1 else 0
  rw [if_pos rfl]
  exact Nat.succ_pos _

theorem Books.same (h : Books s) (htasks : s'.tasks = s.tasks) (htaken : s'.taken = s.taken) :
    Books s' where
  wf := htasks ▸ h.wf
  counted o t := by
    rw [htasks, htaken]
    exact h.counted o t
  there o := by
    rw [htasks, htaken]
    exact h.there o

theorem Books.alloc (h : Books s) (htasks : s'.tasks = s.tasks.alloc newTask)
    (htaken : s'.taken = s.taken) : Books s' where
  wf := htasks ▸ h.wf.alloc
  counted o t ht := by
    rw [htasks] at ht
    rw [htaken]
    by_cases ho : o = s.tasks.brk
    · rw [ho, Heap.alloc_self, Option.some.injEq] at ht
      rw [← ht, ho, h.taken_brk]
      exact ⟨rfl, Nat.succ_pos _⟩
    · rw [Heap.alloc_of_ne ho] at ht
      exact h.counted o t ht
  there o hpos := by
    rw [htaken] at hpos
    obtain ⟨t, ht⟩ := h.there o hpos
    rw [htasks, Heap.alloc_of_lt (h.wf.lt ht)]
    exact ⟨t, ht⟩

/-- The entry of one thread is settled, and it stays. -/
theorem Books.store (h : Books s) (hobj : s.tasks.obj o = some t) {t' : Task}
    (htasks : s'.tasks = s.tasks.store o t')
    (hcounted : t'.refs = t'.life.own + s'.taken o) (hpos : 0 < t'.refs)
    (hother : ∀ u, u ≠ o → s'.taken u = s.taken u) : Books s' where
  wf := htasks ▸ h.wf.store (h.wf.lt hobj)
  counted u r hr := by
    rw [htasks] at hr
    by_cases hu : u = o
    · rw [hu, Heap.store_self, Option.some.injEq] at hr
      rw [← hr, hu]
      exact ⟨hcounted, hpos⟩
    · rw [Heap.store_of_ne hu] at hr
      rw [hother u hu]
      exact h.counted u r hr
  there u hu := by
    rw [htasks]
    by_cases huo : u = o
    · rw [huo, Heap.store_self]
      exact ⟨t', rfl⟩
    · rw [Heap.store_of_ne huo]
      exact h.there u (hother u huo ▸ hu)

/-- The last reference goes. -/
theorem Books.free (h : Books s) (htasks : s'.tasks = s.tasks.free o) (hlast : s'.taken o = 0)
    (hother : ∀ u, u ≠ o → s'.taken u = s.taken u) : Books s' where
  wf := htasks ▸ h.wf.free
  counted u r hr := by
    rw [htasks] at hr
    by_cases hu : u = o
    · rw [hu, Heap.free_self] at hr
      cases hr
    · rw [Heap.free_of_ne hu] at hr
      rw [hother u hu]
      exact h.counted u r hr
  there u hu := by
    by_cases huo : u = o
    · rw [huo, hlast] at hu
      exact absurd hu (Nat.lt_irrefl _)
    · rw [htasks, Heap.free_of_ne huo]
      exact h.there u (hother u huo ▸ hu)

/-- `put_task_struct` keeps the books, whether it frees or not. -/
theorem Books.put (h : Books s) (hobj : s.tasks.obj o = some t) {r : Task}
    (htasks : s'.tasks = (s.put o r).tasks) (hcounted : r.refs = r.life.own + s'.taken o)
    (hother : ∀ u, u ≠ o → s'.taken u = s.taken u) : Books s' := by
  unfold Kthreads.put at htasks
  by_cases hzero : r.refs = 0
  · rw [if_pos hzero] at htasks
    exact h.free htasks (by omega) hother
  · rw [if_neg hzero] at htasks
    exact h.store hobj htasks hcounted (Nat.pos_of_ne_zero hzero) hother

end Bookkeeping

section Bookkeeping

variable {s s' : Kthreads} {o : Nat} {ok : Bool}

theorem taken_eq (hheld : s'.held = s.held) (hstops : s'.phase.stops = s.phase.stops) :
    s'.taken = s.taken := by
  funext u
  rw [Kthreads.taken, Kthreads.taken, hheld, hstops]

/-- Where a step of init or exit only moves on, or creates a thread, the books stay. -/
theorem Code.books (h : Code ok s s') (hs : Books s) : Books s' := by
  cases h with
  | load hphase =>
      refine hs.same rfl (taken_eq rfl ?_)
      rcases hphase with hphase | hphase <;> rw [hphase] <;> rfl
  | found hphase | notFound hphase | alloc hphase | noMem hphase | freed hphase | unload hphase
  | removed hphase | notCreated i hphase | badTake i hphase | badStop site hphase =>
      refine hs.same rfl (taken_eq rfl ?_)
      rw [hphase]
      rfl
  | created i hphase =>
      refine hs.alloc rfl (taken_eq rfl ?_)
      rw [hphase]
      rfl
  | tested i hphase =>
      refine hs.same rfl (taken_eq rfl ?_)
      rw [hphase]
      by_cases hi : i = 0
      · rw [if_pos hi]
        rfl
      · rw [if_neg hi]
        rfl
  | take i o t hphase harr hobj =>
      have hstops : ∀ u, (if i = 0 then Phase.create 1 else .live).stops u = s.phase.stops u := by
        intro u
        rw [hphase]
        by_cases hi : i = 0
        · rw [if_pos hi]
          rfl
        · rw [if_neg hi]
          rfl
      refine hs.store hobj rfl ?_ (Nat.succ_pos _) fun u hu => ?_
      · show t.refs + 1 = t.life.own + ((o :: s.held).count o + _)
        rw [hstops, List.count_cons_self, (hs.counted o t hobj).1, Kthreads.taken]
        omega
      · show (o :: s.held).count u + _ = s.held.count u + _
        rw [hstops, List.count_cons_of_ne (Ne.symm hu)]
  | stop site o t hphase harr hobj =>
      have htaken : s.taken o = s.held.count o := by
        rw [Kthreads.taken, hphase]
        rfl
      refine hs.store hobj rfl ?_ (Nat.succ_pos _) fun u hu => ?_
      · show t.refs + 1 = t.life.own + (s.held.count o + if o = o then 1 else 0)
        rw [if_pos rfl, (hs.counted o t hobj).1, htaken, Nat.add_assoc]
      · show (s.held.count u + if o = u then 1 else 0) = s.held.count u + s.phase.stops u
        rw [if_neg (Ne.symm hu), hphase]
        rfl
  | stopped site o t hphase hobj hlife =>
      have hstops : ∀ u, site.after.stops u = 0 := by
        intro u
        cases site <;> rfl
      have hone : s.taken o = s.held.count o + 1 := by
        rw [Kthreads.taken, hphase]
        show (s.held.count o + if o = o then 1 else 0) = _
        rw [if_pos rfl]
      refine hs.put (r := { t with refs := t.refs - 1 }) hobj rfl ?_ fun u hu => ?_
      · show t.refs - 1 = t.life.own + (List.count o (s.put o _).held + site.after.stops o)
        rw [put_held, hstops, (hs.counted o t hobj).1, hone]
        rfl
      · show List.count u (s.put o _).held + site.after.stops u = s.held.count u + s.phase.stops u
        rw [put_held, hstops, hphase]
        show _ = _ + if o = u then 1 else 0
        rw [if_neg (Ne.symm hu)]
  | badWait site o hphase hnone =>
      obtain ⟨t, ht⟩ := hs.of_wait hphase
      rw [hnone] at ht
      cases ht

theorem Ends.books (h : Ends o s s') (hs : Books s) : Books s' := by
  cases h with
  | finish refs hobj =>
      obtain ⟨hrefs, hpos⟩ := hs.counted o _ hobj
      exact hs.store hobj rfl hrefs hpos fun _ _ => rfl
  | reap refs hobj =>
      have htaken : ∀ r, (s.put o r).taken = s.taken := by
        intro r
        exact taken_eq (put_held ..) (by rw [put_phase])
      refine hs.put (r := ⟨refs - 2, .reaped⟩) hobj rfl ?_ fun u _ => by rw [htaken]
      have hrefs : refs = 2 + s.taken o := (hs.counted o _ hobj).1
      show refs - 2 = 0 + (s.put o _).taken o
      rw [htaken]
      omega

theorem inductive_books : kthreadMachine.Inductive (fun _ _ => True) Books where
  init := by
    intro s hinit
    rw [show s = kthreads0 from hinit]
    exact ⟨nofun, nofun, fun o ho => absurd ho (Nat.lt_irrefl 0)⟩
  step := by
    intro s a s' hs _ hnext
    cases a with
    | module ok => exact (code_of_moduleNext hnext).books hs
    | thread o => exact (ends_of_threadNext hnext).books hs

end Bookkeeping

/-! ### In good time -/

/-- `run_kthrd` holds the threads of the first `n` entries. -/
def Kthreads.Holds (s : Kthreads) (n : Nat) : Prop :=
  ∀ i : Fin 2, i.val < n → ∃ o ∈ s.held, s.arrTsk i = .task o

/-- Nothing has been created, or allocated. -/
structure Bare (s : Kthreads) : Prop where
  tasks : ∀ o, s.tasks.obj o = none
  arrTsk : ∀ i, s.arrTsk i = .null
  area : s.area = false
  held : s.held = []

/-- `init` and `exit` have got this far, and all went well. -/
def Stage (s : Kthreads) : Prop :=
  match s.phase with
  | .absent | .failed | .init | .initAlloc => Bare s
  | .create i => s.Holds i
  | .taking i => s.Holds i ∧ ∃ o, s.arrTsk i = .task o ∧ o ∉ s.held
  | .live | .exitFree => s.Holds 2
  | .stop site | .wait site _ => site ≠ .out3 ∧ s.Holds 2
  | .out2 | .oops => False

section Good

variable {s s' : Kthreads} {o : Nat} {ok : Bool}

theorem Kthreads.Holds.created {n : Nat} (h : s.Holds n) (i : Fin 2) (hi : i.val < n) :
    Created s i := by
  obtain ⟨o, -, ho⟩ := h i hi
  exact ⟨o, ho⟩

/-- What is held is there. -/
theorem Books.of_held (h : Books s) (ho : o ∈ s.held) : ∃ t, s.tasks.obj o = some t := by
  refine h.there o ?_
  have hcount : 0 < s.held.count o := List.count_pos_iff.mpr ho
  rw [Kthreads.taken]
  omega

theorem Kthreads.Holds.of_eq {n : Nat} (h : s.Holds n) (hheld : s'.held = s.held)
    (harr : s'.arrTsk = s.arrTsk) : s'.Holds n := by
  intro i hi
  rw [hheld, harr]
  exact h i hi

/-- The thread of entry `i` is held, and those before it are held still. -/
theorem Kthreads.Holds.take {i : Fin 2} (h : s.Holds i) (harr : s.arrTsk i = .task o)
    (hheld : s'.held = o :: s.held) (hsame : s'.arrTsk = s.arrTsk) : s'.Holds (i + 1) := by
  intro j hj
  rw [hheld, hsame]
  by_cases hji : j = i
  · exact ⟨o, List.mem_cons_self .., hji ▸ harr⟩
  · obtain ⟨u, hu, htask⟩ := h j (by omega)
    exact ⟨u, List.mem_cons_of_mem _ hu, htask⟩

theorem Stage.bare (h : Stage s) (hphase : s.phase = .absent ∨ s.phase = .failed ∨
    s.phase = .init ∨ s.phase = .initAlloc) : Bare s := by
  unfold Stage at h
  rcases hphase with hphase | hphase | hphase | hphase <;> rw [hphase] at h <;> exact h

/-- A step of init or exit in good time. -/
theorem Code.stage (h : Code ok s s') (hs : Stage s) (hb : Books s)
    (htime : Timely s (.module ok)) : Stage s' := by
  cases h with
  | load hphase =>
      have hbare : Bare s := hs.bare (by rcases hphase with h | h <;> simp [h])
      exact ⟨hbare.tasks, fun _ => rfl, hbare.area, hbare.held⟩
  | found hphase | notFound hphase | noMem hphase =>
      have hbare : Bare s := hs.bare (by simp [hphase])
      exact ⟨hbare.tasks, hbare.arrTsk, hbare.area, hbare.held⟩
  | alloc hphase =>
      show Kthreads.Holds _ 0
      intro i hi
      exact absurd hi (Nat.not_lt_zero _)
  | created i hphase hok =>
      unfold Stage at hs
      rw [hphase] at hs
      refine ⟨fun j hj => ?_, s.tasks.brk, Function.update_self .., fun hmem => ?_⟩
      · obtain ⟨o, ho, htask⟩ := hs j hj
        refine ⟨o, ho, ?_⟩
        rw [← htask]
        exact Function.update_of_ne (by omega) ..
      · obtain ⟨t, ht⟩ := hb.of_held hmem
        exact absurd (hb.wf.lt ht) (Nat.lt_irrefl _)
  | notCreated i hphase hok =>
      unfold Timely at htime
      rw [hphase] at htime
      rw [hok] at htime
      cases htime
  | tested i hphase harr =>
      unfold Stage at hs
      rw [hphase] at hs
      obtain ⟨-, o, htask, -⟩ := hs
      rw [harr] at htask
      cases htask
  | take i o t hphase harr hobj =>
      unfold Stage at hs
      rw [hphase] at hs
      have hnext : ∀ p, Kthreads.Holds { s.get o t with phase := p, held := o :: s.held } (i + 1) :=
        fun p => hs.1.take harr rfl rfl
      by_cases hi : i = 0
      · rw [if_pos hi]
        subst hi
        exact hnext _
      · rw [if_neg hi]
        have hone : i = 1 := by omega
        subst hone
        exact hnext _
  | stop site o t hphase harr hobj =>
      unfold Stage at hs
      rw [hphase] at hs
      exact ⟨hs.1, hs.2.of_eq rfl rfl⟩
  | stopped site o t hphase hobj hlife =>
      unfold Stage at hs
      rw [hphase] at hs
      cases site with
      | out3 => exact absurd rfl hs.1
      | exit0 => exact ⟨nofun, hs.2.of_eq (put_held ..) (put_arrTsk ..)⟩
      | exit1 => exact hs.2.of_eq (put_held ..) (put_arrTsk ..)
  | freed hphase =>
      unfold Stage at hs
      rw [hphase] at hs
      exact hs.elim
  | unload hphase =>
      unfold Stage at hs
      rw [hphase] at hs
      exact ⟨nofun, hs⟩
  | removed hphase =>
      unfold Timely at htime
      rw [hphase] at htime
      exact htime.elim
  | badTake i hphase hnone =>
      unfold Stage at hs
      rw [hphase] at hs
      unfold Timely at htime
      rw [hphase] at htime
      obtain ⟨-, o, htask, -⟩ := hs
      rcases htime o htask with hlife | hlife <;> rw [hnone o htask] at hlife <;> cases hlife
  | badStop site hphase hnone =>
      unfold Stage at hs
      rw [hphase] at hs
      obtain ⟨o, ho, htask⟩ := hs.2 site.slot site.slot.isLt
      obtain ⟨t, ht⟩ := hb.of_held ho
      rw [hnone o htask] at ht
      cases ht
  | badWait site o hphase hnone =>
      obtain ⟨t, ht⟩ := hb.of_wait hphase
      rw [hnone] at ht
      cases ht

/-- A thread is no business of init and exit. -/
theorem Stage.of_eq (h : Stage s) (hphase : s'.phase = s.phase) (harr : s'.arrTsk = s.arrTsk)
    (harea : s'.area = s.area) (hheld : s'.held = s.held)
    (htasks : (∀ o, s.tasks.obj o = none) → ∀ o, s'.tasks.obj o = none) : Stage s' := by
  have hbare : Bare s → Bare s' := fun hb =>
    ⟨htasks hb.tasks, harr ▸ hb.arrTsk, harea ▸ hb.area, hheld ▸ hb.held⟩
  have hholds : ∀ n, s.Holds n → s'.Holds n := fun n hn => hn.of_eq hheld harr
  unfold Stage at h ⊢
  rw [hphase, harr, hheld]
  cases hp : s.phase <;> simp only [hp] at h ⊢
  case absent | failed | init | initAlloc => exact hbare h
  case create | live | exitFree => exact hholds _ h
  case taking => exact ⟨hholds _ h.1, h.2⟩
  case stop | wait => exact ⟨h.1, hholds _ h.2⟩

theorem Ends.stage (h : Ends o s s') (hs : Stage s) : Stage s' := by
  cases h with
  | finish refs hobj =>
      refine hs.of_eq rfl rfl rfl rfl fun hnone => ?_
      rw [hnone o] at hobj
      cases hobj
  | reap refs hobj =>
      have hnone : ¬ ∀ o, s.tasks.obj o = none := by
        intro hnone
        rw [hnone o] at hobj
        cases hobj
      exact hs.of_eq (put_phase ..) (put_arrTsk ..) (put_area ..) (put_held ..)
        fun h => absurd h hnone

theorem inductive_stage :
    kthreadMachine.Inductive Timely fun s => Books s ∧ Stage s where
  init := by
    intro s hinit
    refine ⟨inductive_books.init s hinit, ?_⟩
    rw [show s = kthreads0 from hinit]
    exact ⟨fun _ => rfl, fun _ => rfl, rfl, rfl⟩
  step := by
    intro s a s' ⟨hb, hs⟩ htime hnext
    refine ⟨inductive_books.step s a s' hb trivial hnext, ?_⟩
    cases a with
    | module ok => exact (code_of_moduleNext hnext).stage hs hb htime
    | thread o => exact (ends_of_threadNext hnext).stage hs

theorem Stage.sound (h : Stage s) : Sound s where
  noOops hphase := by
    unfold Stage at h
    rw [hphase] at h
    exact h
  both hphase i := by
    unfold Stage at h
    rw [hphase] at h
    exact h.created i i.isLt
  nothing hphase := by
    have hbare := h.bare (by simp [hphase])
    refine ⟨fun hall => ?_, hbare.area, fun o t ht => ?_⟩
    · obtain ⟨o, ho⟩ := hall 0
      rw [hbare.arrTsk 0] at ho
      cases ho
    · rw [hbare.tasks o] at ht
      cases ht
  dropped hphase := (h.bare (by simp [hphase])).held

/-- **In good time the module keeps its promises.** -/
theorem threads_sound (h : kthreadMachine.ReachableBy Timely s) : Sound s :=
  (inductive_stage.holds h).2.sound

/-- At `taking`, what has no entry in `held` goes with the thread. -/
theorem Stage.unreaped (h : Stage s) (hb : Books s) {i : Fin 2} (hphase : s.phase = .taking i)
    (htask : s.arrTsk i = .task o) {t : Task} (hobj : s.tasks.obj o = some t) :
    t.life ≠ .reaped := by
  intro hlife
  unfold Stage at h
  rw [hphase] at h
  obtain ⟨-, u, hu, hfree⟩ := h
  rw [htask, Ptr.task.injEq] at hu
  have hcount : s.held.count o = 0 := List.count_eq_zero.mpr (hu ▸ hfree)
  obtain ⟨hrefs, hpos⟩ := hb.counted o t hobj
  rw [Kthreads.taken, hcount, hphase, hlife] at hrefs
  rw [hrefs] at hpos
  exact absurd hpos (Nat.lt_irrefl 0)

/-- The module uses what `run_kthrd` has put into the table. -/
theorem oops_of_taking {i : Fin 2} (hphase : s.phase = .taking i) (hnull : s.arrTsk i ≠ .null)
    (hnone : ∀ o, s.arrTsk i = .task o → s.tasks.obj o = none) :
    moduleNext ok s = some { s with phase := .oops } := by
  unfold moduleNext
  simp only [hphase]
  rw [if_neg hnull]
  rcases s.use_cases (s.arrTsk i) _ with ⟨o, t, htask, hobj, -⟩ | ⟨-, huse⟩
  · rw [hnone o htask] at hobj
    cases hobj
  · rw [huse]

/-- **And only then**: the first step that is out of time breaks them, or the next one does. -/
theorem unsound_of_untimely (h : kthreadMachine.ReachableBy Timely s) {a : Act}
    (hlate : ¬ Timely s a) (hnext : kthreadMachine.next s a = some s') :
    ¬ Sound s' ∨ ∃ s₂, kthreadMachine.next s' (.module true) = some s₂ ∧ ¬ Sound s₂ := by
  obtain ⟨hb, hs⟩ := inductive_stage.holds h
  cases a with
  | thread o => exact absurd trivial hlate
  | module ok =>
      unfold Timely at hlate
      have hcode : moduleNext ok s = some s' := hnext
      cases hphase : s.phase <;> simp only [hphase] at hlate
      case create i =>
        simp only [moduleNext, hphase, if_neg hlate, Option.some.injEq] at hcode
        refine Or.inr ⟨{ s' with phase := .oops }, ?_, fun hsound => hsound.noOops rfl⟩
        have herr : s'.arrTsk i = .err := by
          rw [← hcode]
          exact Function.update_self ..
        refine oops_of_taking (i := i) (hcode ▸ rfl) (by rw [herr]; exact nofun) fun o ho => ?_
        rw [herr] at ho
        cases ho
      case taking i =>
        have hnone : ∀ o, s.arrTsk i = .task o → s.tasks.obj o = none := by
          intro o ho
          by_contra hsome
          obtain ⟨t, hobj⟩ := Option.ne_none_iff_exists'.mp hsome
          have hlife : t.life ≠ .reaped := hs.unreaped hb hphase ho hobj
          refine hlate fun u hu => ?_
          rw [ho, Ptr.task.injEq] at hu
          rw [← hu, hobj]
          cases hl : t.life with
          | running => exact Or.inl (congrArg some hl)
          | finished => exact Or.inr (congrArg some hl)
          | reaped => exact absurd hl hlife
        have hnull : s.arrTsk i ≠ .null := by
          intro hnull
          refine hlate fun u hu => ?_
          rw [hnull] at hu
          cases hu
        rw [oops_of_taking hphase hnull hnone, Option.some.injEq] at hcode
        exact Or.inl fun hsound => hsound.noOops (hcode ▸ rfl)
      case exitFree =>
        simp only [moduleNext, hphase, Option.some.injEq] at hcode
        unfold Stage at hs
        rw [hphase] at hs
        obtain ⟨o, ho, -⟩ := hs 0 (by decide)
        refine Or.inl fun hsound => ?_
        have hheld : s'.held = [] := hsound.dropped (hcode ▸ rfl)
        rw [← hcode] at hheld
        rw [hheld] at ho
        cases ho
      all_goals exact absurd trivial hlate

end Good

/-! ### Two runs -/

/-- `k` steps of init or exit, all of them going well. -/
def codeSteps (k : Nat) : List Act := List.replicate k (.module true)

/-- The module is loaded, both threads end, and exit gets as far as `free_percpu`. -/
def stopRun : kthreadMachine.Run 16 :=
  .ofActs kthreads0
    (codeSteps 7 ++ [.thread 0, .thread 1, .thread 1, .thread 0] ++ codeSteps 5) rfl
    (by decide +kernel)

/-- `kthread_run` fails for the first thread. -/
def noThreadRun : kthreadMachine.Run 5 :=
  .ofActs kthreads0 (codeSteps 3 ++ [.module false] ++ codeSteps 1) rfl (by decide +kernel)

theorem stopRun_timely : stopRun.Meets Timely := by
  show ∀ i, i < 16 → Timely (stopRun.state i) (stopRun.act i)
  decide +kernel

theorem threads_sound_stopRun :
    Sound (stopRun.state 16) ∧ (stopRun.state 16).phase = .exitFree :=
  ⟨threads_sound (stopRun.reachableBy stopRun_timely 16 (le_refl _)), by decide +kernel⟩

/-- `get_task_struct` is applied to an error pointer. -/
theorem not_threads_sound : ¬ ∀ s, kthreadMachine.Reachable s → Sound s := by
  intro h
  exact (h _ (noThreadRun.reachable 5 (le_refl _))).noOops (by decide +kernel)

end Lkp.PerCpu
