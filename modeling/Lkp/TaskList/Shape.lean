/-
The lists and the references, whoever is at work.

A task has one place: a leader is in the list of processes, any other task in the ring
of its leader (`Shape.group`, `Shape.thread`).  One that is in its list, or that was
unlinked while a section is open that had begun before, is there and the kernel has its
reference (`Shape.alive`, `Shape.pending`).  The count of a task is the kernel's reference
and those of the listings, so a task is gone as soon as nobody has one
(`Shape.refs`, `Shape.pos`).

All of this is so in every run, with listings inside a section or not.
-/
import Lkp.TaskList.Walk

namespace Lkp.TaskList

open Tasks (Task Comm)

/-! ### What one step can do -/

/-- The steps of the kernel. -/
inductive KernelMove (s : Sys) : Sys → Prop
  | fork (t nr) : KernelMove s (s.fork t nr)
  | clone (g t) (hg : s.procs.Listed g) (hne : g ≠ initTask) : KernelMove s (s.clone g t)
  | exit (o) (h : s.Leaves o) : KernelMove s (s.unhash o)
  | reap (o) {obj tick brk} (hlink : s.link o = .unlinked tick brk) (hobj : s.heap.obj o = some obj)
      (hover : s.rcu.Over tick) (hreaped : obj.reaped = false) :
      KernelMove s (s.put o { obj with refs := obj.refs - 1, reaped := true })
  | modify (o) {obj obj'} (hobj : s.heap.obj o = some obj) (hrefs : obj'.refs = obj.refs)
      (hreaped : obj'.reaped = obj.reaped) (husers : obj'.users = obj.users)
      (hlock : obj'.lock = obj.lock ∨ obj.Unlocked ∧ obj'.Unlocked) : KernelMove s (s.store o obj')

/-- The task that a listing uses next. -/
def pointer : Call → Option Nat
  | .nextTask v => some v.g
  | .body v (.load f :: _) => some (f.of v)
  | .body _ (.print :: _) | .body _ [] => none
  | .body v (_ :: _) | .copy v _ | .nextThread v => some v.t
  | _ => none

/-- The variables of a listing that is under way, and what it has to do for its task. -/
def stateOf : Call → Option (Vars × List Instr)
  | .nextTask v | .nextThread v | .leave v => some (v, [])
  | .body v todo | .copy v todo | .oops v todo => some (v, todo)
  | _ => none

/-- The steps of a listing, one constructor for each way out of a place. -/
inductive Move (L : Listing) (c : Nat) : Sys → Call → Sys → Call → Prop
  | start {s} : Move L c s .idle s .enter
  | enterRcu {s} (hrcu : L.rcu = true) :
      Move L c s .enter { s with rcu := s.rcu.lock }
        (.nextTask ⟨some s.rcu.next, initTask, initTask, .blank, [], L.total⟩)
  | enter {s} (hrcu : L.rcu = false) :
      Move L c s .enter s (.nextTask ⟨none, initTask, initTask, .blank, [], L.total⟩)
  | last {s} (v) {obj} (hobj : s.heap.obj v.g = some obj) (hnext : s.procs.next v.g = initTask) :
      Move L c s (.nextTask v) s (.leave v)
  | process {s} (v) {obj} (hobj : s.heap.obj v.g = some obj)
      (hnext : s.procs.next v.g ≠ initTask) :
      Move L c s (.nextTask v) s
        (.body (v.at (s.procs.next v.g) (s.procs.next v.g)) L.body)
  | toThreads {s} (v) (h : L.threads = true) : Move L c s (.body v []) s (.nextThread v)
  | toTasks {s} (v) (h : L.threads = false) : Move L c s (.body v []) s (.nextTask v)
  | lastThread {s} (v) {obj} (hobj : s.heap.obj v.t = some obj)
      (hnext : (s.threads v.g).next v.t = v.g) : Move L c s (.nextThread v) s (.nextTask v)
  | thread {s} (v) {obj} (hobj : s.heap.obj v.t = some obj)
      (hnext : (s.threads v.g).next v.t ≠ v.g) :
      Move L c s (.nextThread v) s (.body (v.at v.g ((s.threads v.g).next v.t)) L.body)
  | print {s} (v todo) : Move L c s (.body v (.print :: todo)) s (.body v.print todo)
  | load {s} (v f todo) {obj} (hobj : s.heap.obj (f.of v) = some obj) :
      Move L c s (.body v (.load f :: todo)) s (.body (v.load f obj) todo)
  | get {s} (v todo) {obj} (hobj : s.heap.obj v.t = some obj) :
      Move L c s (.body v (.getTaskStruct :: todo)) (s.store v.t (obj.get c)) (.body v todo)
  | put {s} (v todo) {obj} (hobj : s.heap.obj v.t = some obj) :
      Move L c s (.body v (.putTaskStruct :: todo)) (s.put v.t (obj.drop c)) (.body v todo)
  | lock {s} (v todo) {obj} (hobj : s.heap.obj v.t = some obj) (hfree : obj.lock = none) :
      Move L c s (.body v (.taskLock :: todo)) (s.store v.t { obj with lock := some (.call c) })
        (.body v todo)
  | unlock {s} (v todo) {obj} (hobj : s.heap.obj v.t = some obj) :
      Move L c s (.body v (.taskUnlock :: todo)) (s.store v.t { obj with lock := none })
        (.body v todo)
  | comm {s} (v todo) {obj} (hobj : s.heap.obj v.t = some obj) (hfree : obj.lock = none) :
      Move L c s (.body v (.getTaskComm :: todo)) (s.store v.t { obj with lock := some (.call c) })
        (.copy v todo)
  | copy {s} (v todo) {obj} (hobj : s.heap.obj v.t = some obj) :
      Move L c s (.copy v todo) (s.store v.t { obj with lock := none })
        (.body (v.load .tComm obj) todo)
  | leaveRcu {s} (v) {t} (ht : v.ticket = some t) :
      Move L c s (.leave v) { s with rcu := s.rcu.unlock t } (.ret v.shown v.total)
  | leave {s} (v) (ht : v.ticket = none) : Move L c s (.leave v) s (.ret v.shown v.total)
  | oops {s l v todo} (o) (hl : pointer l = some o) (hv : stateOf l = some (v, todo))
      (h : s.heap.obj o = none) : Move L c s l s (.oops v todo)

section Moves

variable {L : Nat → Listing} {M : Listing} {c : Nat} {s s' : Sys} {l l' : Call}

theorem modify_eq_some {o : Nat} {f : Obj → Option Obj} (h : s.modify o f = some s') :
    ∃ obj obj', s.heap.obj o = some obj ∧ f obj = some obj' ∧ s' = s.store o obj' := by
  obtain ⟨obj', hobj', rfl⟩ := Option.map_eq_some_iff.mp h
  obtain ⟨obj, hobj, hf⟩ := Option.bind_eq_some_iff.mp hobj'
  exact ⟨obj, obj', hobj, hf, rfl⟩

theorem move_of_kernelStep {k : Kernel} (h : kernelStep s k = some s') : KernelMove s s' := by
  cases k with
  | fork t nr =>
      cases h
      exact .fork t nr
  | clone g t =>
      simp only [kernelStep] at h
      split at h <;> cases h
      rename_i hg
      exact .clone g t hg.1 hg.2
  | exit o =>
      simp only [kernelStep] at h
      split at h <;> cases h
      exact .exit o ‹_›
  | reap o =>
      simp only [kernelStep] at h
      split at h
      · rename_i hlink hobj
        split at h <;> cases h
        rename_i hboth
        exact .reap o hlink hobj hboth.1 hboth.2
      · cases h
  | lock o =>
      obtain ⟨obj, obj', hobj, hf, rfl⟩ := modify_eq_some h
      split at hf <;> cases hf
      exact .modify o hobj rfl rfl rfl (Or.inr ⟨Or.inl ‹_›, Or.inr rfl⟩)
  | unlock o =>
      obtain ⟨obj, obj', hobj, hf, rfl⟩ := modify_eq_some h
      split at hf <;> cases hf
      exact .modify o hobj rfl rfl rfl (Or.inr ⟨Or.inr ‹_›, Or.inl rfl⟩)
  | rename o comm mm =>
      obtain ⟨obj, obj', hobj, hf, rfl⟩ := modify_eq_some h
      split at hf <;> cases hf
      exact .modify o hobj rfl rfl rfl (Or.inl rfl)
  | change o uid euid nr =>
      obtain ⟨obj, obj', hobj, hf, rfl⟩ := modify_eq_some h
      cases hf
      exact .modify o hobj rfl rfl rfl (Or.inl rfl)

theorem move_of_instrStep {v : Vars} {i : Instr} {todo : List Instr}
    (h : instrStep c s v i todo = some (s', l')) : Move M c s (.body v (i :: todo)) s' l' := by
  unfold instrStep at h
  split at h
  · cases h
    exact .print _ _
  · split at h <;> cases h
    · exact .load _ _ _ ‹_›
    · exact .oops _ rfl rfl ‹_›
  · rename_i hprint hload
    have hpointer : pointer (.body v (i :: todo)) = some v.t := by
      cases i with
      | print => exact absurd rfl hprint
      | load f => exact absurd rfl (hload f)
      | _ => rfl
    split at h
    · cases h
      exact .oops _ hpointer rfl ‹_›
    · split at h
      · cases h
        exact .get _ _ ‹_›
      · cases h
        exact .put _ _ ‹_›
      · split at h <;> cases h
        exact .lock _ _ ‹_› ‹_›
      · cases h
        exact .unlock _ _ ‹_›
      · rename_i hget hput hlock hunlock
        split at h <;> cases h
        cases i with
        | getTaskComm => exact .comm _ _ ‹_› ‹_›
        | getTaskStruct => exact absurd rfl hget
        | putTaskStruct => exact absurd rfl hput
        | taskLock => exact absurd rfl hlock
        | taskUnlock => exact absurd rfl hunlock
        | load f => exact absurd rfl (hload f)
        | print => exact absurd rfl hprint

theorem move_of_listStep (h : listStep M c s l = some (s', l')) : Move M c s l s' l' := by
  unfold listStep at h
  split at h
  · split at h <;> cases h
    · exact .enterRcu ‹_›
    · exact .enter (Bool.eq_false_iff.mpr ‹_›)
  · split at h
    · cases h
      exact .oops _ rfl rfl ‹_›
    · split at h <;> cases h
      · exact .last _ ‹_› ‹_›
      · exact .process _ ‹_› ‹_›
  · cases h
    split
    · exact .toThreads _ ‹_›
    · exact .toTasks _ (Bool.eq_false_iff.mpr ‹_›)
  · exact move_of_instrStep h
  · split at h <;> cases h
    · exact .oops _ rfl rfl ‹_›
    · exact .copy _ _ ‹_›
  · split at h
    · cases h
      exact .oops _ rfl rfl ‹_›
    · split at h <;> cases h
      · exact .lastThread _ ‹_› ‹_›
      · exact .thread _ ‹_› ‹_›
  · split at h <;> cases h
    · exact .leaveRcu _ ‹_›
    · exact .leave _ ‹_›
  · cases h

/-- A step is one of the kernel's, taken by a call that stays idle, or one of a listing. -/
theorem move_of_step {e : Env} (h : step L c e s l = some (s', l')) :
    (KernelMove s s' ∧ l = .idle ∧ l' = .idle) ∨ Move (L c) c s l s' l' := by
  unfold step at h
  split at h
  · cases h
    exact Or.inr .start
  · exact Or.inr (move_of_listStep h)
  · obtain ⟨t, ht, hpair⟩ := Option.map_eq_some_iff.mp h
    cases hpair
    exact Or.inl ⟨move_of_kernelStep ht, rfl, rfl⟩
  · cases h

end Moves

/-! ### The invariant of the kernel's data -/

/-- The references of the kernel. -/
def Obj.own (obj : Obj) : Nat := if obj.reaped = true then 0 else 1

theorem Obj.own_of_not_reaped {obj : Obj} (h : obj.reaped = false) : obj.own = 1 := by
  rw [Obj.own, h]
  rfl

/-- Every task has its place in one of the lists. -/
structure Grouped (s : Sys) : Prop where
  procs : s.procs.WF s.rcu.next s.heap.brk
  procsHead : s.procs.head = initTask
  group : ∀ g, s.procs.link g ≠ .absent →
    (s.threads g).WF s.rcu.next s.heap.brk ∧ (s.threads g).head = g ∧ s.leader g = g
  thread : ∀ g t, s.procs.link g ≠ .absent → (s.threads g).link t ≠ .absent → s.leader t = g
  /-- The leader of a thread is a process. -/
  leader : ∀ o, s.leader o = o ∨ s.procs.link (s.leader o) ≠ .absent

/-- Who has a reference to what. -/
structure Counted (s : Sys) : Prop where
  rcu : s.rcu.WF
  heap : s.heap.WF
  alive : ∀ o, s.link o = .listed → ∃ obj, s.heap.obj o = some obj ∧ obj.reaped = false
  pending : ∀ o tick brk, s.link o = .unlinked tick brk → ¬ s.rcu.Over tick →
    ∃ obj, s.heap.obj o = some obj ∧ obj.reaped = false
  refs : ∀ o obj, s.heap.obj o = some obj → obj.refs = obj.users.card + obj.own
  pos : ∀ o obj, s.heap.obj o = some obj → 0 < obj.refs

/-- The lists and the references. -/
structure Shape (s : Sys) : Prop extends Grouped s, Counted s

/-- What has become of a process, and of a thread. -/
theorem Shape.link_process {s : Sys} (hS : Shape s) {g : Nat} (hg : s.procs.link g ≠ .absent) :
    s.link g = s.procs.link g := by
  rw [Sys.link, if_pos (hS.group g hg).2.2]

theorem Shape.link_thread {s : Sys} (hS : Shape s) {g t : Nat} (hg : s.procs.link g ≠ .absent)
    (ht : (s.threads g).link t ≠ .absent) (hne : t ≠ g) : s.link t = (s.threads g).link t := by
  have hleader := hS.thread g t hg ht
  rw [Sys.link, hleader, if_neg hne.symm]

theorem Shape.process_lt {s : Sys} (hS : Shape s) {g : Nat} (hg : s.procs.link g ≠ .absent) :
    g < s.heap.brk := (hS.procs.range g hg).2

section Store

variable {s : Sys} {o : Nat} {obj obj' : Obj} {tick : Nat}

@[simp] theorem store_rcu : (s.store o obj).rcu = s.rcu := rfl
@[simp] theorem store_procs : (s.store o obj).procs = s.procs := rfl
@[simp] theorem store_threads : (s.store o obj).threads = s.threads := rfl
@[simp] theorem store_leader : (s.store o obj).leader = s.leader := rfl
@[simp] theorem store_link {x : Nat} : (s.store o obj).link x = s.link x := rfl
@[simp] theorem store_brk : (s.store o obj).heap.brk = s.heap.brk := rfl

@[simp] theorem put_rcu : (s.put o obj).rcu = s.rcu := by unfold Sys.put; split <;> rfl
@[simp] theorem put_procs : (s.put o obj).procs = s.procs := by unfold Sys.put; split <;> rfl
@[simp] theorem put_threads : (s.put o obj).threads = s.threads := by unfold Sys.put; split <;> rfl
@[simp] theorem put_leader : (s.put o obj).leader = s.leader := by unfold Sys.put; split <;> rfl
@[simp] theorem put_brk : (s.put o obj).heap.brk = s.heap.brk := by unfold Sys.put; split <;> rfl

@[simp] theorem put_link {x : Nat} : (s.put o obj).link x = s.link x := by
  unfold Sys.put
  split <;> rfl

/-- What a task is after a `put_task_struct`. -/
theorem put_obj_self : (s.put o obj).heap.obj o = if obj.refs = 0 then none else some obj := by
  unfold Sys.put
  split
  · exact Heap.free_self
  · exact Heap.store_self

theorem put_obj_of_ne {x : Nat} (hx : x ≠ o) : (s.put o obj).heap.obj x = s.heap.obj x := by
  unfold Sys.put
  split
  · exact Heap.free_of_ne hx
  · exact Heap.store_of_ne hx

/-- A change with references left is a store. -/
theorem store_eq_put (hpos : 0 < obj.refs) : s.store o obj = s.put o obj := by
  rw [Sys.put, if_neg hpos.ne']

/--
**The kernel's data stays in order when one task changes**, if its count fits and the
kernel has dropped its reference only after a grace period.
-/
theorem Shape.put (hS : Shape s) (hobj : s.heap.obj o = some obj)
    (hrefs : obj'.refs = obj'.users.card + obj'.own)
    (hreaped : obj'.reaped = true → obj.reaped = true ∨
      ∃ tick brk, s.link o = .unlinked tick brk ∧ s.rcu.Over tick) : Shape (s.put o obj') := by
  -- a task of which the kernel must have its reference has kept it
  have hkept : ∀ x, (∃ obj, s.heap.obj x = some obj ∧ obj.reaped = false) →
      (x = o → obj'.reaped = false) →
        ∃ obj, (s.put o obj').heap.obj x = some obj ∧ obj.reaped = false := by
    intro x hx hsame
    by_cases heq : x = o
    · subst heq
      have hfalse := hsame rfl
      refine ⟨obj', ?_, hfalse⟩
      rw [put_obj_self, if_neg]
      rw [hrefs, Obj.own_of_not_reaped hfalse]
      omega
    · rw [put_obj_of_ne heq]
      exact hx
  refine
    { rcu := by simpa using hS.rcu
      heap := ?_
      procs := by simpa using hS.procs
      procsHead := by simpa using hS.procsHead
      group := by simpa using hS.group
      thread := by simpa using hS.thread
      leader := by simpa using hS.leader
      alive := fun x hx => ?_
      pending := fun x tick brk hx hover => ?_
      refs := fun x y hx => ?_
      pos := fun x y hx => ?_ }
  · unfold Sys.put
    split
    · exact hS.heap.free
    · exact hS.heap.store (hS.heap.lt hobj)
  · rw [put_link] at hx
    refine hkept x (hS.alive x hx) ?_
    rintro rfl
    by_contra hnot
    rcases hreaped (by simpa using hnot) with hwas | ⟨t, n, hgone, -⟩
    · obtain ⟨obj₂, hobj₂, hfalse⟩ := hS.alive x hx
      rw [hobj, Option.some.injEq] at hobj₂
      rw [hobj₂, hfalse] at hwas
      cases hwas
    · rw [hx] at hgone
      cases hgone
  · rw [put_link] at hx
    rw [put_rcu] at hover
    refine hkept x (hS.pending x tick brk hx hover) ?_
    rintro rfl
    by_contra hnot
    rcases hreaped (by simpa using hnot) with hwas | ⟨t, n, hgone, hover'⟩
    · obtain ⟨obj₂, hobj₂, hfalse⟩ := hS.pending x tick brk hx hover
      rw [hobj, Option.some.injEq] at hobj₂
      rw [hobj₂, hfalse] at hwas
      cases hwas
    · rw [hx, Link.unlinked.injEq] at hgone
      rw [← hgone.1] at hover'
      exact hover hover'
  · by_cases heq : x = o
    · subst heq
      rw [put_obj_self] at hx
      split at hx <;> cases hx
      exact hrefs
    · rw [put_obj_of_ne heq] at hx
      exact hS.refs x y hx
  · by_cases heq : x = o
    · subst heq
      rw [put_obj_self] at hx
      split at hx <;> cases hx
      omega
    · rw [put_obj_of_ne heq] at hx
      exact hS.pos x y hx

/-- A change that leaves the references alone. -/
theorem Shape.store (hS : Shape s) (hobj : s.heap.obj o = some obj) (hrefs : obj'.refs = obj.refs)
    (hreaped : obj'.reaped = obj.reaped) (husers : obj'.users = obj.users) :
    Shape (s.store o obj') := by
  rw [store_eq_put (by rw [hrefs]; exact hS.pos o obj hobj)]
  refine hS.put hobj ?_ fun h => Or.inl (hreaped ▸ h)
  rw [hrefs, husers, hS.refs o obj hobj, Obj.own, Obj.own, hreaped]

/-- A listing takes a reference. -/
theorem Shape.get (hS : Shape s) {c : Nat} (hobj : s.heap.obj o = some obj) (hc : c ∉ obj.users) :
    Shape (s.store o (obj.get c)) := by
  rw [store_eq_put (Nat.succ_pos _)]
  refine hS.put hobj ?_ fun h => Or.inl h
  show obj.refs + 1 = (insert c obj.users).card + obj.own
  rw [Finset.card_insert_of_notMem hc, hS.refs o obj hobj]
  omega

/-- A listing drops its reference. -/
theorem Shape.drop (hS : Shape s) {c : Nat} (hobj : s.heap.obj o = some obj) (hc : c ∈ obj.users) :
    Shape (s.put o (obj.drop c)) := by
  refine hS.put hobj ?_ fun h => Or.inl h
  have hcard := Finset.card_pos.mpr ⟨c, hc⟩
  show obj.refs - 1 = (obj.users.erase c).card + obj.own
  rw [Finset.card_erase_of_mem hc, hS.refs o obj hobj]
  omega

/-- The kernel drops its own. -/
theorem Shape.reap (hS : Shape s) {brk : Nat} (hlink : s.link o = .unlinked tick brk)
    (hobj : s.heap.obj o = some obj) (hover : s.rcu.Over tick) (hreaped : obj.reaped = false) :
    Shape (s.put o { obj with refs := obj.refs - 1, reaped := true }) := by
  refine hS.put hobj ?_ fun _ => Or.inr ⟨tick, brk, hlink, hover⟩
  show obj.refs - 1 = obj.users.card + 0
  rw [hS.refs o obj hobj, Obj.own_of_not_reaped hreaped]
  omega

end Store

section Sections

variable {s : Sys}

/-- A task was unlinked before now. -/
theorem Shape.tick_le (hS : Shape s) {o tick brk : Nat} (ho : s.link o = .unlinked tick brk) :
    tick ≤ s.rcu.next := by
  simp only [Sys.link] at ho
  split at ho
  · exact (hS.procs.past o tick brk ho).1
  · rename_i hne
    have hleader := (hS.leader o).resolve_left hne
    exact ((hS.group _ hleader).1.past o tick brk ho).1

/-- A section begins. -/
theorem Shape.rcuLock (hS : Shape s) : Shape { s with rcu := s.rcu.lock } :=
  { hS with
    rcu := (Rcu.Section.lock s.rcu).wf hS.rcu
    procs := hS.procs.mono (Nat.le_succ _) (Nat.le_refl _)
    group := fun g hg =>
      ⟨(hS.group g hg).1.mono (Nat.le_succ _) (Nat.le_refl _), (hS.group g hg).2⟩
    pending := fun o tick brk ho hover => by
      refine hS.pending o tick brk ho fun hwas => hover fun t ht => ?_
      rcases Finset.mem_insert.mp ht with rfl | hold
      · -- the new section begins after the task was unlinked
        exact hS.tick_le ho
      · exact hwas t hold }

/-- A section ends. -/
theorem Shape.rcuUnlock (hS : Shape s) (t : Nat) : Shape { s with rcu := s.rcu.unlock t } :=
  { hS with
    rcu := (Rcu.Section.unlock s.rcu t).wf hS.rcu
    pending := fun o tick brk ho hover =>
      hS.pending o tick brk ho fun hwas => hover fun u hu => hwas u (Finset.mem_of_mem_erase hu) }

end Sections

/-! ### Tasks that come and go -/

section Lists

variable {s s' : Sys} {o g : Nat} {t : Task} {nr : BitVec 32}

/-- Where a process is created, only the new task has another place than before. -/
theorem Grouped.link_fork (hS : Grouped s) (o : Nat) :
    (s.fork t nr).link o = if o = s.heap.brk then .listed else s.link o := by
  by_cases ho : o = s.heap.brk
  · rw [if_pos ho, ho]
    simp only [Sys.link, Sys.fork, Function.update_self, if_true]
    exact Chain.listed_add_self
  · rw [if_neg ho]
    simp only [Sys.link, Sys.fork, Function.update_of_ne ho]
    split
    · exact Chain.link_add_of_ne ho
    · rename_i hne
      have hleader := (hS.procs.range _ ((hS.leader o).resolve_left hne)).2
      rw [Function.update_of_ne hleader.ne]

/-- So it is where a thread is created. -/
theorem Grouped.link_clone (hS : Grouped s) (hg : s.procs.Listed g) (o : Nat) :
    (s.clone g t).link o = if o = s.heap.brk then .listed else s.link o := by
  by_cases ho : o = s.heap.brk
  · rw [if_pos ho, ho]
    simp only [Sys.link, Sys.clone, Function.update_self]
    rw [if_neg (hS.procs.lt_of_listed hg).ne]
    exact Chain.listed_add_self
  · rw [if_neg ho]
    simp only [Sys.link, Sys.clone, Function.update_of_ne ho]
    split
    · rfl
    · by_cases heq : s.leader o = g
      · rw [heq, Function.update_self]
        exact Chain.link_add_of_ne ho
      · rw [Function.update_of_ne heq]

/-- Where a task is unlinked, only that one has another place. -/
theorem link_unhash (s : Sys) (z o : Nat) :
    (s.unhash z).link o = if o = z then .unlinked s.rcu.next s.heap.brk else s.link o := by
  unfold Sys.unhash
  by_cases hz : s.leader z = z
  · rw [if_pos hz]
    by_cases ho : o = z
    · rw [if_pos ho, ho]
      simp only [Sys.link, hz, if_true]
      exact Chain.link_del_self
    · rw [if_neg ho]
      simp only [Sys.link, Chain.link_del_of_ne ho]
  · rw [if_neg hz]
    by_cases ho : o = z
    · rw [if_pos ho, ho]
      simp only [Sys.link, if_neg hz, Function.update_self]
      exact Chain.link_del_self
    · rw [if_neg ho]
      simp only [Sys.link]
      split
      · rfl
      · by_cases heq : s.leader o = s.leader z
        · rw [heq, Function.update_self]
          exact Chain.link_del_of_ne ho
        · rw [Function.update_of_ne heq]

/-- The tasks, where one is created. -/
theorem Counted.born (hS : Counted s) (hheap : s'.heap = s.heap.alloc (newObj t nr))
    (hrcu : s'.rcu = s.rcu)
    (hlink : ∀ o, s'.link o = if o = s.heap.brk then .listed else s.link o) : Counted s' := by
  have hobj : ∀ o obj, s'.heap.obj o = some obj →
      obj = newObj t nr ∨ s.heap.obj o = some obj := by
    intro o obj ho
    rw [hheap] at ho
    by_cases heq : o = s.heap.brk
    · rw [heq, Heap.alloc_self] at ho
      exact Or.inl (Option.some.inj ho).symm
    · rw [Heap.alloc_of_ne heq] at ho
      exact Or.inr ho
  refine ⟨hrcu ▸ hS.rcu, hheap ▸ hS.heap.alloc, fun o ho => ?_, fun o tick brk ho hover => ?_,
    fun o obj ho => ?_, fun o obj ho => ?_⟩
  · rw [hlink] at ho
    rw [hheap]
    split at ho
    · rename_i heq
      rw [heq, Heap.alloc_self]
      exact ⟨_, rfl, rfl⟩
    · rw [Heap.alloc_of_ne ‹_›]
      exact hS.alive o ho
  · rw [hlink] at ho
    rw [hrcu] at hover
    rw [hheap]
    split at ho
    · cases ho
    · rw [Heap.alloc_of_ne ‹_›]
      exact hS.pending o tick brk ho hover
  · rcases hobj o obj ho with rfl | hold
    · rfl
    · exact hS.refs o obj hold
  · rcases hobj o obj ho with rfl | hold
    · exact Nat.one_pos
    · exact hS.pos o obj hold

theorem Grouped.fork (hS : Grouped s) : Grouped (s.fork t nr) := by
  have hlt : ∀ g, s.procs.link g ≠ .absent → g < s.heap.brk := fun g hg => (hS.procs.range g hg).2
  -- a process is the new one or was one before
  have hprocs : ∀ g, (s.fork t nr).procs.link g ≠ .absent → g ≠ s.heap.brk →
      s.procs.link g ≠ .absent := fun g hg hne => Chain.link_add_of_ne hne ▸ hg
  refine ⟨hS.procs.add, hS.procsHead, fun g hg => ?_, fun g u hg hu => ?_, fun o => ?_⟩
  · by_cases heq : g = s.heap.brk
    · simp only [Sys.fork, heq, Function.update_self]
      exact ⟨Chain.wf_single (Nat.lt_succ_self _), rfl, trivial⟩
    · have hold := hS.group g (hprocs g hg heq)
      simp only [Sys.fork, Function.update_of_ne heq]
      exact ⟨hold.1.mono (Nat.le_refl _) (Nat.le_succ _), hold.2⟩
  · by_cases heq : g = s.heap.brk
    · simp only [Sys.fork, heq, Function.update_self] at hu ⊢
      by_cases hu' : u = s.heap.brk
      · rw [hu', Function.update_self]
      · exact absurd (Chain.link_single_of_ne hu') hu
    · have hold := hprocs g hg heq
      simp only [Sys.fork, Function.update_of_ne heq] at hu ⊢
      rw [Function.update_of_ne ((hS.group g hold).1.range u hu).2.ne]
      exact hS.thread g u hold hu
  · by_cases heq : o = s.heap.brk
    · simp only [Sys.fork, heq, Function.update_self, true_or]
    · simp only [Sys.fork, Function.update_of_ne heq]
      refine (hS.leader o).imp_right fun hold => ?_
      rw [Chain.link_add_of_ne (hlt _ hold).ne]
      exact hold

theorem Grouped.clone (hS : Grouped s) (hg : s.procs.Listed g) : Grouped (s.clone g t) := by
  have hlt : ∀ g, s.procs.link g ≠ .absent → g < s.heap.brk := fun g hg => (hS.procs.range g hg).2
  have hgroup := hS.group g hg.ne_absent
  refine ⟨hS.procs.mono (Nat.le_refl _) (Nat.le_succ _), hS.procsHead, fun g' hg' => ?_,
    fun g' u hg' hu => ?_, fun o => ?_⟩
  · have hold := hS.group g' hg'
    have hne : g' ≠ s.heap.brk := (hlt g' hg').ne
    by_cases heq : g' = g
    · simp only [Sys.clone, heq, Function.update_self]
      refine ⟨hgroup.1.add, hgroup.2.1, ?_⟩
      rw [Function.update_of_ne (heq ▸ hne)]
      exact hgroup.2.2
    · simp only [Sys.clone, Function.update_of_ne heq, Function.update_of_ne hne]
      exact ⟨hold.1.mono (Nat.le_refl _) (Nat.le_succ _), hold.2⟩
  · by_cases heq : g' = g
    · simp only [Sys.clone, heq, Function.update_self] at hu ⊢
      by_cases hu' : u = s.heap.brk
      · rw [hu', Function.update_self]
      · rw [Function.update_of_ne hu']
        rw [Chain.link_add_of_ne hu'] at hu
        exact hS.thread g u hg.ne_absent hu
    · simp only [Sys.clone, Function.update_of_ne heq] at hu ⊢
      rw [Function.update_of_ne ((hS.group g' hg').1.range u hu).2.ne]
      exact hS.thread g' u hg' hu
  · by_cases heq : o = s.heap.brk
    · simp only [Sys.clone, heq, Function.update_self]
      exact Or.inr hg.ne_absent
    · simp only [Sys.clone, Function.update_of_ne heq]
      exact hS.leader o

theorem Grouped.unhash (hS : Grouped s) {z : Nat} (hz : s.Leaves z) : Grouped (s.unhash z) := by
  have habsent : ∀ {l : Chain} {x tick brk}, (l.del z tick brk).link x ≠ .absent → l.Listed z →
      l.link x ≠ .absent := by
    intro l x tick brk hx hlisted
    by_cases heq : x = z
    · exact heq ▸ hlisted.ne_absent
    · rwa [Chain.link_del_of_ne heq] at hx
  obtain ⟨hne, hlisted, -⟩ := hz
  unfold Sys.link at hlisted
  by_cases hleader : s.leader z = z
  · rw [if_pos hleader] at hlisted
    rw [Sys.unhash, if_pos hleader]
    refine ⟨hS.procs.del hlisted (by rw [hS.procsHead]; exact hne), hS.procsHead,
      fun g hg => hS.group g (habsent hg hlisted),
      fun g u hg hu => hS.thread g u (habsent hg hlisted) hu, fun o => ?_⟩
    refine (hS.leader o).imp_right fun hold => ?_
    by_cases heq : s.leader o = z
    · show ((s.procs.del z _ _).link (s.leader o)) ≠ .absent
      rw [heq, Chain.link_del_self]
      simp
    · show ((s.procs.del z _ _).link (s.leader o)) ≠ .absent
      rw [Chain.link_del_of_ne heq]
      exact hold
  · rw [if_neg hleader] at hlisted
    have hproc := (hS.leader z).resolve_left hleader
    have hgroup := hS.group _ hproc
    rw [Sys.unhash, if_neg hleader]
    refine ⟨hS.procs, hS.procsHead, fun g hg => ?_, fun g u hg hu => ?_, hS.leader⟩
    · by_cases heq : g = s.leader z
      · subst heq
        simp only [Function.update_self]
        exact ⟨hgroup.1.del hlisted (by rw [hgroup.2.1]; exact Ne.symm hleader), hgroup.2⟩
      · simp only [Function.update_of_ne heq]
        exact hS.group g hg
    · by_cases heq : g = s.leader z
      · subst heq
        simp only [Function.update_self] at hu
        exact hS.thread _ u hproc (habsent hu hlisted)
      · simp only [Function.update_of_ne heq] at hu
        exact hS.thread g u hg hu

theorem Counted.unhash (hS : Counted s) {z : Nat} (hz : s.Leaves z) : Counted (s.unhash z) := by
  have hheap : (s.unhash z).heap = s.heap := by unfold Sys.unhash; split <;> rfl
  have hrcu : (s.unhash z).rcu = s.rcu := by unfold Sys.unhash; split <;> rfl
  refine ⟨hrcu ▸ hS.rcu, hheap ▸ hS.heap, fun o ho => ?_, fun o tick brk ho hover => ?_,
    by rw [hheap]; exact hS.refs, by rw [hheap]; exact hS.pos⟩
  · rw [link_unhash] at ho
    rw [hheap]
    split at ho
    · cases ho
    · exact hS.alive o ho
  · rw [link_unhash] at ho
    rw [hrcu] at hover
    rw [hheap]
    split at ho
    · -- what is unlinked now was in its list until now
      rename_i heq
      exact hS.alive o (heq ▸ hz.2.1)
    · exact hS.pending o tick brk ho hover

/-- **The kernel keeps its data in order.** -/
theorem KernelMove.shape (h : KernelMove s s') (hS : Shape s) : Shape s' := by
  cases h with
  | fork t nr =>
      exact { toGrouped := hS.toGrouped.fork
              toCounted := hS.toCounted.born rfl rfl hS.toGrouped.link_fork }
  | clone g t hg hne =>
      exact { toGrouped := hS.toGrouped.clone hg
              toCounted := hS.toCounted.born rfl rfl (hS.toGrouped.link_clone hg) }
  | exit o hleaves =>
      exact { toGrouped := hS.toGrouped.unhash hleaves, toCounted := hS.toCounted.unhash hleaves }
  | reap o hlink hobj hover hreaped => exact hS.reap hlink hobj hover hreaped
  | modify o hobj hrefs hreaped husers => exact hS.store hobj hrefs hreaped husers

/-- A task that is unlinked was in its list until then. -/
theorem KernelMove.link_unlinked (h : KernelMove s s') (hS : Shape s) {x tick brk : Nat}
    (hx : s'.link x = .unlinked tick brk) :
    s.link x = .unlinked tick brk ∨ s.link x = .listed := by
  cases h with
  | fork t nr =>
      rw [hS.toGrouped.link_fork] at hx
      split at hx
      · cases hx
      · exact Or.inl hx
  | clone g t hg hne =>
      rw [hS.toGrouped.link_clone hg] at hx
      split at hx
      · cases hx
      · exact Or.inl hx
  | exit z hleaves =>
      rw [link_unhash] at hx
      split at hx
      · rename_i heq
        exact Or.inr (heq ▸ hleaves.2.1)
      · exact Or.inl hx
  | reap =>
      rw [put_link] at hx
      exact Or.inl hx
  | modify => exact Or.inl hx

/-- There is only `init_task`. -/
theorem shape_boot (t : Task) : Shape (boot t) := by
  have hprocs : ∀ g, (boot t).procs.link g ≠ .absent → g = initTask := by
    intro g hg
    by_contra hne
    exact hg (Chain.link_single_of_ne hne)
  have hlink : ∀ o, o ≠ initTask → (boot t).link o = .absent := by
    intro o ho
    simp only [Sys.link, boot, if_true]
    exact Chain.link_single_of_ne ho
  have hobj : ∀ o obj, (boot t).heap.obj o = some obj → o = initTask ∧ obj = newObj t 1 := by
    intro o obj ho
    by_cases heq : o = initTask
    · subst heq
      simp only [boot, Function.update_self, Option.some.injEq] at ho
      exact ⟨rfl, ho.symm⟩
    · simp [boot, heq] at ho
  refine
    { procs := Chain.wf_single Nat.one_pos
      procsHead := rfl
      group := fun g hg => ?_
      thread := fun g u hg hu => ?_
      leader := fun o => Or.inl rfl
      rcu := Rcu.fresh_wf
      heap := fun o obj ho => ?_
      alive := fun o ho => ?_
      pending := fun o tick brk ho hover => ?_
      refs := fun o obj ho => ?_
      pos := fun o obj ho => ?_ }
  · obtain rfl := hprocs g hg
    exact ⟨Chain.wf_single Nat.one_pos, rfl, rfl⟩
  · by_contra hne
    exact hu (Chain.link_single_of_ne hne)
  · obtain ⟨rfl, -⟩ := hobj o obj ho
    exact Nat.one_pos
  · have heq : o = initTask := by
      by_contra hne
      rw [hlink o hne] at ho
      cases ho
    subst heq
    exact ⟨newObj t 1, by simp [boot], rfl⟩
  · exact absurd (fun u hu => by simp [boot, Rcu.fresh] at hu) hover
  · obtain ⟨-, rfl⟩ := hobj o obj ho
    rfl
  · obtain ⟨-, rfl⟩ := hobj o obj ho
    exact Nat.one_pos

end Lists

end Lkp.TaskList
