/-
The AB-BA demo from its init to its exit.

init creates the two threads and takes a reference to each; exit stops them, one after the
other, and `kthread_stop` waits until the thread has returned from `thrd_work`.  So the
module can be unloaded only if both threads come to an end.

Each step of init, of exit or of a thread lowers what is left to do (`left_lt`), so no run
is longer than `left` of its first state.  Seen without the module the threads are those
of `Lkp.Lockdep.machine` (`refines`), and those never get stuck but with `lock_ooo`.
Together: the module is unloaded, whatever the schedule, if and only if `lock_ooo` is not 1
(`unloads_iff`).

`kthread_run` reports failure by an error pointer, and `run_kthrd` tests for NULL; the way
out of init that stops the first thread is never taken.
-/
import Lkp.Lockdep.Abba

namespace Lkp.Lockdep

/-- `-EINTR`: the thread was told to stop before it began. -/
def EINTR : Int := 4

/-- `MAX_KTHRDS` is not 0; named, so that the indices below mention it. -/
theorem maxKthrds_ne_zero : NeZero 2 := ⟨by decide⟩

attribute [local instance] maxKthrds_ne_zero

/-- An entry of `arr_tsk`, with the `task_struct` it points to. -/
inductive Entry
  | null
  | err
  /-- The references to it; whether it has begun, is to stop, and has dropped its own references. -/
  | task (refs : Nat) (started stop reaped : Bool)
  /-- The `task_struct` is freed. -/
  | freed
  deriving DecidableEq

/-- The calls of `kthread_stop`: one in init, two in exit. -/
inductive Site
  | init
  | exit0
  | exit1
  deriving DecidableEq

/-- The entry of `arr_tsk` that is passed. -/
def Site.slot : Site → Fin 2
  | .init | .exit0 => 0
  | .exit1 => 1

/-- Where the module stands. -/
inductive Phase
  /-- In init: the test of `func_ptr` comes next. -/
  | init
  /-- In `run_kthrd(.., i)`: `kthread_run` comes next. -/
  | create (i : Fin 2)
  /-- In `run_kthrd(.., i)`: the test of the pointer and `get_task_struct` come next. -/
  | taking (i : Fin 2)
  /-- init has returned 0. -/
  | live
  /-- `kthread_stop` comes next. -/
  | stop (site : Site)
  /-- In `kthread_stop`, until the thread has returned. -/
  | wait (site : Site)
  /-- init has returned an error. -/
  | failed (ret : Int)
  /-- exit is through. -/
  | removed
  /-- `run_kthrd` used a pointer that is not to a `task_struct`. -/
  | oopsTaking (i : Fin 2)
  /-- `kthread_stop` did. -/
  | oopsStop (site : Site)
  deriving DecidableEq

/-- The module, its threads with the locks, and `arr_tsk`. -/
structure Module where
  phase : Phase
  threads : Pool Locks Place
  arrTsk : Fin 2 → Entry

/-- init and exit take a step, or a thread does; `ok` is what is called going well. -/
inductive Act
  | module (ok : Bool)
  | thread (i : Fin 2) (ok : Bool)

instance : Inhabited Act := ⟨.module true⟩

/-- A thread has returned from `thrd_work`. -/
def finished : Place → Bool
  | .done _ => true
  | _ => false

/-- `put_task_struct`, `n` times over. -/
def drop (refs n : Nat) (started stop reaped : Bool) : Entry :=
  if refs - n = 0 then .freed else .task (refs - n) started stop reaped

/-- What follows a `kthread_stop`. -/
def Site.after : Site → Phase
  | .init => .failed (-ENOMEM)
  | .exit0 => .stop .exit1
  | .exit1 => .removed

/-- Set an entry of `arr_tsk`. -/
def Module.set (s : Module) (phase : Phase) (i : Fin 2) (e : Entry) : Module :=
  { s with phase := phase, arrTsk := Function.update s.arrTsk i e }

/-- `deadlock_eg_AB_BA_init` and `deadlock_eg_AB_BA_exit`, one step at a time. -/
def moduleNext (ok : Bool) (s : Module) : Option Module :=
  match s.phase with
  | .init => some { s with phase := if ok then .create 0 else .failed (-ENOSYS) }
  | .create i => some (s.set (.taking i) i (if ok then .task 2 false false false else .err))
  | .taking i =>
      match s.arrTsk i with
      | .null => some { s with phase := if i = 0 then .failed (-ENOMEM) else .stop .init }
      | .task refs started stop reaped =>
          some (s.set (if i = 0 then .create 1 else .live) i (.task (refs + 1) started stop reaped))
      | _ => some { s with phase := .oopsTaking i }
  | .live => some { s with phase := .stop .exit0 }
  | .stop site =>
      match s.arrTsk site.slot with
      | .task refs started _ reaped =>
          some (s.set (.wait site) site.slot (.task (refs + 1) started true reaped))
      | _ => some { s with phase := .oopsStop site }
  | .wait site =>
      match s.arrTsk site.slot with
      | .task refs started stop reaped =>
          if finished (s.threads.call site.slot) then
            some (s.set site.after site.slot (drop refs 1 started stop reaped))
          else none
      | _ => some { s with phase := .oopsStop site }
  | _ => none

/-- A thread begins, goes on in `thrd_work`, or drops its own references in the end. -/
def threadNext (iters : Nat → Nat) (lockOoo : Int) (i : Fin 2) (ok : Bool) (s : Module) :
    Option Module :=
  match s.arrTsk i with
  | .task refs started stop reaped =>
      if finished (s.threads.call i) then
        if reaped then none else some (s.set s.phase i (drop refs 2 started stop true))
      else if started then
        (Pool.next (step iters lockOoo) s.threads (i, ok)).map fun p => { s with threads := p }
      else if stop then
        some { s with
          threads :=
            { s.threads with call := Function.update s.threads.call i (.done (-EINTR)) } }
      else some (s.set s.phase i (.task refs true stop reaped))
  | _ => none

/-- init is called, with the locks as they are declared. -/
def module0 : Module where
  phase := .init
  threads := pool0
  arrTsk _ := .null

/-- The module and its threads. -/
def lifecycle (thrd0Iters thrd1Iters : Nat) (lockOoo : Int) : Machine Module Act where
  init s := s = module0
  next s a :=
    match a with
    | .module ok => moduleNext ok s
    | .thread i ok => threadNext (itersOf thrd0Iters thrd1Iters) lockOoo i ok s

/-! ### What one step can do -/

/-- A step of init or exit. -/
inductive Code (s : Module) : Module → Prop
  | found (h : s.phase = .init) : Code s { s with phase := .create 0 }
  | notFound (h : s.phase = .init) : Code s { s with phase := .failed (-ENOSYS) }
  | created (i) (h : s.phase = .create i) :
      Code s (s.set (.taking i) i (.task 2 false false false))
  | notCreated (i) (h : s.phase = .create i) : Code s (s.set (.taking i) i .err)
  | tested (i) (h : s.phase = .taking i) (hnull : s.arrTsk i = .null) :
      Code s { s with phase := if i = 0 then .failed (-ENOMEM) else .stop .init }
  | take (i refs started stop reaped) (h : s.phase = .taking i)
      (htask : s.arrTsk i = .task refs started stop reaped) :
      Code s (s.set (if i = 0 then .create 1 else .live) i (.task (refs + 1) started stop reaped))
  | badTake (i) (h : s.phase = .taking i) (hbad : s.arrTsk i = .err ∨ s.arrTsk i = .freed) :
      Code s { s with phase := .oopsTaking i }
  | unload (h : s.phase = .live) : Code s { s with phase := .stop .exit0 }
  | stop (site refs started stop reaped) (h : s.phase = .stop site)
      (htask : s.arrTsk site.slot = .task refs started stop reaped) :
      Code s (s.set (.wait site) site.slot (.task (refs + 1) started true reaped))
  | badStop (site) (h : s.phase = .stop site ∨ s.phase = .wait site)
      (hbad : ∀ refs started stop reaped, s.arrTsk site.slot ≠ .task refs started stop reaped) :
      Code s { s with phase := .oopsStop site }
  | stopped (site refs started stop reaped) (h : s.phase = .wait site)
      (htask : s.arrTsk site.slot = .task refs started stop reaped)
      (hdone : finished (s.threads.call site.slot) = true) :
      Code s (s.set site.after site.slot (drop refs 1 started stop reaped))

/-- A step of a thread. -/
inductive Runs (iters : Nat → Nat) (lockOoo : Int) (i : Fin 2) (s : Module) : Module → Prop
  | start (refs stop reaped) (htask : s.arrTsk i = .task refs false stop reaped)
      (hrun : finished (s.threads.call i) = false) :
      Runs iters lockOoo i s (s.set s.phase i (.task refs true stop reaped))
  | never (refs reaped) (htask : s.arrTsk i = .task refs false true reaped)
      (hrun : finished (s.threads.call i) = false) :
      Runs iters lockOoo i s { s with
        threads := { s.threads with call := Function.update s.threads.call i (.done (-EINTR)) } }
  | work (refs stop reaped) {ok p} (htask : s.arrTsk i = .task refs true stop reaped)
      (hrun : finished (s.threads.call i) = false)
      (hnext : Pool.next (step iters lockOoo) s.threads (i, ok) = some p) :
      Runs iters lockOoo i s { s with threads := p }
  | reap (refs started stop) (htask : s.arrTsk i = .task refs started stop false)
      (hdone : finished (s.threads.call i) = true) :
      Runs iters lockOoo i s (s.set s.phase i (drop refs 2 started stop true))

section Steps

variable {iters : Nat → Nat} {lockOoo : Int} {i : Fin 2} {ok : Bool} {s s' : Module}

theorem code_of_moduleNext (h : moduleNext ok s = some s') : Code s s' := by
  unfold moduleNext at h
  cases hphase : s.phase with
  | init =>
      simp only [hphase, Option.some.injEq] at h
      cases ok with
      | true => exact h ▸ .found hphase
      | false => exact h ▸ .notFound hphase
  | create i =>
      simp only [hphase, Option.some.injEq] at h
      cases ok with
      | true => exact h ▸ .created i hphase
      | false => exact h ▸ .notCreated i hphase
  | taking i =>
      simp only [hphase] at h
      cases harr : s.arrTsk i with
      | null =>
          simp only [harr, Option.some.injEq] at h
          exact h ▸ .tested i hphase harr
      | task refs started stop reaped =>
          simp only [harr, Option.some.injEq] at h
          exact h ▸ .take i refs started stop reaped hphase harr
      | err =>
          simp only [harr, Option.some.injEq] at h
          exact h ▸ .badTake i hphase (Or.inl harr)
      | freed =>
          simp only [harr, Option.some.injEq] at h
          exact h ▸ .badTake i hphase (Or.inr harr)
  | live =>
      simp only [hphase, Option.some.injEq] at h
      exact h ▸ .unload hphase
  | stop site =>
      simp only [hphase] at h
      cases harr : s.arrTsk site.slot with
      | task refs started stop reaped =>
          simp only [harr, Option.some.injEq] at h
          exact h ▸ .stop site refs started stop reaped hphase harr
      | null | err | freed =>
          simp only [harr, Option.some.injEq] at h
          exact h ▸ .badStop site (Or.inl hphase) (by simp [harr])
  | wait site =>
      simp only [hphase] at h
      cases harr : s.arrTsk site.slot with
      | task refs started stop reaped =>
          simp only [harr] at h
          split at h <;> cases h
          exact .stopped site refs started stop reaped hphase harr ‹_›
      | null | err | freed =>
          simp only [harr, Option.some.injEq] at h
          exact h ▸ .badStop site (Or.inr hphase) (by simp [harr])
  | failed | removed | oopsTaking | oopsStop =>
      simp only [hphase] at h
      cases h

theorem runs_of_threadNext (h : threadNext iters lockOoo i ok s = some s') :
    Runs iters lockOoo i s s' := by
  unfold threadNext at h
  cases harr : s.arrTsk i with
  | null | err | freed =>
      simp only [harr] at h
      cases h
  | task refs started stop reaped =>
      simp only [harr] at h
      by_cases hdone : finished (s.threads.call i) = true
      · rw [if_pos hdone] at h
        split at h <;> cases h
        rename_i hreaped
        rw [Bool.not_eq_true] at hreaped
        subst hreaped
        exact .reap refs started stop harr hdone
      · rw [if_neg hdone] at h
        rw [Bool.not_eq_true] at hdone
        cases started with
        | true =>
            rw [if_pos rfl] at h
            obtain ⟨p, hp, rfl⟩ := Option.map_eq_some_iff.mp h
            exact .work refs stop reaped harr hdone hp
        | false =>
            rw [if_neg (by simp)] at h
            cases stop with
            | true =>
                rw [if_pos rfl] at h
                cases h
                exact .never refs reaped harr hdone
            | false =>
                rw [if_neg (by simp)] at h
                cases h
                exact .start refs false reaped harr hdone

/-! ### What is left to do -/

/-- The steps a thread has still to take in `thrd_work`, at most. -/
def placeLeft (iters : Nat) : Place → Nat
  | .entry => 5 * iters + 2
  | .loop i => 5 * (iters - i) + 1
  | .first _ _ i => 5 * (iters - (i + 1)) + 5
  | .second _ _ i => 5 * (iters - (i + 1)) + 4
  | .both _ _ i => 5 * (iters - (i + 1)) + 3
  | .last _ _ i => 5 * (iters - (i + 1)) + 2
  | .done _ => 0

/-- Its first step, and its last. -/
def entryLeft : Entry → Nat
  | .task _ started _ reaped => (if started then 0 else 1) + if reaped then 0 else 1
  | _ => 0

/-- The steps of init and exit, with those that are left to a thread when it is created. -/
def phaseLeft : Phase → Nat
  | .init => 14
  | .create i => if i = 0 then 13 else 9
  | .taking i => if i = 0 then 10 else 6
  | .live => 5
  | .stop .exit0 => 4
  | .wait .exit0 => 3
  | .stop _ => 2
  | .wait _ => 1
  | _ => 0

/-- All that is left. -/
def left (iters : Nat → Nat) (s : Module) : Nat :=
  phaseLeft s.phase + (entryLeft (s.arrTsk 0) + entryLeft (s.arrTsk 1)) +
    (placeLeft (iters 0) (s.threads.call 0) + placeLeft (iters 1) (s.threads.call 1))

theorem Move.placeLeft_lt {thrd : Nat} {l l' : Place} {k k' : Locks}
    (h : Move iters lockOoo thrd k l k' l') : placeLeft (iters thrd) l' < placeLeft (iters thrd) l := by
  cases h <;> simp only [placeLeft] <;> omega

theorem entryLeft_drop (refs n : Nat) (started stop reaped : Bool) :
    entryLeft (drop refs n started stop reaped) ≤ entryLeft (.task refs started stop reaped) := by
  unfold drop
  split
  · exact Nat.zero_le _
  · exact Nat.le_refl _

/-- An entry is set, and the phase. -/
theorem left_set (iters : Nat → Nat) (s : Module) (phase : Phase) (i : Fin 2) (e : Entry) :
    left iters (s.set phase i e) + phaseLeft s.phase + entryLeft (s.arrTsk i) =
      left iters s + phaseLeft phase + entryLeft e := by
  unfold left Module.set
  fin_cases i
  · simp
    omega
  · simp
    omega

theorem Code.left_lt (h : Code s s') : left iters s' < left iters s := by
  cases h with
  | found h | notFound h | unload h => simp [left, h, phaseLeft]
  | tested i h hnull => fin_cases i <;> simp [left, h, phaseLeft]
  | badTake i h hbad =>
      simp only [left, h, phaseLeft]
      split <;> omega
  | badStop site h hbad =>
      rcases h with h | h
      · cases site <;> simp [left, h, phaseLeft]
      · cases site <;> simp [left, h, phaseLeft]
  | created i h =>
      have hset := left_set iters s (.taking i) i (.task 2 false false false)
      fin_cases i <;> simp [h, phaseLeft, entryLeft] at hset ⊢ <;> omega
  | notCreated i h =>
      have hset := left_set iters s (.taking i) i .err
      fin_cases i <;> simp [h, phaseLeft, entryLeft] at hset ⊢ <;> omega
  | take i refs started stop reaped h htask =>
      have hset := left_set iters s (if i = 0 then .create 1 else .live) i
        (.task (refs + 1) started stop reaped)
      rw [h, htask] at hset
      fin_cases i <;> simp [phaseLeft, entryLeft] at hset ⊢ <;> omega
  | stop site refs started stop reaped h htask =>
      have hset := left_set iters s (.wait site) site.slot
        (.task (refs + 1) started true reaped)
      rw [h, htask] at hset
      cases site <;> simp [phaseLeft, entryLeft] at hset ⊢ <;> omega
  | stopped site refs started stop reaped h htask hdone =>
      have hset := left_set iters s site.after site.slot
        (drop refs 1 started stop reaped)
      have hdrop := entryLeft_drop refs 1 started stop reaped
      rw [h, htask] at hset
      cases site <;> simp only [phaseLeft, Site.after] at hset ⊢ <;> omega

/-- A thread gets on. -/
theorem left_place {p : Pool Locks Place} {l : Place} (i : Fin 2)
    (hcall : p.call = Function.update s.threads.call i l)
    (hlt : placeLeft (iters i) l < placeLeft (iters i) (s.threads.call i)) :
    left iters { s with threads := p } < left iters s := by
  unfold left
  rw [hcall]
  fin_cases i
  · simp at hlt ⊢
    omega
  · simp at hlt ⊢
    omega

theorem placeLeft_pos {n : Nat} {l : Place} (h : finished l = false) : 0 < placeLeft n l := by
  cases l with
  | done ret => cases h
  | _ => exact Nat.succ_pos _

theorem Runs.left_lt (h : Runs iters lockOoo i s s') : left iters s' < left iters s := by
  cases h with
  | start refs stop reaped htask hrun =>
      have hset := left_set iters s s.phase i (.task refs true stop reaped)
      rw [htask] at hset
      simp only [entryLeft, if_true, Bool.false_eq_true, if_false] at hset
      omega
  | never refs reaped htask hrun => exact left_place i rfl (placeLeft_pos hrun)
  | work refs stop reaped htask hrun hnext =>
      obtain ⟨l, hstep, hcall⟩ := Pool.next_eq_some.mp hnext
      exact left_place i hcall (move_of_step hstep).placeLeft_lt
  | reap refs started stop htask hdone =>
      have hset := left_set iters s s.phase i (drop refs 2 started stop true)
      have hdrop := entryLeft_drop refs 2 started stop true
      rw [htask] at hset
      simp only [entryLeft, if_true, Bool.false_eq_true, if_false] at hset hdrop
      omega

end Steps

section Whole

variable {thrd0Iters thrd1Iters : Nat} {lockOoo : Int} {s s' : Module} {a : Act}

/-- **Every step gets the module on**, whoever takes it. -/
theorem left_lt (h : (lifecycle thrd0Iters thrd1Iters lockOoo).next s a = some s') :
    left (itersOf thrd0Iters thrd1Iters) s' < left (itersOf thrd0Iters thrd1Iters) s := by
  cases a with
  | module ok => exact (code_of_moduleNext h).left_lt
  | thread i ok => exact (runs_of_threadNext h).left_lt

/-- So no run is longer than this. -/
theorem run_le {n : Nat} (r : (lifecycle thrd0Iters thrd1Iters lockOoo).Run n) :
    n ≤ 5 * (thrd0Iters + thrd1Iters) + 18 := by
  have hleft : ∀ k, k ≤ n → left (itersOf thrd0Iters thrd1Iters) (r.state k) + k ≤
      5 * (thrd0Iters + thrd1Iters) + 18 := by
    intro k
    induction k with
    | zero =>
        intro _
        rw [show r.state 0 = module0 from r.start]
        simp [left, module0, phaseLeft, entryLeft, pool0, placeLeft, itersOf]
        omega
    | succ k ih =>
        intro hk
        have hlt := left_lt (r.step k hk)
        have := ih (Nat.le_of_succ_le hk)
        omega
  have := hleft n (Nat.le_refl n)
  omega

/-! ### The references, and where the threads are -/

/-- Besides those of the thread itself there are `n` references to the `task_struct`. -/
def Counted (e : Entry) (n : Nat) : Prop :=
  match e with
  | .task refs _ _ reaped => refs = (if reaped then 0 else 2) + n ∧ 0 < refs
  | .freed => n = 0
  | _ => False

/-- What init and exit have made of `arr_tsk` so far. -/
def Made (s : Module) : Prop :=
  match s.phase with
  | .init => ∀ j, s.arrTsk j = .null
  | .failed ret => ret = -ENOSYS ∧ ∀ j, s.arrTsk j = .null
  | .create i => (∀ j, j < i → Counted (s.arrTsk j) 1) ∧ ∀ j, i ≤ j → s.arrTsk j = .null
  | .taking i => (∀ j, j < i → Counted (s.arrTsk j) 1) ∧ (∀ j, i < j → s.arrTsk j = .null) ∧
      (s.arrTsk i = .err ∨ Counted (s.arrTsk i) 0)
  | .live => ∀ j, Counted (s.arrTsk j) 1
  | .stop site => site ≠ .init ∧ (∀ j, Counted (s.arrTsk j) 1) ∧
      (site = .exit1 → finished (s.threads.call 0) = true)
  | .wait site => site ≠ .init ∧ (∀ j, Counted (s.arrTsk j) (if j = site.slot then 2 else 1)) ∧
      (site = .exit1 → finished (s.threads.call 0) = true)
  | .removed => ∀ j : Fin 2, Counted (s.arrTsk j) 1 ∧ finished (s.threads.call j) = true
  | .oopsTaking _ => True
  | .oopsStop _ => False

/-- An entry says how far its thread can be. -/
def Fitting (e : Entry) (l : Place) : Prop :=
  match e with
  | .null | .err => l = .entry
  | .task _ started _ reaped =>
      (started = false → l = .entry ∨ finished l = true) ∧ (reaped = true → finished l = true)
  | .freed => finished l = true

/-- The module, its references and its threads. -/
structure Ordered (s : Module) : Prop where
  made : Made s
  fitting : ∀ i : Fin 2, Fitting (s.arrTsk i) (s.threads.call i)

section Counting

variable {e : Entry} {refs n : Nat} {started stop reaped : Bool} {l : Place}

theorem Counted.isTask (h : Counted e (n + 1)) :
    ∃ refs started stop reaped, e = .task refs started stop reaped := by
  cases e with
  | task refs started stop reaped => exact ⟨refs, started, stop, reaped, rfl⟩
  | null | err => exact h.elim
  | freed => cases h

theorem Counted.get {stop' started' : Bool} (h : Counted (.task refs started stop reaped) n) :
    Counted (.task (refs + 1) started' stop' reaped) (n + 1) :=
  ⟨by rw [h.1]; rfl, Nat.succ_pos _⟩

theorem Counted.put (h : Counted (.task refs started stop reaped) (n + 1)) :
    Counted (drop refs 1 started stop reaped) n := by
  have hrefs := h.1
  unfold drop
  split
  · show n = 0
    omega
  · exact ⟨by omega, by omega⟩

theorem Counted.reap (h : Counted (.task refs started stop false) n) :
    Counted (drop refs 2 started stop true) n := by
  have hrefs : refs = 2 + n := h.1
  unfold drop
  split
  · show n = 0
    omega
  · exact ⟨by simp; omega, by omega⟩

/-- What is left of the entry of a thread that has returned. -/
theorem fitting_drop (hdone : finished l = true) : Fitting (drop refs n started stop reaped) l := by
  unfold drop
  split
  · exact hdone
  · exact ⟨fun _ => Or.inr hdone, fun _ => hdone⟩

end Counting

/-- The entry of one thread changes, and nothing that is counted. -/
theorem Made.set (h : Made s) {i : Fin 2} {e : Entry} {refs : Nat} {started stop reaped : Bool}
    (htask : s.arrTsk i = .task refs started stop reaped)
    (hcount : ∀ n, Counted (s.arrTsk i) n → Counted e n) : Made (s.set s.phase i e) := by
  have hcounted : ∀ j n, Counted (s.arrTsk j) n → Counted ((s.set s.phase i e).arrTsk j) n := by
    intro j n hj
    by_cases heq : j = i
    · subst heq
      show Counted (Function.update s.arrTsk j e j) n
      rw [Function.update_self]
      exact hcount n hj
    · show Counted (Function.update s.arrTsk i e j) n
      rw [Function.update_of_ne heq]
      exact hj
  have hnull : ∀ j, s.arrTsk j = .null → (s.set s.phase i e).arrTsk j = .null := by
    intro j hj
    have hne : j ≠ i := by
      rintro rfl
      rw [htask] at hj
      cases hj
    show Function.update s.arrTsk i e j = .null
    rw [Function.update_of_ne hne]
    exact hj
  have hphase : (s.set s.phase i e).phase = s.phase := rfl
  have hcall : (s.set s.phase i e).threads = s.threads := rfl
  unfold Made at h ⊢
  rw [hphase, hcall]
  cases hp : s.phase <;> simp only [hp] at h ⊢
  case init => exact fun j => hnull j (h j)
  case failed => exact ⟨h.1, fun j => hnull j (h.2 j)⟩
  case create k => exact ⟨fun j hj => hcounted j 1 (h.1 j hj), fun j hj => hnull j (h.2 j hj)⟩
  case taking k =>
    refine ⟨fun j hj => hcounted j 1 (h.1 j hj), fun j hj => hnull j (h.2.1 j hj), ?_⟩
    rcases h.2.2 with herr | hzero
    · left
      have hne : k ≠ i := by
        rintro rfl
        rw [htask] at herr
        cases herr
      show Function.update s.arrTsk i e k = .err
      rw [Function.update_of_ne hne]
      exact herr
    · exact Or.inr (hcounted k 0 hzero)
  case live => exact fun j => hcounted j 1 (h j)
  case stop site => exact ⟨h.1, fun j => hcounted j 1 (h.2.1 j), h.2.2⟩
  case wait site => exact ⟨h.1, fun j => hcounted j _ (h.2.1 j), h.2.2⟩
  case removed => exact fun j => ⟨hcounted j 1 (h j).1, (h j).2⟩

/-- The threads get on, and those that have returned stay so. -/
theorem Made.threads (h : Made s) {p : Pool Locks Place}
    (hdone : ∀ j : Fin 2, finished (s.threads.call j) = true → finished (p.call j) = true) :
    Made { s with threads := p } := by
  unfold Made at h ⊢
  cases hp : s.phase <;> simp only [hp] at h ⊢
  case stop site => exact ⟨h.1, h.2.1, fun hsite => hdone 0 (h.2.2 hsite)⟩
  case wait site => exact ⟨h.1, h.2.1, fun hsite => hdone 0 (h.2.2 hsite)⟩
  case removed => exact fun j => ⟨(h j).1, hdone j (h j).2⟩
  all_goals exact h

theorem Fitting.set (h : ∀ j : Fin 2, Fitting (s.arrTsk j) (s.threads.call j)) {i : Fin 2}
    {e : Entry} (he : Fitting e (s.threads.call i)) (j : Fin 2) :
    Fitting (Function.update s.arrTsk i e j) (s.threads.call j) := by
  by_cases heq : j = i
  · subst heq
    rw [Function.update_self]
    exact he
  · rw [Function.update_of_ne heq]
    exact h j

/-- `kthread_run` has filled in an entry. -/
theorem Made.fill (h : Made s) {i : Fin 2} {e : Entry} (hphase : s.phase = .create i)
    (he : e = .err ∨ Counted e 0) : Made (s.set (.taking i) i e) := by
  unfold Made at h
  rw [hphase] at h
  refine ⟨fun j hj => ?_, fun j hj => ?_, ?_⟩
  · show Counted (Function.update s.arrTsk i e j) 1
    rw [Function.update_of_ne hj.ne]
    exact h.1 j hj
  · show Function.update s.arrTsk i e j = .null
    rw [Function.update_of_ne hj.ne']
    exact h.2 j hj.le
  · show Function.update s.arrTsk i e i = .err ∨ Counted (Function.update s.arrTsk i e i) 0
    rw [Function.update_self]
    exact he

theorem Code.ordered (h : Code s s') (hs : Ordered s) : Ordered s' := by
  have hmade := hs.made
  unfold Made at hmade
  cases h with
  | found h =>
      rw [h] at hmade
      exact ⟨⟨fun j hj => absurd hj (Fin.not_lt_zero j), fun j _ => hmade j⟩, hs.fitting⟩
  | notFound h =>
      rw [h] at hmade
      exact ⟨⟨rfl, hmade⟩, hs.fitting⟩
  | created i h | notCreated i h =>
      rw [h] at hmade
      have hentry : s.threads.call i = .entry := by
        have hi := hs.fitting i
        rw [hmade.2 i (le_refl i)] at hi
        exact hi
      refine ⟨hs.made.fill h ?_, Fitting.set hs.fitting ?_⟩
      · first
        | exact Or.inl rfl
        | exact Or.inr ⟨rfl, by decide⟩
      · first
        | exact hentry
        | exact ⟨fun _ => Or.inl hentry, by simp⟩
  | tested i h hnull =>
      rw [h] at hmade
      rcases hmade.2.2 with herr | hzero
      · rw [hnull] at herr
        cases herr
      · rw [hnull] at hzero
        exact hzero.elim
  | take i refs started stop reaped h htask =>
      rw [h] at hmade
      have hone : Counted (.task (refs + 1) started stop reaped) 1 := by
        rcases hmade.2.2 with herr | hzero
        · rw [htask] at herr
          cases herr
        · rw [htask] at hzero
          exact hzero.get
      have hfit := hs.fitting i
      rw [htask] at hfit
      refine ⟨?_, Fitting.set hs.fitting hfit⟩
      by_cases hi : i = 0
      · subst hi
        refine ⟨fun j hj => ?_, fun j hj => ?_⟩
        · have hj0 : j = 0 := by omega
          subst hj0
          exact hone
        · have hj1 : j = 1 := by omega
          subst hj1
          exact hmade.2.1 1 (by decide)
      · have hi1 : i = 1 := by omega
        subst hi1
        intro j
        by_cases hj : j = 1
        · subst hj
          exact hone
        · have hj0 : j = 0 := by omega
          subst hj0
          exact hmade.1 0 (by decide)
  | badTake i h hbad => exact ⟨trivial, hs.fitting⟩
  | unload h =>
      rw [h] at hmade
      exact ⟨⟨by simp, hmade, by simp⟩, hs.fitting⟩
  | stop site refs started stop reaped h htask =>
      rw [h] at hmade
      have hfit := hs.fitting site.slot
      rw [htask] at hfit
      refine ⟨⟨hmade.1, fun j => ?_, hmade.2.2⟩, Fitting.set hs.fitting hfit⟩
      have hj := hmade.2.1 j
      show Counted (Function.update s.arrTsk site.slot _ j) _
      by_cases heq : j = site.slot
      · subst heq
        rw [htask] at hj
        rw [Function.update_self, if_pos rfl]
        exact hj.get
      · rw [Function.update_of_ne heq, if_neg heq]
        exact hj
  | badStop site h hbad =>
      have htask : ∃ refs started stop reaped,
          s.arrTsk site.slot = .task refs started stop reaped := by
        rcases h with h | h
        · rw [h] at hmade
          exact (hmade.2.1 site.slot).isTask
        · rw [h] at hmade
          have hcount := hmade.2.1 site.slot
          rw [if_pos rfl] at hcount
          exact hcount.isTask
      obtain ⟨refs, started, stop, reaped, htask⟩ := htask
      exact absurd htask (hbad refs started stop reaped)
  | stopped site refs started stop reaped h htask hdone =>
      rw [h] at hmade
      have hall : ∀ j, Counted (Function.update s.arrTsk site.slot (drop refs 1 started stop reaped) j)
          1 := by
        intro j
        have hj := hmade.2.1 j
        by_cases heq : j = site.slot
        · subst heq
          rw [if_pos rfl, htask] at hj
          rw [Function.update_self]
          exact hj.put
        · rw [if_neg heq] at hj
          rw [Function.update_of_ne heq]
          exact hj
      refine ⟨?_, Fitting.set hs.fitting (fitting_drop hdone)⟩
      cases site with
      | init => exact absurd rfl hmade.1
      | exit0 => exact ⟨by simp, hall, fun _ => hdone⟩
      | exit1 =>
          intro j
          refine ⟨hall j, ?_⟩
          fin_cases j
          · exact hmade.2.2 rfl
          · exact hdone

/-- A thread moves, and the entries say of it what they say. -/
theorem Ordered.work (hs : Ordered s) {i : Fin 2} {p : Pool Locks Place} {l : Place}
    (hcall : p.call = Function.update s.threads.call i l)
    (hrun : finished (s.threads.call i) = false) (hfit : Fitting (s.arrTsk i) l) :
    Ordered { s with threads := p } := by
  have hother : ∀ j : Fin 2, j ≠ i → p.call j = s.threads.call j := by
    intro j hj
    rw [hcall, Function.update_of_ne (fun heq => hj (Fin.ext heq))]
  refine ⟨hs.made.threads fun j hj => ?_, fun j => ?_⟩
  · have hne : j ≠ i := by
      rintro rfl
      rw [hrun] at hj
      cases hj
    rw [hother j hne]
    exact hj
  · show Fitting (s.arrTsk j) (p.call j)
    by_cases heq : j = i
    · subst heq
      rw [hcall, Function.update_self]
      exact hfit
    · rw [hother j heq]
      exact hs.fitting j

theorem Runs.ordered {iters : Nat → Nat} {i : Fin 2} (h : Runs iters lockOoo i s s')
    (hs : Ordered s) : Ordered s' := by
  have hfit := hs.fitting i
  cases h with
  | start refs stop reaped htask hrun =>
      rw [htask] at hfit
      refine ⟨hs.made.set htask fun n hn => ?_, Fitting.set hs.fitting ⟨by simp, hfit.2⟩⟩
      rw [htask] at hn
      exact hn
  | never refs reaped htask hrun =>
      refine hs.work (l := .done (-EINTR)) rfl hrun ?_
      rw [htask]
      exact ⟨fun _ => Or.inr rfl, fun _ => rfl⟩
  | work refs stop reaped htask hrun hnext =>
      obtain ⟨l, -, hcall⟩ := Pool.next_eq_some.mp hnext
      refine hs.work hcall hrun ?_
      rw [htask] at hfit ⊢
      refine ⟨by simp, fun hreaped => ?_⟩
      have hdone := hfit.2 hreaped
      rw [hrun] at hdone
      cases hdone
  | reap refs started stop htask hdone =>
      refine ⟨hs.made.set htask fun n hn => ?_, Fitting.set hs.fitting (fitting_drop hdone)⟩
      rw [htask] at hn
      exact hn.reap

theorem inductive_ordered :
    (lifecycle thrd0Iters thrd1Iters lockOoo).Inductive (fun _ _ => True) Ordered where
  init := by
    intro s hinit
    rw [show s = module0 from hinit]
    exact ⟨fun _ => rfl, fun _ => rfl⟩
  step := by
    intro s a s' hs _ hnext
    cases a with
    | module ok => exact (code_of_moduleNext hnext).ordered hs
    | thread i ok => exact (runs_of_threadNext hnext).ordered hs

/-! ### The threads by themselves -/

/-- A thread that was told to stop before it began, seen as one that could not set its affinity. -/
def seen : Place → Place
  | .done ret => .done (if ret = -EINTR then -ENOSYS else ret)
  | l => l

/-- The threads, without the module. -/
def Module.view (s : Module) : Pool Locks Place := s.threads.map id seen

theorem seen_of_running {l : Place} (h : finished l = false) : seen l = l := by
  cases l with
  | done ret => cases h
  | _ => rfl

/-- `thrd_work` returns 0 or an error of its own. -/
theorem Move.seen {iters : Nat → Nat} {thrd : Nat} {k k' : Locks} {l l' : Place}
    (h : Move iters lockOoo thrd k l k' l') : seen l' = l' := by
  cases h with
  | invalid | noAffinity | finish => rfl
  | _ => rfl

theorem Code.threads (h : Code s s') : s'.threads = s.threads := by
  cases h <;> rfl

/-- **A thread of the module does what one of the demo does**, or nothing. -/
theorem Runs.view {i : Fin 2} (h : Runs (itersOf thrd0Iters thrd1Iters) lockOoo i s s')
    (hs : Ordered s) : s'.view = s.view ∨
      ∃ b, (machine thrd0Iters thrd1Iters lockOoo).next s.view b = some s'.view := by
  have hupdate : ∀ l, (fun c => seen (Function.update s.threads.call (↑i) l c)) =
      Function.update s.view.call (↑i) (seen l) := by
    intro l
    funext c
    by_cases hc : c = i
    · subst hc
      rw [Function.update_self, Function.update_self]
    · rw [Function.update_of_ne hc, Function.update_of_ne hc]
      rfl
  cases h with
  | start | reap => exact Or.inl rfl
  | never refs reaped htask hrun =>
      have hentry : s.threads.call i = .entry := by
        have hfit := hs.fitting i
        rw [htask] at hfit
        rcases hfit.1 rfl with hentry | hdone
        · exact hentry
        · rw [hrun] at hdone
          cases hdone
      refine Or.inr ⟨(i, false), Pool.machine_next.mpr ⟨.done (-ENOSYS), ?_, hupdate _⟩⟩
      have hvalid : ¬ ((i : Nat) ≠ 0 ∧ (i : Nat) ≠ 1) := by omega
      show step _ _ _ _ s.threads.shared (seen (s.threads.call i)) = some (s.threads.shared, _)
      rw [hentry]
      simp only [seen, step, if_neg hvalid]
      rfl
  | @work refs stop reaped ok p htask hrun hnext =>
      obtain ⟨l, hstep, hcall⟩ := Pool.next_eq_some.mp hnext
      refine Or.inr ⟨(i, ok), Pool.machine_next.mpr ⟨l, ?_, ?_⟩⟩
      · show step _ _ _ _ s.threads.shared (seen (s.threads.call i)) = some (p.shared, l)
        rw [seen_of_running hrun]
        exact hstep
      · show (fun c => seen (p.call c)) = _
        rw [hcall, hupdate, (move_of_step hstep).seen]

theorem view_reachable (hs : (lifecycle thrd0Iters thrd1Iters lockOoo).Reachable s) :
    (machine thrd0Iters thrd1Iters lockOoo).Reachable s.view := by
  induction hs with
  | init h0 =>
      rw [show _ = module0 from h0]
      exact .init ⟨fun _ => rfl, fun _ => rfl⟩
  | @step s s' a hs _ hnext ih =>
      cases a with
      | module ok =>
          rw [Module.view, (code_of_moduleNext hnext).threads]
          exact ih
      | thread i ok =>
          rcases (runs_of_threadNext hnext).view (inductive_ordered.holds hs) with hsame | ⟨b, hb⟩
          · rw [hsame]
            exact ih
          · exact ih.step trivial hb

/-! ### How it ends -/

/-- Neither the module nor a thread can take a step. -/
def Final (thrd0Iters thrd1Iters : Nat) (lockOoo : Int) (s : Module) : Prop :=
  ∀ a, (lifecycle thrd0Iters thrd1Iters lockOoo).next s a = none

/-- The ways for it to end as it should, or in `run_kthrd`. -/
inductive Settled (s : Module) : Prop
  /-- exit is through, both threads have returned, and nobody holds a lock. -/
  | removed (h : s.phase = .removed) (hdone : ∀ i : Fin 2, finished (s.threads.call i) = true)
      (hfree : ∀ x, s.threads.shared x = none)
  /-- There was no `func_ptr`, and no thread was created. -/
  | failed (h : s.phase = .failed (-ENOSYS)) (hnull : ∀ i, s.arrTsk i = .null)
  /-- `kthread_run` had failed, or the thread was gone before `run_kthrd` took its reference. -/
  | oops (i : Fin 2) (h : s.phase = .oopsTaking i)

theorem exists_done {l : Place} (h : finished l = true) : ∃ ret, l = .done ret := by
  cases l with
  | done ret => exact ⟨ret, rfl⟩
  | _ => cases h

/-- In `kthread_stop` both threads are still there. -/
theorem Ordered.isTask (hs : Ordered s) {site : Site} (h : s.phase = .wait site) (i : Fin 2) :
    ∃ refs started stop reaped, s.arrTsk i = .task refs started stop reaped := by
  have hmade := hs.made
  unfold Made at hmade
  rw [h] at hmade
  have hcount := hmade.2.1 i
  split at hcount
  · exact hcount.isTask
  · exact hcount.isTask

/-- If nothing moves while exit waits, the threads are stuck. -/
theorem stuck_of_final (hs : Ordered s) (hfinal : Final thrd0Iters thrd1Iters lockOoo s)
    {site : Site} (h : s.phase = .wait site) : Stuck thrd0Iters thrd1Iters lockOoo s.view := by
  have hrun : finished (s.threads.call site.slot) = false := by
    obtain ⟨refs, started, stop, reaped, htask⟩ := hs.isTask h site.slot
    by_contra hdone
    have hmodule := hfinal (.module true)
    rw [Bool.not_eq_false] at hdone
    simp [lifecycle, moduleNext, h, htask, hdone] at hmodule
  refine ⟨⟨site.slot, by omega, fun ret hret => ?_⟩, fun thrd ok hthrd => ?_⟩
  · change seen (s.threads.call site.slot) = .done ret at hret
    rw [seen_of_running hrun] at hret
    rw [hret] at hrun
    cases hrun
  · obtain ⟨i, rfl⟩ : ∃ i : Fin 2, thrd = i := ⟨⟨thrd, by omega⟩, rfl⟩
    show Pool.next _ s.view (i, ok) = none
    have hview : s.view.call i = seen (s.threads.call i) := rfl
    cases hdone : finished (s.threads.call i) with
    | true =>
        obtain ⟨ret, hret⟩ := exists_done hdone
        rw [hret] at hview
        simp [Pool.next, hview, seen, step]
    | false =>
        obtain ⟨refs, started, stop, reaped, htask⟩ := hs.isTask h i
        have hthread := hfinal (.thread i ok)
        simp only [lifecycle, threadNext, htask, hdone, Bool.false_eq_true, if_false] at hthread
        cases started with
        | false => cases stop <;> simp at hthread
        | true =>
            rw [seen_of_running hdone] at hview
            have hnone := Option.map_eq_none_iff.mp (if_pos rfl ▸ hthread)
            have hstep := Option.map_eq_none_iff.mp hnone
            refine Option.map_eq_none_iff.mpr ?_
            rw [hview]
            exact hstep

theorem settled_of_final (hooo : lockOoo ≠ 1)
    (hreach : (lifecycle thrd0Iters thrd1Iters lockOoo).Reachable s)
    (hfinal : Final thrd0Iters thrd1Iters lockOoo s) : Settled s := by
  have hs := inductive_ordered.holds hreach
  have hsafe := (inductive_safe (fun _ _ => True)).holds (view_reachable hreach)
  have hmodule := hfinal (.module true)
  have hmade := hs.made
  unfold Made at hmade
  cases h : s.phase with
  | init | create | live => simp [lifecycle, moduleNext, h] at hmodule
  | taking i => cases harr : s.arrTsk i <;> simp [lifecycle, moduleNext, h, harr] at hmodule
  | stop site =>
      cases harr : s.arrTsk site.slot <;> simp [lifecycle, moduleNext, h, harr] at hmodule
  | wait site => exact absurd (stuck_of_final hs hfinal h) (hsafe.not_stuck hooo)
  | failed ret =>
      rw [h] at hmade
      exact .failed (by rw [h, hmade.1]) hmade.2
  | removed =>
      rw [h] at hmade
      have hdone : ∀ i : Fin 2, finished (s.threads.call i) = true := fun i => (hmade i).2
      refine .removed h hdone (hsafe.free_of_bothReturned ⟨?_, ?_⟩)
      · obtain ⟨ret, hret⟩ := exists_done (hdone 0)
        exact ⟨_, show seen (s.threads.call 0) = _ from congrArg seen hret⟩
      · obtain ⟨ret, hret⟩ := exists_done (hdone 1)
        exact ⟨_, show seen (s.threads.call 1) = _ from congrArg seen hret⟩
  | oopsTaking i => exact .oops i h
  | oopsStop site =>
      rw [h] at hmade
      exact hmade.elim

/--
**exit leaves both threads' `task_struct`s behind**: a thread has returned when exit is
through, and there is then one reference more than the thread's own, the one `run_kthrd`
took, which nothing drops.
-/
theorem leaks_of_removed (hreach : (lifecycle thrd0Iters thrd1Iters lockOoo).Reachable s)
    (h : s.phase = .removed) (i : Fin 2) :
    finished (s.threads.call i) = true ∧
      ∃ started stop reaped, s.arrTsk i = .task (if reaped then 1 else 3) started stop reaped := by
  have hmade := (inductive_ordered.holds hreach).made
  unfold Made at hmade
  rw [h] at hmade
  obtain ⟨hcount, hdone⟩ := hmade i
  refine ⟨hdone, ?_⟩
  obtain ⟨refs, started, stop, reaped, htask⟩ := hcount.isTask
  rw [htask] at hcount
  refine ⟨started, stop, reaped, ?_⟩
  rw [htask, hcount.1]
  cases reaped <;> rfl

/-- init, each thread to its end without `lock_ooo`, and exit. -/
def removedRun : (lifecycle 1 1 0).Run 28 :=
  .ofActs module0
    (List.replicate 5 (.module true) ++ List.replicate 9 (.thread 0 true) ++
      List.replicate 9 (.thread 1 true) ++ List.replicate 5 (.module true)) rfl (by decide +kernel)

theorem leaks_of_removed_once :
    finished ((removedRun.state 28).threads.call 0) = true ∧ ∃ started stop reaped,
      (removedRun.state 28).arrTsk 0 = .task (if reaped then 1 else 3) started stop reaped :=
  leaks_of_removed (removedRun.reachable 28 (by decide)) (by decide +kernel) 0

/-! ### With `lock_ooo` -/

/-- Threads that have begun do what those of the demo do. -/
theorem exec_work {p : Pool Locks Place} (acts : List (Fin 2 × Bool)) :
    ∀ s : Module, (∀ i, ∃ refs stop reaped, s.arrTsk i = .task refs true stop reaped) →
      (machine thrd0Iters thrd1Iters lockOoo).exec s.threads
        (acts.map fun a => ((a.1 : Nat), a.2)) = some p →
      (lifecycle thrd0Iters thrd1Iters lockOoo).exec s (acts.map fun a => .thread a.1 a.2) =
        some { s with threads := p } := by
  induction acts with
  | nil =>
      intro s _ hexec
      cases hexec
      rfl
  | cons a acts ih =>
      intro s htask hexec
      obtain ⟨q, hq, hrest⟩ := Option.bind_eq_some_iff.mp hexec
      obtain ⟨refs, stop, reaped, harr⟩ := htask a.1
      have hrun : finished (s.threads.call a.1) = false := by
        by_contra hdone
        obtain ⟨ret, hret⟩ := exists_done (Bool.not_eq_false _ ▸ hdone)
        obtain ⟨l, hstep, -⟩ := Pool.next_eq_some.mp hq
        rw [show s.threads.call (↑a.1, a.2).1 = .done ret from hret] at hstep
        cases hstep
      refine Option.bind_eq_some_iff.mpr ⟨{ s with threads := q }, ?_, ih _ htask hrest⟩
      show threadNext _ _ a.1 a.2 s = _
      simp only [threadNext, harr, hrun, Bool.false_eq_true, if_false, if_true]
      exact Option.map_eq_some_iff.mpr ⟨q, hq, rfl⟩

/-- The module is loaded, and both threads begin. -/
def begun : List Act :=
  List.replicate 5 (.module true) ++ [.thread 0 true, .thread 1 true]

/-- The steps of `crossing`. -/
def crossingActs : List (Fin 2 × Bool) := List.replicate 3 (0, true) ++ List.replicate 3 (1, true)

/-- Each thread has its first lock, and exit waits for the first of them. -/
def hung : Module where
  phase := .wait .exit0
  threads := embrace
  arrTsk := Function.update (fun _ => .task 3 true false false) 0 (.task 4 true true false)

theorem hung_reachable (h0 : 0 < thrd0Iters) (h1 : 0 < thrd1Iters) :
    (lifecycle thrd0Iters thrd1Iters 1).Reachable hung := by
  let loaded : Module :=
    { phase := .live, threads := pool0, arrTsk := fun _ => .task 3 true false false }
  have hload : (lifecycle thrd0Iters thrd1Iters 1).exec module0 begun = some loaded := by
    simp [begun, lifecycle, module0, moduleNext, threadNext, Module.set, finished, pool0, loaded]
    funext i
    fin_cases i <;> rfl
  have hcross : (lifecycle thrd0Iters thrd1Iters 1).exec loaded
      (crossingActs.map fun a => .thread a.1 a.2) = some { loaded with threads := embrace } :=
    exec_work crossingActs loaded (fun _ => ⟨3, false, false, rfl⟩) (exec_crossing h0 h1)
  have hexit : (lifecycle thrd0Iters thrd1Iters 1).exec { loaded with threads := embrace }
      (List.replicate 2 (.module true)) = some hung := rfl
  exact Machine.reachable_of_exec (.init rfl)
    (Machine.exec_trans (Machine.exec_trans hload hcross) hexit)

theorem final_hung : Final thrd0Iters thrd1Iters lockOoo hung := by
  rintro (ok | ⟨i, ok⟩)
  · rfl
  · fin_cases i <;> rfl

/-- No run is long, and one that cannot go on has ended as it should. -/
structure Unloads (thrd0Iters thrd1Iters : Nat) (lockOoo : Int) : Prop where
  bounded : ∀ {n : Nat}, (lifecycle thrd0Iters thrd1Iters lockOoo).Run n →
    n ≤ 5 * (thrd0Iters + thrd1Iters) + 18
  settled : ∀ s, (lifecycle thrd0Iters thrd1Iters lockOoo).Reachable s →
    Final thrd0Iters thrd1Iters lockOoo s → Settled s

/--
**The module can be unloaded, whatever the schedule, if and only if `lock_ooo` is not 1**:
init and exit come to their ends, after a number of steps that is known, and both threads
have returned with the locks free.
-/
theorem unloads_iff {thrd0Iters thrd1Iters : Nat} (h0 : 0 < thrd0Iters) (h1 : 0 < thrd1Iters)
    (lockOoo : Int) : Unloads thrd0Iters thrd1Iters lockOoo ↔ lockOoo ≠ 1 := by
  constructor
  · rintro hunloads rfl
    have hsettled := hunloads.settled hung (hung_reachable h0 h1) final_hung
    cases hsettled with
    | removed h | failed h | oops i h => cases h
  · exact fun hooo => ⟨run_le, fun s hs hfinal => settled_of_final hooo hs hfinal⟩

theorem unloads_iff_once : Unloads 1 1 0 ∧ ¬ Unloads 1 1 1 :=
  ⟨(unloads_iff (by decide) (by decide) 0).mpr (by decide),
    fun h => (unloads_iff (by decide) (by decide) 1).mp h rfl⟩

/-- A thread that waits for a lock goes nowhere. -/
theorem Runs.threads_of_blocked {iters : Nat → Nat} {i : Fin 2} (h : Runs iters lockOoo i s s')
    (hs : Ordered s)
    (hinside : s.threads.call i ≠ .entry ∧ finished (s.threads.call i) = false)
    (hblocked : ∀ ok, Pool.next (step iters lockOoo) s.threads (i, ok) = none) :
    s'.threads = s.threads := by
  cases h with
  | start | reap => rfl
  | never refs reaped htask hrun =>
      have hfit := hs.fitting i
      rw [htask] at hfit
      rcases hfit.1 rfl with hentry | hdone
      · exact absurd hentry hinside.1
      · rw [hrun] at hdone
        cases hdone
  | work refs stop reaped htask hrun hnext =>
      rw [hblocked] at hnext
      cases hnext

/--
**Once each thread has the lock the other wants the module stays for good**: in every later
state of every run both are where they were, and exit has not returned.
-/
theorem embrace_forever {thrd0Iters thrd1Iters : Nat} {lockOoo : Int} {n : Nat}
    (r : (lifecycle thrd0Iters thrd1Iters lockOoo).Run n) {i j k k' : Nat} (hij : i ≤ j) (hj : j ≤ n)
    (h0 : (r.state i).threads.call 0 = .second .lockA .lockB k)
    (h1 : (r.state i).threads.call 1 = .second .lockB .lockA k') :
    (r.state j).threads = (r.state i).threads ∧ (r.state j).phase ≠ .removed := by
  have hsame : (r.state j).threads = (r.state i).threads := by
    have hsafe := (inductive_safe (fun _ _ => True)).holds
      (view_reachable (r.reachable i (hij.trans hj)))
    have hview : ∀ c, finished ((r.state i).threads.call c) = false →
        (r.state i).view.call c = (r.state i).threads.call c := fun c => seen_of_running
    have hlockA : (r.state i).threads.shared .lockA = some 0 := by
      refine ((hsafe.each 0).owned .lockA).mp ?_
      rw [hview 0 (by rw [h0]; rfl), h0]
      rfl
    have hlockB : (r.state i).threads.shared .lockB = some 1 := by
      refine ((hsafe.each 1).owned .lockB).mp ?_
      rw [hview 1 (by rw [h1]; rfl), h1]
      rfl
    refine r.stays (P := fun s => s.threads = (r.state i).threads) hij hj ?_ rfl
    intro m _ hm hkeep
    have hnext := r.step m (Nat.lt_of_lt_of_le hm hj)
    generalize r.act m = a at hnext
    cases a with
    | module ok => exact (code_of_moduleNext hnext).threads.trans hkeep
    | thread t ok =>
        rw [← hkeep] at h0 h1 hlockA hlockB
        have hblocked : ∀ ok, Pool.next (step (itersOf thrd0Iters thrd1Iters) lockOoo)
            (r.state m).threads (t, ok) = none := by
          intro ok
          fin_cases t
          · simp [Pool.next, h0, step, spinLock, hlockB]
          · simp [Pool.next, h1, step, spinLock, hlockA]
        refine ((runs_of_threadNext hnext).threads_of_blocked
          (inductive_ordered.holds (r.reachable m (by omega))) ?_ hblocked).trans hkeep
        fin_cases t
        · exact ⟨by simp [h0], by simp [h0, finished]⟩
        · exact ⟨by simp [h1], by simp [h1, finished]⟩
  refine ⟨hsame, fun hremoved => ?_⟩
  have hmade := (inductive_ordered.holds (r.reachable j hj)).made
  unfold Made at hmade
  rw [hremoved] at hmade
  have hdone := (hmade 0).2
  rw [hsame] at hdone
  rw [show (r.state i).threads.call ((0 : Fin 2) : Nat) = _ from h0] at hdone
  cases hdone

/-- init to where each thread has its first lock, and then two steps of exit. -/
def hungActs : List Act :=
  begun ++ crossingActs.map (fun a => .thread a.1 a.2) ++ List.replicate 2 (.module true)

/-- As `hung`, in a run. -/
def hungRun : (lifecycle 1 1 1).Run hungActs.length :=
  .ofActs module0 hungActs rfl (by decide +kernel)

theorem embrace_forever_hung :
    (hungRun.state 15).threads = (hungRun.state 13).threads ∧ (hungRun.state 15).phase ≠ .removed :=
  embrace_forever hungRun (by decide) (by decide) rfl rfl

end Whole

end Lkp.Lockdep
