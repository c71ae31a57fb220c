/-
The two threads of the AB-BA demo.

Both threads take two spinlocks, once per iteration.  The module's rule is
`lockA` before `lockB`; thread 1 breaks it when the parameter `lock_ooo` is 1,
and takes no locks at all for a value other than 0 and 1.

A thread that waits, waits at one of two places, and what it holds there it has
taken by the same rule.  So without `lock_ooo` every thread waits above what it
holds, and the general argument of `Lkp.exists_unblocked` applies
(`not_stuck`); with it, three steps of each thread lead to the embrace (`embrace`).
The iteration counts `THRD0_ITERS` and `THRD1_ITERS` are parameters here.
-/
import Mathlib.Data.Fintype.Order
import Lkp.Kernel.Basic
import Lkp.Concurrency.Pool
import Lkp.Concurrency.Lock

namespace Lkp.Lockdep

/-- The two spinlocks of the module. -/
inductive LockName
  | lockA
  | lockB
  deriving DecidableEq

namespace LockName

instance : Fintype LockName := ⟨{lockA, lockB}, fun x => by cases x <;> simp⟩

/-- The module's locking rule, as a number. -/
def rank : LockName → Nat
  | lockA => 0
  | lockB => 1

instance : Preorder LockName := Preorder.lift rank

end LockName

/-- Who holds each lock. -/
abbrev Locks := LockName → Option Nat

/-- Where a thread in `thrd_work` has got to; `x` and `y` are the locks in its order. -/
inductive Place
  | entry
  /-- The test of the loop, with counter `i`. -/
  | loop (i : Nat)
  /-- `spin_lock(&x)` comes next. -/
  | first (x y : LockName) (i : Nat)
  /-- `x` is held and `spin_lock(&y)` comes next. -/
  | second (x y : LockName) (i : Nat)
  /-- Both are held and `spin_unlock(&y)` comes next. -/
  | both (x y : LockName) (i : Nat)
  /-- `x` is still held. -/
  | last (x y : LockName) (i : Nat)
  | done (ret : Int)
  deriving DecidableEq

/-- The locks one iteration of a thread takes, in the order it takes them. -/
def order (lockOoo : Int) (thrd : Nat) : Option (LockName × LockName) :=
  if thrd = 0 then some (.lockA, .lockB)
  else if lockOoo = 1 then some (.lockB, .lockA)
  else if lockOoo = 0 then some (.lockA, .lockB)
  else none

/-- `spin_lock`: a held lock is waited for, also by its holder. -/
def spinLock (c : Nat) (x : LockName) (s : Locks) : Option Locks :=
  if s x = none then some (Function.update s x (some c)) else none

/-- `spin_unlock`. -/
def spinUnlock (x : LockName) (s : Locks) : Locks := Function.update s x none

/-- `thrd_work(thrd)`, one step at a time; `ok` is `set_cpuaffinity` going well. -/
def step (iters : Nat → Nat) (lockOoo : Int) : CallStep Locks Place Bool := fun thrd ok s l =>
  match l with
  | .entry =>
      if thrd ≠ 0 ∧ thrd ≠ 1 then some (s, .done (-EINVAL))
      else if ok then some (s, .loop 0)
      else some (s, .done (-ENOSYS))
  | .loop i =>
      if i < iters thrd then
        match order lockOoo thrd with
        | some (x, y) => some (s, .first x y i)
        | none => some (s, .loop (i + 1))
      else some (s, .done 0)
  | .first x y i => (spinLock thrd x s).map fun s' => (s', .second x y i)
  | .second x y i => (spinLock thrd y s).map fun s' => (s', .both x y i)
  | .both x y i => some (spinUnlock y s, .last x y i)
  | .last x _ i => some (spinUnlock x s, .loop (i + 1))
  | .done _ => none

/-- How often a thread goes round its loop. -/
def itersOf (thrd0Iters thrd1Iters : Nat) (thrd : Nat) : Nat :=
  if thrd = 0 then thrd0Iters else thrd1Iters

/-- The threads running at once, from both locks free. -/
def machine (thrd0Iters thrd1Iters : Nat) (lockOoo : Int) :
    Machine (Pool Locks Place) (Nat × Bool) :=
  Pool.machine (fun s => ∀ x, s x = none) .entry (step (itersOf thrd0Iters thrd1Iters) lockOoo)

/-! ### What one step can do -/

/-- The steps of a thread, one constructor for each way out of a place. -/
inductive Move (iters : Nat → Nat) (lockOoo : Int) (thrd : Nat) :
    Locks → Place → Locks → Place → Prop
  | invalid {s} (h : thrd ≠ 0 ∧ thrd ≠ 1) : Move iters lockOoo thrd s .entry s (.done (-EINVAL))
  | start {s} (h : ¬ (thrd ≠ 0 ∧ thrd ≠ 1)) : Move iters lockOoo thrd s .entry s (.loop 0)
  | noAffinity {s} : Move iters lockOoo thrd s .entry s (.done (-ENOSYS))
  | iterate {s} (i) {x y} (hi : i < iters thrd) (h : order lockOoo thrd = some (x, y)) :
      Move iters lockOoo thrd s (.loop i) s (.first x y i)
  | skip {s} (i) (hi : i < iters thrd) (h : order lockOoo thrd = none) :
      Move iters lockOoo thrd s (.loop i) s (.loop (i + 1))
  | finish {s} (i) (hi : ¬ i < iters thrd) : Move iters lockOoo thrd s (.loop i) s (.done 0)
  | takeFirst {s} (x y i) (h : s x = none) :
      Move iters lockOoo thrd s (.first x y i) (Function.update s x (some thrd)) (.second x y i)
  | takeSecond {s} (x y i) (h : s y = none) :
      Move iters lockOoo thrd s (.second x y i) (Function.update s y (some thrd)) (.both x y i)
  | dropSecond {s} (x y i) :
      Move iters lockOoo thrd s (.both x y i) (Function.update s y none) (.last x y i)
  | dropFirst {s} (x y i) :
      Move iters lockOoo thrd s (.last x y i) (Function.update s x none) (.loop (i + 1))

section Moves

variable {iters : Nat → Nat} {lockOoo : Int} {thrd : Nat} {ok : Bool} {s s' : Locks} {l l' : Place}

theorem spinLock_eq_some {x : LockName} :
    spinLock thrd x s = some s' ↔ s x = none ∧ s' = Function.update s x (some thrd) := by
  unfold spinLock
  split
  · rename_i h
    simp [h, eq_comm]
  · rename_i h
    simp [h]

theorem move_of_step (h : step iters lockOoo thrd ok s l = some (s', l')) :
    Move iters lockOoo thrd s l s' l' := by
  cases l with
  | entry =>
      simp only [step] at h
      split at h
      · cases h
        exact .invalid ‹_›
      · split at h <;> cases h
        · exact .start ‹_›
        · exact .noAffinity
  | loop i =>
      simp only [step] at h
      split at h
      · split at h <;> cases h
        · exact .iterate i ‹_› ‹_›
        · exact .skip i ‹_› ‹_›
      · cases h
        exact .finish i ‹_›
  | first x y i =>
      obtain ⟨s₁, hs, hpair⟩ := Option.map_eq_some_iff.mp h
      cases hpair
      obtain ⟨hfree, rfl⟩ := spinLock_eq_some.mp hs
      exact .takeFirst x y i hfree
  | second x y i =>
      obtain ⟨s₁, hs, hpair⟩ := Option.map_eq_some_iff.mp h
      cases hpair
      obtain ⟨hfree, rfl⟩ := spinLock_eq_some.mp hs
      exact .takeSecond x y i hfree
  | both x y i =>
      cases h
      exact .dropSecond x y i
  | last x y i =>
      cases h
      exact .dropFirst x y i
  | done ret => cases h

/-! ### Who holds what -/

/-- The locks a thread holds, read off its place. -/
def holds : Place → LockName → Bool
  | .second x _ _, z => z = x
  | .both x y _, z => z = x ∨ z = y
  | .last x _ _, z => z = x
  | _, _ => false

/-- The lock a thread waits for. -/
def wants : Place → Option LockName
  | .first x _ _ => some x
  | .second _ y _ => some y
  | _ => none

/-- The pair of locks a place speaks of. -/
def pairOf : Place → Option (LockName × LockName)
  | .first x y _ => some (x, y)
  | .second x y _ => some (x, y)
  | .both x y _ => some (x, y)
  | .last x y _ => some (x, y)
  | _ => none

theorem order_ne {x y : LockName} (h : order lockOoo thrd = some (x, y)) : x ≠ y := by
  unfold order at h
  split at h
  · cases h; simp
  · split at h
    · cases h; simp
    · split at h <;> cases h
      simp

/-- A thread is where its argument and its order allow. -/
structure Fits (lockOoo : Int) (thrd : Nat) (l : Place) : Prop where
  /-- The locks it is busy with are those of its order. -/
  ordered : ∀ xy, pairOf l = some xy → order lockOoo thrd = some xy
  /-- A thread under way has passed the check of its argument. -/
  valid : l ≠ .entry → (∀ ret, l ≠ .done ret) → thrd = 0 ∨ thrd = 1

/-- A thread is where it may be, and each lock agrees with its place. -/
structure Placed (lockOoo : Int) (thrd : Nat) (s : Locks) (l : Place) : Prop where
  fits : Fits lockOoo thrd l
  owned : ∀ z, Owned thrd (s z) (holds l z)

theorem Move.fits (h : Move iters lockOoo thrd s l s' l') (hf : Fits lockOoo thrd l) :
    Fits lockOoo thrd l' := by
  cases h with
  | invalid hn => exact ⟨by simp [pairOf], fun _ hrun => absurd rfl (hrun _)⟩
  | noAffinity => exact ⟨by simp [pairOf], fun _ hrun => absurd rfl (hrun _)⟩
  | start hn => exact ⟨by simp [pairOf], fun _ _ => by omega⟩
  | iterate i hi ho =>
      refine ⟨fun xy hxy => ?_, fun _ _ => hf.valid (by simp) (by simp)⟩
      rw [← hxy, ho]
      rfl
  | skip i hi ho => exact ⟨by simp [pairOf], fun _ _ => hf.valid (by simp) (by simp)⟩
  | finish i hi => exact ⟨by simp [pairOf], fun _ hrun => absurd rfl (hrun _)⟩
  | takeFirst x y i hfree | takeSecond x y i hfree | dropSecond x y i =>
      exact ⟨hf.ordered, fun _ _ => hf.valid (by simp) (by simp)⟩
  | dropFirst x y i => exact ⟨by simp [pairOf], fun _ _ => hf.valid (by simp) (by simp)⟩

/-- Each step keeps a lock, takes a free one, or drops its own. -/
theorem Move.lockStep (h : Move iters lockOoo thrd s l s' l') (hf : Fits lockOoo thrd l)
    (z : LockName) : LockStep thrd (s z) (holds l z) (s' z) (holds l' z) := by
  cases h with
  | takeFirst x y i hfree =>
      by_cases hz : z = x
      · subst hz
        simpa [holds, hfree] using LockStep.take
      · simpa [holds, hz] using LockStep.keep (s z) false
  | takeSecond x y i hfree =>
      have hne := order_ne (hf.ordered (x, y) rfl)
      by_cases hz : z = y
      · subst hz
        simpa [holds, hfree, Ne.symm hne] using LockStep.take
      · simpa [holds, hz] using LockStep.keep (s z) (decide (z = x))
  | dropSecond x y i =>
      have hne := order_ne (hf.ordered (x, y) rfl)
      by_cases hz : z = y
      · subst hz
        simpa [holds, Ne.symm hne] using LockStep.drop (s z)
      · simpa [holds, hz] using LockStep.keep (s z) (decide (z = x))
  | dropFirst x y i =>
      by_cases hz : z = x
      · subst hz
        simpa [holds] using LockStep.drop (s z)
      · simpa [holds, hz] using LockStep.keep (s z) false
  | _ => exact .keep _ _

end Moves

variable {thrd0Iters thrd1Iters : Nat} {lockOoo : Int}

/-- Every thread is where it may be and holds what it says. -/
abbrev Safe (lockOoo : Int) : Pool Locks Place → Prop :=
  Pool.Inv (fun _ => True) (Placed lockOoo) fun _ _ _ _ => True

theorem kept (iters : Nat → Nat) (ok : Pool Locks Place → Nat × Bool → Prop) :
    Pool.Kept (step iters lockOoo) ok (fun _ => True) (Placed lockOoo) fun _ _ _ _ => True where
  own p c e s' l' hinv _ hstep := by
    have hmove := move_of_step hstep
    have hplaced := hinv.each c
    exact ⟨trivial, hmove.fits hplaced.fits,
      fun z => (hplaced.owned z).step (hmove.lockStep hplaced.fits z)⟩
  others p c e s' l' d hinv _ hstep hne := by
    have hmove := move_of_step hstep
    have hplaced := hinv.each c
    exact ⟨(hinv.each d).fits, fun z =>
      (hplaced.owned z).step_other ((hinv.each d).owned z) hne (hmove.lockStep hplaced.fits z)⟩
  pair _ _ _ _ _ _ _ _ _ _ := ⟨trivial, trivial⟩

theorem inductive_safe (ok : Pool Locks Place → Nat × Bool → Prop) :
    (machine thrd0Iters thrd1Iters lockOoo).Inductive ok (Safe lockOoo) := by
  refine (kept _ ok).invariant (fun _ _ => trivial) ?_ fun _ _ => trivial
  intro s c hfree
  refine ⟨⟨by simp [pairOf], fun hne => absurd rfl hne⟩, fun z => ?_⟩
  rw [hfree z]
  exact .free

/-! ### Deadlock -/

/-- A thread has not returned yet. -/
def Unfinished (l : Place) : Prop := ∀ ret, l ≠ .done ret

/-- Thread 0 or thread 1 has not returned, and neither of the two can take a step. -/
def Stuck (thrd0Iters thrd1Iters : Nat) (lockOoo : Int) (p : Pool Locks Place) : Prop :=
  (∃ thrd, (thrd = 0 ∨ thrd = 1) ∧ Unfinished (p.call thrd)) ∧
    ∀ thrd ok, thrd = 0 ∨ thrd = 1 →
      (machine thrd0Iters thrd1Iters lockOoo).next p (thrd, ok) = none

/-- Both threads have returned. -/
def BothReturned (p : Pool Locks Place) : Prop :=
  (∃ ret, p.call 0 = .done ret) ∧ ∃ ret, p.call 1 = .done ret

/-- A thread that has not returned steps unless the lock it wants is taken. -/
theorem next_isSome {p : Pool Locks Place} {thrd : Nat} (hrun : Unfinished (p.call thrd))
    (hfree : ∀ x, wants (p.call thrd) = some x → p.shared x = none) :
    ((machine thrd0Iters thrd1Iters lockOoo).next p (thrd, true)).isSome = true := by
  have hstep : (step (itersOf thrd0Iters thrd1Iters) lockOoo thrd true p.shared
      (p.call thrd)).isSome = true := by
    cases hplace : p.call thrd with
    | entry => simp only [step]; split <;> rfl
    | loop i =>
        simp only [step]
        split
        · split <;> rfl
        · rfl
    | first x y i => simp [step, spinLock, hfree x (by rw [hplace]; rfl)]
    | second x y i => simp [step, spinLock, hfree y (by rw [hplace]; rfl)]
    | both x y i => rfl
    | last x y i => rfl
    | done ret => exact absurd hplace (hrun ret)
  simpa [machine, Pool.machine, Pool.next] using hstep

/-- Without `lock_ooo` the first lock of a thread is below its second. -/
theorem order_lt (hooo : lockOoo ≠ 1) {thrd : Nat} {x y : LockName}
    (h : order lockOoo thrd = some (x, y)) : x < y := by
  unfold order at h
  rw [if_neg hooo] at h
  split at h
  · cases h; decide
  · split at h <;> cases h
    decide

/-- A lock that is taken is held by thread 0 or thread 1, and that thread has not returned. -/
theorem Safe.holder {p : Pool Locks Place} (h : Safe lockOoo p) {x : LockName} {thrd : Nat}
    (hx : p.shared x = some thrd) :
    (thrd = 0 ∨ thrd = 1) ∧ Unfinished (p.call thrd) ∧ holds (p.call thrd) x = true := by
  have hheld : holds (p.call thrd) x = true := ((h.each thrd).owned x).mpr hx
  have hentry : p.call thrd ≠ .entry := by
    intro hplace
    rw [hplace] at hheld
    cases hheld
  have hrun : Unfinished (p.call thrd) := by
    intro ret hplace
    rw [hplace] at hheld
    cases hheld
  exact ⟨(h.each thrd).fits.valid hentry hrun, hrun, hheld⟩

/-- Every thread waits above what it holds, so some thread can go on. -/
theorem Safe.not_stuck (hooo : lockOoo ≠ 1) {p : Pool Locks Place} (h : Safe lockOoo p) :
    ¬ Stuck thrd0Iters thrd1Iters lockOoo p := by
  intro hex
  obtain ⟨⟨t, ht, hrun⟩, hno⟩ := hex
  have up : ∀ t l l', wants (p.call t) = some l → p.shared l' = some t → l' < l := by
    intro t l l' hwant hhold
    have hheld := (h.holder hhold).2.2
    have hord := (h.each t).fits.ordered
    cases hplace : p.call t with
    | second x y i =>
        rw [hplace] at hwant hheld hord
        simp only [wants, Option.some.injEq] at hwant
        simp only [holds, decide_eq_true_eq] at hheld
        rw [← hwant, hheld]
        exact order_lt hooo (hord (x, y) rfl)
    | first x y i =>
        rw [hplace] at hheld
        cases hheld
    | entry | loop | both | last | done =>
        rw [hplace] at hwant
        cases hwant
  obtain ⟨u, hu, hfree⟩ := exists_unblocked (fun t => wants (p.call t)) p.shared up t
  have huok : (u = 0 ∨ u = 1) ∧ Unfinished (p.call u) := by
    rcases hu with rfl | ⟨x, hx⟩
    · exact ⟨ht, hrun⟩
    · exact ⟨(h.holder hx).1, (h.holder hx).2.1⟩
  have hsome : ((machine thrd0Iters thrd1Iters lockOoo).next p (u, true)).isSome = true :=
    next_isSome huok.2 hfree
  rw [hno u true huok.1] at hsome
  cases hsome

/-- Once both threads have returned nobody holds a lock. -/
theorem Safe.free_of_bothReturned {p : Pool Locks Place} (h : Safe lockOoo p)
    (hdone : BothReturned p) (x : LockName) : p.shared x = none := by
  cases hx : p.shared x with
  | none => rfl
  | some thrd =>
      obtain ⟨hthrd, hrun, -⟩ := h.holder hx
      obtain ⟨⟨ret0, h0⟩, ⟨ret1, h1⟩⟩ := hdone
      rcases hthrd with rfl | rfl
      · exact absurd h0 (hrun ret0)
      · exact absurd h1 (hrun ret1)

/-! ### The embrace -/

/-- Both locks free and both threads at their first line. -/
def pool0 : Pool Locks Place := { shared := fun _ => none, call := fun _ => .entry }

theorem machine_init : (machine thrd0Iters thrd1Iters lockOoo).init pool0 :=
  ⟨fun _ => rfl, fun _ => rfl⟩

/-- Each thread takes three steps, up to holding its first lock. -/
def crossing : List (Nat × Bool) :=
  [(0, true), (0, true), (0, true), (1, true), (1, true), (1, true)]

/-- Thread 0 holds `lockA`, thread 1 holds `lockB`. -/
def embrace : Pool Locks Place where
  shared := Function.update (Function.update (fun _ => none) .lockA (some 0)) .lockB (some 1)
  call := Function.update (Function.update (fun _ => .entry) 0 (.second .lockA .lockB 0)) 1
    (.second .lockB .lockA 0)

theorem exec_crossing (h0 : 0 < thrd0Iters) (h1 : 0 < thrd1Iters) :
    (machine thrd0Iters thrd1Iters 1).exec pool0 crossing = some embrace := by
  simp [crossing, machine, Pool.machine, Pool.next, pool0, step, order, itersOf, spinLock, h0, h1,
    embrace]

theorem stuck_embrace : Stuck thrd0Iters thrd1Iters 1 embrace := by
  refine ⟨⟨0, Or.inl rfl, fun ret => by simp [embrace]⟩, ?_⟩
  rintro thrd ok (rfl | rfl)
  · simp [machine, Pool.machine, Pool.next, embrace, step, spinLock]
  · simp [machine, Pool.machine, Pool.next, embrace, step, spinLock]

/--
**The demo deadlocks with `lock_ooo` and only with it**: otherwise no reachable
state is stuck and both threads leave the locks free, for any number of iterations.
-/
theorem deadlock_iff_lockOoo (thrd0Iters thrd1Iters : Nat) (lockOoo : Int) :
    (lockOoo ≠ 1 → ∀ p, (machine thrd0Iters thrd1Iters lockOoo).Reachable p →
      ¬ Stuck thrd0Iters thrd1Iters lockOoo p ∧
        (BothReturned p → ∀ x, p.shared x = none)) ∧
    (lockOoo = 1 → 0 < thrd0Iters → 0 < thrd1Iters →
      ∃ p, (machine thrd0Iters thrd1Iters lockOoo).Reachable p ∧
        Stuck thrd0Iters thrd1Iters lockOoo p) := by
  refine ⟨fun hooo p hp => ?_, ?_⟩
  · have hsafe := (inductive_safe _).holds hp
    exact ⟨hsafe.not_stuck hooo, hsafe.free_of_bothReturned⟩
  · rintro rfl h0 h1
    exact ⟨embrace, Machine.reachable_of_exec (.init machine_init) (exec_crossing h0 h1),
      stuck_embrace⟩

/-- One iteration each, in order, thread 0 first. -/
def inTurnRun : (machine 1 1 0).Run 14 :=
  .ofActs pool0 (List.replicate 7 (0, true) ++ List.replicate 7 (1, true)) machine_init
    (by decide +kernel)

theorem deadlock_iff_lockOoo_once :
    (∀ x, (inTurnRun.state 14).shared x = none) ∧
      ∃ p, (machine 1 1 1).Reachable p ∧ Stuck 1 1 1 p :=
  ⟨((deadlock_iff_lockOoo 1 1 0).1 (by decide) _ (inTurnRun.reachable 14 (by decide))).2
      ⟨⟨0, by decide +kernel⟩, ⟨0, by decide +kernel⟩⟩,
    (deadlock_iff_lockOoo 1 1 1).2 rfl (by decide) (by decide)⟩

end Lkp.Lockdep
