/-
The per-CPU variables of the two kernel threads.

Each thread goes through its iterations; in each one it updates `pcpa` of the CPU it
is on, and then the structure `pcp_ctx` points to there.  Both updates are a plain
load and a plain store.  What makes them safe is `get_cpu_var` and `get_cpu_ptr`: from
there to the matching put preemption is off, so the thread stays on its CPU and
nobody else runs on it (`Drv.owner`).  Everywhere else a thread may be moved.

The record `Drv.made` says how often each thread has made each update on each CPU.  On
every CPU the variables hold what the record asks for, and over all CPUs the record
comes to what the loops of the threads have done (`Runs`).
-/
import Mathlib.Algebra.BigOperators.Group.Finset.Basic
import Mathlib.Algebra.Order.BigOperators.Group.Finset
import Lkp.Kernel.Basic
import Lkp.Concurrency.Pool

namespace Lkp.PerCpu

/-- One CPU's `pcpa`, and `tx` and `rx` of its `struct drv_ctx`. -/
structure Cell where
  pcpa : BitVec 32
  tx : BitVec 32
  rx : BitVec 32
  deriving DecidableEq

/-- The two per-CPU variables. -/
inductive Var
  | pcpa
  | ctx
  deriving DecidableEq

/-- Where a thread in `thrd_work` has got to. -/
inductive Place
  | entry
  /-- The test of the loop, with counter `i`. -/
  | loop (i : Nat)
  /-- Preemption is off; the load comes next. -/
  | got (x : Var) (i : Nat)
  /-- The store comes next. -/
  | loaded (x : Var) (i : Nat) (v : BitVec 32)
  /-- The put comes next. -/
  | stored (x : Var) (i : Nat)
  /-- `put_cpu_var(pcpa)` is done; `get_cpu_ptr(pcp_ctx)` comes next. -/
  | between (i : Nat)
  | done (ret : Int)
  deriving DecidableEq

/-- A thread: the CPU it is on, whether it is pinned there, and its place. -/
structure Thread where
  cpu : Nat
  pinned : Bool
  place : Place
  deriving DecidableEq

/-- The variables of all CPUs, who has preemption off on each, and the record of updates. -/
structure Drv where
  cell : Nat → Cell
  owner : Nat → Option Nat
  /-- How often each variable was updated by each thread on each CPU. -/
  made : Var → Nat → Nat → Nat

/-- How `set_cpuaffinity` turns out. -/
inductive Affinity
  | failed
  | pinned
  /-- It reports success and the thread may still be moved. -/
  | ignored
  deriving DecidableEq

/-- The scheduler moves a thread, or lets it take a step. -/
inductive Env
  | migrate (cpu : Nat)
  | run (a : Affinity)
  deriving DecidableEq

instance : Inhabited Env := ⟨.run .pinned⟩

/-- Between a get and the matching put. -/
def inWindow : Place → Bool
  | .got .. | .loaded .. | .stored .. => true
  | _ => false

/-- What thread `thrd` loads from the variable `x`: `pcpa`, or its member of the structure. -/
def load (thrd : Nat) (x : Var) (a : Cell) : BitVec 32 :=
  match x with
  | .pcpa => a.pcpa
  | .ctx => if thrd = 0 then a.tx else a.rx

/-- What it stores, having loaded `v`. -/
def store (thrd : Nat) (x : Var) (v : BitVec 32) (a : Cell) : Cell :=
  match x with
  | .pcpa => if thrd = 0 then { a with pcpa := v + 1 } else { a with pcpa := v - 1 }
  | .ctx => if thrd = 0 then { a with tx := v + 100 } else { a with rx := v + 200 }

/-- `preempt_disable` and `preempt_enable` on a CPU. -/
def Drv.setOwner (s : Drv) (cpu : Nat) (o : Option Nat) : Drv :=
  { s with owner := Function.update s.owner cpu o }

/-- The store of an update, with its entry in the record. -/
def Drv.put (s : Drv) (thrd cpu : Nat) (x : Var) (v : BitVec 32) : Drv :=
  { s with
    cell := Function.update s.cell cpu (store thrd x v (s.cell cpu))
    made := fun y t k => s.made y t k + if y = x ∧ t = thrd ∧ k = cpu then 1 else 0 }

/-- The thread goes on to a place. -/
def Thread.to (l : Thread) (place : Place) : Thread := { l with place := place }

/-- `thrd_work(thrd)`, one step at a time. -/
def thrdWork (ncpu : Nat) (iters : Nat → Nat) (thrd : Nat) (a : Affinity) (s : Drv) (l : Thread) :
    Option (Drv × Thread) :=
  match l.place with
  | .entry =>
      if thrd ≠ 0 ∧ thrd ≠ 1 then some (s, l.to (.done (-EINVAL)))
      else
        match a with
        | .failed => some (s, l.to (.done (-ENOSYS)))
        | .pinned =>
            if thrd < ncpu then some (s, { cpu := thrd, pinned := true, place := .loop 0 })
            else none
        | .ignored => some (s, l.to (.loop 0))
  | .loop i =>
      if i < iters thrd then some (s.setOwner l.cpu (some thrd), l.to (.got .pcpa i))
      else some (s, l.to (.done 0))
  | .got x i => some (s, l.to (.loaded x i (load thrd x (s.cell l.cpu))))
  | .loaded x i v => some (s.put thrd l.cpu x v, l.to (.stored x i))
  | .stored .pcpa i => some (s.setOwner l.cpu none, l.to (.between i))
  | .between i => some (s.setOwner l.cpu (some thrd), l.to (.got .ctx i))
  | .stored .ctx i => some (s.setOwner l.cpu none, l.to (.loop (i + 1)))
  | .done _ => none

/-- A thread can be moved outside its windows, and runs where no other has preemption off. -/
def step (ncpu : Nat) (iters : Nat → Nat) : CallStep Drv Thread Env := fun thrd e s l =>
  match e with
  | .migrate cpu =>
      if cpu < ncpu ∧ (l.pinned = true → cpu = thrd) ∧ inWindow l.place = false then
        some (s, { l with cpu := cpu })
      else none
  | .run a =>
      if s.owner l.cpu = none ∨ s.owner l.cpu = some thrd then thrdWork ncpu iters thrd a s l
      else none

/-- A thread that is created; the scheduler may move it before it runs. -/
def newThread : Thread := { cpu := 0, pinned := false, place := .entry }

/-- The threads running at once on `ncpu` CPUs, from zeroed variables. -/
def machine (ncpu : Nat) (iters : Nat → Nat) : Machine (Pool Drv Thread) (Nat × Env) :=
  Pool.machine
    (fun s => s = { cell := fun _ => ⟨0, 0, 0⟩, owner := fun _ => none, made := fun _ _ _ => 0 })
    newThread (step ncpu iters)

/-! ### What one step can do -/

/-- The steps of a thread, one constructor for each kind. -/
inductive Move (ncpu : Nat) (iters : Nat → Nat) (thrd : Nat) : Drv → Thread → Drv → Thread → Prop
  | migrate {s l} (cpu) (hcpu : cpu < ncpu) (hpin : l.pinned = true → cpu = thrd)
      (hout : inWindow l.place = false) : Move ncpu iters thrd s l s { l with cpu := cpu }
  | giveUp {s l} (ret) (hret : ret ≠ 0) (h : l.place = .entry) :
      Move ncpu iters thrd s l s (l.to (.done ret))
  | pin {s l} (hthrd : thrd = 0 ∨ thrd = 1) (hcpu : thrd < ncpu) (h : l.place = .entry) :
      Move ncpu iters thrd s l s { cpu := thrd, pinned := true, place := .loop 0 }
  | start {s l} (hthrd : thrd = 0 ∨ thrd = 1) (h : l.place = .entry) :
      Move ncpu iters thrd s l s (l.to (.loop 0))
  | finish {s l} (i) (hi : ¬ i < iters thrd) (h : l.place = .loop i) :
      Move ncpu iters thrd s l s (l.to (.done 0))
  | getPcpa {s l} (i) (hi : i < iters thrd) (h : l.place = .loop i)
      (hfree : s.owner l.cpu = none ∨ s.owner l.cpu = some thrd) :
      Move ncpu iters thrd s l (s.setOwner l.cpu (some thrd)) (l.to (.got .pcpa i))
  | getCtx {s l} (i) (h : l.place = .between i)
      (hfree : s.owner l.cpu = none ∨ s.owner l.cpu = some thrd) :
      Move ncpu iters thrd s l (s.setOwner l.cpu (some thrd)) (l.to (.got .ctx i))
  | load {s l} (x i) (h : l.place = .got x i) :
      Move ncpu iters thrd s l s (l.to (.loaded x i (load thrd x (s.cell l.cpu))))
  | store {s l} (x i v) (h : l.place = .loaded x i v) :
      Move ncpu iters thrd s l (s.put thrd l.cpu x v) (l.to (.stored x i))
  | putPcpa {s l} (i) (h : l.place = .stored .pcpa i) :
      Move ncpu iters thrd s l (s.setOwner l.cpu none) (l.to (.between i))
  | putCtx {s l} (i) (h : l.place = .stored .ctx i) :
      Move ncpu iters thrd s l (s.setOwner l.cpu none) (l.to (.loop (i + 1)))

section Moves

variable {ncpu : Nat} {iters : Nat → Nat} {thrd : Nat} {s s' : Drv} {l l' : Thread}

theorem move_of_thrdWork {a : Affinity}
    (hfree : s.owner l.cpu = none ∨ s.owner l.cpu = some thrd)
    (h : thrdWork ncpu iters thrd a s l = some (s', l')) : Move ncpu iters thrd s l s' l' := by
  unfold thrdWork at h
  cases hplace : l.place <;> rw [hplace] at h
  case entry =>
    simp only at h
    split at h
    · cases h
      exact .giveUp _ (by decide) hplace
    · rename_i hthrd
      have hworker : thrd = 0 ∨ thrd = 1 := by omega
      cases a with
      | failed => cases h; exact .giveUp _ (by decide) hplace
      | pinned =>
          simp only at h
          split at h <;> cases h
          exact .pin hworker ‹_› hplace
      | ignored => cases h; exact .start hworker hplace
  case loop i =>
    simp only at h
    split at h <;> cases h
    · exact .getPcpa i ‹_› hplace hfree
    · exact .finish i ‹_› hplace
  case got x i => cases h; exact .load x i hplace
  case loaded x i v => cases h; exact .store x i v hplace
  case stored x i =>
    cases x <;> cases h
    · exact .putPcpa i hplace
    · exact .putCtx i hplace
  case between i => cases h; exact .getCtx i hplace hfree
  case done ret => cases h

theorem move_of_step {e : Env} (h : step ncpu iters thrd e s l = some (s', l')) :
    Move ncpu iters thrd s l s' l' := by
  cases e with
  | migrate cpu =>
      simp only [step] at h
      split at h <;> cases h
      rename_i hmay
      exact .migrate cpu hmay.1 hmay.2.1 hmay.2.2
  | run a =>
      simp only [step] at h
      split at h
      · exact move_of_thrdWork ‹_› h
      · cases h

end Moves

/-! ### What the loops have done -/

/-- How often a thread at a place has updated a variable. -/
def updates (iters : Nat) (x : Var) : Place → Nat
  | .entry => 0
  | .loop i => i
  | .got y i | .loaded y i _ => if x = .pcpa ∧ y = .ctx then i + 1 else i
  | .stored y i => if x = .ctx ∧ y = .pcpa then i else i + 1
  | .between i => if x = .pcpa then i + 1 else i
  | .done ret => if ret = 0 then iters else 0

/-- The loop counter is in range. -/
def InRange (iters : Nat) : Place → Prop
  | .loop i => i ≤ iters
  | .got _ i | .loaded _ i _ | .stored _ i | .between i => i < iters
  | .entry | .done _ => True

/-- Past the pinning, and not on the way out with an error. -/
def Working : Place → Prop
  | .entry => False
  | .done ret => ret = 0
  | _ => True

theorem updates_le {iters : Nat} {place : Place} (h : InRange iters place) (x : Var) :
    updates iters x place ≤ iters := by
  cases place with
  | entry => exact Nat.zero_le _
  | loop i => exact h
  | got y i | loaded y i v | stored y i | between i =>
      have hi : i < iters := h
      simp only [updates]
      split <;> omega
  | done ret =>
      simp only [updates]
      split
      · exact le_refl _
      · exact Nat.zero_le _

/-! ### The invariant -/

/-- What the variables of a CPU hold by the record. -/
def cellOf (made : Var → Nat → Nat → Nat) (cpu : Nat) : Cell where
  pcpa := BitVec.ofInt 32 ((made .pcpa 0 cpu : ℤ) - made .pcpa 1 cpu)
  tx := BitVec.ofInt 32 (100 * made .ctx 0 cpu)
  rx := BitVec.ofInt 32 (200 * made .ctx 1 cpu)

/-- The variables hold what the record asks for. -/
def Kept (s : Drv) : Prop := ∀ cpu, s.cell cpu = cellOf s.made cpu

/-- What is known of a thread. -/
structure Runs (ncpu : Nat) (iters : Nat → Nat) (t : Nat) (s : Drv) (l : Thread) : Prop where
  cpu : l.cpu < ncpu
  /-- It has preemption off on its CPU, in its windows, and nowhere else. -/
  owner : ∀ k, s.owner k = some t ↔ inWindow l.place = true ∧ k = l.cpu
  loaded : ∀ x i v, l.place = .loaded x i v → v = load t x (s.cell l.cpu)
  worker : (l.pinned = false ∧ ¬ Working l.place) ∨ (t = 0 ∨ t = 1) ∧ Working l.place
  inRange : InRange (iters t) l.place
  /-- The record of its updates comes to what its loop has done. -/
  count : ∀ x, ∑ k ∈ Finset.range ncpu, s.made x t k = updates (iters t) x l.place
  pinned : l.pinned = true → l.cpu = t ∧ ∀ x k, k < ncpu → k ≠ t → s.made x t k = 0

section Steps

variable {ncpu : Nat} {iters : Nat → Nat} {c d : Nat} {s s' : Drv} {l l' m : Thread}

theorem cellOf_put {made : Var → Nat → Nat → Nat} {thrd cpu : Nat} (hthrd : thrd = 0 ∨ thrd = 1)
    (x : Var) :
    cellOf (fun y t k => made y t k + if y = x ∧ t = thrd ∧ k = cpu then 1 else 0) cpu =
      store thrd x (load thrd x (cellOf made cpu)) (cellOf made cpu) := by
  have hup : ∀ a b : ℤ, BitVec.ofInt 32 (a + 1 - b) = BitVec.ofInt 32 (a - b) + 1 := by
    intro a b
    rw [show a + 1 - b = (a - b) + 1 by ring, BitVec.ofInt_add]
    rfl
  have hdown : ∀ a b : ℤ, BitVec.ofInt 32 (a - (b + 1)) = BitVec.ofInt 32 (a - b) - 1 := by
    intro a b
    rw [show a - (b + 1) = (a - b) + -1 by ring, BitVec.ofInt_add, BitVec.sub_eq_add_neg]
    rfl
  have htx : ∀ a : ℤ, BitVec.ofInt 32 (100 * (a + 1)) = BitVec.ofInt 32 (100 * a) + 100 := by
    intro a
    rw [mul_add, BitVec.ofInt_add]
    rfl
  have hrx : ∀ a : ℤ, BitVec.ofInt 32 (200 * (a + 1)) = BitVec.ofInt 32 (200 * a) + 200 := by
    intro a
    rw [mul_add, BitVec.ofInt_add]
    rfl
  rcases hthrd with rfl | rfl <;> cases x <;> simp [cellOf, store, load, hup, hdown, htx, hrx]

theorem cellOf_put_of_ne {made : Var → Nat → Nat → Nat} {thrd cpu k : Nat} (h : k ≠ cpu)
    (x : Var) :
    cellOf (fun y t k => made y t k + if y = x ∧ t = thrd ∧ k = cpu then 1 else 0) k =
      cellOf made k := by
  simp [cellOf, h]

/-- A store of the value loaded plus the amount keeps the variables to the record. -/
theorem Kept.put (hs : Kept s) {thrd cpu : Nat} (hthrd : thrd = 0 ∨ thrd = 1) {x : Var}
    {v : BitVec 32} (hv : v = load thrd x (s.cell cpu)) : Kept (s.put thrd cpu x v) := by
  intro k
  by_cases hk : k = cpu
  · subst hk
    show Function.update s.cell k (store thrd x v (s.cell k)) k = _
    rw [Function.update_self, hv, hs k]
    exact (cellOf_put hthrd x).symm
  · show Function.update s.cell cpu (store thrd x v (s.cell cpu)) k = _
    rw [Function.update_of_ne hk, hs k]
    exact (cellOf_put_of_ne hk x).symm

/-- The record after an update, over all CPUs. -/
theorem sum_put {thrd cpu : Nat} {x : Var} {v : BitVec 32} (hcpu : cpu < ncpu) (y : Var) :
    ∑ k ∈ Finset.range ncpu, (s.put thrd cpu x v).made y thrd k =
      ∑ k ∈ Finset.range ncpu, s.made y thrd k + if y = x then 1 else 0 := by
  show ∑ k ∈ Finset.range ncpu,
    (s.made y thrd k + if y = x ∧ thrd = thrd ∧ k = cpu then 1 else 0) = _
  rw [Finset.sum_add_distrib]
  congr 1
  by_cases hy : y = x
  · simp [hy, hcpu]
  · simp [hy]

/-- A thread that goes on and leaves the variables and preemption alone. -/
theorem Runs.goTo (hl : Runs ncpu iters c s l) {place : Place}
    (hin : inWindow place = inWindow l.place)
    (hloaded : ∀ x i v, place = .loaded x i v → v = load c x (s.cell l.cpu))
    (hworker : (l.pinned = false ∧ ¬ Working place) ∨ (c = 0 ∨ c = 1) ∧ Working place)
    (hrange : InRange (iters c) place)
    (hcount : ∀ x, updates (iters c) x place = updates (iters c) x l.place) :
    Runs ncpu iters c s (l.to place) where
  cpu := hl.cpu
  owner k := by
    show s.owner k = some c ↔ inWindow place = true ∧ k = l.cpu
    rw [hin]
    exact hl.owner k
  loaded := hloaded
  worker := hworker
  inRange := hrange
  count x := (hl.count x).trans (hcount x).symm
  pinned := hl.pinned

/-- A thread that enters or leaves a window. -/
theorem Runs.setOwner (hl : Runs ncpu iters c s l) {o : Option Nat} {place : Place}
    (ho : o = some c ↔ inWindow place = true) (hloaded : ∀ x i v, place ≠ .loaded x i v)
    (hworker : (c = 0 ∨ c = 1) ∧ Working place) (hrange : InRange (iters c) place)
    (hcount : ∀ x, updates (iters c) x place = updates (iters c) x l.place) :
    Runs ncpu iters c (s.setOwner l.cpu o) (l.to place) where
  cpu := hl.cpu
  owner k := by
    show Function.update s.owner l.cpu o k = some c ↔ inWindow place = true ∧ k = l.cpu
    by_cases hk : k = l.cpu
    · subst hk
      simpa using ho
    · rw [Function.update_of_ne hk, hl.owner k]
      simp [hk]
  loaded x i v hplace := absurd hplace (hloaded x i v)
  worker := Or.inr hworker
  inRange := hrange
  count x := (hl.count x).trans (hcount x).symm
  pinned := hl.pinned

/-- A thread in its loop is one of the two. -/
theorem Runs.isWorker (hl : Runs ncpu iters c s l) {place : Place} (hplace : l.place = place)
    (hin : Working place) : c = 0 ∨ c = 1 := by
  subst hplace
  rcases hl.worker with hout | hworker
  · exact absurd hin hout.2
  · exact hworker.1

/-- The thread that moves. -/
theorem Move.runs (h : Move ncpu iters c s l s' l') (hs : Kept s) (hl : Runs ncpu iters c s l) :
    Kept s' ∧ Runs ncpu iters c s' l' := by
  have hrange := hl.inRange
  have hcount := hl.count
  cases h with
  | migrate cpu hcpu hpin hout =>
      refine ⟨hs, hcpu, fun k => ?_, fun x i v hplace => ?_, hl.worker, hl.inRange, hl.count,
        fun hpinned => ⟨hpin hpinned, (hl.pinned hpinned).2⟩⟩
      · rw [hl.owner k, hout]
        simp
      · rw [show l.place = .loaded x i v from hplace] at hout
        cases hout
  | giveUp ret hret hplace =>
      have hfree : l.pinned = false := by
        rcases hl.worker with hout | hworker
        · exact hout.1
        · rw [hplace] at hworker
          exact hworker.2.elim
      refine ⟨hs, hl.goTo (by rw [hplace]; rfl) nofun (Or.inl ⟨hfree, hret⟩) trivial fun x => ?_⟩
      rw [hplace]
      exact if_neg hret
  | pin hthrd hcpu hplace =>
      rw [hplace] at hcount
      refine ⟨hs, hcpu, fun k => ?_, nofun, Or.inr ⟨hthrd, trivial⟩, Nat.zero_le _, hcount,
        fun _ => ⟨rfl, fun x k hk _ => ?_⟩⟩
      · rw [hl.owner k, hplace]
        simp [inWindow]
      · exact Finset.sum_eq_zero_iff.mp (hcount x) k (Finset.mem_range.mpr hk)
  | start hthrd hplace =>
      refine ⟨hs, hl.goTo (by rw [hplace]; rfl) nofun (Or.inr ⟨hthrd, trivial⟩) (Nat.zero_le _)
        fun x => ?_⟩
      rw [hplace]
      rfl
  | finish i hi hplace =>
      have hworker := hl.isWorker hplace trivial
      rw [hplace] at hrange
      refine ⟨hs, hl.goTo (by rw [hplace]; rfl) nofun (Or.inr ⟨hworker, rfl⟩) trivial fun x => ?_⟩
      rw [hplace]
      exact Nat.le_antisymm (Nat.le_of_not_lt hi) hrange
  | getPcpa i hi hplace hfree =>
      have hworker := hl.isWorker hplace trivial
      refine ⟨hs, hl.setOwner (by simp [inWindow]) nofun ⟨hworker, trivial⟩ hi fun x => ?_⟩
      rw [hplace]
      simp [updates]
  | getCtx i hplace hfree =>
      have hworker := hl.isWorker hplace trivial
      rw [hplace] at hrange
      refine ⟨hs, hl.setOwner (by simp [inWindow]) nofun ⟨hworker, trivial⟩ hrange fun x => ?_⟩
      rw [hplace]
      simp [updates]
  | load x i hplace =>
      have hworker := hl.isWorker hplace trivial
      rw [hplace] at hrange
      refine ⟨hs, hl.goTo (by rw [hplace]; rfl) (fun y j v heq => ?_)
        (Or.inr ⟨hworker, trivial⟩) hrange fun x => ?_⟩
      · cases heq
        rfl
      · rw [hplace]
        rfl
  | store x i v hplace =>
      have hworker := hl.isWorker hplace trivial
      rw [hplace] at hrange hcount
      refine ⟨hs.put hworker (hl.loaded x i v hplace), hl.cpu, fun k => ?_, nofun,
        Or.inr ⟨hworker, trivial⟩, hrange, fun y => ?_, fun hpinned => ?_⟩
      · show s.owner k = some c ↔ inWindow (.stored x i) = true ∧ k = l.cpu
        rw [hl.owner k, hplace]
        rfl
      · rw [sum_put hl.cpu, hcount y]
        cases x <;> cases y <;> simp [updates, Thread.to]
      · obtain ⟨hcpu, hzero⟩ := hl.pinned hpinned
        refine ⟨hcpu, fun y k hk hne => ?_⟩
        show s.made y c k + (if y = x ∧ c = c ∧ k = l.cpu then 1 else 0) = 0
        rw [hzero y k hk hne, hcpu]
        simp [hne]
  | putPcpa i hplace =>
      have hworker := hl.isWorker hplace trivial
      rw [hplace] at hrange
      refine ⟨hs, hl.setOwner (by simp [inWindow]) nofun ⟨hworker, trivial⟩ hrange fun x => ?_⟩
      rw [hplace]
      cases x <;> simp [updates]
  | putCtx i hplace =>
      have hworker := hl.isWorker hplace trivial
      rw [hplace] at hrange
      refine ⟨hs, hl.setOwner (by simp [inWindow]) nofun ⟨hworker, trivial⟩ hrange fun x => ?_⟩
      rw [hplace]
      simp [updates]

/-- A thread that stands still while another enters or leaves a window. -/
theorem Runs.setOwner_other (hm : Runs ncpu iters d s m) {cpu : Nat} {o : Option Nat}
    (ho : o ≠ some d) (hcpu : s.owner cpu ≠ some d) : Runs ncpu iters d (s.setOwner cpu o) m where
  cpu := hm.cpu
  owner k := by
    show Function.update s.owner cpu o k = some d ↔ _
    rw [← hm.owner k]
    by_cases hk : k = cpu
    · subst hk
      rw [Function.update_self]
      exact ⟨fun h => absurd h ho, fun h => absurd h hcpu⟩
    · rw [Function.update_of_ne hk]
  loaded := hm.loaded
  worker := hm.worker
  inRange := hm.inRange
  count := hm.count
  pinned := hm.pinned

/-- A thread that stands still while another stores on a CPU this one has not claimed. -/
theorem Runs.put_other (hm : Runs ncpu iters d s m) (hne : d ≠ c) {cpu : Nat} {x : Var}
    {v : BitVec 32} (hcpu : s.owner cpu ≠ some d) : Runs ncpu iters d (s.put c cpu x v) m := by
  have hmade : ∀ y k, (s.put c cpu x v).made y d k = s.made y d k := by
    intro y k
    show s.made y d k + (if y = x ∧ d = c ∧ k = cpu then 1 else 0) = s.made y d k
    rw [if_neg fun h => hne h.2.1, Nat.add_zero]
  refine ⟨hm.cpu, hm.owner, fun y i w hplace => ?_, hm.worker, hm.inRange, fun y => ?_,
    fun hpinned => ⟨(hm.pinned hpinned).1, fun y k hk hkd => ?_⟩⟩
  · have hown : s.owner m.cpu = some d := (hm.owner m.cpu).mpr ⟨by rw [hplace]; rfl, rfl⟩
    have hother : m.cpu ≠ cpu := fun heq => hcpu (heq ▸ hown)
    show w = load d y (Function.update s.cell cpu (store c x v (s.cell cpu)) m.cpu)
    rw [Function.update_of_ne hother]
    exact hm.loaded y i w hplace
  · rw [← hm.count y]
    exact Finset.sum_congr rfl fun k _ => hmade y k
  · rw [hmade]
    exact (hm.pinned hpinned).2 y k hk hkd

/-- Where one thread has preemption off, no other has. -/
theorem Runs.not_owner (hl : Runs ncpu iters c s l) (hin : inWindow l.place = true)
    (hne : d ≠ c) : s.owner l.cpu ≠ some d := by
  rw [(hl.owner l.cpu).mpr ⟨hin, rfl⟩]
  exact fun heq => hne (Option.some.inj heq).symm

/-- The threads that stand still. -/
theorem Move.runs_other (h : Move ncpu iters c s l s' l') (hl : Runs ncpu iters c s l)
    (hm : Runs ncpu iters d s m) (hne : d ≠ c) : Runs ncpu iters d s' m := by
  have hthis : some c ≠ some d := fun heq => hne (Option.some.inj heq).symm
  have hfree : s.owner l.cpu = none ∨ s.owner l.cpu = some c → s.owner l.cpu ≠ some d := by
    intro hor heq
    rw [heq] at hor
    rcases hor with hnone | hsome
    · cases hnone
    · exact hthis hsome.symm
  cases h with
  | getPcpa i hi hplace hor => exact hm.setOwner_other hthis (hfree hor)
  | getCtx i hplace hor => exact hm.setOwner_other hthis (hfree hor)
  | putPcpa i hplace =>
      exact hm.setOwner_other nofun (hl.not_owner (by rw [hplace]; rfl) hne)
  | putCtx i hplace =>
      exact hm.setOwner_other nofun (hl.not_owner (by rw [hplace]; rfl) hne)
  | store x i v hplace => exact hm.put_other hne (hl.not_owner (by rw [hplace]; rfl) hne)
  | migrate | giveUp | pin | start | finish | load => exact hm

end Steps

/-! ### Every run -/

theorem runs_kept (ncpu : Nat) (iters : Nat → Nat) :
    Pool.Kept (step ncpu iters) (fun _ _ => True) Kept (Runs ncpu iters) fun _ _ _ _ => True where
  own _ c _ _ _ hinv _ hstep := (move_of_step hstep).runs hinv.shared (hinv.each c)
  others _ c _ _ _ d hinv _ hstep hne :=
    (move_of_step hstep).runs_other (hinv.each c) (hinv.each d) hne
  pair _ _ _ _ _ _ _ _ _ _ := ⟨trivial, trivial⟩

theorem inductive_runs {ncpu : Nat} (hcpu : 0 < ncpu) (iters : Nat → Nat) :
    (machine ncpu iters).Inductive (fun _ _ => True)
      (Pool.Inv Kept (Runs ncpu iters) fun _ _ _ _ => True) := by
  refine (runs_kept ncpu iters).invariant (fun s hs => ?_) (fun s t hs => ?_) fun _ _ => trivial
  · subst hs
    exact fun _ => rfl
  · subst hs
    refine ⟨hcpu, fun k => ?_, nofun, Or.inl ⟨rfl, id⟩, trivial, fun x => Finset.sum_const_zero,
      nofun⟩
    simp [newThread, inWindow]

/-! ### The totals -/

/-- Over all CPUs the variables come to what the loops have done. -/
structure Totals (ncpu : Nat) (iters : Nat → Nat) (p : Pool Drv Thread) : Prop where
  pcpa : ∑ k ∈ Finset.range ncpu, (p.shared.cell k).pcpa.toInt =
    (updates (iters 0) .pcpa (p.call 0).place : ℤ) - updates (iters 1) .pcpa (p.call 1).place
  tx : ∑ k ∈ Finset.range ncpu, (p.shared.cell k).tx.toInt =
    100 * (updates (iters 0) .ctx (p.call 0).place : ℤ)
  rx : ∑ k ∈ Finset.range ncpu, (p.shared.cell k).rx.toInt =
    200 * (updates (iters 1) .ctx (p.call 1).place : ℤ)

/-- A thread was pinned and has finished. -/
def Finished (l : Thread) : Prop := l.pinned = true ∧ ∃ ret, l.place = .done ret

/-- Every CPU holds what its thread alone has put there. -/
def Settled (ncpu : Nat) (iters : Nat → Nat) (p : Pool Drv Thread) : Prop :=
  ∀ k, k < ncpu →
    (p.shared.cell k).pcpa.toInt =
      (if k = 0 then (iters 0 : ℤ) else if k = 1 then -iters 1 else 0) ∧
    (p.shared.cell k).tx.toInt = (if k = 0 then 100 * (iters 0 : ℤ) else 0) ∧
    (p.shared.cell k).rx.toInt = (if k = 1 then 200 * (iters 1 : ℤ) else 0)

theorem toInt_ofInt {z : ℤ} (hlow : -2 ^ 31 ≤ z) (hhigh : z < 2 ^ 31) :
    (BitVec.ofInt 32 z).toInt = z := by
  rw [BitVec.toInt_ofInt]
  exact Int.bmod_eq_of_le (by omega) (by omega)

section Totals

variable {ncpu : Nat} {iters : Nat → Nat} {t : Nat} {s : Drv} {l : Thread}

/-- On one CPU a thread has made no more updates than on all. -/
theorem Runs.made_le (hl : Runs ncpu iters t s l) (x : Var) {k : Nat} (hk : k < ncpu) :
    s.made x t k ≤ iters t := by
  have hsum : s.made x t k ≤ ∑ k ∈ Finset.range ncpu, s.made x t k :=
    Finset.single_le_sum (fun _ _ => Nat.zero_le _) (Finset.mem_range.mpr hk)
  rw [hl.count x] at hsum
  exact hsum.trans (updates_le hl.inRange x)

/-- A thread that was pinned has made all its updates on its own CPU. -/
theorem Runs.made_pinned (hl : Runs ncpu iters t s l) (hfin : Finished l) (x : Var) {k : Nat}
    (hk : k < ncpu) : s.made x t k = if k = t then iters t else 0 := by
  obtain ⟨hpinned, ret, hplace⟩ := hfin
  obtain ⟨hcpu, hzero⟩ := hl.pinned hpinned
  by_cases hkt : k = t
  · subst hkt
    have hsum : ∑ j ∈ Finset.range ncpu, s.made x k j = s.made x k k :=
      Finset.sum_eq_single_of_mem k (Finset.mem_range.mpr hk) fun j hj hne =>
        hzero x j (Finset.mem_range.mp hj) hne
    have hret : ret = 0 := by
      rcases hl.worker with hout | hworker
      · rw [hpinned] at hout
        cases hout.1
      · rw [hplace] at hworker
        exact hworker.2
    rw [if_pos rfl, ← hsum, hl.count x, hplace]
    exact if_pos hret
  · rw [if_neg hkt]
    exact hzero x k hk hkt

end Totals

/-- **The sums are right at every moment, and pinned threads end with the right values.** -/
theorem totals {ncpu : Nat} {iters : Nat → Nat} (hcpu : 0 < ncpu) (h0 : 100 * iters 0 < 2 ^ 31)
    (h1 : 200 * iters 1 < 2 ^ 31) {p : Pool Drv Thread} (h : (machine ncpu iters).Reachable p) :
    Totals ncpu iters p ∧
      (Finished (p.call 0) → Finished (p.call 1) → Settled ncpu iters p) := by
  have hinv := (inductive_runs hcpu iters).holds h
  have hr0 := hinv.each 0
  have hr1 := hinv.each 1
  have hpcpa : ∀ k, k < ncpu → (p.shared.cell k).pcpa.toInt =
      (p.shared.made .pcpa 0 k : ℤ) - p.shared.made .pcpa 1 k := by
    intro k hk
    have hle0 := hr0.made_le .pcpa hk
    have hle1 := hr1.made_le .pcpa hk
    rw [hinv.shared k]
    exact toInt_ofInt (by omega) (by omega)
  have htx : ∀ k, k < ncpu → (p.shared.cell k).tx.toInt = 100 * (p.shared.made .ctx 0 k : ℤ) := by
    intro k hk
    have hle := hr0.made_le .ctx hk
    rw [hinv.shared k]
    exact toInt_ofInt (by omega) (by omega)
  have hrx : ∀ k, k < ncpu → (p.shared.cell k).rx.toInt = 200 * (p.shared.made .ctx 1 k : ℤ) := by
    intro k hk
    have hle := hr1.made_le .ctx hk
    rw [hinv.shared k]
    exact toInt_ofInt (by omega) (by omega)
  refine ⟨⟨?_, ?_, ?_⟩, fun hfin0 hfin1 k hk => ⟨?_, ?_, ?_⟩⟩
  · rw [Finset.sum_congr rfl fun k hk => hpcpa k (Finset.mem_range.mp hk), Finset.sum_sub_distrib,
      ← Nat.cast_sum, ← Nat.cast_sum, hr0.count, hr1.count]
  · rw [Finset.sum_congr rfl fun k hk => htx k (Finset.mem_range.mp hk), ← Finset.mul_sum,
      ← Nat.cast_sum, hr0.count]
  · rw [Finset.sum_congr rfl fun k hk => hrx k (Finset.mem_range.mp hk), ← Finset.mul_sum,
      ← Nat.cast_sum, hr1.count]
  · rw [hpcpa k hk, hr0.made_pinned hfin0 .pcpa hk, hr1.made_pinned hfin1 .pcpa hk]
    split <;> split <;> simp_all
  · rw [htx k hk, hr0.made_pinned hfin0 .ctx hk]
    split <;> simp
  · rw [hrx k hk, hr1.made_pinned hfin1 .ctx hk]
    split <;> simp

/-! ### A run -/

/-- No thread has run. -/
def pool0 : Pool Drv Thread where
  shared := { cell := fun _ => ⟨0, 0, 0⟩, owner := fun _ => none, made := fun _ _ _ => 0 }
  call := fun _ => newThread

theorem machine_init {ncpu : Nat} {iters : Nat → Nat} : (machine ncpu iters).init pool0 :=
  ⟨rfl, fun _ => rfl⟩

/-- Thread `c` takes `k` steps. -/
def steps (c k : Nat) : List (Nat × Env) := List.replicate k (c, .run .pinned)

/-- Thread 0 is in its first window when thread 1 goes through all of its loop. -/
def sideBySide : List (Nat × Env) := steps 0 3 ++ (1, .migrate 1) :: steps 1 10 ++ steps 0 7

def sideBySideRun : (machine 2 fun _ => 1).Run 21 :=
  .ofActs pool0 sideBySide machine_init (by decide +kernel)

theorem totals_sideBySideRun :
    Totals 2 (fun _ => 1) (sideBySideRun.state 21) ∧
      Settled 2 (fun _ => 1) (sideBySideRun.state 21) := by
  have hboth := totals (by decide) (by decide) (by decide)
    (sideBySideRun.reachable 21 (le_refl _))
  have hdone : ∀ c, c < 2 → (sideBySideRun.state 21).call c = ⟨c, true, .done 0⟩ := by
    decide +kernel
  have hfin : ∀ c, c < 2 → Finished ((sideBySideRun.state 21).call c) := by
    intro c hc
    rw [hdone c hc]
    exact ⟨rfl, 0, rfl⟩
  exact ⟨hboth.1, hboth.2 (hfin 0 (by decide)) (hfin 1 (by decide))⟩

end Lkp.PerCpu
