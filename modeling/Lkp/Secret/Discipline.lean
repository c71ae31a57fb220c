/-
How the driver with two locks uses its three locks.

A spinlock may not be held across anything that sleeps, no lock may be taken twice,
and none may be kept past the return.  All of this can be read off the places a
call rests at once the locks agree with the places (`Locks`), except at one: the
`schedule_timeout` under `ctx->spinlock`, which a call reaches only where it finds
`buggy` to be 1.

No call ever waits for a lock while it holds another, so whoever holds the lock a
call waits for can go on, and nothing is ever stuck.
-/
import Lkp.Secret.Exclusion

namespace Lkp.Secret.Spin

/-- The locks of the driver. -/
inductive LockName
  | spinlock
  | mutex
  | lock1
  deriving DecidableEq

/-- The call that holds a lock. -/
def Drv.owner (s : Drv) : LockName → Option Nat
  | .spinlock => s.spinlock
  | .mutex => s.mutex
  | .lock1 => s.lock1

/-- The places that hold a lock. -/
def holds : LockName → Call → Bool
  | .spinlock => holdsSpin
  | .mutex => inCopy
  | .lock1 => holdsLock1

/-- The lock a call takes next. -/
def wants : Call → Option LockName
  | .file _ => some .lock1
  | .read _ | .writeFetched _ => some .spinlock
  | .readOk .. => some .mutex
  | .stats showStats _ => if 1 = showStats then some .spinlock else none
  | _ => none

/--
What comes next may sleep: `kvmalloc`, `copy_from_user`, `kvfree`,
`schedule_timeout`, `mutex_lock` or `copy_to_user`.
-/
def mayBlock : Call → Bool
  | .write _ | .writeKbuf .. | .writeFree .. | .writeSleep _ | .readOk .. | .readCopy .. => true
  | _ => false

/-- The call was made and has not returned. -/
def UnderWay (l : Call) : Prop := l ≠ .idle ∧ ∀ r, l ≠ .ret r

/-- The call can take a step, whatever the world answers. -/
def CanStep (args : FileOp → Arg) (c : Nat) (s : Drv) (l : Call) : Prop :=
  ∀ ok, (step args c (.run ok) s l).isSome = true

/-- The rules of locking, in one state. -/
structure Disciplined (args : FileOp → Arg) (p : Pool Drv Call) : Prop where
  /-- No call that may block next holds a spinlock. -/
  atomic : ∀ c, mayBlock (p.call c) = true →
    p.shared.owner .lock1 ≠ some c ∧ p.shared.owner .spinlock ≠ some c
  /-- No call takes a lock that it holds. -/
  noRelock : ∀ c x, wants (p.call c) = some x → p.shared.owner x ≠ some c
  /-- A call that has returned holds nothing. -/
  released : ∀ c r, p.call c = .ret r → ∀ x, p.shared.owner x ≠ some c
  /-- A call under way can step, or the call that holds the lock it waits for can. -/
  notStuck : ∀ c, UnderWay (p.call c) → ∃ d,
    (d = c ∨ ∃ x, wants (p.call c) = some x ∧ p.shared.owner x = some d) ∧
      UnderWay (p.call d) ∧ CanStep args d p.shared (p.call d)

/-- Where a write tests `buggy`, it is not 1. -/
def NotBuggy (p : Pool Drv Call) (a : Nat × Env) : Prop :=
  match p.call a.1 with
  | .writeTest _ => p.shared.buggy ≠ 1
  | _ => True

instance : DecidableRel NotBuggy := fun p a =>
  decidable_of_bool (match p.call a.1 with
    | .writeTest _ => p.shared.buggy ≠ 1
    | _ => true) <| by
      unfold NotBuggy
      split <;> simp

/-! ### What the places say -/

section Places

variable {args : FileOp → Arg} {c : Nat} {s : Drv} {l : Call}

theorem Locks.owned (h : Locks c s l) (x : LockName) : Owned c (s.owner x) (holds x l) := by
  cases x with
  | spinlock => exact h.spin
  | mutex => exact h.mutex
  | lock1 => exact h.lock1

/-- A call that waits for a lock holds none. -/
theorem holds_of_wants {x : LockName} (h : wants l = some x) (y : LockName) :
    holds y l = false := by
  cases y <;> cases l <;> first | rfl | cases h

theorem holds_ret (r : Result) (y : LockName) : holds y (.ret r) = false := by
  cases y <;> rfl

/-- Only the sleep under `ctx->spinlock` may block with a spinlock held. -/
theorem holds_of_mayBlock (h : mayBlock l = true) (hsleep : ∀ kbuf, l ≠ .writeSleep kbuf) :
    holds .lock1 l = false ∧ holds .spinlock l = false := by
  cases l <;> first | exact ⟨rfl, rfl⟩ | exact absurd rfl (hsleep _) | cases h

theorem Locks.not_owner {x : LockName} (h : Locks c s l) (hno : holds x l = false) :
    s.owner x ≠ some c := by
  have hown := h.owned x
  rw [hno] at hown
  exact hown.not_owner

/-- A call that holds a lock is under way. -/
theorem underWay_of_holds {x : LockName} (h : holds x l = true) : UnderWay l := by
  refine ⟨fun hidle => ?_, fun r hret => ?_⟩
  · subst hidle
    cases x <;> cases h
  · rw [hret, holds_ret] at h
    cases h

/-- A call whose next lock, if any, is free can step. -/
theorem canStep (h : UnderWay l) (hno : l ≠ .oops)
    (hfree : ∀ x, wants l = some x → s.owner x = none) : CanStep args c s l := by
  intro ok
  cases l with
  | idle => exact absurd rfl h.1
  | ret r => exact absurd rfl (h.2 r)
  | oops => exact absurd rfl hno
  | file op =>
      have hlock : s.lock1 = none := hfree .lock1 rfl
      simp [step, fileStep, hlock]
  | read count =>
      have hlock : s.spinlock = none := hfree .spinlock rfl
      simp [step, fileStep, readStep, hlock]
  | writeFetched kbuf =>
      have hlock : s.spinlock = none := hfree .spinlock rfl
      simp [step, fileStep, readStep, writeStep, hlock]
  | readOk count n =>
      have hlock : s.mutex = none := hfree .mutex rfl
      simp [step, fileStep, readStep, hlock]
  | stats showStats r =>
      by_cases hshow : 1 = showStats
      · have hlock : s.spinlock = none := hfree .spinlock (by simp [wants, hshow])
        simp [step, fileStep, readStep, writeStep, statsStep, hshow, hlock]
      · simp [step, fileStep, readStep, writeStep, statsStep, hshow]
  | readHeld count =>
      simp only [step, fileStep, readStep, Option.none_or]
      split <;> rfl
  | readLen count n =>
      simp only [step, fileStep, readStep, Option.none_or]
      split <;> rfl
  | readCopy count n got =>
      simp only [step, fileStep, readStep, Option.none_or]
      split
      · split
        · split
          · split <;> rfl
          · rfl
        · rfl
      · rfl
  | fileArg op x v => cases x <;> rfl
  | write ubuf => cases ok <;> rfl
  | writeKbuf kbuf ubuf => cases ok <;> rfl
  | writeCopy kbuf i =>
      simp only [step, fileStep, readStep, writeStep, Option.none_or]
      split
      · rfl
      · split <;> rfl
  | _ => rfl

end Places

/-! ### In every run -/

variable {args : FileOp → Arg}

/-- No call sleeps under the spinlock. -/
theorem awake_kept :
    Pool.Kept (step args) NotBuggy (fun _ => True) (fun _ _ l => ∀ kbuf, l ≠ .writeSleep kbuf)
      fun _ _ _ _ => True where
  own p c e s' l' _ hok hstep := by
    refine ⟨trivial, fun kbuf hsleep => ?_⟩
    have hmove := move_of_step hstep
    unfold NotBuggy at hok
    generalize p.call c = l at hmove hok
    subst hsleep
    cases hmove with
    | testBuggy kbuf hbuggy => exact hok hbuggy.symm
  others _ _ _ _ _ d hinv _ _ _ := hinv.each d
  pair _ _ _ _ _ _ _ _ _ _ := ⟨trivial, trivial⟩

theorem awake_of_reachableBy {p : Pool Drv Call} (h : (machine args).ReachableBy NotBuggy p)
    (c : Nat) : ∀ kbuf, p.call c ≠ .writeSleep kbuf := by
  have hinv : (machine args).Inductive _ _ := awake_kept.invariant (fun _ _ => trivial)
    (fun _ _ _ kbuf hsleep => by cases hsleep) fun _ _ => trivial
  exact (hinv.holds h).each c

/-- The owner of a lock that is waited for can step. -/
theorem Safe.owner_canStep {p : Pool Drv Call} (h : Safe p) {x : LockName} {d : Nat}
    (hown : p.shared.owner x = some d) :
    UnderWay (p.call d) ∧ CanStep args d p.shared (p.call d) := by
  have hholds : holds x (p.call d) = true := ((h.each d).1.owned x).mpr hown
  have hway := underWay_of_holds hholds
  refine ⟨hway, canStep hway (h.each d).2.ne_oops fun y hy => ?_⟩
  rw [holds_of_wants hy x] at hholds
  cases hholds

/-- **The locks are used by the rules in every run in which no write finds `buggy` to be 1.** -/
theorem disciplined {p : Pool Drv Call} (h : (machine args).ReachableBy NotBuggy p) :
    Disciplined args p := by
  have hsafe : Safe p := (inductive_safe _).holds h
  refine ⟨fun c hblock => ?_, fun c x hwants => ?_, fun c r hret x => ?_, fun c hway => ?_⟩
  · obtain ⟨hlock1, hspin⟩ := holds_of_mayBlock hblock (awake_of_reachableBy h c)
    exact ⟨(hsafe.each c).1.not_owner hlock1, (hsafe.each c).1.not_owner hspin⟩
  · exact (hsafe.each c).1.not_owner (holds_of_wants hwants x)
  · refine (hsafe.each c).1.not_owner ?_
    rw [hret]
    exact holds_ret r x
  · by_cases hwait : ∃ x d, wants (p.call c) = some x ∧ p.shared.owner x = some d
    · obtain ⟨x, d, hwants, hown⟩ := hwait
      exact ⟨d, Or.inr ⟨x, hwants, hown⟩, hsafe.owner_canStep hown⟩
    · refine ⟨c, Or.inl rfl, hway, canStep hway (hsafe.each c).2.ne_oops fun x hwants => ?_⟩
      cases hown : p.shared.owner x with
      | none => rfl
      | some d => exact absurd ⟨x, d, hwants, hown⟩ hwait

theorem disciplined_overlapping :
    Disciplined fromLast ((overlappingRun fromLast).state 12) :=
  disciplined ((overlappingRun fromLast).reachableBy
    (by unfold Machine.Run.Meets; decide +kernel) 12 (by decide))

end Lkp.Secret.Spin
