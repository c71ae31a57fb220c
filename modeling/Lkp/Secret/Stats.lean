/-
The statistics of the two secret drivers.

`ctx->tx` is meant to be the sum of what successful reads returned, `ctx->rx` the
sum of what successful writes returned.  No addition is ever lost: with one mutex
it is part of a section, and with two locks each counter has a lock of its own,
under which it is loaded and stored (`Spin.Loaded`).  So each counter agrees with
its sum modulo `2 ^ 32`, and is the sum as long as the `int` has room for it
(`countsReturned_iff`).  Two writes of `MAX_RW_COUNT` bytes already make `rx`
negative (`not_countsReturned`).
-/
import Lkp.Kernel.Counter
import Lkp.Secret.Methods
import Lkp.Secret.Exclusion

namespace Lkp.Secret

variable {args : FileOp → Arg}

theorem initCtx_stats {x : DrvCtx} (h : initCtx = some x) : x.tx = 0 ∧ x.rx = 0 := by
  obtain ⟨s, -, rfl⟩ := Option.map_eq_some_iff.mp h
  exact ⟨rfl, rfl⟩

/-! ### The driver with one mutex -/

namespace Mutex

/-- What a read whose update is made returns. -/
def txOf : Call → ℤ
  | .readRet ret _ => max ret 0
  | _ => 0

/-- What a write whose update is made returns. -/
def rxOf : Call → ℤ
  | .writeFree ret => max ret 0
  | .writeRet ret => max ret 0
  | _ => 0

/-- The statistics are the sums of what was returned, throughout a run. -/
structure CountsReturned {n : Nat} (r : (machine args).Run n) : Prop where
  tx : Counts n (fun i => (r.state i).shared.ctx.tx) fun i => Pool.total txOf (r.state i)
  rx : Counts n (fun i => (r.state i).shared.ctx.rx) fun i => Pool.total rxOf (r.state i)

/-- The VFS caps the count of a write. -/
def Capped (_ : Pool Drv Call) (a : Nat × Env) : Prop :=
  match a.2 with
  | .call (.write ubuf) => ubuf.length ≤ maxRwCount
  | _ => True

instance : DecidableRel Capped := fun p a => by
  unfold Capped; split <;> infer_instance

/-- A section that adds to a counter finds room in it. -/
def RoomAt (s : Drv) (l : Call) (e : Env) : Prop :=
  match l, e with
  | .readOk _ secretLen, .run true => s.ctx.tx.toInt + secretLen < 2 ^ 31
  | .writeFetched kbuf, .run _ => s.ctx.rx.toInt + kbuf.length < 2 ^ 31
  | _, _ => True

instance (s : Drv) (l : Call) (e : Env) : Decidable (RoomAt s l e) := by
  unfold RoomAt; split <;> infer_instance

/-- No step of a run overflows a counter. -/
def Room (p : Pool Drv Call) (a : Nat × Env) : Prop := RoomAt p.shared (p.call a.1) a.2

instance : DecidableRel Room := fun p a =>
  inferInstanceAs (Decidable (RoomAt p.shared (p.call a.1) a.2))

/-- The buffer a write works on is no longer than the VFS allows. -/
def Short : Call → Prop
  | .write ubuf => ubuf.length ≤ maxRwCount
  | .writeKbuf _ ubuf => ubuf.length ≤ maxRwCount
  | .writeFetched kbuf => kbuf.length ≤ maxRwCount
  | _ => True

section Steps

variable {e : Env} {s s' : Drv} {l l' : Call}

theorem Move.short (h : Move args e s l s' l')
    (hcap : ∀ ubuf, e = .call (.write ubuf) → ubuf.length ≤ maxRwCount) (hl : Short l) :
    Short l' := by
  cases h with
  | callWrite ubuf => exact hcap ubuf rfl
  | alloc ubuf => exact hl
  | fetch kbuf ubuf => exact hl
  | _ => trivial

/-- A section of a read adds to `tx` what the read returns. -/
theorem Move.tx (h : Move args e s l s' l') :
    s'.ctx.tx = s.ctx.tx + BitVec.ofInt 32 (txOf l' - txOf l) ∧ 0 ≤ txOf l' - txOf l := by
  cases h with
  | reject count n he =>
      have hneg := readChecks_neg he
      simp [txOf, max_eq_right hneg.le]
  | @copy _ ok count n r hr =>
      obtain ⟨bytes, -, rfl⟩ := Option.map_eq_some_iff.mp hr
      cases ok with
      | true => simp [txOf]
      | false => simp [txOf, EFAULT]
  | update op => cases op <;> simp [txOf, Mutex.update]
  | store kbuf hr =>
      obtain ⟨b, -, rfl⟩ := Option.map_eq_some_iff.mp hr
      simp [txOf]
  | _ => simp [txOf]

/-- A section of a write adds to `rx` what the write returns. -/
theorem Move.rx (h : Move args e s l s' l') (hl : Short l) :
    s'.ctx.rx = s.ctx.rx + BitVec.ofInt 32 (rxOf l' - rxOf l) ∧ 0 ≤ rxOf l' - rxOf l := by
  cases h with
  | @copy _ ok count n r hr =>
      obtain ⟨bytes, -, rfl⟩ := Option.map_eq_some_iff.mp hr
      cases ok with
      | true => simp [rxOf]
      | false => simp [rxOf]
  | update op => cases op <;> simp [rxOf, Mutex.update]
  | store kbuf hr =>
      obtain ⟨b, -, rfl⟩ := Option.map_eq_some_iff.mp hr
      have hret : toInt kbuf.length = kbuf.length :=
        toInt_of_lt (lt_of_le_of_lt hl (by decide))
      simp [rxOf, hret]
  | fault => simp [rxOf, EFAULT]
  | noMem => simp [rxOf, ENOMEM]
  | _ => simp [rxOf]

/-- Room is what the two additions need, where a step makes one. -/
theorem Move.room (h : Move args e s l s' l') (hno : l' ≠ .oops) (hl : Short l) :
    RoomAt s l e ↔ s.ctx.tx.toInt + (txOf l' - txOf l) < 2 ^ 31 ∧
      s.ctx.rx.toInt + (rxOf l' - rxOf l) < 2 ^ 31 := by
  have htx : s.ctx.tx.toInt < 2147483648 := toInt_lt_bound s.ctx.tx
  have hrx : s.ctx.rx.toInt < 2147483648 := toInt_lt_bound s.ctx.rx
  cases h with
  | reject count n he =>
      have hneg := readChecks_neg he
      simp [RoomAt, txOf, rxOf, max_eq_right hneg.le, htx, hrx]
  | @copy _ ok count n r hr =>
      obtain ⟨bytes, -, rfl⟩ := Option.map_eq_some_iff.mp hr
      cases ok with
      | true => simp [RoomAt, txOf, rxOf, hrx]
      | false => simp [RoomAt, txOf, rxOf, EFAULT, htx, hrx]
  | store kbuf hr =>
      obtain ⟨b, -, rfl⟩ := Option.map_eq_some_iff.mp hr
      have hret : toInt kbuf.length = kbuf.length :=
        toInt_of_lt (lt_of_le_of_lt hl (by decide))
      simp [RoomAt, txOf, rxOf, hret, htx]
  | fault => simp [RoomAt, txOf, rxOf, EFAULT, htx, hrx]
  | noMem => simp [RoomAt, txOf, rxOf, ENOMEM, htx, hrx]
  | overrun | copyOops | storeOops => exact absurd rfl hno
  | _ => simp [RoomAt, txOf, rxOf, htx, hrx]

end Steps

/-- Every buffer is as short as the VFS allows. -/
theorem inductive_short : (machine args).Inductive Capped fun p => ∀ c, Short (p.call c) := by
  refine Pool.inductive_each trivial fun p c e s' l' hcap hstep hl => ?_
  refine (move_of_step hstep).short (fun ubuf he => ?_) hl
  simp only [Capped, he] at hcap
  exact hcap

theorem ne_oops {p : Pool Drv Call} (h : (machine args).Reachable p) (c : Nat) :
    p.call c ≠ .oops := by
  intro hoops
  have hholds := ((inductive_safe _).holds h).each c
  rw [hoops] at hholds
  exact hholds

theorem countsReturned_iff_room {n : Nat} (r : (machine args).Run n) (hcap : r.Meets Capped) :
    CountsReturned r ↔ r.Meets Room := by
  obtain ⟨htx0, hrx0⟩ := initCtx_stats r.start.1.1
  have hmove : ∀ k, k < n →
      Move args (r.act k).2 (r.state k).shared ((r.state k).call (r.act k).1)
        (r.state (k + 1)).shared ((r.state (k + 1)).call (r.act k).1) ∧
      Short ((r.state k).call (r.act k).1) := by
    intro k hk
    exact ⟨move_of_step (Pool.step_of_run r hk),
      inductive_short.holds (r.reachableBy hcap k hk.le) _⟩
  have hroom : ∀ k, k < n → _ := fun k hk =>
    (hmove k hk).1.room (ne_oops (r.reachable (k + 1) hk) _) (hmove k hk).2
  have htx := Pool.counts_iff_room r (v := fun s => s.ctx.tx) (g := txOf) rfl htx0
    (fun k hk => (hmove k hk).1.tx.1) fun k hk => (hmove k hk).1.tx.2
  have hrx := Pool.counts_iff_room r (v := fun s => s.ctx.rx) (g := rxOf) rfl hrx0
    (fun k hk => ((hmove k hk).1.rx (hmove k hk).2).1)
    fun k hk => ((hmove k hk).1.rx (hmove k hk).2).2
  constructor
  · intro h k hk
    exact (hroom k hk).mpr ⟨htx.mp h.tx k hk, hrx.mp h.rx k hk⟩
  · intro h
    exact ⟨htx.mpr fun k hk => ((hroom k hk).mp (h k hk)).1,
      hrx.mpr fun k hk => ((hroom k hk).mp (h k hk)).2⟩

end Mutex

/-! ### The driver with a spinlock and a mutex

Both counters are loaded and stored in steps of their own.  No addition is lost all
the same: whoever loads `tx` holds `ctx->mutex` until the sum is stored, and whoever
loads `rx` holds `ctx->spinlock`.
-/

namespace Spin

/-- What a read returns. -/
def Result.tx : Result → ℤ
  | .read ret _ => max ret 0
  | _ => 0

/-- What a write returns. -/
def Result.rx : Result → ℤ
  | .write ret => max ret 0
  | _ => 0

/-- What a read whose update is made returns. -/
def txOf : Call → ℤ
  | .readUnlock _ ret _ => max ret 0
  | .stats _ r | .statsHeld r | .statsShown r | .ret r => r.tx
  | _ => 0

/-- What a write whose update is made returns. -/
def rxOf : Call → ℤ
  | .writeTest kbuf | .writeSleep kbuf | .writeUnlock kbuf => max (toInt kbuf.length) 0
  | .writeFree _ ret => max ret 0
  | .stats _ r | .statsHeld r | .statsShown r | .ret r => r.rx
  | _ => 0

/-- The statistics are the sums of what was returned, throughout a run. -/
structure CountsReturned {n : Nat} (r : (machine args).Run n) : Prop where
  tx : Counts n (fun i => (r.state i).shared.ctx.tx) fun i => Pool.total txOf (r.state i)
  rx : Counts n (fun i => (r.state i).shared.ctx.rx) fun i => Pool.total rxOf (r.state i)

/-- The VFS caps the count of a write. -/
def Capped (_ : Pool Drv Call) (a : Nat × Env) : Prop :=
  match a.2 with
  | .call (.write ubuf) => ubuf.length ≤ maxRwCount
  | _ => True

instance : DecidableRel Capped := fun p a => by
  unfold Capped; split <;> infer_instance

/-- A step that adds to a counter finds room in it. -/
def RoomAt (s : Drv) (l : Call) (e : Env) : Prop :=
  match l, e with
  | .readTx secretLen _ _, .run _ => s.ctx.tx.toInt + secretLen < 2 ^ 31
  | .writeRx kbuf _, .run _ => s.ctx.rx.toInt + kbuf.length < 2 ^ 31
  | _, _ => True

instance (s : Drv) (l : Call) (e : Env) : Decidable (RoomAt s l e) := by
  unfold RoomAt; split <;> infer_instance

/-- No step of a run overflows a counter. -/
def Room (p : Pool Drv Call) (a : Nat × Env) : Prop := RoomAt p.shared (p.call a.1) a.2

instance : DecidableRel Room := fun p a =>
  inferInstanceAs (Decidable (RoomAt p.shared (p.call a.1) a.2))

/-- The buffer a write works on is no longer than the VFS allows. -/
def Short : Call → Prop
  | .write ubuf | .writeKbuf _ ubuf => ubuf.length ≤ maxRwCount
  | .writeFetched kbuf | .writeCopy kbuf _ | .writeStored kbuf | .writeRx kbuf _
  | .writeTest kbuf | .writeSleep kbuf | .writeUnlock kbuf => kbuf.length ≤ maxRwCount
  | _ => True

/-- The value a call has loaded is still the counter's. -/
def Loaded (s : Drv) : Call → Prop
  | .readTx _ _ tx => tx = s.ctx.tx
  | .writeRx _ rx => rx = s.ctx.rx
  | _ => True

section Steps

variable {c : Nat} {e : Env} {s s' : Drv} {l l' : Call}

theorem Move.short (h : Move args c e s l s' l')
    (hcap : ∀ ubuf, e = .call (.write ubuf) → ubuf.length ≤ maxRwCount) (hl : Short l) :
    Short l' := by
  cases h with
  | callWrite ubuf => exact hcap ubuf rfl
  | alloc | fetch | storeLock | storeNone | storeByte | storeLast | loadRx | addRx
  | testBuggy | testFine | sleep => exact hl
  | _ => trivial

theorem Move.loaded (h : Move args c e s l s' l') : Loaded s' l' := by
  cases h with
  | loadTx n ubuf => exact rfl
  | loadRx kbuf => exact rfl
  | _ => trivial

/-- Only a call that holds `ctx->mutex` changes `tx`. -/
theorem Move.txKept (h : Move args c e s l s' l') : s'.ctx.tx = s.ctx.tx ∨ inCopy l = true := by
  cases h with
  | addTx n ubuf tx => exact Or.inr rfl
  | update op => cases op <;> exact Or.inl rfl
  | _ => exact Or.inl rfl

/-- Only a call that holds `ctx->spinlock` changes `rx`. -/
theorem Move.rxKept (h : Move args c e s l s' l') : s'.ctx.rx = s.ctx.rx ∨ inStore l = true := by
  cases h with
  | addRx kbuf rx => exact Or.inr rfl
  | update op => cases op <;> exact Or.inl rfl
  | _ => exact Or.inl rfl

/-- A loaded value stays good while other calls move. -/
theorem Loaded.move_other {d : Nat} {m : Call} (hm : Loaded s m) (hl : Locks c s l)
    (hlm : Locks d s m) (hne : d ≠ c) (h : Move args c e s l s' l') : Loaded s' m := by
  cases m with
  | readTx n ubuf tx =>
      rcases h.txKept with hkept | hcopy
      · show tx = s'.ctx.tx
        rw [hkept]
        exact hm
      · have hown : Owned c s.mutex true := hcopy ▸ hl.mutex
        exact absurd (hlm.mutex.exclusive hown) hne
  | writeRx kbuf rx =>
      rcases h.rxKept with hkept | hstore
      · show rx = s'.ctx.rx
        rw [hkept]
        exact hm
      · have hown : Owned c s.spinlock true := holdsSpin_of_inStore hstore ▸ hl.spin
        exact absurd (hlm.spin.exclusive hown) hne
  | _ => trivial

/-- The step that stores `tx` adds to it what the read returns. -/
theorem Move.tx (h : Move args c e s l s' l') (hl : Loaded s l) :
    s'.ctx.tx = s.ctx.tx + BitVec.ofInt 32 (txOf l' - txOf l) ∧ 0 ≤ txOf l' - txOf l := by
  cases h with
  | reject count n he =>
      have hneg := readChecks_neg he
      simp [txOf, Result.tx, max_eq_right hneg.le]
  | addTx n ubuf tx =>
      have htx : tx = s.ctx.tx := hl
      simp [txOf, Drv.setTx, htx]
  | copyFault count n got => simp [txOf, EFAULT]
  | update op => cases op <;> simp [txOf, Spin.update]
  | _ => simp [txOf, Result.tx, Drv.setSecret, Drv.setRx]

/-- The step that stores `rx` adds to it what the write returns. -/
theorem Move.rx (h : Move args c e s l s' l') (hl : Loaded s l) (hshort : Short l) :
    s'.ctx.rx = s.ctx.rx + BitVec.ofInt 32 (rxOf l' - rxOf l) ∧ 0 ≤ rxOf l' - rxOf l := by
  cases h with
  | addRx kbuf rx =>
      have hrx : rx = s.ctx.rx := hl
      have hret : toInt kbuf.length = kbuf.length :=
        toInt_of_lt (lt_of_le_of_lt hshort (by decide))
      simp [rxOf, Drv.setRx, hrx, hret]
  | fault kbuf ubuf => simp [rxOf, EFAULT]
  | noMem ubuf => simp [rxOf, Result.rx, ENOMEM]
  | update op => cases op <;> simp [rxOf, Spin.update]
  | _ => simp [rxOf, Result.rx, Drv.setSecret, Drv.setTx]

/-- Room is what the two additions need, where a step makes one. -/
theorem Move.room (h : Move args c e s l s' l') (hshort : Short l) :
    RoomAt s l e ↔ s.ctx.tx.toInt + (txOf l' - txOf l) < 2 ^ 31 ∧
      s.ctx.rx.toInt + (rxOf l' - rxOf l) < 2 ^ 31 := by
  have htx : s.ctx.tx.toInt < 2147483648 := toInt_lt_bound s.ctx.tx
  have hrx : s.ctx.rx.toInt < 2147483648 := toInt_lt_bound s.ctx.rx
  cases h with
  | reject count n he =>
      have hneg := readChecks_neg he
      simp [RoomAt, txOf, rxOf, Result.tx, Result.rx, max_eq_right hneg.le, htx, hrx]
  | addRx kbuf rx =>
      have hret : toInt kbuf.length = kbuf.length :=
        toInt_of_lt (lt_of_le_of_lt hshort (by decide))
      simp [RoomAt, txOf, rxOf, hret, htx]
  | copyFault count n got => simp [RoomAt, txOf, rxOf, EFAULT, htx, hrx]
  | fault kbuf ubuf => simp [RoomAt, txOf, rxOf, EFAULT, htx, hrx]
  | noMem ubuf => simp [RoomAt, txOf, rxOf, Result.tx, Result.rx, ENOMEM, htx, hrx]
  | _ => simp [RoomAt, txOf, rxOf, Result.tx, Result.rx, htx, hrx]

end Steps

/-- Loaded values stay good. -/
theorem loaded_kept :
    Pool.Kept (step args) (fun p _ => Safe p) (fun _ => True) (fun _ s l => Loaded s l)
      fun _ _ _ _ => True where
  own _ _ _ _ _ _ _ hstep := ⟨trivial, (move_of_step hstep).loaded⟩
  others _ c _ _ _ d hinv hsafe hstep hne :=
    (hinv.each d).move_other (hsafe.each c).1 (hsafe.each d).1 hne (move_of_step hstep)
  pair _ _ _ _ _ _ _ _ _ _ := ⟨trivial, trivial⟩

theorem loaded_of_reachable {p : Pool Drv Call} (h : (machine args).Reachable p) (c : Nat) :
    Loaded p.shared (p.call c) := by
  have hinv : (machine args).Inductive _ _ := loaded_kept.invariant (fun _ _ => trivial)
    (fun _ _ _ => trivial) fun _ _ => trivial
  exact (hinv.holds (h.imp fun _ _ hreach _ => (inductive_safe _).holds hreach)).each c

/-- Buffers stay short. -/
theorem short_kept :
    Pool.Kept (step args) Capped (fun _ => True) (fun _ _ l => Short l) fun _ _ _ _ => True where
  own _ c _ _ _ hinv hok hstep := by
    refine ⟨trivial, (move_of_step hstep).short (fun ubuf he => ?_) (hinv.each c)⟩
    subst he
    exact hok
  others _ _ _ _ _ d hinv _ _ _ := hinv.each d
  pair _ _ _ _ _ _ _ _ _ _ := ⟨trivial, trivial⟩

theorem loaded_of_reachableBy {p : Pool Drv Call} (h : (machine args).ReachableBy Capped p)
    (c : Nat) : Loaded p.shared (p.call c) ∧ Short (p.call c) := by
  have hinv : (machine args).Inductive _ _ := short_kept.invariant (fun _ _ => trivial)
    (fun _ _ _ => trivial) fun _ _ => trivial
  exact ⟨loaded_of_reachable (h.weaken fun _ _ _ => trivial) c, (hinv.holds h).each c⟩

theorem countsReturned_iff_room {n : Nat} (r : (machine args).Run n) (hcap : r.Meets Capped) :
    CountsReturned r ↔ r.Meets Room := by
  obtain ⟨htx0, hrx0⟩ := initCtx_stats r.start.1.1
  have hmove : ∀ k, k < n →
      Move args (r.act k).1 (r.act k).2 (r.state k).shared ((r.state k).call (r.act k).1)
        (r.state (k + 1)).shared ((r.state (k + 1)).call (r.act k).1) := by
    intro k hk
    exact move_of_step (Pool.step_of_run r hk)
  have hplace : ∀ k, k < n → Loaded (r.state k).shared ((r.state k).call (r.act k).1) ∧
      Short ((r.state k).call (r.act k).1) := fun k hk =>
    loaded_of_reachableBy (r.reachableBy hcap k hk.le) _
  have hroom : ∀ k, k < n → _ := fun k hk => (hmove k hk).room (hplace k hk).2
  have htx := Pool.counts_iff_room r (v := fun s => s.ctx.tx) (g := txOf) rfl htx0
    (fun k hk => ((hmove k hk).tx (hplace k hk).1).1)
    fun k hk => ((hmove k hk).tx (hplace k hk).1).2
  have hrx := Pool.counts_iff_room r (v := fun s => s.ctx.rx) (g := rxOf) rfl hrx0
    (fun k hk => ((hmove k hk).rx (hplace k hk).1 (hplace k hk).2).1)
    fun k hk => ((hmove k hk).rx (hplace k hk).1 (hplace k hk).2).2
  constructor
  · intro h k hk
    exact (hroom k hk).mpr ⟨htx.mp h.tx k hk, hrx.mp h.rx k hk⟩
  · intro h
    exact ⟨htx.mpr fun k hk => ((hroom k hk).mp (h k hk)).1,
      hrx.mpr fun k hk => ((hroom k hk).mp (h k hk)).2⟩

end Spin

/-! ### Both drivers -/

/-- **The statistics of both drivers are exact just as long as the counters have room.** -/
theorem countsReturned_iff (args : FileOp → Arg) (n : Nat) :
    (∀ r : (Mutex.machine args).Run n, r.Meets Mutex.Capped →
      (Mutex.CountsReturned r ↔ r.Meets Mutex.Room)) ∧
    ∀ r : (Spin.machine args).Run n, r.Meets Spin.Capped →
      (Spin.CountsReturned r ↔ r.Meets Spin.Room) :=
  ⟨fun r hcap => Mutex.countsReturned_iff_room r hcap,
    fun r hcap => Spin.countsReturned_iff_room r hcap⟩

theorem countsReturned_runs :
    Mutex.CountsReturned Mutex.evenRun ∧ Spin.CountsReturned Spin.inTurnRun :=
  ⟨((countsReturned_iff _ _).1 Mutex.evenRun (by unfold Machine.Run.Meets; decide +kernel)).mpr
      (by unfold Machine.Run.Meets; decide +kernel),
    ((countsReturned_iff _ _).2 Spin.inTurnRun (by unfold Machine.Run.Meets; decide +kernel)).mpr
      (by unfold Machine.Run.Meets; decide +kernel)⟩

/-! ### Two large writes -/

namespace Mutex

/-- A successful write that runs alone adds the number of its bytes to `rx`. -/
theorem exec_write_rx {p : Pool Drv Call} {c : Nat} (ubuf : Buf) (hp : p.call c = .idle)
    (hwf : p.shared.ctx.WF) :
    ∃ oks : List Bool, ∃ x, x.WF ∧
      x.rx = p.shared.ctx.rx + BitVec.ofNat 32 ubuf.length ∧
      (machine args).exec p ((c, .call (.write ubuf)) :: oks.map fun ok => (c, Env.run ok)) =
        some (settle p c x (.writeRet (toInt ubuf.length))) := by
  obtain ⟨r, hr⟩ := hwf.writeStore_isSome ubuf
  have hwf' := hwf.writeStore hr
  obtain ⟨b, -, hpair⟩ := Option.map_eq_some_iff.mp hr
  have hmethod : writeMiscdrvRdwr ubuf true true p.shared.ctx = some r := hr
  obtain ⟨oks, hexec⟩ := exec_write hp hmethod
  subst hpair
  exact ⟨oks, _, hwf', rfl, hexec⟩

theorem settle_rx (p : Pool Drv Call) (c : Nat) (x : DrvCtx) (l : Call) :
    (settle p c x l).shared.ctx.rx = x.rx := rfl

/-- As many bytes as the VFS lets through at once. -/
def full : Buf := List.replicate maxRwCount 0

theorem length_full : full.length = maxRwCount := List.length_replicate

/-- `rx` is -8192 when both calls have returned `MAX_RW_COUNT`. -/
theorem not_countsReturned :
    ¬ ∃ args, (∀ n (r : (machine args).Run n), r.Meets Capped → CountsReturned r) ∧
      ∀ n (r : (Spin.machine args).Run n), r.Meets Spin.Capped → Spin.CountsReturned r := by
  intro h
  obtain ⟨args, h⟩ := h
  obtain ⟨oks, x, hx, hrx, hfirst⟩ := @exec_write_rx args pool0 0 full rfl
    (initCtx_wf (@machine_init args).1.1)
  obtain ⟨oks', y, -, hry, hsecond⟩ := exec_write_rx
    (p := settle pool0 0 x (.writeRet (toInt full.length))) (c := 1) full rfl hx
  have hboth := Machine.exec_append (m := machine args) pool0
    ((0, .call (.write full)) :: oks.map fun ok => (0, Env.run ok))
    ((1, .call (.write full)) :: oks'.map fun ok => (1, Env.run ok))
  rw [hfirst, Option.bind_some, hsecond] at hboth
  generalize hacts : (_ :: _ : List (Nat × Env)) ++ _ = acts at hboth
  have hcap : ∀ a ∈ acts, ∀ p, Capped p a := by
    intro a ha p
    have hlen : full.length ≤ maxRwCount := length_full.le
    rw [← hacts] at ha
    simp only [List.mem_append, List.mem_cons, List.mem_map] at ha
    rcases ha with (rfl | ⟨ok, -, rfl⟩) | rfl | ⟨ok, -, rfl⟩
    · exact hlen
    · trivial
    · exact hlen
    · trivial
  have hcounts := h.1 _ (.ofActs pool0 acts machine_init (by rw [hboth]; rfl)) fun k hk => ?_
  · have hend := hcounts.rx.nonneg _ (le_refl _)
    simp only [Machine.Run.ofActs, List.take_length, hboth, Option.getD_some] at hend
    have hneg : y.rx.toInt = -8192 := by
      rw [hry, settle_rx, hrx, (initCtx_stats (@machine_init args).1.1).2, length_full]
      decide
    have hnonneg : 0 ≤ y.rx.toInt := hend
    omega
  · have hact : acts.getD k default = acts[k] := by simp [List.getD, hk]
    show Capped _ (acts.getD k default)
    rw [hact]
    exact hcap _ (List.getElem_mem hk) _

end Mutex

end Lkp.Secret
