/-
The driver with one mutex, with its locks spelt out.

`Lkp.Secret.Mutex` makes a step of each section and has no locks.  Here `mutex_lock` and
`mutex_unlock` are steps of their own, and every way out of a method goes through the
labels it goes through in the source: what a call has taken, and what it still has to
give back, can be read off its place (`Locks`).

Seen without its locks this is the same driver: a lock taken or dropped is nothing, and
any other step is a step of `Lkp.Secret.Mutex` (`refines`).  What is known of that driver
is known of this one.
-/
import Lkp.Secret.Mutex
import Lkp.Concurrency.Lock

namespace Lkp.Secret.Locked

/-- The driver's data and its two mutexes, `ctx->lock` and `lock1`. -/
structure Drv extends Mutex.Drv where
  lock : Option Nat
  lock1 : Option Nat
  deriving DecidableEq

/-- Where a call has got to. -/
inductive Call
  | idle
  /-- `open_miscdrv_rdwr` or `close_miscdrv_rdwr` entered; `mutex_lock(&lock1)` comes next. -/
  | file (op : FileOp)
  | fileHeld (op : FileOp)
  /-- The update is made, `lock1` still held. -/
  | fileDone (op : FileOp)
  /-- `lock1` is dropped; `dev_info` has yet to load its arguments. -/
  | fileLoad (op : FileOp)
  /-- `dev_info` has loaded its first argument. -/
  | fileArg (op : FileOp) (x : Arg) (v : BitVec 32)
  | fileRet (op : FileOp) (a b : BitVec 32)
  /-- `read_miscdrv_rdwr` entered; `mutex_lock` comes next. -/
  | read (count : Nat)
  | readHeld (count : Nat)
  /-- The string is measured, `ctx->lock` still held. -/
  | readMeasured (count secretLen : Nat)
  /-- `ctx->lock` is dropped; the checks come next. -/
  | readLen (count secretLen : Nat)
  /-- Both checks are passed; `mutex_lock` comes next. -/
  | readOk (count secretLen : Nat)
  /-- `ctx->lock` is held; `copy_to_user` comes next. -/
  | readCopy (count secretLen : Nat)
  /-- At `out_ctu`, `ctx->lock` still held. -/
  | readUnlock (ret : Int) (ubuf : Buf)
  /-- `out_notok`, and the call returned. -/
  | readRet (ret : Int) (ubuf : Buf)
  /-- `write_miscdrv_rdwr` entered; `kvmalloc` comes next. -/
  | write (ubuf : Buf)
  /-- `kbuf` is allocated and zeroed; `copy_from_user` comes next. -/
  | writeKbuf (kbuf ubuf : Buf)
  /-- `kbuf` holds the user's bytes; `mutex_lock` comes next. -/
  | writeFetched (kbuf : Buf)
  /-- `ctx->lock` is held; the store comes next. -/
  | writeHeld (kbuf : Buf)
  /-- The secret is stored and counted, `ctx->lock` still held. -/
  | writeUnlock (ret : Int)
  /-- At `out_cfu`; `kvfree` comes next. -/
  | writeFree (ret : Int)
  /-- `out_nomem`, and the call returned. -/
  | writeRet (ret : Int)
  /-- A section left the buffers it was given. -/
  | oops
  deriving DecidableEq

/-- The section between the lock and the label, on the data. -/
def Drv.setCtx (s : Drv) (x : DrvCtx) : Drv := { s with ctx := x }

/-- `open_miscdrv_rdwr` and `close_miscdrv_rdwr`, one step at a time; `dev_info` loads the
argument `args op` first. -/
def fileStep (args : FileOp → Arg) (c : Nat) (s : Drv) : Call → Option (Drv × Call)
  | .file op => if s.lock1 = none then some ({ s with lock1 := some c }, .fileHeld op) else none
  | .fileHeld op => some ({ s with toDrv := Mutex.update op s.toDrv }, .fileDone op)
  | .fileDone op => some ({ s with lock1 := none }, .fileLoad op)
  | .fileLoad op => some (s, .fileArg op (args op) (s.load (args op)))
  | .fileArg op .ga a => some (s, .fileRet op a s.gb)
  | .fileArg op .gb b => some (s, .fileRet op s.ga b)
  | _ => none

/-- `read_miscdrv_rdwr`, one step at a time; `ok` is a `copy_to_user` that succeeds. -/
def readStep (c : Nat) (ok : Bool) (s : Drv) : Call → Option (Drv × Call)
  | .read count => if s.lock = none then some ({ s with lock := some c }, .readHeld count) else none
  | .readHeld count =>
      match strlen s.ctx.oursecret with
      | some secretLen => some (s, .readMeasured count secretLen)
      | none => some (s, .oops)
  | .readMeasured count secretLen => some ({ s with lock := none }, .readLen count secretLen)
  | .readLen count secretLen =>
      match readChecks count secretLen with
      | some ret => some (s, .readRet ret [])
      | none => some (s, .readOk count secretLen)
  | .readOk count secretLen =>
      if s.lock = none then some ({ s with lock := some c }, .readCopy count secretLen) else none
  | .readCopy count secretLen =>
      match readCopy count secretLen ok s.ctx with
      | some r => some (s.setCtx r.1, .readUnlock r.2.1 r.2.2)
      | none => some (s, .oops)
  | .readUnlock ret ubuf => some ({ s with lock := none }, .readRet ret ubuf)
  | _ => none

/-- `write_miscdrv_rdwr`, one step at a time; `ok` is an allocation or user copy going well. -/
def writeStep (c : Nat) (ok : Bool) (s : Drv) : Call → Option (Drv × Call)
  | .write ubuf =>
      if ok then some (s, .writeKbuf (List.replicate ubuf.length 0) ubuf)
      else some (s, .writeRet (-ENOMEM))
  | .writeKbuf _ ubuf =>
      if ok then some (s, .writeFetched ubuf) else some (s, .writeFree (-EFAULT))
  | .writeFetched kbuf =>
      if s.lock = none then some ({ s with lock := some c }, .writeHeld kbuf) else none
  | .writeHeld kbuf =>
      match writeStore kbuf s.ctx with
      | some r => some (s.setCtx r.1, .writeUnlock r.2)
      | none => some (s, .oops)
  | .writeUnlock ret => some ({ s with lock := none }, .writeFree ret)
  | .writeFree ret => some (s, .writeRet ret)
  | _ => none

/-- The methods, one step of a call at a time. -/
def step (args : FileOp → Arg) : CallStep Drv Call Mutex.Env := fun c e s l =>
  match e, l with
  | .call (.file op), .idle => some (s, .file op)
  | .call (.read count), .idle => some (s, .read count)
  | .call (.write ubuf), .idle => some (s, .write ubuf)
  | .run ok, l => (fileStep args c s l).or ((readStep c ok s l).or (writeStep c ok s l))
  | _, _ => none

/-- The driver after init, and any calls of its methods from then on. -/
def machine (args : FileOp → Arg) : Machine (Pool Drv Call) (Nat × Mutex.Env) :=
  Pool.machine
    (fun s => initCtx = some s.ctx ∧ s.ga = 0 ∧ s.gb = 1 ∧ s.lock = none ∧ s.lock1 = none) .idle
    (step args)

/-! ### What one step can do -/

/-- The steps of a call, one constructor for each way out of a place. -/
inductive Move (args : FileOp → Arg) (c : Nat) : Mutex.Env → Drv → Call → Drv → Call → Prop
  | callFile {s} (op) : Move args c (.call (.file op)) s .idle s (.file op)
  | callRead {s} (count) : Move args c (.call (.read count)) s .idle s (.read count)
  | callWrite {s} (ubuf) : Move args c (.call (.write ubuf)) s .idle s (.write ubuf)
  | lock1 {s ok} (op) (h : s.lock1 = none) :
      Move args c (.run ok) s (.file op) { s with lock1 := some c } (.fileHeld op)
  | update {s ok} (op) :
      Move args c (.run ok) s (.fileHeld op) { s with toDrv := Mutex.update op s.toDrv }
        (.fileDone op)
  | unlock1 {s ok} (op) :
      Move args c (.run ok) s (.fileDone op) { s with lock1 := none } (.fileLoad op)
  | loadArg {s ok} (op) :
      Move args c (.run ok) s (.fileLoad op) s (.fileArg op (args op) (s.load (args op)))
  | loadGb {s ok} (op a) : Move args c (.run ok) s (.fileArg op .ga a) s (.fileRet op a s.gb)
  | loadGa {s ok} (op b) : Move args c (.run ok) s (.fileArg op .gb b) s (.fileRet op s.ga b)
  | readLock {s ok} (count) (h : s.lock = none) :
      Move args c (.run ok) s (.read count) { s with lock := some c } (.readHeld count)
  | measure {s ok} (count) {n} (h : strlen s.ctx.oursecret = some n) :
      Move args c (.run ok) s (.readHeld count) s (.readMeasured count n)
  | overrun {s ok} (count) (h : strlen s.ctx.oursecret = none) :
      Move args c (.run ok) s (.readHeld count) s .oops
  | readUnlock {s ok} (count n) :
      Move args c (.run ok) s (.readMeasured count n) { s with lock := none } (.readLen count n)
  | reject {s ok} (count n) {e} (h : readChecks count n = some e) :
      Move args c (.run ok) s (.readLen count n) s (.readRet e [])
  | pass {s ok} (count n) (h : readChecks count n = none) :
      Move args c (.run ok) s (.readLen count n) s (.readOk count n)
  | copyLock {s ok} (count n) (h : s.lock = none) :
      Move args c (.run ok) s (.readOk count n) { s with lock := some c } (.readCopy count n)
  | copy {s ok} (count n) {r} (h : readCopy count n ok s.ctx = some r) :
      Move args c (.run ok) s (.readCopy count n) (s.setCtx r.1) (.readUnlock r.2.1 r.2.2)
  | copyOops {s ok} (count n) (h : readCopy count n ok s.ctx = none) :
      Move args c (.run ok) s (.readCopy count n) s .oops
  | copyUnlock {s ok} (ret ubuf) :
      Move args c (.run ok) s (.readUnlock ret ubuf) { s with lock := none } (.readRet ret ubuf)
  | alloc {s} (ubuf) :
      Move args c (.run true) s (.write ubuf) s (.writeKbuf (List.replicate ubuf.length 0) ubuf)
  | noMem {s} (ubuf) : Move args c (.run false) s (.write ubuf) s (.writeRet (-ENOMEM))
  | fetch {s} (kbuf ubuf) : Move args c (.run true) s (.writeKbuf kbuf ubuf) s (.writeFetched ubuf)
  | fault {s} (kbuf ubuf) :
      Move args c (.run false) s (.writeKbuf kbuf ubuf) s (.writeFree (-EFAULT))
  | storeLock {s ok} (kbuf) (h : s.lock = none) :
      Move args c (.run ok) s (.writeFetched kbuf) { s with lock := some c } (.writeHeld kbuf)
  | store {s ok} (kbuf) {r} (h : writeStore kbuf s.ctx = some r) :
      Move args c (.run ok) s (.writeHeld kbuf) (s.setCtx r.1) (.writeUnlock r.2)
  | storeOops {s ok} (kbuf) (h : writeStore kbuf s.ctx = none) :
      Move args c (.run ok) s (.writeHeld kbuf) s .oops
  | storeUnlock {s ok} (ret) :
      Move args c (.run ok) s (.writeUnlock ret) { s with lock := none } (.writeFree ret)
  | free {s ok} (ret) : Move args c (.run ok) s (.writeFree ret) s (.writeRet ret)

section Moves

variable {args : FileOp → Arg} {c : Nat} {ok : Bool} {e : Mutex.Env} {s s' : Drv} {l l' : Call}

theorem move_of_fileStep (h : fileStep args c s l = some (s', l')) :
    Move args c (.run ok) s l s' l' := by
  unfold fileStep at h
  split at h
  case h_1 =>
    split at h <;> cases h
    exact .lock1 _ ‹_›
  all_goals cases h
  all_goals constructor

theorem move_of_readStep (h : readStep c ok s l = some (s', l')) :
    Move args c (.run ok) s l s' l' := by
  unfold readStep at h
  split at h
  case h_1 =>
    split at h <;> cases h
    exact .readLock _ ‹_›
  case h_2 =>
    split at h <;> cases h
    · exact .measure _ ‹_›
    · exact .overrun _ ‹_›
  case h_4 =>
    split at h <;> cases h
    · exact .reject _ _ ‹_›
    · exact .pass _ _ ‹_›
  case h_5 =>
    split at h <;> cases h
    exact .copyLock _ _ ‹_›
  case h_6 =>
    split at h <;> cases h
    · exact .copy _ _ ‹_›
    · exact .copyOops _ _ ‹_›
  all_goals cases h
  all_goals constructor

theorem move_of_writeStep (h : writeStep c ok s l = some (s', l')) :
    Move args c (.run ok) s l s' l' := by
  unfold writeStep at h
  split at h
  case h_1 =>
    cases ok <;> cases h
    · exact .noMem _
    · exact .alloc _
  case h_2 =>
    cases ok <;> cases h
    · exact .fault _ _
    · exact .fetch _ _
  case h_3 =>
    split at h <;> cases h
    exact .storeLock _ ‹_›
  case h_4 =>
    split at h <;> cases h
    · exact .store _ ‹_›
    · exact .storeOops _ ‹_›
  all_goals cases h
  all_goals constructor

theorem move_of_step (h : step args c e s l = some (s', l')) : Move args c e s l s' l' := by
  unfold step at h
  split at h
  case h_4 ok l =>
    simp only [Option.or_eq_some_iff] at h
    rcases h with h | ⟨-, h | ⟨-, h⟩⟩
    · exact move_of_fileStep h
    · exact move_of_readStep h
    · exact move_of_writeStep h
  all_goals cases h
  all_goals constructor

end Moves

/-! ### Without the locks -/

variable {args : FileOp → Arg}

/-- The place without what it says of locks. -/
def Call.unlocked : Call → Mutex.Call
  | .idle => .idle
  | .file op | .fileHeld op => .file op
  | .fileDone op | .fileLoad op => .fileDone op
  | .fileArg op x v => .fileArg op x v
  | .fileRet op a b => .fileRet op a b
  | .read count | .readHeld count => .read count
  | .readMeasured count n | .readLen count n => .readLen count n
  | .readOk count n | .readCopy count n => .readOk count n
  | .readUnlock ret ubuf | .readRet ret ubuf => .readRet ret ubuf
  | .write ubuf => .write ubuf
  | .writeKbuf kbuf ubuf => .writeKbuf kbuf ubuf
  | .writeFetched kbuf | .writeHeld kbuf => .writeFetched kbuf
  | .writeUnlock ret | .writeFree ret => .writeFree ret
  | .writeRet ret => .writeRet ret
  | .oops => .oops

/-- A lock taken or dropped is nothing, and any other step is one of the driver without. -/
theorem Move.refines {c : Nat} {e : Mutex.Env} {s s' : Drv} {l l' : Call}
    (h : Move args c e s l s' l') :
    (s'.toDrv = s.toDrv ∧ l'.unlocked = l.unlocked) ∨
      Mutex.step args c e s.toDrv l.unlocked = some (s'.toDrv, l'.unlocked) := by
  cases h with
  | measure count hn => exact .inr (by simp [Call.unlocked, Mutex.step, hn])
  | overrun count hn => exact .inr (by simp [Call.unlocked, Mutex.step, hn])
  | reject count n he => exact .inr (by simp [Call.unlocked, Mutex.step, he])
  | pass count n hn => exact .inr (by simp [Call.unlocked, Mutex.step, hn])
  | copy count n hr => exact .inr (by simp [Call.unlocked, Mutex.step, hr, Drv.setCtx])
  | copyOops count n hr => exact .inr (by simp [Call.unlocked, Mutex.step, hr])
  | store kbuf hr => exact .inr (by simp [Call.unlocked, Mutex.step, hr, Drv.setCtx])
  | storeOops kbuf hr => exact .inr (by simp [Call.unlocked, Mutex.step, hr])
  | lock1 | unlock1 | readLock | readUnlock | copyLock | copyUnlock | storeLock | storeUnlock =>
      exact .inl ⟨rfl, rfl⟩
  | _ => exact .inr rfl

/-- **The driver with its locks is the driver whose sections are steps.** -/
theorem refines :
    (machine args).Refines (Mutex.machine args) (Pool.map Drv.toDrv Call.unlocked) := by
  refine Pool.refines (fun s hs => ⟨hs.1, hs.2.1, hs.2.2.1⟩) rfl fun c e s l s' l' h => ?_
  rcases (move_of_step h).refines with hsame | hstep
  · exact .inl hsame
  · exact .inr ⟨e, hstep⟩

/-- So its context is well formed, and a call is where it may be. -/
theorem safe {p : Pool Drv Call} (h : (machine args).Reachable p) :
    Mutex.Safe (Pool.map Drv.toDrv Call.unlocked p) :=
  (Mutex.inductive_safe _).holds (refines.reachable h)

theorem ne_oops {p : Pool Drv Call} (h : (machine args).Reachable p) (c : Nat) :
    p.call c ≠ .oops := by
  intro hoops
  have hholds : Mutex.Holds (p.call c).unlocked := (safe h).each c
  rw [hoops] at hholds
  exact hholds

/-! ### The locks -/

/-- The places that hold `ctx->lock`. -/
def holdsLock : Call → Bool
  | .readHeld _ | .readMeasured .. | .readCopy .. | .readUnlock .. | .writeHeld _
  | .writeUnlock _ => true
  | _ => false

/-- The places that hold `lock1`. -/
def holdsLock1 : Call → Bool
  | .fileHeld _ | .fileDone _ => true
  | _ => false

/-- Both locks agree with what a call says it holds. -/
structure Locks (c : Nat) (s : Drv) (l : Call) : Prop where
  lock : Owned c s.lock (holdsLock l)
  lock1 : Owned c s.lock1 (holdsLock1 l)

section Locking

variable {c : Nat} {e : Mutex.Env} {s s' : Drv} {l l' : Call}

theorem Move.lockStep (h : Move args c e s l s' l') (hno : l' ≠ .oops) :
    LockStep c s.lock (holdsLock l) s'.lock (holdsLock l') := by
  cases h with
  | readLock count hfree => rw [hfree]; exact .take
  | copyLock count n hfree => rw [hfree]; exact .take
  | storeLock kbuf hfree => rw [hfree]; exact .take
  | readUnlock count n => exact .drop _
  | copyUnlock ret ubuf => exact .drop _
  | storeUnlock ret => exact .drop _
  | overrun | storeOops | copyOops => exact absurd rfl hno
  | _ => exact .keep _ _

theorem Move.lock1Step (h : Move args c e s l s' l') :
    LockStep c s.lock1 (holdsLock1 l) s'.lock1 (holdsLock1 l') := by
  cases h with
  | lock1 op hfree => rw [hfree]; exact .take
  | unlock1 op => exact .drop _
  | _ => exact .keep _ _

theorem Locks.move (hl : Locks c s l) (h : Move args c e s l s' l') (hno : l' ≠ .oops) :
    Locks c s' l' :=
  ⟨hl.lock.step (h.lockStep hno), hl.lock1.step h.lock1Step⟩

theorem Locks.move_other {d : Nat} {m : Call} (hl : Locks c s l) (hm : Locks d s m)
    (hne : d ≠ c) (h : Move args c e s l s' l') (hno : l' ≠ .oops) : Locks d s' m :=
  ⟨hl.lock.step_other hm.lock hne (h.lockStep hno),
    hl.lock1.step_other hm.lock1 hne h.lock1Step⟩

/-- No section leaves its buffers. -/
theorem Move.ne_oops (h : Move args c e s l s' l') (hwf : s.ctx.WF) (hl : Mutex.Holds l.unlocked) :
    l' ≠ .oops := by
  intro hoops
  subst hoops
  rcases h.refines with ⟨-, hsame⟩ | hstep
  · rw [← hsame] at hl
    exact hl
  · exact (Mutex.move_holds (Mutex.move_of_step hstep) hwf hl).2

end Locking

theorem locks_kept :
    Pool.Kept (step args) (fun p _ => Mutex.Safe (Pool.map Drv.toDrv Call.unlocked p))
      (fun _ => True) Locks fun _ _ _ _ => True where
  own p c e s' l' hinv hok hstep := by
    have hmove := move_of_step hstep
    exact ⟨trivial, (hinv.each c).move hmove (hmove.ne_oops hok.shared (hok.each c))⟩
  others p c e s' l' d hinv hok hstep hne := by
    have hmove := move_of_step hstep
    have hno := hmove.ne_oops hok.shared (hok.each c)
    exact (hinv.each c).move_other (hinv.each d) hne hmove hno
  pair _ _ _ _ _ _ _ _ _ _ := ⟨trivial, trivial⟩

/-- **Each lock is held by the call whose place says so**, in every run. -/
theorem locks {p : Pool Drv Call} (h : (machine args).Reachable p) (c : Nat) :
    Locks c p.shared (p.call c) := by
  have hinv : (machine args).Inductive _ _ := locks_kept.invariant (fun _ _ => trivial)
    (fun s c hs => ⟨by rw [hs.2.2.2.1]; exact .free, by rw [hs.2.2.2.2]; exact .free⟩)
    fun _ _ => trivial
  exact (hinv.holds (h.imp fun _ _ hreach _ => safe hreach)).each c

end Lkp.Secret.Locked
