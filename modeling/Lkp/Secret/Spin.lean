/-
The secret driver that guards its context with a spinlock and a mutex.

Here the sections are not one step each.  The read method measures the string
under `ctx->spinlock` and copies it out under `ctx->mutex`, because copying to
the user may sleep; the write method stores under `ctx->spinlock`.  Two different
locks cover one array, so what a section sees depends on every single step of the
others: taking a lock, dropping it, and each byte copied are steps of their own.
Only `strlen` is one step — it runs under the lock every store needs.

The step function follows the methods line by line; `Move` lists what a step can
be.  Two things hold of every run whatever the schedule: each lock is held by the
calls whose place says so (`Locks`), and no access leaves a buffer (`Bounded`).
-/
import Lkp.Secret.Context
import Lkp.Concurrency.Pool
import Lkp.Concurrency.Lock

namespace Lkp.Secret.Spin

/-- The driver's data: the context with its two locks, `lock1` and what it guards, and `buggy`. -/
structure Drv where
  ctx : DrvCtx
  mutex : Option Nat
  spinlock : Option Nat
  lock1 : Option Nat
  ga : BitVec 32
  gb : BitVec 32
  buggy : Int
  deriving DecidableEq

/-- What the world answers: a call, a store to the parameter `buggy`, or how a step turns out. -/
inductive Env
  | call (m : Method)
  | setBuggy (v : Int)
  | run (ok : Bool)
  deriving DecidableEq

instance : Inhabited Env := ⟨.run true⟩

/-- What a call ends with. -/
inductive Result
  | file (op : FileOp) (a b : BitVec 32)
  | read (ret : Int) (ubuf : Buf)
  | write (ret : Int)
  | param
  deriving DecidableEq

/-- Where a call has got to. -/
inductive Call
  | idle
  /-- `open_miscdrv_rdwr` or `close_miscdrv_rdwr` entered. -/
  | file (op : FileOp)
  /-- `lock1` is held. -/
  | fileHeld (op : FileOp)
  /-- The update is made, `lock1` still held. -/
  | fileDone (op : FileOp)
  /-- `lock1` is dropped; `dev_info` has yet to load its arguments. -/
  | fileLoad (op : FileOp)
  /-- `dev_info` has loaded its first argument. -/
  | fileArg (op : FileOp) (x : Arg) (v : BitVec 32)
  /-- `read_miscdrv_rdwr` entered. -/
  | read (count : Nat)
  /-- `ctx->spinlock` is held for `strlen`. -/
  | readHeld (count : Nat)
  | readMeasured (count secretLen : Nat)
  /-- The spinlock is dropped. -/
  | readLen (count secretLen : Nat)
  /-- Both checks are passed; `mutex_lock` comes next. -/
  | readOk (count secretLen : Nat)
  /-- `ctx->mutex` is held and `got` has reached the user. -/
  | readCopy (count secretLen : Nat) (got : Buf)
  /-- All `secretLen` bytes are copied; the load of `ctx->tx` comes next. -/
  | readCopied (secretLen : Nat) (ubuf : Buf)
  /-- `ctx->tx` is loaded; the store of the sum comes next. -/
  | readTx (secretLen : Nat) (ubuf : Buf) (tx : BitVec 32)
  /-- At `out_ctu`, `ctx->mutex` still held. -/
  | readUnlock (errPath : Int) (ret : Int) (ubuf : Buf)
  /-- `write_miscdrv_rdwr` entered. -/
  | write (ubuf : Buf)
  /-- `kbuf` is allocated and zeroed. -/
  | writeKbuf (kbuf ubuf : Buf)
  /-- `kbuf` holds the user's bytes; `spin_lock` comes next. -/
  | writeFetched (kbuf : Buf)
  /-- `ctx->spinlock` is held and `strscpy` is at index `i`. -/
  | writeCopy (kbuf : Buf) (i : Nat)
  /-- The secret is stored; the load of `ctx->rx` comes next. -/
  | writeStored (kbuf : Buf)
  /-- `ctx->rx` is loaded; the store of the sum comes next. -/
  | writeRx (kbuf : Buf) (rx : BitVec 32)
  /-- The test of `buggy` comes next. -/
  | writeTest (kbuf : Buf)
  /-- `schedule_timeout` with the spinlock held. -/
  | writeSleep (kbuf : Buf)
  | writeUnlock (kbuf : Buf)
  /-- At `out_cfu`: `kbuf` is still to be freed. -/
  | writeFree (errPath : Int) (ret : Int)
  /-- `display_stats` entered. -/
  | stats (showStats : Int) (r : Result)
  /-- `display_stats` holds `ctx->spinlock`. -/
  | statsHeld (r : Result)
  | statsShown (r : Result)
  | ret (r : Result)
  /-- A byte outside the buffers was touched. -/
  | oops
  deriving DecidableEq

/-- `ga++; gb--` and `ga--; gb++`. -/
def update (op : FileOp) (s : Drv) : Drv :=
  match op with
  | .opening => { s with ga := s.ga + 1, gb := s.gb - 1 }
  | .closing => { s with ga := s.ga - 1, gb := s.gb + 1 }

/-- The load of one of the two integers. -/
def Drv.load (s : Drv) : Arg → BitVec 32
  | .ga => s.ga
  | .gb => s.gb

/-- Replace the secret array. -/
def Drv.setSecret (s : Drv) (b : Buf) : Drv := { s with ctx := { s.ctx with oursecret := b } }

/-- Store into `ctx->tx`. -/
def Drv.setTx (s : Drv) (v : BitVec 32) : Drv := { s with ctx := { s.ctx with tx := v } }

/-- Store into `ctx->rx`. -/
def Drv.setRx (s : Drv) (v : BitVec 32) : Drv := { s with ctx := { s.ctx with rx := v } }

/-- The file methods, one step at a time; `dev_info` loads the argument `args op` first. -/
def fileStep (args : FileOp → Arg) (c : Nat) (s : Drv) : Call → Option (Drv × Call)
  | .file op => if s.lock1 = none then some ({ s with lock1 := some c }, .fileHeld op) else none
  | .fileHeld op => some (update op s, .fileDone op)
  | .fileDone op => some ({ s with lock1 := none }, .fileLoad op)
  | .fileLoad op => some (s, .fileArg op (args op) (s.load (args op)))
  | .fileArg op .ga a => some (s, .stats 1 (.file op a s.gb))
  | .fileArg op .gb b => some (s, .stats 1 (.file op s.ga b))
  | _ => none

/-- `read_miscdrv_rdwr`, one step at a time; `ok` is `copy_to_user` going well at a byte. -/
def readStep (c : Nat) (ok : Bool) (s : Drv) : Call → Option (Drv × Call)
  | .read count =>
      if s.spinlock = none then some ({ s with spinlock := some c }, .readHeld count) else none
  | .readHeld count =>
      match strlen s.ctx.oursecret with
      | some secretLen => some (s, .readMeasured count secretLen)
      | none => some (s, .oops)
  | .readMeasured count secretLen => some ({ s with spinlock := none }, .readLen count secretLen)
  | .readLen count secretLen =>
      match readChecks count secretLen with
      | some ret => some (s, .ret (.read ret []))
      | none => some (s, .readOk count secretLen)
  | .readOk count secretLen =>
      if s.mutex = none then some ({ s with mutex := some c }, .readCopy count secretLen [])
      else none
  | .readCopy count secretLen got =>
      if got.length < secretLen then
        if ok then
          if got.length < count then
            match s.ctx.oursecret[got.length]? with
            | some b => some (s, .readCopy count secretLen (got ++ [b]))
            | none => some (s, .oops)
          else some (s, .oops)
        else some (s, .readUnlock 1 (-EFAULT) [])
      else some (s, .readCopied secretLen got)
  | .readCopied secretLen ubuf => some (s, .readTx secretLen ubuf s.ctx.tx)
  | .readTx secretLen ubuf tx =>
      some (s.setTx (tx + BitVec.ofNat 32 secretLen), .readUnlock 0 secretLen ubuf)
  | .readUnlock errPath ret ubuf => some ({ s with mutex := none }, .stats errPath (.read ret ubuf))
  | _ => none

/-- `write_miscdrv_rdwr`, one step at a time; `ok` is an allocation or user copy going well. -/
def writeStep (c : Nat) (ok : Bool) (s : Drv) : Call → Option (Drv × Call)
  | .write ubuf =>
      if ok then some (s, .writeKbuf (List.replicate ubuf.length 0) ubuf)
      else some (s, .ret (.write (-ENOMEM)))
  | .writeKbuf _ ubuf =>
      if ok then some (s, .writeFetched ubuf) else some (s, .writeFree 1 (-EFAULT))
  | .writeFetched kbuf =>
      if s.spinlock = none then some ({ s with spinlock := some c }, .writeCopy kbuf 0) else none
  | .writeCopy kbuf i =>
      if storeSize kbuf = 0 then some (s, .writeStored kbuf)
      else
        match strscpyByte s.ctx.oursecret kbuf (storeSize kbuf) i with
        | some (b, fin) =>
            some (s.setSecret b, if fin then .writeStored kbuf else .writeCopy kbuf (i + 1))
        | none => some (s, .oops)
  | .writeStored kbuf => some (s, .writeRx kbuf s.ctx.rx)
  | .writeRx kbuf rx => some (s.setRx (rx + BitVec.ofNat 32 kbuf.length), .writeTest kbuf)
  | .writeTest kbuf => some (s, if 1 = s.buggy then .writeSleep kbuf else .writeUnlock kbuf)
  | .writeSleep kbuf => some (s, .writeUnlock kbuf)
  | .writeUnlock kbuf => some ({ s with spinlock := none }, .writeFree 0 (toInt kbuf.length))
  | .writeFree errPath ret => some (s, .stats errPath (.write ret))
  | _ => none

/-- `display_stats`, one step at a time. -/
def statsStep (c : Nat) (s : Drv) : Call → Option (Drv × Call)
  | .stats showStats r =>
      if 1 = showStats then
        if s.spinlock = none then some ({ s with spinlock := some c }, .statsHeld r) else none
      else some (s, .ret r)
  | .statsHeld r => some (s, .statsShown r)
  | .statsShown r => some ({ s with spinlock := none }, .ret r)
  | _ => none

/-- The driver's methods, one step of a call at a time. -/
def step (args : FileOp → Arg) : CallStep Drv Call Env := fun c e s l =>
  match e, l with
  | .call (.file op), .idle => some (s, .file op)
  | .call (.read count), .idle => some (s, .read count)
  | .call (.write ubuf), .idle => some (s, .write ubuf)
  | .setBuggy v, .idle => some ({ s with buggy := v }, .ret .param)
  | .run ok, l =>
      (fileStep args c s l).or
        ((readStep c ok s l).or ((writeStep c ok s l).or (statsStep c s l)))
  | _, _ => none

/-- The driver after init, and any calls of its methods from then on. -/
def machine (args : FileOp → Arg) : Machine (Pool Drv Call) (Nat × Env) :=
  Pool.machine
    (fun s => initCtx = some s.ctx ∧ s.mutex = none ∧ s.spinlock = none ∧ s.lock1 = none ∧
      s.ga = 0 ∧ s.gb = 1)
    .idle (step args)

/-! ### What one step can do -/

/-- The steps of a call, one constructor for each way out of a place. -/
inductive Move (args : FileOp → Arg) (c : Nat) : Env → Drv → Call → Drv → Call → Prop
  | callFile {s} (op) : Move args c (.call (.file op)) s .idle s (.file op)
  | callRead {s} (count) : Move args c (.call (.read count)) s .idle s (.read count)
  | callWrite {s} (ubuf) : Move args c (.call (.write ubuf)) s .idle s (.write ubuf)
  | setBuggy {s} (v) : Move args c (.setBuggy v) s .idle { s with buggy := v } (.ret .param)
  | lock1 {s ok} (op) (h : s.lock1 = none) :
      Move args c (.run ok) s (.file op) { s with lock1 := some c } (.fileHeld op)
  | update {s ok} (op) : Move args c (.run ok) s (.fileHeld op) (update op s) (.fileDone op)
  | unlock1 {s ok} (op) :
      Move args c (.run ok) s (.fileDone op) { s with lock1 := none } (.fileLoad op)
  | loadArg {s ok} (op) :
      Move args c (.run ok) s (.fileLoad op) s (.fileArg op (args op) (s.load (args op)))
  | loadGb {s ok} (op a) :
      Move args c (.run ok) s (.fileArg op .ga a) s (.stats 1 (.file op a s.gb))
  | loadGa {s ok} (op b) :
      Move args c (.run ok) s (.fileArg op .gb b) s (.stats 1 (.file op s.ga b))
  | readLock {s ok} (count) (h : s.spinlock = none) :
      Move args c (.run ok) s (.read count) { s with spinlock := some c } (.readHeld count)
  | measure {s ok} (count) {n} (h : strlen s.ctx.oursecret = some n) :
      Move args c (.run ok) s (.readHeld count) s (.readMeasured count n)
  | overrun {s ok} (count) (h : strlen s.ctx.oursecret = none) :
      Move args c (.run ok) s (.readHeld count) s .oops
  | readUnlock {s ok} (count n) :
      Move args c (.run ok) s (.readMeasured count n) { s with spinlock := none } (.readLen count n)
  | reject {s ok} (count n) {e} (h : readChecks count n = some e) :
      Move args c (.run ok) s (.readLen count n) s (.ret (.read e []))
  | pass {s ok} (count n) (h : readChecks count n = none) :
      Move args c (.run ok) s (.readLen count n) s (.readOk count n)
  | copyLock {s ok} (count n) (h : s.mutex = none) :
      Move args c (.run ok) s (.readOk count n) { s with mutex := some c } (.readCopy count n [])
  | copyByte {s} (count n got) {b} (hn : got.length < n) (hc : got.length < count)
      (h : s.ctx.oursecret[got.length]? = some b) :
      Move args c (.run true) s (.readCopy count n got) s (.readCopy count n (got ++ [b]))
  | copyOops {s ok} (count n got) (hn : got.length < n)
      (h : ¬ (got.length < count ∧ got.length < s.ctx.oursecret.length)) :
      Move args c (.run ok) s (.readCopy count n got) s .oops
  | copyFault {s} (count n got) (hn : got.length < n) :
      Move args c (.run false) s (.readCopy count n got) s (.readUnlock 1 (-EFAULT) [])
  | copyEnd {s ok} (count n got) (hn : ¬ got.length < n) :
      Move args c (.run ok) s (.readCopy count n got) s (.readCopied n got)
  | loadTx {s ok} (n ubuf) :
      Move args c (.run ok) s (.readCopied n ubuf) s (.readTx n ubuf s.ctx.tx)
  | addTx {s ok} (n ubuf tx) :
      Move args c (.run ok) s (.readTx n ubuf tx) (s.setTx (tx + BitVec.ofNat 32 n))
        (.readUnlock 0 n ubuf)
  | copyUnlock {s ok} (errPath ret ubuf) :
      Move args c (.run ok) s (.readUnlock errPath ret ubuf) { s with mutex := none }
        (.stats errPath (.read ret ubuf))
  | alloc {s} (ubuf) :
      Move args c (.run true) s (.write ubuf) s (.writeKbuf (List.replicate ubuf.length 0) ubuf)
  | noMem {s} (ubuf) : Move args c (.run false) s (.write ubuf) s (.ret (.write (-ENOMEM)))
  | fetch {s} (kbuf ubuf) : Move args c (.run true) s (.writeKbuf kbuf ubuf) s (.writeFetched ubuf)
  | fault {s} (kbuf ubuf) :
      Move args c (.run false) s (.writeKbuf kbuf ubuf) s (.writeFree 1 (-EFAULT))
  | storeLock {s ok} (kbuf) (h : s.spinlock = none) :
      Move args c (.run ok) s (.writeFetched kbuf) { s with spinlock := some c } (.writeCopy kbuf 0)
  | storeNone {s ok} (kbuf i) (h : storeSize kbuf = 0) :
      Move args c (.run ok) s (.writeCopy kbuf i) s (.writeStored kbuf)
  | storeByte {s ok} (kbuf i) {b} (hn : storeSize kbuf ≠ 0)
      (h : strscpyByte s.ctx.oursecret kbuf (storeSize kbuf) i = some (b, false)) :
      Move args c (.run ok) s (.writeCopy kbuf i) (s.setSecret b) (.writeCopy kbuf (i + 1))
  | storeLast {s ok} (kbuf i) {b} (hn : storeSize kbuf ≠ 0)
      (h : strscpyByte s.ctx.oursecret kbuf (storeSize kbuf) i = some (b, true)) :
      Move args c (.run ok) s (.writeCopy kbuf i) (s.setSecret b) (.writeStored kbuf)
  | storeOops {s ok} (kbuf i) (hn : storeSize kbuf ≠ 0)
      (h : strscpyByte s.ctx.oursecret kbuf (storeSize kbuf) i = none) :
      Move args c (.run ok) s (.writeCopy kbuf i) s .oops
  | loadRx {s ok} (kbuf) : Move args c (.run ok) s (.writeStored kbuf) s (.writeRx kbuf s.ctx.rx)
  | addRx {s ok} (kbuf rx) :
      Move args c (.run ok) s (.writeRx kbuf rx) (s.setRx (rx + BitVec.ofNat 32 kbuf.length))
        (.writeTest kbuf)
  | testBuggy {s ok} (kbuf) (h : 1 = s.buggy) :
      Move args c (.run ok) s (.writeTest kbuf) s (.writeSleep kbuf)
  | testFine {s ok} (kbuf) (h : ¬ 1 = s.buggy) :
      Move args c (.run ok) s (.writeTest kbuf) s (.writeUnlock kbuf)
  | sleep {s ok} (kbuf) : Move args c (.run ok) s (.writeSleep kbuf) s (.writeUnlock kbuf)
  | storeUnlock {s ok} (kbuf) :
      Move args c (.run ok) s (.writeUnlock kbuf) { s with spinlock := none }
        (.writeFree 0 (toInt kbuf.length))
  | free {s ok} (errPath ret) :
      Move args c (.run ok) s (.writeFree errPath ret) s (.stats errPath (.write ret))
  | statsLock {s ok} (r) (h : s.spinlock = none) :
      Move args c (.run ok) s (.stats 1 r) { s with spinlock := some c } (.statsHeld r)
  | statsSkip {s ok} (showStats r) (h : ¬ 1 = showStats) :
      Move args c (.run ok) s (.stats showStats r) s (.ret r)
  | statsShow {s ok} (r) : Move args c (.run ok) s (.statsHeld r) s (.statsShown r)
  | statsUnlock {s ok} (r) :
      Move args c (.run ok) s (.statsShown r) { s with spinlock := none } (.ret r)

section Moves

variable {args : FileOp → Arg} {c : Nat} {ok : Bool} {s s' : Drv} {l l' : Call}

theorem move_of_fileStep (h : fileStep args c s l = some (s', l')) :
    Move args c (.run ok) s l s' l' := by
  unfold fileStep at h
  split at h
  case h_1 =>
    split at h <;> cases h
    exact .lock1 _ ‹_›
  all_goals cases h
  all_goals constructor

theorem move_of_readStep (h : readStep c ok s l = some (s', l')) :
    Move args c (.run ok) s l s' l' := by
  unfold readStep at h
  split at h
  case h_1 =>
    split at h <;> cases h
    exact .readLock _ ‹_›
  case h_2 =>
    split at h <;> cases h
    · exact .measure _ ‹_›
    · exact .overrun _ ‹_›
  case h_4 =>
    split at h <;> cases h
    · exact .reject _ _ ‹_›
    · exact .pass _ _ ‹_›
  case h_5 =>
    split at h <;> cases h
    exact .copyLock _ _ ‹_›
  case h_6 count n got =>
    split at h
    · rename_i hn
      cases ok with
      | false =>
          cases h
          exact .copyFault _ _ _ hn
      | true =>
          simp only [if_true] at h
          split at h
          · rename_i hc
            split at h <;> cases h
            · exact .copyByte _ _ _ hn hc ‹_›
            · rename_i hnone
              exact .copyOops _ _ _ hn fun hin => by simp [hin.2] at hnone
          · rename_i hc
            cases h
            exact .copyOops _ _ _ hn fun hin => hc hin.1
    · rename_i hn
      cases h
      exact .copyEnd _ _ _ hn
  all_goals cases h
  all_goals constructor

theorem move_of_writeStep (h : writeStep c ok s l = some (s', l')) :
    Move args c (.run ok) s l s' l' := by
  unfold writeStep at h
  split at h
  case h_1 =>
    cases ok <;> cases h
    · exact .noMem _
    · exact .alloc _
  case h_2 =>
    cases ok <;> cases h
    · exact .fault _ _
    · exact .fetch _ _
  case h_3 =>
    split at h <;> cases h
    exact .storeLock _ ‹_›
  case h_4 =>
    split at h
    · cases h
      exact .storeNone _ _ ‹_›
    · rename_i hn
      split at h
      · rename_i b fin hb
        cases fin <;> cases h
        · exact .storeByte _ _ hn hb
        · exact .storeLast _ _ hn hb
      · cases h
        exact .storeOops _ _ hn ‹_›
  case h_7 =>
    split at h <;> cases h
    · exact .testBuggy _ ‹_›
    · exact .testFine _ ‹_›
  all_goals cases h
  all_goals constructor

theorem move_of_statsStep (h : statsStep c s l = some (s', l')) :
    Move args c (.run ok) s l s' l' := by
  unfold statsStep at h
  split at h
  case h_1 =>
    split at h
    · rename_i hshow
      subst hshow
      split at h <;> cases h
      exact .statsLock _ ‹_›
    · cases h
      exact .statsSkip _ _ ‹_›
  all_goals cases h
  all_goals constructor

theorem move_of_step {e : Env} (h : step args c e s l = some (s', l')) :
    Move args c e s l s' l' := by
  unfold step at h
  split at h
  case h_5 ok l =>
    simp only [Option.or_eq_some_iff] at h
    rcases h with h | ⟨-, h | ⟨-, h | ⟨-, h⟩⟩⟩
    · exact move_of_fileStep h
    · exact move_of_readStep h
    · exact move_of_writeStep h
    · exact move_of_statsStep h
  all_goals cases h
  all_goals constructor

end Moves

/-! ### The locks -/

/-- Inside the section of the write method that runs `strscpy` on the secret. -/
def inStore : Call → Bool
  | .writeCopy .. | .writeStored _ | .writeRx .. | .writeTest _ | .writeSleep _
  | .writeUnlock _ => true
  | _ => false

/-- The places that hold `ctx->spinlock`. -/
def holdsSpin : Call → Bool
  | .readHeld _ | .readMeasured .. | .statsHeld _ | .statsShown _ => true
  | l => inStore l

/-- Inside the section of the read method that copies the secret out: it holds `ctx->mutex`. -/
def inCopy : Call → Bool
  | .readCopy .. | .readCopied .. | .readTx .. | .readUnlock .. => true
  | _ => false

/-- The places that hold `lock1`. -/
def holdsLock1 : Call → Bool
  | .fileHeld _ | .fileDone _ => true
  | _ => false

/-- Every lock agrees with what a call says it holds. -/
structure Locks (c : Nat) (s : Drv) (l : Call) : Prop where
  spin : Owned c s.spinlock (holdsSpin l)
  mutex : Owned c s.mutex (inCopy l)
  lock1 : Owned c s.lock1 (holdsLock1 l)

section Locking

variable {args : FileOp → Arg} {c : Nat} {e : Env} {s s' : Drv} {l l' : Call}

theorem Move.spinStep (h : Move args c e s l s' l') (hno : l' ≠ .oops) :
    LockStep c s.spinlock (holdsSpin l) s'.spinlock (holdsSpin l') := by
  cases h with
  | readLock count hfree => rw [hfree]; exact .take
  | storeLock kbuf hfree => rw [hfree]; exact .take
  | statsLock r hfree => rw [hfree]; exact .take
  | readUnlock count n => exact .drop _
  | storeUnlock kbuf => exact .drop _
  | statsUnlock r => exact .drop _
  | overrun | storeOops | copyOops => exact absurd rfl hno
  | update op => cases op <;> exact .keep _ _
  | _ => exact .keep _ _

theorem Move.mutexStep (h : Move args c e s l s' l') (hno : l' ≠ .oops) :
    LockStep c s.mutex (inCopy l) s'.mutex (inCopy l') := by
  cases h with
  | copyLock count n hfree => rw [hfree]; exact .take
  | copyUnlock errPath ret ubuf => exact .drop _
  | overrun | storeOops | copyOops => exact absurd rfl hno
  | update op => cases op <;> exact .keep _ _
  | _ => exact .keep _ _

theorem Move.lock1Step (h : Move args c e s l s' l') :
    LockStep c s.lock1 (holdsLock1 l) s'.lock1 (holdsLock1 l') := by
  cases h with
  | lock1 op hfree => rw [hfree]; exact .take
  | unlock1 op => exact .drop _
  | update op => cases op <;> exact .keep _ _
  | _ => exact .keep _ _

theorem Locks.move (hl : Locks c s l) (h : Move args c e s l s' l') (hno : l' ≠ .oops) :
    Locks c s' l' :=
  ⟨hl.spin.step (h.spinStep hno), hl.mutex.step (h.mutexStep hno), hl.lock1.step h.lock1Step⟩

theorem Locks.move_other {d : Nat} {m : Call} (hl : Locks c s l) (hm : Locks d s m)
    (hne : d ≠ c) (h : Move args c e s l s' l') (hno : l' ≠ .oops) : Locks d s' m :=
  ⟨hl.spin.step_other hm.spin hne (h.spinStep hno),
    hl.mutex.step_other hm.mutex hne (h.mutexStep hno),
    hl.lock1.step_other hm.lock1 hne h.lock1Step⟩

/-- Only the storing section changes the secret. -/
theorem Move.secret (h : Move args c e s l s' l') :
    s'.ctx.oursecret = s.ctx.oursecret ∨ inStore l = true := by
  cases h with
  | storeByte => exact Or.inr rfl
  | storeLast => exact Or.inr rfl
  | update op => cases op <;> exact Or.inl rfl
  | _ => exact Or.inl rfl

end Locking

/-! ### No access leaves a buffer

The last byte of the array is NUL from the start, and no store ever reaches it
with anything else: a byte of the new secret goes to an index below `n - 1`.  So
the array is terminated in every state, in the middle of a store as well.
-/

/-- The array has its size and ends in a NUL. -/
structure Sealed (x : DrvCtx) : Prop where
  size : x.oursecret.length = maxBytes
  last : x.oursecret[maxBytes - 1]? = some 0

theorem Sealed.nul {x : DrvCtx} (h : Sealed x) : (0 : UInt8) ∈ x.oursecret :=
  List.mem_of_getElem? h.last

theorem initCtx_sealed {x : DrvCtx} (h : initCtx = some x) : Sealed x := by
  have hx : initCtx.map (fun x => x.oursecret[maxBytes - 1]?) = some (some 0) := by
    decide +kernel
  rw [h, Option.map_some, Option.some.injEq] at hx
  exact ⟨(initCtx_wf h).size, hx⟩

/-- A byte of `strscpy` keeps the array sealed. -/
theorem Sealed.storeByte {s : Drv} {kbuf b : Buf} {i : Nat} {fin : Bool} (h : Sealed s.ctx)
    (hb : strscpyByte s.ctx.oursecret kbuf (storeSize kbuf) i = some (b, fin)) :
    Sealed (s.setSecret b).ctx := by
  have hmax := storeSize_le_max kbuf
  have hsize := h.size
  have hlast := h.last
  unfold strscpyByte at hb
  split at hb
  · obtain ⟨d, hd, hpair⟩ := Option.map_eq_some_iff.mp hb
    obtain ⟨hi, rfl⟩ := poke_eq_some.mp hd
    simp only [Prod.mk.injEq] at hpair
    obtain ⟨rfl, -⟩ := hpair
    refine ⟨by simpa [Drv.setSecret] using hsize, ?_⟩
    show (s.ctx.oursecret.set i 0)[maxBytes - 1]? = some 0
    rw [List.getElem?_set]
    by_cases hplace : i = maxBytes - 1
    · rw [if_pos hplace, if_pos hi]
    · rw [if_neg hplace]; exact hlast
  · rename_i hroom
    obtain ⟨ch, -, hmap⟩ := Option.bind_eq_some_iff.mp hb
    obtain ⟨d, hd, hpair⟩ := Option.map_eq_some_iff.mp hmap
    obtain ⟨hi, rfl⟩ := poke_eq_some.mp hd
    simp only [Prod.mk.injEq] at hpair
    obtain ⟨rfl, -⟩ := hpair
    refine ⟨by simpa [Drv.setSecret] using hsize, ?_⟩
    show (s.ctx.oursecret.set i ch)[maxBytes - 1]? = some 0
    rw [List.getElem?_set, if_neg (by omega)]
    exact hlast

/-- What a call has established where it stands. -/
def Bounded : Call → Prop
  | .readMeasured _ secretLen => secretLen < maxBytes
  | .readLen _ secretLen => secretLen < maxBytes
  | .readOk count secretLen => 0 < secretLen ∧ secretLen < maxBytes ∧ maxBytes ≤ count
  | .readCopy count secretLen got =>
      got.length ≤ secretLen ∧ secretLen < maxBytes ∧ maxBytes ≤ count
  | .readCopied secretLen ubuf => ubuf.length = secretLen ∧ secretLen < maxBytes
  | .writeCopy kbuf i => storeSize kbuf = 0 ∨ i < storeSize kbuf
  | .oops => False
  | _ => True

theorem Bounded.ne_oops {l : Call} (h : Bounded l) : l ≠ .oops := by
  intro heq
  subst heq
  exact h

section Bounds

variable {args : FileOp → Arg} {c : Nat} {e : Env} {s s' : Drv} {l l' : Call}

theorem Move.sealed (h : Move args c e s l s' l') (hs : Sealed s.ctx) : Sealed s'.ctx := by
  cases h with
  | storeByte kbuf i hn hb => exact hs.storeByte hb
  | storeLast kbuf i hn hb => exact hs.storeByte hb
  | update op => cases op <;> exact hs
  | addTx n ubuf tx => exact ⟨hs.size, hs.last⟩
  | addRx kbuf rx => exact ⟨hs.size, hs.last⟩
  | _ => exact hs

theorem Move.bounded (h : Move args c e s l s' l') (hs : Sealed s.ctx) (hl : Bounded l) :
    Bounded l' := by
  cases h with
  | measure count hn =>
      obtain ⟨-, rfl⟩ := strlen_eq_some.mp hn
      show (cstr s.ctx.oursecret).length < maxBytes
      exact hs.size ▸ length_cstr_lt hs.nul
  | overrun count hn =>
      rw [strlen_of_mem hs.nul] at hn
      simp at hn
  | readUnlock count n => exact hl
  | pass count n hn =>
      obtain ⟨hcount, hpos⟩ := readChecks_eq_none.mp hn
      exact ⟨hpos, hl, hcount⟩
  | copyLock count n hfree => exact ⟨Nat.zero_le _, hl.2⟩
  | copyByte count n got hn hc hb =>
      refine ⟨?_, hl.2⟩
      rw [List.length_append]
      exact hn
  | copyOops count n got hn hout =>
      obtain ⟨-, hlen, hcount⟩ := hl
      have hsize := hs.size
      exact hout ⟨by omega, by omega⟩
  | copyEnd count n got hn => exact ⟨by have := hl.1; omega, hl.2.1⟩
  | storeLock kbuf hfree =>
      rcases Nat.eq_zero_or_pos (storeSize kbuf) with h0 | hpos
      · exact Or.inl h0
      · exact Or.inr hpos
  | storeByte kbuf i hn hb =>
      -- had this been the last place, the terminator would have ended the copy
      refine Or.inr ?_
      unfold strscpyByte at hb
      split at hb
      · obtain ⟨d, -, hpair⟩ := Option.map_eq_some_iff.mp hb
        simp at hpair
      · omega
  | storeOops kbuf i hn hb =>
      obtain ⟨d, fin, hsome, -⟩ := strscpyByte_isSome (d := s.ctx.oursecret) (s := kbuf)
        (hs.size ▸ storeSize_le_max kbuf) (storeSize_le_length kbuf) (hl.resolve_left hn)
      rw [hsome] at hb
      simp at hb
  | _ => trivial

end Bounds

variable {args : FileOp → Arg}

/-- The two together, of every run whatever the schedule. -/
theorem kept (ok : Pool Drv Call → Nat × Env → Prop) :
    Pool.Kept (step args) ok (fun s => Sealed s.ctx) (fun c s l => Locks c s l ∧ Bounded l)
      fun _ _ _ _ => True where
  own p c e s' l' hinv _ hstep := by
    have hmove := move_of_step hstep
    have hb := hmove.bounded hinv.shared (hinv.each c).2
    exact ⟨hmove.sealed hinv.shared, (hinv.each c).1.move hmove hb.ne_oops, hb⟩
  others p c e s' l' d hinv _ hstep hne := by
    have hmove := move_of_step hstep
    have hb := hmove.bounded hinv.shared (hinv.each c).2
    exact ⟨(hinv.each c).1.move_other (hinv.each d).1 hne hmove hb.ne_oops, (hinv.each d).2⟩
  pair _ _ _ _ _ _ _ _ _ _ := ⟨trivial, trivial⟩

/-- The locks and the bounds, of all calls. -/
abbrev Safe : Pool Drv Call → Prop :=
  Pool.Inv (fun s => Sealed s.ctx) (fun c s l => Locks c s l ∧ Bounded l) fun _ _ _ _ => True

theorem inductive_safe (ok : Pool Drv Call → Nat × Env → Prop) :
    (machine args).Inductive ok Safe := by
  refine (kept ok).invariant (fun _ hs => initCtx_sealed hs.1) ?_ fun _ _ => trivial
  rintro s c ⟨-, hmutex, hspin, hlock1, -⟩
  refine ⟨⟨?_, ?_, ?_⟩, trivial⟩
  · rw [hspin]; exact .free
  · rw [hmutex]; exact .free
  · rw [hlock1]; exact .free

end Lkp.Secret.Spin
