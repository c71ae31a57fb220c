/-
Error atomicity of the two secret drivers.

Each step of a read or a write is shown to do what `ReadPlaces.Step` and `WritePlaces.Step`
ask of it, one way out of a place after the other.  No lock is kept past a return, since the
locks agree with the places.
-/
import Lkp.Secret.Outcome
import Lkp.Secret.Locked
import Lkp.Secret.Discipline
import Lkp.Secret.Stats

namespace Lkp.Secret

variable {args : FileOp → Arg}

/-! ### The driver with one mutex -/

namespace Locked

/-- The call is a read. -/
def Reading : Call → Prop
  | .read _ | .readHeld _ | .readMeasured .. | .readLen .. | .readOk .. | .readCopy ..
  | .readUnlock .. | .readRet .. => True
  | _ => False

/-- What a read returns, it has been decided, and it is `P`. -/
def ReadIs (P : Int → Prop) : Call → Prop
  | .readUnlock ret _ | .readRet ret _ => P ret
  | _ => False

/-- The call is a write of no more bytes than the VFS lets through. -/
def Writing : Call → Prop
  | .write u | .writeKbuf _ u => u.length ≤ maxRwCount
  | .writeFetched k | .writeHeld k => k.length ≤ maxRwCount
  | .writeUnlock _ | .writeFree _ | .writeRet _ => True
  | _ => False

/-- What a write returns, it has been decided, and it is `P`. -/
def WriteIs (P : Int → Prop) : Call → Prop
  | .writeUnlock ret | .writeFree ret | .writeRet ret => P ret
  | _ => False

/-- Nothing can go wrong with a write any more. -/
def WriteBound : Call → Prop
  | .writeFetched _ | .writeHeld _ => True
  | l => WriteIs (0 ≤ ·) l

/-- The step is a `kvmalloc` that succeeds. -/
def Kvmallocs : Call → Call → Prop
  | .write _, .writeKbuf _ _ => True
  | _, _ => False

/-- The step from here is `kvfree`. -/
def Kvfrees : Call → Prop
  | .writeFree _ => True
  | _ => False

/-- `kbuf` is allocated. -/
def HasKbuf : Call → Prop
  | .writeKbuf .. | .writeFetched _ | .writeHeld _ | .writeUnlock _ | .writeFree _ => True
  | _ => False

/-- The write has returned. -/
def Wrote : Call → Prop
  | .writeRet _ => True
  | _ => False

section Steps

variable {c : Nat} {e : Mutex.Env} {s s' : Drv} {l l' : Call} {P : Int → Prop} {x y : Int}

/-! #### Reads -/

theorem Move.reading (h : Move args c e s l s' l') (hno : l' ≠ .oops) (hl : Reading l) :
    Reading l' := by
  cases h <;> trivial

theorem Move.readIs (h : Move args c e s l s' l') (hl : ReadIs P l) : ReadIs P l' := by
  cases h <;> first | exact hl | exact hl.elim

theorem readIs_unique (hx : ReadIs (· = x) l) (hy : ReadIs (· = y) l) : x = y := by
  cases l <;> first | exact hx.symm.trans hy | exact hx.elim

/-- A step of a read changes nothing, or hands the secret out and counts it. -/
theorem Move.read_ctx (h : Move args c e s l s' l') (hl : Reading l) :
    (s'.ctx = s.ctx ∧ (ReadIs (0 ≤ ·) l ↔ ReadIs (0 ≤ ·) l')) ∨
      (¬ ReadIs (0 ≤ ·) l ∧ ReadIs (0 ≤ ·) l' ∧
        ∃ ret, ReadIs (· = ret) l' ∧ s'.ctx = addTx ret s.ctx) := by
  cases h with
  | reject count n he =>
      have hneg := readChecks_neg he
      exact .inl ⟨rfl, iff_of_false id (by simpa [ReadIs] using hneg)⟩
  | @copy _ ok count n r hr =>
      cases ok with
      | true =>
          rw [readCopy_ok hr]
          exact .inr ⟨id, Int.natCast_nonneg n, _, rfl, (addTx_natCast n _).symm⟩
      | false =>
          obtain ⟨bytes, -, rfl⟩ := Option.map_eq_some_iff.mp hr
          exact .inl ⟨rfl, iff_of_false id (by simp [ReadIs, EFAULT])⟩
  | update | lock1 | unlock1 | store | storeLock | storeUnlock => exact hl.elim
  | _ => exact .inl ⟨rfl, Iff.rfl⟩

/-! #### Writes -/

theorem Move.writing (h : Move args c e s l s' l') (hno : l' ≠ .oops) (hl : Writing l) :
    Writing l' := by
  cases h <;> first | exact hl | trivial

theorem Move.writeIs (h : Move args c e s l s' l') (hl : WriteIs P l) : WriteIs P l' := by
  cases h <;> first | exact hl | exact hl.elim

theorem writeIs_unique (hx : WriteIs (· = x) l) (hy : WriteIs (· = y) l) : x = y := by
  cases l <;> first | exact hx.symm.trans hy | exact hx.elim

theorem writeStore_ret {kbuf : Buf} {x : DrvCtx} {r : DrvCtx × Int}
    (h : writeStore kbuf x = some r) :
    r.2 = toInt kbuf.length ∧ r.1.stats = addRx (toInt kbuf.length) x.stats := by
  obtain ⟨b, -, rfl⟩ := Option.map_eq_some_iff.mp h
  exact ⟨rfl, (addRx_toInt kbuf.length x.stats).symm⟩

theorem writeStore_nonneg {kbuf : Buf} {x : DrvCtx} {r : DrvCtx × Int}
    (h : writeStore kbuf x = some r) (hlen : kbuf.length ≤ maxRwCount) : 0 ≤ r.2 := by
  rw [(writeStore_ret h).1]
  exact toInt_nonneg hlen

theorem Move.writeBound (h : Move args c e s l s' l') (hno : l' ≠ .oops) (hw : Writing l)
    (hl : WriteBound l) : WriteBound l' := by
  cases h with
  | store kbuf hr => exact writeStore_nonneg hr hw
  | storeOops => exact absurd rfl hno
  | storeLock => trivial
  | storeUnlock ret => exact hl
  | free ret => exact hl
  | _ => exact hl.elim

/-- A write that may still fail has changed nothing. -/
theorem Move.write_ctx (h : Move args c e s l s' l') (hw : Writing l) (hnot : ¬ WriteBound l') :
    s'.ctx = s.ctx := by
  cases h with
  | store kbuf hr => exact absurd (writeStore_nonneg hr hw) hnot
  | update | copy => exact hw.elim
  | _ => rfl

/-- A step of a write leaves the counters alone, or counts what was stored. -/
theorem Move.write_stats (h : Move args c e s l s' l') (hw : Writing l) :
    (s'.ctx.stats = s.ctx.stats ∧ (WriteIs (0 ≤ ·) l ↔ WriteIs (0 ≤ ·) l')) ∨
      (¬ WriteIs (0 ≤ ·) l ∧ WriteIs (0 ≤ ·) l' ∧
        ∃ ret, WriteIs (· = ret) l' ∧ s'.ctx.stats = addRx ret s.ctx.stats) := by
  cases h with
  | store kbuf hr =>
      obtain ⟨hret, hstats⟩ := writeStore_ret hr
      exact .inr ⟨id, writeStore_nonneg hr hw, _, hret, hstats⟩
  | fault => exact .inl ⟨rfl, iff_of_false id (by simp [WriteIs, EFAULT])⟩
  | noMem => exact .inl ⟨rfl, iff_of_false id (by simp [WriteIs, ENOMEM])⟩
  | update | copy | lock1 | unlock1 => exact hw.elim
  | _ => exact .inl ⟨rfl, Iff.rfl⟩

/-! #### `kbuf` -/

/-- A write that has `kbuf` keeps it until it frees it. -/
theorem Move.hasKbuf (h : Move args c e s l s' l') (hno : l' ≠ .oops) (hl : HasKbuf l) :
    HasKbuf l' ∨ (Kvfrees l ∧ Wrote l') := by
  cases h <;> first
    | exact .inl trivial | exact .inr ⟨trivial, trivial⟩ | exact hl.elim | exact absurd rfl hno

theorem Move.kvmallocs (h : Move args c e s l s' l') (hnot : ¬ HasKbuf l) (hl : HasKbuf l') :
    Kvmallocs l l' := by
  cases h <;> trivial

theorem Move.kvfrees (h : Move args c e s l s' l') (hl : Kvfrees l) : Wrote l' := by
  cases h <;> trivial

theorem Move.wrote (h : Move args c e s l s' l') (hl : Wrote l) : Wrote l' := by
  cases h <;> exact hl.elim

theorem hasKbuf_of_kvmallocs (h : Kvmallocs l l') : HasKbuf l' := by
  cases l <;> cases l' <;> trivial

theorem hasKbuf_of_kvfrees (h : Kvfrees l) : HasKbuf l := by
  cases l <;> trivial

theorem not_wrote_of_hasKbuf (h : HasKbuf l) : ¬ Wrote l := by
  cases l <;> first | exact id | exact h.elim

/-! #### Both methods -/

/-- The places of `read_miscdrv_rdwr`. -/
def readPlaces : ReadPlaces Call where
  reading := Reading
  is := ReadIs
  unique := readIs_unique

/-- The places of `write_miscdrv_rdwr`. -/
def writePlaces : WritePlaces Call where
  writing := Writing
  is := WriteIs
  bound := WriteBound
  kvmallocs := Kvmallocs
  kvfrees := Kvfrees
  hasKbuf := HasKbuf
  wrote := Wrote
  unique := writeIs_unique
  hasKbuf_of_kvmallocs := hasKbuf_of_kvmallocs
  hasKbuf_of_kvfrees := hasKbuf_of_kvfrees
  not_wrote_of_hasKbuf := not_wrote_of_hasKbuf

theorem Move.readStep (h : Move args c e s l s' l') (hno : l' ≠ .oops) :
    readPlaces.Step (fun s => s.ctx) s l s' l' where
  reading := h.reading hno
  decided _ := h.readIs
  counts := h.read_ctx

theorem Move.writeStep (h : Move args c e s l s' l') (hno : l' ≠ .oops) :
    writePlaces.Step (fun s => s.ctx) s l s' l' where
  writing := h.writing hno
  decided _ := h.writeIs
  counts := h.write_stats
  bound := h.writeBound hno
  unbound := h.write_ctx
  hasKbuf := h.hasKbuf hno
  kvmallocs := h.kvmallocs
  kvfrees := h.kvfrees
  wrote := h.wrote

end Steps

section Runs

variable {n : Nat} {r : (machine args).Run n} {c i j : Nat}

/-- A call's own step, in a run. -/
theorem move_of_own (hj : j ≤ n) {t : Nat} (ht : Pool.OwnStep r c i j t) :
    Move args c (r.act t).2 (r.state t).shared ((r.state t).call c) (r.state (t + 1)).shared
        ((r.state (t + 1)).call c) ∧ (r.state (t + 1)).call c ≠ .oops :=
  ⟨move_of_step (ht.step hj), ne_oops (r.reachable (t + 1) (ht.last.trans_le hj)) c⟩

theorem read_atomic {count : Nat} {ret : Int} {out : Buf} (hij : i ≤ j) (hj : j ≤ n)
    (hcall : (r.state i).call c = .read count) (hret : (r.state j).call c = .readRet ret out) :
    ReadAtomic r (fun s => s.ctx) c i j ret := by
  refine readPlaces.atomic hij hj (fun t ht => ?_) ?_ ?_ fun P => ?_
  · obtain ⟨hmove, hno⟩ := move_of_own hj ht
    exact hmove.readStep hno
  · rw [hcall]
    trivial
  · rw [hcall]
    exact id
  · rw [hret]
    exact Iff.rfl

theorem write_atomic {ubuf : Buf} {ret : Int} (hij : i ≤ j) (hj : j ≤ n)
    (hlen : ubuf.length ≤ maxRwCount) (hcall : (r.state i).call c = .write ubuf)
    (hret : (r.state j).call c = .writeRet ret) :
    WriteAtomic r (fun s => s.ctx) Kvmallocs Kvfrees c i j ret := by
  refine writePlaces.atomic hij hj (fun t ht => ?_) ?_ ?_ ?_ ?_ (fun P => ?_) ?_ ?_
  · obtain ⟨hmove, hno⟩ := move_of_own hj ht
    exact hmove.writeStep hno
  · rw [hcall]
    exact hlen
  · rw [hcall]
    exact id
  · rw [hcall]
    exact id
  · rw [hcall]
    exact id
  · rw [hret]
    exact Iff.rfl
  · rw [hret]
    exact id
  · rw [hret]
    trivial

end Runs

/-- **What every call of a run has done when it returns**, and that it keeps no lock. -/
structure ErrorAtomic {n : Nat} (r : (machine args).Run n) : Prop where
  read : ∀ c i j count ret out, i ≤ j → j ≤ n → (r.state i).call c = .read count →
    (r.state j).call c = .readRet ret out →
      ReadAtomic r (fun s => s.ctx) c i j ret ∧
        (r.state j).shared.lock ≠ some c ∧ (r.state j).shared.lock1 ≠ some c
  write : ∀ c i j (ubuf : Buf) ret, i ≤ j → j ≤ n → ubuf.length ≤ maxRwCount →
    (r.state i).call c = .write ubuf → (r.state j).call c = .writeRet ret →
      WriteAtomic r (fun s => s.ctx) Kvmallocs Kvfrees c i j ret ∧
        (r.state j).shared.lock ≠ some c ∧ (r.state j).shared.lock1 ≠ some c

theorem ErrorAtomic.of_run {n : Nat} (r : (machine args).Run n) : ErrorAtomic r := by
  refine ⟨fun c i j count ret out hij hj hcall hret => ?_,
    fun c i j ubuf ret hij hj hlen hcall hret => ?_⟩
  · have hlocks := locks (r.reachable j hj) c
    rw [hret] at hlocks
    exact ⟨read_atomic hij hj hcall hret, hlocks.lock.not_owner, hlocks.lock1.not_owner⟩
  · have hlocks := locks (r.reachable j hj) c
    rw [hret] at hlocks
    exact ⟨write_atomic hij hj hlen hcall hret, hlocks.lock.not_owner, hlocks.lock1.not_owner⟩

end Locked

/-! ### The driver with a spinlock and a mutex -/

namespace Spin

/-- The result is that of a read, and it is `P`. -/
def Result.ReadIs (P : Int → Prop) : Result → Prop
  | .read ret _ => P ret
  | _ => False

/-- The result is that of a write, and it is `P`. -/
def Result.WriteIs (P : Int → Prop) : Result → Prop
  | .write ret => P ret
  | _ => False

/-- What a read returns, it has been decided, and it is `P`. -/
def ReadIs (P : Int → Prop) : Call → Prop
  | .readUnlock _ ret _ => P ret
  | .stats _ r | .statsHeld r | .statsShown r | .ret r => r.ReadIs P
  | _ => False

/-- The call is a read. -/
def Reading : Call → Prop
  | .read _ | .readHeld _ | .readMeasured .. | .readLen .. | .readOk .. | .readCopy ..
  | .readCopied .. | .readTx .. => True
  | l => ReadIs (fun _ => True) l

/-- What a write returns, it has been decided, and it is `P`. -/
def WriteIs (P : Int → Prop) : Call → Prop
  | .writeTest k | .writeSleep k | .writeUnlock k => P (toInt k.length)
  | .writeFree _ ret => P ret
  | .stats _ r | .statsHeld r | .statsShown r | .ret r => r.WriteIs P
  | _ => False

/-- The call is a write of no more bytes than the VFS lets through. -/
def Writing : Call → Prop
  | .write u | .writeKbuf _ u => u.length ≤ maxRwCount
  | .writeFetched k | .writeCopy k _ | .writeStored k | .writeRx k _ | .writeTest k
  | .writeSleep k | .writeUnlock k => k.length ≤ maxRwCount
  | l => WriteIs (fun _ => True) l

/-- Nothing can go wrong with a write any more. -/
def WriteBound : Call → Prop
  | .writeFetched _ | .writeCopy .. | .writeStored _ | .writeRx .. => True
  | l => WriteIs (0 ≤ ·) l

/-- The step is a `kvmalloc` that succeeds. -/
def Kvmallocs : Call → Call → Prop
  | .write _, .writeKbuf _ _ => True
  | _, _ => False

/-- The step from here is `kvfree`. -/
def Kvfrees : Call → Prop
  | .writeFree .. => True
  | _ => False

/-- `kbuf` is allocated. -/
def HasKbuf : Call → Prop
  | .writeKbuf .. | .writeFetched _ | .writeCopy .. | .writeStored _ | .writeRx .. | .writeTest _
  | .writeSleep _ | .writeUnlock _ | .writeFree .. => True
  | _ => False

/-- The write has nothing left to do but to show the statistics. -/
def Wrote : Call → Prop
  | .stats _ r | .statsHeld r | .statsShown r | .ret r => r.WriteIs fun _ => True
  | _ => False

section Steps

variable {c : Nat} {e : Env} {s s' : Drv} {l l' : Call} {P : Int → Prop} {x y : Int}

/-! #### Reads -/

theorem Move.reading (h : Move args c e s l s' l') (hno : l' ≠ .oops) (hl : Reading l) :
    Reading l' := by
  cases h <;> first | exact hl | trivial

theorem Move.readIs (h : Move args c e s l s' l') (hl : ReadIs P l) : ReadIs P l' := by
  cases h <;> first | exact hl | exact hl.elim

theorem readIs_unique (hx : ReadIs (· = x) l) (hy : ReadIs (· = y) l) : x = y := by
  have hres : ∀ r : Result, r.ReadIs (· = x) → r.ReadIs (· = y) → x = y := by
    intro r hx hy
    cases r <;> first | exact hx.symm.trans hy | exact hx.elim
  cases l <;> first | exact hres _ hx hy | exact hx.symm.trans hy | exact hx.elim

/-- A step of a read changes nothing, or counts what was handed out. -/
theorem Move.read_ctx (h : Move args c e s l s' l') (hloaded : Loaded s l) (hl : Reading l) :
    (s'.ctx = s.ctx ∧ (ReadIs (0 ≤ ·) l ↔ ReadIs (0 ≤ ·) l')) ∨
      (¬ ReadIs (0 ≤ ·) l ∧ ReadIs (0 ≤ ·) l' ∧
        ∃ ret, ReadIs (· = ret) l' ∧ s'.ctx = Secret.addTx ret s.ctx) := by
  cases h with
  | reject count n he =>
      have hneg := readChecks_neg he
      exact .inl ⟨rfl, iff_of_false id (by simpa [ReadIs, Result.ReadIs] using hneg)⟩
  | copyFault count n got => exact .inl ⟨rfl, iff_of_false id (by simp [ReadIs, EFAULT])⟩
  | addTx n ubuf tx =>
      obtain rfl : tx = s.ctx.tx := hloaded
      exact .inr ⟨id, Int.natCast_nonneg n, _, rfl, (addTx_natCast n _).symm⟩
  | update | storeByte | storeLast | addRx => exact hl.elim
  | _ => exact .inl ⟨rfl, Iff.rfl⟩

/-! #### Writes -/

theorem Move.writing (h : Move args c e s l s' l') (hno : l' ≠ .oops) (hl : Writing l) :
    Writing l' := by
  cases h <;> first | exact hl | trivial

theorem Move.writeIs (h : Move args c e s l s' l') (hl : WriteIs P l) : WriteIs P l' := by
  cases h <;> first | exact hl | exact hl.elim

theorem writeIs_unique (hx : WriteIs (· = x) l) (hy : WriteIs (· = y) l) : x = y := by
  have hres : ∀ r : Result, r.WriteIs (· = x) → r.WriteIs (· = y) → x = y := by
    intro r hx hy
    cases r <;> first | exact hx.symm.trans hy | exact hx.elim
  cases l <;> first | exact hres _ hx hy | exact hx.symm.trans hy | exact hx.elim

theorem Move.writeBound (h : Move args c e s l s' l') (hno : l' ≠ .oops) (hw : Writing l)
    (hl : WriteBound l) : WriteBound l' := by
  cases h with
  | addRx kbuf rx => exact toInt_nonneg hw
  | storeOops => exact absurd rfl hno
  | _ => first | exact hl | trivial

/-- A write that may still fail has changed nothing. -/
theorem Move.write_ctx (h : Move args c e s l s' l') (hw : Writing l) (hnot : ¬ WriteBound l') :
    s'.ctx = s.ctx := by
  cases h with
  | addRx kbuf rx => exact absurd (toInt_nonneg hw) hnot
  | storeByte | storeLast => exact absurd trivial hnot
  | update | addTx => exact hw.elim
  | _ => rfl

/-- A step of a write leaves the counters alone, or counts what was stored. -/
theorem Move.write_stats (h : Move args c e s l s' l') (hloaded : Loaded s l) (hw : Writing l) :
    (s'.ctx.stats = s.ctx.stats ∧ (WriteIs (0 ≤ ·) l ↔ WriteIs (0 ≤ ·) l')) ∨
      (¬ WriteIs (0 ≤ ·) l ∧ WriteIs (0 ≤ ·) l' ∧
        ∃ ret, WriteIs (· = ret) l' ∧ s'.ctx.stats = Secret.addRx ret s.ctx.stats) := by
  cases h with
  | addRx kbuf rx =>
      obtain rfl : rx = s.ctx.rx := hloaded
      exact .inr ⟨id, toInt_nonneg hw, _, rfl, (addRx_toInt kbuf.length s.ctx.stats).symm⟩
  | fault => exact .inl ⟨rfl, iff_of_false id (by simp [WriteIs, EFAULT])⟩
  | noMem => exact .inl ⟨rfl, iff_of_false id (by simp [WriteIs, Result.WriteIs, ENOMEM])⟩
  | update | addTx => exact hw.elim
  | _ => exact .inl ⟨rfl, Iff.rfl⟩

/-! #### `kbuf` -/

/-- A write that has `kbuf` keeps it until it frees it. -/
theorem Move.hasKbuf (h : Move args c e s l s' l') (hno : l' ≠ .oops) (hl : HasKbuf l) :
    HasKbuf l' ∨ (Kvfrees l ∧ Wrote l') := by
  cases h <;> first
    | exact .inl trivial | exact .inr ⟨trivial, trivial⟩ | exact hl.elim | exact absurd rfl hno

theorem Move.kvmallocs (h : Move args c e s l s' l') (hnot : ¬ HasKbuf l) (hl : HasKbuf l') :
    Kvmallocs l l' := by
  cases h <;> trivial

theorem Move.kvfrees (h : Move args c e s l s' l') (hl : Kvfrees l) : Wrote l' := by
  cases h <;> trivial

theorem Move.wrote (h : Move args c e s l s' l') (hl : Wrote l) : Wrote l' := by
  cases h <;> first | exact hl | exact hl.elim

theorem hasKbuf_of_kvmallocs (h : Kvmallocs l l') : HasKbuf l' := by
  cases l <;> cases l' <;> trivial

theorem hasKbuf_of_kvfrees (h : Kvfrees l) : HasKbuf l := by
  cases l <;> trivial

theorem not_wrote_of_hasKbuf (h : HasKbuf l) : ¬ Wrote l := by
  cases l <;> first | exact id | exact h.elim

/-! #### Both methods -/

/-- The places of `read_miscdrv_rdwr`. -/
def readPlaces : ReadPlaces Call where
  reading := Reading
  is := ReadIs
  unique := readIs_unique

/-- The places of `write_miscdrv_rdwr`. -/
def writePlaces : WritePlaces Call where
  writing := Writing
  is := WriteIs
  bound := WriteBound
  kvmallocs := Kvmallocs
  kvfrees := Kvfrees
  hasKbuf := HasKbuf
  wrote := Wrote
  unique := writeIs_unique
  hasKbuf_of_kvmallocs := hasKbuf_of_kvmallocs
  hasKbuf_of_kvfrees := hasKbuf_of_kvfrees
  not_wrote_of_hasKbuf := not_wrote_of_hasKbuf

theorem Move.readStep (h : Move args c e s l s' l') (hno : l' ≠ .oops) (hloaded : Loaded s l) :
    readPlaces.Step (fun s => s.ctx) s l s' l' where
  reading := h.reading hno
  decided _ := h.readIs
  counts := h.read_ctx hloaded

theorem Move.writeStep (h : Move args c e s l s' l') (hno : l' ≠ .oops) (hloaded : Loaded s l) :
    writePlaces.Step (fun s => s.ctx) s l s' l' where
  writing := h.writing hno
  decided _ := h.writeIs
  counts := h.write_stats hloaded
  bound := h.writeBound hno
  unbound := h.write_ctx
  hasKbuf := h.hasKbuf hno
  kvmallocs := h.kvmallocs
  kvfrees := h.kvfrees
  wrote := h.wrote

end Steps

section Runs

variable {n : Nat} {r : (machine args).Run n} {c i j : Nat}

/-- A call's own step, in a run. -/
theorem move_of_own (hj : j ≤ n) {t : Nat} (ht : Pool.OwnStep r c i j t) :
    Move args c (r.act t).2 (r.state t).shared ((r.state t).call c) (r.state (t + 1)).shared
        ((r.state (t + 1)).call c) ∧ (r.state (t + 1)).call c ≠ .oops := by
  have hsafe : Safe (r.state (t + 1)) :=
    (inductive_safe _).holds (r.reachable (t + 1) (ht.last.trans_le hj))
  exact ⟨move_of_step (ht.step hj), (hsafe.each c).2.ne_oops⟩

/-- What the call has loaded is what is there. -/
theorem loaded_of_own (hj : j ≤ n) {t : Nat} (ht : Pool.OwnStep r c i j t) :
    Loaded (r.state t).shared ((r.state t).call c) :=
  loaded_of_reachable (r.reachable t (ht.last.le.trans hj)) c

theorem read_atomic {count : Nat} {ret : Int} {out : Buf} (hij : i ≤ j) (hj : j ≤ n)
    (hcall : (r.state i).call c = .read count)
    (hret : (r.state j).call c = .ret (.read ret out)) :
    ReadAtomic r (fun s => s.ctx) c i j ret := by
  refine readPlaces.atomic hij hj (fun t ht => ?_) ?_ ?_ fun P => ?_
  · obtain ⟨hmove, hno⟩ := move_of_own hj ht
    exact hmove.readStep hno (loaded_of_own hj ht)
  · rw [hcall]
    trivial
  · rw [hcall]
    exact id
  · rw [hret]
    exact Iff.rfl

theorem write_atomic {ubuf : Buf} {ret : Int} (hij : i ≤ j) (hj : j ≤ n)
    (hlen : ubuf.length ≤ maxRwCount) (hcall : (r.state i).call c = .write ubuf)
    (hret : (r.state j).call c = .ret (.write ret)) :
    WriteAtomic r (fun s => s.ctx) Kvmallocs Kvfrees c i j ret := by
  refine writePlaces.atomic hij hj (fun t ht => ?_) ?_ ?_ ?_ ?_ (fun P => ?_) ?_ ?_
  · obtain ⟨hmove, hno⟩ := move_of_own hj ht
    exact hmove.writeStep hno (loaded_of_own hj ht)
  · rw [hcall]
    exact hlen
  · rw [hcall]
    exact id
  · rw [hcall]
    exact id
  · rw [hcall]
    exact id
  · rw [hret]
    exact Iff.rfl
  · rw [hret]
    exact id
  · rw [hret]
    trivial

end Runs

/-- **What every call of a run has done when it returns**, and that it keeps no lock. -/
structure ErrorAtomic {n : Nat} (r : (machine args).Run n) : Prop where
  read : ∀ c i j count ret out, i ≤ j → j ≤ n → (r.state i).call c = .read count →
    (r.state j).call c = .ret (.read ret out) →
      ReadAtomic r (fun s => s.ctx) c i j ret ∧ ∀ x, (r.state j).shared.owner x ≠ some c
  write : ∀ c i j (ubuf : Buf) ret, i ≤ j → j ≤ n → ubuf.length ≤ maxRwCount →
    (r.state i).call c = .write ubuf → (r.state j).call c = .ret (.write ret) →
      WriteAtomic r (fun s => s.ctx) Kvmallocs Kvfrees c i j ret ∧
        ∀ x, (r.state j).shared.owner x ≠ some c

theorem ErrorAtomic.of_run {n : Nat} (r : (machine args).Run n) : ErrorAtomic r := by
  have hunlocked : ∀ c j res, j ≤ n → (r.state j).call c = .ret res →
      ∀ x, (r.state j).shared.owner x ≠ some c := by
    intro c j res hj hret x
    have hsafe : Safe (r.state j) := (inductive_safe _).holds (r.reachable j hj)
    refine (hsafe.each c).1.not_owner ?_
    rw [hret]
    exact holds_ret res x
  refine ⟨fun c i j count ret out hij hj hcall hret => ?_,
    fun c i j ubuf ret hij hj hlen hcall hret => ?_⟩
  · exact ⟨read_atomic hij hj hcall hret, hunlocked c j _ hj hret⟩
  · exact ⟨write_atomic hij hj hlen hcall hret, hunlocked c j _ hj hret⟩

end Spin

/-! ### Both drivers -/

/-- **A call that fails changes nothing, and one that succeeds counts itself once**, in
either driver. -/
theorem errorAtomic (args : FileOp → Arg) :
    (∀ n (r : (Locked.machine args).Run n), Locked.ErrorAtomic r) ∧
      ∀ n (r : (Spin.machine args).Run n), Spin.ErrorAtomic r :=
  ⟨fun _ r => .of_run r, fun _ r => .of_run r⟩

/-- The driver with one mutex after init. -/
def Locked.pool0 : Pool Locked.Drv Locked.Call :=
  { shared := { toDrv := Mutex.drv0, lock := none, lock1 := none }, call := fun _ => .idle }

/-- A write whose `copy_from_user` fails. -/
def Locked.faultRun : (Locked.machine fromLast).Run 4 :=
  .ofActs Locked.pool0
    [(0, .call (.write [97, 98, 0])), (0, .run true), (0, .run false), (0, .run true)]
    ⟨⟨by decide +kernel, rfl, rfl, rfl, rfl⟩, fun _ => rfl⟩ (by decide +kernel)

theorem errorAtomic_runs :
    Pool.Leaves Locked.faultRun (fun s => s.ctx) 0 1 4 ∧
      Pool.Applies Spin.inTurnRun (fun s => s.ctx) (addTx 3) 0 15 28 := by
  have hwrite := ((errorAtomic _).1 _ Locked.faultRun).write 0 1 4 [97, 98, 0] (-EFAULT)
    (by decide) (by decide) (by decide) (by decide +kernel) (by decide +kernel)
  have hread := ((errorAtomic _).2 _ Spin.inTurnRun).read 0 15 28 128 3 [97, 98, 99] (by decide)
    (by decide) (by decide +kernel) (by decide +kernel)
  exact ⟨hwrite.1.failed (by decide), hread.1.added (by decide)⟩

end Lkp.Secret
