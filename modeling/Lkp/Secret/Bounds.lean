/-
No access of either secret driver leaves a buffer.

A length measured long ago is still a length the copy can use, because *every*
string the array ever holds is shorter than `MAXBYTES`: whatever the user writes,
`strscpy` gets at most `MAXBYTES` bytes of room and keeps one for the terminator.
Both drivers are covered, the one with sections as steps and the one with single
bytes as steps.
-/
import Lkp.Secret.Mutex
import Lkp.Secret.Exclusion

namespace Lkp.Secret

/-- The array holds a NUL at an index below `MAXBYTES`. -/
def Terminated (x : DrvCtx) : Prop := ∃ i, i < maxBytes ∧ x.oursecret[i]? = some 0

/-- A copy of `secretLen` bytes stays in the array, and in a user buffer of `count` bytes. -/
structure CopyFits (x : DrvCtx) (count secretLen : Nat) : Prop where
  short : secretLen ≤ 127
  source : secretLen ≤ x.oursecret.length
  room : secretLen ≤ count

theorem copyFits {x : DrvCtx} {count secretLen : Nat} (hsize : x.oursecret.length = maxBytes)
    (hlen : secretLen < maxBytes) (hcount : maxBytes ≤ count) : CopyFits x count secretLen where
  short := Nat.le_of_lt_succ hlen
  source := hsize ▸ hlen.le
  room := Nat.le_trans hlen.le hcount

theorem Spin.Sealed.terminated {x : DrvCtx} (h : Spin.Sealed x) : Terminated x :=
  ⟨maxBytes - 1, by decide, h.last⟩

theorem DrvCtx.WF.terminated {x : DrvCtx} (h : x.WF) : Terminated x := by
  obtain ⟨i, hi, hget⟩ := List.getElem_of_mem h.nul
  exact ⟨i, h.size ▸ hi, by rw [List.getElem?_eq_getElem hi, hget]⟩

/-- In the driver with one mutex. -/
structure Mutex.InBounds (p : Pool Mutex.Drv Mutex.Call) : Prop where
  terminated : Terminated p.shared.ctx
  /-- No section left its buffers. -/
  noOops : ∀ c, p.call c ≠ .oops
  /-- A store that comes next stays inside `oursecret` and inside the bytes of `kbuf`. -/
  store : ∀ c kbuf, p.call c = .writeFetched kbuf →
    (strscpy p.shared.ctx.oursecret kbuf (storeSize kbuf)).isSome = true
  /-- So does a copy to the user, whenever its length was measured. -/
  copy : ∀ c count secretLen, p.call c = .readOk count secretLen →
    CopyFits p.shared.ctx count secretLen

/-- In the driver with two locks. -/
structure Spin.InBounds (p : Pool Spin.Drv Spin.Call) : Prop where
  terminated : Terminated p.shared.ctx
  noOops : ∀ c, p.call c ≠ .oops
  /-- The next byte of a store stays inside `oursecret` and inside the bytes of `kbuf`. -/
  store : ∀ c kbuf i, p.call c = .writeCopy kbuf i → storeSize kbuf ≠ 0 →
    (strscpyByte p.shared.ctx.oursecret kbuf (storeSize kbuf) i).isSome = true
  copy : ∀ c count secretLen got, p.call c = .readCopy count secretLen got →
    got.length ≤ secretLen ∧ CopyFits p.shared.ctx count secretLen

theorem Mutex.Safe.inBounds {p : Pool Mutex.Drv Mutex.Call} (h : Mutex.Safe p) :
    Mutex.InBounds p where
  terminated := h.shared.terminated
  noOops c hc := by
    have := h.each c
    rw [hc] at this
    exact this
  store c kbuf _ := by
    obtain ⟨d, hd⟩ := strscpy_isSome (d := p.shared.ctx.oursecret) (s := kbuf)
      (h.shared.size ▸ storeSize_le_max kbuf) (storeSize_le_length kbuf)
    rw [hd]; rfl
  copy c count secretLen hc := by
    have hplace := h.each c
    rw [hc] at hplace
    exact copyFits h.shared.size hplace.2.1 hplace.2.2

theorem Spin.Safe.inBounds {p : Pool Spin.Drv Spin.Call} (h : Spin.Safe p) :
    Spin.InBounds p where
  terminated := h.shared.terminated
  noOops c := (h.each c).2.ne_oops
  store c kbuf i hc hn := by
    have hplace := (h.each c).2
    rw [hc] at hplace
    obtain ⟨d, fin, hd, -⟩ := strscpyByte_isSome (d := p.shared.ctx.oursecret) (s := kbuf)
      (h.shared.size ▸ storeSize_le_max kbuf) (storeSize_le_length kbuf)
      (hplace.resolve_left hn)
    rw [hd]; rfl
  copy c count secretLen got hc := by
    have hplace := (h.each c).2
    rw [hc] at hplace
    exact ⟨hplace.1, copyFits h.shared.size hplace.2.1 hplace.2.2⟩

/-- **In both drivers no access leaves a buffer, whatever was written, however stale a length.** -/
theorem always_inBounds (args : FileOp → Arg) :
    (∀ p, (Mutex.machine args).Reachable p → Mutex.InBounds p) ∧
      ∀ p, (Spin.machine args).Reachable p → Spin.InBounds p :=
  ⟨fun _ hp => ((Mutex.inductive_safe _).holds hp).inBounds,
    fun _ hp => ((Spin.inductive_safe _).holds hp).inBounds⟩

/-- In the driver of each kind, after a run that broke its other promise. -/
theorem always_inBounds_afterRuns :
    Mutex.InBounds ((Mutex.staleRun fromLast).state 8) ∧
      Spin.InBounds ((Spin.overlappingRun fromLast).state 31) :=
  ⟨(always_inBounds _).1 _ ((Mutex.staleRun _).reachable 8 (by decide)),
    (always_inBounds _).2 _ ((Spin.overlappingRun _).reachable 31 (by decide))⟩

end Lkp.Secret
