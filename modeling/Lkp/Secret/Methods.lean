/-
A method that runs with nobody in between.

`readMiscdrvRdwr` and `writeMiscdrvRdwr` are the two methods as plain functions
of the context, from the call to the return.  They are what the driver does when
one call runs alone: `exec_read` and `exec_write` say that the machine of
`Lkp.Secret.Mutex`, given only the steps of one call, ends where they say.
-/
import Lkp.Secret.Mutex

namespace Lkp.Secret

/-- `read_miscdrv_rdwr` for `count` bytes; `ok` is a `copy_to_user` that succeeds. -/
def readMiscdrvRdwr (count : Nat) (ok : Bool) (x : DrvCtx) : Option (DrvCtx × Int × Buf) :=
  (strlen x.oursecret).bind fun secretLen =>
    match readChecks count secretLen with
    | some ret => some (x, ret, [])
    | none => readCopy count secretLen ok x

/-- `write_miscdrv_rdwr` of a buffer, with what `kvmalloc` and `copy_from_user` answer. -/
def writeMiscdrvRdwr (ubuf : Buf) (kvmallocOk cfuOk : Bool) (x : DrvCtx) : Option (DrvCtx × Int) :=
  if kvmallocOk then
    if cfuOk then writeStore ubuf x else some (x, -EFAULT)
  else some (x, -ENOMEM)

/-! ### What the methods do -/

/-- A write that succeeds leaves the string of the buffer's front in the array. -/
theorem writeStore_cstr {x : DrvCtx} (hx : x.WF) {kbuf : Buf} {r : DrvCtx × Int}
    (hpos : 0 < kbuf.length) (hr : writeStore kbuf x = some r) :
    cstr r.1.oursecret = cstr (kbuf.take (storeSize kbuf - 1)) := by
  have hsize : 0 < storeSize kbuf := by unfold storeSize; split <;> simp_all [maxBytes]
  have hstr := strscpy_eq (d := x.oursecret) hsize (hx.size ▸ storeSize_le_max kbuf)
    (storeSize_le_length kbuf)
  rw [writeStore, hstr, Option.map_some, Option.some.injEq] at hr
  rw [← hr]
  exact cstr_append_zero (zero_notMem_cstr _) _

/-- A read alone hands out the whole secret, if there is one and the user has room. -/
theorem readMiscdrvRdwr_eq {x : DrvCtx} (hx : x.WF) {count : Nat} (hcount : maxBytes ≤ count)
    (hpos : 0 < (cstr x.oursecret).length) :
    readMiscdrvRdwr count true x =
      some ({ x with tx := x.tx + BitVec.ofNat 32 (cstr x.oursecret).length },
        ((cstr x.oursecret).length : Int), cstr x.oursecret) := by
  have hlt := hx.length_cstr_lt
  have hin : (cstr x.oursecret).length ≤ x.oursecret.length := length_cstr_le _
  have hchecks : readChecks count (cstr x.oursecret).length = none :=
    readChecks_eq_none.mpr ⟨hcount, hpos⟩
  simp only [readMiscdrvRdwr, hx.strlen_eq, Option.bind_some, hchecks, readCopy, copyToUser,
    if_pos (And.intro hin (hlt.le.trans hcount)), Option.map_some, if_true, take_length_cstr]

/-- With an empty secret a read is refused. -/
theorem readMiscdrvRdwr_empty {x : DrvCtx} (hx : x.WF) {count : Nat} {ok : Bool}
    (hempty : cstr x.oursecret = []) : readMiscdrvRdwr count ok x = some (x, -EINVAL, []) := by
  have hchecks : readChecks count 0 = some (-EINVAL) := by
    unfold readChecks
    split
    · rfl
    · rw [if_pos (Nat.le_refl 0)]
  simp only [readMiscdrvRdwr, hx.strlen_eq, hempty, List.length_nil, Option.bind_some, hchecks]

/-! ### The machine, one call running alone -/

namespace Mutex

variable {args : FileOp → Arg}

/-- The pool after call `c` has moved on to `l` and left the context as `x`. -/
def settle (p : Pool Drv Call) (c : Nat) (x : DrvCtx) (l : Call) : Pool Drv Call :=
  { shared := { p.shared with ctx := x }, call := Function.update p.call c l }

/-- One more step of a call that already runs alone. -/
theorem next_settle {p : Pool Drv Call} {c : Nat} {e : Env} {x x' : DrvCtx} {l l' : Call}
    (h : step args c e { p.shared with ctx := x } l = some ({ p.shared with ctx := x' }, l')) :
    (machine args).next (settle p c x l) (c, e) = some (settle p c x' l') := by
  refine Pool.machine_next.mpr ⟨l', ?_, ?_⟩
  · simpa [settle] using h
  · simp [settle]

theorem next_idle {p : Pool Drv Call} {c : Nat} {e : Env} {l' : Call} (hp : p.call c = .idle)
    (h : step args c e p.shared .idle = some (p.shared, l')) :
    (machine args).next p (c, e) = some (settle p c p.shared.ctx l') :=
  Pool.machine_next.mpr ⟨l', by rw [hp]; exact h, rfl⟩

theorem exec_read {p : Pool Drv Call} {c count : Nat} {ok : Bool} {r : DrvCtx × Int × Buf}
    (hp : p.call c = .idle) (h : readMiscdrvRdwr count ok p.shared.ctx = some r) :
    ∃ k, (machine args).exec p ((c, .call (.read count)) :: List.replicate k (c, .run ok)) =
      some (settle p c r.1 (.readRet r.2.1 r.2.2)) := by
  obtain ⟨secretLen, hlen, hrest⟩ := Option.bind_eq_some_iff.mp h
  have h0 : (machine args).next p (c, .call (.read count)) =
      some (settle p c p.shared.ctx (.read count)) := next_idle hp rfl
  have h1 : (machine args).next (settle p c p.shared.ctx (.read count)) (c, .run ok) =
      some (settle p c p.shared.ctx (.readLen count secretLen)) :=
    next_settle (by simp [step, hlen])
  cases hchecks : readChecks count secretLen with
  | some ret =>
      rw [hchecks] at hrest
      simp only [Option.some.injEq] at hrest
      subst hrest
      have h2 : (machine args).next (settle p c p.shared.ctx (.readLen count secretLen))
          (c, .run ok) =
          some (settle p c p.shared.ctx (.readRet ret [])) :=
        next_settle (by simp [step, hchecks])
      exact ⟨2, by simp [List.replicate, h0, h1, h2]⟩
  | none =>
      rw [hchecks] at hrest
      have h2 : (machine args).next (settle p c p.shared.ctx (.readLen count secretLen))
          (c, .run ok) =
          some (settle p c p.shared.ctx (.readOk count secretLen)) :=
        next_settle (by simp [step, hchecks])
      have h3 : (machine args).next (settle p c p.shared.ctx (.readOk count secretLen))
          (c, .run ok) =
          some (settle p c r.1 (.readRet r.2.1 r.2.2)) :=
        next_settle (by simp [step, hrest])
      exact ⟨3, by simp [List.replicate, h0, h1, h2, h3]⟩

theorem exec_write {p : Pool Drv Call} {c : Nat} {ubuf : Buf} {kvmallocOk cfuOk : Bool}
    {r : DrvCtx × Int} (hp : p.call c = .idle)
    (h : writeMiscdrvRdwr ubuf kvmallocOk cfuOk p.shared.ctx = some r) :
    ∃ oks : List Bool, (machine args).exec p
      ((c, .call (.write ubuf)) :: oks.map fun ok => (c, Env.run ok)) =
        some (settle p c r.1 (.writeRet r.2)) := by
  have h0 : (machine args).next p (c, .call (.write ubuf)) =
      some (settle p c p.shared.ctx (.write ubuf)) := next_idle hp rfl
  unfold writeMiscdrvRdwr at h
  have hfree : ∀ x ret ok, (machine args).next (settle p c x (.writeFree ret)) (c, .run ok) =
      some (settle p c x (.writeRet ret)) := fun x ret ok => next_settle rfl
  cases kvmallocOk with
  | false =>
      simp only [Bool.false_eq_true, if_false, Option.some.injEq] at h
      subst h
      have h1 : (machine args).next (settle p c p.shared.ctx (.write ubuf)) (c, .run false) =
          some (settle p c p.shared.ctx (.writeRet (-ENOMEM))) := next_settle (by simp [step])
      exact ⟨[false], by simp [h0, h1]⟩
  | true =>
      have h1 : (machine args).next (settle p c p.shared.ctx (.write ubuf)) (c, .run true) =
          some (settle p c p.shared.ctx
            (.writeKbuf (List.replicate ubuf.length 0) ubuf)) := next_settle (by simp [step])
      cases cfuOk with
      | false =>
          simp only [Bool.false_eq_true, if_false, if_true, Option.some.injEq] at h
          subst h
          have h2 : (machine args).next (settle p c p.shared.ctx
              (.writeKbuf (List.replicate ubuf.length 0) ubuf)) (c, .run false) =
              some (settle p c p.shared.ctx (.writeFree (-EFAULT))) :=
            next_settle (by simp [step])
          exact ⟨[true, false, true], by simp [h0, h1, h2, hfree]⟩
      | true =>
          simp only [if_true] at h
          have h2 : (machine args).next (settle p c p.shared.ctx
              (.writeKbuf (List.replicate ubuf.length 0) ubuf)) (c, .run true) =
              some (settle p c p.shared.ctx (.writeFetched ubuf)) :=
            next_settle (by simp [step])
          have h3 : (machine args).next (settle p c p.shared.ctx (.writeFetched ubuf))
              (c, .run true) =
              some (settle p c r.1 (.writeFree r.2)) := next_settle (by simp [step, h])
          exact ⟨[true, true, true, true], by simp [h0, h1, h2, h3, hfree]⟩

end Mutex

end Lkp.Secret
