/-
Copying out and storing, in the driver with two locks.

The section of the read method that copies the secret out holds `ctx->mutex`; the
section of the write method that stores a new one holds `ctx->spinlock`.  Nothing
keeps the two apart, and a run in which they overlap is short
(`not_oneSecret`): the user then gets the front of one secret and the back of
another.

What has to be true of a schedule for the two to stay apart is `Apart`: whoever
takes one of the locks for such a section finds nobody in the other section, and
no write has shortened the secret since the read measured it.  Then the array
stands still while a read copies, so the bytes are those of one secret
(`oneSecret`).
-/
import Lkp.Secret.Spin

namespace Lkp.Secret.Spin

variable {args : FileOp → Arg}

/-- No call copies the secret out while another stores one. -/
def NoOverlap (p : Pool Drv Call) : Prop :=
  ∀ c d, ¬ (inCopy (p.call c) = true ∧ inStore (p.call d) = true)

/--
The bytes of every successful read are those of one secret: the front of the
string that the array held, with no store under way, at one moment of the call.
-/
def ReadsOneSecret {n : Nat} (r : (machine args).Run n) : Prop :=
  ∀ c count i j ret ubuf, i ≤ j → j ≤ n → (r.state i).call c = .read count →
    (r.state j).call c = .ret (.read ret ubuf) → 0 ≤ ret →
    ∃ k, i ≤ k ∧ k ≤ j ∧ (∀ d, inStore ((r.state k).call d) = false) ∧
      ubuf <+: cstr (r.state k).shared.ctx.oursecret

/-- The two sections exclude each other throughout a run, and no read mixes two secrets. -/
def OneSecret {n : Nat} (r : (machine args).Run n) : Prop :=
  (∀ j, j ≤ n → NoOverlap (r.state j)) ∧ ReadsOneSecret r

/--
A read takes `ctx->mutex` only while no write is in its section, and with a length
no greater than that of the secret now in the array; a write takes
`ctx->spinlock` only while `ctx->mutex` is free.
-/
def Apart (p : Pool Drv Call) (a : Nat × Env) : Prop :=
  match p.call a.1 with
  | .readOk _ secretLen =>
      (p.shared.spinlock.any fun d => inStore (p.call d)) = false ∧
        secretLen ≤ (cstr p.shared.ctx.oursecret).length
  | .writeFetched _ => p.shared.mutex = none
  | _ => True

instance : DecidableRel Apart := fun p a => by
  unfold Apart; split <;> infer_instance

/-! ### Who is in which section -/

section Sections

variable {c : Nat} {e : Env} {s s' : Drv} {l l' : Call}

/-- The copying section is entered from the checks. -/
theorem Move.enterCopy (h : Move args c e s l s' l') (hin : inCopy l' = true) :
    inCopy l = true ∨ ∃ count secretLen, l = .readOk count secretLen := by
  cases h with
  | copyLock count n => exact Or.inr ⟨count, n, rfl⟩
  | copyByte | copyFault | copyEnd | loadTx | addTx => exact Or.inl rfl
  | _ => cases hin

/-- The storing section is entered with the user's bytes at hand. -/
theorem Move.enterStore (h : Move args c e s l s' l') (hin : inStore l' = true) :
    inStore l = true ∨ ∃ kbuf, l = .writeFetched kbuf := by
  cases h with
  | storeLock kbuf => exact Or.inr ⟨kbuf, rfl⟩
  | storeNone | storeByte | storeLast | loadRx | addRx | testBuggy | testFine | sleep =>
      exact Or.inl rfl
  | _ => cases hin

theorem inStore_eq_false_of_inCopy (h : inCopy l = true) : inStore l = false := by
  cases l <;> first | rfl | cases h

theorem holdsSpin_of_inStore (h : inStore l = true) : holdsSpin l = true := by
  cases l <;> first | rfl | exact h

end Sections

/-- A call between `mutex_lock` and `mutex_unlock` has copied the array as it stands. -/
def Steady (secret : Buf) : Call → Prop
  | .readCopy _ secretLen got =>
      got = secret.take got.length ∧ secretLen ≤ (cstr secret).length
  | .readCopied secretLen ubuf =>
      ubuf = secret.take secretLen ∧ secretLen ≤ (cstr secret).length
  | _ => True

theorem steady_of_not_inCopy {secret : Buf} {l : Call} (h : inCopy l = false) :
    Steady secret l := by
  cases l <;> trivial

/-- The call that moves: each byte it copies is the next byte of the array. -/
theorem Move.steady {c : Nat} {e : Env} {p : Pool Drv Call} {s' : Drv} {l' : Call}
    (h : Move args c e p.shared (p.call c) s' l') (hsafe : Safe p) (hok : Apart p (c, e))
    (hst : Steady p.shared.ctx.oursecret (p.call c)) : Steady s'.ctx.oursecret l' := by
  have hb := (hsafe.each c).2
  unfold Apart at hok
  generalize p.call c = l at h hok hst hb
  generalize p.shared = s at h hok hst
  cases h with
  | copyLock count n => exact ⟨by simp, hok.2⟩
  | copyByte count n got hn hc hbyte =>
      refine ⟨?_, hst.2⟩
      rw [List.length_append, List.length_singleton, List.take_add_one, hbyte, ← hst.1]
      rfl
  | copyEnd count n got hn =>
      have hfull : got.length = n := Nat.le_antisymm hb.1 (Nat.le_of_not_lt hn)
      exact ⟨hfull ▸ hst.1, hst.2⟩
  | _ => trivial

/-- The sections stay apart, and the array stands still under every copy. -/
theorem apart_kept :
    Pool.Kept (step args) (fun p a => Apart p a ∧ Safe p) (fun _ => True)
      (fun _ s l => Steady s.ctx.oursecret l)
      fun _ l _ m => ¬ (inCopy l = true ∧ inStore m = true) where
  own p c e s' l' hinv hok hstep :=
    ⟨trivial, (move_of_step hstep).steady hok.2 hok.1 (hinv.each c)⟩
  others p c e s' l' d hinv hok hstep hne := by
    rcases (move_of_step hstep).secret with hkeep | hstore
    · rw [hkeep]
      exact hinv.each d
    · refine steady_of_not_inCopy ?_
      by_contra hcopy
      exact hinv.pair d c hne ⟨by simpa using hcopy, hstore⟩
  pair p c e s' l' d hinv hok hstep hne := by
    have hmove := move_of_step hstep
    obtain ⟨hapart, hsafe⟩ := hok
    have hlocks := (hsafe.each d).1
    unfold Apart at hapart
    refine ⟨fun ⟨hcopy, hstore⟩ => ?_, fun ⟨hcopy, hstore⟩ => ?_⟩
    · rcases hmove.enterCopy hcopy with hin | ⟨count, n, hplace⟩
      · exact hinv.pair c d (Ne.symm hne) ⟨hin, hstore⟩
      · -- the store in progress holds the spinlock, and the schedule rules that out
        simp only [hplace] at hapart
        have hown := hlocks.spin.mp (holdsSpin_of_inStore hstore)
        simp [hown, hstore] at hapart
    · rcases hmove.enterStore hstore with hin | ⟨kbuf, hplace⟩
      · exact hinv.pair d c hne ⟨hcopy, hin⟩
      · simp only [hplace] at hapart
        have hown := hlocks.mutex.mp hcopy
        rw [hapart] at hown
        simp at hown

/-- The two sections apart, and every copy steady. -/
abbrev Separated : Pool Drv Call → Prop :=
  Pool.Inv (fun _ => True) (fun _ s l => Steady s.ctx.oursecret l)
    fun _ l _ m => ¬ (inCopy l = true ∧ inStore m = true)

theorem inductive_separated : (machine args).Inductive (fun p a => Apart p a ∧ Safe p) Separated :=
  apart_kept.invariant (fun _ _ => trivial) (fun _ _ _ => trivial) fun _ _ hin => by cases hin.1

theorem separated_of_reachableBy {p : Pool Drv Call} (h : (machine args).ReachableBy Apart p) :
    Separated p :=
  inductive_separated.holds (h.assuming (inductive_safe _))

theorem Separated.noOverlap {p : Pool Drv Call} (h : Separated p) : NoOverlap p := by
  intro c d ⟨hcopy, hstore⟩
  by_cases hcd : c = d
  · subst hcd
    rw [inStore_eq_false_of_inCopy hcopy] at hstore
    cases hstore
  · exact h.pair c d hcd ⟨hcopy, hstore⟩

/-! ### What a read hands out -/

/-- The bytes a call that has copied successfully will hand out. -/
def handed : Call → Option Buf
  | .readCopied _ ubuf => some ubuf
  | .readTx _ ubuf _ => some ubuf
  | .readUnlock _ ret ubuf => if 0 ≤ ret then some ubuf else none
  | .stats _ (.read ret ubuf) => if 0 ≤ ret then some ubuf else none
  | .statsHeld (.read ret ubuf) => if 0 ≤ ret then some ubuf else none
  | .statsShown (.read ret ubuf) => if 0 ≤ ret then some ubuf else none
  | .ret (.read ret ubuf) => if 0 ≤ ret then some ubuf else none
  | _ => none

/-- They are settled when the last byte is copied. -/
theorem Move.handed {c : Nat} {e : Env} {s s' : Drv} {l l' : Call} {ubuf : Buf}
    (h : Move args c e s l s' l') (hout : handed l' = some ubuf) :
    handed l = some ubuf ∨ ∃ secretLen, l' = .readCopied secretLen ubuf := by
  cases h with
  | reject count n he =>
      have hneg := readChecks_neg he
      simp [Spin.handed, Int.not_le.mpr hneg] at hout
  | copyFault => simp [Spin.handed, EFAULT] at hout
  | copyEnd count n got => exact Or.inr ⟨n, by simpa [Spin.handed] using hout⟩
  | loadTx => exact Or.inl hout
  | addTx n u tx => exact Or.inl (by simpa [Spin.handed] using hout)
  | statsLock r => cases r <;> exact Or.inl hout
  | statsSkip showStats r => cases r <;> exact Or.inl hout
  | statsShow r => cases r <;> exact Or.inl hout
  | statsUnlock r => cases r <;> exact Or.inl hout
  | copyUnlock => exact Or.inl hout
  | _ => simp [Spin.handed] at hout

/-- **Under a schedule that keeps the sections apart no read mixes two secrets.** -/
theorem oneSecret {n : Nat} (r : (machine args).Run n) (hok : r.Meets Apart) : OneSecret r := by
  have hsep : ∀ j, j ≤ n → Separated (r.state j) := fun j hj =>
    separated_of_reachableBy (r.reachableBy hok j hj)
  refine ⟨fun j hj => (hsep j hj).noOverlap, ?_⟩
  intro c count i j ret ubuf hij hj hi hret hpos
  have hnot : ¬ handed ((r.state i).call c) = some ubuf := by rw [hi]; simp [handed]
  have hend : handed ((r.state j).call c) = some ubuf := by rw [hret]; simp [handed, hpos]
  obtain ⟨k, e, hik, hkj, -, hbefore, hafter, hstep⟩ :=
    Pool.exists_step (P := fun l => handed l = some ubuf) r hij hj hnot hend
  rcases (move_of_step hstep).handed hafter with hold | ⟨secretLen, hplace⟩
  · exact absurd hold hbefore
  · -- the moment is the end of the copy: the array has stood still since the lock was taken
    have hk1 : k + 1 ≤ n := Nat.le_trans hkj hj
    have hsteady := (hsep (k + 1) hk1).each c
    rw [hplace] at hsteady
    refine ⟨k + 1, Nat.le_succ_of_le hik, hkj, fun d => ?_, ?_⟩
    · by_contra hd
      exact (hsep (k + 1) hk1).noOverlap c d ⟨by rw [hplace]; rfl, by simpa using hd⟩
    · rw [hsteady.1]
      exact take_prefix_cstr hsteady.2

/-! ### Two runs -/

/-- The driver's data after init. -/
def drv0 : Drv :=
  { ctx := initCtx.getD ⟨0, 0, []⟩, mutex := none, spinlock := none, lock1 := none,
    ga := 0, gb := 1, buggy := 0 }

/-- The driver after init with no call under way. -/
def pool0 : Pool Drv Call := { shared := drv0, call := fun _ => .idle }

theorem machine_init : (machine args).init pool0 :=
  ⟨⟨by decide +kernel, rfl, rfl, rfl, rfl, rfl⟩, fun _ => rfl⟩

/-- Call `c` takes `k` steps, all of them going well. -/
def steps (c k : Nat) : List (Nat × Env) := List.replicate k (c, .run true)

/-- Call 1 stores `"abc"`, and after that call 0 reads. -/
def inTurn : List (Nat × Env) :=
  (1, .call (.write [97, 98, 99, 0])) :: steps 1 13 ++ (0, .call (.read 128)) :: steps 0 13

def inTurnRun : (machine fromLast).Run 28 :=
  .ofActs pool0 inTurn machine_init (by decide +kernel)

/--
Call 0 has measured `"initmsg"` when call 1 stores `"abcdefgh"`, and is still copying when
call 1 frees its buffer and returns.
-/
def measured : List (Nat × Env) :=
  (0, .call (.read 128)) :: steps 0 4 ++
    (1, .call (.write [97, 98, 99, 100, 101, 102, 103, 104, 0])) :: steps 1 16 ++ steps 0 4 ++
    steps 1 2 ++ steps 0 9

def measuredRun : (machine fromLast).Run 37 :=
  .ofActs pool0 measured machine_init (by decide +kernel)

/-- Call 0 has copied two bytes of `"initmsg"` when call 1 stores `"abcdefg"`. -/
def overlapping : List (Nat × Env) :=
  (0, .call (.read 128)) :: steps 0 7 ++
    (1, .call (.write [97, 98, 99, 100, 101, 102, 103, 0])) :: steps 1 12 ++ steps 0 10

def overlappingRun (args : FileOp → Arg) : (machine args).Run 31 :=
  .ofActs pool0 overlapping machine_init (by
    revert args
    decide +kernel)

/-- As many bytes as the old secret had, of the new one. -/
theorem oneSecret_measuredRun :
    OneSecret measuredRun ∧
      (measuredRun.state 37).call 0 = .ret (.read 7 [97, 98, 99, 100, 101, 102, 103]) :=
  ⟨oneSecret measuredRun (by unfold Machine.Run.Meets; decide +kernel), by decide +kernel⟩

theorem overlappingRun_overlaps (args : FileOp → Arg) :
    inCopy (((overlappingRun args).state 12).call 0) = true ∧
      inStore (((overlappingRun args).state 12).call 1) = true := by
  revert args
  decide +kernel

/-- Both sections are open at once, and the user gets `"incdefg"`. -/
theorem not_oneSecret : ¬ ∃ args, ∀ n (r : (machine args).Run n), OneSecret r := by
  intro h
  obtain ⟨args, h⟩ := h
  exact (h _ (overlappingRun args)).1 12 (by decide) 0 1 (overlappingRun_overlaps args)

end Lkp.Secret.Spin
