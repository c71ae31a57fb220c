/-
The secret driver that guards its context with one mutex.

Each mutex-protected section is one step: the mutex gives exactly that.  What is
not protected — the gap between the two sections of the read method, and between
a call's own preparations and its section — is where other calls come in, so
those are the places (`Call`) a call can rest at.

The read method measures the string in one section and copies it in another.
`ReadsWholeSecret` asks that a successful read hands out the whole string as it
stood at one moment of the call.  A writer in between that changes the length
breaks it (`not_readsWholeSecret`); in every run where the string a read copies
has the length it measured, the law holds (`readsWholeSecret`).
-/
import Lkp.Secret.Context
import Lkp.Concurrency.Pool

namespace Lkp.Secret.Mutex

/-- The driver's data: the context, and the two integers under `lock1`. -/
structure Drv where
  ctx : DrvCtx
  ga : BitVec 32
  gb : BitVec 32
  deriving DecidableEq

/-- The load of one of the two integers. -/
def Drv.load (s : Drv) : Arg → BitVec 32
  | .ga => s.ga
  | .gb => s.gb

/-- What the world answers: a new call, or whether an allocation or user copy succeeds. -/
inductive Env
  | call (m : Method)
  | run (ok : Bool)
  deriving DecidableEq

instance : Inhabited Env := ⟨.run true⟩

/-- Where a call has got to. -/
inductive Call
  | idle
  /-- `open_miscdrv_rdwr` or `close_miscdrv_rdwr` entered. -/
  | file (op : FileOp)
  /-- The locked update is made; `dev_info` has yet to load its arguments. -/
  | fileDone (op : FileOp)
  /-- `dev_info` has loaded its first argument. -/
  | fileArg (op : FileOp) (x : Arg) (v : BitVec 32)
  /-- `ga` and `gb` are loaded and reported, the call returned 0. -/
  | fileRet (op : FileOp) (a b : BitVec 32)
  /-- `read_miscdrv_rdwr` entered. -/
  | read (count : Nat)
  /-- The string is measured. -/
  | readLen (count secretLen : Nat)
  /-- Both checks are passed; the copying section comes next. -/
  | readOk (count secretLen : Nat)
  | readRet (ret : Int) (ubuf : Buf)
  /-- `write_miscdrv_rdwr` entered. -/
  | write (ubuf : Buf)
  /-- `kbuf` is allocated and zeroed. -/
  | writeKbuf (kbuf ubuf : Buf)
  /-- `kbuf` holds the user's bytes; the storing section comes next. -/
  | writeFetched (kbuf : Buf)
  /-- At `out_cfu`: `kbuf` is still to be freed. -/
  | writeFree (ret : Int)
  | writeRet (ret : Int)
  /-- A section left the buffers it was given. -/
  | oops
  deriving DecidableEq

/-- `ga++; gb--` and `ga--; gb++`. -/
def update (op : FileOp) (s : Drv) : Drv :=
  match op with
  | .opening => { s with ga := s.ga + 1, gb := s.gb - 1 }
  | .closing => { s with ga := s.ga - 1, gb := s.gb + 1 }

/-- The methods, one step at a time; `dev_info` loads the argument `args op` first. -/
def step (args : FileOp → Arg) : CallStep Drv Call Env := fun _ e s l =>
  match l, e with
  | .idle, .call (.file op) => some (s, .file op)
  | .idle, .call (.read count) => some (s, .read count)
  | .idle, .call (.write ubuf) => some (s, .write ubuf)
  | .file op, .run _ => some (update op s, .fileDone op)
  | .fileDone op, .run _ => some (s, .fileArg op (args op) (s.load (args op)))
  | .fileArg op .ga a, .run _ => some (s, .fileRet op a s.gb)
  | .fileArg op .gb b, .run _ => some (s, .fileRet op s.ga b)
  | .read count, .run _ =>
      match strlen s.ctx.oursecret with
      | some secretLen => some (s, .readLen count secretLen)
      | none => some (s, .oops)
  | .readLen count secretLen, .run _ =>
      match readChecks count secretLen with
      | some ret => some (s, .readRet ret [])
      | none => some (s, .readOk count secretLen)
  | .readOk count secretLen, .run ok =>
      match readCopy count secretLen ok s.ctx with
      | some r => some ({ s with ctx := r.1 }, .readRet r.2.1 r.2.2)
      | none => some (s, .oops)
  | .write ubuf, .run ok =>
      if ok then some (s, .writeKbuf (List.replicate ubuf.length 0) ubuf)
      else some (s, .writeRet (-ENOMEM))
  | .writeKbuf _ ubuf, .run ok =>
      if ok then some (s, .writeFetched ubuf) else some (s, .writeFree (-EFAULT))
  | .writeFetched kbuf, .run _ =>
      match writeStore kbuf s.ctx with
      | some r => some ({ s with ctx := r.1 }, .writeFree r.2)
      | none => some (s, .oops)
  | .writeFree ret, .run _ => some (s, .writeRet ret)
  | _, _ => none

/-- The driver after init, and any calls of its methods from then on. -/
def machine (args : FileOp → Arg) : Machine (Pool Drv Call) (Nat × Env) :=
  Pool.machine (fun s => initCtx = some s.ctx ∧ s.ga = 0 ∧ s.gb = 1) .idle (step args)

/-! ### What one step can do -/

/-- The steps of a call, one constructor for each way out of a place. -/
inductive Move (args : FileOp → Arg) : Env → Drv → Call → Drv → Call → Prop
  | callFile {s} (op) : Move args (.call (.file op)) s .idle s (.file op)
  | callRead {s} (count) : Move args (.call (.read count)) s .idle s (.read count)
  | callWrite {s} (ubuf) : Move args (.call (.write ubuf)) s .idle s (.write ubuf)
  | update {s ok} (op) : Move args (.run ok) s (.file op) (update op s) (.fileDone op)
  | loadArg {s ok} (op) :
      Move args (.run ok) s (.fileDone op) s (.fileArg op (args op) (s.load (args op)))
  | loadGb {s ok} (op a) : Move args (.run ok) s (.fileArg op .ga a) s (.fileRet op a s.gb)
  | loadGa {s ok} (op b) : Move args (.run ok) s (.fileArg op .gb b) s (.fileRet op s.ga b)
  | measure {s ok} (count) {n} (h : strlen s.ctx.oursecret = some n) :
      Move args (.run ok) s (.read count) s (.readLen count n)
  | overrun {s ok} (count) (h : strlen s.ctx.oursecret = none) :
      Move args (.run ok) s (.read count) s .oops
  | reject {s ok} (count n) {e} (h : readChecks count n = some e) :
      Move args (.run ok) s (.readLen count n) s (.readRet e [])
  | pass {s ok} (count n) (h : readChecks count n = none) :
      Move args (.run ok) s (.readLen count n) s (.readOk count n)
  | copy {s ok} (count n) {r} (h : readCopy count n ok s.ctx = some r) :
      Move args (.run ok) s (.readOk count n) { s with ctx := r.1 } (.readRet r.2.1 r.2.2)
  | copyOops {s ok} (count n) (h : readCopy count n ok s.ctx = none) :
      Move args (.run ok) s (.readOk count n) s .oops
  | alloc {s} (ubuf) :
      Move args (.run true) s (.write ubuf) s (.writeKbuf (List.replicate ubuf.length 0) ubuf)
  | noMem {s} (ubuf) : Move args (.run false) s (.write ubuf) s (.writeRet (-ENOMEM))
  | fetch {s} (kbuf ubuf) : Move args (.run true) s (.writeKbuf kbuf ubuf) s (.writeFetched ubuf)
  | fault {s} (kbuf ubuf) : Move args (.run false) s (.writeKbuf kbuf ubuf) s (.writeFree (-EFAULT))
  | store {s ok} (kbuf) {r} (h : writeStore kbuf s.ctx = some r) :
      Move args (.run ok) s (.writeFetched kbuf) { s with ctx := r.1 } (.writeFree r.2)
  | storeOops {s ok} (kbuf) (h : writeStore kbuf s.ctx = none) :
      Move args (.run ok) s (.writeFetched kbuf) s .oops
  | free {s ok} (ret) : Move args (.run ok) s (.writeFree ret) s (.writeRet ret)

variable {args : FileOp → Arg}

theorem move_of_step {c : Nat} {e : Env} {s s' : Drv} {l l' : Call}
    (h : step args c e s l = some (s', l')) : Move args e s l s' l' := by
  unfold step at h
  split at h
  case h_8 =>
    split at h <;> cases h
    · exact .measure _ ‹_›
    · exact .overrun _ ‹_›
  case h_9 =>
    split at h <;> cases h
    · exact .reject _ _ ‹_›
    · exact .pass _ _ ‹_›
  case h_10 =>
    split at h <;> cases h
    · exact .copy _ _ ‹_›
    · exact .copyOops _ _ ‹_›
  case h_11 ok =>
    cases ok <;> cases h
    · exact .noMem _
    · exact .alloc _
  case h_12 ok =>
    cases ok <;> cases h
    · exact .fault _ _
    · exact .fetch _ _
  case h_13 =>
    split at h <;> cases h
    · exact .store _ ‹_›
    · exact .storeOops _ ‹_›
  all_goals cases h
  all_goals constructor

/-! ### The invariant

Every section keeps the context well formed, so a length measured in one section
fits any later one: it is below `MAXBYTES`, and the checks have made sure that
the user's buffer holds `MAXBYTES`.
-/

/-- What a call has established where it stands. -/
def Holds : Call → Prop
  | .readLen _ secretLen => secretLen < maxBytes
  | .readOk count secretLen => 0 < secretLen ∧ secretLen < maxBytes ∧ maxBytes ≤ count
  | .oops => False
  | _ => True

theorem holds_idle : Holds .idle := trivial

/-- One step keeps the context well formed and establishes what the call's new place asks. -/
theorem move_holds {e : Env} {s s' : Drv} {l l' : Call} (h : Move args e s l s' l')
    (hwf : s.ctx.WF) (hl : Holds l) : s'.ctx.WF ∧ Holds l' := by
  cases h with
  | update op => cases op <;> exact ⟨hwf, trivial⟩
  | measure count hn =>
      obtain ⟨-, rfl⟩ := strlen_eq_some.mp hn
      exact ⟨hwf, hwf.length_cstr_lt⟩
  | overrun count hn =>
      rw [hwf.strlen_eq] at hn
      simp at hn
  | pass count n hn =>
      obtain ⟨hcount, hpos⟩ := readChecks_eq_none.mp hn
      exact ⟨hwf, hpos, hl, hcount⟩
  | copy count n hr => exact ⟨readCopy_wf hwf hr, trivial⟩
  | copyOops count n hr =>
      obtain ⟨-, hlen, hcount⟩ := hl
      obtain ⟨r, hr'⟩ := hwf.readCopy_isSome (Nat.le_trans hlen.le hcount) hlen
      rw [hr'] at hr
      simp at hr
  | store kbuf hr => exact ⟨hwf.writeStore hr, trivial⟩
  | storeOops kbuf hr =>
      obtain ⟨r, hr'⟩ := hwf.writeStore_isSome kbuf
      rw [hr'] at hr
      simp at hr
  | _ => exact ⟨hwf, trivial⟩

/-- Nothing one call does can undo what another has established. -/
theorem kept (ok : Pool Drv Call → Nat × Env → Prop) :
    Pool.Kept (step args) ok (fun s => s.ctx.WF) (fun _ _ l => Holds l) fun _ _ _ _ => True where
  own _ c _ _ _ hinv _ hstep := move_holds (move_of_step hstep) hinv.shared (hinv.each c)
  others _ _ _ _ _ d hinv _ _ _ := hinv.each d
  pair _ _ _ _ _ _ _ _ _ _ := ⟨trivial, trivial⟩

/-- The context is well formed, and every call is where it may be. -/
abbrev Safe : Pool Drv Call → Prop :=
  Pool.Inv (fun s => s.ctx.WF) (fun _ _ l => Holds l) fun _ _ _ _ => True

theorem inductive_safe (ok : Pool Drv Call → Nat × Env → Prop) :
    (machine args).Inductive ok Safe :=
  (kept ok).invariant (fun _ hs => initCtx_wf hs.1) (fun _ _ _ => holds_idle) fun _ _ => trivial

/-! ### Whole secrets

The mutex is dropped between the section that measures and the section that
copies, so a read copies as many bytes as *some* earlier secret had.  Whether
that is a whole string depends only on whether the string it finds at the copy
still has that length.
-/

/-- A read that returns success has just run its copying section. -/
theorem move_readRet {e : Env} {s s' : Drv} {l : Call} {ret : Int} {ubuf : Buf}
    (h : Move args e s l s' (.readRet ret ubuf)) (hret : 0 ≤ ret) :
    ∃ count secretLen, l = .readOk count secretLen ∧
      ubuf = s.ctx.oursecret.take secretLen := by
  generalize hl' : Call.readRet ret ubuf = l' at h
  cases h with
  | reject count n he =>
      simp only [Call.readRet.injEq] at hl'
      have := readChecks_neg he
      omega
  | copy count n hr =>
      simp only [Call.readRet.injEq] at hl'
      obtain ⟨rfl, rfl⟩ := hl'
      exact ⟨count, n, rfl, ((readCopy_spec hr).2 hret).2⟩
  | _ => simp at hl'

/--
Every successful read hands out the whole string the context held at one moment
between its call and its return.
-/
def ReadsWholeSecret {n : Nat} (r : (machine args).Run n) : Prop :=
  ∀ c count i j ret ubuf, i ≤ j → j ≤ n → (r.state i).call c = .read count →
    (r.state j).call c = .readRet ret ubuf → 0 ≤ ret →
    (∃ k, i ≤ k ∧ k ≤ j ∧ ubuf = cstr (r.state k).shared.ctx.oursecret) ∧ (0 : UInt8) ∉ ubuf

/-- Where a read enters its copying section, the string has the length it measured. -/
def LengthKept (p : Pool Drv Call) (a : Nat × Env) : Prop :=
  match p.call a.1 with
  | .readOk _ secretLen => strlen p.shared.ctx.oursecret = some secretLen
  | _ => True

instance : DecidableRel LengthKept := fun p a => by
  unfold LengthKept; split <;> infer_instance

/-- **Reads hand out whole secrets in every run that keeps the measured length.** -/
theorem readsWholeSecret {n : Nat} (r : (machine args).Run n) (hkeep : r.Meets LengthKept) :
    ReadsWholeSecret r := by
  intro c count i j ret ubuf hij hj hi hret hpos
  have hnot : ¬ ((r.state i).call c = .readRet ret ubuf) := by rw [hi]; simp
  obtain ⟨k, e, hik, hkj, hact, -, hafter, hstep⟩ :=
    Pool.exists_step (P := fun l => l = .readRet ret ubuf) r hij hj hnot hret
  rw [hafter] at hstep
  obtain ⟨cnt, secretLen, hplace, hbytes⟩ := move_readRet (move_of_step hstep) hpos
  -- the moment is the copy itself: nothing moves while the section runs
  have hkept := hkeep k (Nat.lt_of_lt_of_le hkj hj)
  simp only [LengthKept, hact, hplace] at hkept
  obtain ⟨-, hlen⟩ := strlen_eq_some.mp hkept
  have hwhole : ubuf = cstr (r.state k).shared.ctx.oursecret := by
    rw [hbytes, ← hlen, take_length_cstr]
  exact ⟨⟨k, hik, hkj.le, hwhole⟩, hwhole ▸ zero_notMem_cstr _⟩

/-! ### Two runs

Both interleave a write with a read between the read's two sections.
-/

/-- The driver's data after init. -/
def drv0 : Drv := { ctx := initCtx.getD ⟨0, 0, []⟩, ga := 0, gb := 1 }

/-- The driver after init with no call under way. -/
def pool0 : Pool Drv Call := { shared := drv0, call := fun _ => .idle }

theorem machine_init : (machine args).init pool0 :=
  ⟨⟨by decide +kernel, rfl, rfl⟩, fun _ => rfl⟩

/-- Call 0 measures `"initmsg"`, call 1 stores `secret`, call 0 copies seven bytes. -/
def overtaken (secret : Buf) : List (Nat × Env) :=
  [(0, .call (.read 128)), (0, .run true), (0, .run true),
   (1, .call (.write secret)), (1, .run true), (1, .run true), (1, .run true),
   (0, .run true)]

/-- The secret stored in between has the length of the one it replaces. -/
def evenRun : (machine fromLast).Run 8 :=
  .ofActs pool0 (overtaken [97, 98, 99, 100, 101, 102, 103, 0]) machine_init (by decide +kernel)

/-- The secret stored in between is `"a"`. -/
def staleRun (args : FileOp → Arg) : (machine args).Run 8 :=
  .ofActs pool0 (overtaken [97, 0]) machine_init (by
    revert args
    decide +kernel)

theorem readsWholeSecret_evenRun :
    ReadsWholeSecret evenRun ∧
      (evenRun.state 8).call 0 = .readRet 7 [97, 98, 99, 100, 101, 102, 103] :=
  ⟨readsWholeSecret evenRun (by unfold Machine.Run.Meets; decide +kernel), by decide +kernel⟩

theorem staleRun_reads (args : FileOp → Arg) :
    ((staleRun args).state 1).call 0 = .read 128 ∧
      ((staleRun args).state 8).call 0 = .readRet 7 [97, 0, 105, 116, 109, 115, 103] := by
  revert args
  decide +kernel

/-- The user gets `"a"`, its terminator, and the tail of the secret before it. -/
theorem not_readsWholeSecret :
    ¬ ∃ args, ∀ n (r : (machine args).Run n), ReadsWholeSecret r := by
  intro h
  obtain ⟨args, h⟩ := h
  obtain ⟨hread, hret⟩ := staleRun_reads args
  have hwhole := h _ (staleRun args) 0 128 1 8 7 _ (by decide) (by decide) hread hret (by decide)
  exact hwhole.2 (by decide)

end Lkp.Secret.Mutex
