/-
A write, and what a read hands out afterwards.

From the store of a write on, and until another write stores something, the string in the
array is the front of the buffer written: the bytes before its first NUL, and of these one
less than `strscpy` is given room for (`front`).  What the array held before plays no
part, since `strlen` stops at the terminator.  So a later read hands out that string, or
is refused if it is empty, however many other calls are under way
(`readsBack`).
-/
import Lkp.Secret.Methods

namespace Lkp.Secret.Mutex

variable {args : FileOp → Arg}

/-- What is kept of a buffer that is written. -/
def front (ubuf : Buf) : Buf := cstr (ubuf.take (min ubuf.length maxBytes - 1))

/-- It is the longest prefix without a NUL of what `strscpy` has room for. -/
theorem prefix_front_iff {ubuf q : Buf} :
    q <+: front ubuf ↔ q <+: ubuf.take (min ubuf.length maxBytes - 1) ∧ (0 : UInt8) ∉ q := by
  constructor
  · intro h
    exact ⟨h.trans (prefix_cstr _), fun h0 => zero_notMem_cstr _ (h.mem h0)⟩
  · intro h
    exact prefix_cstr_of_prefix h.1 h.2

/-- The call of the write method has passed its store. -/
def Stored : Call → Prop
  | .writeFree _ | .writeRet _ => True
  | _ => False

instance : DecidablePred Stored := fun l =>
  decidable_of_bool (match l with | .writeFree _ | .writeRet _ => true | _ => false) <| by
    unfold Stored
    split <;> simp

/-- The call of the write method is at its store. -/
def Storing : Call → Prop
  | .writeFetched _ => True
  | _ => False

instance : DecidablePred Storing := fun l =>
  decidable_of_bool (match l with | .writeFetched _ => true | _ => false) <| by
    unfold Storing
    split <;> simp

/-- The call of the read method is at its `copy_to_user`. -/
def Copying : Call → Prop
  | .readOk _ _ => True
  | _ => False

instance : DecidablePred Copying := fun l =>
  decidable_of_bool (match l with | .readOk _ _ => true | _ => false) <| by
    unfold Copying
    split <;> simp

/--
In a run, call `w` writes `ubuf` with success; later call `d` is a read for `count` bytes,
and it returns.  No other write stores anything after `w` has, and `copy_to_user` does not
fail.
-/
structure WroteAndRead {n : Nat} (r : (machine args).Run n) (w d : Nat) (ubuf : Buf) (count : Nat)
    (ret : Int) (i j k m : Nat) : Prop where
  called : (r.state i).call w = .write ubuf
  written : (r.state j).call w = .writeRet ret
  success : 0 ≤ ret
  read : (r.state k).call d = .read count
  before : i ≤ j ∧ j ≤ k ∧ k ≤ m ∧ m ≤ n
  noWrite : ∀ t, t < m → Stored ((r.state t).call w) → ¬ Storing ((r.state t).call (r.act t).1)
  noFault : ∀ t, t < m → (r.act t).1 = d → Copying ((r.state t).call d) → (r.act t).2 = .run true

/-- What the read returns and hands out, and what it leaves alone. -/
structure ReadsFront {n : Nat} (r : (machine args).Run n) (d : Nat) (s : Buf) (k m : Nat)
    (ret : Int) (out : Buf) : Prop where
  whole : s ≠ [] → ret = s.length ∧ out = s
  refused : s = [] → ret = -EINVAL ∧ out = []
  /-- Nobody touches the secret, and a read that is refused does not touch `tx` either. -/
  secret : ∀ t, k ≤ t → t ≤ m →
    (r.state t).shared.ctx.oursecret = (r.state k).shared.ctx.oursecret
  tx : s = [] → ∀ t, k ≤ t → t < m → (r.act t).1 = d →
    (r.state (t + 1)).shared.ctx.tx = (r.state t).shared.ctx.tx

/-! ### The write -/

section Write

variable {e : Env} {s s' : Drv} {l l' : Call} {ubuf : Buf} {ret : Int}

/-- Where a call that writes `ubuf` may stand. -/
def Writes (ubuf : Buf) : Call → Prop
  | .write u | .writeKbuf _ u | .writeFetched u => u = ubuf
  | .writeFree _ | .writeRet _ | .oops => True
  | _ => False

theorem Move.writes (h : Move args e s l s' l') (hl : Writes ubuf l) : Writes ubuf l' := by
  cases h <;> first | exact hl | exact hl.elim | trivial

/-- A call that returns `ret`, or has returned it. -/
def Returning (ret : Int) : Call → Prop
  | .writeFree r | .writeRet r => r = ret
  | _ => False

theorem Move.returning (h : Move args e s l s' l') (hl : Returning ret l) : Returning ret l' := by
  cases h <;> first | exact hl | exact hl.elim

/-- A write passes its store by making it, or reports an error. -/
theorem Move.stored (h : Move args e s l s' l') (hl : Writes ubuf l) (hnot : ¬ Stored l)
    (hafter : Stored l') :
    (∃ x ret, writeStore ubuf s.ctx = some (x, ret) ∧ s'.ctx = x ∧ Returning ret l') ∨
      ∃ ret, ret < 0 ∧ Returning ret l' := by
  cases h with
  | noMem u => exact .inr ⟨_, by decide, rfl⟩
  | fault k u => exact .inr ⟨_, by decide, rfl⟩
  | store k hr =>
      obtain rfl : k = ubuf := hl
      exact .inl ⟨_, _, hr, rfl, rfl⟩
  | free ret => exact absurd trivial hnot
  | _ => exact hafter.elim

/-- Only a store changes the secret. -/
theorem Move.secret (h : Move args e s l s' l') (hnot : ¬ Storing l) :
    s'.ctx.oursecret = s.ctx.oursecret := by
  cases h with
  | update op => cases op <;> rfl
  | copy count n hr => exact (readCopy_spec hr).1
  | store k hr => exact absurd trivial hnot
  | _ => rfl

theorem Move.stored_stays (h : Move args e s l s' l') (hl : Stored l) : Stored l' := by
  cases h <;> trivial

theorem storeSize_eq (ubuf : Buf) : storeSize ubuf = min ubuf.length maxBytes := by
  unfold storeSize
  split <;> omega

/-- What a store leaves in the array. -/
theorem writeStore_front {x : DrvCtx} (hx : x.WF) {r : DrvCtx × Int} (hpos : 0 < ubuf.length)
    (hr : writeStore ubuf x = some r) : cstr r.1.oursecret = front ubuf := by
  rw [writeStore_cstr hx hpos hr, storeSize_eq, front]

end Write

/-! ### The read -/

section Read

variable {e : Env} {s s' : Drv} {l l' : Call} {ubuf : Buf} {count : Nat}

/-- Where a read may stand while the string in the array is `str`. -/
def ReadsOf (str : Buf) (count : Nat) : Call → Prop
  | .read c => c = count
  | .readLen c n => c = count ∧ n = str.length
  | .readOk c n => c = count ∧ n = str.length ∧ str ≠ []
  | .readRet ret out =>
      (str ≠ [] → ret = str.length ∧ out = str) ∧ (str = [] → ret = -EINVAL ∧ out = [])
  | _ => False

theorem Move.readsOf (h : Move args e s l s' l') (hwf : s.ctx.WF) (hcount : maxBytes ≤ count)
    (hl : ReadsOf (cstr s.ctx.oursecret) count l) (hok : Copying l → e = .run true) :
    ReadsOf (cstr s.ctx.oursecret) count l' := by
  cases h with
  | measure c hn => exact ⟨hl, (strlen_eq_some.mp hn).2.symm⟩
  | overrun c hn =>
      rw [hwf.strlen_eq] at hn
      cases hn
  | reject c n he =>
      obtain ⟨rfl, rfl⟩ := hl
      have hempty : cstr s.ctx.oursecret = [] := by
        by_contra hne
        rw [readChecks_eq_none.mpr ⟨hcount, List.length_pos_iff.mpr hne⟩] at he
        cases he
      exact ⟨fun hne => absurd hempty hne, fun _ => ⟨readChecks_eq_some he, rfl⟩⟩
  | pass c n hn =>
      obtain ⟨rfl, rfl⟩ := hl
      exact ⟨rfl, rfl, List.length_pos_iff.mp (readChecks_eq_none.mp hn).2⟩
  | copy c n hr =>
      obtain ⟨rfl, rfl, hne⟩ := hl
      cases hok trivial
      have hret := readCopy_ok hr
      rw [take_length_cstr] at hret
      rw [hret]
      exact ⟨fun _ => ⟨rfl, rfl⟩, fun hempty => absurd hempty hne⟩
  | copyOops c n hr =>
      obtain ⟨rfl, rfl, -⟩ := hl
      have hlen := hwf.length_cstr_lt
      obtain ⟨_, hr'⟩ := hwf.readCopy_isSome (hlen.le.trans hcount) hlen
      rw [hr'] at hr
      cases hr
  | _ => exact hl.elim

/-- With an empty string a read does nothing to the context. -/
theorem Move.tx_of_readsOf (h : Move args e s l s' l') (hl : ReadsOf [] count l) :
    s'.ctx.tx = s.ctx.tx := by
  cases h with
  | update op => exact hl.elim
  | copy c n hr => exact absurd rfl hl.2.2
  | store k hr => exact hl.elim
  | _ => rfl

end Read

/-! ### Both -/

section Runs

variable {n : Nat} {r : (machine args).Run n} {w d : Nat} {ubuf : Buf} {count : Nat} {ret : Int}
  {i j k m : Nat}

/-- What one step of the run is. -/
theorem move_of_run (r : (machine args).Run n) {t : Nat} (ht : t < n) :
    Move args (r.act t).2 (r.state t).shared ((r.state t).call (r.act t).1) (r.state (t + 1)).shared
      ((r.state (t + 1)).call (r.act t).1) := by
  exact move_of_step (Pool.step_of_run r ht)

theorem wf_of_run (r : (machine args).Run n) {t : Nat} (ht : t ≤ n) : (r.state t).shared.ctx.WF :=
  ((inductive_safe _).holds (r.reachable t ht)).shared

namespace WroteAndRead

/-- From some step of the write on, the array holds the front of the buffer. -/
theorem exists_store (h : WroteAndRead r w d ubuf count ret i j k m) (hpos : 0 < ubuf.length) :
    ∃ t, t < j ∧ Stored ((r.state (t + 1)).call w) ∧
      cstr (r.state (t + 1)).shared.ctx.oursecret = front ubuf := by
  obtain ⟨hij, hjk, hkm, hmn⟩ := h.before
  have hjn : j ≤ n := hjk.trans (hkm.trans hmn)
  have hnot : ¬ Stored ((r.state i).call w) := by
    rw [h.called]
    exact id
  have hend : Stored ((r.state j).call w) := by
    rw [h.written]
    trivial
  obtain ⟨t, e, hit, htj, -, hbefore, hafter, hstep⟩ :=
    Pool.exists_step (P := Stored) r hij hjn hnot hend
  have hmove := move_of_step hstep
  have hwrites : Writes ubuf ((r.state t).call w) := by
    refine Pool.stays (P := Writes ubuf) r hit (htj.le.trans hjn) ?_ ?_
    · intro e s l s' l' hs hl
      exact (move_of_step hs).writes hl
    · rw [h.called]
      rfl
  refine ⟨t, htj, hafter, ?_⟩
  rcases hmove.stored hwrites hbefore hafter with ⟨x, ret', hr, hx, -⟩ | ⟨ret', hneg, hret⟩
  · rw [hx]
    exact writeStore_front (wf_of_run r (htj.le.trans hjn)) hpos hr
  · have hsame : Returning ret' ((r.state j).call w) := by
      refine Pool.stays (P := Returning ret') r htj hjn ?_ hret
      intro e s l s' l' hs hl
      exact (move_of_step hs).returning hl
    rw [h.written] at hsame
    have hret : ret = ret' := hsame
    have hsuccess := h.success
    omega

/-- It holds the same bytes until the read has returned. -/
theorem secret_eq (h : WroteAndRead r w d ubuf count ret i j k m) {t u : Nat} (htu : t ≤ u)
    (hum : u ≤ m) (hstored : Stored ((r.state t).call w)) :
    (r.state u).shared.ctx.oursecret = (r.state t).shared.ctx.oursecret := by
  obtain ⟨-, -, -, hmn⟩ := h.before
  refine r.stays (P := fun p => p.shared.ctx.oursecret = (r.state t).shared.ctx.oursecret) htu
    (hum.trans hmn) (fun v htv hvu hv => ?_) rfl
  have hvm : v < m := Nat.lt_of_lt_of_le hvu hum
  have hpast : Stored ((r.state v).call w) := by
    refine Pool.stays (P := Stored) r htv (hvm.le.trans hmn) ?_ hstored
    intro e s l s' l' hs hl
    exact (move_of_step hs).stored_stays hl
  rw [(move_of_run r (Nat.lt_of_lt_of_le hvm hmn)).secret (h.noWrite v hvm hpast)]
  exact hv

/-- So the read stands where it may with that string in the array. -/
theorem readsOf (h : WroteAndRead r w d ubuf count ret i j k m) (hcount : maxBytes ≤ count)
    (hstr : ∀ t, k ≤ t → t ≤ m → cstr (r.state t).shared.ctx.oursecret = front ubuf) {t : Nat}
    (hkt : k ≤ t) (htm : t ≤ m) : ReadsOf (front ubuf) count ((r.state t).call d) := by
  obtain ⟨-, -, -, hmn⟩ := h.before
  refine r.stays (P := fun p => ReadsOf (front ubuf) count (p.call d)) hkt (htm.trans hmn)
    (fun v hkv hvt hv => ?_) ?_
  · have hvm : v < m := Nat.lt_of_lt_of_le hvt htm
    have hvn : v < n := Nat.lt_of_lt_of_le hvm hmn
    by_cases hmine : (r.act v).1 = d
    · have hmove := move_of_run r hvn
      rw [hmine] at hmove
      rw [← hstr v hkv hvm.le] at hv ⊢
      exact hmove.readsOf (wf_of_run r hvn.le) hcount hv (h.noFault v hvm hmine)
    · obtain ⟨l', -, hcall⟩ := Pool.machine_next.mp (r.step v hvn)
      rw [Pool.call_other hcall (Ne.symm hmine)]
      exact hv
  · rw [h.read]
    rfl

end WroteAndRead

/-- **A read hands out the front of what was last written**, or is refused if that is empty. -/
theorem readsBack (h : WroteAndRead r w d ubuf count ret i j k m) (hpos : 1 ≤ ubuf.length)
    (hcount : 128 ≤ count) {ret' : Int} {out : Buf}
    (hret : (r.state m).call d = .readRet ret' out) :
    ReadsFront r d (front ubuf) k m ret' out := by
  obtain ⟨hij, hjk, hkm, hmn⟩ := h.before
  obtain ⟨t₀, ht₀, hstored, hfront⟩ := h.exists_store hpos
  have hsame : ∀ t, k ≤ t → t ≤ m → (r.state t).shared.ctx.oursecret =
      (r.state (t₀ + 1)).shared.ctx.oursecret :=
    fun t hkt htm => h.secret_eq (by omega) htm hstored
  have hstr : ∀ t, k ≤ t → t ≤ m → cstr (r.state t).shared.ctx.oursecret = front ubuf := by
    intro t hkt htm
    rw [hsame t hkt htm, hfront]
  have hend := h.readsOf hcount hstr hkm (Nat.le_refl m)
  rw [hret] at hend
  refine ⟨hend.1, hend.2, fun t hkt htm => ?_, fun hempty t hkt htm hmine => ?_⟩
  · rw [hsame t hkt htm, hsame k (Nat.le_refl k) hkm]
  · have hreads := h.readsOf hcount hstr hkt htm.le
    rw [hempty] at hreads
    have hmove := move_of_run r (Nat.lt_of_lt_of_le htm hmn)
    rw [hmine] at hmove
    exact hmove.tx_of_readsOf hreads

end Runs

/-- From every reachable state a write and then a read, both alone, get there. -/
theorem exec_writeRead {p : Pool Drv Call} (hp : (machine args).Reachable p) {w d : Nat}
    (hne : d ≠ w) (hw : p.call w = .idle) (hd : p.call d = .idle) {ubuf : Buf} {count : Nat}
    (hpos : 1 ≤ ubuf.length) (hlen : ubuf.length ≤ maxRwCount) (hcount : maxBytes ≤ count) :
    ∃ as p', (machine args).exec p as = some p' ∧ p'.call w = .writeRet ubuf.length ∧
      p'.call d = if front ubuf = [] then .readRet (-EINVAL) []
        else .readRet (front ubuf).length (front ubuf) := by
  have hwf : p.shared.ctx.WF := ((inductive_safe _).holds hp).shared
  obtain ⟨⟨x, ret⟩, hstore⟩ := hwf.writeStore_isSome ubuf
  have hx : x.WF := hwf.writeStore hstore
  have hfront : cstr x.oursecret = front ubuf := writeStore_front hwf hpos hstore
  have hret : ret = ubuf.length := by
    obtain ⟨t, -, ht⟩ := Option.map_eq_some_iff.mp hstore
    simp only [Prod.mk.injEq] at ht
    rw [← ht.2, toInt_of_lt (Nat.lt_of_le_of_lt hlen (by decide))]
  have hwrite : writeMiscdrvRdwr ubuf true true p.shared.ctx = some (x, ret) := hstore
  obtain ⟨oks, hexec⟩ := exec_write hw hwrite
  have hidle : (settle p w x (.writeRet ret)).call d = .idle := by
    simp [settle, hne, hd]
  have hread : ∃ r, readMiscdrvRdwr count true x = some r ∧ Call.readRet r.2.1 r.2.2 =
      if front ubuf = [] then .readRet (-EINVAL) []
        else .readRet (front ubuf).length (front ubuf) := by
    by_cases hempty : front ubuf = []
    · refine ⟨_, readMiscdrvRdwr_empty hx (hfront.trans hempty), ?_⟩
      rw [if_pos hempty]
    · have hlong : 0 < (cstr x.oursecret).length := by
        rw [hfront]
        exact List.length_pos_iff.mpr hempty
      refine ⟨_, readMiscdrvRdwr_eq hx hcount hlong, ?_⟩
      rw [if_neg hempty, hfront]
  obtain ⟨r, hr, hplace⟩ := hread
  obtain ⟨steps, hexec'⟩ := exec_read hidle hr
  refine ⟨_, _, Machine.exec_trans hexec hexec', ?_, ?_⟩
  · simp [settle, hne.symm, hret]
  · simp [settle, hplace]

/-- Call 0 writes `ubuf`, and then call 1 reads. -/
def writeRead (ubuf : Buf) : List (Nat × Env) :=
  [(0, .call (.write ubuf)), (0, .run true), (0, .run true), (0, .run true), (0, .run true),
   (1, .call (.read 128)), (1, .run true), (1, .run true), (1, .run true)]

/-- The string written has a NUL inside. -/
def writeReadRun : (machine fromLast).Run 9 :=
  .ofActs pool0 (writeRead [97, 98, 0, 99]) machine_init (by decide +kernel)

theorem readsBack_ab : ReadsFront writeReadRun 1 (front [97, 98, 0, 99]) 6 9 2 [97, 98] := by
  have h : WroteAndRead writeReadRun 0 1 [97, 98, 0, 99] 128 4 1 5 6 9 := by
    refine ⟨by decide +kernel, by decide +kernel, by decide, by decide +kernel, by decide, ?_, ?_⟩
    · decide +kernel
    · decide +kernel
  exact readsBack h (by decide) (by decide) (by decide +kernel)

end Lkp.Secret.Mutex
