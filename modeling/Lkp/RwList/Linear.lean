/-
Writes and traversals of the list take effect one at a time.

A call of `add2tail` takes effect with the last of its four stores, and a traversal with the
moment it lets go of the lock, or with `list_empty`.  So, whichever way the calls are
interleaved, the list is at each moment what the calls of `add2tail` up to then have made
of it, one after another, and a traversal shows it as it was at one such moment while the
traversal was under way (`linearizable`).  The nodes have the arguments with which these calls
were made, the third of a write those made from `jiffies` in that very step (`Called`).

A write keeps no lock between its three calls, and other writes can come in between.
-/
import Lkp.RwList.Shape
import Lkp.RwList.Alone

namespace Lkp.RwList

/-! ### What a write has contributed -/

/-- The node of an `add2tail` that is on the list already and has yet to return. -/
def aboutToReturn : Call → Option Nat
  | .addUnlock _ _ new => some new
  | _ => none

/-- The calls of `add2tail` of one write that have put a node on the list, with the node. -/
def done (l : Call) : List (Nat × Nat) := numbered (retsOf l ++ [aboutToReturn l])

/-- A node with the arguments of a call of `add2tail` of that number. -/
def Genuine (en : Entry) : Prop := ∃ clock, addArgs clock en.index = some en.data

/-- The arguments of the call of `add2tail` under way, until its node is on the list. -/
def argsOf (s : Drv) : Call → Option Node
  | .add _ _ nd | .addNew _ _ nd _ => some nd
  | .addLock _ _ new | .addHead _ _ new | .addLink _ _ new _ | .addBack _ _ new _
  | .addTail _ _ new _ => s.heap.obj new
  | _ => none

/-- How many calls of `add2tail` a write has made. -/
def Counts : Call → Prop
  | .write _ rets => rets.length ≤ 3
  | .writeRet _ rets => rets.length = 3
  | .addUnlock _ rets _ => rets.length < 3
  | _ => True

/-- What one call has put on the list, and is about to. -/
structure Wrote (c : Nat) (s : Drv) (hist : List Entry) (l : Call) : Prop where
  own : ofCall c hist = done l
  counts : Counts l
  args : ∀ nd, argsOf s l = some nd → ∃ clock, addArgs clock (retsOf l).length = some nd

section Steps

variable {c d : Nat} {s s' : Drv} {l l' m : Call} {hist : List Entry}

theorem addArgs_lt {clock : BitVec 64 × BitVec 64} {k : Nat} {nd : Node}
    (h : addArgs clock k = some nd) : k < 3 :=
  (addArgs_isSome clock k).mp (Option.isSome_of_eq_some h)

/-- What a call has contributed changes with what the list gains. -/
theorem Move.own (h : Move c s l s' l') (hp : Placed c s hist l) (hl : ofCall c hist = done l) :
    ofCall c (RwList.record c s l hist) = done l' := by
  rcases h.record hp with hrec | ⟨count, rets, new, tail, nd, rfl, rfl, -, -, hrec⟩
  · rw [hrec, hl]
    cases h with
    | publish count rets new tail =>
        obtain ⟨⟨nd, hobj⟩, -⟩ := hp.new new rfl
        rw [record_addTail hobj] at hrec
        exact absurd hrec (by simp)
    | noMem => exact numbered_concat_none.symm
    | unlock => exact numbered_concat_none.symm
    | _ => rfl
  · rw [hrec, ofCall_concat_self, hl]
    show numbered (rets ++ [none]) ++ [(rets.length, new)] = numbered (rets ++ [some new])
    rw [numbered_concat_none, numbered_concat_some]

/-- A call of `add2tail` keeps its arguments, from where they are made. -/
theorem Move.argsOf (h : Move c s l s' l') {nd : Node} (hargs : argsOf s' l' = some nd) :
    (RwList.argsOf s l = some nd ∧ retsOf l' = retsOf l) ∨
      (∃ count, l = .write count (retsOf l')) ∧
        ∃ clock, addArgs clock (retsOf l').length = some nd := by
  cases h with
  | callAdd count rets clock hsome =>
      cases hargs
      exact Or.inr ⟨⟨count, rfl⟩, clock, hsome⟩
  | fill count rets nd' new =>
      have hstored : some nd' = some nd := Heap.store_self.symm.trans hargs
      exact Or.inl ⟨hstored, rfl⟩
  | alloc | writeLock | headPrev | link | back => exact Or.inl ⟨hargs, rfl⟩
  | _ => cases hargs

/-- The call that moves. -/
theorem Move.counts (h : Move c s l s' l') (hp : Placed c s hist l) (hl : Wrote c s hist l) :
    Counts l' := by
  have hlt : ∀ nd, RwList.argsOf s l = some nd → (retsOf l).length < 3 := by
    intro nd hnd
    obtain ⟨clock, hsome⟩ := hl.args nd hnd
    exact addArgs_lt hsome
  cases h with
  | callWrite count => exact Nat.zero_le 3
  | writeEnd count rets clock hnone =>
      refine Nat.le_antisymm hl.counts (Nat.le_of_not_lt fun hless => ?_)
      rw [← addArgs_isSome clock, hnone] at hless
      cases hless
  | noMem count rets nd =>
      show (rets ++ [none]).length ≤ 3
      rw [List.length_append]
      exact hlt nd rfl
  | publish count rets new tail =>
      obtain ⟨⟨nd, hobj⟩, -⟩ := hp.new new rfl
      exact hlt nd hobj
  | unlock count rets new =>
      show (rets ++ [some new]).length ≤ 3
      rw [List.length_append]
      exact hl.counts
  | _ => trivial

theorem Move.wrote (h : Move c s l s' l') (hp : Placed c s hist l) (hl : Wrote c s hist l) :
    Wrote c s' (RwList.record c s l hist) l' where
  own := h.own hp hl.own
  counts := h.counts hp hl
  args nd hnd := by
    rcases h.argsOf hnd with ⟨hargs, hrets⟩ | ⟨-, hsome⟩
    · rw [hrets]
      exact hl.args nd hargs
    · exact hsome

/-- The arguments of a call that stands still. -/
theorem Move.argsOf_other (h : Move c s l s' l') (hS : Shape s hist) (hq : Placed d s hist m)
    (hlm : Apart l m) : RwList.argsOf s' m = RwList.argsOf s m := by
  have hkeep : ∀ x, newOf m = some x → s'.heap.obj x = s.heap.obj x := by
    intro x hx
    obtain ⟨⟨nd, hobj⟩, -⟩ := hq.new x hx
    rw [hobj]
    exact h.keepsObj hS hobj fun hsame => hlm x hsame hx
  cases m with
  | addLock count rets new | addHead count rets new | addLink count rets new tail
  | addBack count rets new tail | addTail count rets new tail => exact hkeep new rfl
  | _ => rfl

/-- A call that stands still. -/
theorem Move.wrote_other (h : Move c s l s' l') (hS : Shape s hist) (hp : Placed c s hist l)
    (hq : Placed d s hist m) (hne : d ≠ c) (hlm : Apart l m) (hm : Wrote d s hist m) :
    Wrote d s' (RwList.record c s l hist) m where
  own := by
    rcases h.record hp with hrec | ⟨count, rets, new, tail, nd, rfl, -, -, -, hrec⟩
    · rw [hrec]
      exact hm.own
    · rw [hrec, ofCall_concat_other hne.symm]
      exact hm.own
  counts := hm.counts
  args nd hnd := hm.args nd ((h.argsOf_other hS hq hlm).symm.trans hnd)

/-- What the list gains has the arguments it should have. -/
theorem Move.genuine (h : Move c s l s' l') (hp : Placed c s hist l) (hl : Wrote c s hist l)
    (hhist : ∀ en ∈ hist, Genuine en) : ∀ en ∈ RwList.record c s l hist, Genuine en := by
  rcases h.record hp with hrec | ⟨count, rets, new, tail, nd, rfl, -, -, hobj, hrec⟩
  · rw [hrec]
    exact hhist
  · rw [hrec]
    intro en hen
    rcases List.mem_append.mp hen with hold | hlast
    · exact hhist en hold
    · obtain rfl := List.mem_singleton.mp hlast
      exact hl.args nd hobj

/-- What `jiffies` was when a call of `add2tail` was made is in the arguments. -/
theorem answer_of_step {e : Env} {count : Nat} {rets : Rets} {nd : Node}
    (h : step c e s (.write count rets) = some (s', l')) (hargs : argsOf s' l' = some nd) :
    ∃ ok clock, e = .run ok clock ∧ addArgs clock rets.length = some nd := by
  cases e with
  | run ok clock =>
      cases hnd : addArgs clock rets.length with
      | some nd' =>
          rw [step_write, hnd] at h
          cases h
          cases hargs
          exact ⟨ok, clock, rfl, hnd⟩
      | none =>
          rw [step_write, hnd] at h
          cases h
          cases hargs
  | _ => cases h

end Steps

/-! ### Every run without `freelist` -/

/-- The nodes of the list, and each write. -/
abbrev Written : Pool (Drv × List Entry) Call → Prop :=
  Pool.Inv (fun s => ∀ en ∈ s.2, Genuine en) (fun c s l => Wrote c s.1 s.2 l) fun _ _ _ _ => True

theorem inductive_written :
    recorder.Inductive (fun p a => Pool.unrecorded NoFreelist p a ∧ Safe p) Written := by
  have hkept : Pool.Kept (Pool.recording record step)
      (fun p a => Pool.unrecorded NoFreelist p a ∧ Safe p) (fun s => ∀ en ∈ s.2, Genuine en)
      (fun c s l => Wrote c s.1 s.2 l) fun _ _ _ _ => True := by
    refine ⟨fun p c e s' l' hinv hok hstep => ?_, fun p c e s' l' d hinv hok hstep hne => ?_,
      fun _ _ _ _ _ _ _ _ _ _ => ⟨trivial, trivial⟩⟩
    · obtain ⟨hmove, hrec⟩ := move_of_recording hok.2 hok.1 hstep
      rw [hrec]
      have hp := hok.2.each c
      exact ⟨hmove.genuine hp (hinv.each c) hinv.shared, hmove.wrote hp (hinv.each c)⟩
    · obtain ⟨hmove, hrec⟩ := move_of_recording hok.2 hok.1 hstep
      rw [hrec]
      exact hmove.wrote_other hok.2.shared (hok.2.each c) (hok.2.each d) hne
        (hok.2.pair c d hne.symm) (hinv.each d)
  refine hkept.invariant (fun s hs => ?_) (fun s c hs => ?_) fun _ _ => trivial
  · rw [hs.2]
    exact nofun
  · rw [hs.2]
    exact ⟨rfl, trivial, nofun⟩

/-- Both, in one. -/
theorem inductive_both :
    recorder.Inductive (Pool.unrecorded NoFreelist) fun p => Safe p ∧ Written p where
  init p hp := ⟨inductive_safe.init p hp, inductive_written.init p hp⟩
  step p a p' hinv hok hnext :=
    ⟨inductive_safe.step p a p' hinv.1 hok hnext,
      inductive_written.step p a p' hinv.2 ⟨hok, hinv.1⟩ hnext⟩

/-! ### One at a time -/

/-- What the calls of `add2tail` have made of the list, along a run. -/
def history {n : Nat} (r : machine.Run n) : Nat → List Entry := Pool.recorded record [] r

/-- The list is what `hist` says, and `hist` is what the calls have made of it. -/
structure Accounts (p : Pool Drv Call) (hist : List Entry) : Prop where
  linked : p.shared.Linked head (cells hist)
  settled : p.shared.rwlock.writer = none → p.shared.Lists head (cells hist)
  /-- From each write there are the nodes its calls of `add2tail` have returned 0 for, or are
  about to, once each and in their order, and no others. -/
  calls : ∀ c, ofCall c hist = done (p.call c)
  three : ∀ c count rets, p.call c = .writeRet count rets → rets.length = 3

/--
Before moment `i` write `c` made its call `k` of `add2tail` with the arguments `nd`, made from
the `jiffies` of that step.
-/
def Called {n : Nat} (r : machine.Run n) (i c k : Nat) (nd : Node) : Prop :=
  ∃ t count rets ok clock, t < i ∧ r.act t = (c, .run ok clock) ∧
    (r.state t).call c = .write count rets ∧ rets.length = k ∧ addArgs clock k = some nd

/-- Each call takes effect in one of its own steps, and traversals show what there is. -/
structure Linear {n : Nat} (r : machine.Run n) : Prop where
  list : ∀ i, i ≤ n → Accounts (r.state i) (history r i)
  grows : ∀ i, i < n → history r (i + 1) = history r i ∨
    ∃ en, en.call = (r.act i).1 ∧ history r (i + 1) = history r i ++ [en]
  /-- Each node has the arguments of the call of `add2tail` it comes from. -/
  called : ∀ i, i ≤ n → ∀ en ∈ history r i, Called r i en.call en.index en.data
  noOops : ∀ i, i ≤ n → ∀ c, (r.state i).call c ≠ .walkOops
  walks : ∀ i j c w seen, i ≤ j → j ≤ n → (r.state i).call c = .walk w →
    (r.state j).call c = .walkRet w seen → ∃ k, i ≤ k ∧ k < j ∧ seen = cells (history r k)

theorem accounts_of_inv {p : Pool Drv Call} {hist : List Entry}
    (hsafe : Safe (Pool.withRecord p hist)) (hwritten : Written (Pool.withRecord p hist)) :
    Accounts p hist where
  linked := hsafe.shared.linked
  settled hfree := hsafe.shared.linked.lists (hsafe.shared.free hfree)
  calls c := (hwritten.each c).own
  three c count rets hret := by
    have hcounts : Counts (p.call c) := (hwritten.each c).counts
    rw [hret] at hcounts
    exact hcounts

section Calls

variable {n i c k : Nat} {nd : Node} {r : machine.Run n}

theorem Called.later (h : Called r i c k nd) : Called r (i + 1) c k nd := by
  obtain ⟨t, count, rets, ok, clock, ht, hcall⟩ := h
  exact ⟨t, count, rets, ok, clock, Nat.lt_succ_of_lt ht, hcall⟩

/-- The call of `add2tail` a write is in was made with the arguments it has. -/
theorem called_of_argsOf (hok : r.Meets NoFreelist)
    (hsafe : ∀ i, i ≤ n → Safe (Pool.withRecord (r.state i) (history r i))) (hi : i ≤ n)
    (hargs : argsOf (r.state i).shared ((r.state i).call c) = some nd) :
    Called r i c (retsOf ((r.state i).call c)).length nd := by
  induction i generalizing c with
  | zero =>
      rw [r.start.2 c] at hargs
      cases hargs
  | succ i ih =>
      have hin := hsafe i (Nat.le_of_succ_le hi)
      obtain ⟨l', hstep, hcall⟩ := Pool.machine_next.mp (r.step i hi)
      have hmove := move_of_step hstep (hok i hi) (hin.each (r.act i).1).outside
      by_cases hc : c = (r.act i).1
      · subst hc
        rw [Pool.call_self hcall] at hargs ⊢
        rcases hmove.argsOf hargs with ⟨hbefore, hrets⟩ | ⟨⟨count, hwrite⟩, -⟩
        · rw [hrets]
          exact (ih (Nat.le_of_succ_le hi) hbefore).later
        · -- the step that makes the call
          rw [hwrite] at hstep
          obtain ⟨ok, clock, hact, hsome⟩ := answer_of_step hstep hargs
          exact ⟨i, count, _, ok, clock, Nat.lt_succ_self i, by rw [← hact], hwrite, rfl, hsome⟩
      · rw [Pool.call_other hcall hc] at hargs ⊢
        have hsame := hmove.argsOf_other hin.shared (hin.each c) (hin.pair _ c (Ne.symm hc))
        exact (ih (Nat.le_of_succ_le hi) (hsame.symm.trans hargs)).later

/-- So were those whose nodes are on the list. -/
theorem called_of_mem (hok : r.Meets NoFreelist)
    (hsafe : ∀ i, i ≤ n → Safe (Pool.withRecord (r.state i) (history r i))) (hi : i ≤ n) :
    ∀ en ∈ history r i, Called r i en.call en.index en.data := by
  induction i with
  | zero => exact nofun
  | succ i ih =>
      have hin := hsafe i (Nat.le_of_succ_le hi)
      have hp : Placed _ _ _ ((r.state i).call (r.act i).1) := hin.each (r.act i).1
      have hold : ∀ en ∈ history r i, Called r (i + 1) en.call en.index en.data :=
        fun en hen => (ih (Nat.le_of_succ_le hi) en hen).later
      have hmove := move_of_step (Pool.step_of_run r hi) (hok i hi) hp.outside
      rcases hmove.record hp with hrec | ⟨count, rets, new, tail, nd, hcall, -, -, hobj, hrec⟩
      · have hsame : history r (i + 1) = history r i := hrec
        rw [hsame]
        exact hold
      · have hmore : history r (i + 1) = history r i ++ [_] := hrec
        rw [hmore]
        intro en hen
        rcases List.mem_append.mp hen with hmem | hlast
        · exact hold en hmem
        · obtain rfl := List.mem_singleton.mp hlast
          have hargs : argsOf (r.state i).shared ((r.state i).call (r.act i).1) = some nd := by
            rw [hcall]
            exact hobj
          have hcalled := called_of_argsOf hok hsafe (Nat.le_of_succ_le hi) hargs
          rw [hcall] at hcalled
          exact hcalled.later

end Calls

/-- The step with which a traversal returns finds the list as it was shown. -/
theorem Move.shows {c : Nat} {s s' : Drv} {l l' : Call} {hist : List Entry} {w : Walk}
    {seen : Seen} (h : Move c s l s' l') (hS : Shape s hist) (hl : Placed c s hist l)
    (hbefore : l ≠ .walkRet w seen) (hafter : l' = .walkRet w seen) : seen = cells hist := by
  cases h with
  | walkEmpty w' hempty =>
      cases hafter
      exact (hS.linked.eq_nil hempty).symm
  | readUnlock w' seen' =>
      cases hafter
      exact hS.linked.walked_all hl.place
  | _ => cases hafter

/--
**Writes and traversals take effect one at a time**: the list grows by the nodes of the calls
of `add2tail`, in each call's own time, and every traversal shows it whole as it was at one
moment between its start and its end.
-/
theorem linearizable {n : Nat} (r : machine.Run n) (hok : r.Meets NoFreelist) : Linear r := by
  have hinv := Pool.inductive_recorded inductive_both r hok
  have hsafe : ∀ i, i ≤ n → Safe (Pool.withRecord (r.state i) (history r i)) :=
    fun i hi => (hinv i hi).1
  refine ⟨fun i hi => ?_, fun i hi => ?_, fun i hi => called_of_mem hok hsafe hi,
    fun i hi c hoops => ?_, fun i j c w seen hij hj hstart hend => ?_⟩
  · exact accounts_of_inv (hinv i hi).1 (hinv i hi).2
  · have hp := (hinv i hi.le).1.each (r.act i).1
    have hmove := move_of_step (Pool.step_of_run r hi) (hok i hi) hp.outside
    rcases hmove.record hp with hrec | ⟨_, _, _, _, _, -, -, -, -, hrec⟩
    · exact Or.inl hrec
    · exact Or.inr ⟨_, rfl, hrec⟩
  · have hplace : At _ _ ((r.state i).call c) := ((hinv i hi).1.each c).place
    rw [hoops] at hplace
    exact hplace
  · have hnot : (r.state i).call c ≠ .walkRet w seen := by
      rw [hstart]
      exact nofun
    obtain ⟨k, e, hik, hkj, hact, hbefore, hafter, hstep⟩ :=
      Pool.exists_step (P := fun l => l = .walkRet w seen) r hij hj hnot hend
    have hkn : k < n := Nat.lt_of_lt_of_le hkj hj
    have hp := (hinv k hkn.le).1.each c
    have hfree := hok k hkn
    rw [hact] at hfree
    exact ⟨k, hik, hkj, (move_of_step hstep hfree hp.outside).shows (hinv k hkn.le).1.shared hp
      hbefore hafter⟩

instance : Inhabited Env := ⟨.run true (0, 0)⟩

/-- Call `c` takes `k` steps, all of them going well. -/
def steps (c k : Nat) : List (Nat × Env) := List.replicate k (c, .run true (0, 0))

/-- Call 0 writes and has no memory for its second node; call 1 reads after the first. -/
def side : List (Nat × Env) :=
  (0, .write 5) :: steps 0 8 ++ (1, .walk (.show 128)) :: steps 1 1 ++ steps 0 1 ++ steps 1 2 ++
    steps 0 1 ++ (0, .run false (0, 0)) :: steps 0 3 ++ steps 1 3 ++ steps 0 7

def sideRun : machine.Run 29 := .ofActs pool0 side machine_init (by decide +kernel)

theorem sideRun_noFreelist : sideRun.Meets NoFreelist := by
  have hacts : ∀ i, i < 29 → (sideRun.act i).2 ≠ .free := by decide +kernel
  exact hacts

theorem linearizable_sideRun : Linear sideRun ∧
    (sideRun.state 29).call 0 = .writeRet 5 [some 1, none, some 2] ∧
      (sideRun.state 29).call 1 =
        .walkRet (.show 128) [(1, { ival1 := 1, ival2 := 2, letter := 82 })] :=
  ⟨linearizable sideRun sideRun_noFreelist, by decide +kernel, by decide +kernel⟩

end Lkp.RwList
