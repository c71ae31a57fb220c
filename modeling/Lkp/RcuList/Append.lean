/-
Appending with no `freelist` about.

An insertion counts from its third store on, the one that makes the old tail point
to the new node; the list changes nowhere else.  The order of the list is that in
which `writelock` was taken because whoever takes it publishes its node before
anyone takes it again, and the three nodes of one write stand as its calls were
made because one call of `add2tail` returns before the next begins.

A call that could not allocate leaves nothing behind.
-/
import Lkp.RcuList.Shape
import Mathlib.Data.List.ReduceOption

namespace Lkp.RcuList

/-! ### Reading a place -/

/-- In `freelist`. -/
def inFreelist : Call → Bool
  | .free => true
  | .freeSync => true
  | .freeWait _ => true
  | .freeLock => true
  | .freeFirst => true
  | .freeAt _ => true
  | .freeKfree _ => true
  | .freeNext _ => true
  | .freeRet => true
  | .freeOops => true
  | _ => false

/-- What the calls of `add2tail` of one write have returned so far. -/
def retsOf : Call → Rets
  | .write _ rets => rets
  | .add _ rets _ => rets
  | .addNew _ rets _ _ => rets
  | .addLock _ rets _ => rets
  | .addLink _ rets _ => rets
  | .addBack _ rets _ _ => rets
  | .addPublish _ rets _ _ => rets
  | .addTail _ rets _ => rets
  | .addUnlock _ rets _ => rets
  | .writeRet _ rets => rets
  | _ => []

/-- The node of an `add2tail` that is in the list already and has yet to return. -/
def aboutToReturn : Call → Option Nat
  | .addTail _ _ new => some new
  | .addUnlock _ _ new => some new
  | _ => none

/-- The nodes one write has put into the list, in the order of its calls. -/
def published (l : Call) : List Nat := (retsOf l ++ [aboutToReturn l]).reduceOption

/-- The node holds the arguments of call number `k` of `add2tail` in a write. -/
def HoldsArgs (s : Drv) (k x : Nat) : Prop :=
  ∃ clock nd, addArgs clock k = some nd ∧ s.heap.obj x = some nd

/-- `freelist` is not called. -/
def NoFreelist (_ : Pool Drv Call) (a : Nat × Env) : Prop := a.2 ≠ .free

instance (p : Pool Drv Call) (a : Nat × Env) : Decidable (NoFreelist p a) := by
  unfold NoFreelist; infer_instance

theorem published_of_rets {l : Call} {x : Nat} (h : some x ∈ retsOf l) : x ∈ published l :=
  List.reduceOption_mem_iff.mpr (List.mem_append_left _ h)

theorem published_concat (rets : Rets) (x : Option Nat) :
    ((rets ++ [x]) ++ [none]).reduceOption = (rets ++ [x]).reduceOption := by
  rw [List.reduceOption_append]
  exact List.append_nil _

/-- A write makes three calls of `add2tail`. -/
theorem addArgs_isSome (clock : BitVec 64 × BitVec 64) (k : Nat) :
    (addArgs clock k).isSome ↔ k < 3 := by
  rcases k with _ | _ | _ | k
  · simp [addArgs]
  · simp [addArgs]
  · simp [addArgs]
  · simp [addArgs]

/-! ### The invariant -/

/-- The list against the order of the lock. -/
structure Ordered (s : Drv) : Prop where
  base : s.base <+: s.order
  free : s.writelock = none → s.order = s.base ++ s.took

/-- The arguments with which the call of `add2tail` under way was made. -/
def Args (s : Drv) : Call → Prop
  | .write _ rets => rets.length ≤ 3
  | .writeRet _ rets => rets.length = 3
  | .add _ rets nd => ∃ clock, addArgs clock rets.length = some nd
  | .addNew _ rets nd _ => ∃ clock, addArgs clock rets.length = some nd
  | .addLock _ rets new => HoldsArgs s rets.length new
  | .addLink _ rets new => HoldsArgs s rets.length new
  | .addBack _ rets new _ => HoldsArgs s rets.length new
  | .addPublish _ rets new _ => HoldsArgs s rets.length new
  | .addTail _ rets new => HoldsArgs s rets.length new
  | .addUnlock _ rets new => HoldsArgs s rets.length new
  | _ => True

/-- What one call has contributed to the list. -/
structure Wrote (s : Drv) (l : Call) : Prop where
  outside : inFreelist l = false
  /-- Under the lock, only the node on its way is missing. -/
  order : holdsLock l = true → s.order ++ (newOf l).toList = s.base ++ s.took
  inList : (published l).Sublist s.order
  added : ∀ x ∈ published l, x ∉ s.base
  data : ∀ k x, (retsOf l)[k]? = some (some x) → HoldsArgs s k x
  args : Args s l

/-- Two writes have put different nodes into the list. -/
def Separate (l m : Call) : Prop := ∀ x ∈ published l, x ∉ published m

section Steps

variable {c d : Nat} {e : Env} {s s' : Drv} {l l' m : Call}

/-- Without such a call nobody gets into `freelist`. -/
theorem outside_of_step (h : step c e s l = some (s', l')) (he : e ≠ .free)
    (hl : inFreelist l = false) : inFreelist l' = false := by
  have hmove := move_of_step h
  cases hmove with
  | callFree =>
      cases e with
      | walk w => cases h
      | write count => cases h
      | free => exact absurd rfl he
      | run ok clock => cases h
  | freeEmpty | freeSome | sync | synced | freeLock | freeFirst | freeEnd | del | delOops | kfree
  | freeAdvance => cases hl
  | _ => rfl

/-- What a step does to the list: nothing, or the new node goes to its end. -/
theorem Move.published (h : Move c s l s' l') (hl : inFreelist l = false) :
    (published l' = published l ∧ s'.order = s.order) ∨
      ∃ new, newOf l = some new ∧ published l' = published l ++ [new] ∧
        s'.order = s.order ++ [new] := by
  cases h with
  | publish count rets new tail =>
      refine Or.inr ⟨new, rfl, ?_, rfl⟩
      show (rets ++ [some new]).reduceOption = (rets ++ [none]).reduceOption ++ [new]
      rw [List.reduceOption_append, List.reduceOption_append]
      simp
  | noMem count rets nd => exact Or.inl ⟨published_concat rets none, rfl⟩
  | unlock count rets new => exact Or.inl ⟨published_concat rets (some new), rfl⟩
  | del => cases hl
  | _ => exact Or.inl ⟨rfl, rfl⟩

theorem Move.base (h : Move c s l s' l') : s'.base = s.base := by
  cases h <;> rfl

/-- The list only ever grows, at its end. -/
theorem Move.order_grows (h : Move c s l s' l') (hl : inFreelist l = false) :
    s.order <+: s'.order := by
  rcases h.published hl with ⟨-, horder⟩ | ⟨new, -, -, horder⟩
  · rw [horder]
  · exact ⟨[new], horder.symm⟩

/-- An object stays as it is, unless a call fills in its own new node. -/
theorem Move.keepsObj (h : Move c s l s' l') (hS : Shape s) (hl : inFreelist l = false) {x : Nat}
    {nd : Node} (hx : s.heap.obj x = some nd) (hnew : newOf l ≠ some x) :
    s'.heap.obj x = some nd := by
  cases h with
  | alloc count rets nd' => exact (Heap.alloc_of_lt (hS.heap.lt hx)).trans hx
  | fill count rets nd' new =>
      have hne : x ≠ new := by
        intro heq
        subst heq
        exact hnew rfl
      exact (Heap.store_of_ne hne).trans hx
  | kfree curr => cases hl
  | _ => exact hx

theorem Move.keepsArgs (h : Move c s l s' l') (hS : Shape s) (hl : inFreelist l = false)
    {k x : Nat} (hx : HoldsArgs s k x) (hnew : newOf l ≠ some x) : HoldsArgs s' k x := by
  obtain ⟨clock, nd, hargs, hobj⟩ := hx
  exact ⟨clock, nd, hargs, h.keepsObj hS hl hobj hnew⟩

/-- A node of the list is nobody's new node. -/
theorem Placed.new_ne (hl : Placed c s l) {x : Nat} (hx : x ∈ s.order) : newOf l ≠ some x := by
  intro hnew
  obtain ⟨-, hmem, -⟩ := hl.new x hnew
  exact hmem (List.mem_cons_of_mem _ hx)

/-- The list after one step. -/
theorem Move.ordered (h : Move c s l s' l') (hG : Ordered s) (hp : Placed c s l)
    (hl : Wrote s l) : Ordered s' where
  base := by
    rw [h.base]
    exact hG.base.trans (h.order_grows hl.outside)
  free hlock := by
    cases h with
    | lock | freeLock => cases hlock
    | publish count rets new tail =>
        have hheld : s.writelock = some c := hp.lock.mp rfl
        exact absurd (hheld.symm.trans hlock) nofun
    | unlock count rets new =>
        have horder := hl.order rfl
        rw [show newOf (.addUnlock count rets new) = none from rfl] at horder
        simpa using horder
    | freeEnd | del => cases hl.outside
    | _ => exact hG.free hlock

/-- The call that moves, under the lock. -/
theorem Move.lockedOrder (h : Move c s l s' l') (hG : Ordered s) (hl : Wrote s l)
    (hlock : holdsLock l' = true) : s'.order ++ (newOf l').toList = s'.base ++ s'.took := by
  cases h with
  | lock count rets new hfree =>
      show s.order ++ [new] = s.base ++ (s.took ++ [new])
      rw [hG.free hfree, List.append_assoc]
  | publish count rets new tail =>
      show (s.order ++ [new]) ++ [] = s.base ++ s.took
      rw [List.append_nil]
      exact hl.order rfl
  | link | back | tail => exact hl.order rfl
  | freeLock | freeFirst | del | delOops | kfree | freeAdvance => cases hl.outside
  | _ => cases hlock

/-- The call that moves, its returned calls of `add2tail`. -/
theorem Move.data (h : Move c s l s' l') (hS : Shape s) (hp : Placed c s l) (hl : Wrote s l) :
    ∀ k x, (retsOf l')[k]? = some (some x) → HoldsArgs s' k x := by
  have hkeep : ∀ k x, (retsOf l)[k]? = some (some x) → HoldsArgs s' k x := by
    intro k x hx
    have hmem : x ∈ s.order :=
      hl.inList.subset (published_of_rets (List.mem_of_getElem? hx))
    exact h.keepsArgs hS hl.outside (hl.data k x hx) (hp.new_ne hmem)
  intro k x hx
  cases h with
  | noMem count rets nd =>
      have hx : (rets ++ [none])[k]? = some (some x) := hx
      by_cases hk : k < rets.length
      · exact hkeep k x ((List.getElem?_append_left hk).symm.trans hx)
      · rw [List.getElem?_append_right (Nat.le_of_not_lt hk)] at hx
        have hin := List.mem_of_getElem? hx
        simp at hin
  | unlock count rets new =>
      have hx : (rets ++ [some new])[k]? = some (some x) := hx
      by_cases hk : k < rets.length
      · exact hkeep k x ((List.getElem?_append_left hk).symm.trans hx)
      · -- the call that returns here
        obtain ⟨hlen, -⟩ := List.getElem?_eq_some_iff.mp hx
        have hlast : k = rets.length := by
          rw [List.length_append] at hlen
          exact Nat.le_antisymm (Nat.le_of_lt_succ hlen) (Nat.le_of_not_lt hk)
        subst hlast
        rw [List.getElem?_concat_length] at hx
        cases hx
        exact hl.args
  | callWalk | callWrite | callFree => cases hx
  | _ => exact hkeep k x hx

/-- The call that moves, its call of `add2tail` under way. -/
theorem Move.args (h : Move c s l s' l') (hl : Wrote s l) : Args s' l' := by
  have hargs := hl.args
  cases h with
  | callWrite count => exact Nat.zero_le 3
  | callAdd count rets clock hsome => exact ⟨clock, hsome⟩
  | writeEnd count rets clock hnone =>
      refine Nat.le_antisymm hargs (Nat.le_of_not_lt fun hlt => ?_)
      rw [← addArgs_isSome clock, hnone] at hlt
      cases hlt
  | alloc => exact hargs
  | noMem count rets nd =>
      obtain ⟨clock, hsome⟩ := hargs
      show (rets ++ [none]).length ≤ 3
      rw [List.length_append]
      exact (addArgs_isSome clock _).mp (Option.isSome_of_eq_some hsome)
  | fill count rets nd new =>
      obtain ⟨clock, hsome⟩ := hargs
      exact ⟨clock, nd, hsome, Heap.store_self⟩
  | lock | link | back | publish | tail => exact hargs
  | unlock count rets new =>
      obtain ⟨clock, nd, hsome, -⟩ := hargs
      show (rets ++ [some new]).length ≤ 3
      rw [List.length_append]
      exact (addArgs_isSome clock _).mp (Option.isSome_of_eq_some hsome)
  | _ => trivial

/-- The call that moves. -/
theorem Move.wrote (h : Move c s l s' l') (hG : Ordered s) (hS : Shape s) (hp : Placed c s l)
    (hl : Wrote s l) (hout : inFreelist l' = false) : Wrote s' l' where
  outside := hout
  order := h.lockedOrder hG hl
  inList := by
    rcases h.published hl.outside with ⟨hpub, horder⟩ | ⟨new, -, hpub, horder⟩
    · rw [hpub, horder]
      exact hl.inList
    · rw [hpub, horder]
      exact hl.inList.append (List.Sublist.refl _)
  added x hx := by
    rw [h.base]
    rcases h.published hl.outside with ⟨hpub, -⟩ | ⟨new, hnew, hpub, -⟩
    · exact hl.added x (hpub ▸ hx)
    · rw [hpub] at hx
      rcases List.mem_append.mp hx with hold | hlast
      · exact hl.added x hold
      · rw [List.mem_singleton.mp hlast]
        exact fun hbase => hp.new_ne (hG.base.subset hbase) hnew
  data := h.data hS hp hl
  args := h.args hl

/-- A call that stands still, its call of `add2tail` under way. -/
theorem Move.args_other (h : Move c s l s' l') (hS : Shape s) (hp : Placed c s l)
    (hl : inFreelist l = false) (hm : Wrote s m)
    (hdistinct : ∀ x, newOf l = some x → newOf m ≠ some x) : Args s' m := by
  have hkeep : ∀ k x, newOf m = some x ∨ aboutToReturn m = some x →
      HoldsArgs s k x → HoldsArgs s' k x := by
    intro k x hx hargs
    refine h.keepsArgs hS hl hargs ?_
    rcases hx with hnew | hret
    · exact fun hsame => hdistinct x hsame hnew
    · refine hp.new_ne (hm.inList.subset ?_)
      exact List.reduceOption_mem_iff.mpr (by simp [hret])
  have hargs := hm.args
  cases m with
  | addLock count rets new => exact hkeep _ _ (Or.inl rfl) hargs
  | addLink count rets new => exact hkeep _ _ (Or.inl rfl) hargs
  | addBack count rets new tail => exact hkeep _ _ (Or.inl rfl) hargs
  | addPublish count rets new tail => exact hkeep _ _ (Or.inl rfl) hargs
  | addTail count rets new => exact hkeep _ _ (Or.inr rfl) hargs
  | addUnlock count rets new => exact hkeep _ _ (Or.inr rfl) hargs
  | _ => exact hargs

/-- A call that stands still. -/
theorem Move.wrote_other (h : Move c s l s' l') (hS : Shape s) (hp : Placed c s l)
    (hl : inFreelist l = false) (hq : Placed d s m) (hm : Wrote s m) (hne : d ≠ c)
    (hdistinct : ∀ x, newOf l = some x → newOf m ≠ some x) : Wrote s' m where
  outside := hm.outside
  order hlock := by
    have hheld : s.writelock = some d := hq.lock.mp hlock
    cases h with
    | lock count rets new hfree =>
        rw [hheld] at hfree
        cases hfree
    | publish count rets new tail =>
        have hother : s.writelock = some c := hp.lock.mp rfl
        exact absurd (Option.some.inj (hheld.symm.trans hother)) hne
    | del => cases hl
    | _ => exact hm.order hlock
  inList := hm.inList.trans (h.order_grows hl).sublist
  added := by
    rw [h.base]
    exact hm.added
  data k x hx := by
    have hmem : x ∈ s.order :=
      hm.inList.subset (published_of_rets (List.mem_of_getElem? hx))
    exact h.keepsArgs hS hl (hm.data k x hx) (hp.new_ne hmem)
  args := h.args_other hS hp hl hm hdistinct

/-- A node just published is in nobody else's writes. -/
theorem Move.separate (h : Move c s l s' l') (hp : Placed c s l) (hl : inFreelist l = false)
    (hm : Wrote s m) (hd : Separate l m) : Separate l' m := by
  intro x hx
  rcases h.published hl with ⟨hpub, -⟩ | ⟨new, hnew, hpub, -⟩
  · exact hd x (hpub ▸ hx)
  · rw [hpub] at hx
    rcases List.mem_append.mp hx with hold | hlast
    · exact hd x hold
    · rw [List.mem_singleton.mp hlast]
      exact fun hmem => hp.new_ne (hm.inList.subset hmem) hnew

theorem Separate.symm (h : Separate l m) : Separate m l := fun x hx hx' => h x hx' hx

end Steps

/-! ### Every run without `freelist` -/

/-- The list, each write, and each two writes. -/
abbrev Appending : Pool Drv Call → Prop :=
  Pool.Inv Ordered (fun _ s l => Wrote s l) fun _ l _ m => Separate l m

theorem appending_kept :
    Pool.Kept step (fun p a => NoFreelist p a ∧ Safe p) Ordered (fun _ s l => Wrote s l)
      fun _ l _ m => Separate l m where
  own p c e s' l' hinv hok hstep := by
    have hmove := move_of_step hstep
    have hl := hinv.each c
    have hp := hok.2.each c
    exact ⟨hmove.ordered hinv.shared hp hl,
      hmove.wrote hinv.shared hok.2.shared hp hl (outside_of_step hstep hok.1 hl.outside)⟩
  others p c e s' l' d hinv hok hstep hne :=
    (move_of_step hstep).wrote_other hok.2.shared (hok.2.each c) (hinv.each c).outside
      (hok.2.each d) (hinv.each d) hne (hok.2.pair c d hne.symm).new
  pair p c e s' l' d hinv hok hstep hne := by
    have hseparate := (move_of_step hstep).separate (hok.2.each c) (hinv.each c).outside
      (hinv.each d) (hinv.pair c d hne.symm)
    exact ⟨hseparate, hseparate.symm⟩

theorem inductive_appending :
    machine.Inductive (fun p a => NoFreelist p a ∧ Safe p) Appending := by
  refine appending_kept.invariant (fun s hs => ?_) (fun s _ hs => ?_) fun _ _ => nofun
  · refine ⟨hs.base ▸ List.prefix_rfl, fun _ => ?_⟩
    rw [hs.base, hs.took, List.append_nil]
  · exact
      { outside := rfl
        order := nofun
        inList := List.nil_sublist _
        added := nofun
        data := nofun
        args := trivial }

/-- Every node of the list was there at the start or has been put there by a write. -/
def Accounted (p : Pool Drv Call) : Prop :=
  ∀ x ∈ p.shared.order, x ∈ p.shared.base ∨ ∃ c, x ∈ published (p.call c)

theorem inductive_accounted :
    machine.Inductive (fun p a => NoFreelist p a ∧ Safe p ∧ Appending p) Accounted where
  init := by
    rintro p ⟨hs, -⟩ x hx
    exact Or.inl (hs.base ▸ hx)
  step := by
    rintro p ⟨c, e⟩ p' hacc ⟨-, -, happ⟩ hnext x hx
    obtain ⟨l', hstep, hcall⟩ := Pool.machine_next.mp hnext
    have hmove := move_of_step hstep
    have hself : p'.call c = l' := Pool.call_self hcall
    rw [hmove.base]
    -- a node accounted for stays so, whoever moves
    have hold : x ∈ p.shared.order → (∀ y ∈ published (p.call c), y ∈ published l') →
        x ∈ p.shared.base ∨ ∃ d, x ∈ published (p'.call d) := by
      intro hin hsub
      refine (hacc x hin).imp_right ?_
      intro hex
      obtain ⟨d, hd⟩ := hex
      refine ⟨d, ?_⟩
      by_cases hdc : d = c
      · subst hdc
        rw [hself]
        exact hsub x hd
      · rw [Pool.call_other hcall hdc]
        exact hd
    rcases hmove.published (happ.each c).outside with ⟨hpub, horder⟩ | ⟨new, -, hpub, horder⟩
    · rw [horder] at hx
      exact hold hx fun y hy => hpub ▸ hy
    · rw [horder] at hx
      rcases List.mem_append.mp hx with hin | hlast
      · exact hold hin fun y hy => hpub ▸ List.mem_append_left _ hy
      · refine Or.inr ⟨c, ?_⟩
        rw [hself, hpub]
        exact List.mem_append_right _ hlast

end Lkp.RcuList
