/-
The list under a reader-writer lock, any number of calls at once.

The lock keeps writers apart from each other and from traversals, so that what an
insertion leaves unfinished between its stores can be said of the place it has got to, and
a traversal finds the list standing still (`At`).  Nodes are allocated and filled in
without the lock: they are not on the list yet.

What the list has come to is remembered with where its nodes come from (`Entry`): the
write that made the call of `add2tail`, and which of its calls that was.

All this is without `freelist`, which takes no lock.
-/
import Lkp.RwList.Driver
import Lkp.Concurrency.Additions
import Lkp.Concurrency.History
import Lkp.Memory.Linking

namespace Lkp.RwList

/-! ### The calls without `freelist` -/

/-- The calls of the two methods, from the loading of the module. -/
def machine : Machine (Pool Drv Call) (Nat × Env) := Pool.machine (· = loaded) .idle step

/-- Nobody has called anything yet. -/
def pool0 : Pool Drv Call := { shared := loaded, call := fun _ => .idle }

theorem machine_init : machine.init pool0 := ⟨rfl, fun _ => rfl⟩

/-- `freelist` is not called. -/
def NoFreelist (_ : Pool Drv Call) (a : Nat × Env) : Prop := a.2 ≠ .free

instance (p : Pool Drv Call) (a : Nat × Env) : Decidable (NoFreelist p a) := by
  unfold NoFreelist; infer_instance

/-- In `freelist`. -/
def inFreelist : Call → Bool
  | .free => true
  | .freeFirst => true
  | .freeAt _ => true
  | .freeNext _ => true
  | .freeRet => true
  | .freeOops => true
  | _ => false

/-- The steps of the other calls, one constructor for each way out of a place. -/
inductive Move (c : Nat) : Drv → Call → Drv → Call → Prop
  | callWalk {s} (w) : Move c s .idle s (.walk w)
  | callWrite {s} (count) : Move c s .idle s (.write count [])
  | walkEmpty {s} (w) (h : s.next head = head) : Move c s (.walk w) s (.walkRet w [])
  | walkSome {s} (w) (h : s.next head ≠ head) : Move c s (.walk w) s (.walkLock w)
  | readLock {s} (w) {k} (h : s.rwlock.readLock c = some k) :
      Move c s (.walkLock w) { s with rwlock := k } (.walkFirst w)
  | first {s} (w) : Move c s (.walkFirst w) s (.walkAt w (s.next head) [])
  | readUnlock {s} (w seen) :
      Move c s (.walkAt w head seen) { s with rwlock := s.rwlock.readUnlock c } (.walkRet w seen)
  | visit {s} (w curr seen) {nd} (hne : curr ≠ head) (h : s.heap.obj curr = some nd) :
      Move c s (.walkAt w curr seen) s (.walkNext w curr (seen ++ [(curr, nd)]))
  | visitOops {s} (w curr seen) (hne : curr ≠ head) (h : s.heap.obj curr = none) :
      Move c s (.walkAt w curr seen) s .walkOops
  | advance {s} (w curr seen) {nd} (h : s.heap.obj curr = some nd) :
      Move c s (.walkNext w curr seen) s (.walkAt w (s.next curr) seen)
  | advanceOops {s} (w curr seen) (h : s.heap.obj curr = none) :
      Move c s (.walkNext w curr seen) s .walkOops
  | callAdd {s} (count rets clock) {nd} (h : addArgs clock rets.length = some nd) :
      Move c s (.write count rets) s (.add count rets nd)
  | writeEnd {s} (count rets clock) (h : addArgs clock rets.length = none) :
      Move c s (.write count rets) s (.writeRet count rets)
  | alloc {s} (count rets nd) {z} :
      Move c s (.add count rets nd) { s with heap := s.heap.alloc z }
        (.addNew count rets nd s.heap.brk)
  | noMem {s} (count rets nd) : Move c s (.add count rets nd) s (.write count (rets ++ [none]))
  | fill {s} (count rets nd new) :
      Move c s (.addNew count rets nd new) (s.fill new nd) (.addLock count rets new)
  | writeLock {s} (count rets new) {k} (h : s.rwlock.writeLock c = some k) :
      Move c s (.addLock count rets new) { s with rwlock := k } (.addHead count rets new)
  | headPrev {s} (count rets new) :
      Move c s (.addHead count rets new) (s.setPrev head new)
        (.addLink count rets new (s.prev head))
  | link {s} (count rets new tail) :
      Move c s (.addLink count rets new tail) (s.setNext new head) (.addBack count rets new tail)
  | back {s} (count rets new tail) :
      Move c s (.addBack count rets new tail) (s.setPrev new tail) (.addTail count rets new tail)
  | publish {s} (count rets new tail) :
      Move c s (.addTail count rets new tail) (s.setNext tail new) (.addUnlock count rets new)
  | unlock {s} (count rets new) :
      Move c s (.addUnlock count rets new) { s with rwlock := s.rwlock.writeUnlock }
        (.write count (rets ++ [some new]))

section Moves

variable {c : Nat} {e : Env} {ok : Bool} {clock : BitVec 64 × BitVec 64} {s s' : Drv} {l l' : Call}

theorem move_of_walkStep (h : walkStep c s l = some (s', l')) : Move c s l s' l' := by
  unfold walkStep at h
  split at h
  case h_1 =>
    split at h <;> cases h
    · exact .walkEmpty _ ‹_›
    · exact .walkSome _ ‹_›
  case h_2 =>
    obtain ⟨k, hk, heq⟩ := Option.map_eq_some_iff.mp h
    cases heq
    exact .readLock _ hk
  case h_4 =>
    split at h
    · rename_i heq
      subst heq
      cases h
      exact .readUnlock _ _
    · split at h <;> cases h
      · exact .visit _ _ _ ‹_› ‹_›
      · exact .visitOops _ _ _ ‹_› ‹_›
  case h_5 =>
    split at h <;> cases h
    · exact .advance _ _ _ ‹_›
    · exact .advanceOops _ _ _ ‹_›
  all_goals cases h
  all_goals constructor

theorem move_of_writeStep (h : writeStep c ok clock s l = some (s', l')) :
    Move c s l s' l' := by
  unfold writeStep at h
  split at h
  case h_1 =>
    split at h <;> cases h
    · exact .callAdd _ _ _ ‹_›
    · exact .writeEnd _ _ _ ‹_›
  case h_2 =>
    split at h <;> cases h
    · exact .alloc _ _ _
    · exact .noMem _ _ _
  case h_4 =>
    obtain ⟨k, hk, heq⟩ := Option.map_eq_some_iff.mp h
    cases heq
    exact .writeLock _ _ _ hk
  all_goals cases h
  all_goals constructor

theorem move_of_step (h : step c e s l = some (s', l')) (he : e ≠ .free)
    (hl : inFreelist l = false) : Move c s l s' l' := by
  cases e with
  | walk w =>
      cases l with
      | idle =>
          cases h
          exact .callWalk _
      | _ => cases h
  | write count =>
      cases l with
      | idle =>
          cases h
          exact .callWrite _
      | _ => cases h
  | free => exact absurd rfl he
  | run ok clock =>
      rcases Option.or_eq_some_iff.mp h with h1 | ⟨-, h2⟩
      · exact move_of_walkStep h1
      · rcases Option.or_eq_some_iff.mp h2 with h3 | ⟨-, h4⟩
        · exact move_of_writeStep h3
        · cases l with
          | free | freeFirst | freeAt _ | freeNext _ => cases hl
          | _ => cases h4

end Moves

/-! ### Reading a place -/

/-- What a call holds the lock for. -/
def holding : Call → RwLock.Hold
  | .walkFirst _ => .reading
  | .walkAt _ _ _ => .reading
  | .walkNext _ _ _ => .reading
  | .walkOops => .reading
  | .addHead _ _ _ => .writing
  | .addLink _ _ _ _ => .writing
  | .addBack _ _ _ _ => .writing
  | .addTail _ _ _ _ => .writing
  | .addUnlock _ _ _ => .writing
  | _ => .nothing

/-- The node a writer has allocated and not yet put on the list. -/
def newOf : Call → Option Nat
  | .addNew _ _ _ new => some new
  | .addLock _ _ new => some new
  | .addHead _ _ new => some new
  | .addLink _ _ new _ => some new
  | .addBack _ _ new _ => some new
  | .addTail _ _ new _ => some new
  | _ => none

/-! ### What the list has come to -/

/-- A node, and the call of `add2tail` it comes from: call `index` of write `call`. -/
abbrev Entry := Addition Node

/-- The last store of `list_add_tail` adds a node. -/
def record (c : Nat) (s : Drv) (l : Call) (hist : List Entry) : List Entry :=
  match l with
  | .addTail _ rets new _ =>
      match s.heap.obj new with
      | some nd => hist ++ [{ node := new, data := nd, call := c, index := rets.length }]
      | none => hist
  | _ => hist

theorem record_addTail {c count new tail : Nat} {s : Drv} {rets : Rets} {nd : Node}
    {hist : List Entry} (h : s.heap.obj new = some nd) :
    record c s (.addTail count rets new tail) hist =
      hist ++ [{ node := new, data := nd, call := c, index := rets.length }] := by
  simp [record, h]

/-! ### The invariant -/

/-- The list, whoever is at work on it. -/
structure Shape (s : Drv) (hist : List Entry) : Prop where
  linked : s.Linked head (cells hist)
  rwlock : s.rwlock.WF
  /-- With no writer inside the head points back to the last node. -/
  free : s.rwlock.writer = none → s.prev head = tailOf head ((cells hist).map Prod.fst)

/-- How far the call has got with the list. -/
def At (s : Drv) (hist : List Entry) : Call → Prop
  | .walkAt _ curr seen => s.Walked head (cells hist) curr seen
  | .walkNext _ curr seen => ∃ before nd, seen = before ++ [(curr, nd)] ∧ seen <+: cells hist
  | .walkOops => False
  | .addHead _ _ _ => s.prev head = tailOf head ((cells hist).map Prod.fst)
  | .addLink _ _ new tail =>
      s.prev head = new ∧ tail = tailOf head ((cells hist).map Prod.fst)
  | .addBack _ _ new tail =>
      s.prev head = new ∧ tail = tailOf head ((cells hist).map Prod.fst) ∧ s.next new = head
  | .addTail _ _ new tail =>
      s.prev head = new ∧ tail = tailOf head ((cells hist).map Prod.fst) ∧ s.next new = head ∧
        s.prev new = tail
  | .addUnlock _ _ _ => s.prev head = tailOf head ((cells hist).map Prod.fst)
  | _ => True

/-- The lock, the new node and the place of one call. -/
structure Placed (c : Nat) (s : Drv) (hist : List Entry) (l : Call) : Prop where
  outside : inFreelist l = false
  lock : RwLock.Owned c s.rwlock (holding l)
  /-- A node of its own is allocated and not on the list. -/
  new : ∀ x, newOf l = some x →
    (∃ nd, s.heap.obj x = some nd) ∧ x ∉ head :: (cells hist).map Prod.fst
  place : At s hist l

/-- Two calls do not share a new node. -/
def Apart (l m : Call) : Prop := ∀ x, newOf l = some x → newOf m ≠ some x

theorem Apart.symm {l m : Call} (h : Apart l m) : Apart m l := fun x hx hx' => h x hx' hx

/-- Without the lock nothing is unfinished. -/
theorem at_of_nothing {s : Drv} {hist : List Entry} {l : Call} (h : holding l = .nothing) :
    At s hist l := by
  cases l <;> trivial

/-! ### One step -/

section Steps

variable {c d : Nat} {s s' : Drv} {l l' m : Call} {hist : List Entry}

theorem Move.lockStep (h : Move c s l s' l') :
    RwLock.Step c s.rwlock (holding l) s'.rwlock (holding l') := by
  cases h with
  | readLock w hk => exact .readLock hk
  | readUnlock w seen => exact .readUnlock _
  | writeLock count rets new hk => exact .writeLock hk
  | unlock count rets new => exact .writeUnlock _
  | _ => exact .keep _ _

/-- The list changes with one step only. -/
theorem Move.record (h : Move c s l s' l') (hl : Placed c s hist l) :
    RwList.record c s l hist = hist ∨
      ∃ count rets new tail nd, l = .addTail count rets new tail ∧
        l' = .addUnlock count rets new ∧ s' = s.setNext tail new ∧
        s.heap.obj new = some nd ∧ RwList.record c s l hist =
          hist ++ [{ node := new, data := nd, call := c, index := rets.length }] := by
  cases h with
  | publish count rets new tail =>
      obtain ⟨⟨nd, hobj⟩, -⟩ := hl.new new rfl
      exact Or.inr ⟨count, rets, new, tail, nd, rfl, rfl, rfl, hobj, record_addTail hobj⟩
  | _ => exact Or.inl rfl

/-- Filling in a node that is not on the list. -/
theorem Shape.fill (hS : Shape s hist) {new : Nat} {nd : Node}
    (hobj : ∃ nd, s.heap.obj new = some nd) (hnew : new ∉ head :: (cells hist).map Prod.fst) :
    Shape (s.fill new nd) hist where
  linked := by
    obtain ⟨nd', hnd'⟩ := hobj
    have hmem : new ∉ (cells hist).map Prod.fst := fun h => hnew (List.mem_cons_of_mem _ h)
    exact ((hS.linked.setNext hnew).setPrev hmem).store hmem (hS.linked.heap.lt hnd')
  rwlock := hS.rwlock
  free hfree := by
    show Function.update s.prev new new head = _
    rw [Function.update_of_ne (Ring.Linked.head_ne hnew)]
    exact hS.free hfree

/-- What the writer inside does need not leave the head's `prev` in order. -/
theorem Shape.ofWriter (hlinked : s'.Linked head (cells hist)) (hlock : s'.rwlock.WF)
    (hheld : s'.rwlock.writer = some c) : Shape s' hist where
  linked := hlinked
  rwlock := hlock
  free hfree := by
    rw [hheld] at hfree
    cases hfree

theorem Move.shape (h : Move c s l s' l') (hS : Shape s hist) (hl : Placed c s hist l) :
    Shape s' (RwList.record c s l hist) := by
  have hlock := hS.rwlock.step h.lockStep
  have hheld : holding l = .writing → s.rwlock.writer = some c := hl.lock.writing.mp
  cases h with
  | readLock w hk =>
      obtain ⟨hfree, rfl⟩ := RwLock.readLock_eq_some.mp hk
      exact ⟨hS.linked, hlock, fun _ => hS.free hfree⟩
  | readUnlock w seen => exact ⟨hS.linked, hlock, hS.free⟩
  | alloc count rets nd => exact ⟨hS.linked.alloc, hS.rwlock, hS.free⟩
  | fill count rets nd new =>
      obtain ⟨hobj, hnew⟩ := hl.new new rfl
      exact hS.fill hobj hnew
  | writeLock count rets new hk =>
      obtain ⟨-, rfl⟩ := RwLock.writeLock_eq_some.mp hk
      exact .ofWriter hS.linked hlock rfl
  | headPrev count rets new =>
      exact .ofWriter (hS.linked.setPrev hS.linked.head_notMem) hS.rwlock (hheld rfl)
  | link count rets new tail =>
      obtain ⟨-, hnew⟩ := hl.new new rfl
      exact .ofWriter (hS.linked.setNext hnew) hS.rwlock (hheld rfl)
  | back count rets new tail =>
      obtain ⟨-, hnew⟩ := hl.new new rfl
      have hmem : new ∉ (cells hist).map Prod.fst := fun h => hnew (List.mem_cons_of_mem _ h)
      exact .ofWriter (hS.linked.setPrev hmem) hS.rwlock (hheld rfl)
  | publish count rets new tail =>
      obtain ⟨⟨nd, hobj⟩, hnew⟩ := hl.new new rfl
      obtain ⟨-, htail, hnext, hprev⟩ := hl.place
      rw [record_addTail hobj]
      refine .ofWriter ?_ hS.rwlock (hheld rfl)
      rw [cells_append]
      exact hS.linked.publish hnew hobj htail hnext hprev
  | unlock count rets new => exact ⟨hS.linked, hlock, fun _ => hl.place⟩
  | _ => exact hS

/-- The place the call that moves has got to. -/
theorem Move.at (h : Move c s l s' l') (hS : Shape s hist) (hl : Placed c s hist l) :
    At s' (RwList.record c s l hist) l' := by
  have hplace := hl.place
  cases h with
  | first w => exact hS.linked.walked_nil
  | visit w curr seen hne hobj =>
      obtain ⟨nd, hnd, hpre⟩ := hS.linked.visit hplace hne
      rw [hobj] at hnd
      cases hnd
      exact ⟨_, _, rfl, hpre⟩
  | visitOops w curr seen hne hnone =>
      obtain ⟨nd, hnd, -⟩ := hS.linked.visit hplace hne
      rw [hnone] at hnd
      cases hnd
  | advance w curr seen hobj =>
      obtain ⟨before, nd, rfl, hpre⟩ := hplace
      exact hS.linked.advance hpre
  | advanceOops w curr seen hnone =>
      obtain ⟨before, nd, rfl, hpre⟩ := hplace
      have hobj := hS.linked.data (curr, nd) (hpre.subset (by simp))
      rw [hnone] at hobj
      cases hobj
  | writeLock count rets new hk =>
      obtain ⟨⟨hfree, -⟩, rfl⟩ := RwLock.writeLock_eq_some.mp hk
      exact hS.free hfree
  | headPrev count rets new =>
      have hhead : Function.update s.prev head new head = new := Function.update_self ..
      exact ⟨hhead, hplace⟩
  | link count rets new tail => exact ⟨hplace.1, hplace.2, Function.update_self ..⟩
  | back count rets new tail =>
      obtain ⟨hhead, htail, hnext⟩ := hplace
      obtain ⟨-, hnew⟩ := hl.new new rfl
      exact ⟨(Function.update_of_ne (Ring.Linked.head_ne hnew) ..).trans hhead, htail, hnext,
        Function.update_self ..⟩
  | publish count rets new tail =>
      obtain ⟨⟨nd, hobj⟩, -⟩ := hl.new new rfl
      rw [record_addTail hobj]
      show s.prev head = _
      rw [cells_append, List.map_append]
      exact hplace.1.trans (tailOf_concat ..).symm
  | _ => trivial

/-- An object stays as it is, unless a call fills in its own new node. -/
theorem Move.keepsObj (h : Move c s l s' l') (hS : Shape s hist) {x : Nat} {nd : Node}
    (hx : s.heap.obj x = some nd) (hnew : newOf l ≠ some x) : s'.heap.obj x = some nd := by
  cases h with
  | alloc count rets nd' => exact (Heap.alloc_of_lt (hS.linked.heap.lt hx)).trans hx
  | fill count rets nd' new =>
      have hne : x ≠ new := by
        intro heq
        exact hnew (heq ▸ rfl)
      exact (Heap.store_of_ne hne).trans hx
  | _ => exact hx

/-- What is not the writer's inside stores at most into the links of a new node. -/
theorem Move.frame (h : Move c s l s' l') (hw : holding l ≠ .writing) :
    RwList.record c s l hist = hist ∧
      ∀ x, newOf l ≠ some x → s'.next x = s.next x ∧ s'.prev x = s.prev x := by
  cases h with
  | fill count rets nd new =>
      refine ⟨rfl, fun x hx => ?_⟩
      have hne : x ≠ new := by
        intro heq
        exact hx (heq ▸ rfl)
      exact ⟨Function.update_of_ne hne .., Function.update_of_ne hne ..⟩
  | headPrev | link | back | publish | unlock => exact absurd rfl hw
  | _ => exact ⟨rfl, fun _ _ => ⟨rfl, rfl⟩⟩

/-- A new node of the call that moves is not on the list. -/
theorem Move.new (h : Move c s l s' l') (hS : Shape s hist) (hl : Placed c s hist l) :
    ∀ x, newOf l' = some x → (∃ nd, s'.heap.obj x = some nd) ∧
      x ∉ head :: (cells (RwList.record c s l hist)).map Prod.fst := by
  intro x hx
  cases h with
  | alloc count rets nd =>
      cases hx
      exact ⟨⟨_, Heap.alloc_self⟩, hS.linked.brk_fresh⟩
  | fill count rets nd new =>
      cases hx
      exact ⟨⟨nd, Heap.store_self⟩, (hl.new _ rfl).2⟩
  | writeLock | headPrev | link | back => exact hl.new x hx
  | _ => cases hx

/-- A new node of a call that stands still. -/
theorem Move.new_other (h : Move c s l s' l') (hS : Shape s hist) (hl : Placed c s hist l)
    (hm : Placed d s hist m) (hlm : Apart l m) :
    ∀ x, newOf m = some x → (∃ nd, s'.heap.obj x = some nd) ∧
      x ∉ head :: (cells (RwList.record c s l hist)).map Prod.fst := by
  intro x hx
  obtain ⟨⟨nd, hnd⟩, hnew⟩ := hm.new x hx
  refine ⟨⟨nd, h.keepsObj hS hnd fun hsame => hlm x hsame hx⟩, ?_⟩
  rcases h.record hl with hsame | ⟨count, rets, new, tail, nd, rfl, -, -, -, hrec⟩
  · rw [hsame]
    exact hnew
  · rw [hrec, cells_append, List.map_append, ← List.cons_append]
    intro hmem
    rcases List.mem_append.mp hmem with hold | hlast
    · exact hnew hold
    · obtain rfl : x = new := List.mem_singleton.mp hlast
      exact hlm x rfl hx

/-- What `At` reads: the links of the list, of its head, and of a new node. -/
theorem At.keep (hm : At s hist m)
    (hsame : ∀ x, x ∈ head :: (cells hist).map Prod.fst ∨ newOf m = some x →
      s'.next x = s.next x ∧ s'.prev x = s.prev x) : At s' hist m := by
  have hhead := (hsame head (Or.inl List.mem_cons_self)).2
  cases m with
  | walkAt w curr seen =>
      exact hm.congr fun x hx => (hsame x (Or.inl (List.mem_cons_of_mem _ hx))).1
  | walkNext w curr seen => exact hm
  | walkOops => exact hm
  | addHead count rets new => exact hhead.trans hm
  | addLink count rets new tail => exact ⟨hhead.trans hm.1, hm.2⟩
  | addBack count rets new tail =>
      obtain ⟨hprev, htail, hnext⟩ := hm
      exact ⟨hhead.trans hprev, htail, (hsame new (Or.inr rfl)).1.trans hnext⟩
  | addTail count rets new tail =>
      obtain ⟨hprev, htail, hnext, hback⟩ := hm
      have hnew := hsame new (Or.inr rfl)
      exact ⟨hhead.trans hprev, htail, hnew.1.trans hnext, hnew.2.trans hback⟩
  | addUnlock count rets new => exact hhead.trans hm
  | _ => trivial

/-- With a writer inside nobody else is. -/
theorem Placed.alone (hl : Placed c s hist l) (hS : Shape s hist) (hm : Placed d s hist m)
    (hne : d ≠ c) (hw : holding l = .writing) : holding m = .nothing := by
  cases hmine : holding m with
  | nothing => rfl
  | reading => exact (RwLock.Owned.not_both hS.rwlock (hmine ▸ hm.lock) (hw ▸ hl.lock)).elim
  | writing => exact absurd (RwLock.Owned.exclusive (hmine ▸ hm.lock) (hw ▸ hl.lock)) hne

/-- What is unfinished stays as it is while another call moves. -/
theorem Move.at_other (h : Move c s l s' l') (hS : Shape s hist) (hl : Placed c s hist l)
    (hm : Placed d s hist m) (hne : d ≠ c) (hlm : Apart l m) :
    At s' (RwList.record c s l hist) m := by
  by_cases hw : holding l = .writing
  · exact at_of_nothing (hl.alone hS hm hne hw)
  · obtain ⟨hrec, hsame⟩ : RwList.record c s l hist = hist ∧ _ := h.frame hw
    rw [hrec]
    refine hm.place.keep fun x hx => hsame x fun hnew => ?_
    rcases hx with hlist | hother
    · exact (hl.new x hnew).2 hlist
    · exact hlm x hnew hother

/-- A new node of the call that moves is nobody else's. -/
theorem Move.apart (h : Move c s l s' l') (hS : Shape s hist) (hm : Placed d s hist m)
    (hlm : Apart l m) : Apart l' m := by
  intro x hx
  cases h with
  | alloc count rets nd =>
      cases hx
      intro hbrk
      obtain ⟨⟨nd', hnd'⟩, -⟩ := hm.new _ hbrk
      exact Nat.lt_irrefl _ (hS.linked.heap.lt hnd')
  | fill | writeLock | headPrev | link | back => exact hlm x hx
  | _ => cases hx

theorem Move.outside (h : Move c s l s' l') : inFreelist l' = false := by
  cases h <;> rfl

/-- The call that moves. -/
theorem Move.placed (h : Move c s l s' l') (hS : Shape s hist) (hl : Placed c s hist l) :
    Placed c s' (RwList.record c s l hist) l' where
  outside := h.outside
  lock := hl.lock.step h.lockStep
  new := h.new hS hl
  place := h.at hS hl

/-- A call that stands still. -/
theorem Move.placed_other (h : Move c s l s' l') (hS : Shape s hist) (hl : Placed c s hist l)
    (hm : Placed d s hist m) (hne : d ≠ c) (hlm : Apart l m) :
    Placed d s' (RwList.record c s l hist) m where
  outside := hm.outside
  lock := hl.lock.step_other hm.lock hne h.lockStep
  new := h.new_other hS hl hm hlm
  place := h.at_other hS hl hm hne hlm

end Steps

/-! ### Every run without `freelist` -/

/-- The calls of the two methods, with what the list has come to. -/
abbrev recorder : Machine (Pool (Drv × List Entry) Call) (Nat × Env) :=
  Pool.recorder (· = loaded) .idle step record []

/-- The list, each call, and each two calls. -/
abbrev Safe : Pool (Drv × List Entry) Call → Prop :=
  Pool.Inv (fun s => Shape s.1 s.2) (fun c s l => Placed c s.1 s.2 l) fun _ l _ m => Apart l m

/-- A step of a call, without `freelist`. -/
theorem move_of_recording {p : Pool (Drv × List Entry) Call} {c : Nat} {e : Env}
    {s' : Drv × List Entry} {l' : Call} (hp : Safe p)
    (hok : Pool.unrecorded NoFreelist p (c, e))
    (hstep : Pool.recording record step c e p.shared (p.call c) = some (s', l')) :
    Move c p.shared.1 (p.call c) s'.1 l' ∧
      s'.2 = record c p.shared.1 (p.call c) p.shared.2 := by
  obtain ⟨hf, hrec⟩ := Pool.recording_eq_some.mp hstep
  exact ⟨move_of_step hf hok (hp.each c).outside, hrec⟩

theorem loaded_shape : Shape loaded [] where
  linked := (Ring.empty_lists head).linked
  rwlock := fun h => absurd rfl h
  free _ := rfl

theorem inductive_safe : recorder.Inductive (Pool.unrecorded NoFreelist) Safe := by
  have hkept : Pool.Kept (Pool.recording record step) (Pool.unrecorded NoFreelist)
      (fun s => Shape s.1 s.2) (fun c s l => Placed c s.1 s.2 l) fun _ l _ m => Apart l m := by
    refine ⟨fun p c e s' l' hinv hok hstep => ?_, fun p c e s' l' d hinv hok hstep hne => ?_,
      fun p c e s' l' d hinv hok hstep hne => ?_⟩
    · obtain ⟨hmove, hrec⟩ := move_of_recording hinv hok hstep
      rw [hrec]
      exact ⟨hmove.shape hinv.shared (hinv.each c), hmove.placed hinv.shared (hinv.each c)⟩
    · obtain ⟨hmove, hrec⟩ := move_of_recording hinv hok hstep
      rw [hrec]
      exact hmove.placed_other hinv.shared (hinv.each c) (hinv.each d) hne
        (hinv.pair c d hne.symm)
    · obtain ⟨hmove, -⟩ := move_of_recording hinv hok hstep
      have hapart := hmove.apart hinv.shared (hinv.each d) (hinv.pair c d hne.symm)
      exact ⟨hapart, hapart.symm⟩
  refine hkept.invariant (fun s hs => ?_) (fun s c hs => ?_) fun _ _ => nofun
  · obtain ⟨hs, hhist⟩ := hs
    rw [hs, hhist]
    exact loaded_shape
  · obtain ⟨hs, hhist⟩ := hs
    rw [hs, hhist]
    exact ⟨rfl, RwLock.Owned.unlocked, nofun, trivial⟩

end Lkp.RwList
