/-
The list driver that protects its list with RCU.

`add2tail` allocates a node and links it in at the tail under `writelock`;
`showlist` and `findinlist_letter` walk the list inside a read-side section with
no lock; `freelist` waits for a grace period and then, under `writelock`, unlinks
and frees one node after another.  The write method makes three calls of
`add2tail` and ignores what they return.

Node 0 is `head_node`.  Each load of a pointer, each of the four stores of
`list_add_tail_rcu`, each `list_del_rcu`, each `kfree` and each lock, section and
grace period operation is a step.

Four fields record the history: the nodes the list had at the start, those it
holds now, the nodes in the order in which `add2tail` took `writelock`, and the
node that is unlinked and not yet freed.
-/
import Lkp.Kernel.Basic
import Lkp.Concurrency.Pool
import Lkp.Concurrency.Lock
import Lkp.Concurrency.Rcu
import Lkp.Memory.Heap
import Lkp.Memory.Links

namespace Lkp.RcuList

/-! ### The data -/

/-- `struct node`, without its links. -/
structure Node where
  ival1 : BitVec 64
  ival2 : BitVec 64
  letter : BitVec 8
  deriving DecidableEq

/-- `head_node`. -/
def head : Nat := 0

/-- The list and its lock, and the history. -/
structure Drv where
  heap : Heap Node
  next : Nat → Nat
  prev : Nat → Nat
  writelock : Option Nat
  rcu : Rcu
  /-- The nodes of the list at the start. -/
  base : List Nat
  /-- The nodes of the list now. -/
  order : List Nat
  /-- The nodes for which `writelock` was taken, in that order. -/
  took : List Nat
  /-- The node unlinked and not yet freed. -/
  limbo : Option Nat

/-- A traversal: the read method's `showlist`, or `findinlist_letter`. -/
inductive Walk
  | show (count : Nat)
  | find (char2locate : BitVec 8)
  deriving DecidableEq

/--
What the world answers: a call, or whether `kzalloc` succeeds and what the two
arguments made from `jiffies` come to.
-/
inductive Env
  | walk (w : Walk)
  | write (count : Nat)
  | free
  | run (ok : Bool) (clock : BitVec 64 × BitVec 64)
  deriving DecidableEq

instance : Inhabited Env := ⟨.run true (0, 0)⟩

/-- The nodes a traversal has read. -/
abbrev Seen := List (Nat × Node)

/-- Of each `add2tail` the write method has called: its node, or `none` for `-ENOMEM`. -/
abbrev Rets := List (Option Nat)

/-- Where a call has got to. -/
inductive Call
  | idle
  /-- `showlist` or `findinlist_letter` entered; `list_empty` comes next. -/
  | walk (w : Walk)
  /-- The list was not empty; `rcu_read_lock` comes next. -/
  | walkLock (w : Walk)
  /-- The load of the first node comes next. -/
  | walkFirst (w : Walk) (ticket : Nat)
  /-- The test of the loop, with `curr` and the nodes read before. -/
  | walkAt (w : Walk) (ticket curr : Nat) (seen : Seen)
  /-- `curr` is read; the load of its `next` comes next. -/
  | walkNext (w : Walk) (ticket curr : Nat) (seen : Seen)
  | walkRet (w : Walk) (seen : Seen)
  /-- A traversal read a freed node, inside its section. -/
  | walkOops (ticket : Nat)
  /-- In `write_miscdrv_rdwr`, between two calls of `add2tail`. -/
  | write (count : Nat) (rets : Rets)
  /-- `add2tail` entered with its arguments; `kzalloc` comes next. -/
  | add (count : Nat) (rets : Rets) (nd : Node)
  /-- `mynode` is allocated. -/
  | addNew (count : Nat) (rets : Rets) (nd : Node) (new : Nat)
  /-- It is filled in; `spin_lock` comes next. -/
  | addLock (count : Nat) (rets : Rets) (new : Nat)
  /-- The lock is held; `new->next = head` comes next. -/
  | addLink (count : Nat) (rets : Rets) (new : Nat)
  /-- `new->prev = tail` comes next. -/
  | addBack (count : Nat) (rets : Rets) (new tail : Nat)
  /-- `tail->next = new` comes next. -/
  | addPublish (count : Nat) (rets : Rets) (new tail : Nat)
  /-- `head->prev = new` comes next. -/
  | addTail (count : Nat) (rets : Rets) (new : Nat)
  | addUnlock (count : Nat) (rets : Rets) (new : Nat)
  /-- `write_miscdrv_rdwr` returned `count`. -/
  | writeRet (count : Nat) (rets : Rets)
  /-- `freelist` entered; `list_empty` comes next. -/
  | free
  /-- `synchronize_rcu` comes next. -/
  | freeSync
  /-- Waiting for the sections with a ticket below `bound`. -/
  | freeWait (bound : Nat)
  /-- `spin_lock` comes next. -/
  | freeLock
  /-- The load of the first node comes next. -/
  | freeFirst
  /-- The test of the loop, with `curr`. -/
  | freeAt (curr : Nat)
  /-- `curr` is unlinked; `kfree` comes next. -/
  | freeKfree (curr : Nat)
  /-- `curr` is freed; the load of its `next` comes next. -/
  | freeNext (curr : Nat)
  | freeRet
  /-- `list_del_rcu` touched a freed node. -/
  | freeOops
  deriving DecidableEq

/-! ### The methods -/

/-- The arguments of the calls of `add2tail` the write method makes. -/
def addArgs (clock : BitVec 64 × BitVec 64) : Nat → Option Node
  | 0 => some { ival1 := 1, ival2 := 2, letter := 82 }
  | 1 => some { ival1 := 3, ival2 := 1415, letter := 67 }
  | 2 => some { ival1 := clock.1, ival2 := clock.2, letter := 85 }
  | _ => none

/-- Store into `x->next`. -/
def Drv.setNext (s : Drv) (x y : Nat) : Drv := { s with next := Function.update s.next x y }

/-- Store into `x->prev`. -/
def Drv.setPrev (s : Drv) (x y : Nat) : Drv := { s with prev := Function.update s.prev x y }

/-- The members of the new node and `INIT_LIST_HEAD(&mynode->list)`. -/
def Drv.fill (s : Drv) (new : Nat) (nd : Node) : Drv :=
  { (s.setNext new new).setPrev new new with heap := s.heap.store new nd }

/-- The store that makes the new node part of the list. -/
def Drv.publish (s : Drv) (new tail : Nat) : Drv :=
  { s.setNext tail new with order := s.order ++ [new] }

/-- `list_del_rcu`: `curr->next` stays, and nobody reads the `curr->prev` it poisons. -/
def Drv.listDelRcu (s : Drv) (curr : Nat) : Drv :=
  { (s.setPrev (s.next curr) (s.prev curr)).setNext (s.prev curr) (s.next curr) with
    order := s.order.erase curr
    limbo := some curr }

/-- `kfree(curr)`. -/
def Drv.kfree (s : Drv) (curr : Nat) : Drv :=
  { s with heap := s.heap.free curr, limbo := none }

/-- `showlist` and `findinlist_letter`, one step at a time. -/
def walkStep (s : Drv) : Call → Option (Drv × Call)
  | .walk w => some (s, if s.next head = head then .walkRet w [] else .walkLock w)
  | .walkLock w => some ({ s with rcu := s.rcu.lock }, .walkFirst w s.rcu.next)
  | .walkFirst w t => some (s, .walkAt w t (s.next head) [])
  | .walkAt w t curr seen =>
      if curr = head then some ({ s with rcu := s.rcu.unlock t }, .walkRet w seen)
      else
        match s.heap.obj curr with
        | some nd => some (s, .walkNext w t curr (seen ++ [(curr, nd)]))
        | none => some (s, .walkOops t)
  | .walkNext w t curr seen =>
      match s.heap.obj curr with
      | some _ => some (s, .walkAt w t (s.next curr) seen)
      | none => some (s, .walkOops t)
  | _ => none

/-- `write_miscdrv_rdwr` and `add2tail`, one step at a time; `ok` is `kzalloc` going well. -/
def writeStep (c : Nat) (ok : Bool) (clock : BitVec 64 × BitVec 64) (s : Drv) :
    Call → Option (Drv × Call)
  | .write count rets =>
      match addArgs clock rets.length with
      | some nd => some (s, .add count rets nd)
      | none => some (s, .writeRet count rets)
  | .add count rets nd =>
      if ok then
        some ({ s with heap := s.heap.alloc { ival1 := 0, ival2 := 0, letter := 0 } },
          .addNew count rets nd s.heap.brk)
      else some (s, .write count (rets ++ [none]))
  | .addNew count rets nd new => some (s.fill new nd, .addLock count rets new)
  | .addLock count rets new =>
      if s.writelock = none then
        some ({ s with writelock := some c, took := s.took ++ [new] }, .addLink count rets new)
      else none
  | .addLink count rets new => some (s.setNext new head, .addBack count rets new (s.prev head))
  | .addBack count rets new tail => some (s.setPrev new tail, .addPublish count rets new tail)
  | .addPublish count rets new tail => some (s.publish new tail, .addTail count rets new)
  | .addTail count rets new => some (s.setPrev head new, .addUnlock count rets new)
  | .addUnlock count rets new =>
      some ({ s with writelock := none }, .write count (rets ++ [some new]))
  | _ => none

/-- `freelist`, one step at a time. -/
def freeStep (c : Nat) (s : Drv) : Call → Option (Drv × Call)
  | .free => some (s, if s.next head = head then .freeRet else .freeSync)
  | .freeSync => some (s, .freeWait s.rcu.next)
  | .freeWait bound => if s.rcu.Over bound then some (s, .freeLock) else none
  | .freeLock =>
      if s.writelock = none then some ({ s with writelock := some c }, .freeFirst) else none
  | .freeFirst => some (s, .freeAt (s.next head))
  | .freeAt curr =>
      if curr = head then some ({ s with writelock := none }, .freeRet)
      else
        match s.heap.obj curr with
        | some _ => some (s.listDelRcu curr, .freeKfree curr)
        | none => some (s, .freeOops)
  | .freeKfree curr => some (s.kfree curr, .freeNext curr)
  -- `curr` is gone: what the loop reads is what `kfree` left there
  | .freeNext curr => some (s, .freeAt (s.next curr))
  | _ => none

/-- The driver, one step of a call at a time. -/
def step : CallStep Drv Call Env := fun c e s l =>
  match e, l with
  | .walk w, .idle => some (s, .walk w)
  | .write count, .idle => some (s, .write count [])
  | .free, .idle => some (s, .free)
  | .run ok clock, l => (walkStep s l).or ((writeStep c ok clock s l).or (freeStep c s l))
  | _, _ => none

/-! ### The list -/

/-- A doubly linked list of allocated nodes. -/
structure Linked (s : Drv) : Prop where
  ring : Path s.next (s.next head) s.order head
  nodup : (head :: s.order).Nodup
  back : Back s.prev head s.order
  alive : ∀ x ∈ s.order, ∃ nd, s.heap.obj x = some nd

/-- `head->prev` is the last node, and none is between `list_del_rcu` and `kfree`. -/
structure Settled (s : Drv) : Prop where
  tail : s.prev head = tailOf head s.order
  limbo : s.limbo = none

/-- A list as it may be found when nobody is at work on it. -/
structure Built (s : Drv) : Prop where
  linked : Linked s
  settled : Settled s
  heap : s.heap.WF
  brk : 0 < s.heap.brk
  writelock : s.writelock = none
  rcu : s.rcu = .fresh
  base : s.base = s.order
  took : s.took = []

/-- Any calls of the driver's functions, from any list. -/
def machine : Machine (Pool Drv Call) (Nat × Env) := Pool.machine Built .idle step

/-! ### What one step can do -/

/-- The steps of a call, one constructor for each way out of a place. -/
inductive Move (c : Nat) : Drv → Call → Drv → Call → Prop
  | callWalk {s} (w) : Move c s .idle s (.walk w)
  | callWrite {s} (count) : Move c s .idle s (.write count [])
  | callFree {s} : Move c s .idle s .free
  | walkEmpty {s} (w) (h : s.next head = head) : Move c s (.walk w) s (.walkRet w [])
  | walkSome {s} (w) (h : s.next head ≠ head) : Move c s (.walk w) s (.walkLock w)
  | readLock {s} (w) :
      Move c s (.walkLock w) { s with rcu := s.rcu.lock } (.walkFirst w s.rcu.next)
  | first {s} (w t) : Move c s (.walkFirst w t) s (.walkAt w t (s.next head) [])
  | readUnlock {s} (w t seen) :
      Move c s (.walkAt w t head seen) { s with rcu := s.rcu.unlock t } (.walkRet w seen)
  | visit {s} (w t curr seen) {nd} (hne : curr ≠ head) (h : s.heap.obj curr = some nd) :
      Move c s (.walkAt w t curr seen) s (.walkNext w t curr (seen ++ [(curr, nd)]))
  | visitOops {s} (w t curr seen) (hne : curr ≠ head) (h : s.heap.obj curr = none) :
      Move c s (.walkAt w t curr seen) s (.walkOops t)
  | advance {s} (w t curr seen) {nd} (h : s.heap.obj curr = some nd) :
      Move c s (.walkNext w t curr seen) s (.walkAt w t (s.next curr) seen)
  | advanceOops {s} (w t curr seen) (h : s.heap.obj curr = none) :
      Move c s (.walkNext w t curr seen) s (.walkOops t)
  | callAdd {s} (count rets clock) {nd} (h : addArgs clock rets.length = some nd) :
      Move c s (.write count rets) s (.add count rets nd)
  | writeEnd {s} (count rets clock) (h : addArgs clock rets.length = none) :
      Move c s (.write count rets) s (.writeRet count rets)
  | alloc {s} (count rets nd) {z} :
      Move c s (.add count rets nd) { s with heap := s.heap.alloc z }
        (.addNew count rets nd s.heap.brk)
  | noMem {s} (count rets nd) : Move c s (.add count rets nd) s (.write count (rets ++ [none]))
  | fill {s} (count rets nd new) :
      Move c s (.addNew count rets nd new) (s.fill new nd) (.addLock count rets new)
  | lock {s} (count rets new) (h : s.writelock = none) :
      Move c s (.addLock count rets new)
        { s with writelock := some c, took := s.took ++ [new] } (.addLink count rets new)
  | link {s} (count rets new) :
      Move c s (.addLink count rets new) (s.setNext new head)
        (.addBack count rets new (s.prev head))
  | back {s} (count rets new tail) :
      Move c s (.addBack count rets new tail) (s.setPrev new tail)
        (.addPublish count rets new tail)
  | publish {s} (count rets new tail) :
      Move c s (.addPublish count rets new tail) (s.publish new tail) (.addTail count rets new)
  | tail {s} (count rets new) :
      Move c s (.addTail count rets new) (s.setPrev head new) (.addUnlock count rets new)
  | unlock {s} (count rets new) :
      Move c s (.addUnlock count rets new) { s with writelock := none }
        (.write count (rets ++ [some new]))
  | freeEmpty {s} (h : s.next head = head) : Move c s .free s .freeRet
  | freeSome {s} (h : s.next head ≠ head) : Move c s .free s .freeSync
  | sync {s} : Move c s .freeSync s (.freeWait s.rcu.next)
  | synced {s} (bound) (h : s.rcu.Over bound) : Move c s (.freeWait bound) s .freeLock
  | freeLock {s} (h : s.writelock = none) :
      Move c s .freeLock { s with writelock := some c } .freeFirst
  | freeFirst {s} : Move c s .freeFirst s (.freeAt (s.next head))
  | freeEnd {s} : Move c s (.freeAt head) { s with writelock := none } .freeRet
  | del {s} (curr) {nd} (hne : curr ≠ head) (h : s.heap.obj curr = some nd) :
      Move c s (.freeAt curr) (s.listDelRcu curr) (.freeKfree curr)
  | delOops {s} (curr) (hne : curr ≠ head) (h : s.heap.obj curr = none) :
      Move c s (.freeAt curr) s .freeOops
  | kfree {s} (curr) : Move c s (.freeKfree curr) (s.kfree curr) (.freeNext curr)
  | freeAdvance {s} (curr) : Move c s (.freeNext curr) s (.freeAt (s.next curr))

section Moves

variable {c : Nat} {ok : Bool} {clock : BitVec 64 × BitVec 64} {s s' : Drv} {l l' : Call}

theorem move_of_walkStep (h : walkStep s l = some (s', l')) : Move c s l s' l' := by
  unfold walkStep at h
  split at h
  case h_1 =>
    split at h <;> cases h
    · exact .walkEmpty _ ‹_›
    · exact .walkSome _ ‹_›
  case h_4 =>
    split at h
    · rename_i heq
      subst heq
      cases h
      exact .readUnlock _ _ _
    · split at h <;> cases h
      · exact .visit _ _ _ _ ‹_› ‹_›
      · exact .visitOops _ _ _ _ ‹_› ‹_›
  case h_5 =>
    split at h <;> cases h
    · exact .advance _ _ _ _ ‹_›
    · exact .advanceOops _ _ _ _ ‹_›
  all_goals cases h
  all_goals constructor

theorem move_of_writeStep (h : writeStep c ok clock s l = some (s', l')) :
    Move c s l s' l' := by
  unfold writeStep at h
  split at h
  case h_1 =>
    split at h <;> cases h
    · exact .callAdd _ _ _ ‹_›
    · exact .writeEnd _ _ _ ‹_›
  case h_2 =>
    split at h <;> cases h
    · exact .alloc _ _ _
    · exact .noMem _ _ _
  case h_4 =>
    split at h <;> cases h
    exact .lock _ _ _ ‹_›
  all_goals cases h
  all_goals constructor

theorem move_of_freeStep (h : freeStep c s l = some (s', l')) : Move c s l s' l' := by
  unfold freeStep at h
  split at h
  case h_1 =>
    split at h <;> cases h
    · exact .freeEmpty ‹_›
    · exact .freeSome ‹_›
  case h_3 =>
    split at h <;> cases h
    exact .synced _ ‹_›
  case h_4 =>
    split at h <;> cases h
    exact .freeLock ‹_›
  case h_6 =>
    split at h
    · rename_i heq
      subst heq
      cases h
      exact .freeEnd
    · split at h <;> cases h
      · exact .del _ ‹_› ‹_›
      · exact .delOops _ ‹_› ‹_›
  all_goals cases h
  all_goals constructor

theorem move_of_step {e : Env} (h : step c e s l = some (s', l')) : Move c s l s' l' := by
  cases e with
  | walk w =>
      cases l with
      | idle =>
          cases h
          exact .callWalk _
      | _ => cases h
  | write count =>
      cases l with
      | idle =>
          cases h
          exact .callWrite _
      | _ => cases h
  | free =>
      cases l with
      | idle =>
          cases h
          exact .callFree
      | _ => cases h
  | run ok clock =>
      rcases Option.or_eq_some_iff.mp h with h1 | ⟨-, h2⟩
      · exact move_of_walkStep h1
      · rcases Option.or_eq_some_iff.mp h2 with h3 | ⟨-, h4⟩
        · exact move_of_writeStep h3
        · exact move_of_freeStep h4

end Moves

end Lkp.RcuList
