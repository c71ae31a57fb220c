/-
The list driver that protects its list with a reader-writer spinlock.

`add2tail` allocates a node and, as writer, links it in at the tail; `showlist` and
`findinlist_letter` walk the list as readers; `freelist` takes no lock.  The write method
makes three calls of `add2tail` and ignores what they return.  The members `ival1` and
`ival2` are of type `int`, and so are the parameters of `add2tail`: what the write method
makes from `jiffies` loses its upper half on the way.

Node 0 is `head_node`.  Each load of a pointer, each of the four stores of
`list_add_tail`, each `kfree` and each operation of the lock is a step.
-/
import Lkp.Kernel.Basic
import Lkp.Concurrency.Pool
import Lkp.Concurrency.RwLock
import Lkp.Memory.Ring

namespace Lkp.RwList

/-! ### The data -/

/-- `struct node`, without its links. -/
structure Node where
  ival1 : BitVec 32
  ival2 : BitVec 32
  letter : BitVec 8
  deriving DecidableEq

/-- `head_node`. -/
def head : Nat := 0

/-- The list and its lock. -/
structure Drv extends Ring Node where
  rwlock : RwLock

/-- A traversal: the read method's `showlist`, or `findinlist_letter`. -/
inductive Walk
  | show (count : Nat)
  | find (char2locate : BitVec 8)
  deriving DecidableEq

/--
What the world answers: a call, or whether `kzalloc` succeeds and what the two
arguments made from `jiffies` come to.
-/
inductive Env
  | walk (w : Walk)
  | write (count : Nat)
  | free
  | run (ok : Bool) (clock : BitVec 64 × BitVec 64)
  deriving DecidableEq

/-- The nodes a traversal has read. -/
abbrev Seen := List (Nat × Node)

/-- Of each `add2tail` the write method has called: its node, or `none` for `-ENOMEM`. -/
abbrev Rets := List (Option Nat)

/-- Where a call has got to. -/
inductive Call
  | idle
  /-- `showlist` or `findinlist_letter` entered; `list_empty` comes next. -/
  | walk (w : Walk)
  /-- The list was not empty; `read_lock` comes next. -/
  | walkLock (w : Walk)
  /-- The load of the first node comes next. -/
  | walkFirst (w : Walk)
  /-- The test of the loop, with `curr` and the nodes read before. -/
  | walkAt (w : Walk) (curr : Nat) (seen : Seen)
  /-- `curr` is read; the load of its `next` comes next. -/
  | walkNext (w : Walk) (curr : Nat) (seen : Seen)
  | walkRet (w : Walk) (seen : Seen)
  /-- A traversal read a freed node. -/
  | walkOops
  /-- In `write_miscdrv_rdwr`, between two calls of `add2tail`. -/
  | write (count : Nat) (rets : Rets)
  /-- `add2tail` entered with its arguments; `kzalloc` comes next. -/
  | add (count : Nat) (rets : Rets) (nd : Node)
  /-- `mynode` is allocated. -/
  | addNew (count : Nat) (rets : Rets) (nd : Node) (new : Nat)
  /-- It is filled in; `write_lock` comes next. -/
  | addLock (count : Nat) (rets : Rets) (new : Nat)
  /-- The lock is held; `head->prev = new` comes next. -/
  | addHead (count : Nat) (rets : Rets) (new : Nat)
  /-- `new->next = head` comes next. -/
  | addLink (count : Nat) (rets : Rets) (new tail : Nat)
  /-- `new->prev = tail` comes next. -/
  | addBack (count : Nat) (rets : Rets) (new tail : Nat)
  /-- `tail->next = new` comes next. -/
  | addTail (count : Nat) (rets : Rets) (new tail : Nat)
  | addUnlock (count : Nat) (rets : Rets) (new : Nat)
  /-- `write_miscdrv_rdwr` returned `count`. -/
  | writeRet (count : Nat) (rets : Rets)
  /-- `freelist` entered; `list_empty` comes next. -/
  | free
  /-- The load of the first node comes next. -/
  | freeFirst
  /-- The test of the loop, with `curr`. -/
  | freeAt (curr : Nat)
  /-- `curr` is freed; the load of its `next` comes next. -/
  | freeNext (curr : Nat)
  | freeRet
  /-- `kfree` got a freed node. -/
  | freeOops
  deriving DecidableEq

/-! ### The methods -/

/-- The arguments of the calls of `add2tail` the write method makes. -/
def addArgs (clock : BitVec 64 × BitVec 64) : Nat → Option Node
  | 0 => some { ival1 := 1, ival2 := 2, letter := 82 }
  | 1 => some { ival1 := 3, ival2 := 1415, letter := 67 }
  -- `unsigned long` to `int`
  | 2 => some { ival1 := clock.1.setWidth 32, ival2 := clock.2.setWidth 32, letter := 85 }
  | _ => none

/-- Store into `x->next`. -/
def Drv.setNext (s : Drv) (x y : Nat) : Drv := { s with next := Function.update s.next x y }

/-- Store into `x->prev`. -/
def Drv.setPrev (s : Drv) (x y : Nat) : Drv := { s with prev := Function.update s.prev x y }

/-- The members of the new node and `INIT_LIST_HEAD(&mynode->list)`. -/
def Drv.fill (s : Drv) (new : Nat) (nd : Node) : Drv :=
  { (s.setNext new new).setPrev new new with heap := s.heap.store new nd }

/-- `showlist` and `findinlist_letter`, one step at a time. -/
def walkStep (c : Nat) (s : Drv) : Call → Option (Drv × Call)
  | .walk w => some (s, if s.next head = head then .walkRet w [] else .walkLock w)
  | .walkLock w => (s.rwlock.readLock c).map fun k => ({ s with rwlock := k }, .walkFirst w)
  | .walkFirst w => some (s, .walkAt w (s.next head) [])
  | .walkAt w curr seen =>
      if curr = head then some ({ s with rwlock := s.rwlock.readUnlock c }, .walkRet w seen)
      else
        match s.heap.obj curr with
        | some nd => some (s, .walkNext w curr (seen ++ [(curr, nd)]))
        | none => some (s, .walkOops)
  | .walkNext w curr seen =>
      match s.heap.obj curr with
      | some _ => some (s, .walkAt w (s.next curr) seen)
      | none => some (s, .walkOops)
  | _ => none

/-- `write_miscdrv_rdwr` and `add2tail`, one step at a time; `ok` is `kzalloc` going well. -/
def writeStep (c : Nat) (ok : Bool) (clock : BitVec 64 × BitVec 64) (s : Drv) :
    Call → Option (Drv × Call)
  | .write count rets =>
      match addArgs clock rets.length with
      | some nd => some (s, .add count rets nd)
      | none => some (s, .writeRet count rets)
  | .add count rets nd =>
      if ok then
        some ({ s with heap := s.heap.alloc { ival1 := 0, ival2 := 0, letter := 0 } },
          .addNew count rets nd s.heap.brk)
      else some (s, .write count (rets ++ [none]))
  | .addNew count rets nd new => some (s.fill new nd, .addLock count rets new)
  | .addLock count rets new =>
      (s.rwlock.writeLock c).map fun k => ({ s with rwlock := k }, .addHead count rets new)
  | .addHead count rets new => some (s.setPrev head new, .addLink count rets new (s.prev head))
  | .addLink count rets new tail => some (s.setNext new head, .addBack count rets new tail)
  | .addBack count rets new tail => some (s.setPrev new tail, .addTail count rets new tail)
  | .addTail count rets new tail => some (s.setNext tail new, .addUnlock count rets new)
  | .addUnlock count rets new =>
      some ({ s with rwlock := s.rwlock.writeUnlock }, .write count (rets ++ [some new]))
  | _ => none

/-- `freelist`, one step at a time. -/
def freeStep (s : Drv) : Call → Option (Drv × Call)
  | .free => some (s, if s.next head = head then .freeRet else .freeFirst)
  | .freeFirst => some (s, .freeAt (s.next head))
  | .freeAt curr =>
      if curr = head then some (s, .freeRet)
      else
        match s.heap.obj curr with
        | some _ => some ({ s with heap := s.heap.free curr }, .freeNext curr)
        | none => some (s, .freeOops)
  -- `curr` is gone: what the loop reads is what `kfree` left there
  | .freeNext curr => some (s, .freeAt (s.next curr))
  | _ => none

/-- The driver, one step of a call at a time. -/
def step : CallStep Drv Call Env := fun c e s l =>
  match e, l with
  | .walk w, .idle => some (s, .walk w)
  | .write count, .idle => some (s, .write count [])
  | .free, .idle => some (s, .free)
  | .run ok clock, l => (walkStep c s l).or ((writeStep c ok clock s l).or (freeStep s l))
  | _, _ => none

/-- The module is loaded: `LIST_HEAD(head_node)` and `DEFINE_RWLOCK(rwlock)`. -/
def loaded : Drv := { Ring.empty head with rwlock := .unlocked }

end Lkp.RwList
