/-
The module that shows what the list macros are for.

`list_init` makes five calls of `add2tail`, ignores what they return, then shows the list
with `showlist` and looks for two letters with `findinlist_letter`; `list_exit` frees the
list with `freelist`.  Nothing is locked.  The members `ival1` and `ival2` are of type
`int`, and so are the parameters of `add2tail`: what `list_init` makes from `jiffies` loses
its upper half on the way.

Node 0 is `head_node`.  Each load of a pointer, each of the four stores of
`list_add_tail` and each `kfree` is a step.
-/
import Lkp.Concurrency.Pool
import Lkp.Memory.Ring

namespace Lkp.ListDemo

/-! ### The data -/

/-- `struct node`, without its links. -/
structure Node where
  ival1 : BitVec 32
  ival2 : BitVec 32
  letter : BitVec 8
  deriving DecidableEq

/-- `head_node`. -/
def head : Nat := 0

/-- The list. -/
abbrev Drv := Ring Node

/-- A traversal. -/
inductive Walk
  | show
  | find (char2locate : BitVec 8)
  deriving DecidableEq

/--
What the world answers: the module is loaded or removed, or whether `kzalloc` succeeds and
what the two arguments made from `jiffies` come to.
-/
inductive Env
  | init
  | exit
  | run (ok : Bool) (clock : BitVec 64 × BitVec 64)
  deriving DecidableEq

/-- The nodes a traversal has read. -/
abbrev Seen := List (Nat × Node)

/-- Of each `add2tail` that was called: its node, or `none` for `-ENOMEM`. -/
abbrev Rets := List (Option Nat)

/-- Where a call has got to. -/
inductive Call
  | idle
  /-- In `list_init`, between two calls of `add2tail`. -/
  | init (rets : Rets)
  /-- `add2tail` entered with its arguments; `kzalloc` comes next. -/
  | add (rets : Rets) (nd : Node)
  /-- `mynode` is allocated. -/
  | addNew (rets : Rets) (nd : Node) (new : Nat)
  /-- It is filled in; `head->prev = new` comes next. -/
  | addHead (rets : Rets) (new : Nat)
  /-- `new->next = head` comes next. -/
  | addLink (rets : Rets) (new tail : Nat)
  /-- `new->prev = tail` comes next. -/
  | addBack (rets : Rets) (new tail : Nat)
  /-- `tail->next = new` comes next. -/
  | addTail (rets : Rets) (new tail : Nat)
  /-- In `list_init`, before a traversal, with what those before it have read. -/
  | look (shown : List Seen)
  /-- A traversal entered; `list_empty` comes next. -/
  | walk (shown : List Seen) (w : Walk)
  /-- The load of the first node comes next. -/
  | walkFirst (shown : List Seen) (w : Walk)
  /-- The test of the loop, with `curr` and the nodes read before. -/
  | walkAt (shown : List Seen) (w : Walk) (curr : Nat) (seen : Seen)
  /-- `curr` is read; the load of its `next` comes next. -/
  | walkNext (shown : List Seen) (w : Walk) (curr : Nat) (seen : Seen)
  /-- A traversal read a freed node. -/
  | walkOops
  /-- `list_init` returned 0. -/
  | initRet (shown : List Seen)
  /-- `freelist` entered; `list_empty` comes next. -/
  | free
  /-- The load of the first node comes next. -/
  | freeFirst
  /-- The test of the loop, with `curr`. -/
  | freeAt (curr : Nat)
  /-- `curr` is freed; the load of its `next` comes next. -/
  | freeNext (curr : Nat)
  /-- `list_exit` returned. -/
  | freeRet
  /-- `kfree` got a freed node. -/
  | freeOops
  deriving DecidableEq

/-! ### The functions -/

/-- The arguments of the calls of `add2tail` that `list_init` makes. -/
def addArgs (clock : BitVec 64 × BitVec 64) : Nat → Option Node
  | 0 => some { ival1 := 1, ival2 := 2, letter := 108 }
  | 1 => some { ival1 := 5, ival2 := 1000, letter := 107 }
  | 2 => some { ival1 := 3, ival2 := 1415, letter := 112 }
  -- `unsigned long` to `int`
  | 3 => some { ival1 := clock.1.setWidth 32, ival2 := clock.2.setWidth 32, letter := 50 }
  | 4 => some { ival1 := clock.1.setWidth 32, ival2 := clock.2.setWidth 32, letter := 69 }
  | _ => none

/-- The traversals that `list_init` makes. -/
def walks : Nat → Option Walk
  | 0 => some .show
  | 1 => some (.find 112)
  | 2 => some (.find 101)
  | _ => none

/-- Store into `x->next`. -/
def setNext (s : Drv) (x y : Nat) : Drv := { s with next := Function.update s.next x y }

/-- Store into `x->prev`. -/
def setPrev (s : Drv) (x y : Nat) : Drv := { s with prev := Function.update s.prev x y }

/-- The members of the new node and `INIT_LIST_HEAD(&mynode->list)`. -/
def fill (s : Drv) (new : Nat) (nd : Node) : Drv :=
  { setPrev (setNext s new new) new new with heap := s.heap.store new nd }

/-- The part of `list_init` that calls `add2tail`, one step at a time. -/
def addStep (ok : Bool) (clock : BitVec 64 × BitVec 64) (s : Drv) : Call → Option (Drv × Call)
  | .init rets =>
      match addArgs clock rets.length with
      | some nd => some (s, .add rets nd)
      | none => some (s, .look [])
  | .add rets nd =>
      if ok then
        some ({ s with heap := s.heap.alloc { ival1 := 0, ival2 := 0, letter := 0 } },
          .addNew rets nd s.heap.brk)
      else some (s, .init (rets ++ [none]))
  | .addNew rets nd new => some (fill s new nd, .addHead rets new)
  | .addHead rets new => some (setPrev s head new, .addLink rets new (s.prev head))
  | .addLink rets new tail => some (setNext s new head, .addBack rets new tail)
  | .addBack rets new tail => some (setPrev s new tail, .addTail rets new tail)
  | .addTail rets new tail => some (setNext s tail new, .init (rets ++ [some new]))
  | _ => none

/-- The part of `list_init` that calls `showlist` and `findinlist_letter`. -/
def walkStep (s : Drv) : Call → Option (Drv × Call)
  | .look shown =>
      match walks shown.length with
      | some w => some (s, .walk shown w)
      | none => some (s, .initRet shown)
  | .walk shown w =>
      some (s, if s.next head = head then .look (shown ++ [[]]) else .walkFirst shown w)
  | .walkFirst shown w => some (s, .walkAt shown w (s.next head) [])
  | .walkAt shown w curr seen =>
      if curr = head then some (s, .look (shown ++ [seen]))
      else
        match s.heap.obj curr with
        | some nd => some (s, .walkNext shown w curr (seen ++ [(curr, nd)]))
        | none => some (s, .walkOops)
  | .walkNext shown w curr seen =>
      match s.heap.obj curr with
      | some _ => some (s, .walkAt shown w (s.next curr) seen)
      | none => some (s, .walkOops)
  | _ => none

/-- `freelist`, one step at a time. -/
def freeStep (s : Drv) : Call → Option (Drv × Call)
  | .free => some (s, if s.next head = head then .freeRet else .freeFirst)
  | .freeFirst => some (s, .freeAt (s.next head))
  | .freeAt curr =>
      if curr = head then some (s, .freeRet)
      else
        match s.heap.obj curr with
        | some _ => some ({ s with heap := s.heap.free curr }, .freeNext curr)
        | none => some (s, .freeOops)
  -- `curr` is gone: what the loop reads is what `kfree` left there
  | .freeNext curr => some (s, .freeAt (s.next curr))
  | _ => none

/-- The module, one step at a time. -/
def step : CallStep Drv Call Env := fun _ e s l =>
  match e, l with
  | .init, .idle => some (s, .init [])
  | .exit, .idle => some (s, .free)
  | .run ok clock, l => (addStep ok clock s l).or ((walkStep s l).or (freeStep s l))
  | _, _ => none

/-- `LIST_HEAD(head_node)`. -/
def loaded : Drv := Ring.empty head

end Lkp.ListDemo
