/-
Writing and showing the RCU list with nobody else about.

While no call is under way the list is a ring with some view, the lock is free and no
section open (`Quiet`).  The four stores of `list_add_tail_rcu` come in another order than
those of `list_add_tail`, and make the same ring.
-/
import Lkp.RcuList.Append
import Lkp.Concurrency.Appends

namespace Lkp.RcuList

/-- The call is over. -/
def Returned : Call → Prop
  | .walkRet _ _ | .writeRet _ _ | .freeRet => True
  | _ => False

/-- A call of `add2tail` is over. -/
def AddReturned : Call → Prop
  | .write _ _ => True
  | l => Returned l

theorem addReturned_of_returned (l : Call) (h : Returned l) : AddReturned l := by
  cases l with
  | write _ _ => trivial
  | _ => exact h

/-- A write for which call `k` of `add2tail` gets memory if `oks k`. -/
def writing (count : Nat) (oks : Nat → Bool) (clock : BitVec 64 × BitVec 64) : Call → Env
  | .idle => .write count
  | l => .run (oks (retsOf l).length) clock

/-- A read. -/
def showing (count : Nat) : Call → Env
  | .idle => .walk (.show count)
  | _ => .run true (0, 0)

/-- The nodes of a write that got memory, call `k` and the `n - 1` after it. -/
def written (oks : Nat → Bool) (clock : BitVec 64 × BitVec 64) (k n : Nat) : List Node :=
  Ring.granted (addArgs clock) oks k n

/-- The links of the list, and its nodes. -/
def Drv.ring (s : Drv) : Ring Node := { heap := s.heap, next := s.next, prev := s.prev }

/-- The list is `l`, and no call is under way. -/
structure Quiet (s : Drv) (l : List (Nat × Node)) : Prop where
  lists : s.ring.Lists head l
  writelock : s.writelock = none
  rcu : s.rcu.opened = ∅

/-- The module is loaded: `LIST_HEAD(head_node)` and `DEFINE_SPINLOCK(writelock)`. -/
def loaded : Drv where
  heap := (Ring.empty head).heap
  next := id
  prev := id
  writelock := none
  rcu := .fresh
  base := []
  order := []
  took := []
  limbo := none

theorem loaded_quiet : Quiet loaded [] := ⟨Ring.empty_lists head, rfl, rfl⟩

section Calls

variable {c count : Nat} {oks : Nat → Bool} {clock : BitVec 64 × BitVec 64} {s s' : Drv}
  {l : List (Nat × Node)} {rets : Rets} {nd : Node} {e' : Call} {ok : Bool}

/-! ### The places where a step has a condition -/

theorem step_write : step c (.run ok clock) s (.write count rets) =
    some (s, (addArgs clock rets.length).elim (.writeRet count rets) (.add count rets)) := by
  have hwrite : writeStep c ok clock s (.write count rets) =
      some (s, (addArgs clock rets.length).elim (.writeRet count rets) (.add count rets)) := by
    rw [writeStep]
    cases addArgs clock rets.length <;> rfl
  exact congrArg (Option.or · none) hwrite

theorem step_walk {w : Walk} :
    step c (.run ok clock) s (.walk w) =
      some (s, if s.next head = head then .walkRet w [] else .walkLock w) := rfl

theorem step_addLock {new : Nat} (hfree : s.writelock = none) :
    step c (.run ok clock) s (.addLock count rets new) =
      some ({ s with writelock := some c, took := s.took ++ [new] }, .addLink count rets new) := by
  show Option.or (if s.writelock = none then _ else none) none = _
  rw [if_pos hfree]
  rfl

theorem step_walkAt {w : Walk} {t curr : Nat} {seen : Seen} (hne : curr ≠ head)
    (hobj : s.heap.obj curr = some nd) :
    step c (.run ok clock) s (.walkAt w t curr seen) =
      some (s, .walkNext w t curr (seen ++ [(curr, nd)])) := by
  show Option.or (if curr = head then _ else _) _ = _
  rw [if_neg hne, hobj]
  rfl

theorem step_walkNext {w : Walk} {t curr : Nat} {seen : Seen}
    (hobj : s.heap.obj curr = some nd) :
    step c (.run ok clock) s (.walkNext w t curr seen) =
      some (s, .walkAt w t (s.next curr) seen) := by
  have hwalk : walkStep s (.walkNext w t curr seen) = some (s, .walkAt w t (s.next curr) seen) := by
    rw [walkStep, hobj]
  exact congrArg (Option.or · none) hwalk

/-! ### `add2tail` -/

/-- The stores of `list_add_tail_rcu` into a new node make the ring with that node appended. -/
theorem stores_eq (z : Node) :
    s.ring.append head nd =
      { heap := (s.heap.alloc z).store s.heap.brk nd
        next := Function.update (Function.update (Function.update s.next s.heap.brk s.heap.brk)
          s.heap.brk head) (s.prev head) s.heap.brk
        prev := Function.update (Function.update (Function.update s.prev s.heap.brk s.heap.brk)
          s.heap.brk (s.prev head)) head s.heap.brk } := by
  rw [Heap.alloc_store, Function.update_idem, Function.update_idem]
  rfl

/-- The driver after an `add2tail` of its own. -/
def Drv.add2tail (s : Drv) (nd : Node) : Drv :=
  { s with
    heap := (s.ring.append head nd).heap
    next := (s.ring.append head nd).next
    prev := (s.ring.append head nd).prev
    writelock := none
    order := s.order ++ [s.heap.brk]
    took := s.took ++ [s.heap.brk] }

theorem Quiet.append (h : Quiet s l) : Quiet (s.add2tail nd) (l ++ [(s.heap.brk, nd)]) :=
  ⟨h.lists.append, rfl, h.rcu⟩

/-- With memory the node goes behind the last one. -/
theorem Quiet.adds (h : Quiet s l) (hok : oks rets.length = true) :
    Returns step AddReturned c (writing count oks clock) s (.add count rets nd) (s.add2tail nd)
      (.write count (rets ++ [some s.heap.brk])) := by
  have hadd : step c (.run (oks rets.length) clock) s (.add count rets nd) =
      some ({ s with heap := s.heap.alloc { ival1 := 0, ival2 := 0, letter := 0 } },
        .addNew count rets nd s.heap.brk) := by
    rw [hok]
    rfl
  have hload : ∀ t : Drv, t.prev head = s.prev head →
      step c (.run (oks rets.length) clock) t (.addLink count rets s.heap.brk) =
        some (t.setNext s.heap.brk head, .addBack count rets s.heap.brk (s.prev head)) := by
    intro t ht
    rw [← ht]
    rfl
  rw [Drv.add2tail, stores_eq { ival1 := 0, ival2 := 0, letter := 0 }]
  refine .step id hadd (.step id rfl (.step id (step_addLock h.writelock) ?_))
  refine .step id (hload _ (Function.update_of_ne h.lists.brk_ne_head.symm ..)) ?_
  exact .step id rfl (.step id rfl (.step id rfl (.step id rfl (.done trivial))))

/-- Without, nothing happens. -/
theorem step_add_noMem (hok : oks rets.length = false) :
    step c (.run (oks rets.length) clock) s (.add count rets nd) =
      some (s, .write count (rets ++ [none])) := by
  rw [hok]
  rfl

/-! ### A write -/

/-- The write method, as it appends. -/
def appender : Appender Drv Call Env Nat (BitVec 64 × BitVec 64) Node where
  step := step
  done := Returned
  tried := AddReturned
  world oks count clock := writing count oks clock
  idle := .idle
  place := .write
  attempt := .add
  ret := .writeRet
  args := addArgs
  tries := 3
  ring := Drv.ring
  head := head
  quiet := Quiet

/-- **A write makes its attempts in turn**, and each that gets memory appends its node. -/
theorem appender_lawful : appender.Lawful where
  lists _ _ h := h.lists
  args := addArgs_isSome
  begins _ _ _ _ _ := ⟨id, rfl⟩
  goes _ _ _ _ _ _ := ⟨id, step_write⟩
  adds _ _ _ _ _ _ _ _ h hok := ⟨_, rfl, h.append, h.adds hok⟩
  fails _ _ _ _ _ _ _ hok := ⟨id, step_add_noMem hok⟩
  tried := addReturned_of_returned
  ret _ _ := trivial

/-- The three nodes of a write. -/
def nodesOf (clock : BitVec 64 × BitVec 64) : List Node := written (fun _ => true) clock 0 3

/-- A write appends its three nodes, or it reports an error and leaves the list alone. -/
def WritesWhole (c count : Nat) (oks : Nat → Bool) (clock : BitVec 64 × BitVec 64) (s : Drv)
    (l : List (Nat × Node)) : Prop :=
  ∃ s' n rets, Returns step Returned c (writing count oks clock) s .idle s' (.writeRet n rets) ∧
    AllOrNothing n count (∃ xs, s'.ring.Lists head (l ++ xs) ∧ xs.map Prod.snd = nodesOf clock)
      (s'.ring.Lists head l)

/-! ### A read -/

/-- The loop of `showlist`, from the first node to the head. -/
theorem Quiet.show_loop {t : Nat} (h : s.ring.Lists head l) :
    Returns step Returned c (showing count) s (.walkAt (.show count) t (s.next head) [])
      { s with rcu := s.rcu.unlock t } (.walkRet (.show count) l) := by
  have hlists : s.ring.Lists head ([] ++ l) := h
  refine Returns.walks ?_ l (s.next head) [] hlists h.ring
    (.step id rfl (.done trivial))
  intro curr seen nd hne hobj hrest
  exact .step id (step_walkAt hne hobj) (.step id (step_walkNext hobj) hrest)

/-- **A read shows the list as it is**, and leaves it so. -/
theorem Quiet.show (c count : Nat) (h : Quiet s l) :
    ∃ s', Returns step Returned c (showing count) s .idle s' (.walkRet (.show count) l) ∧
      Quiet s' l := by
  by_cases hempty : s.next head = head
  · have hnil : l = [] := h.lists.next_eq_iff.mp hempty
    have hwalk : step c (.run true (0, 0)) s (.walk (.show count)) =
        some (s, .walkRet (.show count) []) := by
      rw [step_walk, if_pos hempty]
    exact ⟨s, hnil ▸ .step id rfl (.step id hwalk (.done trivial)), h⟩
  · have hwalk : step c (.run true (0, 0)) s (.walk (.show count)) =
        some (s, .walkLock (.show count)) := by
      rw [step_walk, if_neg hempty]
    refine ⟨{ s with rcu := s.rcu.lock.unlock s.rcu.next },
      .step id rfl (.step id hwalk (.step id rfl (.step id rfl ?_))), h.lists, h.writelock, ?_⟩
    · have hlists : ({ s with rcu := s.rcu.lock } : Drv).ring.Lists head l := h.lists
      exact Quiet.show_loop hlists
    · show (insert s.rcu.next s.rcu.opened).erase s.rcu.next = ∅
      rw [h.rcu]
      simp

/-- The read method, and what it reports. -/
def reader (count : Nat) : Reader appender Walk where
  start := loaded
  w := .show count
  world := showing count
  ret := .walkRet

theorem reader_lawful (count : Nat) : (reader count).Lawful where
  start := loaded_quiet
  shows c _ _ h := by
    obtain ⟨s', hshow, -⟩ := h.show c count
    exact ⟨s', hshow⟩
  injective _ _ heq := (Call.walkRet.inj heq).2

/-! ### Writes, and then a read -/

/-- What `showlist` prints of a node: `%16llu %16llu      %c`. -/
def Node.line (nd : Node) : Line := (nd.ival1.toNat, nd.ival2.toNat, nd.letter)

/-- What a read prints after writes that all get memory, from the loading of the module on. -/
def Prints (c count : Nat) (writes : List (Nat × BitVec 64 × BitVec 64)) (out : List Line) : Prop :=
  ∃ s s' seen,
    InTurn step Returned c .idle (writes.map fun w => writing w.1 (fun _ => true) w.2) loaded s ∧
      Returns step Returned c (showing count) s .idle s' (.walkRet (.show count) seen) ∧
      out = seen.map fun x => x.2.line

/-- **A read prints what the writes have made, in their order.** -/
theorem prints_iff {writes : List (Nat × BitVec 64 × BitVec 64)} {out : List Line} :
    Prints c count writes out ↔
      out = writes.flatMap fun w => (nodesOf w.2).map Node.line :=
  (reader_lawful count).prints_iff appender_lawful Node.line

end Calls

end Lkp.RcuList
