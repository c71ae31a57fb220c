/-
Writing and showing the list with nobody else about.

While no call is under way the list is a ring with some view, and the lock is free
(`Quiet`).  An `add2tail` that can allocate appends its node to the ring, one that cannot
leaves it alone; a write does that three times over, and `showlist` reads the view from
its first node to its last.
-/
import Lkp.RwList.Driver
import Lkp.Concurrency.Appends

namespace Lkp.RwList

/-- The call is over. -/
def Returned : Call → Prop
  | .walkRet _ _ | .writeRet _ _ | .freeRet => True
  | _ => False

/-- A call of `add2tail` is over. -/
def AddReturned : Call → Prop
  | .write _ _ => True
  | l => Returned l

theorem addReturned_of_returned (l : Call) (h : Returned l) : AddReturned l := by
  cases l with
  | write _ _ => trivial
  | _ => exact h

/-- What the calls of `add2tail` of one write have returned so far. -/
def retsOf : Call → Rets
  | .write _ rets | .add _ rets _ | .addNew _ rets _ _ | .addLock _ rets _ | .addHead _ rets _
  | .addLink _ rets _ _ | .addBack _ rets _ _ | .addTail _ rets _ _ | .addUnlock _ rets _
  | .writeRet _ rets => rets
  | _ => []

/-- A write for which call `k` of `add2tail` gets memory if `oks k`. -/
def writing (count : Nat) (oks : Nat → Bool) (clock : BitVec 64 × BitVec 64) : Call → Env
  | .idle => .write count
  | l => .run (oks (retsOf l).length) clock

/-- A read. -/
def showing (count : Nat) : Call → Env
  | .idle => .walk (.show count)
  | _ => .run true (0, 0)

/-- The nodes of a write that got memory, call `k` and the `n - 1` after it. -/
def written (oks : Nat → Bool) (clock : BitVec 64 × BitVec 64) (k n : Nat) : List Node :=
  Ring.granted (addArgs clock) oks k n

/-- The list is `l`, and no call is under way. -/
structure Quiet (s : Drv) (l : List (Nat × Node)) : Prop where
  lists : s.Lists head l
  rwlock : s.rwlock = .unlocked

theorem loaded_quiet : Quiet loaded [] := ⟨Ring.empty_lists head, rfl⟩

section Calls

variable {c count : Nat} {oks : Nat → Bool} {clock : BitVec 64 × BitVec 64} {s s' : Drv}
  {l : List (Nat × Node)} {rets : Rets} {nd : Node} {e' : Call} {ok : Bool}

/-- A write makes three calls of `add2tail`. -/
theorem addArgs_isSome (clock : BitVec 64 × BitVec 64) (k : Nat) :
    (addArgs clock k).isSome ↔ k < 3 := by
  match k with
  | 0 => simp [addArgs]
  | 1 => simp [addArgs]
  | 2 => simp [addArgs]
  | k + 3 => simp [addArgs]

/-! ### The places where a step has a condition -/

theorem step_write : step c (.run ok clock) s (.write count rets) =
    some (s, (addArgs clock rets.length).elim (.writeRet count rets) (.add count rets)) := by
  have hwrite : writeStep c ok clock s (.write count rets) =
      some (s, (addArgs clock rets.length).elim (.writeRet count rets) (.add count rets)) := by
    rw [writeStep]
    cases addArgs clock rets.length <;> rfl
  exact congrArg (Option.or · none) hwrite

theorem step_walk {w : Walk} :
    step c (.run ok clock) s (.walk w) =
      some (s, if s.next head = head then .walkRet w [] else .walkLock w) := rfl

theorem step_addLock {new : Nat} :
    step c (.run ok clock) s (.addLock count rets new) =
      ((s.rwlock.writeLock c).map fun k => ({ s with rwlock := k }, .addHead count rets new)).or
        none := rfl

theorem step_walkAt {w : Walk} {curr : Nat} {seen : Seen} (hne : curr ≠ head)
    (hobj : s.heap.obj curr = some nd) :
    step c (.run ok clock) s (.walkAt w curr seen) =
      some (s, .walkNext w curr (seen ++ [(curr, nd)])) := by
  show Option.or (if curr = head then _ else _) _ = _
  rw [if_neg hne, hobj]
  rfl

theorem step_walkNext {w : Walk} {curr : Nat} {seen : Seen} (hobj : s.heap.obj curr = some nd) :
    step c (.run ok clock) s (.walkNext w curr seen) = some (s, .walkAt w (s.next curr) seen) := by
  have hwalk : walkStep c s (.walkNext w curr seen) = some (s, .walkAt w (s.next curr) seen) := by
    rw [walkStep, hobj]
  exact congrArg (Option.or · none) hwalk

/-! ### `add2tail` -/

/-- With memory the node goes behind the last one. -/
theorem Quiet.adds (h : Quiet s l) (hok : oks rets.length = true) :
    Returns step AddReturned c (writing count oks clock) s (.add count rets nd)
      { s.append head nd with rwlock := .unlocked }
      (.write count (rets ++ [some s.heap.brk])) := by
  have hadd : step c (.run (oks rets.length) clock) s (.add count rets nd) =
      some ({ s with heap := s.heap.alloc { ival1 := 0, ival2 := 0, letter := 0 } },
        .addNew count rets nd s.heap.brk) := by
    rw [hok]
    rfl
  have hlock : ∀ t : Drv, t.rwlock = .unlocked →
      step c (.run (oks rets.length) clock) t (.addLock count rets s.heap.brk) =
        some ({ t with rwlock := { RwLock.unlocked with writer := some c } },
          .addHead count rets s.heap.brk) := by
    intro t ht
    rw [step_addLock, ht]
    rfl
  have hload : ∀ t : Drv, t.prev head = s.prev head →
      step c (.run (oks rets.length) clock) t (.addHead count rets s.heap.brk) =
        some (t.setPrev head s.heap.brk, .addLink count rets s.heap.brk (s.prev head)) := by
    intro t ht
    rw [← ht]
    rfl
  rw [h.lists.append_eq { ival1 := 0, ival2 := 0, letter := 0 }]
  refine .step id hadd (.step id rfl (.step id (hlock _ h.rwlock) ?_))
  refine .step id (hload _ (Function.update_of_ne h.lists.brk_ne_head.symm ..)) ?_
  exact .step id rfl (.step id rfl (.step id rfl (.step id rfl (.done trivial))))

/-- Without, nothing happens. -/
theorem step_add_noMem (hok : oks rets.length = false) :
    step c (.run (oks rets.length) clock) s (.add count rets nd) =
      some (s, .write count (rets ++ [none])) := by
  rw [hok]
  rfl

/-! ### A write -/

/-- The write method, as it appends. -/
def appender : Appender Drv Call Env Nat (BitVec 64 × BitVec 64) Node where
  step := step
  done := Returned
  tried := AddReturned
  world oks count clock := writing count oks clock
  idle := .idle
  place := .write
  attempt := .add
  ret := .writeRet
  args := addArgs
  tries := 3
  ring := Drv.toRing
  head := head
  quiet := Quiet

/-- **A write makes its attempts in turn**, and each that gets memory appends its node. -/
theorem appender_lawful : appender.Lawful where
  lists _ _ h := h.lists
  args := addArgs_isSome
  begins _ _ _ _ _ := ⟨id, rfl⟩
  goes _ _ _ _ _ _ := ⟨id, step_write⟩
  adds _ _ _ _ _ _ _ _ h hok := ⟨_, rfl, ⟨h.lists.append, rfl⟩, h.adds hok⟩
  fails _ _ _ _ _ _ _ hok := ⟨id, step_add_noMem hok⟩
  tried := addReturned_of_returned
  ret _ _ := trivial

/-- The three nodes of a write. -/
def nodesOf (clock : BitVec 64 × BitVec 64) : List Node := written (fun _ => true) clock 0 3

/-- A write appends its three nodes, or it reports an error and leaves the list alone. -/
def WritesWhole (c count : Nat) (oks : Nat → Bool) (clock : BitVec 64 × BitVec 64) (s : Drv)
    (l : List (Nat × Node)) : Prop :=
  ∃ s' n rets, Returns step Returned c (writing count oks clock) s .idle s' (.writeRet n rets) ∧
    AllOrNothing n count (∃ xs, s'.Lists head (l ++ xs) ∧ xs.map Prod.snd = nodesOf clock)
      (s'.Lists head l)

/-! ### A read -/

/-- The loop of `showlist`, from the first node to the head. -/
theorem Quiet.show_loop {k : RwLock} (h : s.Lists head l) :
    Returns step Returned c (showing count) { s with rwlock := k }
      (.walkAt (.show count) (s.next head) []) { s with rwlock := k.readUnlock c }
      (.walkRet (.show count) l) := by
  have hlists : s.Lists head ([] ++ l) := h
  refine Returns.walks ?_ l (s.next head) [] hlists h.ring
    (.step id rfl (.done trivial))
  intro curr seen nd hne hobj hrest
  exact .step id (step_walkAt hne hobj) (.step id (step_walkNext hobj) hrest)

/-- **A read shows the list as it is**, and leaves it so. -/
theorem Quiet.show (c count : Nat) (h : Quiet s l) :
    ∃ s', Returns step Returned c (showing count) s .idle s' (.walkRet (.show count) l) ∧
      Quiet s' l := by
  by_cases hempty : s.next head = head
  · have hnil : l = [] := h.lists.next_eq_iff.mp hempty
    have hwalk : step c (.run true (0, 0)) s (.walk (.show count)) =
        some (s, .walkRet (.show count) []) := by
      rw [step_walk, if_pos hempty]
    exact ⟨s, hnil ▸ .step id rfl (.step id hwalk (.done trivial)), h⟩
  · have hwalk : step c (.run true (0, 0)) s (.walk (.show count)) =
        some (s, .walkLock (.show count)) := by
      rw [step_walk, if_neg hempty]
    have hlock : step c (.run true (0, 0)) s (.walkLock (.show count)) =
        some ({ s with rwlock := { RwLock.unlocked with readers := {c} } },
          .walkFirst (.show count)) := by
      show Option.or ((s.rwlock.readLock c).map _) _ = _
      rw [h.rwlock]
      rfl
    refine ⟨{ s with rwlock := RwLock.readUnlock { RwLock.unlocked with readers := {c} } c },
      .step id rfl (.step id hwalk (.step id hlock (.step id rfl ?_))), h.lists, ?_⟩
    · exact Quiet.show_loop h.lists
    · simp [RwLock.readUnlock, RwLock.unlocked]

/-- The read method, and what it reports. -/
def reader (count : Nat) : Reader appender Walk where
  start := loaded
  w := .show count
  world := showing count
  ret := .walkRet

theorem reader_lawful (count : Nat) : (reader count).Lawful where
  start := loaded_quiet
  shows c _ _ h := by
    obtain ⟨s', hshow, -⟩ := h.show c count
    exact ⟨s', hshow⟩
  injective _ _ heq := (Call.walkRet.inj heq).2

/-! ### Writes, and then a read -/

/-- What `showlist` prints of a node: `%9d %9d   %c`. -/
def Node.line (nd : Node) : Line := (nd.ival1.toInt, nd.ival2.toInt, nd.letter)

/-- What a read prints after writes that all get memory, from the loading of the module on. -/
def Prints (c count : Nat) (writes : List (Nat × BitVec 64 × BitVec 64)) (out : List Line) : Prop :=
  ∃ s s' seen,
    InTurn step Returned c .idle (writes.map fun w => writing w.1 (fun _ => true) w.2) loaded s ∧
      Returns step Returned c (showing count) s .idle s' (.walkRet (.show count) seen) ∧
      out = seen.map fun x => x.2.line

/-- **A read prints what the writes have made, in their order.** -/
theorem prints_iff {writes : List (Nat × BitVec 64 × BitVec 64)} {out : List Line} :
    Prints c count writes out ↔
      out = writes.flatMap fun w => (nodesOf w.2).map Node.line :=
  (reader_lawful count).prints_iff appender_lawful Node.line

end Calls

end Lkp.RwList
