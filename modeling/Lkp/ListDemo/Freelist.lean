/-
Loading the list module, and freeing its list when it is removed.

`list_init` builds a list of the nodes it got memory for, and each traversal reads them
from the first to the last (`listInit`).  `list_exit` frees them in a loop that asks a node
it has freed for the next one, and so do the two modules rewritten from this one, with a
reader-writer lock and with RCU: what `freelist` is to do, it does to the empty list only
(`freesList_iff`).
-/
import Lkp.ListDemo.Driver
import Lkp.RwList.Freelist
import Lkp.RcuList.Freelist

namespace Lkp.ListDemo

/-- The call is over. -/
def Returned : Call → Prop
  | .initRet _ | .freeRet => True
  | _ => False

/-- The last call of `add2tail` is over. -/
def AllAdded : Call → Prop
  | .look _ => True
  | l => Returned l

/-- A call of `add2tail` is over. -/
def AddReturned : Call → Prop
  | .init _ => True
  | l => AllAdded l

theorem allAdded_of_returned (l : Call) (h : Returned l) : AllAdded l := by
  cases l with
  | look _ => trivial
  | _ => exact h

theorem addReturned_of_allAdded (l : Call) (h : AllAdded l) : AddReturned l := by
  cases l with
  | init _ => trivial
  | _ => exact h

/-- What the calls of `add2tail` have returned so far. -/
def retsOf : Call → Rets
  | .init rets | .add rets _ | .addNew rets _ _ | .addHead rets _ | .addLink rets _ _
  | .addBack rets _ _ | .addTail rets _ _ => rets
  | _ => []

/-- The module is loaded, and call `k` of `add2tail` gets memory if `oks k`. -/
def loading (oks : Nat → Bool) (clock : BitVec 64 × BitVec 64) : Call → Env
  | .idle => .init
  | l => .run (oks (retsOf l).length) clock

/-- The module is removed. -/
def removing : Call → Env
  | .idle => .exit
  | _ => .run true (0, 0)

/-- The nodes of `list_init` that get memory. -/
def listed (oks : Nat → Bool) (clock : BitVec 64 × BitVec 64) : List Node :=
  Ring.granted (addArgs clock) oks 0 5

/-- `freelist`. -/
def freelist : Freer Drv Call Env Node where
  step := step
  done := Returned
  world := removing
  start := .idle
  ret := .freeRet
  ring := id
  head := head
  frees
    | .freeAt curr => if curr = head then none else some curr
    | _ => none
  reads
    | .freeNext curr => some curr
    | _ => none

/-- A call of `add2tail` that gets memory. -/
def Adds (nd : Node) (s s' : Drv) : Prop :=
  ∃ c new, Returns step AddReturned c (loading (fun _ => true) (0, 0)) s (.add [] nd) s'
    (.init [some new])

section Calls

variable {c : Nat} {oks : Nat → Bool} {clock : BitVec 64 × BitVec 64} {s s' : Drv}
  {l : List (Nat × Node)} {rets : Rets} {nd : Node} {nds : List Node} {e' : Call} {ok : Bool}
  {curr : Nat} {shown : List Seen} {w : Walk}

/-! ### `add2tail` -/

/-- `list_init` makes five calls of `add2tail`. -/
theorem addArgs_isSome (clock : BitVec 64 × BitVec 64) (k : Nat) :
    (addArgs clock k).isSome ↔ k < 5 := by
  match k with
  | 0 | 1 | 2 | 3 | 4 => simp [addArgs]
  | k + 5 => simp [addArgs]

theorem step_init : step c (.run ok clock) s (.init rets) =
    some (s, (addArgs clock rets.length).elim (.look []) (.add rets)) := by
  have hadd : addStep ok clock s (.init rets) =
      some (s, (addArgs clock rets.length).elim (.look []) (.add rets)) := by
    rw [addStep]
    cases addArgs clock rets.length <;> rfl
  exact congrArg (Option.or · none) hadd

/-- With memory the node goes behind the last one. -/
theorem adds (h : s.Lists head l) (hok : oks rets.length = true) :
    Returns step AddReturned c (loading oks clock) s (.add rets nd) (s.append head nd)
      (.init (rets ++ [some s.heap.brk])) := by
  have hadd : step c (.run (oks rets.length) clock) s (.add rets nd) =
      some ({ s with heap := s.heap.alloc { ival1 := 0, ival2 := 0, letter := 0 } },
        .addNew rets nd s.heap.brk) := by
    rw [hok]
    rfl
  have hload : ∀ t : Drv, t.prev head = s.prev head →
      step c (.run (oks rets.length) clock) t (.addHead rets s.heap.brk) =
        some (setPrev t head s.heap.brk, .addLink rets s.heap.brk (s.prev head)) := by
    intro t ht
    rw [← ht]
    rfl
  rw [h.append_eq { ival1 := 0, ival2 := 0, letter := 0 }]
  refine .step id hadd (.step id rfl ?_)
  refine .step id (hload _ (Function.update_of_ne h.brk_ne_head.symm ..)) ?_
  exact .step id rfl (.step id rfl (.step id rfl (.done trivial)))

/-- Without, nothing happens. -/
theorem step_add_noMem (hok : oks rets.length = false) :
    step c (.run (oks rets.length) clock) s (.add rets nd) = some (s, .init (rets ++ [none])) := by
  rw [hok]
  rfl

/-- `list_init`, as far as it calls `add2tail`. -/
def appender : Appender Drv Call Env Unit (BitVec 64 × BitVec 64) Node where
  step := step
  done := AllAdded
  tried := AddReturned
  world oks _ clock := loading oks clock
  idle := .idle
  place _ := .init
  attempt _ := .add
  ret _ _ := .look []
  args := addArgs
  tries := 5
  ring := id
  head := head
  quiet s l := s.Lists head l

theorem appender_lawful : appender.Lawful where
  lists _ _ h := h
  args := addArgs_isSome
  begins _ _ _ _ _ := ⟨id, rfl⟩
  goes c _ _ _ _ _ := ⟨id, step_init (c := c)⟩
  adds _ _ _ _ _ _ _ _ h hok := ⟨_, rfl, h.append, adds h hok⟩
  fails c _ _ _ _ _ _ hok := ⟨id, step_add_noMem (c := c) hok⟩
  tried := addReturned_of_allAdded
  ret _ _ := trivial

/-! ### `list_init` -/

theorem step_look (hw : walks shown.length = some w) :
    step c (.run ok clock) s (.look shown) = some (s, .walk shown w) := by
  have hwalk : walkStep s (.look shown) = some (s, .walk shown w) := by rw [walkStep, hw]
  exact congrArg (Option.or none <| Option.or · none) hwalk

theorem step_walk : step c (.run ok clock) s (.walk shown w) =
    some (s, if s.next head = head then .look (shown ++ [[]]) else .walkFirst shown w) := rfl

theorem step_walkAt {seen : Seen} (hne : curr ≠ head) (hobj : s.heap.obj curr = some nd) :
    step c (.run ok clock) s (.walkAt shown w curr seen) =
      some (s, .walkNext shown w curr (seen ++ [(curr, nd)])) := by
  show Option.or none (Option.or (if curr = head then _ else _) _) = _
  rw [if_neg hne, hobj]
  rfl

theorem step_walkNext {seen : Seen} (hobj : s.heap.obj curr = some nd) :
    step c (.run ok clock) s (.walkNext shown w curr seen) =
      some (s, .walkAt shown w (s.next curr) seen) := by
  have hwalk : walkStep s (.walkNext shown w curr seen) =
      some (s, .walkAt shown w (s.next curr) seen) := by
    rw [walkStep, hobj]
  exact congrArg (Option.or none <| Option.or · none) hwalk

/-- A traversal reads the list as it is. -/
theorem walks_list (h : s.Lists head l) (hw : walks shown.length = some w)
    (hrest : Returns step Returned c (loading oks clock) s (.look (shown ++ [l])) s' e') :
    Returns step Returned c (loading oks clock) s (.look shown) s' e' := by
  refine .step id (step_look hw) ?_
  by_cases hempty : s.next head = head
  · obtain rfl := h.next_eq_iff.mp hempty
    refine .step id step_walk ?_
    rw [if_pos hempty]
    exact hrest
  · refine .step id step_walk ?_
    rw [if_neg hempty]
    refine .step id rfl ?_
    have hlists : s.Lists head ([] ++ l) := h
    refine Returns.walks ?_ l (s.next head) [] hlists h.ring (.step id rfl hrest)
    intro curr seen nd hne hobj hback
    exact .step id (step_walkAt hne hobj) (.step id (step_walkNext hobj) hback)

/-- **`list_init` lists the nodes that got memory**, and reads them three times over. -/
theorem listInit (c : Nat) (oks : Nat → Bool) (clock : BitVec 64 × BitVec 64) :
    ∃ s l, Returns step Returned c (loading oks clock) loaded .idle s (.initRet [l, l, l]) ∧
      s.Lists head l ∧ l.map Prod.snd = listed oks clock := by
  obtain ⟨s, -, hrun, hs⟩ : ∃ (s : Drv) (_ : Rets),
      Returns step AllAdded c (loading oks clock) loaded .idle s (.look []) ∧
        s.Lists head (loaded.added (listed oks clock)) :=
    appender_lawful.appends (Ring.empty_lists head) c oks () clock
  refine ⟨s, _, hrun.trans allAdded_of_returned ?_, hs, Ring.map_added _⟩
  refine walks_list hs rfl (walks_list hs rfl (walks_list hs rfl ?_))
  exact .step id rfl (.done trivial)

/-! ### `freelist` -/

theorem step_freeAt (hne : curr ≠ head) (hobj : s.heap.obj curr = some nd) :
    step c (.run true (0, 0)) s (.freeAt curr) =
      some ({ s with heap := s.heap.free curr }, .freeNext curr) := by
  show Option.or none (Option.or none (if curr = head then _ else _)) = _
  rw [if_neg hne, hobj]
  rfl

theorem freelist_leaving (c : Nat) :
    freelist.Leaving c .free .freeFirst Call.freeAt Call.freeNext where
  start s := ⟨id, rfl⟩
  empty s := ⟨id, rfl⟩
  first s := ⟨id, rfl⟩
  free s x hx hobj := by
    obtain ⟨nd, hnd⟩ := Option.ne_none_iff_exists'.mp hobj
    exact ⟨{ s with heap := s.heap.free x }, rfl, id, step_freeAt (c := c) hx hnd⟩
  next s x := ⟨id, rfl⟩
  stop s := ⟨id, rfl⟩
  ret := trivial
  frees x := rfl
  freesNot := ⟨rfl, rfl, rfl, fun _ => rfl⟩
  reads x := rfl
  readsNot := ⟨rfl, rfl⟩

/-- **Each node is freed once**, and `head_node` points where it did. -/
theorem frees_once (h : s.Lists head l) (hne : l ≠ []) :
    ∃ tr s', freelist.Runs c s .idle tr s' ∧ freelist.freed tr = l.map Prod.fst ∧
      s'.next = s.next :=
  (freelist_leaving c).frees_once h hne

/-! ### Lists that `add2tail` has built -/

/-- Every list can be built. -/
theorem exists_built (nds : List Node) : ∃ s, BuiltBy Adds loaded nds s :=
  appender_lawful.exists_built (b := ()) (Ring.empty_lists head) nds

theorem freesList_of_built (h : BuiltBy Adds loaded nds s) : freelist.FreesList c s ↔ nds = [] :=
  appender_lawful.freesList_iff (b := ()) (Ring.empty_lists head)
    (fun _ _ hl => (freelist_leaving c).freesList_iff hl) h

/-! ### The three of them -/

/--
**`freelist` frees the empty list as it should, and no other**: not in this module, not with
the reader-writer lock and not with RCU.
-/
theorem freelists_iff (c : Nat) :
    (∀ nds s, BuiltBy Adds loaded nds s → (freelist.FreesList c s ↔ nds = [])) ∧
      (∀ nds s, BuiltBy RwList.Adds RwList.loaded nds s →
        (RwList.freelist.FreesList c s ↔ nds = [])) ∧
      ∀ nds s, BuiltBy RcuList.Adds RcuList.loaded nds s →
        (RcuList.freelist.FreesList c s ↔ nds = []) :=
  ⟨fun _ _ => freesList_of_built, fun _ _ => RwList.freesList_of_built,
    fun _ _ => RcuList.freesList_of_built⟩

/-- The empty list and the list of one node, built and freed. -/
theorem freelists_emptyAndOne :
    (∃ s, BuiltBy Adds loaded [] s ∧ freelist.FreesList 0 s) ∧
      (∃ s, BuiltBy RwList.Adds RwList.loaded [⟨1, 2, 82⟩] s ∧
        ¬ RwList.freelist.FreesList 0 s) ∧
      ∃ s, BuiltBy RcuList.Adds RcuList.loaded [⟨1, 2, 82⟩] s ∧
        ¬ RcuList.freelist.FreesList 0 s := by
  obtain ⟨hdemo, hrw, hrcu⟩ := freelists_iff 0
  obtain ⟨s, hs⟩ := exists_built []
  obtain ⟨t, ht⟩ := RwList.exists_built [⟨1, 2, 82⟩]
  obtain ⟨u, hu⟩ := RcuList.exists_built [⟨1, 2, 82⟩]
  refine ⟨⟨s, hs, (hdemo _ s hs).mpr rfl⟩, ⟨t, ht, fun h => ?_⟩, u, hu, fun h => ?_⟩
  · cases (hrw _ t ht).mp h
  · cases (hrcu _ u hu).mp h

/-- With the first node of `list_init` on it, the list is not freed as it should be. -/
theorem not_freelists :
    ¬ (∀ s, BuiltBy Adds loaded [⟨1, 2, 108⟩] s → freelist.FreesList 0 s) ∧
      ¬ (∀ s, BuiltBy RwList.Adds RwList.loaded [⟨1, 2, 82⟩] s →
        RwList.freelist.FreesList 0 s) ∧
      ¬ ∀ s, BuiltBy RcuList.Adds RcuList.loaded [⟨1, 2, 82⟩] s →
        RcuList.freelist.FreesList 0 s := by
  refine ⟨fun h => ?_, fun h => ?_, fun h => ?_⟩
  · obtain ⟨s, hs⟩ := exists_built [⟨1, 2, 108⟩]
    cases (freesList_of_built hs).mp (h s hs)
  · obtain ⟨s, hs⟩ := RwList.exists_built [⟨1, 2, 82⟩]
    cases (RwList.freesList_of_built hs).mp (h s hs)
  · obtain ⟨s, hs⟩ := RcuList.exists_built [⟨1, 2, 82⟩]
    cases (RcuList.freesList_of_built hs).mp (h s hs)

end Calls

end Lkp.ListDemo
