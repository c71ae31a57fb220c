/-
Freeing the list of the RCU driver with nobody else about.

Each pass unlinks `curr` with `list_del_rcu` and frees it, and then the loop asks `curr` for
the next node: it is `list_for_each_entry_rcu`, and there is no safe form of that.  The
nodes are all unlinked, so that `head_node` is left an empty list.
-/
import Lkp.RcuList.Alone
import Lkp.Concurrency.Freeing

namespace Lkp.RcuList

/-- What a call of `freelist` is answered. -/
def freeing : Call → Env
  | .idle => .free
  | _ => .run true (0, 0)

/-- `freelist`. -/
def freelist : Freer Drv Call Env Node where
  step := step
  done := Returned
  world := freeing
  start := .idle
  ret := .freeRet
  ring := Drv.ring
  head := head
  frees
    | .freeKfree curr => some curr
    | _ => none
  reads
    -- `list_del_rcu` reads both links
    | .freeAt curr => if curr = head then none else some curr
    | .freeNext curr => some curr
    | _ => none

/-- A call of `add2tail` that gets memory. -/
def Adds (nd : Node) (s s' : Drv) : Prop :=
  ∃ c new, Returns step AddReturned c (writing 0 (fun _ => true) (0, 0)) s (.add 0 [] nd) s'
    (.write 0 [some new])

section Freeing

variable {c : Nat} {s s' : Drv} {l : List (Nat × Node)} {x : Nat × Node} {nd : Node}
  {nds : List Node} {curr : Nat}

/-! ### `freelist` -/

theorem step_free : step c (.run true (0, 0)) s .free =
    some (s, if s.next head = head then .freeRet else .freeSync) := rfl

theorem step_freeWait {bound : Nat} (hover : s.rcu.Over bound) :
    step c (.run true (0, 0)) s (.freeWait bound) = some (s, .freeLock) := by
  show Option.or none (Option.or none (if s.rcu.Over bound then _ else none)) = _
  rw [if_pos hover]
  rfl

theorem step_freeLock (hfree : s.writelock = none) :
    step c (.run true (0, 0)) s .freeLock = some ({ s with writelock := some c }, .freeFirst) := by
  show Option.or none (Option.or none (if s.writelock = none then _ else none)) = _
  rw [if_pos hfree]
  rfl

theorem step_freeAt_head : step c (.run true (0, 0)) s (.freeAt head) =
    some ({ s with writelock := none }, .freeRet) := rfl

theorem step_freeAt (hne : curr ≠ head) (hobj : s.heap.obj curr = some nd) :
    step c (.run true (0, 0)) s (.freeAt curr) =
      some (s.listDelRcu curr, .freeKfree curr) := by
  show Option.or none (Option.or none (if curr = head then _ else _)) = _
  rw [if_neg hne, hobj]
  rfl

theorem Quiet.next_eq_iff (h : Quiet s l) : s.next head = head ↔ l = [] := h.lists.next_eq_iff

/-- The list is not empty, and `freelist` comes to its first node with the lock held. -/
theorem Quiet.runs_first (h : Quiet s l) (hne : l ≠ []) {tr : List (Drv × Call)} :
    freelist.Runs c s .idle tr s' ↔
      ∃ tr₁, tr = (s, .idle) :: (s, .free) :: (s, .freeSync) :: (s, .freeWait s.rcu.next) ::
          (s, .freeLock) :: ({ s with writelock := some c }, .freeFirst) :: tr₁ ∧
        freelist.Runs c { s with writelock := some c } (.freeAt (s.next head)) tr₁ s' := by
  have hfree : step c (.run true (0, 0)) s .free = some (s, .freeSync) := by
    rw [step_free, if_neg (mt h.next_eq_iff.mp hne)]
  have hover : s.rcu.Over s.rcu.next := by
    intro t ht
    rw [h.rcu] at ht
    simp at ht
  have hwait := step_freeWait (c := c) hover
  have hlock := step_freeLock (c := c) h.writelock
  constructor
  · intro hruns
    obtain ⟨_, rfl, h₁⟩ := hruns.rest id rfl
    obtain ⟨_, rfl, h₂⟩ := h₁.rest id hfree
    obtain ⟨_, rfl, h₃⟩ := h₂.rest id rfl
    obtain ⟨_, rfl, h₄⟩ := h₃.rest id hwait
    obtain ⟨_, rfl, h₅⟩ := h₄.rest id hlock
    obtain ⟨tr₁, rfl, h₆⟩ := h₅.rest id rfl
    exact ⟨tr₁, rfl, h₆⟩
  · intro hex
    obtain ⟨tr₁, rfl, hruns⟩ := hex
    refine .step id rfl (.step id hfree (.step id rfl (.step id hwait ?_)))
    exact .step id hlock (.step id rfl hruns)

/-- One pass of the loop unlinks the first node and frees it. -/
theorem ring_pass (hl : s.ring.Lists head (x :: l)) :
    ((s.listDelRcu x.1).kfree x.1).ring = s.ring.dropFirst head := by
  have hnext : s.next head = x.1 := hl.next_head
  have hprev : s.prev x.1 = head := hl.back.1
  show Ring.mk (s.heap.free x.1) (Function.update s.next (s.prev x.1) (s.next x.1))
    (Function.update s.prev (s.next x.1) (s.prev x.1)) =
      Ring.mk (s.heap.free (s.next head)) (Function.update s.next head (s.next (s.next head)))
        (Function.update s.prev (s.next (s.next head)) head)
  rw [hnext, hprev]

/-- The loop is at the first of the nodes that are left. -/
structure Rest (s : Drv) (curr : Nat) (rest : List Nat) : Prop where
  view : ∃ l, s.ring.Lists head l ∧ l.map Prod.fst = rest
  curr : curr = s.next head
  rcu : s.rcu.opened = ∅

theorem Rest.pass {rest : List Nat} {o : Nat} (h : Rest s curr (o :: rest)) :
    ∃ s₁ y pre, Rest s₁ y rest ∧ freelist.freed pre = [o] ∧
      ∀ tr s', freelist.Runs c s₁ (.freeAt y) tr s' →
        freelist.Runs c s (.freeAt curr) (pre ++ tr) s' := by
  obtain ⟨l, hlists, hl⟩ := h.view
  obtain ⟨x, l, rfl, rfl, rfl⟩ := List.map_eq_cons_iff.mp hl
  have hx : x.1 ≠ head := fun heq => hlists.head_notMem (by simp [← heq])
  have hobj : s.heap.obj x.1 = some x.2 := hlists.data x List.mem_cons_self
  have hcurr : curr = x.1 := h.curr.trans hlists.next_head
  have hprev : s.prev x.1 = head := hlists.back.1
  have hring := ring_pass hlists
  have hself : (s.listDelRcu x.1).next x.1 = s.next x.1 := by
    show Function.update s.next (s.prev x.1) (s.next x.1) x.1 = _
    rw [hprev, Function.update_of_ne hx]
  have hhead : (s.listDelRcu x.1).next head = s.next x.1 := by
    show Function.update s.next (s.prev x.1) (s.next x.1) head = _
    rw [hprev, Function.update_self]
  refine ⟨(s.listDelRcu x.1).kfree x.1, s.next x.1, [(s, .freeAt x.1),
    (s.listDelRcu x.1, .freeKfree x.1), ((s.listDelRcu x.1).kfree x.1, .freeNext x.1)],
    ⟨⟨l, hring ▸ hlists.dropFirst, rfl⟩, hhead.symm, h.rcu⟩, rfl, fun tr s' hruns => ?_⟩
  rw [hcurr]
  rw [← hself] at hruns
  exact .step id (step_freeAt (c := c) hx hobj) (.step id rfl (.step id rfl hruns))

theorem Rest.finish (h : Rest s curr []) :
    ∃ tr s', freelist.Runs c s (.freeAt curr) tr s' ∧ freelist.freed tr = [] ∧ Quiet s' [] := by
  obtain ⟨l, hlists, hl⟩ := h.view
  obtain rfl := List.map_eq_nil_iff.mp hl
  have hcurr : curr = head := h.curr.trans (hlists.next_eq_iff.mpr rfl)
  rw [hcurr]
  exact ⟨[(s, .freeAt head)], { s with writelock := none },
    .step id (step_freeAt_head (c := c)) (.done trivial), rfl, hlists, rfl, h.rcu⟩

/-- **Each node is freed once**, and the list is empty afterwards. -/
theorem Quiet.frees_once (h : Quiet s l) (hne : l ≠ []) :
    ∃ tr s', freelist.Runs c s .idle tr s' ∧ freelist.freed tr = l.map Prod.fst ∧
      Quiet s' [] := by
  have hrest : Rest { s with writelock := some c } (s.next head) (l.map Prod.fst) :=
    ⟨⟨l, h.lists, rfl⟩, rfl, h.rcu⟩
  obtain ⟨tr, s', hruns, hfreed, hquiet⟩ :=
    Freer.runs_loop (fun _ _ _ _ => Rest.pass) (fun _ _ => Rest.finish) _ _ _ hrest
  refine ⟨_, s', (h.runs_first hne).mpr ⟨tr, rfl, hruns⟩, ?_, hquiet⟩
  simp only [Freer.freed_cons, hfreed]
  rfl

/-- **`freelist` frees the empty list as it should, and no other.** -/
theorem Quiet.freesList_iff (h : Quiet s l) : freelist.FreesList c s ↔ l = [] := by
  constructor
  · intro hfrees
    by_contra hne
    obtain ⟨x, rest, rfl⟩ := List.exists_cons_of_ne_nil hne
    have hx : x.1 ≠ head := fun heq => h.lists.head_notMem (by simp [← heq])
    have hobj : s.heap.obj x.1 = some x.2 := h.lists.data x List.mem_cons_self
    refine Freer.not_freesList_of_stale
      (t := (Drv.listDelRcu { s with writelock := some c } x.1).kfree x.1)
      (l := Call.freeNext x.1) (fun tr s' hruns => ?_) rfl Heap.free_self hfrees
    obtain ⟨tr₁, rfl, h₁⟩ := (h.runs_first hne).mp hruns
    rw [show s.next head = x.1 from h.lists.next_head] at h₁
    obtain ⟨tr₂, rfl, h₂⟩ := h₁.rest id (step_freeAt (c := c) hx hobj)
    obtain ⟨tr₃, rfl, h₃⟩ := h₂.rest id rfl
    obtain ⟨tr₄, rfl, -⟩ := h₃.rest id rfl
    simp
  · intro hnil
    subst hnil
    have hfree : step c (.run true (0, 0)) s .free = some (s, .freeRet) := by
      rw [step_free, if_pos (h.next_eq_iff.mpr rfl)]
    have hruns : freelist.Runs c s freelist.start [(s, .idle), (s, .free)] s :=
      .step id rfl (.step id hfree (.done trivial))
    refine Freer.freesList_of_empty h.lists hruns rfl ?_
    simp [freelist]

/-! ### Lists that `add2tail` has built -/

/-- Every list can be built. -/
theorem exists_built (nds : List Node) : ∃ s, BuiltBy Adds loaded nds s :=
  appender_lawful.exists_built loaded_quiet nds

theorem freesList_of_built (h : BuiltBy Adds loaded nds s) :
    freelist.FreesList c s ↔ nds = [] :=
  appender_lawful.freesList_iff loaded_quiet (fun _ _ => Quiet.freesList_iff) h

end Freeing

end Lkp.RcuList
