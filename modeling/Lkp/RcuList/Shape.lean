/-
The list is a list in every state.

Whoever is between the four stores of an insertion or in the loop of `freelist`
holds `writelock`, so there is one such call at a time, and what is unfinished can
be said of the place it has got to (`At`).  The forward pointers need no such
care: they form the list in every state (`Linked`), because an insertion shows in
one store and a removal in one.  It is on this that walks without a lock rest.

Nothing here depends on who runs with whom: writers, traversals and any number of
`freelist` calls are all covered.
-/
import Lkp.RcuList.Driver

namespace Lkp.RcuList

/-! ### Reading a place -/

/-- `writelock` is held. -/
def holdsLock : Call → Bool
  | .addLink _ _ _ => true
  | .addBack _ _ _ _ => true
  | .addPublish _ _ _ _ => true
  | .addTail _ _ _ => true
  | .addUnlock _ _ _ => true
  | .freeFirst => true
  | .freeAt _ => true
  | .freeKfree _ => true
  | .freeNext _ => true
  | .freeOops => true
  | _ => false

/-- The ticket of the section a traversal is in. -/
def ticketOf : Call → Option Nat
  | .walkFirst _ t => some t
  | .walkAt _ t _ _ => some t
  | .walkNext _ t _ _ => some t
  | .walkOops t => some t
  | _ => none

/-- The node a writer has allocated and not yet published. -/
def newOf : Call → Option Nat
  | .addNew _ _ _ new => some new
  | .addLock _ _ new => some new
  | .addLink _ _ new => some new
  | .addBack _ _ new _ => some new
  | .addPublish _ _ new _ => some new
  | _ => none

/-! ### The invariant -/

/-- The list, whoever is at work on it. -/
structure Shape (s : Drv) : Prop where
  linked : Linked s
  heap : s.heap.WF
  brk : 0 < s.heap.brk
  rcu : s.rcu.WF
  free : s.writelock = none → Settled s
  /-- The node about to be freed still points into the list. -/
  limbo : ∀ x, s.limbo = some x →
    x ∉ head :: s.order ∧ s.next x = s.next head ∧ ∃ nd, s.heap.obj x = some nd

/-- How far the call that holds the lock has got. -/
def At (s : Drv) : Call → Prop
  | .addLink _ _ _ => Settled s
  | .addBack _ _ new tail => Settled s ∧ tail = tailOf head s.order ∧ s.next new = head
  | .addPublish _ _ new tail =>
      Settled s ∧ tail = tailOf head s.order ∧ s.next new = head ∧ s.prev new = tail
  | .addTail _ _ new => s.limbo = none ∧ new = tailOf head s.order
  | .addUnlock _ _ _ => Settled s
  | .freeFirst => Settled s
  | .freeAt curr => Settled s ∧ curr = s.next head
  | .freeKfree curr => s.prev head = tailOf head s.order ∧ s.limbo = some curr
  | .freeNext curr =>
      Settled s ∧ s.next curr = s.next head ∧ curr < s.heap.brk ∧ s.heap.obj curr = none
  | .freeOops => False
  | _ => True

/-- The lock, the section and the place of one call. -/
structure Placed (c : Nat) (s : Drv) (l : Call) : Prop where
  lock : Owned c s.writelock (holdsLock l)
  ticket : s.rcu.InSection (ticketOf l)
  /-- A node of its own is allocated and no part of the list. -/
  new : ∀ x, newOf l = some x →
    (∃ nd, s.heap.obj x = some nd) ∧ x ∉ head :: s.order ∧ s.limbo ≠ some x
  place : At s l

/-- Two calls share neither a ticket nor a new node. -/
structure Distinct (l m : Call) : Prop where
  ticket : Rcu.Apart (ticketOf l) (ticketOf m)
  new : ∀ x, newOf l = some x → newOf m ≠ some x

/-- Without the lock there is nothing unfinished. -/
theorem at_of_not_holdsLock {s : Drv} {l : Call} (h : holdsLock l = false) : At s l := by
  cases l <;> trivial

/-! ### One step -/

section Steps

variable {c d : Nat} {s s' : Drv} {l l' m : Call}

theorem Move.lockStep (h : Move c s l s' l') :
    LockStep c s.writelock (holdsLock l) s'.writelock (holdsLock l') := by
  cases h with
  | lock count rets new hfree | freeLock hfree =>
      rw [hfree]
      exact .take
  | unlock count rets new => exact .drop _
  | freeEnd => exact .drop _
  | _ => exact .keep _ _

theorem Move.rcuSection (h : Move c s l s' l') :
    Rcu.Section s.rcu (ticketOf l) s'.rcu (ticketOf l') := by
  cases h with
  | readLock w => exact .lock _
  | readUnlock w t seen => exact .unlock _ _
  | _ => exact .keep _ _

/-- A store into a link of a node that is no part of the list leaves the list alone. -/
theorem Linked.setNext (hl : Linked s) {x y : Nat} (hx : x ∉ head :: s.order) :
    Linked (s.setNext x y) where
  ring := by
    have hhead : head ≠ x := fun heq => hx (heq ▸ List.mem_cons_self)
    show Path (Function.update s.next x y) (Function.update s.next x y head) s.order head
    rw [Function.update_of_ne hhead]
    refine hl.ring.congr fun z hz => Function.update_of_ne ?_ ..
    intro heq
    subst heq
    exact hx (List.mem_cons_of_mem _ hz)
  nodup := hl.nodup
  back := hl.back
  alive := hl.alive

theorem Linked.setPrev (hl : Linked s) {x y : Nat} (hx : x ∉ s.order) :
    Linked (s.setPrev x y) where
  ring := hl.ring
  nodup := hl.nodup
  back := by
    refine hl.back.congr fun z hz => Function.update_of_ne ?_ ..
    intro heq
    subst heq
    exact hx hz
  alive := hl.alive

/-- The list gains the new node. -/
theorem Linked.publish (hl : Linked s) {new tail : Nat} {nd : Node}
    (hnew : new ∉ head :: s.order) (hobj : s.heap.obj new = some nd)
    (htail : tail = tailOf head s.order) (hnext : s.next new = head) (hprev : s.prev new = tail) :
    Linked (s.publish new tail) where
  ring := by
    subst htail
    exact hl.ring.publish hl.nodup hnew hnext
  nodup := by
    show ((head :: s.order) ++ [new]).Nodup
    refine List.nodup_append.mpr ⟨hl.nodup, List.nodup_singleton _, fun a ha b hb => ?_⟩
    rw [List.mem_singleton.mp hb]
    intro heq
    subst heq
    exact hnew ha
  back := hl.back.concat (hprev.trans htail)
  alive x hx := by
    rcases List.mem_append.mp hx with hold | hlast
    · exact hl.alive x hold
    · exact ⟨nd, List.mem_singleton.mp hlast ▸ hobj⟩

/-- The list loses its first node. -/
theorem Linked.listDelRcu (hl : Linked s) {x : Nat} {rest : List Nat}
    (horder : s.order = x :: rest) : Linked (s.listDelRcu x) ∧ (s.listDelRcu x).order = rest := by
  have hring := hl.ring
  have hnodup := hl.nodup
  have hback := hl.back
  rw [horder] at hring hnodup hback
  have hprev : s.prev x = head := hback.1
  have hrest : (s.listDelRcu x).order = rest := by simp [Drv.listDelRcu, horder]
  have hnext : (s.listDelRcu x).next = Function.update s.next head (s.next x) := by
    simp [Drv.listDelRcu, Drv.setNext, Drv.setPrev, hprev]
  have hhead : head ∉ x :: rest := (List.nodup_cons.mp hnodup).1
  have hxrest : x ∉ rest := (List.nodup_cons.mp (List.nodup_cons.mp hnodup).2).1
  refine ⟨⟨?_, ?_, ?_, ?_⟩, hrest⟩
  · rw [hrest, hnext]
    exact Path.unlink_first hring hhead
  · rw [hrest]
    exact List.nodup_cons.mpr ⟨fun hmem => hhead (List.mem_cons_of_mem _ hmem),
      (List.nodup_cons.mp (List.nodup_cons.mp hnodup).2).2⟩
  · rw [hrest]
    show Back (Function.update s.prev (s.next x) (s.prev x)) head rest
    cases rest with
    | nil => trivial
    | cons y rest =>
        -- only the node after `x` gets a new `prev`
        have hy : s.next x = y := hring.2.1
        have hyrest : y ∉ rest :=
          (List.nodup_cons.mp (List.nodup_cons.mp (List.nodup_cons.mp hnodup).2).2).1
        rw [hy, hprev]
        refine ⟨Function.update_self .., hback.2.2.congr fun z hz => Function.update_of_ne ?_ ..⟩
        intro heq
        subst heq
        exact hyrest hz
  · rw [hrest]
    intro y hy
    exact hl.alive y (horder ▸ List.mem_cons_of_mem _ hy)

/-- After it `head->prev` is the last of what is left. -/
theorem Linked.tail_listDelRcu (hl : Linked s) {x : Nat} {rest : List Nat}
    (horder : s.order = x :: rest) (htail : s.prev head = tailOf head s.order) :
    (s.listDelRcu x).prev head = tailOf head rest := by
  have hring := hl.ring
  have hnodup := hl.nodup
  have hback := hl.back
  rw [horder] at hring hnodup hback
  show Function.update s.prev (s.next x) (s.prev x) head = tailOf head rest
  cases rest with
  | nil =>
      have hnext : s.next x = head := hring.2
      rw [hnext, Function.update_self]
      exact hback.1
  | cons y rest =>
      have hnext : s.next x = y := hring.2.1
      have hne : head ≠ y := fun heq => (List.nodup_cons.mp hnodup).1 (by simp [heq])
      rw [hnext, Function.update_of_ne hne, htail, horder, tailOf_cons, tailOf_cons, tailOf_cons]

/-- The first node of a list that is not empty. -/
theorem Linked.first (hl : Linked s) (hne : s.next head ≠ head) :
    ∃ rest, s.order = s.next head :: rest := hl.ring.cons_of_ne hne

theorem Settled.of_eq (hs : Settled s) (hprev : s'.prev head = s.prev head)
    (horder : s'.order = s.order) (hlimbo : s'.limbo = s.limbo) : Settled s' :=
  ⟨by rw [hprev, horder]; exact hs.tail, by rw [hlimbo]; exact hs.limbo⟩

theorem Shape.order_lt (hS : Shape s) {x : Nat} (hx : x ∈ s.order) : x < s.heap.brk := by
  obtain ⟨nd, hobj⟩ := hS.linked.alive x hx
  exact hS.heap.lt hobj

/-- The address allocated next is new to the list. -/
theorem Shape.brk_fresh (hS : Shape s) : s.heap.brk ∉ head :: s.order := by
  intro hmem
  rcases List.mem_cons.mp hmem with heq | hin
  · exact absurd hS.brk (heq ▸ Nat.lt_irrefl _)
  · exact Nat.lt_irrefl _ (hS.order_lt hin)

/-- A store into `next` of a node that is no part of the list. -/
theorem Shape.setNext (hS : Shape s) {x y : Nat} (hx : x ∉ head :: s.order)
    (hlimbo : s.limbo ≠ some x) : Shape (s.setNext x y) where
  linked := hS.linked.setNext hx
  heap := hS.heap
  brk := hS.brk
  rcu := hS.rcu
  free hlock := (hS.free hlock).of_eq rfl rfl rfl
  limbo z hz := by
    obtain ⟨hmem, hnext, hobj⟩ := hS.limbo z hz
    have hzx : z ≠ x := by
      intro heq
      subst heq
      exact hlimbo hz
    have hhead : head ≠ x := fun heq => hx (heq ▸ List.mem_cons_self)
    refine ⟨hmem, ?_, hobj⟩
    show Function.update s.next x y z = Function.update s.next x y head
    rw [Function.update_of_ne hzx, Function.update_of_ne hhead]
    exact hnext

/-- A store into its `prev`. -/
theorem Shape.setPrev (hS : Shape s) {x y : Nat} (hx : x ∉ head :: s.order) :
    Shape (s.setPrev x y) where
  linked := hS.linked.setPrev fun hmem => hx (List.mem_cons_of_mem _ hmem)
  heap := hS.heap
  brk := hS.brk
  rcu := hS.rcu
  free hlock := by
    have hhead : head ≠ x := fun heq => hx (heq ▸ List.mem_cons_self)
    exact (hS.free hlock).of_eq (Function.update_of_ne hhead ..) rfl rfl
  limbo := hS.limbo

/-- A change of the heap that frees nothing. -/
theorem Shape.heapGrows (hS : Shape s) {h' : Heap Node} (hw : h'.WF) (hbrk : s.heap.brk ≤ h'.brk)
    (hobj : ∀ x nd, s.heap.obj x = some nd → ∃ nd', h'.obj x = some nd') :
    Shape { s with heap := h' } where
  linked :=
    { hS.linked with
      alive := fun x hx => by
        obtain ⟨nd, hnd⟩ := hS.linked.alive x hx
        exact hobj x nd hnd }
  heap := hw
  brk := Nat.lt_of_lt_of_le hS.brk hbrk
  rcu := hS.rcu
  free hlock := (hS.free hlock).of_eq rfl rfl rfl
  limbo x hx := by
    obtain ⟨hmem, hnext, nd, hnd⟩ := hS.limbo x hx
    exact ⟨hmem, hnext, hobj x nd hnd⟩

theorem alloc_grows (hS : Shape s) (z : Node) :
    ∀ x nd, s.heap.obj x = some nd → ∃ nd', (s.heap.alloc z).obj x = some nd' :=
  fun _ nd hnd => ⟨nd, (Heap.alloc_of_lt (hS.heap.lt hnd)).trans hnd⟩

theorem store_grows (y : Nat) (z : Node) :
    ∀ x nd, s.heap.obj x = some nd → ∃ nd', (s.heap.store y z).obj x = some nd' := by
  intro x nd hnd
  by_cases hxy : x = y
  · exact ⟨z, hxy ▸ Heap.store_self⟩
  · exact ⟨nd, (Heap.store_of_ne hxy).trans hnd⟩

/-- Filling in a new node. -/
theorem Shape.fill (hS : Shape s) {new : Nat} {nd : Node} (hnew : new ∉ head :: s.order)
    (hlimbo : s.limbo ≠ some new) (hobj : ∃ nd, s.heap.obj new = some nd) :
    Shape (s.fill new nd) := by
  obtain ⟨nd', hnd'⟩ := hobj
  have hlinks : Shape ((s.setNext new new).setPrev new new) :=
    (hS.setNext hnew hlimbo).setPrev hnew
  exact hlinks.heapGrows (hS.heap.store (hS.heap.lt hnd')) (Nat.le_refl _) (store_grows new nd)

/-- While somebody holds the lock the list need not be settled. -/
theorem Shape.ofHeld (hL : Linked s') (hheap : s'.heap.WF) (hbrk : 0 < s'.heap.brk)
    (hrcu : s'.rcu.WF) (hheld : s'.writelock = some c)
    (hlimbo : ∀ x, s'.limbo = some x →
      x ∉ head :: s'.order ∧ s'.next x = s'.next head ∧ ∃ nd, s'.heap.obj x = some nd) :
    Shape s' where
  linked := hL
  heap := hheap
  brk := hbrk
  rcu := hrcu
  free hlock := by
    rw [hheld] at hlock
    cases hlock
  limbo := hlimbo

/-- The list after one step. -/
theorem Move.shape (h : Move c s l s' l') (hS : Shape s) (hl : Placed c s l) : Shape s' := by
  have hheld : holdsLock l = true → s.writelock = some c := hl.lock.mp
  cases h with
  | readLock w =>
      exact ⟨{ hS.linked with }, hS.heap, hS.brk, (Rcu.Section.lock _).wf hS.rcu,
        fun hlock => (hS.free hlock).of_eq rfl rfl rfl, hS.limbo⟩
  | readUnlock w t seen =>
      exact ⟨{ hS.linked with }, hS.heap, hS.brk, (Rcu.Section.unlock _ t).wf hS.rcu,
        fun hlock => (hS.free hlock).of_eq rfl rfl rfl, hS.limbo⟩
  | alloc count rets nd =>
      exact hS.heapGrows hS.heap.alloc (Nat.le_succ _) (alloc_grows hS _)
  | fill count rets nd new =>
      obtain ⟨hobj, hnew, hlimbo⟩ := hl.new new rfl
      exact hS.fill hnew hlimbo hobj
  | lock count rets new hfree | freeLock hfree =>
      exact .ofHeld { hS.linked with } hS.heap hS.brk hS.rcu rfl hS.limbo
  | link count rets new =>
      obtain ⟨-, hnew, hlimbo⟩ := hl.new new rfl
      exact hS.setNext hnew hlimbo
  | back count rets new tail =>
      obtain ⟨-, hnew, -⟩ := hl.new new rfl
      exact hS.setPrev hnew
  | publish count rets new tail =>
      obtain ⟨⟨nd, hobj⟩, hnew, -⟩ := hl.new new rfl
      obtain ⟨hsettled, htail, hnext, hprev⟩ := hl.place
      refine .ofHeld (hS.linked.publish hnew hobj htail hnext hprev) hS.heap hS.brk hS.rcu
        (hheld rfl) fun x hx => ?_
      exact absurd (hsettled.limbo.symm.trans hx) nofun
  | tail count rets new =>
      refine .ofHeld (hS.linked.setPrev (List.nodup_cons.mp hS.linked.nodup).1) hS.heap hS.brk
        hS.rcu (hheld rfl) fun x hx => ?_
      exact absurd (hl.place.1.symm.trans hx) nofun
  | unlock count rets new =>
      exact ⟨{ hS.linked with }, hS.heap, hS.brk, hS.rcu, fun _ => hl.place.of_eq rfl rfl rfl,
        hS.limbo⟩
  | freeEnd =>
      exact ⟨{ hS.linked with }, hS.heap, hS.brk, hS.rcu, fun _ => hl.place.1.of_eq rfl rfl rfl,
        hS.limbo⟩
  | del curr hne hobj =>
      obtain ⟨hsettled, rfl⟩ := hl.place
      obtain ⟨rest, horder⟩ := hS.linked.first hne
      obtain ⟨hlinked, hrest⟩ := hS.linked.listDelRcu horder
      refine .ofHeld hlinked hS.heap hS.brk hS.rcu (hheld rfl) fun x hx => ?_
      cases hx
      have hnodup := hS.linked.nodup
      rw [horder] at hnodup
      refine ⟨fun hmem => ?_, ?_, _, hobj⟩
      · rw [hrest] at hmem
        rcases List.mem_cons.mp hmem with heq | hin
        · exact hne heq
        · exact (List.nodup_cons.mp (List.nodup_cons.mp hnodup).2).1 hin
      · have hback := hS.linked.back
        rw [horder] at hback
        have hprev : s.prev (s.next head) = head := hback.1
        show Function.update s.next (s.prev (s.next head)) (s.next (s.next head)) (s.next head) =
          Function.update s.next (s.prev (s.next head)) (s.next (s.next head)) head
        rw [hprev, Function.update_self, Function.update_of_ne hne]
  | kfree curr =>
      obtain ⟨-, hlimbo⟩ := hl.place
      obtain ⟨hcurr, -⟩ := hS.limbo curr hlimbo
      refine .ofHeld { hS.linked with alive := fun x hx => ?_ } hS.heap.free hS.brk hS.rcu
        (hheld rfl) fun x hx => nomatch hx
      obtain ⟨nd, hnd⟩ := hS.linked.alive x hx
      have hne : x ≠ curr := by
        intro heq
        subst heq
        exact hcurr (List.mem_cons_of_mem _ hx)
      exact ⟨nd, (Heap.free_of_ne hne).trans hnd⟩
  | _ => exact hS

/-- The place the call that moves has got to. -/
theorem Move.at (h : Move c s l s' l') (hS : Shape s) (hl : Placed c s l) : At s' l' := by
  have hplace := hl.place
  cases h with
  | lock count rets new hfree | freeLock hfree => exact (hS.free hfree).of_eq rfl rfl rfl
  | link count rets new =>
      obtain ⟨-, hnew, -⟩ := hl.new new rfl
      exact ⟨hplace.of_eq rfl rfl rfl, hplace.tail, Function.update_self ..⟩
  | back count rets new tail =>
      obtain ⟨hsettled, htail, hnext⟩ := hplace
      obtain ⟨-, hnew, -⟩ := hl.new new rfl
      have hhead : head ≠ new := fun heq => hnew (heq ▸ List.mem_cons_self)
      exact ⟨hsettled.of_eq (Function.update_of_ne hhead ..) rfl rfl, htail, hnext,
        Function.update_self ..⟩
  | publish count rets new tail => exact ⟨hplace.1.limbo, (tailOf_concat head new s.order).symm⟩
  | tail count rets new =>
      refine ⟨?_, hplace.1⟩
      show Function.update s.prev head new head = tailOf head s.order
      rw [Function.update_self]
      exact hplace.2
  | freeFirst => exact ⟨hplace, rfl⟩
  | del curr hne hobj =>
      obtain ⟨hsettled, rfl⟩ := hplace
      obtain ⟨rest, horder⟩ := hS.linked.first hne
      refine ⟨?_, rfl⟩
      rw [(hS.linked.listDelRcu horder).2]
      exact hS.linked.tail_listDelRcu horder hsettled.tail
  | delOops curr hne hobj =>
      obtain ⟨-, rfl⟩ := hplace
      obtain ⟨rest, horder⟩ := hS.linked.first hne
      obtain ⟨nd, hnd⟩ := hS.linked.alive (s.next head) (horder ▸ List.mem_cons_self)
      rw [hnd] at hobj
      cases hobj
  | kfree curr =>
      obtain ⟨htail, hlimbo⟩ := hplace
      obtain ⟨-, hnext, nd, hnd⟩ := hS.limbo curr hlimbo
      exact ⟨⟨htail, rfl⟩, hnext, hS.heap.lt hnd, Heap.free_self⟩
  | freeAdvance curr => exact ⟨hplace.1, hplace.2.1⟩
  | _ => trivial

/-- A new node of the call that moves is no part of the list. -/
theorem Move.new (h : Move c s l s' l') (hS : Shape s) (hl : Placed c s l) :
    ∀ x, newOf l' = some x →
      (∃ nd, s'.heap.obj x = some nd) ∧ x ∉ head :: s'.order ∧ s'.limbo ≠ some x := by
  intro x hx
  cases h with
  | alloc count rets nd =>
      cases hx
      refine ⟨⟨_, Heap.alloc_self⟩, hS.brk_fresh, fun hlimbo => ?_⟩
      obtain ⟨-, -, nd', hnd'⟩ := hS.limbo _ hlimbo
      exact Nat.lt_irrefl _ (hS.heap.lt hnd')
  | fill count rets nd new =>
      cases hx
      obtain ⟨-, hnew, hlimbo⟩ := hl.new _ rfl
      exact ⟨⟨nd, Heap.store_self⟩, hnew, hlimbo⟩
  | lock count rets new hfree => exact hl.new x hx
  | link count rets new => exact hl.new x hx
  | back count rets new tail => exact hl.new x hx
  | _ => cases hx

/-- A new node of a call that stands still stays as it is. -/
theorem Move.new_other (h : Move c s l s' l') (hS : Shape s) (hl : Placed c s l)
    (hm : Placed d s m) (hdistinct : ∀ x, newOf l = some x → newOf m ≠ some x) :
    ∀ x, newOf m = some x →
      (∃ nd, s'.heap.obj x = some nd) ∧ x ∉ head :: s'.order ∧ s'.limbo ≠ some x := by
  intro x hx
  obtain ⟨⟨nd, hnd⟩, hnew, hlimbo⟩ := hm.new x hx
  cases h with
  | alloc count rets nd' => exact ⟨alloc_grows hS _ x nd hnd, hnew, hlimbo⟩
  | fill count rets nd' new => exact ⟨store_grows new nd' x nd hnd, hnew, hlimbo⟩
  | publish count rets new tail =>
      refine ⟨⟨nd, hnd⟩, fun hmem => ?_, hlimbo⟩
      rcases List.mem_append.mp (show x ∈ (head :: s.order) ++ [new] from hmem) with hold | hlast
      · exact hnew hold
      · exact hdistinct new rfl (List.mem_singleton.mp hlast ▸ hx)
  | del curr hne hobj =>
      obtain ⟨-, rfl⟩ := hl.place
      obtain ⟨rest, horder⟩ := hS.linked.first hne
      refine ⟨⟨nd, hnd⟩, fun hmem => ?_, fun heq => ?_⟩
      · rw [(hS.linked.listDelRcu horder).2] at hmem
        rw [horder] at hnew
        rcases List.mem_cons.mp hmem with hhead | hrest
        · exact hnew (hhead ▸ List.mem_cons_self)
        · exact hnew (List.mem_cons_of_mem _ (List.mem_cons_of_mem _ hrest))
      · cases heq
        exact hnew (horder ▸ List.mem_cons_of_mem _ List.mem_cons_self)
  | kfree curr =>
      have hne : x ≠ curr := by
        intro heq
        subst heq
        exact hlimbo hl.place.2
      exact ⟨⟨nd, (Heap.free_of_ne hne).trans hnd⟩, hnew, nofun⟩
  | _ => exact ⟨⟨nd, hnd⟩, hnew, hlimbo⟩

/-- What `At` reads: the ends of the list, the links of a new node, and those of a freed one. -/
theorem At.keep (hm : At s m) (horder : s'.order = s.order) (hlimbo : s'.limbo = s.limbo)
    (hprev : ∀ x, x = head ∨ newOf m = some x → s'.prev x = s.prev x)
    (hnext : ∀ x, x = head ∨ newOf m = some x ∨ s.heap.obj x = none → s'.next x = s.next x)
    (hbrk : s.heap.brk ≤ s'.heap.brk)
    (hobj : ∀ x, x < s.heap.brk → s.heap.obj x = none → s'.heap.obj x = none) : At s' m := by
  have hhead := hprev head (Or.inl rfl)
  have hfirst := hnext head (Or.inl rfl)
  have hsettled : Settled s → Settled s' := fun h => h.of_eq hhead horder hlimbo
  cases m with
  | addLink count rets new => exact hsettled hm
  | addBack count rets new tail =>
      refine ⟨hsettled hm.1, by rw [horder]; exact hm.2.1, ?_⟩
      rw [hnext new (Or.inr (Or.inl rfl))]
      exact hm.2.2
  | addPublish count rets new tail =>
      refine ⟨hsettled hm.1, by rw [horder]; exact hm.2.1, ?_, ?_⟩
      · rw [hnext new (Or.inr (Or.inl rfl))]
        exact hm.2.2.1
      · rw [hprev new (Or.inr rfl)]
        exact hm.2.2.2
  | addTail count rets new => exact ⟨hlimbo.trans hm.1, by rw [horder]; exact hm.2⟩
  | addUnlock count rets new => exact hsettled hm
  | freeFirst => exact hsettled hm
  | freeAt curr => exact ⟨hsettled hm.1, hm.2.trans hfirst.symm⟩
  | freeKfree curr => exact ⟨by rw [hhead, horder]; exact hm.1, hlimbo.trans hm.2⟩
  | freeNext curr =>
      obtain ⟨hs, hcurr, hlt, hfreed⟩ := hm
      refine ⟨hsettled hs, ?_, Nat.lt_of_lt_of_le hlt hbrk, hobj curr hlt hfreed⟩
      rw [hnext curr (Or.inr (Or.inr hfreed)), hfirst]
      exact hcurr
  | freeOops => exact hm
  | _ => trivial

/-- What is unfinished stays as it is while another call moves. -/
theorem Move.at_other (h : Move c s l s' l') (hl : Placed c s l) (hm : Placed d s m)
    (hne : d ≠ c) (hdistinct : ∀ x, newOf l = some x → newOf m ≠ some x) : At s' m := by
  cases hlock : holdsLock m with
  | false => exact at_of_not_holdsLock hlock
  | true =>
      have hheld : s.writelock = some d := hm.lock.mp hlock
      have hidle : holdsLock l = true → False := fun hboth =>
        hne ((hlock ▸ hm.lock).exclusive (hboth ▸ hl.lock))
      -- without the lock a step touches a new node and the heap, no more
      cases h with
      | fill count rets nd new =>
          obtain ⟨⟨nd', hnd'⟩, hnew, -⟩ := hl.new new rfl
          have hhead : head ≠ new := fun heq => hnew (heq ▸ List.mem_cons_self)
          have hother : ∀ x, x = head ∨ newOf m = some x → x ≠ new := by
            rintro x (rfl | hx) rfl
            · exact hhead rfl
            · exact hdistinct _ rfl hx
          refine hm.place.keep rfl rfl (fun x hx => Function.update_of_ne (hother x hx) ..)
            (fun x hx => Function.update_of_ne ?_ ..) (Nat.le_refl _) fun x _ hx => ?_
          · rcases hx with h1 | h2 | hfreed
            · exact hother x (Or.inl h1)
            · exact hother x (Or.inr h2)
            · intro heq
              subst heq
              exact absurd (hnd'.symm.trans hfreed) nofun
          · refine (Heap.store_of_ne ?_).trans hx
            intro heq
            subst heq
            exact absurd (hnd'.symm.trans hx) nofun
      | alloc count rets nd =>
          exact hm.place.keep rfl rfl (fun _ _ => rfl) (fun _ _ => rfl) (Nat.le_succ _)
            fun x hlt hx => (Heap.alloc_of_lt hlt).trans hx
      | lock count rets new hfree | freeLock hfree =>
          rw [hheld] at hfree
          cases hfree
      | readLock w | readUnlock w t seen =>
          exact hm.place.keep rfl rfl (fun _ _ => rfl) (fun _ _ => rfl) (Nat.le_refl _)
            fun _ _ hx => hx
      | link | back | publish | tail | unlock | freeFirst | freeEnd | del | delOops | kfree
      | freeAdvance => exact (hidle rfl).elim
      | _ => exact hm.place

/-- A new ticket and a new node are nobody else's. -/
theorem Move.distinct (h : Move c s l s' l') (hS : Shape s) (hm : Placed d s m)
    (hd : Distinct l m) : Distinct l' m := by
  refine ⟨h.rcuSection.apart hS.rcu hm.ticket hd.ticket, fun x hx => ?_⟩
  cases h with
  | alloc count rets nd =>
      cases hx
      intro hbrk
      obtain ⟨⟨nd', hnd'⟩, -⟩ := hm.new _ hbrk
      exact Nat.lt_irrefl _ (hS.heap.lt hnd')
  | fill | lock | link | back => exact hd.new x hx
  | _ => cases hx

theorem Distinct.symm (h : Distinct l m) : Distinct m l :=
  ⟨h.ticket.symm, fun x hx hx' => h.new x hx' hx⟩

/-- The call that moves. -/
theorem Move.placed (h : Move c s l s' l') (hS : Shape s) (hl : Placed c s l) :
    Placed c s' l' where
  lock := hl.lock.step h.lockStep
  ticket := h.rcuSection.own hl.ticket
  new := h.new hS hl
  place := h.at hS hl

/-- A call that stands still. -/
theorem Move.placed_other (h : Move c s l s' l') (hS : Shape s) (hl : Placed c s l)
    (hm : Placed d s m) (hne : d ≠ c) (hd : Distinct l m) : Placed d s' m where
  lock := hl.lock.step_other hm.lock hne h.lockStep
  ticket := h.rcuSection.other hm.ticket hd.ticket
  new := h.new_other hS hl hm hd.new
  place := h.at_other hl hm hne hd.new

end Steps

/-! ### Every run -/

/-- The list, each call, and each two calls. -/
abbrev Safe : Pool Drv Call → Prop := Pool.Inv Shape Placed fun _ l _ m => Distinct l m

theorem kept (ok : Pool Drv Call → Nat × Env → Prop) :
    Pool.Kept step ok Shape Placed fun _ l _ m => Distinct l m where
  own p c e s' l' hinv _ hstep := by
    have hmove := move_of_step hstep
    exact ⟨hmove.shape hinv.shared (hinv.each c), hmove.placed hinv.shared (hinv.each c)⟩
  others p c e s' l' d hinv _ hstep hne :=
    (move_of_step hstep).placed_other hinv.shared (hinv.each c) (hinv.each d) hne
      (hinv.pair c d hne.symm)
  pair p c e s' l' d hinv _ hstep hne := by
    have hdistinct := (move_of_step hstep).distinct hinv.shared (hinv.each d)
      (hinv.pair c d hne.symm)
    exact ⟨hdistinct, hdistinct.symm⟩

theorem Built.shape {s : Drv} (h : Built s) : Shape s where
  linked := h.linked
  heap := h.heap
  brk := h.brk
  rcu := h.rcu ▸ Rcu.fresh_wf
  free _ := h.settled
  limbo _ hx := absurd (h.settled.limbo.symm.trans hx) nofun

theorem inductive_safe (ok : Pool Drv Call → Nat × Env → Prop) :
    machine.Inductive ok Safe := by
  refine (kept ok).invariant (fun _ hs => hs.shape) (fun s c hs => ?_)
    fun _ _ => ⟨by simp [ticketOf], nofun⟩
  exact
    { lock := by rw [hs.writelock]; exact .free
      ticket := by simp [ticketOf]
      new := nofun
      place := trivial }

end Lkp.RcuList
