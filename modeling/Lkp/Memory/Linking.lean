/-
A circular list while a node is being linked in.

Between the four stores of an insertion at the tail, `prev` of the head is not what it
should be, and all else is (`Linked`).  The list changes with one of the stores, the one
that makes the last node point to the new one; the others go to nodes that are not on it,
or to the head's `prev`.

A walk from the front has read some of the nodes and stands at the next, or at the head
(`Walked`).  It finds every node of a list that does not change while it is under way.
-/
import Lkp.Memory.Ring

namespace Lkp.Ring

variable {α : Type*}

/-- The list of head `h` has these nodes, with these data; the head's `prev` may be any. -/
structure Linked (r : Ring α) (h : Nat) (l : List (Nat × α)) : Prop where
  ring : Path r.next (r.next h) (l.map Prod.fst) h
  nodup : (h :: l.map Prod.fst).Nodup
  back : Back r.prev h (l.map Prod.fst)
  data : ∀ x ∈ l, r.heap.obj x.1 = some x.2
  heap : r.heap.WF
  head : h < r.heap.brk

/-- A walk that has read `seen` of the list `l` stands at `curr`. -/
def Walked (r : Ring α) (h : Nat) (l : List (Nat × α)) (curr : Nat) (seen : List (Nat × α)) :
    Prop :=
  ∃ rest, l = seen ++ rest ∧ Path r.next curr (rest.map Prod.fst) h

variable {r : Ring α} {h x y : Nat} {l seen : List (Nat × α)} {a : α}

theorem Lists.linked (hl : r.Lists h l) : r.Linked h l :=
  ⟨hl.ring, hl.nodup, hl.back, hl.data, hl.heap, hl.head⟩

namespace Linked

/-- With the head's `prev` at the last node the list is as it should be. -/
theorem lists (hl : r.Linked h l) (htail : r.prev h = tailOf h (l.map Prod.fst)) :
    r.Lists h l :=
  ⟨hl.ring, hl.nodup, hl.back, htail, hl.data, hl.heap, hl.head⟩

theorem lt (hl : r.Linked h l) {z : Nat × α} (hz : z ∈ l) : z.1 < r.heap.brk :=
  hl.heap.lt (hl.data z hz)

/-- The address allocated next is neither the head nor a node. -/
theorem brk_fresh (hl : r.Linked h l) : r.heap.brk ∉ h :: l.map Prod.fst := by
  intro hmem
  rcases List.mem_cons.mp hmem with heq | hin
  · exact absurd hl.head (heq ▸ Nat.lt_irrefl _)
  · obtain ⟨z, hz, heq⟩ := List.mem_map.mp hin
    exact absurd (hl.lt hz) (heq ▸ Nat.lt_irrefl _)

theorem head_notMem (hl : r.Linked h l) : h ∉ l.map Prod.fst := (List.nodup_cons.mp hl.nodup).1

theorem head_ne (hx : x ∉ h :: l.map Prod.fst) : h ≠ x := fun heq => hx (heq ▸ List.mem_cons_self)

/-! ### Stores that do not show -/

/-- A store into `next` of a node that is not on the list. -/
theorem setNext (hl : r.Linked h l) (hx : x ∉ h :: l.map Prod.fst) :
    ({ r with next := Function.update r.next x y } : Ring α).Linked h l where
  ring := by
    show Path (Function.update r.next x y) (Function.update r.next x y h) _ h
    rw [Function.update_of_ne (head_ne hx)]
    refine hl.ring.congr fun z hz => Function.update_of_ne ?_ ..
    intro heq
    exact hx (heq ▸ List.mem_cons_of_mem _ hz)
  nodup := hl.nodup
  back := hl.back
  data := hl.data
  heap := hl.heap
  head := hl.head

/-- A store into `prev` of a node that is not on the list, or of the head. -/
theorem setPrev (hl : r.Linked h l) (hx : x ∉ l.map Prod.fst) :
    ({ r with prev := Function.update r.prev x y } : Ring α).Linked h l where
  ring := hl.ring
  nodup := hl.nodup
  back := by
    refine hl.back.congr fun z hz => Function.update_of_ne ?_ ..
    intro heq
    exact hx (heq ▸ hz)
  data := hl.data
  heap := hl.heap
  head := hl.head

theorem alloc (hl : r.Linked h l) : ({ r with heap := r.heap.alloc a } : Ring α).Linked h l where
  ring := hl.ring
  nodup := hl.nodup
  back := hl.back
  data z hz := (Heap.alloc_of_lt (hl.lt hz)).trans (hl.data z hz)
  heap := hl.heap.alloc
  head := Nat.lt_succ_of_lt hl.head

/-- A store into an object that is not on the list. -/
theorem store (hl : r.Linked h l) (hx : x ∉ l.map Prod.fst) (hlt : x < r.heap.brk) :
    ({ r with heap := r.heap.store x a } : Ring α).Linked h l where
  ring := hl.ring
  nodup := hl.nodup
  back := hl.back
  data z hz := by
    refine (Heap.store_of_ne ?_).trans (hl.data z hz)
    intro heq
    exact hx (heq ▸ List.mem_map_of_mem hz)
  heap := hl.heap.store hlt
  head := hl.head

/-! ### The one that shows -/

/-- The last node is made to point to the new one. -/
theorem publish (hl : r.Linked h l) (hx : x ∉ h :: l.map Prod.fst) (hobj : r.heap.obj x = some a)
    (htail : y = tailOf h (l.map Prod.fst)) (hnext : r.next x = h) (hprev : r.prev x = y) :
    ({ r with next := Function.update r.next y x } : Ring α).Linked h (l ++ [(x, a)]) where
  ring := by
    subst htail
    rw [List.map_append]
    exact hl.ring.publish hl.nodup hx hnext
  nodup := by
    rw [List.map_append]
    show ((h :: l.map Prod.fst) ++ [x]).Nodup
    refine List.nodup_append.mpr ⟨hl.nodup, List.nodup_singleton _, fun z hz w hw => ?_⟩
    rw [List.mem_singleton.mp hw]
    intro heq
    exact hx (heq ▸ hz)
  back := by
    rw [List.map_append]
    exact hl.back.concat (hprev.trans htail)
  data z hz := by
    rcases List.mem_append.mp hz with hold | hlast
    · exact hl.data z hold
    · rw [List.mem_singleton.mp hlast]
      exact hobj
  heap := hl.heap
  head := hl.head

/-! ### Walks -/

theorem eq_nil (hl : r.Linked h l) (hempty : r.next h = h) : l = [] := by
  have hring := hl.ring
  rw [hempty] at hring
  exact List.map_eq_nil_iff.mp (hring.nil_of_eq hl.head_notMem)

theorem walked_nil (hl : r.Linked h l) : r.Walked h l (r.next h) [] := ⟨l, rfl, hl.ring⟩

/-- A walk that is not at the head has a node before it. -/
theorem visit (hl : r.Linked h l) {curr : Nat} (hw : r.Walked h l curr seen) (hne : curr ≠ h) :
    ∃ nd, r.heap.obj curr = some nd ∧ seen ++ [(curr, nd)] <+: l := by
  obtain ⟨rest, rfl, hpath⟩ := hw
  cases rest with
  | nil => exact absurd hpath hne
  | cons z rest =>
      obtain ⟨rfl, -⟩ := hpath
      exact ⟨z.2, hl.data z (by simp), rest, by simp⟩

/-- It goes on to the next. -/
theorem advance (hl : r.Linked h l) {curr : Nat} {nd : α} (hpre : seen ++ [(curr, nd)] <+: l) :
    r.Walked h l (r.next curr) (seen ++ [(curr, nd)]) := by
  obtain ⟨rest, hrest⟩ := hpre
  refine ⟨rest, hrest.symm, ?_⟩
  have hring := hl.ring
  rw [← hrest] at hring
  simp only [List.map_append, List.map_cons, List.append_assoc, List.singleton_append] at hring
  exact hring.next_of_mem

/-- At the head it has read them all. -/
theorem walked_all (hl : r.Linked h l) (hw : r.Walked h l h seen) : seen = l := by
  obtain ⟨rest, rfl, hpath⟩ := hw
  have hnil : rest.map Prod.fst = [] := hpath.nil_of_eq fun hmem =>
    hl.head_notMem (by rw [List.map_append]; exact List.mem_append_right _ hmem)
  rw [List.map_eq_nil_iff.mp hnil, List.append_nil]

end Linked

/-- A walk does not mind stores that do not go to nodes of the list. -/
theorem Walked.congr {r' : Ring α} {curr : Nat} (hw : r.Walked h l curr seen)
    (hnext : ∀ z ∈ l.map Prod.fst, r'.next z = r.next z) : r'.Walked h l curr seen := by
  obtain ⟨rest, rfl, hpath⟩ := hw
  refine ⟨rest, rfl, hpath.congr fun z hz => hnext z ?_⟩
  rw [List.map_append]
  exact List.mem_append_right _ hz

end Lkp.Ring
