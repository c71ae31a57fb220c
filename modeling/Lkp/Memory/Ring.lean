/-
Allocated nodes on a circular list.

A `Ring` is a heap of nodes with their `next` and `prev` pointers.  `Lists h l` is its
view: the nodes from the head `h` on are those of `l`, each at its address and holding
its data.  A ring has one view at most, so that "the list is as before" means that it
has the view it had.

`append` is what an insertion at the tail comes to, whatever the order of its stores.
-/
import Lkp.Memory.Heap
import Lkp.Memory.Links

namespace Lkp

/-- Nodes and their links. -/
structure Ring (α : Type*) where
  heap : Heap α
  next : Nat → Nat
  prev : Nat → Nat

namespace Ring

variable {α : Type*}

/-- The list of head `h` has these nodes, with these data. -/
structure Lists (r : Ring α) (h : Nat) (l : List (Nat × α)) : Prop where
  ring : Path r.next (r.next h) (l.map Prod.fst) h
  nodup : (h :: l.map Prod.fst).Nodup
  back : Back r.prev h (l.map Prod.fst)
  tail : r.prev h = tailOf h (l.map Prod.fst)
  data : ∀ x ∈ l, r.heap.obj x.1 = some x.2
  heap : r.heap.WF
  head : h < r.heap.brk

/-- A new node with the data `a` behind the last node. -/
def append (r : Ring α) (h : Nat) (a : α) : Ring α where
  heap := r.heap.alloc a
  next := Function.update (Function.update r.next r.heap.brk h) (r.prev h) r.heap.brk
  prev := Function.update (Function.update r.prev r.heap.brk (r.prev h)) h r.heap.brk

/-- The first node unlinked and freed. -/
def dropFirst (r : Ring α) (h : Nat) : Ring α where
  heap := r.heap.free (r.next h)
  next := Function.update r.next h (r.next (r.next h))
  prev := Function.update r.prev (r.next (r.next h)) h

/-- A head that points to itself. -/
def empty (h : Nat) : Ring α where
  heap := { obj := fun _ => none, brk := h + 1 }
  next := id
  prev := id

variable {r : Ring α} {h : Nat} {l l' : List (Nat × α)} {a : α}

theorem empty_lists (h : Nat) : (empty h : Ring α).Lists h [] where
  ring := rfl
  nodup := List.nodup_singleton h
  back := trivial
  tail := rfl
  data := nofun
  heap := nofun
  head := Nat.lt_succ_self h

namespace Lists

theorem lt (hl : r.Lists h l) {x : Nat × α} (hx : x ∈ l) : x.1 < r.heap.brk :=
  hl.heap.lt (hl.data x hx)

/-- The address allocated next is neither the head nor a node. -/
theorem brk_fresh (hl : r.Lists h l) : r.heap.brk ∉ h :: l.map Prod.fst := by
  intro hmem
  rcases List.mem_cons.mp hmem with heq | hin
  · exact absurd hl.head (heq ▸ Nat.lt_irrefl _)
  · obtain ⟨x, hx, heq⟩ := List.mem_map.mp hin
    exact absurd (hl.lt hx) (heq ▸ Nat.lt_irrefl _)

theorem brk_ne_head (hl : r.Lists h l) : r.heap.brk ≠ h :=
  fun heq => hl.brk_fresh (heq ▸ List.mem_cons_self)

theorem head_notMem (hl : r.Lists h l) : h ∉ l.map Prod.fst := (List.nodup_cons.mp hl.nodup).1

/-- The view gains the new node. -/
theorem append (hl : r.Lists h l) : (r.append h a).Lists h (l ++ [(r.heap.brk, a)]) where
  ring := by
    have hhead : h ≠ r.heap.brk := hl.brk_ne_head.symm
    have hold : Path (Function.update r.next r.heap.brk h)
        (Function.update r.next r.heap.brk h h) (l.map Prod.fst) h := by
      rw [Function.update_of_ne hhead]
      refine hl.ring.congr fun x hx => Function.update_of_ne ?_ ..
      intro heq
      exact hl.brk_fresh (heq ▸ List.mem_cons_of_mem _ hx)
    have hnew := hold.publish hl.nodup hl.brk_fresh (Function.update_self ..)
    rw [← hl.tail] at hnew
    rw [List.map_append]
    exact hnew
  nodup := by
    rw [List.map_append]
    show ((h :: l.map Prod.fst) ++ [r.heap.brk]).Nodup
    refine List.nodup_append.mpr ⟨hl.nodup, List.nodup_singleton _, fun x hx y hy => ?_⟩
    rw [List.mem_singleton.mp hy]
    intro heq
    exact hl.brk_fresh (heq ▸ hx)
  back := by
    have hold : Back (r.append h a).prev h (l.map Prod.fst) := by
      refine hl.back.congr fun x hx => ?_
      have hxhead : x ≠ h := fun heq => hl.head_notMem (heq ▸ hx)
      have hxnew : x ≠ r.heap.brk := fun heq => hl.brk_fresh (heq ▸ List.mem_cons_of_mem _ hx)
      exact (Function.update_of_ne hxhead ..).trans (Function.update_of_ne hxnew ..)
    rw [List.map_append]
    refine hold.concat ?_
    show Function.update (Function.update _ _ _) h _ r.heap.brk = _
    rw [Function.update_of_ne hl.brk_ne_head, Function.update_self, hl.tail]
  tail := by
    rw [List.map_append]
    exact (Function.update_self ..).trans (tailOf_concat ..).symm
  data x hx := by
    rcases List.mem_append.mp hx with hold | hlast
    · exact (Heap.alloc_of_lt (hl.lt hold)).trans (hl.data x hold)
    · rw [List.mem_singleton.mp hlast]
      exact Heap.alloc_self
  heap := hl.heap.alloc
  head := Nat.lt_succ_of_lt hl.head

/-- The four stores of `list_add_tail` into a new node make the ring with that node appended. -/
theorem append_eq (hl : r.Lists h l) (z : α) :
    r.append h a =
      { heap := (r.heap.alloc z).store r.heap.brk a
        next := Function.update (Function.update (Function.update r.next r.heap.brk r.heap.brk)
          r.heap.brk h) (r.prev h) r.heap.brk
        prev := Function.update (Function.update (Function.update r.prev r.heap.brk r.heap.brk)
          h r.heap.brk) r.heap.brk (r.prev h) } := by
  have hhead : r.heap.brk ≠ h := hl.brk_ne_head
  have hprev : Function.update (Function.update r.prev r.heap.brk (r.prev h)) h r.heap.brk =
      Function.update (Function.update (Function.update r.prev r.heap.brk r.heap.brk)
        h r.heap.brk) r.heap.brk (r.prev h) := by
    rw [Function.update_comm hhead, Function.update_comm hhead, Function.update_idem]
  rw [Ring.append, Heap.alloc_store, Function.update_idem, hprev]

/-- An empty list is a head that points to itself. -/
theorem next_eq_iff (hl : r.Lists h l) : r.next h = h ↔ l = [] := by
  constructor
  · intro hempty
    have hring := hl.ring
    rw [hempty] at hring
    exact List.map_eq_nil_iff.mp (hring.nil_of_eq hl.head_notMem)
  · intro hnil
    subst hnil
    exact hl.ring

theorem next_head {x : Nat × α} (hl : r.Lists h (x :: l)) : r.next h = x.1 := hl.ring.1

/-- The view loses its first node. -/
theorem dropFirst {x : Nat × α} (hl : r.Lists h (x :: l)) : (r.dropFirst h).Lists h l where
  ring := by
    have hpath := hl.ring.unlink_first hl.head_notMem
    rw [← hl.next_head] at hpath
    exact hpath
  nodup := by
    have hnodup := hl.nodup
    simp only [List.map_cons, List.nodup_cons, List.mem_cons, not_or] at hnodup ⊢
    exact ⟨hnodup.1.2, hnodup.2.2⟩
  back := by
    have hback := hl.back
    have hring := hl.ring
    have hnodup := hl.nodup
    unfold Ring.dropFirst
    rw [hl.next_head]
    cases l with
    | nil => trivial
    | cons y l =>
        have hy : r.next x.1 = y.1 := hring.2.1
        simp only [List.map_cons, List.nodup_cons] at hnodup
        rw [hy]
        refine ⟨Function.update_self .., hback.2.2.congr fun z hz => ?_⟩
        have hne : z ≠ y.1 := fun heq => hnodup.2.2.1 (heq ▸ hz)
        exact Function.update_of_ne hne ..
  tail := by
    have hring := hl.ring
    have htail := hl.tail
    unfold Ring.dropFirst
    rw [hl.next_head]
    cases l with
    | nil =>
        have hx : r.next x.1 = h := hring.2
        rw [hx]
        exact Function.update_self ..
    | cons y l =>
        have hy : r.next x.1 = y.1 := hring.2.1
        have hne : h ≠ y.1 := fun heq => hl.head_notMem (by simp [heq])
        rw [hy]
        refine (Function.update_of_ne hne ..).trans ?_
        rw [htail]
        simp only [List.map_cons, tailOf_cons]
  data y hy := by
    have hne : y.1 ≠ r.next h := by
      intro heq
      have hnodup := hl.nodup
      rw [hl.next_head] at heq
      simp only [List.map_cons, List.nodup_cons] at hnodup
      exact hnodup.2.1 (heq ▸ List.mem_map_of_mem hy)
    exact (Heap.free_of_ne hne).trans (hl.data y (List.mem_cons_of_mem _ hy))
  heap := hl.heap.free
  head := hl.head

/-- **A ring has one view.** -/
theorem unique (hl : r.Lists h l) (hl' : r.Lists h l') : l = l' := by
  have hfst : l.map Prod.fst = l'.map Prod.fst :=
    hl.ring.unique hl'.ring hl.head_notMem hl'.head_notMem
  have hlength : l.length = l'.length := by
    have hmap := congrArg List.length hfst
    rwa [List.length_map, List.length_map] at hmap
  refine List.ext_getElem hlength fun i hi hi' => ?_
  have haddr : (l[i]).1 = (l'[i]).1 := by
    have hget := List.getElem_of_eq hfst (by rwa [List.length_map])
    rwa [List.getElem_map, List.getElem_map] at hget
  have hdata := hl.data _ (List.getElem_mem hi)
  rw [haddr, hl'.data _ (List.getElem_mem hi'), Option.some.injEq] at hdata
  exact Prod.ext haddr hdata.symm

end Lists

/-! ### Several nodes -/

/-- The nodes that come, at the addresses they are given. -/
def added (r : Ring α) (as : List α) : List (Nat × α) := as.mapIdx fun i a => (r.heap.brk + i, a)

theorem added_cons (as : List α) :
    r.added (a :: as) = (r.heap.brk, a) :: (r.append h a).added as := by
  unfold added
  rw [List.mapIdx_cons]
  congr 1
  refine List.mapIdx_eq_mapIdx_iff.mpr fun i hi => ?_
  show (r.heap.brk + (i + 1), _) = (r.heap.brk + 1 + i, _)
  rw [Nat.add_assoc, Nat.add_comm 1 i]

theorem map_added (as : List α) : (r.added as).map Prod.snd = as := by
  induction as generalizing r with
  | nil => rfl
  | cons a as ih => rw [added_cons (h := 0), List.map_cons, ih]

/-! ### Where memory runs out -/

/-- Of the calls `k`, …, `k + n - 1`, what those come to that get memory. -/
def granted (args : Nat → Option α) (oks : Nat → Bool) (k n : Nat) : List α :=
  ((List.range' k n).filter oks).filterMap args

section Granted

variable {args : Nat → Option α} {oks : Nat → Bool} {k n : Nat}

theorem granted_of_ok (ha : args k = some a) (hok : oks k = true) :
    granted args oks k (n + 1) = a :: granted args oks (k + 1) n := by
  unfold granted
  rw [List.range'_succ, List.filter_cons_of_pos hok, List.filterMap_cons_some ha]

theorem granted_of_noMem (hok : oks k = false) :
    granted args oks k (n + 1) = granted args oks (k + 1) n := by
  unfold granted
  rw [List.range'_succ, List.filter_cons_of_neg (by rw [hok]; exact nofun)]

theorem length_granted (hargs : ∀ k, k < n → (args k).isSome) :
    (granted args oks 0 n).length = ((List.range' 0 n).filter oks).length := by
  refine List.filterMap_length_eq_length.mpr fun k hk => hargs k ?_
  have hmem := List.mem_range'_1.mp (List.mem_filter.mp hk).1
  omega

/-- There is memory for one of them. -/
theorem granted_single (ha : args k = some a) (hk : k < n) :
    granted args (fun i => i == k) 0 n = [a] := by
  have hmem : k ∈ List.range' 0 n := List.mem_range'_1.mpr (by omega)
  unfold granted
  rw [List.filter_beq, List.count_eq_one_of_mem (List.nodup_range' ..) hmem, List.replicate_one,
    List.filterMap_cons_some ha]
  rfl

/-- All that was asked for is granted exactly if there is memory every time. -/
theorem granted_eq_iff (hargs : ∀ k, k < n → (args k).isSome) :
    granted args oks 0 n = granted args (fun _ => true) 0 n ↔ ∀ k, k < n → oks k = true := by
  constructor
  · intro h
    have hlength := congrArg List.length h
    rw [length_granted hargs, length_granted hargs, List.filter_true,
      List.length_filter_eq_length_iff] at hlength
    intro k hk
    exact hlength k (List.mem_range'_1.mpr (by omega))
  · intro h
    unfold granted
    rw [List.filter_true, List.filter_eq_self.mpr]
    intro k hk
    have hmem := List.mem_range'_1.mp hk
    exact h k (by omega)

/-- A view that gained what was granted has gained all exactly if there was enough memory. -/
theorem Lists.gains_iff {t : Ring α} (ht : t.Lists h (l ++ r.added (granted args oks 0 n)))
    (hargs : ∀ k, k < n → (args k).isSome) :
    (∃ xs, t.Lists h (l ++ xs) ∧ xs.map Prod.snd = granted args (fun _ => true) 0 n) ↔
      ∀ k, k < n → oks k = true := by
  rw [← granted_eq_iff hargs]
  constructor
  · intro hgains
    obtain ⟨xs, hxs, hdata⟩ := hgains
    have hadded := List.append_cancel_left (hxs.unique ht)
    rw [hadded, map_added] at hdata
    exact hdata
  · intro hall
    exact ⟨_, ht, (map_added _).trans hall⟩

end Granted

end Ring

end Lkp
