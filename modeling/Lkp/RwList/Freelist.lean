/-
Freeing the list of the reader-writer driver with nobody else about.

`freelist` frees `curr` and then asks it for the next node: the loop is
`list_for_each_entry`, not `list_for_each_entry_safe`.  Nothing is unlinked, so that
`head_node` still points at the first node when all of them are gone.
-/
import Lkp.RwList.Alone
import Lkp.Concurrency.Freeing

namespace Lkp.RwList

/-- What a call of `freelist` is answered. -/
def freeing : Call → Env
  | .idle => .free
  | _ => .run true (0, 0)

/-- `freelist`. -/
def freelist : Freer Drv Call Env Node where
  step := step
  done := Returned
  world := freeing
  start := .idle
  ret := .freeRet
  ring := Drv.toRing
  head := head
  frees
    | .freeAt curr => if curr = head then none else some curr
    | _ => none
  reads
    | .freeNext curr => some curr
    | _ => none

/-- A call of `add2tail` that gets memory. -/
def Adds (nd : Node) (s s' : Drv) : Prop :=
  ∃ c new, Returns step AddReturned c (writing 0 (fun _ => true) (0, 0)) s (.add 0 [] nd) s'
    (.write 0 [some new])

section Freeing

variable {c : Nat} {s s' : Drv} {l : List (Nat × Node)} {nd : Node} {nds : List Node} {curr : Nat}

/-! ### `freelist` -/

theorem step_freeAt (hne : curr ≠ head) (hobj : s.heap.obj curr = some nd) :
    step c (.run true (0, 0)) s (.freeAt curr) =
      some ({ s with heap := s.heap.free curr }, .freeNext curr) := by
  show Option.or none (Option.or none (if curr = head then _ else _)) = _
  rw [if_neg hne, hobj]
  rfl

theorem freelist_leaving (c : Nat) :
    freelist.Leaving c .free .freeFirst Call.freeAt Call.freeNext where
  start s := ⟨id, rfl⟩
  empty s := ⟨id, rfl⟩
  first s := ⟨id, rfl⟩
  free s x hx hobj := by
    obtain ⟨nd, hnd⟩ := Option.ne_none_iff_exists'.mp hobj
    exact ⟨{ s with heap := s.heap.free x }, rfl, id, step_freeAt (c := c) hx hnd⟩
  next s x := ⟨id, rfl⟩
  stop s := ⟨id, rfl⟩
  ret := trivial
  frees x := rfl
  freesNot := ⟨rfl, rfl, rfl, fun _ => rfl⟩
  reads x := rfl
  readsNot := ⟨rfl, rfl⟩

/-- **Each node is freed once**, and `head_node` points where it did. -/
theorem Quiet.frees_once (h : Quiet s l) (hne : l ≠ []) :
    ∃ tr s', freelist.Runs c s .idle tr s' ∧ freelist.freed tr = l.map Prod.fst ∧
      s'.next = s.next :=
  (freelist_leaving c).frees_once h.lists hne

/-- **`freelist` frees the empty list as it should, and no other.** -/
theorem Quiet.freesList_iff (h : Quiet s l) : freelist.FreesList c s ↔ l = [] :=
  (freelist_leaving c).freesList_iff h.lists

/-! ### Lists that `add2tail` has built -/

/-- Every list can be built. -/
theorem exists_built (nds : List Node) : ∃ s, BuiltBy Adds loaded nds s :=
  appender_lawful.exists_built loaded_quiet nds

theorem freesList_of_built (h : BuiltBy Adds loaded nds s) :
    freelist.FreesList c s ↔ nds = [] :=
  appender_lawful.freesList_iff loaded_quiet (fun _ _ => Quiet.freesList_iff) h

end Freeing

end Lkp.RwList
