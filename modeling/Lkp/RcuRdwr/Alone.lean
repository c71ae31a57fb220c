/-
A write with nobody else about.

`gdata` points to an object, the lock is free and no section open (`Quiet`).  With
memory `writer()` publishes a copy that it has updated, and the method returns `count`.
Without it gives up, changes nothing, and the method returns `count` as well.
-/
import Lkp.RcuRdwr.Driver
import Lkp.Concurrency.Alone

namespace Lkp.RcuRdwr

/-- The call is over. -/
def Returned : Call → Prop
  | .readRet _ _ | .writeRet _ => True
  | _ => False

/-- A write that gets memory if `ok`. -/
def writing (count : Nat) (ok : Bool) : Call → Env
  | .idle => .write count
  | _ => .run ok

/-- `gdata` points to an object with contents `d`, and no call is under way. -/
structure Quiet (s : Drv) (d : GlobalData) : Prop where
  heap : s.heap.WF
  gdata : s.heap.obj s.gdata = some d
  gdataLock : s.gdataLock = none
  rcu : s.rcu.opened = ∅

theorem drv0_quiet : Quiet drv0 firstData where
  heap := by
    intro o d ho
    by_cases hzero : o = 0
    · exact hzero ▸ Nat.one_pos
    · have hnone : drv0.heap.obj o = none := by simp [drv0, hzero]
      rw [hnone] at ho
      cases ho
  gdata := rfl
  gdataLock := rfl
  rcu := rfl

/-- The stores of `writer()` into a copy. -/
def stores (todo : List (Field × Int)) (d : GlobalData) : GlobalData :=
  todo.foldl (fun d x => d.set x.1 x.2) d

section Writes

variable {args : List Field} {c count gd : Nat} {ok : Bool} {s s' : Drv} {d : GlobalData}
  {l' : Call}

/-- The stores into the object allocated last. -/
theorem stores_alone (todo : List (Field × Int))
    (hrest : Returns (step args) Returned c (writing count true)
      { s with heap := s.heap.alloc (stores todo d) } (.writerStore count gd s.heap.brk []) s' l') :
    Returns (step args) Returned c (writing count true) { s with heap := s.heap.alloc d }
      (.writerStore count gd s.heap.brk todo) s' l' := by
  induction todo generalizing d with
  | nil => exact hrest
  | cons x todo ih =>
      have hstore : step args c (.run true) { s with heap := s.heap.alloc d }
          (.writerStore count gd s.heap.brk (x :: todo)) =
            some ({ s with heap := s.heap.alloc (d.set x.1 x.2) },
              .writerStore count gd s.heap.brk todo) := by
        simp only [step, readerStep, showStep, writerStep, Heap.alloc_self, Heap.alloc_store,
          Option.none_or]
      exact .step id hstore (ih hrest)

/-- **With memory a new object is published.** -/
theorem Quiet.write (args : List Field) (c count : Nat) (h : Quiet s d) :
    ∃ s', Returns (step args) Returned c (writing count true) s .idle s' (.writeRet count) ∧
      s'.gdata = s.heap.brk ∧ s'.heap.obj s'.gdata = some (stores writerStores d) := by
  have hlt : s.gdata < s.heap.brk := h.heap.lt h.gdata
  have hgd : (s.heap.alloc .zero).obj s.gdata = some d := (Heap.alloc_of_lt hlt).trans h.gdata
  have hlock : step args c (.run true) s (.write count) =
      some ({ s with gdataLock := some c }, .writerLocked count) := by
    simp only [step, readerStep, showStep, writerStep, h.gdataLock, if_true, Option.none_or]
  have hcopy : step args c (.run true)
      { s with gdataLock := some c, heap := s.heap.alloc .zero }
      (.writerNew count s.gdata s.heap.brk) =
        some ({ s with gdataLock := some c, heap := s.heap.alloc d },
          .writerStore count s.gdata s.heap.brk writerStores) := by
    simp only [step, readerStep, showStep, writerStep, hgd, Heap.alloc_self, Heap.alloc_store,
      Option.none_or]
  have hpublish : ∀ d', step args c (.run true)
      { s with gdataLock := some c, heap := s.heap.alloc d' }
      (.writerStore count s.gdata s.heap.brk []) =
        some (Drv.publish { s with gdataLock := some c, heap := s.heap.alloc d' } c s.gdata
          s.heap.brk d', .writerUnlock count s.gdata) := by
    intro d'
    simp only [step, readerStep, showStep, writerStep, Heap.alloc_self, Option.none_or]
  have hwait : ∀ t : Drv, t.rcu = s.rcu → step args c (.run true) t
      (.writerWait count s.gdata s.rcu.next) = some (t, .writerFree count s.gdata) := by
    intro t ht
    have hover : t.rcu.Over s.rcu.next := by
      rw [ht, Rcu.Over, h.rcu]
      exact nofun
    simp only [step, readerStep, showStep, writerStep, hover, if_true, Option.none_or]
  refine ⟨_, .step id rfl (.step id hlock (.step id rfl (.step id rfl (.step id hcopy
    (stores_alone (s := { s with gdataLock := some c }) writerStores (.step id (hpublish _)
      (.step id rfl (.step id rfl (.step id (hwait _ rfl) (.step id rfl (.step id rfl
        (.done trivial)))))))))))), rfl, ?_⟩
  exact (Heap.free_of_ne (Nat.ne_of_gt hlt)).trans Heap.alloc_self

/-- Without nothing is. -/
theorem Quiet.write_noMem (args : List Field) (c count : Nat) (h : Quiet s d) :
    Returns (step args) Returned c (writing count false) s .idle s (.writeRet count) := by
  have hlock : step args c (.run false) s (.write count) =
      some ({ s with gdataLock := some c }, .writerLocked count) := by
    simp only [step, readerStep, showStep, writerStep, h.gdataLock, if_true, Option.none_or]
  have hunlock : step args c (.run false) { s with gdataLock := some c } (.writerNoMem count) =
      some (s, .writerRet count (-ENOMEM)) := by
    simp only [step, readerStep, showStep, writerStep, Option.none_or, ← h.gdataLock]
  exact .step id rfl (.step id hlock (.step id rfl (.step id rfl (.step id hunlock
    (.step id rfl (.done trivial))))))

/-- A write publishes its new object, or it reports an error and leaves `gdata` alone. -/
def WritesWhole (args : List Field) (c count : Nat) (ok : Bool) (s : Drv) (d : GlobalData) : Prop :=
  ∃ s' n, Returns (step args) Returned c (writing count ok) s .idle s' (.writeRet n) ∧
    AllOrNothing n count
      (s.heap.obj s'.gdata = none ∧ s'.heap.obj s'.gdata = some (stores writerStores d))
      (s'.gdata = s.gdata ∧ s'.heap.obj s.gdata = some d)

/-- It does as long as there is memory. -/
theorem Quiet.writesWhole_iff (h : Quiet s d) :
    WritesWhole args c count ok s d ↔ ok = true := by
  constructor
  · intro hwhole
    obtain ⟨t, n, hrun, hall⟩ := hwhole
    by_contra hok
    rw [Bool.not_eq_true] at hok
    subst hok
    obtain ⟨rfl, heq⟩ := (h.write_noMem args c count).unique hrun
    cases heq
    have hnone := (hall.whole rfl).1
    rw [h.gdata] at hnone
    cases hnone
  · intro hok
    subst hok
    obtain ⟨t, hrun, hnew, hobj⟩ := h.write args c count
    refine ⟨t, count, hrun, fun _ => ⟨?_, hobj⟩, fun hne => absurd rfl hne⟩
    rw [hnew]
    exact h.heap.brk_none

end Writes

end Lkp.RcuRdwr
