/-
What a listing has, read off the place it has got to.

The instructions that are still to be run for a task say whether the listing has a
reference to it and its lock (`holding`).  Both agree with what the `task_struct` says
in every state (`Holds`), and so does the ticket of a section with what is open.

From this it follows when a task is freed: once the kernel has dropped its reference and
no listing has one, and not before (`references_balanced`).
-/
import Lkp.TaskList.Shape

namespace Lkp.TaskList

open Tasks (Task Comm)

/-! ### Reading a place -/

/-- The task a listing has a reference to. -/
def refOf (l : Call) : Option Nat :=
  match stateOf l with
  | some (v, todo) => if (holding todo).ref = true then some v.t else none
  | none => none

/-- The task whose lock it has. -/
def lockOf : Call → Option Nat
  | .copy v _ => some v.t
  | .body v todo | .oops v todo => if (holding todo).lock = true then some v.t else none
  | _ => none

/-- The ticket of its section. -/
def ticketOf (l : Call) : Option Nat := (stateOf l).bind fun p => p.1.ticket

/-- A lock is held under a reference only. -/
theorem Paired.ref_of_lock {is : List Instr} (h : Paired is) (hlock : (holding is).lock = true) :
    (holding is).ref = true := by
  induction is with
  | nil => cases hlock
  | cons i is ih =>
      cases i with
      | getTaskStruct =>
          have hbefore : (holding is).lock = true := hlock
          rw [h.1] at hbefore
          cases hbefore
      | putTaskStruct => rfl
      | taskLock => cases hlock
      | taskUnlock =>
          show (holding is).ref = true
          rw [h.1]
      | getTaskComm => exact h.1
      | load f => exact ih h hlock
      | print => exact ih h hlock

/-- Every listing takes a reference first. -/
theorem Listing.exists_body (L : Listing) : ∃ is, L.body = .getTaskStruct :: is := by
  have hbegins := L.begins
  cases hL : L.body with
  | nil =>
      rw [hL] at hbegins
      cases hbegins
  | cons i is =>
      rw [hL, List.head?_cons, Option.some.injEq] at hbegins
      exact ⟨is, by rw [hbegins]⟩

/-- Before the instructions of a listing nothing is held. -/
theorem Listing.holding_body (L : Listing) : holding L.body = ⟨false, false⟩ := by
  obtain ⟨is, hbody⟩ := L.exists_body
  have hpaired := L.paired
  rw [hbody] at hpaired
  rw [hbody]
  show { holding is with ref := false } = _
  rw [hpaired.1]

/-! ### The invariant of a listing -/

/-- A listing has what its place says. -/
structure Holds (c : Nat) (s : Sys) (l : Call) : Prop where
  paired : ∀ v todo, stateOf l = some (v, todo) → Paired todo
  /-- Nothing but the lock of `get_task_comm` is held in it. -/
  copying : ∀ v todo, l = .copy v todo → holding todo = ⟨true, false⟩
  users : ∀ o obj, s.heap.obj o = some obj → (c ∈ obj.users ↔ refOf l = some o)
  there : ∀ o, refOf l = some o → ∃ obj, s.heap.obj o = some obj
  locks : ∀ o obj, s.heap.obj o = some obj → (obj.lock = some (.call c) ↔ lockOf l = some o)

section Steps

variable {L : Listing} {c d : Nat} {s s' : Sys} {l l' m : Call} {o : Nat} {obj obj' : Obj}

/-- A listing that nothing is done to. -/
theorem Holds.put_other (h : Holds d s m) (hobj : s.heap.obj o = some obj)
    (husers : d ∈ obj'.users ↔ d ∈ obj.users)
    (hlock : obj'.lock = some (.call d) ↔ obj.lock = some (.call d))
    (hcount : obj'.users.card ≤ obj'.refs) : Holds d (s.put o obj') m := by
  have hold : ∀ x y, (s.put o obj').heap.obj x = some y →
      (x = o ∧ y = obj') ∨ s.heap.obj x = some y := by
    intro x y hx
    by_cases heq : x = o
    · subst heq
      rw [put_obj_self] at hx
      split at hx <;> cases hx
      exact Or.inl ⟨rfl, rfl⟩
    · rw [put_obj_of_ne heq] at hx
      exact Or.inr hx
  refine ⟨h.paired, h.copying, fun x y hx => ?_, fun x hx => ?_, fun x y hx => ?_⟩
  · rcases hold x y hx with ⟨rfl, rfl⟩ | hx
    · rw [husers]
      exact h.users x obj hobj
    · exact h.users x y hx
  · by_cases heq : x = o
    · subst heq
      have hmem : d ∈ obj'.users := husers.mpr ((h.users x obj hobj).mpr hx)
      have hcard := Finset.card_pos.mpr ⟨d, hmem⟩
      rw [put_obj_self, if_neg (by omega)]
      exact ⟨_, rfl⟩
    · rw [put_obj_of_ne heq]
      exact h.there x hx
  · rcases hold x y hx with ⟨rfl, rfl⟩ | hx
    · rw [hlock]
      exact h.locks x obj hobj
    · exact h.locks x y hx

theorem Holds.store_other (h : Holds d s m) (hS : Shape s) (hobj : s.heap.obj o = some obj)
    (hrefs : obj.refs ≤ obj'.refs) (husers : d ∈ obj'.users ↔ d ∈ obj.users)
    (hlock : obj'.lock = some (.call d) ↔ obj.lock = some (.call d))
    (hcount : obj'.users.card ≤ obj'.refs) : Holds d (s.store o obj') m := by
  have hpos := hS.pos o obj hobj
  rw [store_eq_put (by omega)]
  exact h.put_other hobj husers hlock hcount

/-- At this place a listing has `h` of task `o`, and nothing of any other. -/
structure Has (l : Call) (o : Nat) (h : Holding) : Prop where
  ref : refOf l = if h.ref = true then some o else none
  lock : lockOf l = if h.lock = true then some o else none

theorem has_body (v : Vars) (todo : List Instr) : Has (.body v todo) v.t (holding todo) :=
  ⟨rfl, rfl⟩

theorem has_copy {v : Vars} {todo : List Instr} (h : holding todo = ⟨true, false⟩) :
    Has (.copy v todo) v.t ⟨true, true⟩ := by
  refine ⟨?_, rfl⟩
  show (if (holding todo).ref = true then some v.t else none) = _
  rw [h]

namespace Has

variable {h h' : Holding}

theorem refOf_iff (hl : Has l o h) {x : Nat} : refOf l = some x ↔ h.ref = true ∧ x = o := by
  rw [hl.ref]
  split
  · simp [*, eq_comm]
  · simp [*]

theorem lockOf_iff (hl : Has l o h) {x : Nat} : lockOf l = some x ↔ h.lock = true ∧ x = o := by
  rw [hl.lock]
  split
  · simp [*, eq_comm]
  · simp [*]

/-- What the task says of it. -/
theorem users_iff (hl : Has l o h) (hh : Holds c s l) (hobj : s.heap.obj o = some obj) :
    c ∈ obj.users ↔ h.ref = true := by
  rw [hh.users o obj hobj, hl.refOf_iff]
  simp

theorem lock_iff (hl : Has l o h) (hh : Holds c s l) (hobj : s.heap.obj o = some obj) :
    obj.lock = some (.call c) ↔ h.lock = true := by
  rw [hh.locks o obj hobj, hl.lockOf_iff]
  simp

/-- **A listing that changes its task** has what its new place says, if the task says so. -/
theorem put (hl : Has l o h) (hl' : Has l' o h') (hh : Holds c s l)
    (hobj : s.heap.obj o = some obj)
    (hpaired : ∀ v todo, stateOf l' = some (v, todo) → Paired todo)
    (hcopying : ∀ v todo, l' = .copy v todo → holding todo = ⟨true, false⟩)
    (husers : c ∈ obj'.users ↔ h'.ref = true)
    (hlock : obj'.lock = some (.call c) ↔ h'.lock = true)
    (hcount : obj'.users.card ≤ obj'.refs) : Holds c (s.put o obj') l' := by
  refine ⟨hpaired, hcopying, fun x y hx => ?_, fun x hx => ?_, fun x y hx => ?_⟩
  · rw [hl'.refOf_iff]
    by_cases heq : x = o
    · subst heq
      rw [put_obj_self] at hx
      split at hx <;> cases hx
      simp [husers]
    · rw [put_obj_of_ne heq] at hx
      rw [hh.users x y hx, hl.refOf_iff]
      simp [heq]
  · obtain ⟨href, rfl⟩ := hl'.refOf_iff.mp hx
    have hcard := Finset.card_pos.mpr ⟨c, husers.mpr href⟩
    rw [put_obj_self, if_neg (by omega)]
    exact ⟨_, rfl⟩
  · rw [hl'.lockOf_iff]
    by_cases heq : x = o
    · subst heq
      rw [put_obj_self] at hx
      split at hx <;> cases hx
      simp [hlock]
    · rw [put_obj_of_ne heq] at hx
      rw [hh.locks x y hx, hl.lockOf_iff]
      simp [heq]

theorem store (hl : Has l o h) (hl' : Has l' o h') (hh : Holds c s l) (hS : Shape s)
    (hobj : s.heap.obj o = some obj) (hrefs : obj.refs ≤ obj'.refs)
    (hpaired : ∀ v todo, stateOf l' = some (v, todo) → Paired todo)
    (hcopying : ∀ v todo, l' = .copy v todo → holding todo = ⟨true, false⟩)
    (husers : c ∈ obj'.users ↔ h'.ref = true)
    (hlock : obj'.lock = some (.call c) ↔ h'.lock = true)
    (hcount : obj'.users.card ≤ obj'.refs) : Holds c (s.store o obj') l' := by
  have hpos := hS.pos o obj hobj
  rw [store_eq_put (by omega)]
  exact hl.put hl' hh hobj hpaired hcopying husers hlock hcount

end Has

/-- The task whose lock a listing has is one it has a reference to. -/
theorem Holds.refOf_of_lockOf (h : Holds c s l) (hlock : lockOf l = some o) : refOf l = some o := by
  cases l with
  | copy v todo =>
      cases hlock
      exact (has_copy (h.copying v todo rfl)).refOf_iff.mpr ⟨rfl, rfl⟩
  | body v todo | oops v todo =>
      obtain ⟨hheld, rfl⟩ := (has_body v todo).lockOf_iff.mp hlock
      exact (has_body v todo).refOf_iff.mpr ⟨(h.paired v todo rfl).ref_of_lock hheld, rfl⟩
  | _ => cases hlock

/-- It is there, and the listing is its owner. -/
theorem Holds.owned (h : Holds c s l) (hlock : lockOf l = some o) :
    ∃ obj, s.heap.obj o = some obj ∧ obj.lock = some (.call c) := by
  obtain ⟨obj, hobj⟩ := h.there o (h.refOf_of_lockOf hlock)
  exact ⟨obj, hobj, (h.locks o obj hobj).mpr hlock⟩

/-- A step that leaves the tasks alone. -/
theorem Holds.of_heap (h : Holds c s l) (hheap : s'.heap.obj = s.heap.obj)
    (hpaired : ∀ v todo, stateOf l' = some (v, todo) → Paired todo)
    (hcopying : ∀ v todo, l' = .copy v todo → holding todo = ⟨true, false⟩)
    (hrefs : refOf l' = refOf l) (hlocks : lockOf l' = lockOf l) : Holds c s' l' := by
  refine ⟨hpaired, hcopying, ?_, ?_, ?_⟩
  · rw [hheap, hrefs]
    exact h.users
  · rw [hheap, hrefs]
    exact h.there
  · rw [hheap, hlocks]
    exact h.locks

theorem Shape.users_le (hS : Shape s) (hobj : s.heap.obj o = some obj) :
    obj.users.card ≤ obj.refs := by
  rw [hS.refs o obj hobj]
  omega

/-- **A listing that takes a step has what its place says.** -/
theorem Move.holds (h : Move L c s l s' l') (hS : Shape s) (hl : Holds c s l) :
    Holds c s' l' := by
  cases h with
  | start | leave v ht | leaveRcu v ht => exact hl.of_heap rfl (by simp [stateOf]) (by simp) rfl rfl
  | enterRcu hrcu | enter hrcu | last v hobj hnext | toThreads v ht | toTasks v ht
  | lastThread v hobj hnext =>
      refine hl.of_heap rfl (fun w todo hw => ?_) (by simp) rfl rfl
      cases hw
      trivial
  | process v hobj hnext | thread v hobj hnext =>
      refine hl.of_heap rfl (fun w todo hw => ?_) (by simp) ?_ ?_
      · cases hw
        exact L.paired
      · rw [(has_body _ _).ref, L.holding_body]
        rfl
      · rw [(has_body _ _).lock, L.holding_body]
        rfl
  | print v todo =>
      have hpaired : Paired todo := hl.paired v (.print :: todo) rfl
      refine hl.of_heap rfl (fun w is hw => ?_) (by simp) rfl rfl
      cases hw
      exact hpaired
  | load v f todo hobj =>
      have hpaired : Paired todo := hl.paired v (.load f :: todo) rfl
      refine hl.of_heap rfl (fun w is hw => ?_) (by simp) rfl rfl
      cases hw
      exact hpaired
  | @get v todo obj hobj =>
      obtain ⟨hafter, hpaired⟩ : holding todo = ⟨true, false⟩ ∧ Paired todo :=
        hl.paired v (.getTaskStruct :: todo) rfl
      have hlock := (has_body v (.getTaskStruct :: todo)).lock_iff hl hobj
      refine (has_body v _).store (has_body v todo) hl hS hobj (Nat.le_succ _)
        (fun w is hw => ?_) (by simp) ?_ ?_ ?_
      · cases hw
        exact hpaired
      · simp [Obj.get, hafter]
      · exact hlock
      · exact (Finset.card_insert_le c obj.users).trans (Nat.succ_le_succ (hS.users_le hobj))
  | @put v todo obj hobj =>
      obtain ⟨hafter, hpaired⟩ : holding todo = ⟨false, false⟩ ∧ Paired todo :=
        hl.paired v (.putTaskStruct :: todo) rfl
      have huser := (has_body v (.putTaskStruct :: todo)).users_iff hl hobj
      have hlock := (has_body v (.putTaskStruct :: todo)).lock_iff hl hobj
      refine (has_body v _).put (has_body v todo) hl hobj (fun w is hw => ?_) (by simp) ?_ ?_ ?_
      · cases hw
        exact hpaired
      · simp [Obj.drop, hafter]
      · exact hlock
      · show (obj.users.erase c).card ≤ obj.refs - 1
        rw [Finset.card_erase_of_mem (huser.mpr rfl)]
        have := hS.users_le hobj
        omega
  | @lock v todo obj hobj hfree =>
      have hcount := hS.users_le hobj
      obtain ⟨hafter, hpaired⟩ : holding todo = ⟨true, true⟩ ∧ Paired todo :=
        hl.paired v (.taskLock :: todo) rfl
      have huser := (has_body v (.taskLock :: todo)).users_iff hl hobj
      refine (has_body v _).store (has_body v todo) hl hS hobj (Nat.le_refl _)
        (fun w is hw => ?_) (by simp) ?_ ?_ hcount
      · cases hw
        exact hpaired
      · exact huser
      · simp [hafter]
  | @unlock v todo obj hobj =>
      have hcount := hS.users_le hobj
      obtain ⟨hafter, hpaired⟩ : holding todo = ⟨true, false⟩ ∧ Paired todo :=
        hl.paired v (.taskUnlock :: todo) rfl
      have huser := (has_body v (.taskUnlock :: todo)).users_iff hl hobj
      refine (has_body v _).store (has_body v todo) hl hS hobj (Nat.le_refl _)
        (fun w is hw => ?_) (by simp) ?_ ?_ hcount
      · cases hw
        exact hpaired
      · exact huser
      · simp [hafter]
  | @comm v todo obj hobj hfree =>
      have hcount := hS.users_le hobj
      obtain ⟨href, hpaired⟩ : (holding todo).ref = true ∧ Paired todo :=
        hl.paired v (.getTaskComm :: todo) rfl
      have huser := (has_body v (.getTaskComm :: todo)).users_iff hl hobj
      have hlock := (has_body v (.getTaskComm :: todo)).lock_iff hl hobj
      -- the lock is free, so the listing does not have it
      have hafter : holding todo = ⟨true, false⟩ := by
        have hno : (holding todo).lock ≠ true := by
          intro hyes
          have hown := hlock.mpr hyes
          rw [hfree] at hown
          cases hown
        cases hh : holding todo with
        | mk ref lock =>
            rw [hh] at href hno
            simp only [Bool.not_eq_true] at href hno
            rw [href, hno]
      refine (has_body v _).store (has_copy hafter) hl hS hobj (Nat.le_refl _)
        (fun w is hw => ?_) (fun w is hw => ?_) ?_ ?_ hcount
      · cases hw
        exact hpaired
      · cases hw
        exact hafter
      · rw [show (⟨true, true⟩ : Holding).ref = (holding (.getTaskComm :: todo)).ref from href.symm]
        exact huser
      · simp
  | @copy v todo obj hobj =>
      have hcount := hS.users_le hobj
      have hafter := hl.copying v todo rfl
      have hpaired : Paired todo := hl.paired v todo rfl
      have huser := (has_copy hafter).users_iff hl hobj
      refine (has_copy hafter).store (has_body (v.load .tComm obj) todo) hl hS hobj
        (Nat.le_refl _) (fun w is hw => ?_) (by simp) ?_ ?_ hcount
      · cases hw
        exact hpaired
      · rw [hafter]
        exact huser
      · simp [hafter]
  | @oops _ v todo o hp hv hnone =>
      have hrefs : refOf (.oops v todo) = refOf l := by
        rw [refOf, refOf, hv]
        rfl
      refine hl.of_heap rfl (fun w is hw => ?_) (by simp) hrefs ?_
      · cases hw
        exact hl.paired v todo hv
      · cases l with
        | copy w is =>
            -- inside `get_task_comm` there is a reference
            cases hv
            cases hp
            obtain ⟨obj, hobj⟩ := hl.there v.t
              ((has_copy (hl.copying v todo rfl)).refOf_iff.mpr ⟨rfl, rfl⟩)
            rw [hobj] at hnone
            cases hnone
        | nextTask | nextThread | body =>
            cases hv
            rfl
        | _ => cases hp

/-- A listing is not touched by the steps of another. -/
theorem Move.holds_other (h : Move L c s l s' l') (hS : Shape s) (hl : Holds c s l) (hne : d ≠ c)
    (hm : Holds d s m) : Holds d s' m := by
  cases h with
  | @get v todo obj hobj =>
      refine hm.store_other hS hobj (Nat.le_succ _) ?_ Iff.rfl ?_
      · simp [Obj.get, hne]
      · exact (Finset.card_insert_le c obj.users).trans (Nat.succ_le_succ (hS.users_le hobj))
  | @put v todo obj hobj =>
      have huser := (has_body v (.putTaskStruct :: todo)).users_iff hl hobj
      refine hm.put_other hobj ?_ Iff.rfl ?_
      · simp [Obj.drop, hne]
      · show (obj.users.erase c).card ≤ obj.refs - 1
        rw [Finset.card_erase_of_mem (huser.mpr rfl)]
        have := hS.users_le hobj
        omega
  | @lock v todo obj hobj hfree | @comm v todo obj hobj hfree =>
      have hcount := hS.users_le hobj
      refine hm.store_other hS hobj (Nat.le_refl _) Iff.rfl ?_ hcount
      simp [hfree, Ne.symm hne]
  | @unlock v todo obj hobj =>
      have hcount := hS.users_le hobj
      have hlock := (has_body v (.taskUnlock :: todo)).lock_iff hl hobj
      refine hm.store_other hS hobj (Nat.le_refl _) Iff.rfl ?_ hcount
      simp [hlock.mpr rfl, Ne.symm hne]
  | @copy v todo obj hobj =>
      have hcount := hS.users_le hobj
      have hlock := (has_copy (hl.copying v todo rfl)).lock_iff hl hobj
      refine hm.store_other hS hobj (Nat.le_refl _) Iff.rfl ?_ hcount
      simp [hlock.mpr rfl, Ne.symm hne]
  | _ => exact ⟨hm.paired, hm.copying, hm.users, hm.there, hm.locks⟩

/-- Nor by those of the kernel. -/
theorem KernelMove.holds (h : KernelMove s s') (hS : Shape s) (hl : Holds c s l) :
    Holds c s' l := by
  -- a task that is created is nobody's yet
  have hborn : ∀ t nr, s'.heap = s.heap.alloc (newObj t nr) → Holds c s' l := by
    intro t nr hheap
    have hnew : ∀ o, refOf l = some o → o ≠ s.heap.brk := by
      rintro o ho rfl
      obtain ⟨obj, hobj⟩ := hl.there _ ho
      exact absurd (hS.heap.lt hobj) (Nat.lt_irrefl _)
    have hlocked : ∀ o, lockOf l = some o → o ≠ s.heap.brk :=
      fun o ho => hnew o (hl.refOf_of_lockOf ho)
    refine ⟨hl.paired, hl.copying, fun o obj ho => ?_, fun o ho => ?_, fun o obj ho => ?_⟩
    · rw [hheap] at ho
      by_cases heq : o = s.heap.brk
      · rw [heq, Heap.alloc_self] at ho
        cases ho
        exact iff_of_false (by simp [newObj]) fun href => hnew o href heq
      · rw [Heap.alloc_of_ne heq] at ho
        exact hl.users o obj ho
    · rw [hheap, Heap.alloc_of_ne (hnew o ho)]
      exact hl.there o ho
    · rw [hheap] at ho
      by_cases heq : o = s.heap.brk
      · rw [heq, Heap.alloc_self] at ho
        cases ho
        exact iff_of_false (by simp [newObj]) fun hlock => hlocked o hlock heq
      · rw [Heap.alloc_of_ne heq] at ho
        exact hl.locks o obj ho
  cases h with
  | fork t nr => exact hborn t nr rfl
  | clone g t hg hne => exact hborn t 0 rfl
  | exit o hleaves =>
      have hheap : (s.unhash o).heap.obj = s.heap.obj := by unfold Sys.unhash; split <;> rfl
      exact hl.of_heap hheap hl.paired hl.copying rfl rfl
  | @reap o obj tick brk hlink hobj hover hreaped =>
      refine hl.put_other hobj Iff.rfl Iff.rfl ?_
      show obj.users.card ≤ obj.refs - 1
      rw [hS.refs o obj hobj, Obj.own_of_not_reaped hreaped]
      omega
  | @modify o obj obj' hobj hrefs hreaped husers hlock =>
      refine hl.store_other hS hobj hrefs.ge (by rw [husers]) ?_ ?_
      · rcases hlock with heq | ⟨hold, hnew⟩
        · rw [heq]
        · rcases hold with hold | hold <;> rcases hnew with hnew | hnew <;> simp [hold, hnew]
      · rw [husers, hrefs]
        exact hS.users_le hobj

theorem KernelMove.rcu_eq (h : KernelMove s s') : s'.rcu = s.rcu := by
  cases h with
  | exit o hleaves => unfold Sys.unhash; split <;> rfl
  | reap => simp
  | _ => rfl

/-! ### Tickets -/

theorem Move.rcuSection (h : Move L c s l s' l') :
    Rcu.Section s.rcu (ticketOf l) s'.rcu (ticketOf l') := by
  cases h with
  | enterRcu hrcu => exact .lock _
  | leaveRcu v ht =>
      rw [show ticketOf (.leave v) = some _ from ht]
      exact .unlock _ _
  | leave v ht =>
      rw [show ticketOf (.leave v) = none from ht]
      exact .keep _ _
  | put v todo hobj =>
      rw [put_rcu]
      exact .keep _ _
  | @oops _ v todo o hp hv hnone =>
      rw [show ticketOf l = v.ticket by rw [ticketOf, hv]; rfl]
      exact .keep _ _
  | _ => exact .keep _ _

end Steps

/-! ### The invariant -/

/-- The kernel's data, what each listing has, and its section. -/
abbrev Safe : Pool Sys Call → Prop :=
  Pool.Inv Shape (fun c s l => Holds c s l ∧ s.rcu.InSection (ticketOf l))
    fun _ l _ m => Rcu.Apart (ticketOf l) (ticketOf m)

variable {L : Nat → Listing}

theorem Move.shape {M : Listing} {c : Nat} {s s' : Sys} {l l' : Call} (h : Move M c s l s' l')
    (hS : Shape s) (hl : Holds c s l) : Shape s' := by
  cases h with
  | enterRcu hrcu => exact hS.rcuLock
  | leaveRcu v ht => exact hS.rcuUnlock _
  | get v todo hobj =>
      have huser := (has_body v (.getTaskStruct :: todo)).users_iff hl hobj
      exact hS.get hobj fun hmem => nomatch huser.mp hmem
  | put v todo hobj =>
      have huser := (has_body v (.putTaskStruct :: todo)).users_iff hl hobj
      exact hS.drop hobj (huser.mpr rfl)
  | lock v todo hobj hfree | unlock v todo hobj | comm v todo hobj hfree | copy v todo hobj =>
      exact hS.store hobj rfl rfl rfl
  | _ => exact hS

theorem kept (ok : Pool Sys Call → Nat × Env → Prop) :
    Pool.Kept (step L) ok Shape (fun c s l => Holds c s l ∧ s.rcu.InSection (ticketOf l))
      fun _ l _ m => Rcu.Apart (ticketOf l) (ticketOf m) where
  own p c e s' l' hinv _ hstep := by
    obtain ⟨hl, hsect⟩ := hinv.each c
    rcases move_of_step hstep with ⟨hmove, hidle, rfl⟩ | hmove
    · rw [hidle] at hl
      exact ⟨hmove.shape hinv.shared, hmove.holds hinv.shared hl, by simp [ticketOf, stateOf]⟩
    · exact ⟨hmove.shape hinv.shared hl, hmove.holds hinv.shared hl, hmove.rcuSection.own hsect⟩
  others p c e s' l' d hinv _ hstep hne := by
    obtain ⟨hm, hsect⟩ := hinv.each d
    rcases move_of_step hstep with ⟨hmove, -, -⟩ | hmove
    · exact ⟨hmove.holds hinv.shared hm, hmove.rcu_eq ▸ hsect⟩
    · exact ⟨hmove.holds_other hinv.shared (hinv.each c).1 hne hm,
        hmove.rcuSection.other hsect (hinv.pair c d (Ne.symm hne))⟩
  pair p c e s' l' d hinv _ hstep hne := by
    rcases move_of_step hstep with ⟨-, -, rfl⟩ | hmove
    · simp [ticketOf, stateOf]
    · have hapart := hmove.rcuSection.apart hinv.shared.rcu (hinv.each d).2
        (hinv.pair c d (Ne.symm hne))
      exact ⟨hapart, hapart.symm⟩

theorem inductive_safe (ok : Pool Sys Call → Nat × Env → Prop) :
    (machine L).Inductive ok Safe := by
  refine (kept ok).invariant ?_ ?_ fun c d => by simp [ticketOf, stateOf]
  · rintro s ⟨t, rfl⟩
    exact shape_boot t
  · rintro s c ⟨t, rfl⟩
    have hobj : ∀ o obj, (boot t).heap.obj o = some obj → obj = newObj t 1 := by
      intro o obj ho
      by_cases heq : o = initTask
      · subst heq
        simp only [boot, Function.update_self, Option.some.injEq] at ho
        exact ho.symm
      · simp [boot, heq] at ho
    refine ⟨⟨by simp [stateOf], by simp, fun o obj ho => ?_, by simp [refOf, stateOf],
      fun o obj ho => ?_⟩, by simp [ticketOf, stateOf]⟩
    · rw [hobj o obj ho]
      simp [newObj, refOf, stateOf]
    · rw [hobj o obj ho]
      simp [newObj, lockOf]

/-! ### References -/

/-- A task with nothing to show. -/
def someTask : Task where
  tgid := 1
  pid := 1
  uid := 0
  euid := 0
  mm := false
  addr := 0
  stack := 0
  comm := Row.blank.comm

/-- There is only `init_task`, and no listing. -/
def pool0 : Pool Sys Call := { shared := boot someTask, call := fun _ => .idle }

theorem machine_init : (machine L).init pool0 := ⟨⟨someTask, rfl⟩, fun _ => rfl⟩

/-- The references to a task are those that somebody has, and it is there as long as there are any. -/
structure Balanced (p : Pool Sys Call) : Prop where
  /-- The count is that of the listings that have one, and the kernel's. -/
  counted : ∀ o obj, p.shared.heap.obj o = some obj →
    ∃ U : Finset Nat, (∀ c, c ∈ U ↔ refOf (p.call c) = some o) ∧ obj.refs = U.card + obj.own
  /-- No task is freed that a listing has a reference to. -/
  there : ∀ c o, refOf (p.call c) = some o → ∃ obj, p.shared.heap.obj o = some obj
  /-- Nor one that is in its list. -/
  listed : ∀ o, p.shared.link o = .listed → ∃ obj, p.shared.heap.obj o = some obj
  /-- One whose kernel reference is dropped is freed unless a listing has one. -/
  freed : ∀ o obj, p.shared.heap.obj o = some obj → obj.reaped = true →
    ∃ c, refOf (p.call c) = some o

/-- **References are balanced** in every run of any listings. -/
theorem references_balanced (L : Nat → Listing) (p : Pool Sys Call)
    (hp : (machine L).Reachable p) : Balanced p := by
  have hsafe := (inductive_safe _).holds hp
  have husers : ∀ o obj, p.shared.heap.obj o = some obj →
      ∀ c, c ∈ obj.users ↔ refOf (p.call c) = some o :=
    fun o obj ho c => (hsafe.each c).1.users o obj ho
  refine ⟨fun o obj ho => ⟨obj.users, husers o obj ho, hsafe.shared.refs o obj ho⟩,
    fun c => (hsafe.each c).1.there, fun o ho => ?_, fun o obj ho hreaped => ?_⟩
  · obtain ⟨obj, hobj, -⟩ := hsafe.shared.alive o ho
    exact ⟨obj, hobj⟩
  · have hrefs := hsafe.shared.refs o obj ho
    have hpos := hsafe.shared.pos o obj ho
    rw [hrefs, Obj.own, if_pos hreaped, Nat.add_zero] at hpos
    obtain ⟨c, hc⟩ := Finset.card_pos.mp hpos
    exact ⟨c, (husers o obj ho c).mp hc⟩

/-- A listing has a reference to a process that exits, and that the kernel is done with. -/
def keepsOne : List (Nat × Env) :=
  [(0, .kernel (.fork someTask 1)), (1, .start), (1, .run), (1, .run), (1, .run),
    (0, .kernel (.exit 1)), (0, .kernel (.reap 1))]

def runKept : (machine fun _ => showthrds).Run keepsOne.length :=
  .ofActs pool0 keepsOne machine_init rfl

theorem references_balanced_kept :
    ((runKept.state 7).shared.heap.obj 1).isSome = true ∧ Balanced (runKept.state 7) :=
  ⟨rfl, references_balanced _ _ (runKept.reachable 7 (by decide))⟩

end Lkp.TaskList
