/-
Listings and `alloc_lock`.

`get_task_comm` takes the lock of the task to copy the name.  A function that already has
it waits for itself.  Whether a function does can be read off its instructions
(`selfLocks`): if so there is a run in which it happens, and if not there is none
(`selfWait_iff`).

A function that does never gets past the first process it finds, so it shows nothing
(`selfLocks_returns`), and leaves the lock of that process taken for good
(`selfWait_forever`).  With the others a wait has an end: who has the lock waits for
nothing (`wait_ends`).
-/
import Lkp.TaskList.Reclaim

namespace Lkp.TaskList

/-! ### Waiting -/

/-- The task whose lock a listing is about to take. -/
def wants : Call → Option Nat
  | .body v (.taskLock :: _) | .body v (.getTaskComm :: _) => some v.t
  | _ => none

/-- Listing `c` is about to take the lock of `o`, which `w` has. -/
structure Waits (p : Pool Sys Call) (c o : Nat) (w : Owner) : Prop where
  wants : wants (p.call c) = some o
  held : ∃ obj, p.shared.heap.obj o = some obj ∧ obj.lock = some w

/-- The name is copied somewhere with the lock held. -/
def selfLocks : List Instr → Bool
  | [] => false
  | .getTaskComm :: is => (holding is).lock || selfLocks is
  | _ :: is => selfLocks is

/-- A listing that has begun, and neither returned nor crashed. -/
def underWay : Call → Bool
  | .idle | .ret _ _ | .oops _ _ => false
  | _ => true

section Steps

variable {M : Listing} {c : Nat} {s s' : Sys} {l l' : Call} {i : Instr} {is : List Instr}

theorem pointer_of_wants {o : Nat} (h : wants l = some o) : pointer l = some o := by
  unfold wants at h
  split at h <;> cases h <;> rfl

/-- Nothing but a lock keeps a listing from going on. -/
theorem wants_of_listStep_none (hgo : underWay l = true) (h : listStep M c s l = none) :
    ∃ o obj w, wants l = some o ∧ s.heap.obj o = some obj ∧ obj.lock = some w := by
  cases l with
  | idle | ret | oops => cases hgo
  | enter | leave v =>
      simp only [listStep] at h
      split at h <;> cases h
  | nextTask v | nextThread v =>
      simp only [listStep] at h
      split at h
      · cases h
      · split at h <;> cases h
  | copy v todo =>
      simp only [listStep] at h
      split at h <;> cases h
  | body v todo =>
      cases todo with
      | nil => cases h
      | cons i is =>
          have hi : instrStep c s v i is = none := h
          cases i with
          | print => cases hi
          | load f =>
              simp only [instrStep] at hi
              split at hi <;> cases hi
          | getTaskStruct | putTaskStruct | taskUnlock =>
              simp only [instrStep] at hi
              split at hi <;> cases hi
          | taskLock | getTaskComm =>
              simp only [instrStep] at hi
              split at hi
              · cases hi
              · rename_i obj hobj
                split at hi
                · cases hi
                · rename_i hlock
                  obtain ⟨w, hw⟩ := Option.ne_none_iff_exists'.mp hlock
                  exact ⟨v.t, obj, w, rfl, hobj, hw⟩

/-- **Who has a lock waits for none**, unless it is its own. -/
theorem Holds.listStep_isSome {o : Nat} (h : Holds c s l) (hlock : lockOf l = some o)
    (hself : ∀ v todo, l = .body v todo → selfLocks todo = false) (hno : ∀ v todo, l ≠ .oops v todo) :
    (listStep M c s l).isSome = true := by
  obtain ⟨obj, hobj, -⟩ := h.owned hlock
  cases l with
  | copy v todo =>
      cases hlock
      simp [listStep, hobj]
  | oops v todo => exact absurd rfl (hno v todo)
  | body v todo =>
      obtain ⟨hheld, rfl⟩ := (has_body v todo).lockOf_iff.mp hlock
      cases todo with
      | nil => rfl
      | cons i is =>
          show (instrStep c s v i is).isSome = true
          cases i with
          | print => rfl
          | load f =>
              simp only [instrStep]
              split <;> rfl
          | getTaskStruct | putTaskStruct | taskUnlock => simp [instrStep, hobj]
          | taskLock => cases hheld
          | getTaskComm =>
              -- then the name would be copied with the lock held
              have hnot := hself v _ rfl
              rw [selfLocks, Bool.or_eq_false_iff] at hnot
              have hyes : (holding is).lock = true := hheld
              rw [hnot.1] at hyes
              cases hyes
  | _ => cases hlock

/-! ### A function that is careful -/

/-- Further on in the instructions nothing else is found. -/
def Careful (l : Call) : Prop :=
  ∀ v todo, l = .body v todo ∨ l = .copy v todo → selfLocks todo = false

theorem Move.careful (h : Move M c s l s' l') (hM : selfLocks M.body = false) (hl : Careful l) :
    Careful l' := by
  intro v todo hv
  cases h with
  | process | thread =>
      obtain hv | hv := hv <;> cases hv
      exact hM
  | print w is =>
      obtain hv | hv := hv <;> cases hv
      exact hl w (.print :: todo) (Or.inl rfl)
  | load w f is hobj =>
      obtain hv | hv := hv <;> cases hv
      exact hl w (.load f :: todo) (Or.inl rfl)
  | get w is hobj =>
      obtain hv | hv := hv <;> cases hv
      exact hl v (.getTaskStruct :: todo) (Or.inl rfl)
  | put w is hobj =>
      obtain hv | hv := hv <;> cases hv
      exact hl v (.putTaskStruct :: todo) (Or.inl rfl)
  | lock w is hobj hfree =>
      obtain hv | hv := hv <;> cases hv
      exact hl v (.taskLock :: todo) (Or.inl rfl)
  | unlock w is hobj =>
      obtain hv | hv := hv <;> cases hv
      exact hl v (.taskUnlock :: todo) (Or.inl rfl)
  | comm w is hobj hfree =>
      obtain hv | hv := hv <;> cases hv
      exact (Bool.or_eq_false_iff.mp (hl v (.getTaskComm :: todo) (Or.inl rfl))).2
  | copy w is hobj =>
      obtain hv | hv := hv <;> cases hv
      exact hl w _ (Or.inr rfl)
  | _ => obtain hv | hv := hv <;> cases hv

end Steps

section Runs

variable {L : Nat → Listing} {p : Pool Sys Call} {c d o : Nat}

theorem inductive_careful :
    (machine L).Inductive (fun _ _ => True) fun p =>
      ∀ c, selfLocks (L c).body = false → Careful (p.call c) where
  init p hinit c _ := by
    rw [hinit.2 c]
    intro v todo hv
    obtain hv | hv := hv <;> cases hv
  step p a p' hall _ hnext c hM := by
    obtain ⟨l', hf, hcall⟩ := Pool.machine_next.mp hnext
    by_cases hmine : c = a.1
    · subst hmine
      rw [Pool.call_self hcall]
      rcases move_of_step hf with ⟨-, -, rfl⟩ | hmove
      · intro v todo hv
        obtain hv | hv := hv <;> cases hv
      · exact hmove.careful hM (hall _ hM)
    · rw [Pool.call_other hcall hmine]
      exact hall c hM

/-- A careful listing that has a lock can go on, or it has crashed. -/
theorem goes_on (hp : (machine L).Reachable p) (hM : selfLocks (L c).body = false)
    (hlock : lockOf (p.call c) = some o) :
    (listStep (L c) c p.shared (p.call c)).isSome = true ∨
      (L c).rcu = false ∧ ∃ v todo, p.call c = .oops v todo := by
  have hcareful := inductive_careful.holds hp c hM
  have hholds := (((inductive_safe _).holds hp).each c).1
  by_cases hoops : ∃ v todo, p.call c = .oops v todo
  · refine Or.inr ⟨?_, hoops⟩
    by_contra hrcu
    obtain ⟨v, todo, hv⟩ := hoops
    exact (standing_of_reachable hp (Bool.not_eq_false _ ▸ hrcu)).noOops v todo hv
  · refine Or.inl (hholds.listStep_isSome hlock (fun v todo hv => hcareful v todo (Or.inl hv)) ?_)
    exact fun v todo hv => hoops ⟨v, todo, hv⟩

theorem lockOf_of_waits (hp : (machine L).Reachable p) (h : Waits p c o (.call d)) :
    lockOf (p.call d) = some o := by
  obtain ⟨obj, hobj, hlock⟩ := h.held
  exact ((((inductive_safe _).holds hp).each d).1.locks o obj hobj).mp hlock

/-! ### Waits that end -/

/-- Listing `c` can go on, or waits for the kernel, or for a listing that can go on. -/
inductive GoesOn (L : Nat → Listing) (p : Pool Sys Call) (c : Nat) : Prop
  | itself (h : (listStep (L c) c p.shared (p.call c)).isSome = true)
  | kernel {o : Nat} (h : Waits p c o .kernel) (hfree : (kernelStep p.shared (.unlock o)).isSome = true)
  | other {o d : Nat} (h : Waits p c o (.call d)) (hne : d ≠ c)
      (hstep : (listStep (L d) d p.shared (p.call d)).isSome = true)
  /-- The other has used a task that is gone, and has the lock for ever. -/
  | crashed {o d : Nat} (h : Waits p c o (.call d)) (hrcu : (L d).rcu = false)
      (hoops : ∃ v todo, p.call d = .oops v todo)

/--
**Where no function waits for itself, no wait goes round**: a listing that cannot go on
waits for somebody who can.
-/
theorem wait_ends (L : Nat → Listing) (hL : ∀ d, selfLocks (L d).body = false)
    (p : Pool Sys Call) (hp : (machine L).Reachable p) (c : Nat)
    (hgo : underWay (p.call c) = true) : GoesOn L p c := by
  cases hstep : listStep (L c) c p.shared (p.call c) with
  | some q => exact .itself (by rw [hstep]; rfl)
  | none =>
      obtain ⟨o, obj, w, hwants, hobj, hlock⟩ := wants_of_listStep_none hgo hstep
      have hwaits : Waits p c o w := ⟨hwants, obj, hobj, hlock⟩
      cases w with
      | kernel => exact .kernel hwaits (by simp [kernelStep, Sys.modify, hobj, hlock])
      | call d =>
          rcases goes_on hp (hL d) (lockOf_of_waits hp hwaits) with hd | ⟨hrcu, hoops⟩
          · refine .other hwaits ?_ hd
            rintro rfl
            rw [hstep] at hd
            cases hd
          · exact .crashed hwaits hrcu hoops

/-- Listing 1 has the lock of the only process, and listing 2 wants it. -/
def runTwo : (machine fun _ => showthrdsFixed).Run 10 :=
  .ofActs pool0
    ([(0, .kernel (.fork someTask 1)), (1, .start)] ++ List.replicate 4 (1, .run) ++
      [(2, .start)] ++ List.replicate 3 (2, .run)) machine_init rfl

theorem wait_ends_two : wants ((runTwo.state 10).call 2) = some 1 ∧
    GoesOn (fun _ => showthrdsFixed) (runTwo.state 10) 2 :=
  ⟨rfl, wait_ends _ (fun _ => rfl) _ (runTwo.reachable 10 (by decide)) 2 rfl⟩

/-! ### A function that waits for itself -/

/-- The listing has not come past the first process. -/
def Caught (M : Listing) : Call → Prop
  | .nextTask v | .leave v => v.g = initTask ∧ v.shown = [] ∧ v.total = M.total
  | .body _ todo | .copy _ todo => selfLocks todo = true
  | .nextThread _ => False
  | .ret shown total => shown = [] ∧ total = M.total
  | _ => True

theorem Move.caught {M : Listing} {s s' : Sys} {l l' : Call} (h : Move M c s l s' l')
    (hM : selfLocks M.body = true) (hh : Holds c s l) (hl : Caught M l) : Caught M l' := by
  cases h with
  | start | oops => trivial
  | enterRcu hrcu | enter hrcu => exact ⟨rfl, rfl, rfl⟩
  | last v hobj hnext => exact hl
  | process v hobj hnext => exact hM
  | toThreads v ht | toTasks v ht => cases hl
  | lastThread v hobj hnext | thread v hobj hnext => exact hl.elim
  | print v todo | load v f todo hobj | get v todo hobj | put v todo hobj | lock v todo hobj hfree
  | unlock v todo hobj => exact hl
  | comm v todo hobj hfree =>
      -- it takes the lock, so the name is not copied with the lock held here
      rcases Bool.or_eq_true_iff.mp hl with hheld | hrest
      · have hmine := ((has_body v (.getTaskComm :: todo)).lock_iff hh hobj).mpr hheld
        rw [hfree] at hmine
        cases hmine
      · exact hrest
  | copy v todo hobj => exact hl
  | leaveRcu v ht | leave v ht => exact ⟨hl.2.1, hl.2.2⟩

/-- The loop is through. -/
def left : Call → Bool
  | .leave _ | .ret _ _ => true
  | _ => false

/-- It goes through only when no process comes after `init_task`. -/
theorem Move.leaves {M : Listing} {s s' : Sys} {l l' : Call} (h : Move M c s l s' l')
    (hl : Caught M l) (hbefore : left l = false) (hafter : left l' = true) :
    s.procs.next initTask = initTask := by
  cases h with
  | last v hobj hnext =>
      rw [← hl.1]
      exact hnext.trans hl.1.symm
  | leaveRcu | leave => cases hbefore
  | _ => cases hafter

/-- A listing that goes on has found the lock free, or the task gone. -/
theorem Move.lock_free {M : Listing} {s s' : Sys} {l l' : Call} {obj : Obj}
    (h : Move M c s l s' l') (hwants : wants l = some o) (hobj : s.heap.obj o = some obj) :
    obj.lock = none := by
  cases h with
  | lock v todo hobj' hfree | comm v todo hobj' hfree =>
      cases hwants
      rw [hobj, Option.some.injEq] at hobj'
      rw [hobj']
      exact hfree
  | oops x hp hv hnone =>
      rw [pointer_of_wants hwants, Option.some.injEq] at hp
      rw [← hp, hobj] at hnone
      cases hnone
  | _ => cases hwants

theorem inductive_caught :
    (machine L).Inductive (fun p _ => True ∧ Safe p) fun p =>
      ∀ c, selfLocks (L c).body = true → Caught (L c) (p.call c) where
  init p hinit c _ := by
    rw [hinit.2 c]
    trivial
  step p a p' hall hok hnext c hM := by
    obtain ⟨l', hf, hcall⟩ := Pool.machine_next.mp hnext
    by_cases hmine : c = a.1
    · subst hmine
      rw [Pool.call_self hcall]
      rcases move_of_step hf with ⟨-, -, rfl⟩ | hmove
      · trivial
      · exact hmove.caught hM (hok.2.each _).1 (hall _ hM)
    · rw [Pool.call_other hcall hmine]
      exact hall c hM

theorem caught (hp : (machine L).Reachable p) (hM : selfLocks (L c).body = true) :
    Caught (L c) (p.call c) :=
  inductive_caught.holds (hp.assuming (inductive_safe _)) c hM

/-- Where `init_task` comes after itself there is no process. -/
theorem Shape.only_init {s : Sys} (hS : Shape s) (hnext : s.procs.next initTask = initTask) {g : Nat}
    (hg : s.procs.Listed g) : g = initTask := by
  by_contra hne
  have hrange := (hS.procs.range g hg.ne_absent).1
  have hheld : s.procs.Held 0 s.heap.brk s.procs.head := .listed hS.procs.headListed
  have hle := hheld.next_le hS.procs hg (hS.procs.lt_of_listed hg) (by
    rw [hS.procsHead] at hrange ⊢
    exact Nat.lt_of_le_of_ne hrange (Ne.symm hne))
  rw [hS.procsHead] at hle
  exact hle.1 hnext

/-- What a function that waits for itself has done if it returns all the same. -/
structure Nothing (M : Listing) {n : Nat} (r : (machine L).Run n) (i j : Nat) (shown : List Shown)
    (total : BitVec 32) : Prop where
  shown : shown = []
  total : total = M.total
  /-- There was no process at some moment. -/
  none : ∃ k, i ≤ k ∧ k < j ∧ ∀ g, (r.state k).shared.procs.Listed g → g = initTask

/--
**A function that waits for itself does not return where there is a process**, and shows
nothing in any case.
-/
theorem selfLocks_returns (L : Nat → Listing) {n : Nat} (r : (machine L).Run n) {c i j : Nat}
    (hij : i ≤ j) (hj : j ≤ n) (hself : selfLocks (L c).body = true)
    (hi : (r.state i).call c = .enter) {shown : List Shown} {total : BitVec 32}
    (hret : (r.state j).call c = .ret shown total) : Nothing (L c) r i j shown total := by
  have hcaught := caught (r.reachable j hj) hself
  rw [hret] at hcaught
  refine ⟨hcaught.1, hcaught.2, ?_⟩
  -- the step with which it left the loop
  obtain ⟨k, e, hik, hkj, -, hbefore, hafter, hstep⟩ :=
    Pool.exists_step r (c := c) (P := fun l => left l = true) hij hj (by rw [hi]; simp [left])
      (by rw [hret]; rfl)
  have hk : k ≤ n := by omega
  refine ⟨k, hik, hkj, fun g => ((inductive_safe _).holds (r.reachable k hk)).shared.only_init ?_⟩
  rcases move_of_step hstep with ⟨-, -, hidle⟩ | hmove
  · rw [hidle] at hafter
    cases hafter
  · exact hmove.leaves (caught (r.reachable k hk) hself) (Bool.eq_false_iff.mpr hbefore) hafter

/-- There is no process, and `showthrds_buggy` comes to its end. -/
def runNone : (machine fun _ => showthrdsBuggy).Run 4 :=
  .ofActs pool0 [(1, .start), (1, .run), (1, .run), (1, .run)] machine_init rfl

theorem selfLocks_returns_none : Nothing showthrdsBuggy runNone 1 4 [] 0 :=
  selfLocks_returns _ runNone (c := 1) (by decide) (by decide) rfl rfl rfl

/--
**A wait for oneself is for ever**: the listing stays where it is, and whoever else wants
the lock waits too.
-/
theorem selfWait_forever (L : Nat → Listing) {n : Nat} (r : (machine L).Run n) {c o i j : Nat}
    (hij : i ≤ j) (hj : j ≤ n) (hi : Waits (r.state i) c o (.call c)) :
    Waits (r.state j) c o (.call c) ∧ (r.state j).call c = (r.state i).call c := by
  induction j, hij using Nat.le_induction with
  | base => exact ⟨hi, rfl⟩
  | succ k hik ih =>
      have hk : k < n := by omega
      obtain ⟨hwaits, hsame⟩ := ih hk.le
      obtain ⟨obj, hobj, hlock⟩ := hwaits.held
      have hplace : (r.state (k + 1)).call c = (r.state k).call c := by
        by_contra hmoved
        have hmine := Pool.moved (r.step k hk) hmoved
        have hstep := Pool.step_of_run r hk
        rw [← hmine] at hstep
        rcases move_of_step hstep with ⟨-, hidle, -⟩ | hmove
        · have hwants := hwaits.wants
          rw [hidle] at hwants
          cases hwants
        · have hfree := hmove.lock_free hwaits.wants hobj
          rw [hlock] at hfree
          cases hfree
      -- it has the lock, since its place says so
      have hholds := (((inductive_safe (fun _ _ => True)).holds (r.reachable (k + 1) hj)).each c).1
      have howned := lockOf_of_waits (r.reachable k hk.le) hwaits
      rw [← hplace] at howned
      exact ⟨⟨hplace ▸ hwaits.wants, hholds.owned howned⟩, hplace.trans hsame⟩

/-- `showthrds_buggy` comes to a process, and another is created meanwhile. -/
def runSelf : (machine fun _ => showthrdsBuggy).Run 10 :=
  .ofActs pool0
    ([(0, .kernel (.fork someTask 1)), (1, .start)] ++ List.replicate 7 (1, .run) ++
      [(0, .kernel (.fork someTask 1))]) machine_init rfl

theorem selfWait_forever_one : Waits (runSelf.state 10) 1 1 (.call 1) ∧
    (runSelf.state 10).call 1 = (runSelf.state 9).call 1 :=
  selfWait_forever _ runSelf (by decide) (by decide) ⟨rfl, _, rfl, rfl⟩

/-! ### Which functions do -/

/-- A listing is about to run `todo` for a process that is in the list, and nobody else has its lock. -/
structure Ready (c : Nat) (p : Pool Sys Call) (v : Vars) (todo : List Instr) : Prop where
  place : p.call c = .body v todo
  leader : v.g = v.t
  listed : p.shared.link v.t = .listed
  lock : ∀ obj, p.shared.heap.obj v.t = some obj → obj.lock = none ∨ obj.lock = some (.call c)

/-- **A function that waits for itself comes to do so** once it has found a process. -/
theorem exists_selfWait (todo : List Instr) :
    ∀ (p : Pool Sys Call) (v : Vars), (machine L).Reachable p → Ready c p v todo →
      selfLocks todo = true → ∃ p', (machine L).Reachable p' ∧ Waits p' c v.t (.call c) := by
  induction todo with
  | nil =>
      intro p v _ _ hself
      cases hself
  | cons i is ih =>
      intro p v hp hready hself
      have hsafe := (inductive_safe (fun _ _ => True)).holds hp
      have hholds := (hsafe.each c).1
      obtain ⟨obj, hobj, -⟩ := hsafe.shared.alive v.t hready.listed
      have hmine : obj.lock = some (.call c) ↔ (holding (i :: is)).lock = true :=
        (has_body v (i :: is)).lock_iff (hready.place ▸ hholds) hobj
      -- one step, after which the rest of the instructions is to be run
      have hstep : ∀ s' v', instrStep c p.shared v i is = some (s', .body v' is) →
          v'.g = v.g → v'.t = v.t → s'.link v.t = .listed →
          (∀ obj', s'.heap.obj v.t = some obj' → obj'.lock = none ∨ obj'.lock = some (.call c)) →
          selfLocks is = true →
          ∃ p', (machine L).Reachable p' ∧ Waits p' c v.t (.call c) := by
        intro s' v' hi hg ht hlink hlock hrest
        have hnext : step L c .run p.shared (p.call c) = some (s', .body v' is) := by
          rw [hready.place]
          exact hi
        rw [← ht] at hlink hlock ⊢
        refine ih _ v' (Pool.reachable_step hp hnext) ⟨Function.update_self .., ?_, hlink, hlock⟩ hrest
        rw [hg, ht]
        exact hready.leader
      have hkeep : ∀ obj', p.shared.heap.obj v.t = some obj' →
          obj'.lock = none ∨ obj'.lock = some (.call c) := hready.lock
      cases i with
      | print => exact hstep _ v.print rfl rfl rfl hready.listed hkeep hself
      | load f =>
          have hload : p.shared.heap.obj (f.of v) = some obj := by
            have hof : f.of v = v.t := by cases f <;> first | rfl | exact hready.leader
            rw [hof]
            exact hobj
          exact hstep _ (v.load f obj) (by simp [instrStep, hload]) rfl rfl hready.listed hkeep hself
      | getTaskStruct =>
          refine hstep (p.shared.store v.t (obj.get c)) v (by simp [instrStep, hobj]) rfl rfl
            hready.listed (fun obj' ho => ?_) hself
          have hnow := Heap.store_self.symm.trans ho
          cases hnow
          exact hkeep obj hobj
      | putTaskStruct =>
          refine hstep (p.shared.put v.t (obj.drop c)) v (by simp [instrStep, hobj]) rfl rfl
            (by simpa using hready.listed) (fun obj' ho => ?_) hself
          rw [put_obj_self] at ho
          split at ho <;> cases ho
          exact hkeep obj hobj
      | taskLock =>
          have hfree : obj.lock = none :=
            (hkeep obj hobj).resolve_right fun h => by cases hmine.mp h
          refine hstep (p.shared.store v.t { obj with lock := some (.call c) }) v
            (by simp [instrStep, hobj, hfree]) rfl rfl hready.listed (fun obj' ho => ?_) hself
          have hnow := Heap.store_self.symm.trans ho
          cases hnow
          exact Or.inr rfl
      | taskUnlock =>
          refine hstep (p.shared.store v.t { obj with lock := none }) v (by simp [instrStep, hobj])
            rfl rfl hready.listed (fun obj' ho => ?_) hself
          have hnow := Heap.store_self.symm.trans ho
          cases hnow
          exact Or.inl rfl
      | getTaskComm =>
          by_cases hheld : (holding is).lock = true
          · -- here it is
            exact ⟨p, hp, by rw [hready.place]; rfl, obj, hobj, hmine.mpr hheld⟩
          · have hfree : obj.lock = none := (hkeep obj hobj).resolve_right fun h => hheld (hmine.mp h)
            have hrest : selfLocks is = true := (Bool.or_eq_true_iff.mp hself).resolve_left hheld
            have hcomm : step L c .run p.shared (p.call c) =
                some (p.shared.store v.t { obj with lock := some (.call c) }, .copy v is) := by
              rw [hready.place]
              show instrStep c p.shared v .getTaskComm is = _
              simp [instrStep, hobj, hfree]
            have hp' := Pool.reachable_step hp hcomm
            have hcopy : step L c .run (p.shared.store v.t { obj with lock := some (.call c) })
                (Function.update p.call c (.copy v is) c) =
                some ((p.shared.store v.t { obj with lock := some (.call c) }).store v.t
                  { obj with lock := none },
                  .body (v.load .tComm { obj with lock := some (.call c) }) is) := by
              rw [Function.update_self]
              simp [step, listStep, Sys.store]
            refine ih _ (v.load .tComm { obj with lock := some (.call c) })
              (Pool.reachable_step hp' hcopy)
              ⟨Function.update_self .., hready.leader, hready.listed, fun obj' ho => ?_⟩ hrest
            have hnow := Heap.store_self.symm.trans ho
            cases hnow
            exact Or.inl rfl

/-- Listing 1 comes to the only process. -/
def comesToOne : List (Nat × Env) :=
  [(0, .kernel (.fork someTask 1)), (1, .start), (1, .run), (1, .run)]

theorem exec_comesToOne (M : Listing) :
    ∃ p v, (machine fun _ => M).exec pool0 comesToOne = some p ∧ Ready 1 p v M.body := by
  cases hrcu : M.rcu <;>
  · simp only [comesToOne, Machine.exec_cons, Machine.exec_nil, machine, Pool.machine, Pool.next, pool0,
      step, listStep, kernelStep, hrcu]
    refine ⟨_, _, rfl, rfl, rfl, rfl, fun obj ho => ?_⟩
    cases ho
    exact Or.inl rfl

/-- In no run does a listing of this function come to wait for a lock that it has. -/
def NeverSelfWaits (M : Listing) : Prop :=
  ∀ (L : Nat → Listing) (p : Pool Sys Call), (machine L).Reachable p →
    ∀ c, L c = M → ∀ o, ¬ Waits p c o (.call c)

theorem neverSelfWaits_iff (M : Listing) : NeverSelfWaits M ↔ selfLocks M.body = false := by
  constructor
  · intro hnever
    by_contra hself
    obtain ⟨p, v, hexec, hready⟩ := exec_comesToOne M
    obtain ⟨p', hp', hwaits⟩ := exists_selfWait M.body p v
      (Machine.reachable_of_exec (.init machine_init) hexec) hready (Bool.not_eq_false _ ▸ hself)
    exact hnever _ p' hp' 1 rfl v.t hwaits
  · rintro hM L p hp c rfl o hwaits
    have howned := lockOf_of_waits hp hwaits
    have hwants := hwaits.wants
    rcases goes_on hp hM howned with hgo | ⟨-, v, todo, hoops⟩
    · obtain ⟨⟨s', l'⟩, hstep⟩ := Option.isSome_iff_exists.mp hgo
      obtain ⟨obj, hobj, hlock⟩ := hwaits.held
      have hfree := (move_of_listStep hstep).lock_free hwants hobj
      rw [hlock] at hfree
      cases hfree
    · rw [hoops] at hwants
      cases hwants

/--
**A function waits for itself in some run if and only if it copies the name with the lock
held**: neither other listings nor what the kernel does can make a difference.  So it does in
the buggy module, and in no other.
-/
theorem selfWait_iff :
    (∀ M : Listing, NeverSelfWaits M ↔ selfLocks M.body = false) ∧
      ¬ NeverSelfWaits showthrdsBuggy ∧ NeverSelfWaits showthrdsFixed ∧
      NeverSelfWaits showthrds ∧ NeverSelfWaits showthrdsRcu ∧
      NeverSelfWaits showPrcsInTasklist := by
  refine ⟨neverSelfWaits_iff, fun hnever => ?_, ?_, ?_, ?_, ?_⟩
  · have hself := (neverSelfWaits_iff _).mp hnever
    cases hself
  all_goals exact (neverSelfWaits_iff _).mpr (by decide)

end Runs

end Lkp.TaskList
