/-
Which listings never use a task that is gone.

Inside a section a listing stands on a task that is in its list, or that was unlinked
after the section had begun; such a task is not freed, and the one that follows it is of
the same kind (`Chain.Held.next`).  So it goes along the lists as it finds them,
while tasks come and go, and always has something in hand (`Standing`).

References do not do that.  A listing without a section has none between the pointer it
loads and `get_task_struct`, and the task it comes to may be freed there.  So a function
of this form is safe if and only if it runs inside a section (`noFreedTask_iff`).
-/
import Lkp.TaskList.Books

namespace Lkp.TaskList

open Tasks (Task Comm)

/-- In the middle of a task, or after it. -/
def inTask : Call → Bool
  | .body _ _ | .copy _ _ | .nextThread _ => true
  | _ => false

/-- A listing stands on tasks that are held for its section. -/
structure Standing (s : Sys) (floor : Nat) (l : Call) : Prop where
  process : ∀ v todo, stateOf l = some (v, todo) →
    ∃ t, v.ticket = some t ∧ s.procs.Held t floor v.g
  thread : ∀ v todo, stateOf l = some (v, todo) → inTask l = true →
    ∃ t, v.ticket = some t ∧ (s.threads v.g).Held t floor v.t
  noOops : ∀ v todo, l ≠ .oops v todo

section Steps

variable {L : Listing} {c : Nat} {s s' : Sys} {l l' m : Call} {t floor g x : Nat}

/-! ### What is held is there -/

/-- A task that an open section holds is not freed. -/
theorem Shape.there (hS : Shape s) (ht : t ∈ s.rcu.opened)
    (hx : s.link x = .listed ∨ ∃ tick brk, s.link x = .unlinked tick brk ∧ t < tick) :
    ∃ obj, s.heap.obj x = some obj := by
  rcases hx with hx | hx
  · obtain ⟨obj, hobj, -⟩ := hS.alive x hx
    exact ⟨obj, hobj⟩
  · obtain ⟨tick, brk, hx, hlt⟩ := hx
    obtain ⟨obj, hobj, -⟩ := hS.pending x tick brk hx fun hover => hover.notMem hlt ht
    exact ⟨obj, hobj⟩

theorem Shape.there_process (hS : Shape s) (ht : t ∈ s.rcu.opened)
    (hg : s.procs.Held t floor g) : ∃ obj, s.heap.obj g = some obj := by
  refine hS.there ht ?_
  rw [hS.link_process hg.ne_absent]
  exact hg.imp_right fun ⟨tick, brk, hlink, hlt, _⟩ => ⟨tick, brk, hlink, hlt⟩

theorem Shape.there_thread (hS : Shape s) (ht : t ∈ s.rcu.opened)
    (hg : s.procs.Held t floor g) (hx : (s.threads g).Held t floor x) :
    ∃ obj, s.heap.obj x = some obj := by
  by_cases heq : x = g
  · rw [heq]
    exact hS.there_process ht hg
  · refine hS.there ht ?_
    rw [hS.link_thread hg.ne_absent hx.ne_absent heq]
    exact hx.imp_right fun ⟨tick, brk, hlink, hlt, _⟩ => ⟨tick, brk, hlink, hlt⟩

/-! ### Steps of others -/

theorem Standing.congr (h : Standing s floor l) (hprocs : s'.procs = s.procs)
    (hthreads : s'.threads = s.threads) : Standing s' floor l := by
  refine ⟨fun v todo hv => ?_, fun v todo hv hin => ?_, h.noOops⟩
  · rw [hprocs]
    exact h.process v todo hv
  · rw [hthreads]
    exact h.thread v todo hv hin

/-- The kernel may fork, clone and unlink under a listing. -/
theorem KernelMove.standing (h : KernelMove s s') (hS : Shape s)
    (hsect : s.rcu.InSection (ticketOf l)) (hfloor : floor ≤ s.heap.brk)
    (hl : Standing s floor l) : Standing s' floor l := by
  -- the section has begun before now
  have hsince : ∀ v todo t, stateOf l = some (v, todo) → v.ticket = some t → t < s.rcu.next := by
    intro v todo t hv ht
    exact hS.rcu t (hsect t (by rw [ticketOf, hv]; exact ht))
  have hproc : ∀ v todo, stateOf l = some (v, todo) → s.procs.link v.g ≠ .absent := by
    intro v todo hv
    obtain ⟨t, -, hheld⟩ := hl.process v todo hv
    exact hheld.ne_absent
  cases h with
  | fork t nr =>
      refine ⟨fun v todo hv => ?_, fun v todo hv hin => ?_, hl.noOops⟩
      · obtain ⟨t, ht, hheld⟩ := hl.process v todo hv
        exact ⟨t, ht, hheld.add hS.procs⟩
      · have hne := (hS.process_lt (hproc v todo hv)).ne
        simp only [Sys.fork, Function.update_of_ne hne]
        exact hl.thread v todo hv hin
  | clone g t hg hne =>
      refine ⟨hl.process, fun v todo hv hin => ?_, hl.noOops⟩
      obtain ⟨t, ht, hheld⟩ := hl.thread v todo hv hin
      refine ⟨t, ht, ?_⟩
      by_cases heq : v.g = g
      · simp only [Sys.clone, heq, Function.update_self]
        rw [heq] at hheld
        exact hheld.add (hS.group g hg.ne_absent).1
      · simp only [Sys.clone, Function.update_of_ne heq]
        exact hheld
  | exit z hleaves =>
      unfold Sys.unhash
      split
      · refine ⟨fun v todo hv => ?_, hl.thread, hl.noOops⟩
        obtain ⟨t, ht, hheld⟩ := hl.process v todo hv
        exact ⟨t, ht, hheld.del (hsince v todo t hv ht) hfloor⟩
      · refine ⟨hl.process, fun v todo hv hin => ?_, hl.noOops⟩
        obtain ⟨t, ht, hheld⟩ := hl.thread v todo hv hin
        refine ⟨t, ht, ?_⟩
        by_cases heq : v.g = s.leader z
        · simp only [heq, Function.update_self]
          rw [heq] at hheld
          exact hheld.del (hsince v todo t hv ht) hfloor
        · simp only [Function.update_of_ne heq]
          exact hheld
  | reap => exact hl.congr (by simp) (by simp)
  | modify => exact hl.congr rfl rfl

/-- Listings leave the lists alone. -/
theorem Move.lists (h : Move L c s l s' l') : s'.procs = s.procs ∧ s'.threads = s.threads := by
  cases h with
  | put => simp
  | _ => exact ⟨rfl, rfl⟩

/-! ### Steps of its own -/

/-- **A listing inside a section goes from one held task to the next.** -/
theorem Move.standing (h : Move L c s l s' l') (hrcu : L.rcu = true) (hS : Shape s)
    (hsect : s.rcu.InSection (ticketOf l)) (hl : Standing s floor l) : Standing s' floor l' := by
  obtain ⟨hprocs, hthreads⟩ := h.lists
  suffices hnew : Standing s floor l' from hnew.congr hprocs hthreads
  -- what is still in hand
  have hsame : stateOf l' = stateOf l → (inTask l' = true → inTask l = true) →
      (∀ v todo, l' ≠ .oops v todo) → Standing s floor l' := by
    intro hstate hin hno
    refine ⟨fun v todo hv => hl.process v todo (hstate ▸ hv), fun v todo hv hi => ?_, hno⟩
    exact hl.thread v todo (hstate ▸ hv) (hin hi)
  have hbody : ∀ {v v' : Vars} {is is' : List Instr}, stateOf l = some (v, is) →
      stateOf l' = some (v', is') → inTask l = true → v'.ticket = v.ticket → v'.g = v.g →
      v'.t = v.t → (∀ v todo, l' ≠ .oops v todo) → Standing s floor l' := by
    intro v v' is is' hv hv' hin hticket hg ht hno
    refine ⟨fun w todo hw => ?_, fun w todo hw _ => ?_, hno⟩
    · rw [hv', Option.some.injEq, Prod.mk.injEq] at hw
      rw [← hw.1, hticket, hg]
      exact hl.process v is hv
    · rw [hv', Option.some.injEq, Prod.mk.injEq] at hw
      rw [← hw.1, hticket, hg, ht]
      exact hl.thread v is hv hin
  cases h with
  | start => exact ⟨by simp [stateOf], by simp [stateOf], by simp⟩
  | leaveRcu v ht | leave v ht => exact ⟨by simp [stateOf], by simp [stateOf], by simp⟩
  | enter hno =>
      rw [hrcu] at hno
      cases hno
  | enterRcu _ =>
      refine ⟨fun v todo hv => ?_, fun v todo hv hin => (by cases hin), by simp⟩
      cases hv
      refine ⟨_, rfl, .listed ?_⟩
      rw [← hS.procsHead]
      exact hS.procs.headListed
  | last v hobj hnext => exact hsame rfl (fun hin => by cases hin) (by simp)
  | process v hobj hnext =>
      obtain ⟨t, ht, hheld⟩ := hl.process v [] rfl
      have hnew := hheld.next hS.procs
      have hgroup := hS.group _ hnew.ne_absent
      refine ⟨fun w todo hw => ?_, fun w todo hw _ => ?_, by simp⟩
      · cases hw
        exact ⟨t, ht, hnew⟩
      · cases hw
        refine ⟨t, ht, .listed ?_⟩
        have hhead := hgroup.1.headListed
        rw [hgroup.2.1] at hhead
        exact hhead
  | toThreads v h | toTasks v h => exact hsame rfl (fun _ => rfl) (by simp)
  | lastThread v hobj hnext => exact hsame rfl (fun hin => by cases hin) (by simp)
  | thread v hobj hnext =>
      obtain ⟨t, ht, hheld⟩ := hl.process v [] rfl
      obtain ⟨u, hu, hthread⟩ := hl.thread v [] rfl rfl
      obtain rfl : t = u := Option.some.inj (ht.symm.trans hu)
      refine ⟨fun w todo hw => ?_, fun w todo hw _ => ?_, by simp⟩
      · cases hw
        exact ⟨t, ht, hheld⟩
      · cases hw
        exact ⟨t, ht, hthread.next (hS.group _ hheld.ne_absent).1⟩
  | print v todo | load v f todo hobj | get v todo hobj | put v todo hobj | lock v todo hobj hfree
  | unlock v todo hobj | comm v todo hobj hfree | copy v todo hobj =>
      exact hbody rfl rfl rfl rfl rfl rfl (by simp)
  | @oops _ v todo o hp hv hnone =>
      -- what it uses is held, so it is there
      obtain ⟨t, ht, hheld⟩ := hl.process v todo hv
      have hopen : t ∈ s.rcu.opened := hsect t (by rw [ticketOf, hv]; exact ht)
      have hobj : ∃ obj, s.heap.obj o = some obj := by
        have hthread : inTask l = true → ∃ obj, s.heap.obj v.t = some obj := by
          intro hin
          obtain ⟨u, hu, hx⟩ := hl.thread v todo hv hin
          obtain rfl : t = u := Option.some.inj (ht.symm.trans hu)
          exact hS.there_thread hopen hheld hx
        have hprocess := hS.there_process hopen hheld
        unfold pointer at hp
        split at hp
        · cases hv
          cases hp
          exact hprocess
        · cases hv
          cases hp
          rename_i f _
          cases f <;> first | exact hprocess | exact hthread rfl
        · cases hp
        · cases hp
        · cases hv
          cases hp
          exact hthread rfl
        · cases hv
          cases hp
          exact hthread rfl
        · cases hv
          cases hp
          exact hthread rfl
        · cases hp
      obtain ⟨obj, hobj⟩ := hobj
      rw [hnone] at hobj
      cases hobj

end Steps

/-! ### Every run -/

variable {L : Nat → Listing}

theorem standing_kept :
    Pool.Kept (step L) (fun p _ => True ∧ Safe p) (fun _ => True)
      (fun c s l => (L c).rcu = true → Standing s 0 l) fun _ _ _ _ => True where
  own p c e s' l' hinv hok hstep := by
    refine ⟨trivial, fun hrcu => ?_⟩
    rcases move_of_step hstep with ⟨-, -, rfl⟩ | hmove
    · exact ⟨by simp [stateOf], by simp [stateOf], by simp⟩
    · exact hmove.standing hrcu hok.2.shared (hok.2.each c).2 (hinv.each c hrcu)
  others p c e s' l' d hinv hok hstep hne hrcu := by
    rcases move_of_step hstep with ⟨hmove, -, -⟩ | hmove
    · exact hmove.standing hok.2.shared (hok.2.each d).2 (Nat.zero_le _) (hinv.each d hrcu)
    · exact (hinv.each d hrcu).congr hmove.lists.1 hmove.lists.2
  pair _ _ _ _ _ _ _ _ _ _ := ⟨trivial, trivial⟩

theorem inductive_standing :
    (machine L).Inductive (fun p _ => True ∧ Safe p)
      (Pool.Inv (fun _ => True) (fun c s l => (L c).rcu = true → Standing s 0 l)
        fun _ _ _ _ => True) :=
  standing_kept.invariant (fun _ _ => trivial)
    (fun _ _ _ _ => ⟨by simp [stateOf], by simp [stateOf], by simp⟩) fun _ _ => trivial

theorem standing_of_reachable {p : Pool Sys Call} (hp : (machine L).Reachable p) {c : Nat}
    (hrcu : (L c).rcu = true) : Standing p.shared 0 (p.call c) :=
  (inductive_standing.holds (hp.assuming (inductive_safe _))).each c hrcu

/-! ### A task that is freed before it is used -/

/-- Listing 1 comes to the only process; that one exits, and a grace period is over. -/
def astray : List (Nat × Env) :=
  [(0, .kernel (.fork someTask 1)), (1, .start), (1, .run), (1, .run),
    (0, .kernel (.exit 1)), (0, .kernel (.reap 1)), (1, .run)]

theorem exec_astray {M : Listing} (hrcu : M.rcu = false) :
    ∃ p v todo, (machine fun _ => M).exec pool0 astray = some p ∧ p.call 1 = .oops v todo := by
  obtain ⟨is, hbody⟩ := M.exists_body
  simp [astray, machine, Pool.machine, Pool.next, pool0, step, listStep, instrStep, kernelStep,
    hrcu, hbody, boot, initTask, newObj, Sys.fork, Sys.unhash, Sys.Leaves, Sys.link, Sys.put,
    Chain.add, Chain.del, Chain.single, Chain.Listed, Heap.alloc, Heap.free, Rcu.Over, Rcu.fresh,
    Vars.at]

/--
**A listing never uses a task that is gone if and only if it runs inside a section**,
whatever other listings there are, and whatever comes and goes meanwhile.
-/
theorem noFreedTask_iff (M : Listing) :
    (∀ (L : Nat → Listing) (p : Pool Sys Call), (machine L).Reachable p →
      ∀ c, L c = M → ∀ v todo, p.call c ≠ .oops v todo) ↔ M.rcu = true := by
  constructor
  · intro hsafe
    by_contra hno
    obtain ⟨p, v, todo, hexec, hoops⟩ := exec_astray (Bool.eq_false_iff.mpr hno)
    exact hsafe _ p (Machine.reachable_of_exec (.init machine_init) hexec) 1 rfl v todo hoops
  · rintro hrcu L p hp c rfl
    exact (standing_of_reachable hp hrcu).noOops

example : showthrdsRcu.rcu = true ∧ showPrcsInTasklist.rcu = true ∧ showthrds.rcu = false ∧
    showthrdsBuggy.rcu = false ∧ showthrdsFixed.rcu = false := by decide

end Lkp.TaskList
