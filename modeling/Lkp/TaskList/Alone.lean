/-
A listing that nothing disturbs.

When it alone takes steps, a listing goes along the lists as they stand, and shows the
threads in them in order, each with the members it has (`listing_alone`).  So it comes to
its end, which it need not do while processes are created under it.
-/
import Lkp.Concurrency.Alone
import Lkp.TaskList.AllocLock

namespace Lkp.TaskList

/-! ### What is to be shown -/

/-- What a member is read from. -/
def Field.obj (f : Field) (og ot : Obj) : Obj :=
  match f with
  | .gTgid | .gMm | .gNrThreads | .gMmAgain => og
  | _ => ot

/-- The row the instructions print. -/
def rowOf (og ot : Obj) : List Instr → Row → Row
  | [], r => r
  | .print :: _, r => r
  | .load f :: is, r => rowOf og ot is (r.load f (f.obj og ot))
  | .getTaskComm :: is, r => rowOf og ot is (r.load .tComm ot)
  | _ :: is, r => rowOf og ot is r

/-- The row for the thread `t` of `g`. -/
def rowAt (M : Listing) (s : Sys) (g t : Nat) : Row :=
  match s.heap.obj g, s.heap.obj t with
  | some og, some ot => rowOf og ot M.body .blank
  | _, _ => .blank

/-- The threads of `g` that are shown. -/
def Sys.members (s : Sys) (M : Listing) (g : Nat) : List Nat :=
  if M.threads then g :: (s.threads g).rest s.heap.brk g else [g]

/-- The rows for some threads of `g`. -/
def Sys.rowsOf (s : Sys) (M : Listing) (g : Nat) (ts : List Nat) : List Shown :=
  ts.map fun t => ⟨g, t, rowAt M s g t⟩

/-- All rows. -/
def Sys.rows (s : Sys) (M : Listing) : List Shown :=
  (s.procs.rest s.heap.brk initTask).flatMap fun g => s.rowsOf M g (s.members M g)

/-! ### The instructions for one task -/

/-- The variables after the instructions. -/
def Vars.exec (og ot : Obj) : List Instr → Vars → Vars
  | [], v => v
  | .print :: is, v => Vars.exec og ot is v.print
  | .load f :: is, v => Vars.exec og ot is (v.load f (f.obj og ot))
  | .getTaskComm :: is, v => Vars.exec og ot is (v.load .tComm ot)
  | _ :: is, v => Vars.exec og ot is v

/-- The task while listing `c` has this of it. -/
def Obj.held (obj : Obj) (c : Nat) (h : Holding) : Obj :=
  { obj with
    refs := if h.ref then obj.refs + 1 else obj.refs
    users := if h.ref then insert c obj.users else obj.users
    lock := if h.lock then some (.call c) else obj.lock }

/-- What a listing has done on the way from `v` to `w`. -/
structure Vars.Adds (v w : Vars) (xs : List Shown) : Prop where
  g : w.g = v.g
  ticket : w.ticket = v.ticket
  shown : w.shown = v.shown ++ xs
  total : w.total = v.total + BitVec.ofNat 32 xs.length

section Tasks

variable {L : Nat → Listing} {c : Nat} {s s' : Sys} {l : Call} {og ot : Obj} {is : List Instr}
  {v w u : Vars} {xs ys : List Shown}

theorem Vars.Adds.refl (v : Vars) : v.Adds v [] := ⟨rfl, rfl, by simp, by simp⟩

theorem Vars.Adds.trans (h : v.Adds w xs) (h' : w.Adds u ys) : v.Adds u (xs ++ ys) where
  g := h'.g.trans h.g
  ticket := h'.ticket.trans h.ticket
  shown := by rw [h'.shown, h.shown, List.append_assoc]
  total := by rw [h'.total, h.total, List.length_append, BitVec.ofNat_add, BitVec.add_assoc]

@[simp] theorem exec_t : (v.exec og ot is).t = v.t := by
  induction is generalizing v with
  | nil => rfl
  | cons i is ih => cases i <;> exact ih

/-- Without a `print` nothing is shown. -/
theorem exec_adds_none (h : is.count .print = 0) : v.Adds (v.exec og ot is) [] := by
  induction is generalizing v with
  | nil => exact .refl v
  | cons i is ih =>
      have hrest : i ≠ .print → is.count .print = 0 := by
        intro hi
        rw [List.count_cons_of_ne hi] at h
        exact h
      cases i with
      | print => simp at h
      | load f =>
          have hload := ih (v := v.load f (f.obj og ot)) (hrest (by simp))
          exact ⟨hload.g, hload.ticket, hload.shown, hload.total⟩
      | getTaskComm =>
          have hload := ih (v := v.load .tComm ot) (hrest (by simp))
          exact ⟨hload.g, hload.ticket, hload.shown, hload.total⟩
      | _ => exact ih (hrest (by simp))

/-- With one there is one row. -/
theorem exec_adds_one (h : is.count .print = 1) :
    v.Adds (v.exec og ot is) [⟨v.g, v.t, rowOf og ot is v.row⟩] := by
  induction is generalizing v with
  | nil => cases h
  | cons i is ih =>
      have hrest : i ≠ .print → is.count .print = 1 := by
        intro hi
        rw [List.count_cons_of_ne hi] at h
        exact h
      cases i with
      | print =>
          have hnone : is.count .print = 0 := by simpa using h
          have hprint : v.Adds v.print [⟨v.g, v.t, v.row⟩] := ⟨rfl, rfl, rfl, rfl⟩
          exact hprint.trans (exec_adds_none hnone)
      | load f =>
          have hload := ih (v := v.load f (f.obj og ot)) (hrest (by simp))
          exact ⟨hload.g, hload.ticket, hload.shown, hload.total⟩
      | getTaskComm =>
          have hload := ih (v := v.load .tComm ot) (hrest (by simp))
          exact ⟨hload.g, hload.ticket, hload.shown, hload.total⟩
      | _ => exact ih (hrest (by simp))

theorem store_store {o : Nat} {a b : Obj} : (s.store o a).store o b = s.store o b := by
  rw [Sys.store, Sys.store, Sys.store, Heap.store_store]

theorem store_eq_self {o : Nat} {a : Obj} (ho : s.heap.obj o = some a) : s.store o a = s := by
  rw [Sys.store, Heap.store_eq_self ho]

theorem held_none : ot.held c ⟨false, false⟩ = ot := rfl

theorem load_held {f : Field} {h : Holding} {r : Row} : r.load f (ot.held c h) = r.load f ot := by
  cases f <;> rfl

theorem obj_of_same {f : Field} (hg : s.heap.obj v.g = some og) (ht : s.heap.obj v.t = some ot)
    (heq : f.of v = v.t) : f.obj og ot = ot := by
  cases f with
  | gTgid | gMm | gNrThreads | gMmAgain =>
      have hsame : v.g = v.t := heq
      rw [hsame, ht] at hg
      exact (Option.some.inj hg).symm
  | _ => rfl

/-- The call has returned. -/
def returned : Call → Prop
  | .ret _ _ => True
  | _ => False

/-- The call begins, and goes on. -/
def solo : Call → Env
  | .idle => .start
  | _ => .run

/-- **The instructions are run one after another**, and leave the task as it was. -/
theorem body_alone (hlock : ot.lock = none) (huser : c ∉ ot.users) (hpos : 0 < ot.refs) (todo : List Instr) :
    ∀ v : Vars, Paired todo → selfLocks todo = false → s.heap.obj v.g = some og →
      s.heap.obj v.t = some ot →
      Returns (step L) returned c solo s (.body (v.exec og ot todo) []) s' l →
      Returns (step L) returned c solo (s.store v.t (ot.held c (holding todo))) (.body v todo)
        s' l := by
  induction todo with
  | nil =>
      intro v _ _ _ ht hrest
      rw [show holding [] = ⟨false, false⟩ from rfl, held_none, store_eq_self ht]
      exact hrest
  | cons i is ih =>
      intro v hpaired hself hg ht hrest
      -- one step to the rest of the instructions
      have hgo : ∀ v' : Vars, Paired is → selfLocks is = false → v'.g = v.g → v'.t = v.t →
          v.exec og ot (i :: is) = v'.exec og ot is →
          instrStep c (s.store v.t (ot.held c (holding (i :: is)))) v i is =
            some (s.store v.t (ot.held c (holding is)), .body v' is) →
          Returns (step L) returned c solo (s.store v.t (ot.held c (holding (i :: is))))
            (.body v (i :: is)) s' l := by
        intro v' hp hs hvg hvt hexec hstep
        refine .step (by simp [returned]) hstep ?_
        rw [← hvt]
        refine ih v' hp hs (hvg ▸ hg) (hvt ▸ ht) ?_
        rw [← hexec]
        exact hrest
      have hobj : ∀ h, (s.store v.t (ot.held c h)).heap.obj v.t = some (ot.held c h) :=
        fun h => Heap.store_self
      cases i with
      | print => exact hgo v.print hpaired hself rfl rfl rfl rfl
      | load f =>
          have hload : ∃ o, (s.store v.t (ot.held c (holding is))).heap.obj (f.of v) = some o ∧
              v.load f o = v.load f (f.obj og ot) := by
            by_cases heq : f.of v = v.t
            · refine ⟨ot.held c (holding is), by rw [heq]; exact hobj _, ?_⟩
              rw [obj_of_same hg ht heq, Vars.load, load_held, Vars.load]
            · refine ⟨f.obj og ot, ?_, rfl⟩
              show (s.heap.store _ _).obj _ = _
              rw [Heap.store_of_ne heq]
              cases f <;> first | exact hg | exact ht
          obtain ⟨o, ho, heq⟩ := hload
          refine hgo (v.load f (f.obj og ot)) hpaired hself rfl rfl rfl ?_
          simp only [instrStep, show holding (.load f :: is) = holding is from rfl, ho, heq]
      | getTaskStruct =>
          obtain ⟨hafter, hp⟩ := hpaired
          refine hgo v hp hself rfl rfl rfl ?_
          have hbefore : holding (.getTaskStruct :: is) = ⟨false, false⟩ := by
            rw [holding, hafter]
          simp only [instrStep, hobj, hbefore, hafter, store_store]
          rfl
      | putTaskStruct =>
          obtain ⟨hafter, hp⟩ := hpaired
          refine hgo v hp hself rfl rfl rfl ?_
          have hbefore : holding (.putTaskStruct :: is) = ⟨true, false⟩ := by
            rw [holding, hafter]
          have hdrop : (ot.held c ⟨true, false⟩).drop c = ot.held c ⟨false, false⟩ := by
            simp [Obj.held, Obj.drop, Finset.erase_insert huser]
          simp only [instrStep, hobj, hbefore, hafter, hdrop]
          rw [← store_eq_put (by exact hpos), store_store]
      | taskLock =>
          obtain ⟨hafter, hp⟩ := hpaired
          refine hgo v hp hself rfl rfl rfl ?_
          have hbefore : holding (.taskLock :: is) = ⟨true, false⟩ := by
            rw [holding, hafter]
          have hfree : (ot.held c ⟨true, false⟩).lock = none := hlock
          simp only [instrStep, hobj, hbefore, hafter, hfree, if_true, store_store]
          rfl
      | taskUnlock =>
          obtain ⟨hafter, hp⟩ := hpaired
          refine hgo v hp hself rfl rfl rfl ?_
          have hbefore : holding (.taskUnlock :: is) = ⟨true, true⟩ := by
            rw [holding, hafter]
          have hfree : { ot.held c ⟨true, true⟩ with lock := none } = ot.held c ⟨true, false⟩ := by
            simp [Obj.held, hlock]
          simp only [instrStep, hobj, hbefore, hafter, hfree, store_store]
      | getTaskComm =>
          obtain ⟨href, hp⟩ := hpaired
          obtain ⟨hnot, hs⟩ := Bool.or_eq_false_iff.mp hself
          have hafter : holding is = ⟨true, false⟩ := by
            rw [← href, ← hnot]
          have hbefore : holding (.getTaskComm :: is) = ⟨true, false⟩ := hafter
          have hfree : (ot.held c ⟨true, false⟩).lock = none := hlock
          rw [hbefore]
          -- the lock is taken
          refine .step (by simp [returned]) (show instrStep c _ v .getTaskComm is =
            some (s.store v.t (ot.held c ⟨true, true⟩), .copy v is) from ?_) ?_
          · simp only [instrStep, hobj, hfree, if_true, store_store]
            rfl
          -- the name is copied, and the lock dropped
          · refine .step (by simp [returned]) (show listStep (L c) c _ (.copy v is) =
              some (s.store v.t (ot.held c ⟨true, false⟩), .body (v.load .tComm ot) is) from ?_) ?_
            · have hdrop : { ot.held c ⟨true, true⟩ with lock := none } =
                  ot.held c ⟨true, false⟩ := by
                simp [Obj.held, hlock]
              simp only [listStep, hobj, hdrop, store_store, Vars.load, load_held]
            · have hnext := ih (v.load .tComm ot) hp hs hg ht hrest
              rw [hafter] at hnext
              exact hnext

/-- Nobody has a lock, and listing `c` nothing at all. -/
structure Quiet (c : Nat) (s : Sys) : Prop where
  shape : Shape s
  free : ∀ o obj, s.heap.obj o = some obj → obj.lock = none
  mine : ∀ o obj, s.heap.obj o = some obj → c ∉ obj.users

theorem Quiet.process (hq : Quiet c s) {g : Nat} (hg : s.procs.Listed g) :
    ∃ obj, s.heap.obj g = some obj := by
  obtain ⟨obj, hobj, -⟩ := hq.shape.alive g ((hq.shape.link_process hg.ne_absent).trans hg)
  exact ⟨obj, hobj⟩

theorem Quiet.thread (hq : Quiet c s) {g t : Nat} (hg : s.procs.Listed g)
    (ht : (s.threads g).Listed t) : ∃ obj, s.heap.obj t = some obj := by
  by_cases heq : t = g
  · rw [heq]
    exact hq.process hg
  · obtain ⟨obj, hobj, -⟩ := hq.shape.alive t
      ((hq.shape.link_thread hg.ne_absent ht.ne_absent heq).trans ht)
    exact ⟨obj, hobj⟩

/-- **One task is shown**, and the rest of the listing goes on from there. -/
theorem task_alone (hq : Quiet c s) (hself : selfLocks (L c).body = false) {g t : Nat}
    (hg : s.procs.Listed g) (ht : (s.threads g).Listed t)
    (hrest : ∀ w : Vars, w.t = t → (v.at g t).Adds w (s.rowsOf (L c) g [t]) →
      Returns (step L) returned c solo s (.body w []) s' l) :
    Returns (step L) returned c solo s (.body (v.at g t) (L c).body) s' l := by
  obtain ⟨og, hog⟩ := hq.process hg
  obtain ⟨ot, hot⟩ := hq.thread hg ht
  have hadds : (v.at g t).Adds _ [⟨g, t, rowOf og ot (L c).body (v.at g t).row⟩] :=
    exec_adds_one (L c).prints
  have hrow : rowOf og ot (L c).body (v.at g t).row = rowAt (L c) s g t := by
    rw [rowAt, hog, hot]
    rfl
  rw [hrow] at hadds
  have hrun := body_alone (L := L) (c := c) (s := s) (hq.free t ot hot) (hq.mine t ot hot)
    (hq.shape.pos t ot hot) (L c).body (v.at g t) (L c).paired hself hog hot
    (hrest _ exec_t hadds)
  rw [(L c).holding_body, held_none,
    store_eq_self (show s.heap.obj (v.at g t).t = some ot from hot)] at hrun
  exact hrun

/-- The other threads of a process are shown. -/
theorem threads_alone (hq : Quiet c s) (hself : selfLocks (L c).body = false)
    (hthreads : (L c).threads = true) {g : Nat} (hg : s.procs.Listed g) (ts : List Nat) :
    ∀ v : Vars, v.g = g → (s.threads g).Listed v.t → (s.threads g).rest s.heap.brk v.t = ts →
      (∀ w : Vars, v.Adds w (s.rowsOf (L c) g ts) →
        Returns (step L) returned c solo s (.nextTask w) s' l) →
      Returns (step L) returned c solo s (.nextThread v) s' l := by
  have hgroup := hq.shape.group g hg.ne_absent
  induction ts with
  | nil =>
      intro v hvg ht hts hrest
      obtain ⟨obj, hobj⟩ := hq.thread hg ht
      have hnext := hgroup.1.next_of_rest_nil ht hts
      rw [hgroup.2.1] at hnext
      refine .step (by simp [returned]) (show listStep (L c) c s (.nextThread v) = _ from ?_)
        (hrest v (.refl v))
      simp only [listStep, hobj, hvg, hnext, if_true]
  | cons t ts ih =>
      intro v hvg ht hts hrest
      obtain ⟨obj, hobj⟩ := hq.thread hg ht
      obtain ⟨hnext, hne, ht'⟩ := hgroup.1.next_of_rest_cons ht hts
      rw [hgroup.2.1, hnext] at hne
      refine .step (by simp [returned]) (show listStep (L c) c s (.nextThread v) =
        some (s, .body (v.at g t) (L c).body) from ?_) ?_
      · simp only [listStep, hobj, hvg, hnext, if_neg hne]
      · refine task_alone hq hself hg ht' fun w hwt hw => ?_
        refine .step (by simp [returned]) (show listStep (L c) c s (.body w []) =
          some (s, .nextThread w) from by simp [listStep, hthreads]) ?_
        refine ih w hw.g (hwt ▸ ht') (hwt ▸ Chain.rest_of_rest_cons hts) fun u hu => hrest u ?_
        have hboth := hw.trans hu
        exact ⟨hboth.g.trans hvg.symm, hboth.ticket, hboth.shown, hboth.total⟩

/-- The state in which a listing returns. -/
def Sys.left (s : Sys) (ticket : Option Nat) : Sys :=
  match ticket with
  | some t => { s with rcu := s.rcu.unlock t }
  | none => s

/-- What comes after a process is shown. -/
theorem tasks_alone (hq : Quiet c s) (hself : selfLocks (L c).body = false) (gs : List Nat) :
    ∀ v : Vars, s.procs.Listed v.g → s.procs.rest s.heap.brk v.g = gs → ∀ xs,
      xs = (gs.flatMap fun g => s.rowsOf (L c) g (s.members (L c) g)) →
      Returns (step L) returned c solo s (.nextTask v) (s.left v.ticket)
        (.ret (v.shown ++ xs) (v.total + BitVec.ofNat 32 xs.length)) := by
  induction gs with
  | nil =>
      intro v hv hgs xs hxs
      obtain ⟨obj, hobj⟩ := hq.process hv
      have hnext := hq.shape.procs.next_of_rest_nil hv hgs
      rw [hq.shape.procsHead] at hnext
      refine .step (by simp [returned]) (show listStep (L c) c s (.nextTask v) = some (s, .leave v)
        from by simp only [listStep, hobj, hnext, if_true]) ?_
      refine .step (by simp [returned]) (show listStep (L c) c s (.leave v) =
        some (s.left v.ticket, .ret v.shown v.total) from ?_) ?_
      · simp only [listStep]
        cases hticket : v.ticket <;> simp [Sys.left]
      · rw [hxs, List.flatMap_nil, List.append_nil, List.length_nil, BitVec.add_zero]
        exact .done trivial
  | cons g gs ih =>
      intro v hv hgs xs hxs
      obtain ⟨obj, hobj⟩ := hq.process hv
      obtain ⟨hnext, hne, hg⟩ := hq.shape.procs.next_of_rest_cons hv hgs
      rw [hq.shape.procsHead, hnext] at hne
      -- once all threads of the process are shown
      have hafter : ∀ u : Vars, (v.at g g).Adds u (s.rowsOf (L c) g (s.members (L c) g)) →
          Returns (step L) returned c solo s (.nextTask u) (s.left v.ticket)
            (.ret (v.shown ++ xs) (v.total + BitVec.ofNat 32 xs.length)) := by
        intro u hu
        have hug : u.g = g := hu.g
        have hrun := ih u (hug ▸ hg) (hug ▸ Chain.rest_of_rest_cons hgs) _ rfl
        rw [List.flatMap_cons] at hxs
        rw [hu.ticket, hu.shown, hu.total, List.append_assoc, BitVec.add_assoc, ← BitVec.ofNat_add,
          ← List.length_append, ← hxs] at hrun
        exact hrun
      refine .step (by simp [returned]) (show listStep (L c) c s (.nextTask v) =
        some (s, .body (v.at g g) (L c).body) from ?_) ?_
      · simp only [listStep, hobj, hnext, if_neg hne]
      have hgroup := hq.shape.group g hg.ne_absent
      have hleader : (s.threads g).Listed g := by
        have hhead := hgroup.1.headListed
        rw [hgroup.2.1] at hhead
        exact hhead
      refine task_alone hq hself hg hleader fun w hwt hw => ?_
      by_cases hthreads : (L c).threads = true
      · refine .step (by simp [returned]) (show listStep (L c) c s (.body w []) =
          some (s, .nextThread w) from by simp [listStep, hthreads]) ?_
        refine threads_alone hq hself hthreads hg _ w hw.g (hwt ▸ hleader) rfl fun u hu => ?_
        refine hafter u ?_
        have hboth := hw.trans hu
        rw [hwt] at hboth
        rw [Sys.members, if_pos hthreads]
        exact hboth
      · refine .step (by simp [returned]) (show listStep (L c) c s (.body w []) =
          some (s, .nextTask w) from by simp [listStep, hthreads]) ?_
        refine hafter w ?_
        rw [Sys.members, if_neg hthreads]
        exact hw

end Tasks

/-! ### The result -/

/-- Nothing is left of a listing but its rows and its count. -/
structure Shows (M : Listing) (s s' : Sys) (shown : List Shown) (total : BitVec 32) : Prop where
  rows : shown = s.rows M
  total : total = M.total + BitVec.ofNat 32 shown.length
  frame : { s' with rcu := s.rcu } = s

/--
**A listing that nothing disturbs returns**, and shows the threads that are there, in order.
-/
theorem listing_alone (L : Nat → Listing) (p : Pool Sys Call) (hp : (machine L).Reachable p)
    (c : Nat) (hself : selfLocks (L c).body = false) (hidle : p.call c = .idle)
    (hfree : ∀ o obj, p.shared.heap.obj o = some obj → obj.lock = none) :
    ∃ s' shown total, Returns (step L) returned c solo p.shared .idle s' (.ret shown total) ∧
      Shows (L c) p.shared s' shown total := by
  have hsafe := (inductive_safe (fun _ _ => True)).holds hp
  have hquiet : ∀ s : Sys, Shape s → s.heap = p.shared.heap → Quiet c s := by
    intro s hS hheap
    refine ⟨hS, fun o obj ho => hfree o obj (hheap ▸ ho), fun o obj ho hmem => ?_⟩
    have href := ((hsafe.each c).1.users o obj (hheap ▸ ho)).mp hmem
    rw [hidle] at href
    cases href
  have hinit : p.shared.procs.Listed initTask := by
    have hhead := hsafe.shared.procs.headListed
    rw [hsafe.shared.procsHead] at hhead
    exact hhead
  by_cases hrcu : (L c).rcu = true
  · have hS : Shape { p.shared with rcu := p.shared.rcu.lock } := hsafe.shared.rcuLock
    have hrun := tasks_alone (L := L) (hquiet _ hS rfl) hself _
      ⟨some p.shared.rcu.next, initTask, initTask, .blank, [], (L c).total⟩ hinit rfl _ rfl
    refine ⟨_, _, _, .step (by simp [returned]) rfl (.step (by simp [returned])
      (show listStep (L c) c p.shared .enter = _ from ?_) hrun), rfl, rfl, rfl⟩
    simp only [listStep, if_pos hrcu]
  · have hrun := tasks_alone (L := L) (hquiet _ hsafe.shared rfl) hself _
      ⟨none, initTask, initTask, .blank, [], (L c).total⟩ hinit rfl _ rfl
    refine ⟨_, _, _, .step (by simp [returned]) rfl (.step (by simp [returned])
      (show listStep (L c) c p.shared .enter = _ from ?_) hrun), rfl, rfl, rfl⟩
    simp only [listStep, if_neg hrcu]

end Lkp.TaskList
