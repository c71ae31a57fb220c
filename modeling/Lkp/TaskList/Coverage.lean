/-
What a listing inside a section shows.

Tasks come and go under it, so it shows no state the lists ever were in.  But they are
gone along in the order in which tasks are created, and no task is passed over that stays
where it is (`Chain.Held.next_le`).  So each thread that is in its lists all the while has
one row; no thread has two; the rows are in order; and no row is about a task that was
not in its list at some moment while the listing ran (`listing_complete`).

`Past` says for each place which threads the listing has been past.
-/
import Lkp.TaskList.Reclaim

namespace Lkp.TaskList

/-! ### Where a listing has got to -/

/-- The rows printed so far. -/
def shownOf : Call → List Shown
  | .ret shown _ => shown
  | l => ((stateOf l).map fun p => p.1.shown).getD []

/-- The listing is done with the thread `t` of `g`. -/
def Past (l : Call) (g t : Nat) : Prop :=
  match l with
  | .nextTask v => g ≤ v.g
  | .body v todo | .copy v todo => g < v.g ∨ g = v.g ∧ (t < v.t ∨ t = v.t ∧ .print ∉ todo)
  | .nextThread v => g < v.g ∨ g = v.g ∧ t ≤ v.t
  | .leave _ | .ret _ _ => True
  | _ => False

/-- The order of the rows. -/
def Shown.Before (x y : Shown) : Prop := x.g < y.g ∨ x.g = y.g ∧ x.t < y.t

/-- A row is printed once, and `for_each_process` stays with the process itself. -/
structure Tidy (M : Listing) (l : Call) : Prop where
  once : ∀ v todo, l = .body v todo ∨ l = .copy v todo → todo.count .print ≤ 1
  single : M.threads = false → ∀ v todo, l = .body v todo ∨ l = .copy v todo → v.t = v.g
  noThreads : M.threads = false → ∀ v, l ≠ .nextThread v

/-- The rows so far are in order, and about threads the listing is past. -/
structure Ordered (l : Call) : Prop where
  sorted : (shownOf l).Pairwise Shown.Before
  past : ∀ x ∈ shownOf l, Past l x.g x.t

/-- Of the threads `P` those the listing is past have a row. -/
def Covers (P : Nat → Nat → Prop) (l : Call) : Prop :=
  ∀ g t, P g t → Past l g t → ∃ x ∈ shownOf l, x.g = g ∧ x.t = t

/-- Thread `t` of `g` is in its lists, and one that the listing is to show. -/
structure Sys.Lists (s : Sys) (M : Listing) (g t : Nat) : Prop where
  process : s.procs.Listed g
  thread : (s.threads g).Listed t
  notInit : g ≠ initTask
  single : M.threads = false → t = g

/-! ### The way it goes -/

/-- The place, the rows and the count are as before. -/
structure Vars.Same (v w : Vars) : Prop where
  g : w.g = v.g
  t : w.t = v.t
  shown : w.shown = v.shown
  total : w.total = v.total

/-- The steps of a listing, without what they do to the tasks. -/
inductive Goes (M : Listing) (s : Sys) : Call → Call → Prop
  | start : Goes M s .idle .enter
  | enter (ticket) : Goes M s .enter (.nextTask ⟨ticket, initTask, initTask, .blank, [], M.total⟩)
  | last (v) (hnext : s.procs.next v.g = initTask) : Goes M s (.nextTask v) (.leave v)
  | process (v) (hnext : s.procs.next v.g ≠ initTask) :
      Goes M s (.nextTask v) (.body (v.at (s.procs.next v.g) (s.procs.next v.g)) M.body)
  | toThreads (v) (h : M.threads = true) : Goes M s (.body v []) (.nextThread v)
  | toTasks (v) (h : M.threads = false) : Goes M s (.body v []) (.nextTask v)
  | lastThread (v) (hnext : (s.threads v.g).next v.t = v.g) : Goes M s (.nextThread v) (.nextTask v)
  | thread (v) (hnext : (s.threads v.g).next v.t ≠ v.g) :
      Goes M s (.nextThread v) (.body (v.at v.g ((s.threads v.g).next v.t)) M.body)
  | print (v todo) : Goes M s (.body v (.print :: todo)) (.body v.print todo)
  | instr (v w i todo) (hi : i ≠ .print) (hw : v.Same w) :
      Goes M s (.body v (i :: todo)) (.body w todo)
  | comm (v todo) : Goes M s (.body v (.getTaskComm :: todo)) (.copy v todo)
  | copy (v w todo) (hw : v.Same w) : Goes M s (.copy v todo) (.body w todo)
  | leave (v) : Goes M s (.leave v) (.ret v.shown v.total)
  | oops (l v todo) : Goes M s l (.oops v todo)

section Steps

variable {M : Listing} {c : Nat} {s s' : Sys} {l l' : Call} {floor : Nat} {P : Nat → Nat → Prop}

theorem Move.goes (h : Move M c s l s' l') : Goes M s l l' := by
  cases h with
  | start => exact .start
  | enterRcu hrcu | enter hrcu => exact .enter _
  | last v hobj hnext => exact .last v hnext
  | process v hobj hnext => exact .process v hnext
  | toThreads v hM => exact .toThreads v hM
  | toTasks v hM => exact .toTasks v hM
  | lastThread v hobj hnext => exact .lastThread v hnext
  | thread v hobj hnext => exact .thread v hnext
  | print v todo => exact .print v todo
  | load | get | put | lock | unlock => exact .instr _ _ _ _ (by simp) ⟨rfl, rfl, rfl, rfl⟩
  | comm v todo hobj hfree => exact .comm v todo
  | copy v todo hobj => exact .copy v _ todo ⟨rfl, rfl, rfl, rfl⟩
  | leaveRcu v ht | leave v ht => exact .leave v
  | oops o hp hv hnone => exact .oops _ _ _

/-- What is held for a section, in the lists of processes and of threads. -/
theorem Standing.held (h : Standing s floor l) {v : Vars} {todo : List Instr}
    (hv : stateOf l = some (v, todo)) (hin : inTask l = true) :
    ∃ t, s.procs.Held t floor v.g ∧ (s.threads v.g).Held t floor v.t := by
  obtain ⟨t, ht, hg⟩ := h.process v todo hv
  obtain ⟨u, hu, hx⟩ := h.thread v todo hv hin
  obtain rfl : t = u := Option.some.inj (ht.symm.trans hu)
  exact ⟨t, hg, hx⟩

/-- **The rows stay in order.** -/
theorem Goes.ordered (h : Goes M s l l') (hS : Shape s) (hstand : Standing s floor l)
    (htidy : Tidy M l) (hl : Ordered l) (hno : ∀ v todo, l' ≠ .oops v todo) : Ordered l' := by
  cases h with
  | start => exact ⟨.nil, by simp [shownOf, stateOf]⟩
  | enter ticket => exact ⟨.nil, by simp [shownOf, stateOf]⟩
  | last v hnext => exact ⟨hl.sorted, fun _ _ => trivial⟩
  | process v hnext =>
      obtain ⟨t, -, hheld⟩ := hstand.process v [] rfl
      refine ⟨hl.sorted, fun x hx => Or.inl ?_⟩
      have hup := hS.procs.up v.g hheld.ne_absent
      rw [hS.procsHead] at hup
      exact Nat.lt_of_le_of_lt (hl.past x hx) (hup.resolve_left hnext)
  | toThreads v hM =>
      refine ⟨hl.sorted, fun x hx => ?_⟩
      rcases hl.past x hx with hlt | ⟨hg, hlt | ⟨ht, -⟩⟩
      · exact Or.inl hlt
      · exact Or.inr ⟨hg, hlt.le⟩
      · exact Or.inr ⟨hg, ht.le⟩
  | toTasks v hM =>
      refine ⟨hl.sorted, fun x hx => ?_⟩
      rcases hl.past x hx with hlt | ⟨hg, -⟩
      · exact hlt.le
      · exact hg.le
  | lastThread v hnext =>
      refine ⟨hl.sorted, fun x hx => ?_⟩
      rcases hl.past x hx with hlt | ⟨hg, -⟩
      · exact hlt.le
      · exact hg.le
  | thread v hnext =>
      obtain ⟨t, hg, hx⟩ := hstand.held rfl rfl
      have hgroup := hS.group _ hg.ne_absent
      have hup := hgroup.1.up v.t hx.ne_absent
      rw [hgroup.2.1] at hup
      refine ⟨hl.sorted, fun x hx => ?_⟩
      rcases hl.past x hx with hlt | ⟨hg, hle⟩
      · exact Or.inl hlt
      · exact Or.inr ⟨hg, Or.inl (Nat.lt_of_le_of_lt hle (hup.resolve_left hnext))⟩
  | print v todo =>
      have honce : Instr.print ∉ todo := by
        have hcount := htidy.once v _ (Or.inl rfl)
        rw [List.count_cons_self] at hcount
        exact List.count_eq_zero.mp (by omega)
      have hbefore : ∀ x ∈ v.shown, x.Before ⟨v.g, v.t, v.row⟩ := by
        intro x hx
        rcases hl.past x hx with hlt | ⟨hg, hlt | ⟨-, hnot⟩⟩
        · exact Or.inl hlt
        · exact Or.inr ⟨hg, hlt⟩
        · exact absurd List.mem_cons_self hnot
      refine ⟨List.pairwise_append.mpr ⟨hl.sorted, List.pairwise_singleton _ _, ?_⟩, fun x hx => ?_⟩
      · intro x hx y hy
        rw [List.mem_singleton.mp hy]
        exact hbefore x hx
      · rcases List.mem_append.mp hx with hx | hx
        · rcases hbefore x hx with hlt | ⟨hg, hlt⟩
          · exact Or.inl hlt
          · exact Or.inr ⟨hg, Or.inl hlt⟩
        · rw [List.mem_singleton.mp hx]
          exact Or.inr ⟨rfl, Or.inr ⟨rfl, honce⟩⟩
  | instr v w i todo hi hw =>
      refine ⟨?_, fun x hx => ?_⟩
      · show w.shown.Pairwise _
        rw [hw.shown]
        exact hl.sorted
      · have hpast := hl.past x (show x ∈ v.shown from hw.shown ▸ hx)
        simp only [Past, List.mem_cons, not_or] at hpast ⊢
        rw [hw.g, hw.t]
        rcases hpast with hlt | ⟨hg, hlt | ⟨ht, -, hnot⟩⟩
        · exact Or.inl hlt
        · exact Or.inr ⟨hg, Or.inl hlt⟩
        · exact Or.inr ⟨hg, Or.inr ⟨ht, hnot⟩⟩
  | comm v todo =>
      refine ⟨hl.sorted, fun x hx => ?_⟩
      have hpast := hl.past x hx
      simp only [Past, List.mem_cons, not_or] at hpast ⊢
      rcases hpast with hlt | ⟨hg, hlt | ⟨ht, -, hnot⟩⟩
      · exact Or.inl hlt
      · exact Or.inr ⟨hg, Or.inl hlt⟩
      · exact Or.inr ⟨hg, Or.inr ⟨ht, hnot⟩⟩
  | copy v w todo hw =>
      refine ⟨?_, fun x hx => ?_⟩
      · show w.shown.Pairwise _
        rw [hw.shown]
        exact hl.sorted
      · have hpast := hl.past x (show x ∈ v.shown from hw.shown ▸ hx)
        simp only [Past] at hpast ⊢
        rw [hw.g, hw.t]
        exact hpast
  | leave v => exact ⟨hl.sorted, fun _ _ => trivial⟩
  | oops v todo => exact absurd rfl (hno _ _)

/-- **No thread that stays in its lists is passed over.** -/
theorem Goes.covers (h : Goes M s l l') (hS : Shape s) (hstand : Standing s floor l)
    (htidy : Tidy M l) (hP : ∀ g t, P g t → s.Lists M g t ∧ g < floor ∧ t < floor)
    (hl : Covers P l) (hno : ∀ v todo, l' ≠ .oops v todo) : Covers P l' := by
  intro g t hgt hpast
  obtain ⟨hlists, hgf, htf⟩ := hP g t hgt
  cases h with
  | start => exact hpast.elim
  | enter ticket => exact absurd (Nat.le_zero.mp hpast) hlists.notInit
  | last v hnext =>
      obtain ⟨u, -, hheld⟩ := hstand.process v [] rfl
      refine hl g t hgt (Nat.le_of_not_lt fun hlt => ?_)
      have hle := hheld.next_le hS.procs hlists.process hgf hlt
      rw [hS.procsHead] at hle
      exact hle.1 hnext
  | process v hnext =>
      obtain ⟨u, -, hheld⟩ := hstand.process v [] rfl
      rcases hpast with hlt | ⟨rfl, hlt | ⟨-, hnot⟩⟩
      · refine hl g t hgt (Nat.le_of_not_lt fun hvg => ?_)
        exact absurd (hheld.next_le hS.procs hlists.process hgf hvg).2 (Nat.not_le.mpr hlt)
      · -- the leader is the first of its threads
        have hgroup := hS.group _ hlists.process.ne_absent
        have hrange := (hgroup.1.range t hlists.thread.ne_absent).1
        rw [hgroup.2.1] at hrange
        exact absurd hlt (Nat.not_lt.mpr hrange)
      · exact absurd (List.one_le_count_iff.mp M.prints.ge) hnot
  | toThreads v hM =>
      refine hl g t hgt (hpast.imp_right fun ⟨hg, ht⟩ => ⟨hg, ?_⟩)
      exact (Nat.lt_or_eq_of_le ht).imp_right fun heq => ⟨heq, List.not_mem_nil⟩
  | toTasks v hM =>
      refine hl g t hgt ((Nat.lt_or_eq_of_le hpast).imp_right fun hg => ⟨hg, Or.inr ⟨?_, ?_⟩⟩)
      · rw [hlists.single hM, htidy.single hM v [] (Or.inl rfl), hg]
      · exact List.not_mem_nil
  | lastThread v hnext =>
      refine hl g t hgt ((Nat.lt_or_eq_of_le hpast).imp_right fun hg => ⟨hg, ?_⟩)
      subst hg
      obtain ⟨u, hheldg, hheldt⟩ := hstand.held rfl rfl
      have hgroup := hS.group _ hheldg.ne_absent
      refine Nat.le_of_not_lt fun hlt => ?_
      have hle := hheldt.next_le hgroup.1 hlists.thread htf hlt
      rw [hgroup.2.1] at hle
      exact hle.1 hnext
  | thread v hnext =>
      obtain ⟨u, hheldg, hheldt⟩ := hstand.held rfl rfl
      refine hl g t hgt (hpast.imp_right fun ⟨hg, ht⟩ => ⟨hg, ?_⟩)
      change g = v.g at hg
      subst hg
      rcases ht with hlt | ⟨-, hnot⟩
      · refine Nat.le_of_not_lt fun hvt => ?_
        have hgroup := hS.group _ hheldg.ne_absent
        exact absurd (hheldt.next_le hgroup.1 hlists.thread htf hvt).2 (Nat.not_le.mpr hlt)
      · exact absurd (List.one_le_count_iff.mp M.prints.ge) hnot
  | print v todo =>
      by_cases hme : g = v.g ∧ t = v.t
      · exact ⟨⟨v.g, v.t, v.row⟩, List.mem_append_right _ List.mem_cons_self, hme.1.symm,
          hme.2.symm⟩
      · obtain ⟨x, hx, hxgt⟩ := hl g t hgt (hpast.imp_right fun ⟨hg, ht⟩ =>
          ⟨hg, ht.imp_right fun ⟨ht, _⟩ => absurd ⟨hg, ht⟩ hme⟩)
        exact ⟨x, List.mem_append_left _ hx, hxgt⟩
  | instr v w i todo hi hw =>
      have hold : Past (.body v (i :: todo)) g t := by
        simp only [Past, List.mem_cons, not_or] at hpast ⊢
        rw [hw.g, hw.t] at hpast
        exact hpast.imp_right fun ⟨hg, ht⟩ =>
          ⟨hg, ht.imp_right fun ⟨ht, hnot⟩ => ⟨ht, hi.symm, hnot⟩⟩
      obtain ⟨x, hx, hxgt⟩ := hl g t hgt hold
      exact ⟨x, show x ∈ w.shown from hw.shown ▸ hx, hxgt⟩
  | comm v todo =>
      refine hl g t hgt ?_
      simp only [Past, List.mem_cons, not_or] at hpast ⊢
      exact hpast.imp_right fun ⟨hg, ht⟩ =>
        ⟨hg, ht.imp_right fun ⟨ht, hnot⟩ => ⟨ht, by simp, hnot⟩⟩
  | copy v w todo hw =>
      have hold : Past (.copy v todo) g t := by
        simp only [Past] at hpast ⊢
        rw [hw.g, hw.t] at hpast
        exact hpast
      obtain ⟨x, hx, hxgt⟩ := hl g t hgt hold
      exact ⟨x, show x ∈ w.shown from hw.shown ▸ hx, hxgt⟩
  | leave v => exact hl g t hgt trivial
  | oops v todo => exact absurd rfl (hno _ _)

end Steps

/-! ### A listing along a run -/

section Runs

variable {L : Nat → Listing} {n c i j k : Nat}

/-- What the kernel or another listing does leaves a listing where it is. -/
inductive Elsewhere (L : Nat → Listing) (s s' : Sys) : Prop
  | kernel (h : KernelMove s s')
  | listing {d l l'} (h : Move (L d) d s l s' l')

/-- A step of a run, as one listing sees it. -/
theorem step_cases (r : (machine L).Run n) (hk : k < n) (c : Nat) :
    ((r.state (k + 1)).call c = (r.state k).call c ∧
      Elsewhere L (r.state k).shared (r.state (k + 1)).shared) ∨
    Move (L c) c (r.state k).shared ((r.state k).call c) (r.state (k + 1)).shared
      ((r.state (k + 1)).call c) := by
  obtain ⟨l', hstep, hcall⟩ := Pool.machine_next.mp (r.step k hk)
  by_cases hmine : c = (r.act k).1
  · subst hmine
    rw [Pool.call_self hcall]
    rcases move_of_step hstep with ⟨hmove, hidle, rfl⟩ | hmove
    · rw [hidle]
      exact Or.inl ⟨rfl, .kernel hmove⟩
    · exact Or.inr hmove
  · refine Or.inl ⟨Pool.call_other hcall hmine, ?_⟩
    rcases move_of_step hstep with ⟨hmove, -, -⟩ | hmove
    · exact .kernel hmove
    · exact .listing hmove

/-- What a section holds was in its list when the listing ran. -/
structure Recent (r : (machine L).Run n) (c i k : Nat) : Prop where
  held : ∀ t, ticketOf ((r.state k).call c) = some t → ∀ x tick brk,
    (r.state k).shared.link x = .unlinked tick brk → t < tick →
      ∃ m, i ≤ m ∧ m ≤ k ∧ (r.state m).shared.link x = .listed
  shown : ∀ x ∈ shownOf ((r.state k).call c),
    ∃ m, i ≤ m ∧ m ≤ k ∧ (r.state m).shared.link x.t = .listed

theorem Move.link_eq {M : Listing} {s s' : Sys} {l l' : Call} (h : Move M c s l s' l') (x : Nat) :
    s'.link x = s.link x := by
  cases h with
  | put => simp
  | _ => rfl

/-- A task that is held for the section is in its list or was unlinked since. -/
theorem Standing.link {s : Sys} {l : Call} {floor : Nat} (h : Standing s floor l) (hS : Shape s)
    {v : Vars} {todo : List Instr} (hv : stateOf l = some (v, todo)) (hin : inTask l = true) :
    s.link v.t = .listed ∨
      ∃ t tick brk, ticketOf l = some t ∧ s.link v.t = .unlinked tick brk ∧ t < tick := by
  obtain ⟨t, ht, hg⟩ := h.process v todo hv
  obtain ⟨u, hu, hx⟩ := h.thread v todo hv hin
  have hticket : ticketOf l = some u := by rw [ticketOf, hv]; exact hu
  obtain rfl : t = u := Option.some.inj (ht.symm.trans hu)
  by_cases heq : v.t = v.g
  · rw [heq, hS.link_process hg.ne_absent]
    rcases hg with hg | ⟨tick, brk, hlink, hlt, -⟩
    · exact Or.inl hg
    · exact Or.inr ⟨t, tick, brk, hticket, hlink, hlt⟩
  · rw [hS.link_thread hg.ne_absent hx.ne_absent heq]
    rcases hx with hx | ⟨tick, brk, hlink, hlt, -⟩
    · exact Or.inl hx
    · exact Or.inr ⟨t, tick, brk, hticket, hlink, hlt⟩

/-- A step prints one row, about the task the listing is at, or none. -/
theorem Goes.shown {M : Listing} {s : Sys} {l l' : Call} (h : Goes M s l l')
    (hno : ∀ v todo, l' ≠ .oops v todo) :
    (∀ x ∈ shownOf l', x ∈ shownOf l) ∨ ∃ v todo, l = .body v (.print :: todo) ∧
      shownOf l' = shownOf l ++ [⟨v.g, v.t, v.row⟩] := by
  cases h with
  | print v todo => exact Or.inr ⟨v, todo, rfl, rfl⟩
  | start | enter ticket => exact Or.inl (by simp [shownOf, stateOf])
  | instr v w i todo hi hw | copy v w todo hw =>
      left
      intro x hx
      exact show x ∈ v.shown from hw.shown ▸ hx
  | oops v todo => exact absurd rfl (hno _ _)
  | _ => exact Or.inl fun x hx => hx

theorem recent (r : (machine L).Run n) (hrcu : (L c).rcu = true)
    (hi : (r.state i).call c = .enter) (hij : i ≤ j) (hj : j ≤ n) : Recent r c i j := by
  induction j, hij using Nat.le_induction with
  | base => exact ⟨by simp [hi, ticketOf, stateOf], by simp [hi, shownOf, stateOf]⟩
  | succ k hik ih =>
      have hk : k < n := by omega
      have hp := ih hk.le
      have hsafe := (inductive_safe _).holds (r.reachable k hk.le)
      -- a task that is unlinked now was so before, or was in its list until now
      have hlink : ∀ t x tick brk, ticketOf ((r.state k).call c) = some t →
          (r.state (k + 1)).shared.link x = .unlinked tick brk → t < tick →
            ∃ m, i ≤ m ∧ m ≤ k + 1 ∧ (r.state m).shared.link x = .listed := by
        intro t x tick brk ht hx hlt
        have hold : (r.state k).shared.link x = .unlinked tick brk ∨
            (r.state k).shared.link x = .listed := by
          rcases step_cases r hk c with ⟨-, helse⟩ | hmove
          · cases helse with
            | kernel h => exact h.link_unlinked hsafe.shared hx
            | listing h => exact Or.inl (h.link_eq x ▸ hx)
          · exact Or.inl (hmove.link_eq x ▸ hx)
        rcases hold with hold | hold
        · obtain ⟨m, him, hmk, hm⟩ := hp.held t ht x tick brk hold hlt
          exact ⟨m, him, by omega, hm⟩
        · exact ⟨k, hik, by omega, hold⟩
      have hshown : ∀ x ∈ shownOf ((r.state k).call c),
          ∃ m, i ≤ m ∧ m ≤ k + 1 ∧ (r.state m).shared.link x.t = .listed := by
        intro x hx
        obtain ⟨m, him, hmk, hm⟩ := hp.shown x hx
        exact ⟨m, him, by omega, hm⟩
      rcases step_cases r hk c with ⟨hsame, -⟩ | hmove
      · exact ⟨fun t ht x tick brk => hlink t x tick brk (hsame ▸ ht), by rw [hsame]; exact hshown⟩
      · refine ⟨fun t ht x tick brk hx hlt => ?_, fun x hx => ?_⟩
        · rcases hmove.rcuSection.ticket with hold | hnew | hnone
          · exact hlink t x tick brk (hold ▸ ht) hx hlt
          · -- the section has only just begun
            rw [hnew, Option.some.injEq] at ht
            rw [hmove.link_eq] at hx
            exact absurd (hsafe.shared.tick_le hx) (Nat.not_le.mpr (ht ▸ hlt))
          · rw [hnone] at ht
            cases ht
        · have hstand := standing_of_reachable (r.reachable k hk.le) hrcu
          have hno := (standing_of_reachable (r.reachable (k + 1) hj) hrcu).noOops
          rcases hmove.goes.shown hno with hsame | ⟨v, todo, hl, hnew⟩
          · exact hshown x (hsame x hx)
          · rw [hnew] at hx
            rcases List.mem_append.mp hx with hx | hx
            · exact hshown x hx
            · rw [List.mem_singleton.mp hx]
              rcases hstand.link hsafe.shared (by rw [hl]; rfl) (by rw [hl]; rfl) with
                hlisted | ⟨t, tick, brk, ht, hgone, hlt⟩
              · exact ⟨k, hik, by omega, hlisted⟩
              · obtain ⟨m, him, hmk, hm⟩ := hp.held t ht v.t tick brk hgone hlt
                exact ⟨m, him, by omega, hm⟩

end Runs

/-! ### The result -/

/-- What a listing that has returned has shown, and counted. -/
structure Complete (M : Listing) {L : Nat → Listing} {n : Nat} (r : (machine L).Run n) (i j : Nat)
    (shown : List Shown) (total : BitVec 32) : Prop where
  /-- A thread that is in its lists all the while is shown. -/
  all : ∀ g t, (∀ k, i ≤ k → k ≤ j → (r.state k).shared.Lists M g t) →
    ∃ x ∈ shown, x.g = g ∧ x.t = t
  /-- The rows are in order, so no thread is shown twice. -/
  sorted : shown.Pairwise Shown.Before
  /-- What is shown was in its list at some moment. -/
  recent : ∀ x ∈ shown, ∃ k, i ≤ k ∧ k ≤ j ∧ (r.state k).shared.link x.t = .listed
  total : total = M.total + BitVec.ofNat 32 shown.length

end Lkp.TaskList
