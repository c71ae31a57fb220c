/-
What the reader-writer lock changes about the line that is printed: nothing.

Seen without its lock the driver does what the driver without one does (`exists_same`), so
it prints nothing that the other could not print.  And it prints all of it: a read that is
through with `reader()` prints while a writer is in its section, and the lock keeps the two
apart no more than if it were not there (`same_lines`).

What it does change is what `reader()` loads (`reader_iff`), which the read method drops.
-/
import Lkp.NolocksRdwr.Show
import Lkp.RwRdwr.Show

namespace Lkp.RwRdwr

open RcuRdwr (GlobalData Field Seen readerFields readerMore writerStores)
open NolocksRdwr (plan AtLevel readerOrder printed)

/-! ### The lock taken away -/

/-- The driver without the lock. -/
def Drv.unlocked (s : Drv) : NolocksRdwr.Drv where
  heap := { obj := fun o => (s.heap.obj o).map Obj.data, brk := s.heap.brk }
  gd := s.gd

/-- A call, and the call of the other driver that does the same. -/
inductive Same (args : List Field) : Call → NolocksRdwr.Call → Prop
  | idle : Same args .idle .idle
  | read (count) : Same args (.read count) (.read count)
  | readerGd (count gd) : Same args (.readerGd count gd) (.reader count gd readerFields [])
  | reader (count gd todo seen) :
      Same args (.reader count gd todo seen) (.reader count gd todo seen)
  | readerRet (count gd seen) : Same args (.readerRet count seen) (.reader count gd [] seen)
  | showLoad (count todo seen first) (hfirst : first.length = readerOrder.length) :
      Same args (.showLoad count todo seen) (.showLoad count todo (first ++ seen))
  | showUse (count f todo gd seen first) (hfirst : first.length = readerOrder.length) :
      Same args (.showUse count f todo gd seen) (.showUse count f todo gd (first ++ seen))
  | readRet (count seen first) (hfirst : first.length = readerOrder.length) :
      Same args (.readRet count seen) (.readRet count (first ++ seen))
  | write (count) : Same args (.write count) (.write count)
  | writerGd (count gd) : Same args (.writerGd count gd) (.writerStore count gd writerStores)
  | writerStore (count gd todo) :
      Same args (.writerStore count gd todo) (.writerStore count gd todo)
  | writeRet (count) : Same args (.writeRet count) (.writeRet count)

section Unlocked

variable {args : List Field} {s s' : Drv} {gd : Nat} {o : Obj}

theorem unlocked_obj (h : s.heap.obj gd = some o) : s.unlocked.heap.obj gd = some o.data := by
  simp [Drv.unlocked, h]

/-- Whatever is stored, the other driver stores the data. -/
theorem unlocked_put : (s.put gd o).unlocked =
    { s.unlocked with heap := s.unlocked.heap.store gd o.data } := by
  simp only [Drv.unlocked, Drv.put, Heap.store, NolocksRdwr.Drv.mk.injEq, Heap.mk.injEq, and_true]
  funext x
  by_cases hx : x = gd
  · simp [hx]
  · simp [hx]

/-- An operation on the lock is nothing. -/
theorem unlocked_lock (h : s.heap.obj gd = some o) (k : RwLock) :
    (s.put gd { o with rwlock := k }).unlocked = s.unlocked := by
  rw [unlocked_put, Heap.store_eq_self (unlocked_obj h)]

theorem exists_same {p : Pool Drv Call} (hp : (machine args).Reachable p) :
    ∃ q, (NolocksRdwr.machine args).Reachable q ∧
      Pool.Similar (fun s t => t = s.unlocked) (Same args) p q := by
  have hstart : ∀ s, s = drv0 → ∃ t, (fun t => t = NolocksRdwr.drv0) t ∧ t = s.unlocked := by
    rintro s rfl
    refine ⟨NolocksRdwr.drv0, rfl, ?_⟩
    simp only [NolocksRdwr.drv0, Drv.unlocked, drv0, NolocksRdwr.Drv.mk.injEq, Heap.mk.injEq,
      and_true]
    funext x
    by_cases hx : x = 1
    · simp [hx, firstObj]
    · simp [hx]
  refine Pool.exists_similar hstart Same.idle (fun p q c e s' l' hp hq hsim hstep => ?_) hp
  have hsafe := (inductive_safe (fun _ _ => True)).holds hp
  have hat := (NolocksRdwr.levelled hq).each c
  have hcall := hsim.call c
  have hshared := hsim.shared
  have hptr := (hsafe.each c).ptr
  generalize p.call c = l at hstep hcall hptr
  generalize q.call c = m at hcall hat
  cases move_of_step hstep with
  | callRead count =>
      cases hcall
      exact Or.inr ⟨.read count, _, _, rfl, hshared, .read count⟩
  | callWrite count =>
      cases hcall
      exact Or.inr ⟨.write count, _, _, rfl, hshared, .write count⟩
  | readGd count =>
      cases hcall
      refine Or.inr ⟨.run, _, _, rfl, hshared, ?_⟩
      rw [hshared]
      exact .readerGd count _
  | readLock count gd ho hk =>
      cases hcall
      exact Or.inl ⟨hshared.trans (unlocked_lock ho _).symm, .reader ..⟩
  | load count gd f todo seen ho =>
      cases hcall
      refine Or.inr ⟨.run, _, _, ?_, hshared, .reader ..⟩
      simp [NolocksRdwr.step, NolocksRdwr.readStep, hshared, unlocked_obj ho]
  | readUnlock count gd seen ho =>
      cases hcall
      exact Or.inl ⟨hshared.trans (unlocked_lock ho _).symm, .readerRet ..⟩
  | showBegin count seen =>
      cases hcall with
      | readerRet count gd seen =>
          have hlen : seen.length = readerOrder.length := by
            rw [← hat.2.2.1]
            simp [NolocksRdwr.comes]
          refine Or.inr ⟨.run, _, _, rfl, hshared, ?_⟩
          have hsame : Same args _ _ := .showLoad count args [] seen hlen
          rwa [List.append_nil] at hsame
  | showLoad count f todo seen =>
      cases hcall with
      | showLoad count _ seen first hfirst =>
          refine Or.inr ⟨.run, _, _, rfl, hshared, ?_⟩
          rw [hshared]
          exact .showUse _ _ _ _ _ _ hfirst
  | showEnd count seen =>
      cases hcall with
      | showLoad count _ seen first hfirst =>
          exact Or.inr ⟨.run, _, _, rfl, hshared, .readRet _ _ _ hfirst⟩
  | @showUse count f todo gd seen o ho =>
      cases hcall with
      | showUse count f todo gd seen first hfirst =>
          refine Or.inr ⟨.run, q.shared,
            .showLoad count todo (first ++ (seen ++ [(f, o.data.get f)])), ?_, hshared,
            .showLoad _ _ _ _ hfirst⟩
          simp [NolocksRdwr.step, NolocksRdwr.readStep, hshared, unlocked_obj ho]
  | writeGd count =>
      cases hcall
      refine Or.inr ⟨.run, _, _, rfl, hshared, ?_⟩
      rw [hshared]
      exact .writerGd count _
  | writeLock count gd ho hk =>
      cases hcall
      exact Or.inl ⟨hshared.trans (unlocked_lock ho _).symm, .writerStore ..⟩
  | store count gd f v todo ho =>
      cases hcall
      refine Or.inr ⟨.run, _, _, ?_, unlocked_put.symm, .writerStore ..⟩
      simp [NolocksRdwr.step, NolocksRdwr.readStep, NolocksRdwr.writeStep, hshared,
        unlocked_obj ho]
  | writeUnlock count gd ho =>
      cases hcall
      exact Or.inr ⟨.run, _, _, rfl, hshared.trans (unlocked_lock ho _).symm, .writeRet ..⟩
  | oops gd hgd hnone =>
      obtain ⟨o, ho⟩ := hsafe.shared
      rw [hptr gd hgd, ho] at hnone
      cases hnone

/-- What one prints the other can print. -/
theorem exists_line {p : Pool Drv Call} (hp : (machine args).Reachable p) {c count : Nat}
    {shown : Seen} (hret : p.call c = .readRet count shown) :
    ∃ q seen, (NolocksRdwr.machine args).Reachable q ∧ q.call c = .readRet count seen ∧
      printed seen = shown := by
  obtain ⟨q, hq, hsim⟩ := exists_same hp
  have hcall := hsim.call c
  rw [hret] at hcall
  generalize hm : q.call c = m at hcall
  cases hcall with
  | readRet count shown first hfirst =>
      refine ⟨q, first ++ shown, hq, hm, ?_⟩
      rw [printed, ← hfirst, List.drop_left]

end Unlocked

/-! ### The lock in the way -/

section Locked

variable {args : List Field} {p : Pool Drv Call} {seen : Seen} {k : Nat} {todo : List Field}

/-- A reachable state in which call 1 prints, and call 0 is in its section. -/
structure Prints (args : List Field) (k : Nat) (seen : Seen) (todo : List Field)
    (p : Pool Drv Call) : Prop where
  reach : (machine args).Reachable p
  level : AtLevel p.shared.unlocked k
  prints : ∃ count, p.call 1 = .showLoad count todo seen
  writes : ∃ count, p.call 0 = .writerStore count p.shared.gd (writerStores.drop k)

/-- The object at a level. -/
theorem Prints.object (h : Prints args k seen todo p) :
    ∃ o, p.shared.heap.obj p.shared.gd = some o ∧ o.data.get = plan.after k := by
  obtain ⟨d, hd, hget⟩ := h.level.object
  obtain ⟨o, ho, rfl⟩ := Option.map_eq_some_iff.mp hd
  exact ⟨o, ho, hget⟩

/-- The writer makes one more store. -/
theorem Prints.rise (h : Prints args k seen todo p) (hk : k < 4) :
    ∃ p', Prints args (k + 1) seen todo p' := by
  obtain ⟨count, hwrites⟩ := h.writes
  obtain ⟨o, ho, hget⟩ := h.object
  have hdrop : writerStores.drop k = writerStores[k] :: writerStores.drop (k + 1) :=
    List.drop_eq_getElem_cons hk
  rw [hdrop] at hwrites
  let s' : Drv := p.shared.put p.shared.gd
    { o with data := o.data.set writerStores[k].1 writerStores[k].2 }
  let l' : Call := .writerStore count p.shared.gd (writerStores.drop (k + 1))
  have hstep : step args 0 .run p.shared (p.call 0) = some (s', l') := by
    rw [hwrites]
    simp [step, readStep, writeStep, ho, s', l']
  refine ⟨_, Pool.reachable_step h.reach hstep, ⟨hk, _, unlocked_obj Heap.store_self, ?_⟩, h.prints,
    count, Function.update_self (0 : Nat) l' p.call⟩
  rw [NolocksRdwr.get_set, hget]
  exact Publish.update_next (List.getElem?_eq_getElem hk)

/-- The read prints one field more. -/
theorem Prints.load {f : Field} (h : Prints args k seen (f :: todo) p) :
    ∃ p', Prints args k (seen ++ [(f, plan.after k f)]) todo p' := by
  obtain ⟨count, hcall⟩ := h.prints
  obtain ⟨o, ho, hget⟩ := h.object
  have hload : step args 1 .run p.shared (p.call 1) =
      some (p.shared, .showUse count f todo p.shared.gd seen) := by
    rw [hcall]
    rfl
  have huse : step args 1 .run p.shared
      (Function.update p.call 1 (.showUse count f todo p.shared.gd seen) 1) =
        some (p.shared, .showLoad count todo (seen ++ [(f, o.data.get f)])) := by
    simp [step, readStep, ho]
  refine ⟨_, Pool.reachable_step (Pool.reachable_step h.reach hload) huse, h.level, ⟨count, ?_⟩, ?_⟩
  · rw [hget]
    simp
  · simpa using h.writes

/-- One read is through with `reader()` before the writer takes the lock. -/
theorem exists_prints_nil (args : List Field) : ∃ p, Prints args 0 [] args p := by
  have hexec : ∃ p, (machine args).exec { shared := drv0, call := fun _ => .idle }
      ((1, .read 0) :: List.replicate 9 (1, .run) ++ (0, .write 0) :: List.replicate 2 (0, .run)) =
        some p ∧ p.shared.unlocked.heap.obj p.shared.gd = some RcuRdwr.firstData ∧
          p.call 1 = .showLoad 0 args [] ∧ p.call 0 = .writerStore 0 p.shared.gd writerStores :=
    ⟨_, rfl, rfl, rfl, rfl⟩
  obtain ⟨p, hexec, hobj, hreader, hwriter⟩ := hexec
  exact ⟨p, Machine.reachable_of_exec (.init ⟨rfl, fun _ => rfl⟩) hexec,
    ⟨by decide, _, hobj, (Publish.after_zero (p := plan)).symm⟩, ⟨0, hreader⟩, 0, hwriter⟩

theorem exists_prints (h : plan.Loaded seen k) (hk : k ≤ 4) (todo : List Field)
    (horder : seen.map Prod.fst ++ todo = args) : ∃ p, Prints args k seen todo p := by
  refine h.brought_about (R := fun k seen todo => ∃ p, Prints args k seen todo p)
    (exists_prints_nil args) ?_ ?_ hk todo horder
  · rintro k seen todo ⟨p, hp⟩ hlt
    exact hp.rise hlt
  · rintro k seen f todo ⟨p, hp⟩
    exact hp.load

/-- What the other prints this one can print. -/
theorem exists_ret (horder : seen.map Prod.fst = args) (hplain : ∀ x ∈ seen, plan.Plain x)
    (hpair : seen.Pairwise plan.Follows) :
    ∃ p count, (machine args).Reachable p ∧ p.call 1 = .readRet count seen := by
  obtain ⟨k, hk, hloaded⟩ := Publish.exists_loaded_iff.mpr ⟨hplain, hpair⟩
  have horder' : seen.map Prod.fst ++ [] = args := by simpa using horder
  obtain ⟨p, hp⟩ := exists_prints hloaded hk [] horder'
  obtain ⟨count, hcall⟩ := hp.prints
  have hret : step args 1 .run p.shared (p.call 1) = some (p.shared, .readRet count seen) := by
    rw [hcall]
    rfl
  exact ⟨_, count, Pool.reachable_step hp.reach hret, Function.update_self (1 : Nat) _ p.call⟩

/--
**The driver with a reader-writer lock prints the same lines as the one without**: whatever a
read of the one can print in some run, a read of the other can.
-/
theorem same_lines (args : List Field) (shown : Seen) :
    (∃ p c count, (machine args).Reachable p ∧ p.call c = .readRet count shown) ↔
      ∃ q c count seen, (NolocksRdwr.machine args).Reachable q ∧
        q.call c = .readRet count seen ∧ printed seen = shown := by
  constructor
  · rintro ⟨p, c, count, hp, hret⟩
    obtain ⟨q, seen, hq, hret', hprinted⟩ := exists_line hp hret
    exact ⟨q, c, count, seen, hq, hret', hprinted⟩
  · rintro ⟨q, c, count, seen, hq, hret, rfl⟩
    obtain ⟨-, hplain, hpair⟩ := NolocksRdwr.loads_of_ret hq hret
    obtain ⟨p, count', hp, hret'⟩ := exists_ret (NolocksRdwr.map_printed hq hret)
      (fun x hx => hplain x (List.mem_of_mem_drop hx)) (hpair.drop)
    exact ⟨p, 1, count', hp, hret'⟩

end Locked

/-! ### What the lock does -/

/-- What a call loads in its section is what the object holds all the while. -/
def Consistent (k : Nat) : Call → Prop
  | .reader _ _ _ seen => plan.Snapshot k seen
  | .readerRet _ seen => plan.Snapshot 0 seen ∨ plan.Snapshot 4 seen
  | _ => True

/-- The lock is held as it should be, and without a writer inside all is stored or nothing. -/
structure AllOrNone (s : Drv) : Prop where
  wf : ∀ o, s.heap.obj s.gd = some o → o.rwlock.WF
  level : ∀ o, s.heap.obj s.gd = some o → o.rwlock.writer = none →
    s.unlocked.level = 0 ∨ s.unlocked.level = 4

section Section

variable {args : List Field} {c d : Nat} {s s' : Drv} {l l' m : Call}

/-- Only a writer in its section changes what the object holds. -/
theorem Move.unlocked (h : Move args c s l s' l') :
    s'.unlocked = s.unlocked ∨ holding l = .writing ∧ holding l' = .writing := by
  cases h with
  | readLock _ _ ho | readUnlock _ _ _ ho | writeLock _ _ ho | writeUnlock _ _ ho =>
      exact Or.inl (unlocked_lock ho _)
  | store => exact Or.inr ⟨rfl, rfl⟩
  | _ => exact Or.inl rfl

/-- A writer leaves its section when it has made all its stores. -/
theorem Move.leaves (h : Move args c s l s' l') (hl : holding l = .writing)
    (hl' : holding l' ≠ .writing) (hno : l' ≠ .oops) :
    ∃ count gd, l = .writerStore count gd [] := by
  cases h with
  | writeUnlock count gd => exact ⟨count, gd, rfl⟩
  | store => exact absurd rfl hl'
  | oops => exact absurd rfl hno
  | _ => cases hl

/-- What is known of a reachable state, lock and level. -/
structure Known (args : List Field) (p : Pool Drv Call) : Prop where
  safe : Safe p
  level : AtLevel p.shared.unlocked p.shared.unlocked.level
  /-- A writer is as far as the level, at most. -/
  stored : ∀ c count gd todo, p.call c = .writerStore count gd todo →
    ∃ j, j ≤ p.shared.unlocked.level ∧ todo = writerStores.drop j

theorem known {p : Pool Drv Call} (hp : (machine args).Reachable p) : Known args p := by
  obtain ⟨q, hq, hsim⟩ := exists_same hp
  have hlevelled := NolocksRdwr.levelled hq
  have hshared := hsim.shared
  refine ⟨(inductive_safe (fun _ _ => True)).holds hp, hshared ▸ hlevelled.shared, ?_⟩
  intro c count gd todo hcall
  have hsame := hsim.call c
  have hat := hlevelled.each c
  rw [hcall] at hsame
  rw [hshared] at hat
  generalize q.call c = m at hsame hat
  cases hsame
  exact hat.2

theorem Move.allOrNone {p : Pool Drv Call} (h : Move args c p.shared (p.call c) s' l')
    (hp : Known args p) (hs : AllOrNone p.shared) : AllOrNone s' := by
  obtain ⟨o, ho⟩ := hp.safe.shared
  have hown := hp.safe.each c
  obtain ⟨hgd, hno, o', ho', hlock⟩ := h.object hown.ptr ho
  rw [← hgd] at ho'
  refine ⟨fun u hu => ?_, fun u hu hfree => ?_⟩
  · rw [ho', Option.some.injEq] at hu
    exact hu ▸ (hs.wf o ho).step hlock
  · rw [ho', Option.some.injEq] at hu
    subst hu
    rcases h.unlocked with hsame | ⟨-, hwriting⟩
    · rw [hsame]
      by_cases hold : o.rwlock.writer = none
      · exact hs.level o ho hold
      · -- a writer leaves, after its last store
        obtain ⟨hl, hl'⟩ := hlock.leaves hold hfree
        obtain ⟨count, gd, hcall⟩ := h.leaves hl (by rw [hl']; decide) hno
        obtain ⟨j, hj, hdrop⟩ := hp.stored c count gd [] hcall
        have hlen : 4 ≤ j := List.drop_eq_nil_iff.mp hdrop.symm
        exact Or.inr (Nat.le_antisymm hp.level.le (hlen.trans hj))
    · have hmine := ((hown.lock o ho).step hlock).writing.mp hwriting
      rw [hfree] at hmine
      cases hmine

theorem Move.consistent {p : Pool Drv Call} (h : Move args c p.shared (p.call c) s' l')
    (hp : Known args p) (hs : AllOrNone p.shared)
    (hl : Consistent p.shared.unlocked.level (p.call c)) :
    Consistent s'.unlocked.level l' := by
  obtain ⟨o, ho⟩ := hp.safe.shared
  have hown := hp.safe.each c
  generalize p.call c = l at h hl hown
  cases h with
  | readLock => exact fun x hx => absurd hx List.not_mem_nil
  | @load count gd f todo seen u hu =>
      intro x hx
      rcases List.mem_append.mp hx with hold | hnew
      · exact hl x hold
      · rw [List.mem_singleton.mp hnew]
        obtain ⟨d, hd, hget⟩ := hp.level.object
        have hsame : d = u.data := by
          have hu' := unlocked_obj hu
          rw [hown.ptr gd rfl] at hu'
          exact Option.some.inj (hd.symm.trans hu')
        rw [← hsame, hget]
  | readUnlock count gd seen hu =>
      have hwriter := RwLock.Owned.writer_eq_none (hs.wf o ho) (hown.lock o ho)
      rcases hs.level o ho hwriter with hzero | hfour
      · exact Or.inl (hzero ▸ hl)
      · exact Or.inr (hfour ▸ hl)
  | _ => trivial

/-- A call that stands still. -/
theorem Move.consistent_other {p : Pool Drv Call} (h : Move args c p.shared (p.call c) s' l')
    (hp : Known args p) (hs : AllOrNone p.shared)
    (hm : Consistent p.shared.unlocked.level (p.call d)) :
    Consistent s'.unlocked.level (p.call d) := by
  rcases h.unlocked with hsame | ⟨hwriting, -⟩
  · rw [hsame]
    exact hm
  · obtain ⟨o, ho⟩ := hp.safe.shared
    have hc := (hp.safe.each c).lock o ho
    have hd := (hp.safe.each d).lock o ho
    rw [hwriting] at hc
    cases hcall : p.call d with
    | reader count gd todo seen =>
        rw [hcall] at hd
        exact (RwLock.Owned.not_both (hs.wf o ho) hd hc).elim
    | readerRet count seen =>
        rw [hcall] at hm
        exact hm
    | _ => trivial

theorem consistent {p : Pool Drv Call} (hp : (machine args).Reachable p) :
    AllOrNone p.shared ∧ ∀ c, Consistent p.shared.unlocked.level (p.call c) := by
  induction hp with
  | @init p h0 =>
      have hshared : p.shared = drv0 := h0.1
      have hlevel : drv0.unlocked.level = 0 := by decide
      rw [hshared]
      refine ⟨⟨fun o ho => ?_, fun _ _ _ => Or.inl hlevel⟩, fun c => ?_⟩
      · cases drv0_object.symm.trans ho
        exact fun _ => rfl
      · rw [h0.2 c]
        trivial
  | @step p p' a hp _ hnext ih =>
      obtain ⟨hs, hall⟩ := ih
      obtain ⟨l', hstep, hcall⟩ := Pool.machine_next.mp hnext
      have hmove := move_of_step hstep
      refine ⟨hmove.allOrNone (known hp) hs, fun c => ?_⟩
      by_cases hc : c = a.1
      · rw [hc, Pool.call_self hcall]
        exact hmove.consistent (known hp) hs (hall a.1)
      · rw [Pool.call_other hcall hc]
        exact hmove.consistent_other (known hp) hs (hall c)

theorem eq_map_of_values {seen : Seen} {v : Field → Int} {fs : List Field}
    (horder : seen.map Prod.fst = fs) (hvalues : ∀ x ∈ seen, x.2 = v x.1) :
    seen = fs.map fun f => (f, v f) := by
  subst horder
  rw [List.map_map]
  conv_lhs => rw [← List.map_id seen]
  exact List.map_congr_left fun x hx => Prod.ext rfl (hvalues x hx)

/--
**What `reader()` loads under the lock** is what init left, or what a writer leaves, and
nothing in between.
-/
theorem reader_iff (args : List Field) (seen : Seen) :
    (∃ p c count, (machine args).Reachable p ∧ p.call c = .readerRet count seen) ↔
      seen = readerOrder.map (fun f => (f, plan.init f)) ∨
        seen = readerOrder.map (fun f => (f, plan.last f)) := by
  constructor
  · rintro ⟨p, c, count, hp, hret⟩
    obtain ⟨q, hq, hsim⟩ := exists_same hp
    have hsame := hsim.call c
    have hat := (NolocksRdwr.levelled hq).each c
    have hloads := (consistent hp).2 c
    rw [hret] at hsame hloads
    generalize q.call c = m at hsame hat
    cases hsame
    have horder : seen.map Prod.fst = readerOrder := by
      rw [← hat.2.2.1]
      simp [NolocksRdwr.comes]
    rcases hloads with hzero | hfour
    · refine Or.inl (eq_map_of_values horder fun x hx => ?_)
      rw [hzero x hx, Publish.after_zero]
    · refine Or.inr (eq_map_of_values horder fun x hx => ?_)
      rw [hfour x hx, show plan.after 4 = plan.last from Publish.after_length]
  · have hread : ∃ p, (machine args).exec { shared := drv0, call := fun _ => .idle }
        ((1, .read 0) :: List.replicate 8 (1, .run)) = some p ∧
          p.call 1 = .readerRet 0 (readerOrder.map fun f => (f, plan.init f)) := ⟨_, rfl, rfl⟩
    have hwritten : ∃ p, (machine args).exec { shared := drv0, call := fun _ => .idle }
        ((0, .write 0) :: List.replicate 7 (0, .run) ++
          (1, .read 0) :: List.replicate 8 (1, .run)) = some p ∧
            p.call 1 = .readerRet 0 (readerOrder.map fun f => (f, plan.last f)) := ⟨_, rfl, rfl⟩
    rintro (rfl | rfl)
    · obtain ⟨p, hexec, hcall⟩ := hread
      exact ⟨p, 1, 0, Machine.reachable_of_exec (.init ⟨rfl, fun _ => rfl⟩) hexec, hcall⟩
    · obtain ⟨p, hexec, hcall⟩ := hwritten
      exact ⟨p, 1, 0, Machine.reachable_of_exec (.init ⟨rfl, fun _ => rfl⟩) hexec, hcall⟩

end Section

end Lkp.RwRdwr
