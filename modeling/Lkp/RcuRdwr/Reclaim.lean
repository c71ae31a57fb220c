/-
Nothing is freed under a reader, and everything replaced is freed.

A writer frees the object it replaced after a grace period.  A reader that holds
that object loaded it while it was still published, so its section had begun
before the grace period did: its ticket is below the bound the writer waits for.
That is the one fact (`Guard.wait`) everything else hangs on, and it is a fact
about *pairs* of calls — any number of writers may be waiting, each for its own
object, while others publish.

The rest is bookkeeping.  Contents are fixed once published; an object is in at
most one entry of `replaced`; and every allocated object is the current one or is
in the hands of exactly one writer.
-/
import Lkp.RcuRdwr.Driver

namespace Lkp.RcuRdwr

/-! ### Reading a place -/

/-- `gdata_lock` is held. -/
def holdsLock : Call → Bool
  | .writerLocked _ => true
  | .writerGd _ _ => true
  | .writerNoMem _ => true
  | .writerNew _ _ _ => true
  | .writerStore _ _ _ _ => true
  | .writerUnlock _ _ => true
  | .writerOops => true
  | _ => false

/-- The ticket of the section a call is in. -/
def ticketOf : Call → Option Nat
  | .readerLocked _ t => some t
  | .reader _ t _ _ _ => some t
  | _ => none

/-- The object `reader()` holds. -/
def heldOf : Call → Option Nat
  | .reader _ _ p _ _ => some p
  | _ => none

/-- The object `reader()` loaded fields of, and what it saw. -/
def seenOf : Call → Option (Nat × Seen)
  | .reader _ _ p _ seen => some (p, seen)
  | .readerRet _ p seen => some (p, seen)
  | _ => none

/-- The object a writer is about to replace. -/
def sourceOf : Call → Option Nat
  | .writerGd _ gd => some gd
  | .writerNew _ gd _ => some gd
  | .writerStore _ gd _ _ => some gd
  | _ => none

/-- The object it is about to publish. -/
def draftOf : Call → Option Nat
  | .writerNew _ _ gdNew => some gdNew
  | .writerStore _ _ gdNew _ => some gdNew
  | _ => none

/-- The object it has replaced and not yet freed. -/
def pendingOf : Call → Option Nat
  | .writerUnlock _ gd => some gd
  | .writerSync _ gd => some gd
  | .writerWait _ gd _ => some gd
  | .writerFree _ gd => some gd
  | _ => none

/-- The object it waits to free, and the bound it waits for. -/
def waitOf : Call → Option (Nat × Nat)
  | .writerWait _ gd bound => some (gd, bound)
  | _ => none

/-- The object it frees next. -/
def freeOf : Call → Option Nat
  | .writerFree _ gd => some gd
  | _ => none

section Places

variable {l : Call} {o : Nat}

theorem holdsLock_of_sourceOf (h : sourceOf l = some o) : holdsLock l = true := by
  cases l <;> first | rfl | cases h

theorem holdsLock_of_draftOf (h : draftOf l = some o) : holdsLock l = true := by
  cases l <;> first | rfl | cases h

theorem pendingOf_of_waitOf {b : Nat} (h : waitOf l = some (o, b)) : pendingOf l = some o := by
  cases l with
  | writerWait count gd bound => cases h; rfl
  | _ => cases h

theorem pendingOf_of_freeOf (h : freeOf l = some o) : pendingOf l = some o := by
  cases l with
  | writerFree count gd => exact h
  | _ => cases h

end Places

/-! ### The invariant -/

/-- An object that is allocated with the contents it was published with. -/
def Live (s : Drv) (o : Nat) : Prop := ∃ d, s.heap.obj o = some d ∧ (o, d) ∈ s.published

/-- What is true of the objects whoever is where. -/
structure Ledger (s : Drv) : Prop where
  rcu : s.rcu.WF
  heap : s.heap.WF
  /-- `gdata` points to an allocated object. -/
  gdata : Live s s.gdata
  /-- Contents are fixed once published. -/
  fixed : ∀ o d, (o, d) ∈ s.published → o < s.heap.brk ∧ ∀ d', s.heap.obj o = some d' → d' = d
  /-- Replaced objects were published and are current no more. -/
  replaced : ∀ c o, (c, o) ∈ s.replaced → o ≠ s.gdata ∧ ∃ d, (o, d) ∈ s.published
  replacedOnce : (s.replaced.map Prod.snd).Nodup
  /-- Who freed an object is who replaced it. -/
  freed : ∀ c o, (c, o) ∈ s.freed → (c, o) ∈ s.replaced ∧ s.heap.obj o = none
  freedOnce : (s.freed.map Prod.snd).Nodup

/-- What call `c` may rely on where it stands. -/
structure Fits (c : Nat) (s : Drv) (l : Call) : Prop where
  /-- The object a reader holds is not freed. -/
  held : ∀ p, heldOf l = some p → Live s p
  /-- All it saw are fields of that object. -/
  seen : ∀ p seen, seenOf l = some (p, seen) →
    ∃ d, (p, d) ∈ s.published ∧ ∀ fv ∈ seen, fv.2 = d.get fv.1
  /-- A writer replaces the current object. -/
  source : ∀ gd, sourceOf l = some gd → gd = s.gdata
  /-- Its copy is allocated and nobody has seen it. -/
  draft : ∀ n, draftOf l = some n →
    (∃ d, s.heap.obj n = some d) ∧ ∀ d, (n, d) ∉ s.published
  /-- What it has yet to free is allocated. -/
  pending : ∀ gd, pendingOf l = some gd → (∃ d, s.heap.obj gd = some d) ∧ (c, gd) ∈ s.replaced
  /-- What it has replaced it has freed or will. -/
  settled : ∀ o, (c, o) ∈ s.replaced → (c, o) ∈ s.freed ∨ pendingOf l = some o

/-- The lock, the section and the objects of one call. -/
structure Placed (c : Nat) (s : Drv) (l : Call) : Prop where
  lock : Owned c s.gdataLock (holdsLock l)
  ticket : s.rcu.InSection (ticketOf l)
  fits : Fits c s l
  readerFine : l ≠ .readerOops
  writerFine : l ≠ .writerOops

/-- What keeps an object a reader at `l` holds from being freed by a writer at `m`. -/
structure Guard (l m : Call) : Prop where
  ticket : Rcu.Apart (ticketOf l) (ticketOf m)
  /-- The grace period the writer waits for covers the reader's section. -/
  wait : ∀ p t b, heldOf l = some p → ticketOf l = some t → waitOf m = some (p, b) → t < b
  free : ∀ p, heldOf l = some p → freeOf m ≠ some p

theorem ticketOf_of_heldOf {l : Call} {p : Nat} (h : heldOf l = some p) :
    ∃ t, ticketOf l = some t := by
  cases l with
  | reader count t p todo seen => exact ⟨t, rfl⟩
  | _ => cases h

/-! ### One step -/

section Steps

variable {args : List Field} {c d : Nat} {s s' : Drv} {l l' m : Call}

/-- Only these steps touch the lock, and they take or drop it. -/
theorem Move.lockStep (h : Move args c s l s' l') :
    LockStep c s.gdataLock (holdsLock l) s'.gdataLock (holdsLock l') := by
  cases h with
  | lock count hfree => rw [hfree]; exact .take
  | giveUp count => exact .drop _
  | unlock count gd => exact .drop _
  | _ => exact .keep _ _

theorem Move.rcuSection (h : Move args c s l s' l') (hl : l' ≠ .readerOops) :
    Rcu.Section s.rcu (ticketOf l) s'.rcu (ticketOf l') := by
  cases h with
  | readLock count => exact .lock _
  | readUnlock count t p seen => exact .unlock _ _
  | loadOops => exact absurd rfl hl
  | _ => exact .keep _ _

/-- A writer's copy is none of the published objects. -/
theorem Fits.draft_ne (hf : Fits c s l) {n o : Nat} (hn : draftOf l = some n)
    (ho : ∃ d, (o, d) ∈ s.published) : o ≠ n := by
  intro heq
  subst heq
  obtain ⟨d, hd⟩ := ho
  exact (hf.draft _ hn).2 d hd

/-- Storing into an unpublished object changes nothing for those that are published. -/
theorem Ledger.store (hL : Ledger s) {n : Nat} {a b : GlobalData} (hn : s.heap.obj n = some b)
    (hfresh : ∀ d, (n, d) ∉ s.published) : Ledger { s with heap := s.heap.store n a } where
  rcu := hL.rcu
  heap := hL.heap.store (hL.heap.lt hn)
  gdata := by
    obtain ⟨d, hobj, hpub⟩ := hL.gdata
    have hne : s.gdata ≠ n := fun heq => hfresh d (heq ▸ hpub)
    exact ⟨d, (Heap.store_of_ne hne).trans hobj, hpub⟩
  fixed o d hod := by
    have hne : o ≠ n := fun heq => hfresh d (heq ▸ hod)
    refine ⟨(hL.fixed o d hod).1, fun d' hd' => ?_⟩
    exact (hL.fixed o d hod).2 d' ((Heap.store_of_ne hne).symm.trans hd')
  replaced := hL.replaced
  replacedOnce := hL.replacedOnce
  freed c o hco := by
    obtain ⟨hrep, hnone⟩ := hL.freed c o hco
    have hne : o ≠ n := by
      intro heq
      subst heq
      rw [hn] at hnone
      cases hnone
    exact ⟨hrep, (Heap.store_of_ne hne).trans hnone⟩
  freedOnce := hL.freedOnce

theorem Ledger.alloc (hL : Ledger s) (a : GlobalData) :
    Ledger { s with heap := s.heap.alloc a } where
  rcu := hL.rcu
  heap := hL.heap.alloc
  gdata := by
    obtain ⟨d, hobj, hpub⟩ := hL.gdata
    exact ⟨d, (Heap.alloc_of_lt (hL.heap.lt hobj)).trans hobj, hpub⟩
  fixed o d hod := by
    obtain ⟨hlt, hfix⟩ := hL.fixed o d hod
    exact ⟨Nat.lt_succ_of_lt hlt, fun d' hd' => hfix d' ((Heap.alloc_of_lt hlt).symm.trans hd')⟩
  replaced := hL.replaced
  replacedOnce := hL.replacedOnce
  freed c o hco := by
    obtain ⟨hrep, hnone⟩ := hL.freed c o hco
    obtain ⟨-, d, hd⟩ := hL.replaced c o hrep
    exact ⟨hrep, (Heap.alloc_of_lt (hL.fixed o d hd).1).trans hnone⟩
  freedOnce := hL.freedOnce

theorem Ledger.publish (hL : Ledger s) {gd n : Nat} {a : GlobalData} (hgd : gd = s.gdata)
    (hn : s.heap.obj n = some a) (hfresh : ∀ d, (n, d) ∉ s.published) :
    Ledger (s.publish c gd n a) where
  rcu := hL.rcu
  heap := hL.heap
  gdata := ⟨a, hn, List.mem_cons_self⟩
  fixed o d hod := by
    rcases List.mem_cons.mp hod with heq | hold
    · cases heq
      refine ⟨hL.heap.lt hn, fun d' hd' => ?_⟩
      exact Option.some.inj (hd'.symm.trans hn)
    · exact hL.fixed o d hold
  replaced c' o hco := by
    have hpub : o ≠ n ∧ ∃ d, (o, d) ∈ s.published := by
      have hex : ∃ d, (o, d) ∈ s.published := by
        rcases List.mem_cons.mp hco with heq | hold
        · cases heq
          obtain ⟨d, -, hd⟩ := hL.gdata
          exact ⟨d, hgd ▸ hd⟩
        · exact (hL.replaced c' o hold).2
      refine ⟨?_, hex⟩
      intro heq
      subst heq
      obtain ⟨d, hd⟩ := hex
      exact hfresh d hd
    obtain ⟨hne, d, hd⟩ := hpub
    exact ⟨hne, d, List.mem_cons_of_mem _ hd⟩
  replacedOnce := by
    refine List.nodup_cons.mpr ⟨fun hmem => ?_, hL.replacedOnce⟩
    obtain ⟨co, hco, heq⟩ := List.mem_map.mp hmem
    exact (hL.replaced co.1 co.2 hco).1 (heq.trans hgd)
  freed c' o hco := by
    obtain ⟨hrep, hnone⟩ := hL.freed c' o hco
    exact ⟨List.mem_cons_of_mem _ hrep, hnone⟩
  freedOnce := hL.freedOnce

theorem Ledger.kfree (hL : Ledger s) {gd : Nat} {a : GlobalData} (hgd : s.heap.obj gd = some a)
    (hrep : (c, gd) ∈ s.replaced) : Ledger (s.kfree c gd) where
  rcu := hL.rcu
  heap := hL.heap.free
  gdata := by
    obtain ⟨d, hobj, hpub⟩ := hL.gdata
    exact ⟨d, (Heap.free_of_ne (Ne.symm (hL.replaced c gd hrep).1)).trans hobj, hpub⟩
  fixed o d hod := by
    refine ⟨(hL.fixed o d hod).1, fun d' hd' => ?_⟩
    by_cases heq : o = gd
    · subst heq
      simp [Drv.kfree] at hd'
    · exact (hL.fixed o d hod).2 d' ((Heap.free_of_ne heq).symm.trans hd')
  replaced := hL.replaced
  replacedOnce := hL.replacedOnce
  freed c' o hco := by
    rcases List.mem_cons.mp hco with heq | hold
    · cases heq
      exact ⟨hrep, Heap.free_self⟩
    · obtain ⟨hrep', hnone⟩ := hL.freed c' o hold
      refine ⟨hrep', ?_⟩
      by_cases heq : o = gd
      · exact heq ▸ Heap.free_self
      · exact (Heap.free_of_ne heq).trans hnone
  freedOnce := by
    refine List.nodup_cons.mpr ⟨fun hmem => ?_, hL.freedOnce⟩
    obtain ⟨co, hco, heq⟩ := List.mem_map.mp hmem
    have hnone := (hL.freed co.1 co.2 hco).2
    rw [heq, hgd] at hnone
    cases hnone

/-- The objects as a whole. -/
theorem Move.ledger (h : Move args c s l s' l') (hL : Ledger s) (hl : Fits c s l) :
    Ledger s' := by
  cases h with
  | readLock count => exact { hL with rcu := (Rcu.Section.lock _).wf hL.rcu }
  | readUnlock count t p seen => exact { hL with rcu := (Rcu.Section.unlock _ t).wf hL.rcu }
  | lock | giveUp | unlock => exact { hL with }
  | alloc count gd => exact hL.alloc _
  | copy count gd gdNew hgd hnew => exact hL.store hnew (hl.draft gdNew rfl).2
  | store count gd gdNew f v todo hnew => exact hL.store hnew (hl.draft gdNew rfl).2
  | publish count gd gdNew hnew =>
      exact hL.publish (hl.source gd rfl) hnew (hl.draft gdNew rfl).2
  | kfree count gd =>
      obtain ⟨⟨a, ha⟩, hrep⟩ := hl.pending gd rfl
      exact hL.kfree ha hrep
  | _ => exact hL

/-- What the call that moves may rely on at its new place. -/
theorem Move.fits (h : Move args c s l s' l') (hL : Ledger s) (hl : Fits c s l)
    (hfine : l' ≠ .writerOops) : Fits c s' l' := by
  have hsettled := hl.settled
  cases h with
  | deref count t =>
      obtain ⟨d, -, hpub⟩ := id hL.gdata
      refine ⟨fun p hp => ?_, fun p seen hp => ?_, nofun, nofun, nofun, hsettled⟩
      · cases hp
        exact hL.gdata
      · cases hp
        exact ⟨d, hpub, by simp⟩
  | load count t p f todo seen hobj =>
      refine ⟨fun q hq => hl.held q hq, fun q seen' hq => ?_, nofun, nofun, nofun, hsettled⟩
      cases hq
      obtain ⟨d, hpub, hseen⟩ := hl.seen p seen rfl
      have hd := (hL.fixed p d hpub).2 _ hobj
      refine ⟨d, hpub, fun fv hfv => ?_⟩
      rcases List.mem_append.mp hfv with hold | hnew
      · exact hseen fv hold
      · rw [List.mem_singleton.mp hnew, hd]
  | readUnlock count t p seen =>
      exact ⟨nofun, fun q seen' hq => hl.seen q seen' hq, nofun, nofun, nofun, hsettled⟩
  | fetch count =>
      exact ⟨nofun, nofun, fun gd hgd => (Option.some.inj hgd).symm, nofun, nofun, hsettled⟩
  | alloc count gd =>
      refine ⟨nofun, nofun, hl.source, fun n hn => ?_, nofun, hsettled⟩
      cases hn
      refine ⟨⟨_, Heap.alloc_self⟩, fun d hd => ?_⟩
      exact absurd (hL.fixed _ d hd).1 (Nat.lt_irrefl _)
  | copy count gd gdNew hgd hnew =>
      refine ⟨nofun, nofun, hl.source, fun n hn => ?_, nofun, hsettled⟩
      cases hn
      exact ⟨⟨_, Heap.store_self⟩, (hl.draft gdNew rfl).2⟩
  | store count gd gdNew f v todo hnew =>
      refine ⟨nofun, nofun, hl.source, fun n hn => ?_, nofun, hsettled⟩
      cases hn
      exact ⟨⟨_, Heap.store_self⟩, (hl.draft gdNew rfl).2⟩
  | publish count gd gdNew hnew =>
      refine ⟨nofun, nofun, nofun, nofun, fun o ho => ?_, fun o ho => ?_⟩
      · cases ho
        obtain ⟨d, hobj, -⟩ := hL.gdata
        exact ⟨⟨d, hl.source gd rfl ▸ hobj⟩, List.mem_cons_self⟩
      · rcases List.mem_cons.mp ho with heq | hold
        · cases heq
          exact Or.inr rfl
        · exact Or.inl ((hsettled o hold).resolve_right nofun)
  | unlock | sync | synced => exact ⟨nofun, nofun, nofun, nofun, hl.pending, hsettled⟩
  | kfree count gd =>
      refine ⟨nofun, nofun, nofun, nofun, nofun, fun o ho => ?_⟩
      rcases hsettled o ho with hold | hlast
      · exact Or.inl (List.mem_cons_of_mem _ hold)
      · cases hlast
        exact Or.inl List.mem_cons_self
  | copyOops | storeOops => exact absurd rfl hfine
  | _ => exact ⟨nofun, nofun, nofun, nofun, nofun, hsettled⟩

/-- A change of the heap that spares the objects a call is concerned with. -/
theorem Fits.heap (hf : Fits d s m) {h' : Heap GlobalData}
    (hkeep : ∀ o, heldOf m = some o ∨ draftOf m = some o ∨ pendingOf m = some o →
      h'.obj o = s.heap.obj o) : Fits d { s with heap := h' } m where
  held p hp := by
    obtain ⟨a, hobj, hpub⟩ := hf.held p hp
    exact ⟨a, (hkeep p (Or.inl hp)).trans hobj, hpub⟩
  seen := hf.seen
  source := hf.source
  draft n hn := by
    obtain ⟨⟨a, hobj⟩, hfresh⟩ := hf.draft n hn
    exact ⟨⟨a, (hkeep n (Or.inr (Or.inl hn))).trans hobj⟩, hfresh⟩
  pending gd hgd := by
    obtain ⟨⟨a, hobj⟩, hrep⟩ := hf.pending gd hgd
    exact ⟨⟨a, (hkeep gd (Or.inr (Or.inr hgd))).trans hobj⟩, hrep⟩
  settled := hf.settled

/-- The objects a call holds or has yet to free were published. -/
theorem Fits.published (hf : Fits d s m) (hL : Ledger s) {o : Nat}
    (ho : heldOf m = some o ∨ pendingOf m = some o) : ∃ a, (o, a) ∈ s.published := by
  rcases ho with hheld | hpending
  · obtain ⟨a, -, hpub⟩ := hf.held o hheld
    exact ⟨a, hpub⟩
  · exact (hL.replaced d o (hf.pending o hpending).2).2

/-- What a call that stands still may go on relying on. -/
theorem Move.fits_other (h : Move args c s l s' l') (hL : Ledger s) (hl : Placed c s l)
    (hm : Placed d s m) (hne : d ≠ c) (hfree : ∀ p, heldOf m = some p → freeOf l ≠ some p) :
    Fits d s' m := by
  have hf := hm.fits
  -- only one writer at a time is between its load of `gdata` and its publication
  have hidle : holdsLock l = true → holdsLock m = true → False := by
    intro hlock hboth
    exact hne ((hboth ▸ hm.lock).exclusive (hlock ▸ hl.lock))
  -- so the heap it works on is not the concern of any other call
  have hspare : ∀ {h' : Heap GlobalData}, holdsLock l = true →
      (∀ o, (∃ a, (o, a) ∈ s.published) → h'.obj o = s.heap.obj o) →
      Fits d { s with heap := h' } m := by
    intro h' hlock hkeep
    refine hf.heap fun o ho => ?_
    rcases ho with hheld | hdraft | hpending
    · exact hkeep o (hf.published hL (Or.inl hheld))
    · exact (hidle hlock (holdsLock_of_draftOf hdraft)).elim
    · exact hkeep o (hf.published hL (Or.inr hpending))
  cases h with
  | alloc count gd =>
      exact hspare rfl fun o ⟨a, ha⟩ => Heap.alloc_of_lt (hL.fixed o a ha).1
  | copy count gd gdNew hgd hnew =>
      exact hspare rfl fun o ho => Heap.store_of_ne (hl.fits.draft_ne rfl ho)
  | store count gd gdNew f v todo hnew =>
      exact hspare rfl fun o ho => Heap.store_of_ne (hl.fits.draft_ne rfl ho)
  | publish count gd gdNew hnew =>
      refine ⟨fun p hp => ?_, fun p seen hp => ?_, fun g hg => ?_, fun n hn => ?_,
        fun g hg => ?_, fun o ho => ?_⟩
      · obtain ⟨a, hobj, hpub⟩ := hf.held p hp
        exact ⟨a, hobj, List.mem_cons_of_mem _ hpub⟩
      · obtain ⟨a, hpub, hseen⟩ := hf.seen p seen hp
        exact ⟨a, List.mem_cons_of_mem _ hpub, hseen⟩
      · exact (hidle rfl (holdsLock_of_sourceOf hg)).elim
      · exact (hidle rfl (holdsLock_of_draftOf hn)).elim
      · obtain ⟨hobj, hrep⟩ := hf.pending g hg
        exact ⟨hobj, List.mem_cons_of_mem _ hrep⟩
      · rcases List.mem_cons.mp ho with heq | hold
        · exact absurd (congrArg Prod.fst heq) hne
        · exact hf.settled o hold
  | kfree count gd =>
      have hrep := (hl.fits.pending gd rfl).2
      have hkeep : Fits d { s with heap := s.heap.free gd } m := by
        refine hf.heap fun o ho => Heap.free_of_ne ?_
        intro heq
        subst heq
        rcases ho with hheld | hdraft | hpending
        · exact hfree _ hheld rfl
        · exact hf.draft_ne hdraft (hL.replaced c _ hrep).2 rfl
        · -- an object is replaced only once
          have hmem := (hf.pending _ hpending).2
          have heq := List.inj_on_of_nodup_map hL.replacedOnce hmem hrep rfl
          exact hne (congrArg Prod.fst heq)
      exact ⟨hkeep.held, hkeep.seen, hkeep.source, hkeep.draft, hkeep.pending,
        fun o ho => (hkeep.settled o ho).imp_left (List.mem_cons_of_mem _)⟩
  | _ => exact ⟨hf.held, hf.seen, hf.source, hf.draft, hf.pending, hf.settled⟩

/-- What the call that moves owes a writer that stands still. -/
theorem Move.guard_left (h : Move args c s l s' l') (hL : Ledger s) (hm : Placed d s m)
    (hg : Guard l m) (hfine : l' ≠ .readerOops) : Guard l' m := by
  have hticket := (h.rcuSection hfine).apart hL.rcu hm.ticket hg.ticket
  cases h with
  | deref count t =>
      -- what is about to be freed is not the current object
      have hcurrent : pendingOf m ≠ some s.gdata := fun hp =>
        (hL.replaced d _ (hm.fits.pending _ hp).2).1 rfl
      refine ⟨hticket, fun p u b hp _ hb => ?_, fun p hp hfr => ?_⟩
      · cases hp
        exact absurd (pendingOf_of_waitOf hb) hcurrent
      · cases hp
        exact hcurrent (pendingOf_of_freeOf hfr)
  | load count t p f todo seen hobj => exact ⟨hticket, hg.wait, hg.free⟩
  | _ => exact ⟨hticket, nofun, nofun⟩

/-- What a call that stands still is owed by the writer that moves. -/
theorem Move.guard_right (h : Move args c s l s' l') (hL : Ledger s) (hm : Placed d s m)
    (hg : Guard m l) (hback : Rcu.Apart (ticketOf l) (ticketOf m)) (hfine : l' ≠ .readerOops) :
    Guard m l' := by
  have hticket := ((h.rcuSection hfine).apart hL.rcu hm.ticket hback).symm
  cases h with
  | sync count gd =>
      refine ⟨hticket, fun p t b _ ht hb => ?_, fun p _ => nofun⟩
      cases hb
      exact hL.rcu t (hm.ticket t ht)
  | synced count gd bound hover =>
      refine ⟨hticket, fun p t b _ _ => nofun, fun p hp hfr => ?_⟩
      cases hfr
      obtain ⟨t, ht⟩ := ticketOf_of_heldOf hp
      exact hover.notMem (hg.wait _ t bound hp ht rfl) (hm.ticket t ht)
  | _ => exact ⟨hticket, fun p t b _ _ => nofun, fun p _ => nofun⟩

/-- The steps that would touch a freed object are not taken. -/
theorem Move.fine (h : Move args c s l s' l') (hL : Ledger s) (hl : Placed c s l) :
    l' ≠ .readerOops ∧ l' ≠ .writerOops := by
  have hsource : ∀ gd, sourceOf l = some gd → s.heap.obj gd ≠ none := by
    intro gd hgd hnone
    obtain ⟨a, hobj, -⟩ := hL.gdata
    rw [hl.fits.source gd hgd, hobj] at hnone
    cases hnone
  have hdraft : ∀ n, draftOf l = some n → s.heap.obj n ≠ none := by
    intro n hn hnone
    obtain ⟨⟨a, hobj⟩, -⟩ := hl.fits.draft n hn
    rw [hobj] at hnone
    cases hnone
  cases h with
  | loadOops count t p f todo seen hnone =>
      obtain ⟨a, hobj, -⟩ := hl.fits.held p rfl
      rw [hobj] at hnone
      cases hnone
  | copyOops count gd gdNew hnone =>
      rcases hnone with hgd | hnew
      · exact absurd hgd (hsource gd rfl)
      · exact absurd hnew (hdraft gdNew rfl)
  | storeOops count gd gdNew todo hnone => exact absurd hnone (hdraft gdNew rfl)
  | _ => exact ⟨nofun, nofun⟩

end Steps

/-! ### Every run -/

variable {args : List Field}

/-- The objects, each call, and each two calls. -/
abbrev Safe : Pool Drv Call → Prop := Pool.Inv Ledger Placed fun _ l _ m => Guard l m

theorem kept (ok : Pool Drv Call → Nat × Env → Prop) :
    Pool.Kept (step args) ok Ledger Placed fun _ l _ m => Guard l m where
  own p c e s' l' hinv _ hstep := by
    have hmove := move_of_step hstep
    have hl := hinv.each c
    obtain ⟨hreader, hwriter⟩ := hmove.fine hinv.shared hl
    exact ⟨hmove.ledger hinv.shared hl.fits,
      { lock := hl.lock.step hmove.lockStep
        ticket := (hmove.rcuSection hreader).own hl.ticket
        fits := hmove.fits hinv.shared hl.fits hwriter
        readerFine := hreader
        writerFine := hwriter }⟩
  others p c e s' l' d hinv _ hstep hne := by
    have hmove := move_of_step hstep
    have hl := hinv.each c
    have hm := hinv.each d
    obtain ⟨hreader, -⟩ := hmove.fine hinv.shared hl
    exact
      { lock := hl.lock.step_other hm.lock hne hmove.lockStep
        ticket := (hmove.rcuSection hreader).other hm.ticket (hinv.pair c d hne.symm).ticket
        fits := hmove.fits_other hinv.shared hl hm hne (hinv.pair d c hne).free
        readerFine := hm.readerFine
        writerFine := hm.writerFine }
  pair p c e s' l' d hinv _ hstep hne := by
    have hmove := move_of_step hstep
    have hl := hinv.each c
    have hm := hinv.each d
    obtain ⟨hreader, -⟩ := hmove.fine hinv.shared hl
    have hg := hinv.pair c d hne.symm
    exact ⟨hmove.guard_left hinv.shared hm hg hreader,
      hmove.guard_right hinv.shared hm (hinv.pair d c hne) hg.ticket hreader⟩

theorem drv0_ledger : Ledger drv0 where
  rcu := Rcu.fresh_wf
  heap o a ho := by
    by_contra hlt
    have hne : o ≠ 0 := fun heq => hlt (heq ▸ Nat.zero_lt_one)
    simp [drv0, hne] at ho
  gdata := ⟨firstData, by simp [drv0], List.mem_cons_self⟩
  fixed o d hod := by
    cases List.mem_singleton.mp hod
    refine ⟨Nat.zero_lt_one, fun d' hd' => ?_⟩
    simpa [drv0, eq_comm] using hd'
  replaced := nofun
  replacedOnce := List.nodup_nil
  freed := nofun
  freedOnce := List.nodup_nil

theorem inductive_safe (ok : Pool Drv Call → Nat × Env → Prop) :
    (machine args).Inductive ok Safe := by
  refine (kept ok).invariant ?_ ?_ fun _ _ => ⟨by simp [ticketOf], nofun, nofun⟩
  · rintro s rfl
    exact drv0_ledger
  · rintro s c rfl
    exact
      { lock := .free
        ticket := by simp [ticketOf]
        fits := ⟨nofun, nofun, nofun, nofun, nofun, nofun⟩
        readerFine := nofun
        writerFine := nofun }

/-! ### Nothing is leaked -/

/-- The object a writer has in hand: its copy, and once that is published the one replaced. -/
def handOf (l : Call) : Option Nat := (draftOf l).or (pendingOf l)

/-- Every allocated object is the current one or in the hands of a writer. -/
def Accounted (p : Pool Drv Call) : Prop :=
  ∀ o d, p.shared.heap.obj o = some d →
    o = p.shared.gdata ∨ ∃ c, handOf (p.call c) = some o

/-- One step hands an object over, or frees it. -/
theorem Move.accounted {c : Nat} {s s' : Drv} {l l' : Call} (h : Move args c s l s' l')
    (hl : Fits c s l) (hfine : l' ≠ .writerOops) {o : Nat} {d : GlobalData}
    (ho : s'.heap.obj o = some d) :
    handOf l' = some o ∨ o = s'.gdata ∨
      ((∃ d, s.heap.obj o = some d) ∧ o ≠ s.gdata ∧ handOf l ≠ some o) := by
  by_cases hcur : o = s'.gdata
  · exact Or.inr (Or.inl hcur)
  by_cases hhand : handOf l' = some o
  · exact Or.inl hhand
  refine Or.inr (Or.inr ?_)
  cases h with
  | alloc count gd =>
      have hne : o ≠ s.heap.brk := fun heq => hhand (heq ▸ rfl)
      exact ⟨⟨d, (Heap.alloc_of_ne hne).symm.trans ho⟩, hcur, nofun⟩
  | copy count gd gdNew hgd hnew =>
      have hne : o ≠ gdNew := fun heq => hhand (heq ▸ rfl)
      exact ⟨⟨d, (Heap.store_of_ne hne).symm.trans ho⟩, hcur, hhand⟩
  | store count gd gdNew f v todo hnew =>
      have hne : o ≠ gdNew := fun heq => hhand (heq ▸ rfl)
      exact ⟨⟨d, (Heap.store_of_ne hne).symm.trans ho⟩, hcur, hhand⟩
  | publish count gd gdNew hnew =>
      refine ⟨⟨d, ho⟩, fun heq => hhand ?_, fun heq => hcur (Option.some.inj heq).symm⟩
      rw [heq, ← hl.source gd rfl]
      rfl
  | kfree count gd =>
      have hne : o ≠ gd := by
        intro heq
        subst heq
        rw [Drv.kfree, Heap.free_self] at ho
        cases ho
      exact ⟨⟨d, (Heap.free_of_ne hne).symm.trans ho⟩, hcur,
        fun heq => hne (Option.some.inj heq).symm⟩
  | copyOops | storeOops => exact absurd rfl hfine
  | _ => exact ⟨⟨d, ho⟩, hcur, hhand⟩

theorem inductive_accounted :
    (machine args).Inductive (fun p _ => Safe p) Accounted where
  init := by
    rintro p ⟨hs, -⟩ o d ho
    left
    rw [hs] at ho ⊢
    by_contra hne
    simp [drv0] at ho hne
    simp [hne] at ho
  step := by
    rintro p ⟨c, e⟩ p' hacc hsafe hnext o d ho
    obtain ⟨l', hstep, hcall⟩ := Pool.machine_next.mp hnext
    have hmove := move_of_step hstep
    have hl := hsafe.each c
    rcases hmove.accounted hl.fits (hmove.fine hsafe.shared hl).2 ho with
      hhand | hcur | ⟨⟨a, ha⟩, hne, hnot⟩
    · exact Or.inr ⟨c, Pool.call_self hcall ▸ hhand⟩
    · exact Or.inl hcur
    · obtain ⟨u, hu⟩ := (hacc o a ha).resolve_left hne
      have huc : u ≠ c := by
        intro heq
        subst heq
        exact hnot hu
      exact Or.inr ⟨u, Pool.call_other hcall huc ▸ hu⟩

theorem accounted_of_reachable {p : Pool Drv Call} (h : (machine args).Reachable p) :
    Accounted p := by
  have hsafe : (machine args).ReachableBy (fun p _ => Safe p) p :=
    (h.assuming (inductive_safe _)).weaken fun _ _ hok => hok.2
  exact inductive_accounted.holds hsafe

/-! ### A writer that gives up -/

/-- `writer()` has published its copy. -/
def Published (l : Call) : Prop :=
  (∃ gd, pendingOf l = some gd) ∨ (∃ count, l = .writerRet count 0) ∨ ∃ count, l = .writeRet count

theorem Move.published {c : Nat} {s s' : Drv} {l l' : Call} (h : Move args c s l s' l')
    (hpub : Published l) : Published l' := by
  cases h with
  | unlock count gd | sync count gd | synced count gd => exact Or.inl ⟨gd, rfl⟩
  | kfree count gd => exact Or.inr (Or.inl ⟨count, rfl⟩)
  | writeEnd count ret => exact Or.inr (Or.inr ⟨count, rfl⟩)
  | _ =>
      rcases hpub with ⟨gd, hgd⟩ | ⟨count, hret⟩ | ⟨count, hret⟩
      · cases hgd
      · cases hret
      · cases hret

/-- Until then its steps leave `gdata` and the object it points to alone. -/
theorem Move.gdata_eq {c : Nat} {s s' : Drv} {l l' : Call} (h : Move args c s l s' l')
    (hL : Ledger s) (hl : Fits c s l) (hpub : ¬ Published l') :
    s'.gdata = s.gdata ∧ s'.heap.obj s.gdata = s.heap.obj s.gdata := by
  obtain ⟨a, hobj, hcur⟩ := hL.gdata
  cases h with
  | alloc count gd => exact ⟨rfl, Heap.alloc_of_lt (hL.heap.lt hobj)⟩
  | copy count gd gdNew hgd hnew => exact ⟨rfl, Heap.store_of_ne (hl.draft_ne rfl ⟨a, hcur⟩)⟩
  | store count gd gdNew f v todo hnew =>
      exact ⟨rfl, Heap.store_of_ne (hl.draft_ne rfl ⟨a, hcur⟩)⟩
  | publish count gd gdNew hnew => exact absurd (Or.inl ⟨gd, rfl⟩) hpub
  | kfree count gd => exact absurd (Or.inr (Or.inl ⟨count, rfl⟩)) hpub
  | _ => exact ⟨rfl, rfl⟩

/-! ### What the driver guarantees -/

/-- A call is between entering `write_miscdrv_rdwr` and the return of `writer()`. -/
def InWriter : Call → Bool
  | .write _ => true
  | .writerLocked _ => true
  | .writerGd _ _ => true
  | .writerNoMem _ => true
  | .writerNew _ _ _ => true
  | .writerStore _ _ _ _ => true
  | .writerUnlock _ _ => true
  | .writerSync _ _ => true
  | .writerWait _ _ _ => true
  | .writerFree _ _ => true
  | .writerOops => true
  | _ => false

theorem inWriter_of_handOf {l : Call} {o : Nat} (h : handOf l = some o) : InWriter l = true := by
  cases l <;> first | rfl | cases h

/-- In one state. -/
structure Reclaims (p : Pool Drv Call) : Prop where
  /-- `reader()` and the copy never touched a freed object. -/
  fine : ∀ c, p.call c ≠ .readerOops ∧ p.call c ≠ .writerOops
  gdata : ∃ d, p.shared.heap.obj p.shared.gdata = some d
  /-- A replaced object is with the writer that replaced it, or that writer freed it, once. -/
  replaced : ∀ c o, (c, o) ∈ p.shared.replaced →
    (pendingOf (p.call c) = some o ∧ o ∉ p.shared.freed.map Prod.snd) ∨
      (c, o) ∈ p.shared.freed ∧ (p.shared.freed.map Prod.snd).count o = 1
  /-- Nothing else is freed. -/
  freed : ∀ c o, (c, o) ∈ p.shared.freed → (c, o) ∈ p.shared.replaced
  /-- All fields one `reader()` saw are those of one published object. -/
  seen : ∀ c count o seen, p.call c = .readerRet count o seen →
    ∃ d, (o, d) ∈ p.shared.published ∧ ∀ fv ∈ seen, fv.2 = d.get fv.1
  /-- With no writer in progress `gdata` points to the only object there is. -/
  one : (∀ c, InWriter (p.call c) = false) →
    ∀ o, (∃ d, p.shared.heap.obj o = some d) ↔ o = p.shared.gdata

theorem Safe.reclaims {p : Pool Drv Call} (h : Safe p) (hacc : Accounted p) : Reclaims p where
  fine c := ⟨(h.each c).readerFine, (h.each c).writerFine⟩
  gdata := by
    obtain ⟨d, hobj, -⟩ := h.shared.gdata
    exact ⟨d, hobj⟩
  replaced c o hco := by
    rcases (h.each c).fits.settled o hco with hfreed | hpending
    · refine Or.inr ⟨hfreed, List.count_eq_one_of_mem h.shared.freedOnce ?_⟩
      exact List.mem_map.mpr ⟨(c, o), hfreed, rfl⟩
    · refine Or.inl ⟨hpending, fun hmem => ?_⟩
      obtain ⟨uo, huo, heq⟩ := List.mem_map.mp hmem
      obtain ⟨⟨d, hobj⟩, -⟩ := (h.each c).fits.pending o hpending
      have hnone := (h.shared.freed uo.1 uo.2 huo).2
      rw [heq, hobj] at hnone
      cases hnone
  freed c o hco := (h.shared.freed c o hco).1
  seen c count o seen hc := (h.each c).fits.seen o seen (by rw [hc]; rfl)
  one hquiet o := by
    constructor
    · intro hex
      obtain ⟨d, hd⟩ := hex
      refine (hacc o d hd).resolve_right ?_
      intro hex
      obtain ⟨c, hc⟩ := hex
      have hin := inWriter_of_handOf hc
      rw [hquiet c] at hin
      cases hin
    · intro heq
      subst heq
      obtain ⟨d, hobj, -⟩ := h.shared.gdata
      exact ⟨d, hobj⟩

/-- A writer that returns `-ENOMEM` has never moved `gdata`, nor touched the object under it. -/
def NoMemHarmless {n : Nat} (r : (machine args).Run n) : Prop :=
  ∀ c count j, j ≤ n → (r.state j).call c = .writerRet count (-ENOMEM) →
    ∀ i, i < j → (r.act i).1 = c →
      (r.state (i + 1)).shared.gdata = (r.state i).shared.gdata ∧
        (r.state (i + 1)).shared.heap.obj (r.state i).shared.gdata =
          (r.state i).shared.heap.obj (r.state i).shared.gdata

theorem noMemHarmless {n : Nat} (r : (machine args).Run n) : NoMemHarmless r := by
  intro c count j hj hret i hij hact
  have hin : i < n := Nat.lt_of_lt_of_le hij hj
  have hsafe := (inductive_safe _).holds (r.reachable i hin.le)
  obtain ⟨l', hstep, hcall⟩ := Pool.machine_next.mp (r.step i hin)
  rw [hact] at hstep hcall
  refine (move_of_step hstep).gdata_eq hsafe.shared (hsafe.each c).fits fun hpub => ?_
  -- once published, the call returns 0
  have hlater : Published ((r.state j).call c) :=
    Pool.stays r hij hj (fun _ _ _ _ _ hlate => (move_of_step hlate).published)
      (Pool.call_self hcall ▸ hpub)
  rw [hret] at hlater
  rcases hlater with ⟨gd, hgd⟩ | ⟨count', heq⟩ | ⟨count', heq⟩
  · cases hgd
  · cases heq
  · cases heq

/-- **The driver reclaims every object it replaces, and no object too early.** -/
theorem always_reclaims (args : List Field) {n : Nat} (r : (machine args).Run n) :
    (∀ i, i ≤ n → Reclaims (r.state i)) ∧ NoMemHarmless r := by
  refine ⟨fun i hi => ?_, noMemHarmless r⟩
  have hreach := r.reachable i hi
  exact ((inductive_safe _).holds hreach).reclaims (accounted_of_reachable hreach)

end Lkp.RcuRdwr
