/-
What the read method prints.

`reader()` is a correct read-side section, and its result is thrown away.  What
is printed is what `SHOW_DATA(gdata)` finds, and that loads the pointer anew for
each field with no section open.  A writer may publish between two loads, and it
may free the object between a load and the access through it.

Each of the two is an event of one step, so the condition on a run is that no
publication falls between the first and the last load of a read, and no `kfree`
between a load and its access (`Undisturbed`).  Under it the five values are
those of one published object (`readsOneObject`); without it there are runs that
read freed memory and runs that print a mixture.
-/
import Lkp.RcuRdwr.Reclaim

namespace Lkp.RcuRdwr

/-- Everything shown was loaded through `o` and is a field of `d`. -/
def FromObject (o : Nat) (d : GlobalData) (seen : Shown) : Prop :=
  ∀ x ∈ seen, x.2.1 = o ∧ x.2.2 = d.get x.1

/--
No step of a read touches a freed object, and what it prints are all arguments of
`SHOW_DATA`, loaded from one published object.
-/
def ReadsOneObject {args : List Field} {n : Nat} (r : (machine args).Run n) : Prop :=
  ∀ i, i ≤ n → ∀ c,
    ((r.state i).call c ≠ .readerOops ∧ (r.state i).call c ≠ .showOops) ∧
    ∀ count seen, (r.state i).call c = .readRet count seen →
      seen.map Prod.fst = args ∧
        ∃ o d, (o, d) ∈ (r.state i).shared.published ∧ FromObject o d seen

/-! ### The condition -/

/-- A read has loaded `gdata` and has yet to load it again. -/
def betweenLoads : Call → Bool
  | .showLoad _ todo seen => !todo.isEmpty && !seen.isEmpty
  | .showUse _ _ todo _ _ => !todo.isEmpty
  | _ => false

/-- The object a read has loaded and not yet accessed. -/
def loadedOf : Call → Option Nat
  | .showUse _ _ _ gd _ => some gd
  | _ => none

/-- The next step of a call at `l` does not disturb a read at `m`. -/
def Spares (l m : Call) : Prop :=
  match l with
  | .writerStore _ _ _ [] => betweenLoads m = false
  | .writerFree _ gd => loadedOf m ≠ some gd
  | _ => True

instance : DecidableRel Spares := fun l m => by
  unfold Spares; split <;> infer_instance

/--
A writer publishes only while no read is between its first and its last load of
`gdata`, and frees an object only while no read has loaded it and not yet
accessed it.
-/
def Undisturbed (p : Pool Drv Call) (a : Nat × Env) : Prop :=
  ∀ c, Spares (p.call a.1) (p.call c)

theorem spares_idle (l : Call) : Spares l .idle := by
  unfold Spares
  split
  · rfl
  · exact nofun
  · trivial

/-! ### The invariant under it -/

/-- What a read in `SHOW_DATA` has gathered so far. -/
def Showing (args : List Field) (s : Drv) : Call → Prop
  | .showLoad _ todo seen =>
      seen.map Prod.fst ++ todo = args ∧
        ∃ o d, (o, d) ∈ s.published ∧ FromObject o d seen ∧ (todo ≠ [] → seen ≠ [] → o = s.gdata)
  | .showUse _ f todo gd seen =>
      seen.map Prod.fst ++ f :: todo = args ∧
        ∃ d, s.heap.obj gd = some d ∧ (gd, d) ∈ s.published ∧ FromObject gd d seen ∧
          (todo ≠ [] → gd = s.gdata)
  | .readRet _ seen =>
      seen.map Prod.fst = args ∧ ∃ o d, (o, d) ∈ s.published ∧ FromObject o d seen
  | .showOops => False
  | _ => True

section Steps

variable {args : List Field} {c d : Nat} {s s' : Drv} {l l' m : Call}

/-- The read that moves. -/
theorem Move.showing (h : Move args c s l s' l') (hL : Ledger s) (hl : Showing args s l) :
    Showing args s' l' := by
  obtain ⟨a, hobj, hpub⟩ := hL.gdata
  cases h with
  | showBegin count p seen => exact ⟨rfl, s.gdata, a, hpub, nofun, fun _ hne => absurd rfl hne⟩
  | showLoad count f todo seen =>
      obtain ⟨hargs, o, b, hb, hfrom, hcur⟩ := hl
      refine ⟨hargs, a, hobj, hpub, ?_, fun _ => rfl⟩
      by_cases hseen : seen = []
      · rw [hseen]
        exact nofun
      · -- no publication since the first load: the object is the same one
        have ho := hcur (List.cons_ne_nil f todo) hseen
        subst ho
        rw [(hL.fixed _ b hb).2 a hobj]
        exact hfrom
  | showEnd count seen =>
      obtain ⟨hargs, o, b, hb, hfrom, -⟩ := hl
      exact ⟨(List.append_nil _).symm.trans hargs, o, b, hb, hfrom⟩
  | showUse count f todo gd seen hgd =>
      obtain ⟨hargs, b, hb, hbpub, hfrom, hcur⟩ := hl
      refine ⟨by simpa using hargs, gd, b, hbpub, fun x hx => ?_, fun htodo _ => hcur htodo⟩
      rcases List.mem_append.mp hx with hold | hnew
      · exact hfrom x hold
      · rw [List.mem_singleton.mp hnew, Option.some.inj (hgd.symm.trans hb)]
        exact ⟨rfl, rfl⟩
  | showOops count f todo gd seen hnone =>
      obtain ⟨-, b, hb, -⟩ := hl
      rw [hb] at hnone
      cases hnone
  | _ => trivial

/-- A change that spares the object a read has loaded, and the current one if it will load again. -/
theorem Showing.keep (hm : Showing args s m) {s' : Drv} (hpub : s.published ⊆ s'.published)
    (hobj : ∀ gd d, loadedOf m = some gd → (gd, d) ∈ s.published →
      s'.heap.obj gd = s.heap.obj gd)
    (hcur : betweenLoads m = true → s'.gdata = s.gdata) : Showing args s' m := by
  cases m with
  | showLoad count todo seen =>
      obtain ⟨hargs, o, b, hb, hfrom, ho⟩ := hm
      refine ⟨hargs, o, b, hpub hb, hfrom, fun htodo hseen => ?_⟩
      rw [hcur (by simp [betweenLoads, htodo, hseen])]
      exact ho htodo hseen
  | showUse count f todo gd seen =>
      obtain ⟨hargs, b, hb, hbpub, hfrom, ho⟩ := hm
      refine ⟨hargs, b, (hobj gd b rfl hbpub).trans hb, hpub hbpub, hfrom, fun htodo => ?_⟩
      rw [hcur (by simp [betweenLoads, htodo])]
      exact ho htodo
  | readRet count seen =>
      obtain ⟨hargs, o, b, hb, hfrom⟩ := hm
      exact ⟨hargs, o, b, hpub hb, hfrom⟩
  | showOops => exact hm
  | _ => trivial

/-- A read that stands still. -/
theorem Move.showing_other (h : Move args c s l s' l') (hL : Ledger s) (hl : Fits c s l)
    (hm : Showing args s m) (hspare : Spares l m) : Showing args s' m := by
  cases h with
  | alloc count gd =>
      exact hm.keep (List.Subset.refl _)
        (fun o a _ ha => Heap.alloc_of_lt (hL.fixed o a ha).1) fun _ => rfl
  | copy count gd gdNew hgd hnew =>
      exact hm.keep (List.Subset.refl _)
        (fun o a _ ha => Heap.store_of_ne (hl.draft_ne rfl ⟨a, ha⟩)) fun _ => rfl
  | store count gd gdNew f v todo hnew =>
      exact hm.keep (List.Subset.refl _)
        (fun o a _ ha => Heap.store_of_ne (hl.draft_ne rfl ⟨a, ha⟩)) fun _ => rfl
  | publish count gd gdNew hnew =>
      refine hm.keep (List.subset_cons_self _ _) (fun _ _ _ _ => rfl) fun hbetween => ?_
      exact absurd (hspare.symm.trans hbetween) nofun
  | kfree count gd =>
      refine hm.keep (List.Subset.refl _) (fun o a ho _ => Heap.free_of_ne ?_) fun _ => rfl
      intro heq
      subst heq
      exact hspare ho
  | _ => exact hm.keep (List.Subset.refl _) (fun _ _ _ _ => rfl) fun _ => rfl

end Steps

/-- Every read shows one object so far. -/
abbrev AllShowing (args : List Field) : Pool Drv Call → Prop :=
  Pool.Inv (fun _ => True) (fun _ s l => Showing args s l) fun _ _ _ _ => True

theorem showing_kept (args : List Field) :
    Pool.Kept (step args) (fun p a => Undisturbed p a ∧ Safe p) (fun _ => True)
      (fun _ s l => Showing args s l) fun _ _ _ _ => True where
  own _ c _ _ _ hinv hok hstep :=
    ⟨trivial, (move_of_step hstep).showing hok.2.shared (hinv.each c)⟩
  others _ c _ _ _ d hinv hok hstep _ :=
    (move_of_step hstep).showing_other hok.2.shared (hok.2.each c).fits (hinv.each d) (hok.1 d)
  pair _ _ _ _ _ _ _ _ _ _ := ⟨trivial, trivial⟩

/-- **Undisturbed reads touch nothing freed and print one object.** -/
theorem readsOneObject {args : List Field} {n : Nat} (r : (machine args).Run n)
    (hok : r.Meets Undisturbed) : ReadsOneObject r := by
  intro i hi c
  have hreach := r.reachableBy hok i hi
  have hsafe : Safe (r.state i) := (inductive_safe _).holds hreach
  have hind : (machine args).Inductive (fun p a => Undisturbed p a ∧ Safe p)
      (AllShowing args) :=
    (showing_kept args).invariant (fun _ _ => trivial) (fun _ _ _ => trivial) fun _ _ => trivial
  have hshow := (hind.holds (hreach.assuming (inductive_safe _))).each c
  refine ⟨⟨(hsafe.each c).readerFine, fun hoops => ?_⟩, fun count seen hret => ?_⟩
  · rw [hoops] at hshow
    exact hshow
  · rw [hret] at hshow
    exact hshow

/-! ### Three runs -/

/-- The driver after init with no call under way. -/
def pool0 : Pool Drv Call := { shared := drv0, call := fun _ => .idle }

theorem machine_init {args : List Field} : (machine args).init pool0 := ⟨rfl, fun _ => rfl⟩

/-- Call `c` takes `k` steps, all of them going well. -/
def steps (c k : Nat) : List (Nat × Env) := List.replicate k (c, .run true)

/-- Call 0 is in `reader()` while call 1 publishes, and in `SHOW_DATA` after that is over. -/
def graceful : List (Nat × Env) :=
  (0, .read 128) :: steps 0 2 ++ (1, .write 128) :: steps 1 11 ++ steps 0 6 ++ steps 1 3 ++
    steps 0 12

def gracefulRun : (machine showFields).Run 36 :=
  .ofActs pool0 graceful machine_init (by decide +kernel)

/-- Call 0 has loaded `gdata` for the first field when call 1 replaces and frees the object. -/
def freedUnder : List (Nat × Env) :=
  (0, .read 128) :: steps 0 10 ++ (1, .write 128) :: steps 1 13 ++ steps 0 1

def freedUnderRun : (machine showFields).Run 26 :=
  .ofActs pool0 freedUnder machine_init (by decide +kernel)

/-- Call 0 has two fields when call 1 publishes. -/
def torn : List (Nat × Env) :=
  (0, .read 128) :: steps 0 13 ++ (1, .write 128) :: steps 1 9 ++ steps 0 7

/-- The latitude is that of the first object, the longitude that of the second. -/
example : ((machine showFields).exec pool0 torn).map (fun p => p.call 0) =
    some (.readRet 128 [(.gpsLock, 0, 1), (.lat, 0, 0), (.longit, 1, 775952), (.alt, 1, 920),
      (.issueInL6, 1, 1)]) := by decide +kernel

theorem readsOneObject_gracefulRun :
    ReadsOneObject gracefulRun ∧ (gracefulRun.state 36).call 0 =
      .readRet 128 [(.gpsLock, 1, 1), (.lat, 1, 129780), (.longit, 1, 775952), (.alt, 1, 920),
        (.issueInL6, 1, 1)] := by
  refine ⟨readsOneObject gracefulRun fun i hi => ?_, by decide +kernel⟩
  have htwo : ∀ i, i < 36 → ∀ c, c < 2 →
      Spares ((gracefulRun.state i).call (gracefulRun.act i).1) ((gracefulRun.state i).call c) := by
    decide +kernel
  have hact : ∀ i, i < 36 → (gracefulRun.act i).1 < 2 := by decide +kernel
  exact Pool.forall_call_of_lt gracefulRun hact (spares_idle _) hi.le (htwo i hi)

/-- A read goes on to access an object that has been freed. -/
theorem not_readsOneObject :
    ¬ ∀ args n (r : (machine args).Run n), ReadsOneObject r := by
  intro h
  exact (h _ _ freedUnderRun 26 (by decide) 0).1.2 (by decide +kernel)

end Lkp.RcuRdwr
