/-
What the read method of the driver with a reader-writer lock prints.

The line is made by `SHOW_DATA()`, which loads five fields with the lock dropped.
A writer inside its section may have stored some of its values and not yet the
others, and it may store between two of the loads; either way the line can show a
tuple that no one was ever meant to see (`not_readsHeldTuple`).

`Drv.held` records what the object held whenever a writer left, so its head is what
the object holds while no writer has changed it since.  If a read starts to print
only then, and no store changes the object while it prints, the tuple is one that
the object held with no writer inside (`readsHeldTuple`).
-/
import Lkp.RwRdwr.Driver

namespace Lkp.RwRdwr

open RcuRdwr (GlobalData Field Seen showFields)

/-! ### The lock -/

/-- The places inside a locked section. -/
def holding : Call → RwLock.Hold
  | .reader .. => .reading
  | .writerStore .. => .writing
  | _ => .nothing

/-- No writer is inside its write-locked section. -/
def Quiet (p : Pool Drv Call) : Prop := ∀ c, holding (p.call c) ≠ .writing

/-- What the object holds. -/
def Drv.data (s : Drv) : Option GlobalData := (s.heap.obj s.gd).map Obj.data

/-- What is known of a call: its pointer is `gd`, and the lock agrees with its place. -/
structure Attached (c : Nat) (s : Drv) (l : Call) : Prop where
  ptr : ∀ p, pointer l = some p → p = s.gd
  lock : ∀ o, s.heap.obj s.gd = some o → RwLock.Owned c o.rwlock (holding l)
  noOops : l ≠ .oops

/-- The object is there. -/
def Alive (s : Drv) : Prop := ∃ o, s.heap.obj s.gd = some o

section Steps

variable {args : List Field} {c d : Nat} {s s' : Drv} {l l' m : Call}

/-- What a step does to the pointer, the object and the lock in it. -/
theorem Move.object (h : Move args c s l s' l') (hl : ∀ p, pointer l = some p → p = s.gd)
    {o : Obj} (ho : s.heap.obj s.gd = some o) :
    s'.gd = s.gd ∧ l' ≠ .oops ∧ ∃ o', s'.heap.obj s.gd = some o' ∧
      RwLock.Step c o.rwlock (holding l) o'.rwlock (holding l') := by
  have hput : ∀ gd o', pointer l = some gd → (s.put gd o').heap.obj s.gd = some o' := by
    intro gd o' hgd
    rw [hl gd hgd]
    exact Heap.store_self
  have hsame : ∀ gd o', pointer l = some gd → s.heap.obj gd = some o' → o' = o := by
    intro gd o' hgd ho'
    rw [hl gd hgd, ho] at ho'
    exact (Option.some.inj ho').symm
  cases h with
  | readLock count gd hgd hk =>
      cases hsame gd _ rfl hgd
      exact ⟨rfl, nofun, _, hput gd _ rfl, .readLock hk⟩
  | readUnlock count gd seen hgd =>
      cases hsame gd _ rfl hgd
      exact ⟨rfl, nofun, _, hput gd _ rfl, .readUnlock _⟩
  | writeLock count gd hgd hk =>
      cases hsame gd _ rfl hgd
      exact ⟨rfl, nofun, _, hput gd _ rfl, .writeLock hk⟩
  | store count gd f v todo hgd =>
      cases hsame gd _ rfl hgd
      exact ⟨rfl, nofun, _, hput gd _ rfl, .keep _ _⟩
  | writeUnlock count gd hgd =>
      cases hsame gd _ rfl hgd
      exact ⟨rfl, nofun, _, hput gd _ rfl, .writeUnlock _⟩
  | oops gd hgd hnone =>
      rw [hl gd hgd, ho] at hnone
      cases hnone
  | _ => exact ⟨rfl, nofun, o, ho, .keep _ _⟩

/-- A pointer loaded in a step is `gd`. -/
theorem Move.pointer (h : Move args c s l s' l') (hl : ∀ p, pointer l = some p → p = s.gd) :
    ∀ p, RwRdwr.pointer l' = some p → p = s.gd := by
  cases h with
  | readGd | showLoad | writeGd => exact fun p hp => (Option.some.inj hp).symm
  | readLock | load | writeLock | store => exact fun p hp => hl p hp
  | _ => exact fun p hp => by cases hp

theorem Attached.move (hl : Attached c s l) (hs : Alive s) (h : Move args c s l s' l') :
    Alive s' ∧ Attached c s' l' := by
  obtain ⟨o, ho⟩ := hs
  obtain ⟨hgd, hno, o', ho', hstep⟩ := h.object hl.ptr ho
  rw [← hgd] at ho'
  refine ⟨⟨o', ho'⟩, fun p hp => ?_, fun o'' ho'' => ?_, hno⟩
  · rw [hgd]
    exact h.pointer hl.ptr p hp
  · rw [ho', Option.some.injEq] at ho''
    subst ho''
    exact (hl.lock o ho).step hstep

theorem Attached.move_other (hl : Attached c s l) (hm : Attached d s m) (hs : Alive s)
    (hne : d ≠ c) (h : Move args c s l s' l') : Attached d s' m := by
  obtain ⟨o, ho⟩ := hs
  obtain ⟨hgd, -, o', ho', hstep⟩ := h.object hl.ptr ho
  refine ⟨fun p hp => hgd ▸ hm.ptr p hp, fun o'' ho'' => ?_, hm.noOops⟩
  rw [hgd, ho', Option.some.injEq] at ho''
  subst ho''
  exact (hl.lock o ho).step_other (hm.lock o ho) hne hstep

end Steps

theorem kept (args : List Field) (ok : Pool Drv Call → Nat × Env → Prop) :
    Pool.Kept (step args) ok Alive Attached fun _ _ _ _ => True where
  own _ c _ _ _ hinv _ hstep := (hinv.each c).move hinv.shared (move_of_step hstep)
  others _ c _ _ _ d hinv _ hstep hne :=
    (hinv.each c).move_other (hinv.each d) hinv.shared hne (move_of_step hstep)
  pair _ _ _ _ _ _ _ _ _ _ := ⟨trivial, trivial⟩

/-- The object is there, and every call is attached to it. -/
abbrev Safe : Pool Drv Call → Prop := Pool.Inv Alive Attached fun _ _ _ _ => True

theorem drv0_object : drv0.heap.obj drv0.gd = some firstObj := rfl

theorem inductive_safe {args : List Field} (ok : Pool Drv Call → Nat × Env → Prop) :
    (machine args).Inductive ok Safe := by
  refine (kept args ok).invariant (fun s hs => ?_) (fun s c hs => ?_) fun _ _ => trivial
  · subst hs
    exact ⟨firstObj, drv0_object⟩
  · subst hs
    refine ⟨nofun, fun o ho => ?_, nofun⟩
    cases drv0_object.symm.trans ho
    exact .unlocked

/-! ### The condition -/

/-- A read has printed a value and has yet to load another one. -/
def betweenLoads : Call → Bool
  | .showLoad _ todo seen => !todo.isEmpty && !seen.isEmpty
  | .showUse _ _ _ _ seen => !seen.isEmpty
  | _ => false

/-- The object holds what it held when a writer last left. -/
def Settled (s : Drv) : Prop := s.data = s.held.head?

instance : DecidablePred Settled := fun s => by unfold Settled; infer_instance

/-- The first value a read loads for its line is loaded from a settled object. -/
def FirstSettled (s : Drv) : Call → Prop
  | .showUse _ _ _ _ [] => Settled s
  | _ => True

instance (s : Drv) : DecidablePred (FirstSettled s) := fun l => by
  unfold FirstSettled; split <;> infer_instance

/-- The next step of a call at `l` is no store that changes the object under a read at `m`. -/
def Spares (s : Drv) (l m : Call) : Prop :=
  match l with
  | .writerStore _ _ ((f, v) :: _) => s.data.map (·.get f) = some v ∨ betweenLoads m = false
  | _ => True

instance (s : Drv) : DecidableRel (Spares s) := fun l m => by
  unfold Spares; split <;> infer_instance

/--
A read starts to print only while the object is settled, and no store changes the
object between the first and the last load of a read that prints.
-/
def Undisturbed (p : Pool Drv Call) (a : Nat × Env) : Prop :=
  FirstSettled p.shared (p.call a.1) ∧ ∀ c, Spares p.shared (p.call a.1) (p.call c)

theorem spares_idle (s : Drv) (l : Call) : Spares s l .idle := by
  unfold Spares
  split
  · exact Or.inr rfl
  · trivial

/-! ### The invariant under it -/

/-- Every value shown is a field of `d`. -/
def FromData (d : GlobalData) (seen : Seen) : Prop := ∀ x ∈ seen, x.2 = d.get x.1

theorem fromData_nil {d : GlobalData} : FromData d [] := fun _ hx => absurd hx List.not_mem_nil

theorem FromData.append {d : GlobalData} {seen : Seen} (h : FromData d seen) (f : Field) :
    FromData d (seen ++ [(f, d.get f)]) := by
  intro x hx
  rcases List.mem_append.mp hx with hold | hnew
  · exact h x hold
  · rw [List.mem_singleton.mp hnew]

/-- What a read in `SHOW_DATA` has gathered so far. -/
def Showing (args : List Field) (s : Drv) : Call → Prop
  | .showLoad _ todo seen =>
      seen.map Prod.fst ++ todo = args ∧
        ∃ d ∈ s.held, FromData d seen ∧ (todo ≠ [] → seen ≠ [] → s.data = some d)
  | .showUse _ f todo _ seen =>
      seen.map Prod.fst ++ f :: todo = args ∧
        ∃ d ∈ s.held, FromData d seen ∧ (seen ≠ [] → s.data = some d)
  | .readRet _ seen => seen.map Prod.fst = args ∧ ∃ d ∈ s.held, FromData d seen
  | _ => True

theorem set_eq_self {d : GlobalData} {f : Field} {v : Int} (h : d.get f = v) : d.set f v = d := by
  subst h
  cases f <;> rfl

section Show

variable {args : List Field} {c d : Nat} {s s' : Drv} {l l' m : Call}

theorem Attached.data_eq (hl : Attached c s l) {gd : Nat} {o : Obj} (hgd : pointer l = some gd)
    (ho : s.heap.obj gd = some o) : s.data = some o.data := by
  rw [hl.ptr gd hgd] at ho
  rw [Drv.data, ho, Option.map_some]

theorem Attached.data_put (hl : Attached c s l) {gd : Nat} (o : Obj) (hgd : pointer l = some gd) :
    (s.put gd o).data = some o.data := by
  show ((s.heap.store gd o).obj s.gd).map Obj.data = some o.data
  rw [hl.ptr gd hgd, Heap.store_self, Option.map_some]

/-- A step records what the object holds when a writer leaves, and nothing else. -/
theorem Move.held (h : Move args c s l s' l') (hl : Attached c s l) :
    s'.held = s.held ∨
      holding l = .writing ∧ ∃ a, s'.data = some a ∧ s'.held = a :: s.held ∧
        holding l' = .nothing := by
  cases h with
  | writeUnlock count gd hgd =>
      exact Or.inr ⟨rfl, _, hl.data_put _ rfl, rfl, rfl⟩
  | _ => exact Or.inl rfl

theorem Move.held_subset (h : Move args c s l s' l') (hl : Attached c s l) :
    s.held ⊆ s'.held := by
  rcases h.held hl with hsame | ⟨-, a, -, hcons, -⟩
  · rw [hsame]
    exact List.Subset.refl _
  · rw [hcons]
    exact List.subset_cons_self _ _

/-- A step that spares a read between its loads leaves what the object holds. -/
theorem Move.data (h : Move args c s l s' l') (hl : Attached c s l) (hspare : Spares s l m)
    (hm : betweenLoads m = true) : s'.data = s.data := by
  cases h with
  | readLock count gd hgd hk => exact (hl.data_put _ rfl).trans (hl.data_eq rfl hgd).symm
  | readUnlock count gd seen hgd => exact (hl.data_put _ rfl).trans (hl.data_eq rfl hgd).symm
  | writeLock count gd hgd hk => exact (hl.data_put _ rfl).trans (hl.data_eq rfl hgd).symm
  | writeUnlock count gd hgd => exact (hl.data_put _ rfl).trans (hl.data_eq rfl hgd).symm
  | store count gd f v todo hgd =>
      rcases hspare with hsame | hout
      · rw [hl.data_eq rfl hgd, Option.map_some, Option.some.injEq] at hsame
        rw [hl.data_put _ rfl, hl.data_eq rfl hgd, set_eq_self hsame]
      · rw [hm] at hout
        cases hout
  | _ => rfl

/-- The read that moves. -/
theorem Move.showing (h : Move args c s l s' l') (hl : Attached c s l) (hne : s.held ≠ [])
    (hfirst : FirstSettled s l) (hshow : Showing args s l) : Showing args s' l' := by
  cases h with
  | showBegin count seen =>
      obtain ⟨a, ha⟩ := List.exists_mem_of_ne_nil _ hne
      exact ⟨rfl, a, ha, fromData_nil, fun _ hno => absurd rfl hno⟩
  | showLoad count f todo seen =>
      obtain ⟨hargs, a, ha, hfrom, hcur⟩ := hshow
      exact ⟨hargs, a, ha, hfrom, hcur (List.cons_ne_nil f todo)⟩
  | showEnd count seen =>
      obtain ⟨hargs, a, ha, hfrom, -⟩ := hshow
      exact ⟨(List.append_nil _).symm.trans hargs, a, ha, hfrom⟩
  | @showUse count f todo gd seen o hgd =>
      obtain ⟨hargs, a, ha, hfrom, hcur⟩ := hshow
      have hdata : s.data = some o.data := hl.data_eq rfl hgd
      refine ⟨by simpa using hargs, o.data, ?_, ?_, fun _ _ => hdata⟩
      · cases seen with
        | nil =>
            -- the first value: the object is settled, so it holds the newest record
            have hhead : some o.data = s.held.head? := hdata.symm.trans hfirst
            exact List.mem_of_mem_head? hhead.symm
        | cons x seen =>
            rw [hcur (List.cons_ne_nil x seen), Option.some.injEq] at hdata
            exact hdata ▸ ha
      · cases seen with
        | nil => exact fromData_nil.append f
        | cons x seen =>
            rw [hcur (List.cons_ne_nil x seen), Option.some.injEq] at hdata
            exact hdata ▸ hfrom.append f
  | _ => trivial

/-- A read that stands still. -/
theorem Move.showing_other (h : Move args c s l s' l') (hl : Attached c s l)
    (hspare : Spares s l m) (hm : Showing args s m) : Showing args s' m := by
  have hheld := h.held_subset hl
  cases m with
  | showLoad count todo seen =>
      obtain ⟨hargs, a, ha, hfrom, hcur⟩ := hm
      refine ⟨hargs, a, hheld ha, hfrom, fun htodo hseen => ?_⟩
      rw [h.data hl hspare (by simp [betweenLoads, htodo, hseen])]
      exact hcur htodo hseen
  | showUse count f todo gd seen =>
      obtain ⟨hargs, a, ha, hfrom, hcur⟩ := hm
      refine ⟨hargs, a, hheld ha, hfrom, fun hseen => ?_⟩
      rw [h.data hl hspare (by simp [betweenLoads, hseen])]
      exact hcur hseen
  | readRet count seen =>
      obtain ⟨hargs, a, ha, hfrom⟩ := hm
      exact ⟨hargs, a, hheld ha, hfrom⟩
  | _ => trivial

end Show

theorem showing_kept (args : List Field) :
    Pool.Kept (step args) (fun p a => Undisturbed p a ∧ Safe p) (fun s => s.held ≠ [])
      (fun _ s l => Showing args s l) fun _ _ _ _ => True where
  own p c e s' l' hinv hok hstep := by
    have hmove := move_of_step hstep
    have hatt := hok.2.each c
    refine ⟨fun hnil => ?_, hmove.showing hatt hinv.shared hok.1.1 (hinv.each c)⟩
    have hsub := hmove.held_subset hatt
    rw [hnil] at hsub
    exact hinv.shared (List.subset_nil.mp hsub)
  others p c e s' l' d hinv hok hstep _ :=
    (move_of_step hstep).showing_other (hok.2.each c) (hok.1.2 d) (hinv.each d)
  pair _ _ _ _ _ _ _ _ _ _ := ⟨trivial, trivial⟩

theorem showing_of_reachableBy {args : List Field} {p : Pool Drv Call}
    (h : (machine args).ReachableBy Undisturbed p) (c : Nat) :
    Showing args p.shared (p.call c) := by
  have hinv : (machine args).Inductive _ _ := (showing_kept args).invariant
    (fun s hs => by subst hs; exact List.cons_ne_nil _ _) (fun _ _ _ => trivial)
    fun _ _ => trivial
  exact (hinv.holds (h.assuming (inductive_safe _))).each c

/-! ### The instant a record was made -/

/-- When a writer has just left, nobody is inside. -/
theorem quiet_of_leave {p : Pool Drv Call} (h : Safe p) {c : Nat}
    (hc : holding (p.call c) = .writing) {p' : Pool Drv Call} {l' : Call}
    (hcall : p'.call = Function.update p.call c l') (hl' : holding l' = .nothing) : Quiet p' := by
  intro d hd
  by_cases hdc : d = c
  · subst hdc
    rw [Pool.call_self hcall, hl'] at hd
    cases hd
  · rw [Pool.call_other hcall hdc] at hd
    obtain ⟨o, ho⟩ := h.shared
    have hmine := (h.each c).lock o ho
    have hother := (h.each d).lock o ho
    rw [hc] at hmine
    rw [hd] at hother
    exact hdc (hother.exclusive hmine)

/-- Every record is of an instant at which no writer was inside. -/
theorem held_instant {args : List Field} {n : Nat} (r : (machine args).Run n) :
    ∀ j, j ≤ n → ∀ a ∈ (r.state j).shared.held,
      ∃ k, k ≤ j ∧ Quiet (r.state k) ∧ (r.state k).shared.data = some a := by
  intro j
  induction j with
  | zero =>
      intro _ a ha
      obtain ⟨hs, hidle⟩ := r.start
      rw [hs] at ha
      refine ⟨0, le_refl 0, fun c hc => ?_, ?_⟩
      · rw [hidle c] at hc
        cases hc
      · rw [hs, List.mem_singleton.mp ha]
        rfl
  | succ j ih =>
      intro hj a ha
      obtain ⟨l', hstep, hcall⟩ := Pool.machine_next.mp (r.step j hj)
      have hsafe : Safe (r.state j) :=
        (inductive_safe _).holds (r.reachable j (Nat.le_of_succ_le hj))
      have hold : a ∈ (r.state j).shared.held →
          ∃ k, k ≤ j + 1 ∧ Quiet (r.state k) ∧ (r.state k).shared.data = some a := by
        intro hmem
        obtain ⟨k, hk, hquiet⟩ := ih (Nat.le_of_succ_le hj) a hmem
        exact ⟨k, Nat.le_succ_of_le hk, hquiet⟩
      rcases (move_of_step hstep).held (hsafe.each _) with hsame | ⟨hin, b, hdata, hcons, hout⟩
      · rw [hsame] at ha
        exact hold ha
      · rw [hcons] at ha
        rcases List.mem_cons.mp ha with hnew | hmem
        · exact ⟨j + 1, le_refl _, quiet_of_leave hsafe hin hcall hout, hnew ▸ hdata⟩
        · exact hold hmem

/--
The line of every read shows all arguments of `SHOW_DATA`, with values the object
held together at one instant, up to then, at which no writer was inside its section.
-/
def ReadsHeldTuple {args : List Field} {n : Nat} (r : (machine args).Run n) : Prop :=
  ∀ j, j ≤ n → ∀ c count seen, (r.state j).call c = .readRet count seen →
    seen.map Prod.fst = args ∧
      ∃ k d, k ≤ j ∧ Quiet (r.state k) ∧ (r.state k).shared.data = some d ∧ FromData d seen

/-- **Undisturbed reads print a tuple the object held with no writer inside.** -/
theorem readsHeldTuple {args : List Field} {n : Nat} (r : (machine args).Run n)
    (hok : r.Meets Undisturbed) : ReadsHeldTuple r := by
  intro j hj c count seen hret
  have hshow := showing_of_reachableBy (r.reachableBy hok j hj) c
  rw [hret] at hshow
  obtain ⟨hargs, d, hd, hfrom⟩ := hshow
  obtain ⟨k, hk, hquiet, hdata⟩ := held_instant r j hj d hd
  exact ⟨hargs, k, d, hk, hquiet, hdata, hfrom⟩

/-! ### Two runs -/

/-- The driver after init with no call under way. -/
def pool0 : Pool Drv Call := { shared := drv0, call := fun _ => .idle }

theorem machine_init {args : List Field} : (machine args).init pool0 := ⟨rfl, fun _ => rfl⟩

/-- Call `c` takes `k` steps. -/
def steps (c k : Nat) : List (Nat × Env) := List.replicate k (c, .run)

/-- Call 1 writes between the two looks of call 0. -/
def between : List (Nat × Env) :=
  (0, .read 128) :: steps 0 8 ++ (1, .write 128) :: steps 1 7 ++ steps 0 12

def betweenRun : (machine showFields).Run 29 :=
  .ofActs pool0 between machine_init (by decide +kernel)

/-- Call 0 prints while call 1 has stored the latitude only. -/
def halfway : List (Nat × Env) :=
  (0, .read 128) :: steps 0 8 ++ (1, .write 128) :: steps 1 3 ++ steps 0 12 ++ steps 1 4

def halfwayRun : (machine showFields).Run 29 :=
  .ofActs pool0 halfway machine_init (by decide +kernel)

theorem readsHeldTuple_betweenRun :
    ReadsHeldTuple betweenRun ∧ (betweenRun.state 29).call 0 =
      .readRet 128 [(.gpsLock, 1), (.lat, 129780), (.longit, 775952), (.alt, 920),
        (.issueInL6, 1)] := by
  refine ⟨readsHeldTuple betweenRun fun i hi => ⟨?_, ?_⟩, by decide +kernel⟩
  · have hall : ∀ i, i < 29 → FirstSettled (betweenRun.state i).shared
        ((betweenRun.state i).call (betweenRun.act i).1) := by decide +kernel
    exact hall i hi
  · have htwo : ∀ i, i < 29 → ∀ c, c < 2 → Spares (betweenRun.state i).shared
        ((betweenRun.state i).call (betweenRun.act i).1) ((betweenRun.state i).call c) := by
      decide +kernel
    have hact : ∀ i, i < 29 → (betweenRun.act i).1 < 2 := by decide +kernel
    exact Pool.forall_call_of_lt betweenRun hact (spares_idle _ _) hi.le (htwo i hi)

/-- The line shows the new latitude with the old longitude. -/
theorem not_readsHeldTuple :
    ¬ ∀ args n (r : (machine args).Run n), ReadsHeldTuple r := by
  intro h
  obtain ⟨-, k, d, hk, hquiet, hdata, hfrom⟩ := h _ _ halfwayRun 29 (le_refl _) 0 128
    [(.gpsLock, 1), (.lat, 129780), (.longit, 0), (.alt, 0), (.issueInL6, 0)] (by decide +kernel)
  have hlat : d.lat = 129780 := (hfrom (.lat, 129780) (by simp)).symm
  have hlongit : d.longit = 0 := (hfrom (.longit, 0) (by simp)).symm
  have hinside : ∀ k, k ≤ 29 →
      (halfwayRun.state k).shared.data.map (fun d => (d.lat, d.longit)) = some (129780, 0) →
      holding ((halfwayRun.state k).call 1) = .writing := by decide +kernel
  exact hquiet 1 (hinside k hk (by rw [hdata, Option.map_some, hlat, hlongit]))

end Lkp.RwRdwr
