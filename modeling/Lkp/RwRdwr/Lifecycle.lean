/-
Loading and unloading the rdwr driver with a reader-writer lock.

init registers the device first and allocates the object after that; exit frees the
object first and withdraws the device after that.  So there are two windows in which
a read or a write finds no object, and where the allocation fails init gives up
with the device still registered.

A run stays clear of all three if the allocation succeeds, `gd` is loaded only while
it points to the object, and `kfree` runs while no call has the pointer in hand
(`Timely`).  Then no call ever goes astray, and whenever the module is not loaded the
device is gone and every object was freed once (`sound`).
-/
import Lkp.RcuRdwr.Lifecycle
import Lkp.RwRdwr.Show

namespace Lkp.RwRdwr

open RcuRdwr (Field GlobalData showFields)

/-- Where the module stands. -/
inductive Phase
  /-- Not loaded: init has failed, exit is through, or there was no init yet. -/
  | absent
  /-- In init: `misc_register` comes next. -/
  | init
  /-- In init: `gd = kzalloc(..)` comes next. -/
  | initAlloc
  /-- In init: `gd->gps_lock = 1` comes next. -/
  | initSet
  /-- In init: `rwlock_init` comes next. -/
  | initLock
  /-- init has returned 0. -/
  | live
  /-- In exit: `kfree(gd)` comes next. -/
  | exit
  /-- In exit: `misc_deregister` comes next. -/
  | exitDereg
  deriving DecidableEq

/-- The driver with its module. -/
abbrev Module := Loadable Drv Phase

/-- Every load begins with the static `gd` at NULL. -/
def Drv.unset (s : Drv) : Drv := { s with gd := 0 }

/-- `gd = kzalloc(..)`. -/
def Drv.kzalloc (s : Drv) : Drv := { s with heap := s.heap.alloc .zero, gd := s.heap.brk }

/-- `kfree(gd)`. -/
def Drv.kfree (s : Drv) : Drv :=
  { s with heap := s.heap.free s.gd, freed := s.gd :: s.freed }

/-- `list_demo_rdwrlock_init` and `list_demo_rdwrlock_exit`, one step at a time. -/
def moduleCode (ok : Bool) (m : Module) : Option Module :=
  match m.phase with
  | .absent => some { m with drv := m.drv.unset, phase := .init }
  | .init =>
      if ok then some { m with phase := .initAlloc, registered := true }
      else some { m with phase := .absent }
  | .initAlloc =>
      if ok then some { m with drv := m.drv.kzalloc, phase := .initSet }
      else some { m with phase := .absent }
  | .initSet => (m.drv.heap.obj m.drv.gd).map fun o =>
      { m with drv := m.drv.put m.drv.gd { o with data := o.data.set .gpsLock 1 }
               phase := .initLock }
  | .initLock => (m.drv.heap.obj m.drv.gd).map fun o =>
      { m with drv := m.drv.put m.drv.gd { o with rwlock := .unlocked }, phase := .live }
  | .live => some { m with phase := .exit }
  | .exit => some { m with drv := m.drv.kfree, phase := .exitDereg }
  | .exitDereg => some { m with phase := .absent, registered := false }

/-- Calls are made while the device is registered. -/
def lifeStep (args : List Field) : CallStep Module Call (Mover Env) :=
  Loadable.step (step args) .idle (fun m _ => m.registered) moduleCode

/-- Nothing is allocated and nothing registered. -/
def module0 : Module where
  drv := { heap := .empty, gd := 0, held := [], freed := [] }
  phase := .absent
  registered := false

/-- Any loads, unloads and calls. -/
def lifecycle (args : List Field) : Machine (Pool Module Call) (Nat × Mover Env) :=
  Pool.machine (fun m => m = module0) .idle (lifeStep args)

/-- What the driver owes its callers and the kernel. -/
structure Sound (p : Pool Module Call) : Prop where
  /-- No call went through NULL or to a freed object. -/
  noOops : ∀ c, p.call c ≠ .oops
  /-- Without the module there is no device. -/
  withdrawn : p.shared.phase = .absent → p.shared.registered = false
  /-- And every object that was allocated is freed, once. -/
  freedOnce : p.shared.phase = .absent →
    ∀ o, 0 < o → o < p.shared.drv.heap.brk → p.shared.drv.freed.count o = 1

/-! ### The condition -/

/-- From the allocation to the `kfree`. -/
def Phase.ready : Phase → Bool
  | .initSet | .initLock | .live | .exit => true
  | _ => false

/-- The next step of a call loads `gd`. -/
def loadsGd : Call → Bool
  | .read _ | .write _ | .showLoad _ (_ :: _) _ => true
  | _ => false

/-- `kzalloc` succeeds in init, and `gd` is loaded only after that and before the `kfree`. -/
def InOrder (p : Pool Module Call) (a : Nat × Mover Env) : Prop :=
  match a.2, p.shared.phase with
  | .call _, phase => loadsGd (p.call a.1) = true → phase.ready = true
  | .module ok, .initAlloc => ok = true
  | .module _, _ => True

instance : DecidableRel InOrder := fun p a => by
  unfold InOrder; split <;> infer_instance

/-- The next step is no `kfree` while a call at `m` has the pointer in hand. -/
def SparesPointer (phase : Phase) (e : Mover Env) (m : Call) : Prop :=
  match e, phase with
  | .module _, .exit => pointer m = none
  | _, _ => True

instance (phase : Phase) : DecidableRel (SparesPointer phase) := fun e m => by
  unfold SparesPointer; split <;> infer_instance

/-- Besides, the `kfree` of exit runs while no call has the pointer in hand. -/
def Timely (p : Pool Module Call) (a : Nat × Mover Env) : Prop :=
  InOrder p a ∧ ∀ c, SparesPointer p.shared.phase a.2 (p.call c)

theorem sparesPointer_idle (phase : Phase) (e : Mover Env) : SparesPointer phase e .idle := by
  unfold SparesPointer
  split
  · rfl
  · trivial

/-! ### The invariant under it -/

/-- The books of the module: what is allocated, freed and registered in each phase. -/
structure Books (m : Module) : Prop where
  null : 0 < m.drv.heap.brk
  /-- In the phases in between, `gd` points to an object. -/
  object : m.phase.ready = true →
    0 < m.drv.gd ∧ m.drv.gd < m.drv.heap.brk ∧ ∃ o, m.drv.heap.obj m.drv.gd = some o
  /-- All other objects were freed once. -/
  freed : ∀ o, 0 < o → o < m.drv.heap.brk →
    m.drv.freed.count o = if m.phase.ready = true ∧ o = m.drv.gd then 0 else 1
  unborn : ∀ o, m.drv.heap.brk ≤ o → o ∉ m.drv.freed
  withdrawn : m.phase = .absent ∨ m.phase = .init → m.registered = false

/-- A call that has a pointer in hand has the one to the object. -/
structure InTime (m : Module) (l : Call) : Prop where
  ptr : ∀ p, pointer l = some p → p = m.drv.gd ∧ m.phase.ready = true
  noOops : l ≠ .oops

/-- The steps of init and exit, one constructor for each way out of a phase. -/
inductive Code : Bool → Module → Module → Prop
  | load {m ok} (h : m.phase = .absent) :
      Code ok m { m with drv := m.drv.unset, phase := .init }
  | register {m} (h : m.phase = .init) :
      Code true m { m with phase := .initAlloc, registered := true }
  | refused {m} (h : m.phase = .init) : Code false m { m with phase := .absent }
  | kzalloc {m} (h : m.phase = .initAlloc) :
      Code true m { m with drv := m.drv.kzalloc, phase := .initSet }
  | noMem {m} (h : m.phase = .initAlloc) : Code false m { m with phase := .absent }
  | change {m ok phase o} (h : m.phase.ready = true) (hphase : phase.ready = true) :
      Code ok m { m with drv := m.drv.put m.drv.gd o, phase := phase }
  | unload {m ok} (h : m.phase = .live) : Code ok m { m with phase := .exit }
  | kfree {m ok} (h : m.phase = .exit) :
      Code ok m { m with drv := m.drv.kfree, phase := .exitDereg }
  | deregister {m ok} (h : m.phase = .exitDereg) :
      Code ok m { m with phase := .absent, registered := false }

section Steps

variable {args : List Field} {c : Nat} {s s' : Drv} {l l' : Call} {m m' : Module} {ok : Bool}

/-- No method allocates or frees. -/
theorem Move.memory (h : Move args c s l s' l') :
    s'.heap.brk = s.heap.brk ∧ s'.freed = s.freed ∧ s'.gd = s.gd := by
  cases h <;> exact ⟨rfl, rfl, rfl⟩

/-- A call gets a pointer where it loads `gd`. -/
theorem Move.loads (h : Move args c s l s' l') {p : Nat} (hp : RwRdwr.pointer l' = some p) :
    loadsGd l = true ∨ RwRdwr.pointer l = some p := by
  cases h with
  | readGd | showLoad | writeGd => exact Or.inl rfl
  | readLock | load | writeLock | store => exact Or.inr hp
  | _ => cases hp

theorem Move.astray (h : Move args c s l s' l') (hoops : l' = .oops) :
    ∃ gd, RwRdwr.pointer l = some gd ∧ s.heap.obj gd = none := by
  cases h with
  | oops gd hgd hnone => exact ⟨gd, hgd, hnone⟩
  | _ => cases hoops

/-- A step of a method. -/
theorem Move.books (h : Move args c m.drv l s' l') (hm : Books m) (hl : InTime m l)
    (htime : loadsGd l = true → m.phase.ready = true) :
    Books { m with drv := s' } ∧ InTime { m with drv := s' } l' := by
  obtain ⟨hbrk, hfreed, hgd⟩ := h.memory
  have hptr : ∀ p, RwRdwr.pointer l = some p → p = m.drv.gd := fun p hp => (hl.ptr p hp).1
  have hready : ∀ p, RwRdwr.pointer l' = some p → m.phase.ready = true := by
    intro p hp
    rcases h.loads hp with hload | hold
    · exact htime hload
    · exact (hl.ptr p hold).2
  refine ⟨⟨hbrk ▸ hm.null, fun hin => ?_, ?_, ?_, hm.withdrawn⟩, ?_, ?_⟩
  · obtain ⟨hpos, hlt, o, ho⟩ := hm.object hin
    obtain ⟨-, -, o', ho', -⟩ := h.object hptr ho
    show 0 < s'.gd ∧ s'.gd < s'.heap.brk ∧ ∃ o, s'.heap.obj s'.gd = some o
    rw [hgd, hbrk]
    exact ⟨hpos, hlt, o', ho'⟩
  · show ∀ o, 0 < o → o < s'.heap.brk →
      s'.freed.count o = if m.phase.ready = true ∧ o = s'.gd then 0 else 1
    rw [hbrk, hfreed, hgd]
    exact hm.freed
  · show ∀ o, s'.heap.brk ≤ o → o ∉ s'.freed
    rw [hbrk, hfreed]
    exact hm.unborn
  · intro p hp
    exact ⟨hgd.symm ▸ h.pointer hptr p hp, hready p hp⟩
  · intro hoops
    obtain ⟨gd, hgd, hnone⟩ := h.astray hoops
    obtain ⟨heq, hin⟩ := hl.ptr gd hgd
    obtain ⟨-, -, o, ho⟩ := hm.object hin
    rw [heq, ho] at hnone
    cases hnone

theorem code_of_moduleCode (h : moduleCode ok m = some m') : Code ok m m' := by
  unfold moduleCode at h
  cases hphase : m.phase <;> rw [hphase] at h
  case absent => cases h; exact .load hphase
  case init =>
    cases ok <;> cases h
    · exact .refused hphase
    · exact .register hphase
  case initAlloc =>
    cases ok <;> cases h
    · exact .noMem hphase
    · exact .kzalloc hphase
  case initSet =>
    obtain ⟨o, -, rfl⟩ := Option.map_eq_some_iff.mp h
    exact .change (by rw [hphase]; rfl) rfl
  case initLock =>
    obtain ⟨o, -, rfl⟩ := Option.map_eq_some_iff.mp h
    exact .change (by rw [hphase]; rfl) rfl
  case live => cases h; exact .unload hphase
  case exit => cases h; exact .kfree hphase
  case exitDereg => cases h; exact .deregister hphase

/-- The books after a step of init or exit. -/
theorem Code.books (h : Code ok m m') (hm : Books m) (hok : m.phase = .initAlloc → ok = true) :
    Books m' := by
  cases h with
  | load hphase =>
      refine ⟨hm.null, nofun, fun o hpos hlt => ?_, hm.unborn,
        fun _ => hm.withdrawn (Or.inl hphase)⟩
      have hold := hm.freed o hpos hlt
      rw [hphase] at hold
      exact hold
  | register hphase =>
      refine ⟨hm.null, nofun, fun o hpos hlt => ?_, hm.unborn, fun hout => by simp at hout⟩
      have hold := hm.freed o hpos hlt
      rw [hphase] at hold
      exact hold
  | refused hphase =>
      refine ⟨hm.null, nofun, fun o hpos hlt => ?_, hm.unborn,
        fun _ => hm.withdrawn (Or.inr hphase)⟩
      have hold := hm.freed o hpos hlt
      rw [hphase] at hold
      exact hold
  | kzalloc hphase =>
      refine ⟨Nat.succ_pos _, fun _ => ⟨hm.null, Nat.lt_succ_self _, .zero, Heap.alloc_self⟩,
        fun o hpos hlt => ?_, fun o hle => hm.unborn o (Nat.le_of_succ_le hle),
        fun hout => by simp at hout⟩
      by_cases ho : o = m.drv.heap.brk
      · subst ho
        rw [if_pos ⟨rfl, rfl⟩]
        exact List.count_eq_zero_of_not_mem (hm.unborn _ (le_refl _))
      · have hold := hm.freed o hpos (Nat.lt_of_le_of_ne (Nat.le_of_lt_succ hlt) ho)
        rw [if_neg fun hin => ho hin.2]
        rw [hphase, if_neg fun hin => by cases hin.1] at hold
        exact hold
  | noMem hphase => cases hok hphase
  | @change m ok phase o hin hphase =>
      obtain ⟨hpos, hlt, -⟩ := hm.object hin
      refine ⟨hm.null, fun _ => ⟨hpos, hlt, o, Heap.store_self⟩, fun u hu hult => ?_, hm.unborn,
        fun hout => ?_⟩
      · have hold := hm.freed u hu hult
        rw [hin] at hold
        show m.drv.freed.count u = if phase.ready = true ∧ u = m.drv.gd then 0 else 1
        rw [hphase]
        exact hold
      · show m.registered = false
        rcases hout with hout | hout <;> rw [show phase = _ from hout] at hphase <;> cases hphase
  | unload hphase =>
      refine ⟨hm.null, fun _ => hm.object (by rw [hphase]; rfl), fun o hpos hlt => ?_, hm.unborn,
        fun hout => by simp at hout⟩
      have hold := hm.freed o hpos hlt
      rw [hphase] at hold
      exact hold
  | kfree hphase =>
      obtain ⟨hpos, hlt, -⟩ := hm.object (by rw [hphase]; rfl)
      refine ⟨hm.null, nofun, fun o ho holt => ?_, fun o hle hmem => ?_,
        fun hout => by simp at hout⟩
      · have hold := hm.freed o ho holt
        rw [hphase] at hold
        show (m.drv.gd :: m.drv.freed).count o = 1
        by_cases hgd : o = m.drv.gd
        · subst hgd
          rw [if_pos ⟨rfl, rfl⟩] at hold
          rw [List.count_cons_self, hold]
        · rw [if_neg fun hin => hgd hin.2] at hold
          rw [List.count_cons_of_ne (Ne.symm hgd), hold]
      · rcases List.mem_cons.mp hmem with heq | hold
        · exact absurd (heq ▸ hle) (Nat.not_le.mpr hlt)
        · exact hm.unborn o hle hold
  | deregister hphase =>
      refine ⟨hm.null, nofun, fun o hpos hlt => ?_, hm.unborn, fun _ => rfl⟩
      have hold := hm.freed o hpos hlt
      rw [hphase] at hold
      exact hold

/-- A pointer in hand survives a step of init or exit. -/
theorem Code.inTime (h : Code ok m m') (hl : InTime m l)
    (hfree : m.phase = .exit → pointer l = none) : InTime m' l := by
  refine ⟨fun p hp => ?_, hl.noOops⟩
  obtain ⟨hgd, hin⟩ := hl.ptr p hp
  cases h with
  | change _ hphase => exact ⟨hgd, hphase⟩
  | unload => exact ⟨hgd, rfl⟩
  | kfree hphase =>
      rw [hfree hphase] at hp
      cases hp
  | load hphase | register hphase | refused hphase | kzalloc hphase | noMem hphase
  | deregister hphase =>
      rw [hphase] at hin
      cases hin

end Steps

/-! ### In every run -/

theorem books_kept (args : List Field) :
    Pool.Kept (lifeStep args) Timely Books (fun _ m l => InTime m l) fun _ _ _ _ => True where
  own p c e m' l' hinv htime hstep := by
    have hl := hinv.each c
    have horder := htime.1
    unfold InOrder at horder
    generalize p.call c = l at hstep horder hl
    cases Loadable.moved_of_step hstep with
    | call haccepts hclient => exact (move_of_step hclient).books hinv.shared hl horder
    | module hcode =>
        have hc := code_of_moduleCode hcode
        refine ⟨hc.books hinv.shared fun hphase => ?_, nofun, nofun⟩
        rw [hphase] at horder
        exact horder
  others p c e m' l' d hinv htime hstep hne := by
    have hd := hinv.each d
    have hspare := htime.2 d
    generalize p.call c = l at hstep
    cases Loadable.moved_of_step hstep with
    | call haccepts hclient =>
        have hgd := (move_of_step hclient).memory.2.2
        exact ⟨fun u hu => hgd.symm ▸ hd.ptr u hu, hd.noOops⟩
    | module hcode =>
        refine (code_of_moduleCode hcode).inTime hd fun hphase => ?_
        rw [hphase] at hspare
        exact hspare
  pair _ _ _ _ _ _ _ _ _ _ := ⟨trivial, trivial⟩

theorem module0_books : Books module0 where
  null := Nat.zero_lt_one
  object := nofun
  freed _ hpos hlt := absurd hpos (Nat.not_lt.mpr (Nat.le_of_lt_succ hlt))
  unborn := nofun
  withdrawn _ := rfl

/-- **In good order the driver is sound through any number of loads and unloads.** -/
theorem sound_of_timely {args : List Field} {p : Pool Module Call}
    (h : (lifecycle args).ReachableBy Timely p) : Sound p := by
  have hind : (lifecycle args).Inductive _ _ := (books_kept args).invariant
    (fun m hm => by subst hm; exact module0_books) (fun _ _ _ => ⟨nofun, nofun⟩)
    fun _ _ => trivial
  have hinv := hind.holds h
  refine ⟨fun c => (hinv.each c).noOops, fun hphase => hinv.shared.withdrawn (Or.inl hphase),
    fun hphase o hpos hlt => ?_⟩
  have hcount := hinv.shared.freed o hpos hlt
  rw [hphase] at hcount
  exact hcount

/-! ### Two runs -/

/-- The module is not loaded and no call under way. -/
def lifePool0 : Pool Module Call := { shared := module0, call := fun _ => .idle }

theorem lifecycle_init {args : List Field} : (lifecycle args).init lifePool0 :=
  ⟨rfl, fun _ => rfl⟩

/-- `k` steps of init or exit, all of them going well. -/
def moduleSteps (k : Nat) : List (Nat × Mover Env) := List.replicate k (0, .module true)

/-- Call `c` takes `k` steps. -/
def callSteps (c k : Nat) : List (Nat × Mover Env) := List.replicate k (c, .call .run)

/-- A read waits for init to finish, a write overtakes it, and the module is loaded twice. -/
def cycled : List (Nat × Mover Env) :=
  moduleSteps 2 ++ [(1, .call (.read 128))] ++ moduleSteps 3 ++ callSteps 1 8 ++
    [(2, .call (.write 128))] ++ callSteps 2 7 ++ callSteps 1 12 ++ moduleSteps 8 ++
    moduleSteps 3

def cycledRun : (lifecycle showFields).Run 45 :=
  .ofActs lifePool0 cycled lifecycle_init (by decide +kernel)

theorem cycledRun_timely : cycledRun.Meets Timely := by
  intro i hi
  have horder : ∀ i, i < 45 → InOrder (cycledRun.state i) (cycledRun.act i) := by decide +kernel
  have hthree : ∀ i, i < 45 → ∀ c, c < 3 → SparesPointer (cycledRun.state i).shared.phase
      (cycledRun.act i).2 ((cycledRun.state i).call c) := by decide +kernel
  have hact : ∀ i, i < 45 → (cycledRun.act i).1 < 3 := by decide +kernel
  exact ⟨horder i hi,
    Pool.forall_call_of_lt cycledRun hact (sparesPointer_idle _ _) hi.le (hthree i hi)⟩

/-- The device is registered, nothing is allocated, and a read comes in. -/
def tooEarly : List (Nat × Mover Env) := moduleSteps 2 ++ [(1, .call (.read 128))] ++ callSteps 1 2

def tooEarlyRun : (lifecycle showFields).Run 5 :=
  .ofActs lifePool0 tooEarly lifecycle_init (by decide +kernel)

/-! ### Both drivers -/

/-- **In good order both drivers are sound.** -/
theorem lifecycles_sound (args : List Field) :
    (∀ p, (lifecycle args).ReachableBy Timely p → Sound p) ∧
      ∀ p, (RcuRdwr.lifecycle args).ReachableBy RcuRdwr.Timely p → RcuRdwr.Sound p :=
  ⟨fun _ h => sound_of_timely h, fun _ h => RcuRdwr.sound_of_timely h⟩

theorem lifecycles_sound_runs :
    Sound (cycledRun.state 45) ∧ RcuRdwr.Sound (RcuRdwr.usedRun.state 40) :=
  ⟨(lifecycles_sound _).1 _ (cycledRun.reachableBy cycledRun_timely 45 (le_refl _)),
    (lifecycles_sound _).2 _ (RcuRdwr.usedRun.reachableBy RcuRdwr.usedRun_timely 40 (le_refl _))⟩

/-- A read goes through NULL in the one; in the other the first object is never freed. -/
theorem not_lifecycles_sound :
    (¬ ∀ args p, (lifecycle args).Reachable p → Sound p) ∧
      ¬ ∀ args p, (RcuRdwr.lifecycle args).Reachable p → RcuRdwr.Sound p := by
  refine ⟨fun h => ?_, fun h => ?_⟩
  · exact (h _ _ (tooEarlyRun.reachable 5 (le_refl _))).noOops 1 (by decide +kernel)
  · have hfreed := (h _ _ (RcuRdwr.leakyRun.reachable 7 (le_refl _))).freedOnce
      (by decide +kernel) 1 (by decide) (by decide +kernel)
    revert hfreed
    decide +kernel

end Lkp.RwRdwr
