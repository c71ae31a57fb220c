/-
Loading and unloading the rdwr driver that uses RCU.

init registers the device before it allocates the first object, and gives up with
the device still registered if it gets none.  exit withdraws the device and frees
nothing: whichever object `gdata` points to by then is lost.

So the driver can only be right while it stays loaded.  It is, if init gets its
object and calls wait until that is set up (`Timely`): from there on what is known
of the driver after init applies, and the read method is safe if no writer frees an
object that it has loaded in `SHOW_DATA` and not yet accessed (`sound_of_timely`).
-/
import Lkp.Kernel.Module
import Lkp.RcuRdwr.Show

namespace Lkp.RcuRdwr

/-- Where the module stands. -/
inductive Phase
  /-- Not loaded: init has failed, exit is through, or there was no init yet. -/
  | absent
  /-- In init: `misc_register` comes next. -/
  | init
  /-- In init: `gdata = kzalloc(..)` comes next. -/
  | initAlloc
  /-- In init: `gdata->gps_lock = 1` comes next. -/
  | initSet
  /-- In init: `spin_lock_init` comes next. -/
  | initLock
  /-- init has returned 0. -/
  | live
  /-- In exit: `misc_deregister` comes next. -/
  | exit
  deriving DecidableEq

/-- The driver with its module. -/
abbrev Module := Loadable Drv Phase

/-- Every load begins with the statics `gdata` and `gdata_lock` zeroed. -/
def Drv.unset (s : Drv) : Drv := { s with gdata := 0, gdataLock := none }

/-- `gdata = kzalloc(..)`. -/
def Drv.kzalloc (s : Drv) : Drv := { s with heap := s.heap.alloc .zero, gdata := s.heap.brk }

/-- `gdata->gps_lock = 1`, where the object holds `d`: this is what init publishes. -/
def Drv.setGpsLock (s : Drv) (d : GlobalData) : Drv :=
  { s with
    heap := s.heap.store s.gdata (d.set .gpsLock 1)
    published := (s.gdata, d.set .gpsLock 1) :: s.published }

/-- `miscdrv_rdwr_rcu_init` and `miscdrv_rdwr_rcu_exit`, one step at a time. -/
def moduleCode (ok : Bool) (m : Module) : Option Module :=
  match m.phase with
  | .absent => some { m with drv := m.drv.unset, phase := .init }
  | .init =>
      if ok then some { m with phase := .initAlloc, registered := true }
      else some { m with phase := .absent }
  | .initAlloc =>
      if ok then some { m with drv := m.drv.kzalloc, phase := .initSet }
      else some { m with phase := .absent }
  | .initSet => (m.drv.heap.obj m.drv.gdata).map fun d =>
      { m with drv := m.drv.setGpsLock d, phase := .initLock }
  | .initLock => some { m with drv := { m.drv with gdataLock := none }, phase := .live }
  | .live => some { m with phase := .exit }
  | .exit => some { m with phase := .absent, registered := false }

/-- Calls are made while the device is registered. -/
def lifeStep (args : List Field) : CallStep Module Call (Mover Env) :=
  Loadable.step (step args) .idle (fun m _ => m.registered) moduleCode

/-- Nothing is allocated and nothing registered; address 0 is NULL. -/
def module0 : Module where
  drv := { heap := .empty, gdata := 0, gdataLock := none,
           rcu := .fresh, published := [], replaced := [], freed := [] }
  phase := .absent
  registered := false

/-- Any loads, unloads and calls. -/
def lifecycle (args : List Field) : Machine (Pool Module Call) (Nat × Mover Env) :=
  Pool.machine (fun m => m = module0) .idle (lifeStep args)

/-- What the driver owes its callers and the kernel. -/
structure Sound (p : Pool Module Call) : Prop where
  /-- No call went through NULL or to a freed object. -/
  noOops : ∀ c, p.call c ≠ .readerOops ∧ p.call c ≠ .writerOops ∧ p.call c ≠ .showOops
  /-- Without the module there is no device. -/
  withdrawn : p.shared.phase = .absent → p.shared.registered = false
  /-- And every object that was allocated is freed, once. -/
  freedOnce : p.shared.phase = .absent →
    ∀ o, 0 < o → o < p.shared.drv.heap.brk → (p.shared.drv.freed.map Prod.snd).count o = 1

/-! ### The condition -/

/-- The object is set up. -/
def Phase.ready : Phase → Bool
  | .initLock | .live | .exit => true
  | _ => false

/-- The next step of a call at `l` does not free what a read at `m` has loaded to print. -/
def SparesLoaded (l m : Call) : Prop :=
  match l with
  | .writerFree _ gd => loadedOf m ≠ some gd
  | _ => True

instance : DecidableRel SparesLoaded := fun l m =>
  decidable_of_bool (match l with
    | .writerFree _ gd => loadedOf m ≠ some gd
    | _ => true) <| by
      unfold SparesLoaded
      split <;> simp

/--
`kzalloc` succeeds in init, calls take their first step only when init has set the
object up, `spin_lock_init` finds the lock free, and exit is never through.
-/
def InOrder (p : Pool Module Call) (a : Nat × Mover Env) : Prop :=
  match a.2, p.shared.phase with
  | .call _, phase => p.call a.1 ≠ .idle → phase.ready = true
  | .module ok, .initAlloc => ok = true
  | .module _, .initLock => p.shared.drv.gdataLock = none
  | .module _, .exit => False
  | .module _, _ => True

instance : DecidableRel InOrder := fun p a => by
  unfold InOrder; split <;> infer_instance

/-- Besides, a writer frees an object only while no read has it loaded and not yet accessed. -/
def Timely (p : Pool Module Call) (a : Nat × Mover Env) : Prop :=
  InOrder p a ∧ ∀ c, SparesLoaded (p.call a.1) (p.call c)

theorem sparesLoaded_idle (l : Call) : SparesLoaded l .idle := by
  unfold SparesLoaded
  split
  · exact nofun
  · trivial

/-! ### The invariant under it -/

/-- The methods of the driver, without its module. -/
def methods (p : Pool Module Call) : Pool Drv Call := { shared := p.shared.drv, call := p.call }

/-- The call was made at most. -/
def Waiting : Call → Prop
  | .idle | .read _ | .write _ => True
  | _ => False

/-- What a read has loaded to print is there. -/
structure Shows (s : Drv) (l : Call) : Prop where
  loaded : ∀ gd, loadedOf l = some gd → ∃ d, s.heap.obj gd = some d
  fine : l ≠ .showOops

/-- The data before the object is set up. -/
structure Bare (m : Module) : Prop where
  notReady : m.phase.ready = false
  drv : m.drv = if m.phase = .initSet then module0.drv.kzalloc else module0.drv
  withdrawn : m.phase = .absent ∨ m.phase = .init → m.registered = false

/-- Before the object is set up no call has taken a step. -/
structure Before (p : Pool Module Call) : Prop where
  bare : Bare p.shared
  waiting : ∀ c, Waiting (p.call c)

/-- Once it is, the driver is as after init. -/
structure After (p : Pool Module Call) : Prop where
  ready : p.shared.phase.ready = true
  safe : Safe (methods p)
  shows : ∀ c, Shows p.shared.drv (p.call c)

section Steps

variable {args : List Field} {c : Nat} {s s' : Drv} {l l' m : Call}

/-- An object stays until it is freed. -/
theorem Move.keeps (h : Move args c s l s' l') (hL : Ledger s) {o : Nat} {a : GlobalData}
    (ho : s.heap.obj o = some a) (hspare : ∀ count, l ≠ .writerFree count o) :
    ∃ b, s'.heap.obj o = some b := by
  have hstore : ∀ n b, ∃ b', (s.heap.store n b).obj o = some b' := by
    intro n b
    by_cases hn : o = n
    · exact ⟨b, hn ▸ Heap.store_self⟩
    · exact ⟨a, (Heap.store_of_ne hn).trans ho⟩
  cases h with
  | alloc count gd => exact ⟨a, (Heap.alloc_of_lt (hL.heap.lt ho)).trans ho⟩
  | copy count gd gdNew hgd hnew => exact hstore _ _
  | store count gd gdNew f v todo hnew => exact hstore _ _
  | kfree count gd =>
      have hne : o ≠ gd := by
        intro heq
        subst heq
        exact hspare count rfl
      exact ⟨a, (Heap.free_of_ne hne).trans ho⟩
  | _ => exact ⟨a, ho⟩

/-- The read that moves loads the current object. -/
theorem Move.shows (h : Move args c s l s' l') (hL : Ledger s) (hl : Shows s l) :
    Shows s' l' := by
  cases h with
  | showLoad count f todo seen =>
      obtain ⟨d, hd, -⟩ := hL.gdata
      refine ⟨fun gd hgd => ?_, nofun⟩
      cases hgd
      exact ⟨d, hd⟩
  | showOops count f todo gd seen hnone =>
      obtain ⟨d, hd⟩ := hl.loaded gd rfl
      rw [hd] at hnone
      cases hnone
  | _ => exact ⟨nofun, nofun⟩

theorem Shows.move_other (hm : Shows s m) (hL : Ledger s) (h : Move args c s l s' l')
    (hspare : SparesLoaded l m) : Shows s' m := by
  refine ⟨fun gd hgd => ?_, hm.fine⟩
  obtain ⟨d, hd⟩ := hm.loaded gd hgd
  refine h.keeps hL hd fun count heq => ?_
  subst heq
  exact hspare hgd

theorem waiting_shows (hl : Waiting l) : Shows s l := by
  cases l <;> first | exact hl.elim | exact ⟨nofun, nofun⟩

/-- A call that is made has touched nothing. -/
theorem waiting_placed (hl : Waiting l) (hlock : s.gdataLock = none) (hrep : s.replaced = []) :
    Placed c s l := by
  have hsettled : ∀ o, (c, o) ∈ s.replaced → (c, o) ∈ s.freed ∨ pendingOf l = some o := by
    rw [hrep]
    exact nofun
  cases l with
  | idle | read | write =>
      exact
        { lock := hlock ▸ .free
          ticket := Rcu.inSection_none _
          fits := ⟨nofun, nofun, nofun, nofun, nofun, hsettled⟩
          readerFine := nofun
          writerFine := nofun }
  | _ => exact hl.elim

theorem waiting_guard (hl : Waiting l) : Guard l m := by
  have hl' : ticketOf l = none ∧ heldOf l = none := by
    cases l <;> first | exact ⟨rfl, rfl⟩ | exact hl.elim
  refine ⟨?_, fun p t b hp => ?_, fun p hp => ?_⟩
  · rw [hl'.1]
    exact Rcu.none_apart _
  · rw [hl'.2] at hp
    cases hp
  · rw [hl'.2] at hp
    cases hp

end Steps

/-- The data when init has set the object up. -/
theorem setUp_ledger : Ledger (module0.drv.kzalloc.setGpsLock .zero) where
  rcu := Rcu.fresh_wf
  heap := by
    intro o d ho
    by_contra hlt
    have hne : o ≠ 1 := fun heq => hlt (heq ▸ Nat.lt_succ_self 1)
    simp [module0, Drv.kzalloc, Drv.setGpsLock, Heap.alloc, Heap.store, Heap.empty, hne] at ho
  gdata := ⟨firstData, rfl, List.mem_cons_self⟩
  fixed o d hod := by
    cases List.mem_singleton.mp hod
    refine ⟨Nat.lt_succ_self 1, fun d' hd' => ?_⟩
    exact (Option.some.inj hd').symm
  replaced := nofun
  replacedOnce := List.nodup_nil
  freed := nofun
  freedOnce := List.nodup_nil

/-! ### The steps of init and exit -/

/-- One constructor for each way out of a phase. -/
inductive Code : Bool → Module → Module → Prop
  | load {m ok} (h : m.phase = .absent) : Code ok m { m with drv := m.drv.unset, phase := .init }
  | register {m} (h : m.phase = .init) :
      Code true m { m with phase := .initAlloc, registered := true }
  | refused {m} (h : m.phase = .init) : Code false m { m with phase := .absent }
  | kzalloc {m} (h : m.phase = .initAlloc) :
      Code true m { m with drv := m.drv.kzalloc, phase := .initSet }
  | noMem {m} (h : m.phase = .initAlloc) : Code false m { m with phase := .absent }
  | setUp {m ok d} (h : m.phase = .initSet) (hd : m.drv.heap.obj m.drv.gdata = some d) :
      Code ok m { m with drv := m.drv.setGpsLock d, phase := .initLock }
  | lockInit {m ok} (h : m.phase = .initLock) :
      Code ok m { m with drv := { m.drv with gdataLock := none }, phase := .live }
  | unload {m ok} (h : m.phase = .live) : Code ok m { m with phase := .exit }
  | deregister {m ok} (h : m.phase = .exit) :
      Code ok m { m with phase := .absent, registered := false }

section Codes

variable {m m' : Module} {ok : Bool}

theorem code_of_moduleCode (h : moduleCode ok m = some m') : Code ok m m' := by
  unfold moduleCode at h
  cases hphase : m.phase <;> rw [hphase] at h
  case absent => cases h; exact .load hphase
  case init =>
    cases ok <;> cases h
    · exact .refused hphase
    · exact .register hphase
  case initAlloc =>
    cases ok <;> cases h
    · exact .noMem hphase
    · exact .kzalloc hphase
  case initSet =>
    obtain ⟨d, hd, rfl⟩ := Option.map_eq_some_iff.mp h
    exact .setUp hphase hd
  case initLock => cases h; exact .lockInit hphase
  case live => cases h; exact .unload hphase
  case exit => cases h; exact .deregister hphase

/-- Before the object is set up, a step of init leaves it so or sets it up. -/
theorem Code.bare (h : Code ok m m') (hm : Bare m) (hok : m.phase = .initAlloc → ok = true) :
    Bare m' ∨ m'.phase.ready = true ∧ m'.drv = module0.drv.kzalloc.setGpsLock .zero := by
  have hdrv := hm.drv
  cases h with
  | load hphase =>
      rw [hphase, if_neg nofun] at hdrv
      refine Or.inl ⟨rfl, ?_, fun _ => hm.withdrawn (Or.inl hphase)⟩
      rw [if_neg nofun, hdrv]
      rfl
  | register hphase =>
      rw [hphase, if_neg nofun] at hdrv
      exact Or.inl ⟨rfl, hdrv, fun hout => by simp at hout⟩
  | refused hphase =>
      rw [hphase, if_neg nofun] at hdrv
      exact Or.inl ⟨rfl, hdrv, fun _ => hm.withdrawn (Or.inr hphase)⟩
  | kzalloc hphase =>
      rw [hphase, if_neg nofun] at hdrv
      refine Or.inl ⟨rfl, ?_, fun hout => by simp at hout⟩
      rw [if_pos rfl, hdrv]
  | noMem hphase => cases hok hphase
  | setUp hphase hd =>
      rw [hphase, if_pos rfl] at hdrv
      rw [hdrv] at hd
      cases hd
      exact Or.inr ⟨rfl, by rw [hdrv]⟩
  | lockInit hphase | unload hphase | deregister hphase =>
      have hno := hm.notReady
      rw [hphase] at hno
      cases hno

/-- After that init and exit leave the data alone, up to the end of exit. -/
theorem Code.ready (h : Code ok m m') (hm : m.phase.ready = true) (hexit : m.phase ≠ .exit)
    (hlock : m.phase = .initLock → m.drv.gdataLock = none) :
    m'.phase.ready = true ∧ m'.drv = m.drv := by
  cases h with
  | lockInit hphase =>
      refine ⟨rfl, ?_⟩
      rw [← hlock hphase]
  | unload hphase => exact ⟨rfl, rfl⟩
  | deregister hphase => exact absurd hphase hexit
  | load hphase | register hphase | refused hphase | kzalloc hphase | noMem hphase
  | setUp hphase =>
      rw [hphase] at hm
      cases hm

end Codes

/-! ### In every run -/

section Runs

variable {args : List Field} {p p' : Pool Module Call} {c : Nat}

/-- A step of a method, once the object is set up. -/
theorem After.call (h : After p) {e : Env} {l' : Call}
    (hstep : step args c e p.shared.drv (p.call c) = some (p'.shared.drv, l'))
    (hcall : p'.call = Function.update p.call c l') (hphase : p'.shared.phase = p.shared.phase)
    (hspare : ∀ d, SparesLoaded (p.call c) (p.call d)) : After p' := by
  have hmove := move_of_step hstep
  have hL : Ledger p.shared.drv := h.safe.shared
  have hnext : (machine args).next (methods p) (c, e) = some (methods p') :=
    Pool.machine_next.mpr ⟨l', hstep, hcall⟩
  refine ⟨hphase ▸ h.ready, (inductive_safe fun _ _ => True).step _ _ _ h.safe trivial hnext,
    fun d => ?_⟩
  by_cases hd : d = c
  · subst hd
    rw [Pool.call_self hcall]
    exact hmove.shows hL (h.shows d)
  · rw [Pool.call_other hcall hd]
    exact (h.shows d).move_other hL hmove (hspare d)

/-- A call that is made changes nothing yet. -/
theorem waiting_of_step {e : Env} {s s' : Drv} {l' : Call}
    (hstep : step args c e s .idle = some (s', l')) : s' = s ∧ Waiting l' := by
  cases move_of_step hstep with
  | callRead count => exact ⟨rfl, trivial⟩
  | callWrite count => exact ⟨rfl, trivial⟩

/-- When the object is set up, every call fits it. -/
theorem Before.setUp (h : Before p) (hready : p'.shared.phase.ready = true)
    (hdrv : p'.shared.drv = module0.drv.kzalloc.setGpsLock .zero) (hcall : p'.call = p.call) :
    After p' := by
  have hwait : ∀ d, Waiting (p'.call d) := fun d => hcall ▸ h.waiting d
  refine ⟨hready, ⟨?_, fun d => ?_, fun d u _ => waiting_guard (hwait d)⟩,
    fun d => waiting_shows (hwait d)⟩
  · show Ledger p'.shared.drv
    rw [hdrv]
    exact setUp_ledger
  · show Placed d p'.shared.drv (p'.call d)
    rw [hdrv]
    exact waiting_placed (hwait d) rfl rfl

/-- A step of init or exit, once the object is set up. -/
theorem After.module (h : After p) (hready : p'.shared.phase.ready = true)
    (hdrv : p'.shared.drv = p.shared.drv) (hcall : p'.call = p.call) : After p' := by
  have hsame : methods p' = methods p := by rw [methods, methods, hdrv, hcall]
  exact ⟨hready, hsame ▸ h.safe, fun d => hdrv ▸ hcall ▸ h.shows d⟩

theorem inductive_stands (args : List Field) :
    (lifecycle args).Inductive Timely fun p => Before p ∨ After p where
  init := by
    intro p hinit
    refine Or.inl ⟨?_, fun c => ?_⟩
    · rw [hinit.1]
      exact ⟨rfl, rfl, fun _ => rfl⟩
    · rw [hinit.2 c]
      trivial
  step := by
    intro p a p' hstands htime hnext
    obtain ⟨l', hstep, hcall⟩ := Pool.machine_next.mp hnext
    have hmoved := Loadable.moved_of_step hstep
    obtain ⟨horder, hspare⟩ := htime
    unfold InOrder at horder
    generalize hl : p.call a.1 = l at hmoved
    generalize ha : a.2 = e at hmoved
    generalize hm : p'.shared = m' at hmoved
    rw [ha] at horder
    cases hmoved with
    | @call _ _ e s' l' haccepts hclient =>
        rw [← hl] at hclient
        have hdrv : p'.shared.drv = s' := by rw [hm]
        have hphase : p'.shared.phase = p.shared.phase := by rw [hm]
        rcases hstands with hbefore | hafter
        · have hidle : p.call a.1 = .idle := by
            by_contra hmade
            have hready := horder hmade
            rw [hbefore.bare.notReady] at hready
            cases hready
          obtain ⟨hsame, hwait⟩ := waiting_of_step (hidle ▸ hclient)
          have hshared : p'.shared = p.shared := by rw [hm, hsame]
          refine Or.inl ⟨hshared ▸ hbefore.bare, fun d => ?_⟩
          by_cases hd : d = a.1
          · rw [hd, Pool.call_self hcall]
            exact hwait
          · rw [Pool.call_other hcall hd]
            exact hbefore.waiting d
        · exact Or.inr (hafter.call (hdrv ▸ hclient) hcall hphase hspare)
    | @module _ _ ok hcode =>
        rw [← hm] at hcode
        have hc := code_of_moduleCode hcode
        have hsame : p'.call = p.call := by rw [hcall, ← hl, Function.update_eq_self]
        rcases hstands with hbefore | hafter
        · rcases hc.bare hbefore.bare fun hphase => by rw [hphase] at horder; exact horder with
            hbare | ⟨hready, hdrv⟩
          · exact Or.inl ⟨hbare, fun d => hsame ▸ hbefore.waiting d⟩
          · exact Or.inr (hbefore.setUp hready hdrv hsame)
        · obtain ⟨hready, hdrv⟩ := hc.ready hafter.ready
            (fun hphase => by rw [hphase] at horder; exact horder)
            fun hphase => by rw [hphase] at horder; exact horder
          exact Or.inr (hafter.module hready hdrv hsame)

theorem Before.sound (h : Before p) : Sound p where
  noOops c := by
    have hwait := h.waiting c
    refine ⟨fun hc => ?_, fun hc => ?_, fun hc => ?_⟩ <;> rw [hc] at hwait <;> exact hwait
  withdrawn hphase := h.bare.withdrawn (Or.inl hphase)
  freedOnce hphase o hpos hlt := by
    have hdrv := h.bare.drv
    rw [hphase, if_neg nofun] at hdrv
    rw [hdrv] at hlt
    exact absurd hpos (Nat.not_lt.mpr (Nat.le_of_lt_succ hlt))

theorem After.sound (h : After p) : Sound p where
  noOops c :=
    ⟨(h.safe.each c).readerFine, (h.safe.each c).writerFine, (h.shows c).fine⟩
  withdrawn hphase := by
    have hready := h.ready
    rw [hphase] at hready
    cases hready
  freedOnce hphase := by
    have hready := h.ready
    rw [hphase] at hready
    cases hready

/-- **While it stays loaded, in good order, the driver is sound.** -/
theorem sound_of_timely (h : (lifecycle args).ReachableBy Timely p) : Sound p := by
  rcases (inductive_stands args).holds h with hbefore | hafter
  · exact hbefore.sound
  · exact hafter.sound

end Runs

/-! ### Two runs -/

/-- The module is not loaded and no call under way. -/
def lifePool0 : Pool Module Call := { shared := module0, call := fun _ => .idle }

theorem lifecycle_init {args : List Field} : (lifecycle args).init lifePool0 :=
  ⟨rfl, fun _ => rfl⟩

/-- `k` steps of init or exit, all of them going well. -/
def moduleSteps (k : Nat) : List (Nat × Mover Env) := List.replicate k (0, .module true)

/-- Call `c` takes `k` steps, all of them going well. -/
def callSteps (c k : Nat) : List (Nat × Mover Env) := List.replicate k (c, .call (.run true))

/-- `misc_register` fails once; after the second load a call waits for init to finish. -/
def used : List (Nat × Mover Env) :=
  moduleSteps 1 ++ [(0, .module false)] ++ moduleSteps 2 ++ [(1, .call (.write 128))] ++
    moduleSteps 3 ++ callSteps 1 13 ++ [(0, .call (.read 128))] ++ callSteps 0 18

def usedRun : (lifecycle showFields).Run 40 :=
  .ofActs lifePool0 used lifecycle_init (by decide +kernel)

theorem usedRun_timely : usedRun.Meets Timely := by
  intro i hi
  have horder : ∀ i, i < 40 → InOrder (usedRun.state i) (usedRun.act i) := by decide +kernel
  have htwo : ∀ i, i < 40 → ∀ c, c < 2 →
      SparesLoaded ((usedRun.state i).call (usedRun.act i).1) ((usedRun.state i).call c) := by
    decide +kernel
  have hact : ∀ i, i < 40 → (usedRun.act i).1 < 2 := by decide +kernel
  exact ⟨horder i hi,
    Pool.forall_call_of_lt usedRun hact (sparesLoaded_idle _) hi.le (htwo i hi)⟩

/-- The module is loaded and unloaded with no call made. -/
def leakyRun : (lifecycle showFields).Run 7 :=
  .ofActs lifePool0 (moduleSteps 7) lifecycle_init (by decide +kernel)

end Lkp.RcuRdwr
