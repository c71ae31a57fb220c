/-
Loading and unloading the secret driver with one mutex.

The device is there for anyone to open before init has allocated `ctx` and
initialised the mutex in it, and it stays there if the allocation fails.  exit
withdraws the device, and with it goes `ctx`, whoever still has a file open: nothing
in `llkd_misc_fops` keeps the module loaded for them.

Both windows are closed when the allocation succeeds, no method takes its first step
before the mutex is initialised, and the device is withdrawn only when no file is
open and no method under way (`Timely`).  Then no method meets a `ctx` it may not use,
and an init that fails leaves no device (`lifecycle_sound`).
-/
import Lkp.Kernel.Module
import Lkp.Secret.Mutex

namespace Lkp.Secret.Mutex

/-- What `ctx` points to. -/
inductive Ctx
  | null
  /-- Allocated and zeroed; `ctx->lock` is not initialised. -/
  | raw
  | ready
  | freed
  deriving DecidableEq

/-- The driver's data, `ctx`, and the number of files open. -/
structure Held where
  drv : Drv
  ctx : Ctx
  files : Nat

/-- Where a call has got to, seen from `ctx`. -/
inductive Task
  | idle
  /-- The method is entered; the load of `ctx->dev` comes next. -/
  | entered (m : Method)
  | running (l : Call)
  /-- `ctx` was used while it was NULL, freed, or without its mutex. -/
  | misused
  deriving DecidableEq

/-- The next step of a method is a section on `ctx`. -/
def usesCtx : Call → Bool
  | .read _ | .readOk .. | .writeFetched _ => true
  | _ => false

/-- The method has returned. -/
def returned : Call → Bool
  | .fileRet .. | .readRet .. | .writeRet _ => true
  | _ => false

/-- A method that returns from `open` leaves a file open. -/
def opened : Call → Nat
  | .fileRet .opening _ _ => 1
  | _ => 0

/-- The methods, one step at a time; `release` takes its file away when it is called. -/
def taskStep (args : FileOp → Arg) : CallStep Held Task Env := fun c e s l =>
  match l, e with
  | .idle, .call (.file .closing) =>
      some ({ s with files := s.files - 1 }, .entered (.file .closing))
  | .idle, .call m => some (s, .entered m)
  | .entered m, .run _ =>
      if s.ctx = .ready then
        (step args c (.call m) s.drv .idle).map fun r => ({ s with drv := r.1 }, .running r.2)
      else some (s, .misused)
  | .running l, .run ok =>
      if usesCtx l = true ∧ s.ctx ≠ .ready then some (s, .misused)
      else (step args c (.run ok) s.drv l).map fun r =>
        ({ s with drv := r.1, files := s.files + opened r.2 }, .running r.2)
  | _, _ => none

/-- Where the module stands. -/
inductive Phase
  /-- In init: `misc_register` comes next. -/
  | init
  /-- In init: `ctx = devm_kzalloc(..)` comes next. -/
  | initAlloc
  /-- In init: `mutex_init(&ctx->lock)` comes next. -/
  | initMutex
  /-- In init: `ctx->dev` is set next. -/
  | initDev
  /-- In init: `strscpy(ctx->oursecret, "initmsg", 8)` comes next. -/
  | initSecret
  /-- init has returned an error. -/
  | failed
  /-- init has returned 0. -/
  | live
  /-- In exit: `mutex_destroy(&lock1)` comes next. -/
  | exit
  /-- In exit: `mutex_destroy(&ctx->lock)` comes next. -/
  | exitCtx
  /-- In exit: `misc_deregister` comes next. -/
  | exitDereg
  /-- exit is through. -/
  | gone
  deriving DecidableEq

/-- The driver with its module. -/
abbrev Module := Loadable Held Phase

/-- A context as `devm_kzalloc` hands it over. -/
def zeroCtx : DrvCtx := { tx := 0, rx := 0, oursecret := List.replicate maxBytes 0 }

/-- `strscpy(ctx->oursecret, "initmsg", 8)`. -/
def Held.initSecret (s : Held) : Option Held :=
  (strscpy s.drv.ctx.oursecret initmsg 8).map fun b =>
    { s with drv := { s.drv with ctx := { s.drv.ctx with oursecret := b } } }

/-- `miscdrv_init_mutexlock` and `miscdrv_exit_mutexlock`, one step at a time. -/
def moduleCode (ok : Bool) (m : Module) : Option Module :=
  match m.phase with
  | .init =>
      if ok then some { m with phase := .initAlloc, registered := true }
      else some { m with phase := .failed }
  | .initAlloc =>
      if ok then
        some { m with drv := { m.drv with drv := { m.drv.drv with ctx := zeroCtx }, ctx := .raw }
                      phase := .initMutex }
      else some { m with phase := .failed }
  | .initMutex => some { m with drv := { m.drv with ctx := .ready }, phase := .initDev }
  | .initDev => some { m with phase := .initSecret }
  | .initSecret => m.drv.initSecret.map fun s => { m with drv := s, phase := .live }
  | .live => some { m with phase := .exit }
  | .exit => some { m with phase := .exitCtx }
  | .exitCtx => some { m with phase := .exitDereg }
  -- the managed allocation goes with the device
  | .exitDereg =>
      some { drv := { m.drv with ctx := .freed }, phase := .gone, registered := false }
  | .failed | .gone => none

/-- `open` needs the device to be registered, the other methods an open file. -/
def accepts (m : Module) : Env → Bool
  | .call (.file .opening) => m.registered
  | _ => 0 < m.drv.files

def lifeStep (args : FileOp → Arg) : CallStep Module Task (Mover Env) :=
  Loadable.step (taskStep args) .idle accepts moduleCode

/-- The statics of the module as it is loaded. -/
def module0 : Module where
  drv := { drv := { ctx := zeroCtx, ga := 0, gb := 1 }, ctx := .null, files := 0 }
  phase := .init
  registered := false

/-- init, any calls, and exit. -/
def lifecycle (args : FileOp → Arg) : Machine (Pool Module Task) (Nat × Mover Env) :=
  Pool.machine (fun m => m = module0) .idle (lifeStep args)

/-- What the driver owes its callers and the kernel. -/
structure Sound (p : Pool Module Task) : Prop where
  /-- No method used `ctx` while it was NULL, freed, or without its mutex. -/
  noMisuse : ∀ c, p.call c ≠ .misused
  /-- An init that failed leaves no device. -/
  withdrawn : p.shared.phase = .failed → p.shared.registered = false

/-! ### The condition -/

/-- A method was called and has not returned. -/
def underWay : Task → Bool
  | .entered _ => true
  | .running l => !returned l
  | _ => false

/-- The device is registered and `ctx` cannot be used yet. -/
def Phase.early : Phase → Bool
  | .initAlloc | .initMutex => true
  | _ => false

/-- There is no device. -/
def Phase.closed : Phase → Bool
  | .init | .failed | .gone => true
  | _ => false

/-- The device is registered and `ctx` can be used. -/
def Phase.usable (phase : Phase) : Bool := !phase.closed && !phase.early

/--
`devm_kzalloc` succeeds, a method takes its first step only when the mutex is
initialised, and no file is open when the device is withdrawn.
-/
def InOrder (p : Pool Module Task) (a : Nat × Mover Env) : Prop :=
  match a.2, p.shared.phase with
  | .call _, phase => underWay (p.call a.1) = true → phase.early = false
  | .module ok, .initAlloc => ok = true
  | .module _, .exitDereg => p.shared.drv.files = 0
  | .module _, _ => True

instance : DecidableRel InOrder := fun p a => by
  unfold InOrder; split <;> infer_instance

/-- The next step does not withdraw the device under a method at `l`. -/
def SparesMethod (phase : Phase) (e : Mover Env) (l : Task) : Prop :=
  match e, phase with
  | .module _, .exitDereg => underWay l = false
  | _, _ => True

instance (phase : Phase) : DecidableRel (SparesMethod phase) := fun e l => by
  unfold SparesMethod; split <;> infer_instance

/-- Besides, no method is under way when the device is withdrawn. -/
def Timely (p : Pool Module Task) (a : Nat × Mover Env) : Prop :=
  InOrder p a ∧ ∀ c, SparesMethod p.shared.phase a.2 (p.call c)

theorem sparesMethod_idle (phase : Phase) (e : Mover Env) : SparesMethod phase e .idle := by
  unfold SparesMethod
  split
  · rfl
  · trivial

/-! ### The invariant under it -/

/-- What `ctx` is in each phase. -/
def Phase.ctx : Phase → Ctx
  | .init | .initAlloc | .failed => .null
  | .initMutex => .raw
  | .gone => .freed
  | _ => .ready

/-- `ctx`, the device and the files in each phase. -/
structure Books (m : Module) : Prop where
  ctx : m.drv.ctx = m.phase.ctx
  registered : m.registered = !m.phase.closed
  files : (m.phase.closed || m.phase.early) = true → m.drv.files = 0

/-- Where a call may be in each phase. -/
structure InTime (phase : Phase) (l : Task) : Prop where
  fine : l ≠ .misused
  closed : phase.closed = true → underWay l = false
  early : phase.early = true → underWay l = true → l = .entered (.file .opening)

/-- What a step of a method can be. -/
inductive TaskMove (c : Nat) : Env → Held → Task → Held → Task → Prop
  | closing {s} :
      TaskMove c (.call (.file .closing)) s .idle { s with files := s.files - 1 }
        (.entered (.file .closing))
  | made {s m} (h : m ≠ .file .closing) : TaskMove c (.call m) s .idle s (.entered m)
  | misuse {s l ok} (hway : underWay l = true) (hctx : s.ctx ≠ .ready) :
      TaskMove c (.run ok) s l s .misused
  | goes {s l ok drv k l'} (hway : underWay l = true) :
      TaskMove c (.run ok) s l { s with drv := drv, files := s.files + k } (.running l')

/-- What a step of init or exit can be. -/
inductive Code : Bool → Module → Module → Prop
  | register {m} (h : m.phase = .init) :
      Code true m { m with phase := .initAlloc, registered := true }
  | refused {m} (h : m.phase = .init) : Code false m { m with phase := .failed }
  | alloc {m drv} (h : m.phase = .initAlloc) :
      Code true m { m with drv := { m.drv with drv := drv, ctx := .raw }, phase := .initMutex }
  | noMem {m} (h : m.phase = .initAlloc) : Code false m { m with phase := .failed }
  | mutexInit {m ok} (h : m.phase = .initMutex) :
      Code ok m { m with drv := { m.drv with ctx := .ready }, phase := .initDev }
  | goOn {m ok drv phase} (h : m.phase.usable = true) (hphase : phase.usable = true) :
      Code ok m { m with drv := { m.drv with drv := drv }, phase := phase }
  | withdraw {m ok} (h : m.phase = .exitDereg) :
      Code ok m { drv := { m.drv with ctx := .freed }, phase := .gone, registered := false }

section Steps

variable {args : FileOp → Arg} {c : Nat} {e : Env} {s s' : Held} {l l' : Task}
  {m m' : Module} {ok : Bool}

theorem underWay_of_usesCtx {l : Call} (h : usesCtx l = true) : underWay (.running l) = true := by
  cases l <;> first | rfl | cases h

theorem underWay_of_step {l : Call} {r : Drv × Call}
    (h : step args c (.run ok) s.drv l = some r) : underWay (.running l) = true := by
  cases l <;> first | rfl | cases h

theorem taskMove_of_step (h : taskStep args c e s l = some (s', l')) : TaskMove c e s l s' l' := by
  unfold taskStep at h
  split at h
  · cases h
    exact .closing
  · rename_i hno
    cases h
    exact .made hno
  · split at h
    · obtain ⟨r, -, hpair⟩ := Option.map_eq_some_iff.mp h
      cases hpair
      exact .goes (k := 0) rfl
    · rename_i hctx
      cases h
      exact .misuse rfl hctx
  · split at h
    · rename_i huse
      cases h
      exact .misuse (underWay_of_usesCtx huse.1) huse.2
    · obtain ⟨r, hr, hpair⟩ := Option.map_eq_some_iff.mp h
      cases hpair
      exact .goes (underWay_of_step hr)
  · cases h

theorem code_of_moduleCode (h : moduleCode ok m = some m') : Code ok m m' := by
  unfold moduleCode at h
  cases hphase : m.phase <;> rw [hphase] at h
  case init =>
    cases ok <;> cases h
    · exact .refused hphase
    · exact .register hphase
  case initAlloc =>
    cases ok <;> cases h
    · exact .noMem hphase
    · exact .alloc hphase
  case initMutex => cases h; exact .mutexInit hphase
  case initSecret =>
    obtain ⟨s, hs, rfl⟩ := Option.map_eq_some_iff.mp h
    obtain ⟨b, -, rfl⟩ := Option.map_eq_some_iff.mp hs
    exact .goOn (by rw [hphase]; rfl) rfl
  case exitDereg => cases h; exact .withdraw hphase
  case initDev | live | exit | exitCtx =>
    cases h
    exact @Code.goOn m ok m.drv.drv _ (by rw [hphase]; rfl) rfl
  case failed | gone => cases h

/-- In the phases between, `ctx` can be used. -/
theorem Phase.ctx_of_usable {phase : Phase} (h : phase.usable = true) : phase.ctx = .ready := by
  cases phase <;> first | rfl | cases h

theorem Phase.usable_of {phase : Phase} (hclosed : phase.closed = false)
    (hearly : phase.early = false) : phase.usable = true := by
  rw [usable, hclosed, hearly]
  rfl

/-- A method under way is past the early phases, unless it has yet to take its first step. -/
theorem InTime.usable {phase : Phase} (hl : InTime phase l) (hway : underWay l = true)
    (hearly : phase.early = false) : phase.usable = true := by
  refine Phase.usable_of ?_ hearly
  by_contra hclosed
  rw [hl.closed (by simpa using hclosed)] at hway
  cases hway

theorem files_of_accepts (h : accepts m e = true) (hno : e ≠ .call (.file .opening)) :
    0 < m.drv.files := by
  unfold accepts at h
  split at h
  · exact absurd rfl hno
  · exact of_decide_eq_true h

/-- A file can only be open while `ctx` can be used. -/
theorem Books.usable (hm : Books m) (h : 0 < m.drv.files) : m.phase.usable = true := by
  by_contra hno
  refine absurd (hm.files ?_) (Nat.ne_of_gt h)
  rw [Phase.usable, ← Bool.not_or, Bool.not_eq_true, Bool.not_eq_false'] at hno
  exact hno

theorem inTime_of_usable {phase : Phase} (h : phase.usable = true) (hl : l ≠ .misused) :
    InTime phase l := by
  rw [Phase.usable, Bool.and_eq_true, Bool.not_eq_true', Bool.not_eq_true'] at h
  refine ⟨hl, fun hclosed => ?_, fun hearly => ?_⟩
  · rw [h.1] at hclosed
    cases hclosed
  · rw [h.2] at hearly
    cases hearly

/-- A step of a method. -/
theorem TaskMove.books (h : TaskMove c e m.drv l s' l') (hm : Books m) (hl : InTime m.phase l)
    (haccepts : l = .idle → accepts m e = true)
    (horder : underWay l = true → m.phase.early = false) :
    Books { m with drv := s' } ∧ InTime m.phase l' := by
  have husable : underWay l = true → m.phase.usable = true := fun hway =>
    hl.usable hway (horder hway)
  cases h with
  | closing =>
      have hin := hm.usable (files_of_accepts (haccepts rfl) nofun)
      refine ⟨⟨hm.ctx, hm.registered, fun hout => ?_⟩, inTime_of_usable hin nofun⟩
      show m.drv.files - 1 = 0
      rw [hm.files hout]
  | @made _ meth hno =>
      refine ⟨⟨hm.ctx, hm.registered, hm.files⟩, ?_⟩
      by_cases hopen : meth = .file .opening
      · -- `open` may come early
        subst hopen
        have hreg : m.registered = true := haccepts rfl
        refine ⟨nofun, fun hclosed => ?_, fun _ _ => rfl⟩
        rw [hm.registered, hclosed] at hreg
        cases hreg
      · refine inTime_of_usable (hm.usable (files_of_accepts (haccepts rfl) fun heq => ?_)) nofun
        cases heq
        exact hopen rfl
  | misuse hway hctx =>
      rw [hm.ctx] at hctx
      exact absurd (Phase.ctx_of_usable (husable hway)) hctx
  | goes hway =>
      have hin := husable hway
      refine ⟨⟨hm.ctx, hm.registered, fun hout => ?_⟩, inTime_of_usable hin nofun⟩
      rw [Phase.usable, ← Bool.not_or, hout] at hin
      cases hin

/-- A step of init or exit. -/
theorem Code.books (h : Code ok m m') (hm : Books m) (hok : m.phase = .initAlloc → ok = true)
    (hfiles : m.phase = .exitDereg → m.drv.files = 0) : Books m' := by
  have hctx := hm.ctx
  have hreg := hm.registered
  cases h with
  | register hphase =>
      rw [hphase] at hctx
      exact ⟨hctx, rfl, fun _ => hm.files (by rw [hphase]; rfl)⟩
  | refused hphase =>
      rw [hphase] at hctx hreg
      exact ⟨hctx, hreg, fun _ => hm.files (by rw [hphase]; rfl)⟩
  | alloc hphase =>
      rw [hphase] at hreg
      exact ⟨rfl, hreg, fun _ => hm.files (by rw [hphase]; rfl)⟩
  | noMem hphase => cases hok hphase
  | mutexInit hphase =>
      rw [hphase] at hreg
      exact ⟨rfl, hreg, fun _ => hm.files (by rw [hphase]; rfl)⟩
  | @goOn m ok drv phase hin hphase =>
      rw [Phase.ctx_of_usable hin] at hctx
      have hno : ∀ phase : Phase, phase.usable = true → phase.closed = false := by
        intro phase h
        rw [Phase.usable, Bool.and_eq_true, Bool.not_eq_true'] at h
        exact h.1
      refine ⟨?_, ?_, fun hout => ?_⟩
      · show m.drv.ctx = phase.ctx
        rw [hctx, Phase.ctx_of_usable hphase]
      · show m.registered = !phase.closed
        rw [hreg, hno _ hin, hno _ hphase]
      · rw [Phase.usable, ← Bool.not_or, show (phase.closed || phase.early) = true from hout]
          at hphase
        cases hphase
  | withdraw hphase => exact ⟨rfl, rfl, fun _ => hfiles hphase⟩

/-- A method that stands still. -/
theorem Code.inTime (h : Code ok m m') (hl : InTime m.phase l)
    (hok : m.phase = .initAlloc → ok = true)
    (hfree : m.phase = .exitDereg → underWay l = false) : InTime m'.phase l := by
  cases h with
  | register hphase | refused hphase =>
      rw [hphase] at hl
      have hnot := hl.closed rfl
      refine ⟨hl.fine, fun _ => hnot, fun _ hway => ?_⟩
      rw [hnot] at hway
      cases hway
  | alloc hphase =>
      rw [hphase] at hl
      exact ⟨hl.fine, nofun, fun _ => hl.early rfl⟩
  | noMem hphase => cases hok hphase
  | mutexInit hphase => exact ⟨hl.fine, nofun, nofun⟩
  | goOn hin hphase => exact inTime_of_usable hphase hl.fine
  | withdraw hphase => exact ⟨hl.fine, fun _ => hfree hphase, nofun⟩

end Steps

/-! ### In every run -/

variable {args : FileOp → Arg}

theorem books_kept :
    Pool.Kept (lifeStep args) Timely Books (fun _ m l => InTime m.phase l) fun _ _ _ _ => True where
  own p c e m' l' hinv htime hstep := by
    have hl := hinv.each c
    have horder := htime.1
    unfold InOrder at horder
    generalize p.call c = l at hstep horder hl
    cases Loadable.moved_of_step hstep with
    | call haccepts htask => exact (taskMove_of_step htask).books hinv.shared hl haccepts horder
    | @module _ _ ok hcode =>
        have hc := code_of_moduleCode hcode
        have hok : p.shared.phase = .initAlloc → ok = true := fun hphase => by
          rw [hphase] at horder
          exact horder
        refine ⟨hc.books hinv.shared hok fun hphase => ?_, hc.inTime hl hok fun _ => rfl⟩
        rw [hphase] at horder
        exact horder
  others p c e m' l' d hinv htime hstep hne := by
    have hd := hinv.each d
    have hspare := htime.2 d
    have horder := htime.1
    unfold InOrder at horder
    generalize p.call c = l at hstep horder
    cases Loadable.moved_of_step hstep with
    | call haccepts htask => exact hd
    | module hcode =>
        refine (code_of_moduleCode hcode).inTime hd (fun hphase => ?_) fun hphase => ?_
        · rw [hphase] at horder
          exact horder
        · rw [hphase] at hspare
          exact hspare
  pair _ _ _ _ _ _ _ _ _ _ := ⟨trivial, trivial⟩

theorem inductive_inTime : (lifecycle args).Inductive Timely
    (Pool.Inv Books (fun _ m l => InTime m.phase l) fun _ _ _ _ => True) := by
  refine books_kept.invariant (fun m hm => ?_) (fun m c hm => ?_) fun _ _ => trivial
  · subst hm
    exact ⟨rfl, rfl, fun _ => rfl⟩
  · exact ⟨nofun, fun _ => rfl, fun _ hway => by cases hway⟩

/-- **In good order no method misuses `ctx`, and an init that fails leaves no device.** -/
theorem lifecycle_sound {p : Pool Module Task} (h : (lifecycle args).ReachableBy Timely p) :
    Sound p := by
  have hinv := inductive_inTime.holds h
  refine ⟨fun c => (hinv.each c).fine, fun hphase => ?_⟩
  rw [hinv.shared.registered, hphase]
  rfl

/-! ### Two runs -/

/-- The module is about to be initialised and no call under way. -/
def lifePool0 : Pool Module Task := { shared := module0, call := fun _ => .idle }

theorem lifecycle_init : (lifecycle args).init lifePool0 := ⟨rfl, fun _ => rfl⟩

/-- `k` steps of init or exit, all of them going well. -/
def moduleSteps (k : Nat) : List (Nat × Mover Env) := List.replicate k (4, .module true)

/-- Call `c` is made, and then takes `k` steps. -/
def callSteps (c : Nat) (m : Method) (k : Nat) : List (Nat × Mover Env) :=
  (c, .call (.call m)) :: List.replicate k (c, .call (.run true))

/-- A file is opened, written, read and closed between init and exit. -/
def orderly : List (Nat × Mover Env) :=
  moduleSteps 5 ++ callSteps 0 (.file .opening) 4 ++ callSteps 1 (.write [97, 0]) 5 ++
    callSteps 2 (.read 128) 4 ++ callSteps 3 (.file .closing) 4 ++ moduleSteps 4

def orderlyRun : (lifecycle fromLast).Run 30 :=
  .ofActs lifePool0 orderly lifecycle_init (by decide +kernel)

/-- The file is opened before `ctx` is allocated. -/
def hasty : List (Nat × Mover Env) := moduleSteps 1 ++ callSteps 0 (.file .opening) 1

def hastyRun (args : FileOp → Arg) : (lifecycle args).Run 3 :=
  .ofActs lifePool0 hasty lifecycle_init (by
    revert args
    decide +kernel)

theorem orderlyRun_timely : orderlyRun.Meets Timely := by
  intro i hi
  have horder : ∀ i, i < 30 → InOrder (orderlyRun.state i) (orderlyRun.act i) := by decide +kernel
  have hfive : ∀ i, i < 30 → ∀ c, c < 5 → SparesMethod (orderlyRun.state i).shared.phase
      (orderlyRun.act i).2 ((orderlyRun.state i).call c) := by decide +kernel
  have hact : ∀ i, i < 30 → (orderlyRun.act i).1 < 5 := by decide +kernel
  exact ⟨horder i hi,
    Pool.forall_call_of_lt orderlyRun hact (sparesMethod_idle _ _) hi.le (hfive i hi)⟩

theorem sound_orderlyRun : Sound (orderlyRun.state 30) :=
  lifecycle_sound (orderlyRun.reachableBy orderlyRun_timely 30 (le_refl _))

theorem hastyRun_misused (args : FileOp → Arg) :
    ((hastyRun args).state 3).call 0 = .misused := by
  revert args
  decide +kernel

/-- `open` loads `ctx->dev` through NULL. -/
theorem not_sound : ¬ ∃ args, ∀ p, (lifecycle args).Reachable p → Sound p := by
  intro h
  obtain ⟨args, h⟩ := h
  exact (h _ ((hastyRun args).reachable 3 (le_refl _))).noMisuse 0 (hastyRun_misused args)

end Lkp.Secret.Mutex
