/-
The rdwr driver that protects its data with RCU.

`gdata` points to the current object.  A writer takes `gdata_lock`, copies that
object, updates the copy, publishes it, drops the lock, waits for a grace period
and frees the object it replaced.  The read method looks twice: `reader()` does
it inside a read-side section, and after that `SHOW_DATA(gdata)` loads the
pointer again for each of the five fields, outside any section.

Every load of `gdata`, every field access, the copy, every store, and every lock,
section and grace period operation is a step.  An access to a freed object ends
the call in one of three places, one for each part of the code, so that what is
said of one part does not depend on another.

Three lists record what happened to the objects: which were published and with
what contents, which call replaced which, which call freed which.
-/
import Lkp.Kernel.Basic
import Lkp.Concurrency.Pool
import Lkp.Concurrency.Lock
import Lkp.Concurrency.Rcu
import Lkp.Memory.Heap

namespace Lkp.RcuRdwr

/-! ### The data -/

/-- `struct global_data`. -/
structure GlobalData where
  gpsLock : Int
  lat : Int
  longit : Int
  alt : Int
  issueInL6 : Int
  deriving DecidableEq

/-- Its fields. -/
inductive Field
  | gpsLock
  | lat
  | longit
  | alt
  | issueInL6
  deriving DecidableEq

namespace GlobalData

/-- Load a field. -/
def get (d : GlobalData) : Field → Int
  | .gpsLock => d.gpsLock
  | .lat => d.lat
  | .longit => d.longit
  | .alt => d.alt
  | .issueInL6 => d.issueInL6

/-- Store into a field. -/
def set (d : GlobalData) (f : Field) (v : Int) : GlobalData :=
  match f with
  | .gpsLock => { d with gpsLock := v }
  | .lat => { d with lat := v }
  | .longit => { d with longit := v }
  | .alt => { d with alt := v }
  | .issueInL6 => { d with issueInL6 := v }

/-- What `kzalloc` hands over. -/
def zero : GlobalData := { gpsLock := 0, lat := 0, longit := 0, alt := 0, issueInL6 := 0 }

end GlobalData

/-- The module's globals, and the record of its objects. -/
structure Drv where
  heap : Heap GlobalData
  gdata : Nat
  gdataLock : Option Nat
  rcu : Rcu
  /-- Each object published, with its contents, newest first. -/
  published : List (Nat × GlobalData)
  /-- Which call replaced which object. -/
  replaced : List (Nat × Nat)
  /-- Which call freed which object. -/
  freed : List (Nat × Nat)

/-! ### The methods -/

/-- What the world answers: a call, or whether `kzalloc` succeeds. -/
inductive Env
  | read (count : Nat)
  | write (count : Nat)
  | run (ok : Bool)
  deriving DecidableEq

instance : Inhabited Env := ⟨.run true⟩

/-- A field with the value that was loaded. -/
abbrev Seen := List (Field × Int)

/-- A field with the pointer it was loaded through and the value. -/
abbrev Shown := List (Field × Nat × Int)

/-- Where a call has got to. -/
inductive Call
  | idle
  /-- `read_miscdrv_rdwr` entered; `rcu_read_lock` comes next. -/
  | read (count : Nat)
  /-- In the section with a ticket; `p = rcu_dereference(gdata)` comes next. -/
  | readerLocked (count ticket : Nat)
  /-- The fields of `p` yet to be loaded, and those that are. -/
  | reader (count ticket p : Nat) (todo : List Field) (seen : Seen)
  /-- `reader()` is through. -/
  | readerRet (count p : Nat) (seen : Seen)
  /-- In `SHOW_DATA`; the next load of `gdata` is for the head of `todo`. -/
  | showLoad (count : Nat) (todo : List Field) (seen : Shown)
  /-- The field `f` of the object just loaded comes next. -/
  | showUse (count : Nat) (f : Field) (todo : List Field) (gd : Nat) (seen : Shown)
  /-- The line is printed and `count` returned. -/
  | readRet (count : Nat) (seen : Shown)
  /-- `write_miscdrv_rdwr` entered; `spin_lock(&gdata_lock)` comes next. -/
  | write (count : Nat)
  | writerLocked (count : Nat)
  /-- `gd` is loaded; `kzalloc` comes next. -/
  | writerGd (count gd : Nat)
  /-- `kzalloc` failed, the lock is still held. -/
  | writerNoMem (count : Nat)
  /-- `gd_new` is allocated; `*gd_new = *gd` comes next. -/
  | writerNew (count gd gdNew : Nat)
  /-- The stores into `gd_new` yet to be made. -/
  | writerStore (count gd gdNew : Nat) (todo : List (Field × Int))
  /-- `gd_new` is published, the lock is still held. -/
  | writerUnlock (count gd : Nat)
  /-- `synchronize_rcu` comes next. -/
  | writerSync (count gd : Nat)
  /-- Waiting for the sections with a ticket below `bound`. -/
  | writerWait (count gd bound : Nat)
  /-- `kfree(gd)` comes next. -/
  | writerFree (count gd : Nat)
  /-- `writer()` returned. -/
  | writerRet (count : Nat) (ret : Int)
  /-- `write_miscdrv_rdwr` returned `count`. -/
  | writeRet (count : Nat)
  /-- `reader()`, `writer()` or `SHOW_DATA` touched a freed object. -/
  | readerOops
  | writerOops
  | showOops
  deriving DecidableEq

/-- The fields `reader()` loads in any case. -/
def readerFields : List Field := [.issueInL6, .gpsLock]

/-- What it loads besides, depending on what `gps_lock` was. -/
def readerMore (f : Field) (v : Int) : List Field :=
  if f = .gpsLock ∧ v ≠ 0 then [.lat, .longit, .alt] else []

/-- The stores `writer()` makes into its copy. -/
def writerStores : List (Field × Int) :=
  [(.lat, 129780), (.longit, 775952), (.alt, 920), (.issueInL6, 1)]

/-- The arguments of `SHOW_DATA` as they are written. -/
def showFields : List Field := [.gpsLock, .lat, .longit, .alt, .issueInL6]

/-- `reader()`, one step at a time. -/
def readerStep (s : Drv) : Call → Option (Drv × Call)
  | .read count => some ({ s with rcu := s.rcu.lock }, .readerLocked count s.rcu.next)
  | .readerLocked count t => some (s, .reader count t s.gdata readerFields [])
  | .reader count t p (f :: todo) seen =>
      match s.heap.obj p with
      | some d =>
          some (s, .reader count t p (todo ++ readerMore f (d.get f)) (seen ++ [(f, d.get f)]))
      | none => some (s, .readerOops)
  | .reader count t p [] seen => some ({ s with rcu := s.rcu.unlock t }, .readerRet count p seen)
  | _ => none

/-- `SHOW_DATA(gdata)`, one step at a time, the arguments evaluated in the order `args`. -/
def showStep (args : List Field) (s : Drv) : Call → Option (Drv × Call)
  | .readerRet count _ _ => some (s, .showLoad count args [])
  | .showLoad count (f :: todo) seen => some (s, .showUse count f todo s.gdata seen)
  | .showLoad count [] seen => some (s, .readRet count seen)
  | .showUse count f todo gd seen =>
      match s.heap.obj gd with
      | some d => some (s, .showLoad count todo (seen ++ [(f, gd, d.get f)]))
      | none => some (s, .showOops)
  | _ => none

/-- `rcu_assign_pointer(gdata, gd_new)`, where `gd_new` holds `d`. -/
def Drv.publish (s : Drv) (c gd gdNew : Nat) (d : GlobalData) : Drv :=
  { s with
    gdata := gdNew
    published := (gdNew, d) :: s.published
    replaced := (c, gd) :: s.replaced }

/-- `kfree(gd)`. -/
def Drv.kfree (s : Drv) (c gd : Nat) : Drv :=
  { s with heap := s.heap.free gd, freed := (c, gd) :: s.freed }

/-- `writer()`, one step at a time; `ok` is `kzalloc` going well. -/
def writerStep (c : Nat) (ok : Bool) (s : Drv) : Call → Option (Drv × Call)
  | .write count =>
      if s.gdataLock = none then some ({ s with gdataLock := some c }, .writerLocked count)
      else none
  | .writerLocked count => some (s, .writerGd count s.gdata)
  | .writerGd count gd =>
      if ok then
        some ({ s with heap := s.heap.alloc .zero }, .writerNew count gd s.heap.brk)
      else some (s, .writerNoMem count)
  | .writerNoMem count => some ({ s with gdataLock := none }, .writerRet count (-ENOMEM))
  | .writerNew count gd gdNew =>
      match s.heap.obj gd, s.heap.obj gdNew with
      | some d, some _ =>
          some ({ s with heap := s.heap.store gdNew d }, .writerStore count gd gdNew writerStores)
      | _, _ => some (s, .writerOops)
  | .writerStore count gd gdNew ((f, v) :: todo) =>
      match s.heap.obj gdNew with
      | some d =>
          some ({ s with heap := s.heap.store gdNew (d.set f v) },
            .writerStore count gd gdNew todo)
      | none => some (s, .writerOops)
  | .writerStore count gd gdNew [] =>
      match s.heap.obj gdNew with
      | some d => some (s.publish c gd gdNew d, .writerUnlock count gd)
      | none => some (s, .writerOops)
  | .writerUnlock count gd => some ({ s with gdataLock := none }, .writerSync count gd)
  | .writerSync count gd => some (s, .writerWait count gd s.rcu.next)
  | .writerWait count gd bound =>
      if s.rcu.Over bound then some (s, .writerFree count gd) else none
  | .writerFree count gd => some (s.kfree c gd, .writerRet count 0)
  | .writerRet count _ => some (s, .writeRet count)
  | _ => none

/-- The driver's methods, one step of a call at a time. -/
def step (args : List Field) : CallStep Drv Call Env := fun c e s l =>
  match e, l with
  | .read count, .idle => some (s, .read count)
  | .write count, .idle => some (s, .write count)
  | .run ok, l => (readerStep s l).or ((showStep args s l).or (writerStep c ok s l))
  | _, _ => none

/-- The object init allocates: zeroed, with `gps_lock` set. -/
def firstData : GlobalData := GlobalData.zero.set .gpsLock 1

/-- The driver after init. -/
def drv0 : Drv where
  heap := { obj := Function.update (fun _ => none) 0 (some firstData), brk := 1 }
  gdata := 0
  gdataLock := none
  rcu := .fresh
  published := [(0, firstData)]
  replaced := []
  freed := []

/-- Any calls of the two methods, from init on. -/
def machine (args : List Field) : Machine (Pool Drv Call) (Nat × Env) :=
  Pool.machine (fun s => s = drv0) .idle (step args)

/-! ### What one step can do -/

/-- The steps of a call, one constructor for each way out of a place. -/
inductive Move (args : List Field) (c : Nat) : Drv → Call → Drv → Call → Prop
  | callRead {s} (count) : Move args c s .idle s (.read count)
  | callWrite {s} (count) : Move args c s .idle s (.write count)
  | readLock {s} (count) :
      Move args c s (.read count) { s with rcu := s.rcu.lock } (.readerLocked count s.rcu.next)
  | deref {s} (count t) :
      Move args c s (.readerLocked count t) s (.reader count t s.gdata readerFields [])
  | load {s} (count t p f todo seen) {d} (h : s.heap.obj p = some d) :
      Move args c s (.reader count t p (f :: todo) seen) s
        (.reader count t p (todo ++ readerMore f (d.get f)) (seen ++ [(f, d.get f)]))
  | loadOops {s} (count t p f todo seen) (h : s.heap.obj p = none) :
      Move args c s (.reader count t p (f :: todo) seen) s .readerOops
  | readUnlock {s} (count t p seen) :
      Move args c s (.reader count t p [] seen) { s with rcu := s.rcu.unlock t }
        (.readerRet count p seen)
  | showBegin {s} (count p seen) :
      Move args c s (.readerRet count p seen) s (.showLoad count args [])
  | showLoad {s} (count f todo seen) :
      Move args c s (.showLoad count (f :: todo) seen) s (.showUse count f todo s.gdata seen)
  | showEnd {s} (count seen) : Move args c s (.showLoad count [] seen) s (.readRet count seen)
  | showUse {s} (count f todo gd seen) {d} (h : s.heap.obj gd = some d) :
      Move args c s (.showUse count f todo gd seen) s
        (.showLoad count todo (seen ++ [(f, gd, d.get f)]))
  | showOops {s} (count f todo gd seen) (h : s.heap.obj gd = none) :
      Move args c s (.showUse count f todo gd seen) s .showOops
  | lock {s} (count) (h : s.gdataLock = none) :
      Move args c s (.write count) { s with gdataLock := some c } (.writerLocked count)
  | fetch {s} (count) : Move args c s (.writerLocked count) s (.writerGd count s.gdata)
  | alloc {s} (count gd) :
      Move args c s (.writerGd count gd) { s with heap := s.heap.alloc .zero }
        (.writerNew count gd s.heap.brk)
  | noMem {s} (count gd) : Move args c s (.writerGd count gd) s (.writerNoMem count)
  | giveUp {s} (count) :
      Move args c s (.writerNoMem count) { s with gdataLock := none } (.writerRet count (-ENOMEM))
  | copy {s} (count gd gdNew) {d d'} (h : s.heap.obj gd = some d)
      (hnew : s.heap.obj gdNew = some d') :
      Move args c s (.writerNew count gd gdNew) { s with heap := s.heap.store gdNew d }
        (.writerStore count gd gdNew writerStores)
  | copyOops {s} (count gd gdNew) (h : s.heap.obj gd = none ∨ s.heap.obj gdNew = none) :
      Move args c s (.writerNew count gd gdNew) s .writerOops
  | store {s} (count gd gdNew f v todo) {d} (h : s.heap.obj gdNew = some d) :
      Move args c s (.writerStore count gd gdNew ((f, v) :: todo))
        { s with heap := s.heap.store gdNew (d.set f v) } (.writerStore count gd gdNew todo)
  | storeOops {s} (count gd gdNew todo) (h : s.heap.obj gdNew = none) :
      Move args c s (.writerStore count gd gdNew todo) s .writerOops
  | publish {s} (count gd gdNew) {d} (h : s.heap.obj gdNew = some d) :
      Move args c s (.writerStore count gd gdNew []) (s.publish c gd gdNew d)
        (.writerUnlock count gd)
  | unlock {s} (count gd) :
      Move args c s (.writerUnlock count gd) { s with gdataLock := none } (.writerSync count gd)
  | sync {s} (count gd) :
      Move args c s (.writerSync count gd) s (.writerWait count gd s.rcu.next)
  | synced {s} (count gd bound) (h : s.rcu.Over bound) :
      Move args c s (.writerWait count gd bound) s (.writerFree count gd)
  | kfree {s} (count gd) :
      Move args c s (.writerFree count gd) (s.kfree c gd) (.writerRet count 0)
  | writeEnd {s} (count ret) : Move args c s (.writerRet count ret) s (.writeRet count)

section Moves

variable {args : List Field} {c : Nat} {ok : Bool} {s s' : Drv} {l l' : Call}

theorem move_of_readerStep (h : readerStep s l = some (s', l')) : Move args c s l s' l' := by
  unfold readerStep at h
  split at h
  case h_3 =>
    split at h <;> cases h
    · exact .load _ _ _ _ _ _ ‹_›
    · exact .loadOops _ _ _ _ _ _ ‹_›
  all_goals cases h
  all_goals constructor

theorem move_of_showStep (h : showStep args s l = some (s', l')) : Move args c s l s' l' := by
  unfold showStep at h
  split at h
  case h_4 =>
    split at h <;> cases h
    · exact .showUse _ _ _ _ _ ‹_›
    · exact .showOops _ _ _ _ _ ‹_›
  all_goals cases h
  all_goals constructor

theorem move_of_writerStep (h : writerStep c ok s l = some (s', l')) :
    Move args c s l s' l' := by
  unfold writerStep at h
  split at h
  case h_1 =>
    split at h <;> cases h
    exact .lock _ ‹_›
  case h_3 =>
    split at h <;> cases h
    · exact .alloc _ _
    · exact .noMem _ _
  case h_5 count gd gdNew =>
    split at h <;> cases h
    · exact .copy _ _ _ ‹_› ‹_›
    · rename_i hno
      refine .copyOops _ _ _ ?_
      cases hgd : s.heap.obj gd with
      | none => exact Or.inl rfl
      | some d =>
          cases hnew : s.heap.obj gdNew with
          | none => exact Or.inr rfl
          | some d' => exact absurd hnew (hno d d' hgd)
  case h_6 =>
    split at h <;> cases h
    · exact .store _ _ _ _ _ _ ‹_›
    · exact .storeOops _ _ _ _ ‹_›
  case h_7 =>
    split at h <;> cases h
    · exact .publish _ _ _ ‹_›
    · exact .storeOops _ _ _ _ ‹_›
  case h_10 =>
    split at h <;> cases h
    exact .synced _ _ _ ‹_›
  all_goals cases h
  all_goals constructor

theorem move_of_step {e : Env} (h : step args c e s l = some (s', l')) : Move args c s l s' l' := by
  unfold step at h
  split at h
  · cases h
    exact .callRead _
  · cases h
    exact .callWrite _
  · rcases Option.or_eq_some_iff.mp h with h1 | ⟨-, h2⟩
    · exact move_of_readerStep h1
    · rcases Option.or_eq_some_iff.mp h2 with h3 | ⟨-, h4⟩
      · exact move_of_showStep h3
      · exact move_of_writerStep h4
  · cases h

end Moves

end Lkp.RcuRdwr
