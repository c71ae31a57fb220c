/-
The rdwr driver that protects its data with a reader-writer lock.

`gd` points to the one object, and the lock is part of it.  A writer stores its
four values inside the write-locked section.  The read method looks twice, as in
the driver that uses RCU: `reader()` does it inside a read-locked section, and
after that `SHOW_DATA()` goes through the object once more, field by field, with
the lock dropped.

Every load of `gd`, every load and store of a field, and every lock operation is a
step.  An access that finds no object ends the call (`Call.oops`).  The fields and
the order in which the functions go through them are those of the RCU driver.
-/
import Lkp.Concurrency.RwLock
import Lkp.RcuRdwr.Driver

namespace Lkp.RwRdwr

open RcuRdwr (GlobalData Field Seen readerFields readerMore writerStores)

/-- `struct global_data`: the values and the lock. -/
structure Obj where
  data : GlobalData
  rwlock : RwLock
  deriving DecidableEq

/-- Memory as `kzalloc` hands it over; a zeroed `rwlock_t` is unlocked. -/
def Obj.zero : Obj := { data := .zero, rwlock := .unlocked }

/-- The module's global, and the record of what its object held and of what was freed. -/
structure Drv where
  heap : Heap Obj
  gd : Nat
  /-- The values each time a writer left, newest first, down to those of init. -/
  held : List GlobalData
  /-- The addresses passed to `kfree`. -/
  freed : List Nat

/-- What the world answers: a call, or that a call goes on. -/
inductive Env
  | read (count : Nat)
  | write (count : Nat)
  | run
  deriving DecidableEq

instance : Inhabited Env := ⟨.run⟩

/-- Where a call has got to. -/
inductive Call
  | idle
  /-- `read_miscdrv_rdwr` entered; the load of `gd` for `reader(gd)` comes next. -/
  | read (count : Nat)
  /-- `read_lock(&gd->rwlock)` comes next. -/
  | readerGd (count gd : Nat)
  /-- In the section: the fields yet to be loaded, and those that are. -/
  | reader (count gd : Nat) (todo : List Field) (seen : Seen)
  /-- `reader()` is through. -/
  | readerRet (count : Nat) (seen : Seen)
  /-- In `SHOW_DATA`; the next load of `gd` is for the head of `todo`. -/
  | showLoad (count : Nat) (todo : List Field) (seen : Seen)
  /-- The field `f` of the object just loaded comes next. -/
  | showUse (count : Nat) (f : Field) (todo : List Field) (gd : Nat) (seen : Seen)
  /-- The line is printed and `count` returned. -/
  | readRet (count : Nat) (seen : Seen)
  /-- `write_miscdrv_rdwr` entered; the load of `gd` for `writer(gd)` comes next. -/
  | write (count : Nat)
  /-- `write_lock(&gd->rwlock)` comes next. -/
  | writerGd (count gd : Nat)
  /-- In the section: the stores yet to be made. -/
  | writerStore (count gd : Nat) (todo : List (Field × Int))
  /-- `write_miscdrv_rdwr` returned `count`. -/
  | writeRet (count : Nat)
  /-- The access went through NULL or to a freed object. -/
  | oops
  deriving DecidableEq

/-- Change the object at `gd`. -/
def Drv.put (s : Drv) (gd : Nat) (o : Obj) : Drv := { s with heap := s.heap.store gd o }

/-- `write_unlock`, where the object at `gd` is `o`. -/
def Drv.leave (s : Drv) (gd : Nat) (o : Obj) : Drv :=
  { s.put gd { o with rwlock := o.rwlock.writeUnlock } with held := o.data :: s.held }

/-- `read_miscdrv_rdwr`, one step at a time, the arguments printed evaluated in the order `args`. -/
def readStep (args : List Field) (c : Nat) (s : Drv) : Call → Option (Drv × Call)
  | .read count => some (s, .readerGd count s.gd)
  | .readerGd count gd =>
      match s.heap.obj gd with
      | some o => (o.rwlock.readLock c).map fun k =>
          (s.put gd { o with rwlock := k }, .reader count gd readerFields [])
      | none => some (s, .oops)
  | .reader count gd (f :: todo) seen =>
      match s.heap.obj gd with
      | some o =>
          some (s, .reader count gd (todo ++ readerMore f (o.data.get f))
            (seen ++ [(f, o.data.get f)]))
      | none => some (s, .oops)
  | .reader count gd [] seen =>
      match s.heap.obj gd with
      | some o =>
          some (s.put gd { o with rwlock := o.rwlock.readUnlock c }, .readerRet count seen)
      | none => some (s, .oops)
  | .readerRet count _ => some (s, .showLoad count args [])
  | .showLoad count (f :: todo) seen => some (s, .showUse count f todo s.gd seen)
  | .showLoad count [] seen => some (s, .readRet count seen)
  | .showUse count f todo gd seen =>
      match s.heap.obj gd with
      | some o => some (s, .showLoad count todo (seen ++ [(f, o.data.get f)]))
      | none => some (s, .oops)
  | _ => none

/-- `write_miscdrv_rdwr`, one step at a time. -/
def writeStep (c : Nat) (s : Drv) : Call → Option (Drv × Call)
  | .write count => some (s, .writerGd count s.gd)
  | .writerGd count gd =>
      match s.heap.obj gd with
      | some o => (o.rwlock.writeLock c).map fun k =>
          (s.put gd { o with rwlock := k }, .writerStore count gd writerStores)
      | none => some (s, .oops)
  | .writerStore count gd ((f, v) :: todo) =>
      match s.heap.obj gd with
      | some o => some (s.put gd { o with data := o.data.set f v }, .writerStore count gd todo)
      | none => some (s, .oops)
  | .writerStore count gd [] =>
      match s.heap.obj gd with
      | some o => some (s.leave gd o, .writeRet count)
      | none => some (s, .oops)
  | _ => none

/-- The driver's methods, one step of a call at a time. -/
def step (args : List Field) : CallStep Drv Call Env := fun c e s l =>
  match e, l with
  | .read count, .idle => some (s, .read count)
  | .write count, .idle => some (s, .write count)
  | .run, l => (readStep args c s l).or (writeStep c s l)
  | _, _ => none

/-- The object init leaves: zeroed, with `gps_lock` set and the lock free. -/
def firstObj : Obj := { Obj.zero with data := RcuRdwr.firstData }

/-- The driver after init; address 0 is NULL. -/
def drv0 : Drv where
  heap := { obj := Function.update (fun _ => none) 1 (some firstObj), brk := 2 }
  gd := 1
  held := [RcuRdwr.firstData]
  freed := []

/-- Any calls of the two methods, from init on. -/
def machine (args : List Field) : Machine (Pool Drv Call) (Nat × Env) :=
  Pool.machine (fun s => s = drv0) .idle (step args)

/-! ### What one step can do -/

/-- The pointer a call has loaded and goes through next. -/
def pointer : Call → Option Nat
  | .readerGd _ gd | .reader _ gd _ _ | .showUse _ _ _ gd _ | .writerGd _ gd
  | .writerStore _ gd _ => some gd
  | _ => none

/-- The steps of a call, one constructor for each way out of a place. -/
inductive Move (args : List Field) (c : Nat) : Drv → Call → Drv → Call → Prop
  | callRead {s} (count) : Move args c s .idle s (.read count)
  | callWrite {s} (count) : Move args c s .idle s (.write count)
  | readGd {s} (count) : Move args c s (.read count) s (.readerGd count s.gd)
  | readLock {s} (count gd) {o k} (h : s.heap.obj gd = some o) (hk : o.rwlock.readLock c = some k) :
      Move args c s (.readerGd count gd) (s.put gd { o with rwlock := k })
        (.reader count gd readerFields [])
  | load {s} (count gd f todo seen) {o} (h : s.heap.obj gd = some o) :
      Move args c s (.reader count gd (f :: todo) seen) s
        (.reader count gd (todo ++ readerMore f (o.data.get f)) (seen ++ [(f, o.data.get f)]))
  | readUnlock {s} (count gd seen) {o} (h : s.heap.obj gd = some o) :
      Move args c s (.reader count gd [] seen)
        (s.put gd { o with rwlock := o.rwlock.readUnlock c }) (.readerRet count seen)
  | showBegin {s} (count seen) : Move args c s (.readerRet count seen) s (.showLoad count args [])
  | showLoad {s} (count f todo seen) :
      Move args c s (.showLoad count (f :: todo) seen) s (.showUse count f todo s.gd seen)
  | showEnd {s} (count seen) : Move args c s (.showLoad count [] seen) s (.readRet count seen)
  | showUse {s} (count f todo gd seen) {o} (h : s.heap.obj gd = some o) :
      Move args c s (.showUse count f todo gd seen) s
        (.showLoad count todo (seen ++ [(f, o.data.get f)]))
  | writeGd {s} (count) : Move args c s (.write count) s (.writerGd count s.gd)
  | writeLock {s} (count gd) {o k} (h : s.heap.obj gd = some o)
      (hk : o.rwlock.writeLock c = some k) :
      Move args c s (.writerGd count gd) (s.put gd { o with rwlock := k })
        (.writerStore count gd writerStores)
  | store {s} (count gd f v todo) {o} (h : s.heap.obj gd = some o) :
      Move args c s (.writerStore count gd ((f, v) :: todo))
        (s.put gd { o with data := o.data.set f v }) (.writerStore count gd todo)
  | writeUnlock {s} (count gd) {o} (h : s.heap.obj gd = some o) :
      Move args c s (.writerStore count gd []) (s.leave gd o) (.writeRet count)
  | oops {s l} (gd) (hl : pointer l = some gd) (h : s.heap.obj gd = none) : Move args c s l s .oops

section Moves

variable {args : List Field} {c : Nat} {s s' : Drv} {l l' : Call}

theorem move_of_readStep (h : readStep args c s l = some (s', l')) : Move args c s l s' l' := by
  unfold readStep at h
  split at h
  case h_2 =>
    split at h
    · obtain ⟨k, hk, hpair⟩ := Option.map_eq_some_iff.mp h
      cases hpair
      exact .readLock _ _ ‹_› hk
    · cases h
      exact .oops _ rfl ‹_›
  case h_3 =>
    split at h <;> cases h
    · exact .load _ _ _ _ _ ‹_›
    · exact .oops _ rfl ‹_›
  case h_4 =>
    split at h <;> cases h
    · exact .readUnlock _ _ _ ‹_›
    · exact .oops _ rfl ‹_›
  case h_8 =>
    split at h <;> cases h
    · exact .showUse _ _ _ _ _ ‹_›
    · exact .oops _ rfl ‹_›
  all_goals cases h
  all_goals constructor

theorem move_of_writeStep (h : writeStep c s l = some (s', l')) : Move args c s l s' l' := by
  unfold writeStep at h
  split at h
  case h_2 =>
    split at h
    · obtain ⟨k, hk, hpair⟩ := Option.map_eq_some_iff.mp h
      cases hpair
      exact .writeLock _ _ ‹_› hk
    · cases h
      exact .oops _ rfl ‹_›
  case h_3 =>
    split at h <;> cases h
    · exact .store _ _ _ _ _ ‹_›
    · exact .oops _ rfl ‹_›
  case h_4 =>
    split at h <;> cases h
    · exact .writeUnlock _ _ ‹_›
    · exact .oops _ rfl ‹_›
  all_goals cases h
  all_goals constructor

theorem move_of_step {e : Env} (h : step args c e s l = some (s', l')) : Move args c s l s' l' := by
  unfold step at h
  split at h
  · cases h
    exact .callRead _
  · cases h
    exact .callWrite _
  · rcases Option.or_eq_some_iff.mp h with h1 | ⟨-, h2⟩
    · exact move_of_readStep h1
    · exact move_of_writeStep h2
  · cases h

end Moves

end Lkp.RwRdwr
