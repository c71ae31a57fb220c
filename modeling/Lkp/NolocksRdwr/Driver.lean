/-
The rdwr driver without a lock.

`gd` points to the one object.  A writer stores four values into it, a reader loads them
in `reader()` and once more in `SHOW_DATA()`, and nothing keeps them apart: every load of
`gd`, and every load and store of a field, is a step, and the steps of any number of calls
fall in any order.  The fields and the order in which the functions go through them are
those of the other two drivers.

A call keeps what it has loaded, in `reader()` and in `SHOW_DATA()`, in one list.
-/
import Lkp.Concurrency.Publish
import Lkp.RcuRdwr.Driver

namespace Lkp.NolocksRdwr

open RcuRdwr (GlobalData Field Seen readerFields readerMore writerStores firstData)

/-- The module's global, and the object. -/
structure Drv where
  heap : Heap GlobalData
  gd : Nat

/-- What the world answers: a call, or that a call goes on. -/
inductive Env
  | read (count : Nat)
  | write (count : Nat)
  | run
  deriving DecidableEq

instance : Inhabited Env := ⟨.run⟩

/-- Where a call has got to. -/
inductive Call
  | idle
  /-- `read_miscdrv_rdwr` entered; the load of `gd` for `reader(gd)` comes next. -/
  | read (count : Nat)
  /-- In `reader()`: the fields yet to be loaded, and what was loaded. -/
  | reader (count gd : Nat) (todo : List Field) (seen : Seen)
  /-- In `SHOW_DATA`; the next load of `gd` is for the head of `todo`. -/
  | showLoad (count : Nat) (todo : List Field) (seen : Seen)
  /-- The field `f` of the object just loaded comes next. -/
  | showUse (count : Nat) (f : Field) (todo : List Field) (gd : Nat) (seen : Seen)
  /-- The line is printed and `count` returned. -/
  | readRet (count : Nat) (seen : Seen)
  /-- `write_miscdrv_rdwr` entered; the load of `gd` for `writer(gd)` comes next. -/
  | write (count : Nat)
  /-- In `writer()`: the stores yet to be made. -/
  | writerStore (count gd : Nat) (todo : List (Field × Int))
  /-- `write_miscdrv_rdwr` returned `count`. -/
  | writeRet (count : Nat)
  /-- The access went through NULL or to a freed object. -/
  | oops
  deriving DecidableEq

/-- `read_miscdrv_rdwr`, one step at a time, the arguments printed evaluated in the order `args`. -/
def readStep (args : List Field) (s : Drv) : Call → Option (Drv × Call)
  | .read count => some (s, .reader count s.gd readerFields [])
  | .reader count gd (f :: todo) seen =>
      match s.heap.obj gd with
      | some d =>
          some (s, .reader count gd (todo ++ readerMore f (d.get f)) (seen ++ [(f, d.get f)]))
      | none => some (s, .oops)
  | .reader count _ [] seen => some (s, .showLoad count args seen)
  | .showLoad count (f :: todo) seen => some (s, .showUse count f todo s.gd seen)
  | .showLoad count [] seen => some (s, .readRet count seen)
  | .showUse count f todo gd seen =>
      match s.heap.obj gd with
      | some d => some (s, .showLoad count todo (seen ++ [(f, d.get f)]))
      | none => some (s, .oops)
  | _ => none

/-- `write_miscdrv_rdwr`, one step at a time. -/
def writeStep (s : Drv) : Call → Option (Drv × Call)
  | .write count => some (s, .writerStore count s.gd writerStores)
  | .writerStore count gd ((f, v) :: todo) =>
      match s.heap.obj gd with
      | some d => some ({ s with heap := s.heap.store gd (d.set f v) }, .writerStore count gd todo)
      | none => some (s, .oops)
  | .writerStore count _ [] => some (s, .writeRet count)
  | _ => none

/-- The driver's methods, one step of a call at a time. -/
def step (args : List Field) : CallStep Drv Call Env := fun _ e s l =>
  match e, l with
  | .read count, .idle => some (s, .read count)
  | .write count, .idle => some (s, .write count)
  | .run, l => (readStep args s l).or (writeStep s l)
  | _, _ => none

/-- The driver after init; address 0 is NULL. -/
def drv0 : Drv where
  heap := { obj := Function.update (fun _ => none) 1 (some firstData), brk := 2 }
  gd := 1

/-- Any calls of the two methods, from init on. -/
def machine (args : List Field) : Machine (Pool Drv Call) (Nat × Env) :=
  Pool.machine (fun s => s = drv0) .idle (step args)

/-! ### What one step can do -/

/-- The pointer a call has loaded and goes through next. -/
def pointer : Call → Option Nat
  | .reader _ gd (_ :: _) _ | .showUse _ _ _ gd _ | .writerStore _ gd (_ :: _) => some gd
  | _ => none

/-- The steps of a call, one constructor for each way out of a place. -/
inductive Move (args : List Field) (s : Drv) : Call → Drv → Call → Prop
  | callRead (count) : Move args s .idle s (.read count)
  | callWrite (count) : Move args s .idle s (.write count)
  | readGd (count) : Move args s (.read count) s (.reader count s.gd readerFields [])
  | load (count gd f todo seen) {d} (h : s.heap.obj gd = some d) :
      Move args s (.reader count gd (f :: todo) seen) s
        (.reader count gd (todo ++ readerMore f (d.get f)) (seen ++ [(f, d.get f)]))
  | showBegin (count gd seen) : Move args s (.reader count gd [] seen) s (.showLoad count args seen)
  | showLoad (count f todo seen) :
      Move args s (.showLoad count (f :: todo) seen) s (.showUse count f todo s.gd seen)
  | showEnd (count seen) : Move args s (.showLoad count [] seen) s (.readRet count seen)
  | showUse (count f todo gd seen) {d} (h : s.heap.obj gd = some d) :
      Move args s (.showUse count f todo gd seen) s
        (.showLoad count todo (seen ++ [(f, d.get f)]))
  | writeGd (count) : Move args s (.write count) s (.writerStore count s.gd writerStores)
  | store (count gd f v todo) {d} (h : s.heap.obj gd = some d) :
      Move args s (.writerStore count gd ((f, v) :: todo))
        { s with heap := s.heap.store gd (d.set f v) } (.writerStore count gd todo)
  | writeEnd (count gd) : Move args s (.writerStore count gd []) s (.writeRet count)
  | oops (l gd) (hl : pointer l = some gd) (h : s.heap.obj gd = none) : Move args s l s .oops

section Moves

variable {args : List Field} {c : Nat} {s s' : Drv} {l l' : Call}

theorem move_of_readStep (h : readStep args s l = some (s', l')) : Move args s l s' l' := by
  unfold readStep at h
  split at h
  case h_2 =>
    split at h <;> cases h
    · exact .load _ _ _ _ _ ‹_›
    · exact .oops _ _ rfl ‹_›
  case h_6 =>
    split at h <;> cases h
    · exact .showUse _ _ _ _ _ ‹_›
    · exact .oops _ _ rfl ‹_›
  all_goals cases h
  all_goals constructor

theorem move_of_writeStep (h : writeStep s l = some (s', l')) : Move args s l s' l' := by
  unfold writeStep at h
  split at h
  case h_2 =>
    split at h <;> cases h
    · exact .store _ _ _ _ _ ‹_›
    · exact .oops _ _ rfl ‹_›
  all_goals cases h
  all_goals constructor

theorem move_of_step {e : Env} (h : step args c e s l = some (s', l')) : Move args s l s' l' := by
  unfold step at h
  split at h
  · cases h
    exact .callRead _
  · cases h
    exact .callWrite _
  · rcases Option.or_eq_some_iff.mp h with h1 | ⟨-, h2⟩
    · exact move_of_readStep h1
    · exact move_of_writeStep h2
  · cases h

end Moves

end Lkp.NolocksRdwr
