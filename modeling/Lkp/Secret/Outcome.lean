/-
What a call of the read or write method has done when it returns.

A call that reports an error has changed nothing; one that reports a count has added it to
one of the two counters, once, and a read has changed nothing else.  Every `kvmalloc` that
succeeded is followed by one `kvfree`.  All of this is told of the call's own steps, so that
it says something while others are at work as well.

Both methods have several ways out.  The places on each of them say what has been done
(`ReadPlaces`, `WritePlaces`), so what has to be checked of a driver is what one step does
between them, and `atomic` follows.
-/
import Lkp.Concurrency.Effects
import Lkp.Secret.Context

namespace Lkp.Secret

/-- `ctx->tx += ret` -/
def addTx (ret : Int) (x : DrvCtx) : DrvCtx := { x with tx := x.tx + BitVec.ofInt 32 ret }

/-- `tx` and `rx`. -/
def DrvCtx.stats (x : DrvCtx) : BitVec 32 × BitVec 32 := (x.tx, x.rx)

/-- `ctx->rx += ret`, of the two counters. -/
def addRx (ret : Int) (v : BitVec 32 × BitVec 32) : BitVec 32 × BitVec 32 :=
  (v.1, v.2 + BitVec.ofInt 32 ret)

section Calls

variable {σ κ ε : Type*} {f : CallStep σ κ ε} {start : σ → Prop} {idle : κ} {n : Nat}

/-- A read that returned `ret` has done all it should, or nothing. -/
structure ReadAtomic (r : (Pool.machine start idle f).Run n) (ctx : σ → DrvCtx) (c i j : Nat)
    (ret : Int) : Prop where
  failed : ret < 0 → Pool.Leaves r ctx c i j
  added : 0 ≤ ret → Pool.Applies r ctx (addTx ret) c i j

/-- A write that returned `ret` has done all it should, or nothing, and has freed `kbuf`. -/
structure WriteAtomic (r : (Pool.machine start idle f).Run n) (ctx : σ → DrvCtx)
    (kvmallocs : κ → κ → Prop) (kvfrees : κ → Prop) (c i j : Nat) (ret : Int) : Prop where
  failed : ret < 0 → Pool.Leaves r ctx c i j
  added : 0 ≤ ret → Pool.Applies r (fun s => (ctx s).stats) (addRx ret) c i j
  kbuf : Pool.GivesBack r kvmallocs kvfrees c i j

/-- The places of a read: all of them, and where it is decided that what it returns is `P`. -/
structure ReadPlaces (κ : Type*) where
  reading : κ → Prop
  is : (Int → Prop) → κ → Prop
  unique : ∀ {x y l}, is (· = x) l → is (· = y) l → x = y

/-- What a step of a read does. -/
structure ReadPlaces.Step (pl : ReadPlaces κ) (ctx : σ → DrvCtx) (s : σ) (l : κ) (s' : σ)
    (l' : κ) : Prop where
  reading : pl.reading l → pl.reading l'
  decided : ∀ P, pl.is P l → pl.is P l'
  /-- It changes nothing, or counts what is handed out. -/
  counts : pl.reading l →
    (ctx s' = ctx s ∧ (pl.is (0 ≤ ·) l ↔ pl.is (0 ≤ ·) l')) ∨
      (¬ pl.is (0 ≤ ·) l ∧ pl.is (0 ≤ ·) l' ∧
        ∃ ret, pl.is (· = ret) l' ∧ ctx s' = addTx ret (ctx s))

/--
The places of a write.  `bound` are those from which nothing can go wrong any more,
`hasKbuf` those where `kbuf` is allocated, `wrote` those after the last `kvfree`.
-/
structure WritePlaces (κ : Type*) where
  writing : κ → Prop
  is : (Int → Prop) → κ → Prop
  bound : κ → Prop
  kvmallocs : κ → κ → Prop
  kvfrees : κ → Prop
  hasKbuf : κ → Prop
  wrote : κ → Prop
  unique : ∀ {x y l}, is (· = x) l → is (· = y) l → x = y
  hasKbuf_of_kvmallocs : ∀ {l l'}, kvmallocs l l' → hasKbuf l'
  hasKbuf_of_kvfrees : ∀ {l}, kvfrees l → hasKbuf l
  not_wrote_of_hasKbuf : ∀ {l}, hasKbuf l → ¬ wrote l

/-- What a step of a write does. -/
structure WritePlaces.Step (pl : WritePlaces κ) (ctx : σ → DrvCtx) (s : σ) (l : κ) (s' : σ)
    (l' : κ) : Prop where
  writing : pl.writing l → pl.writing l'
  decided : ∀ P, pl.is P l → pl.is P l'
  /-- It leaves the counters alone, or counts what was stored. -/
  counts : pl.writing l →
    ((ctx s').stats = (ctx s).stats ∧ (pl.is (0 ≤ ·) l ↔ pl.is (0 ≤ ·) l')) ∨
      (¬ pl.is (0 ≤ ·) l ∧ pl.is (0 ≤ ·) l' ∧
        ∃ ret, pl.is (· = ret) l' ∧ (ctx s').stats = addRx ret (ctx s).stats)
  bound : pl.writing l → pl.bound l → pl.bound l'
  /-- A write that may still fail has changed nothing. -/
  unbound : pl.writing l → ¬ pl.bound l' → ctx s' = ctx s
  /-- A write that has `kbuf` keeps it until it frees it. -/
  hasKbuf : pl.hasKbuf l → pl.hasKbuf l' ∨ (pl.kvfrees l ∧ pl.wrote l')
  kvmallocs : ¬ pl.hasKbuf l → pl.hasKbuf l' → pl.kvmallocs l l'
  kvfrees : pl.kvfrees l → pl.wrote l'
  wrote : pl.wrote l → pl.wrote l'

variable {r : (Pool.machine start idle f).Run n} {ctx : σ → DrvCtx} {c i j : Nat} {ret : Int}

theorem ReadPlaces.atomic (pl : ReadPlaces κ) (hij : i ≤ j) (hj : j ≤ n)
    (hstep : ∀ t, Pool.OwnStep r c i j t →
      pl.Step ctx (r.state t).shared ((r.state t).call c) (r.state (t + 1)).shared
        ((r.state (t + 1)).call c))
    (hi : pl.reading ((r.state i).call c)) (hi' : ¬ pl.is (0 ≤ ·) ((r.state i).call c))
    (hend : ∀ P : Int → Prop, pl.is P ((r.state j).call c) ↔ P ret) :
    ReadAtomic r ctx c i j ret := by
  have hpath : ∀ t, Pool.OwnStep r c i j t → pl.reading ((r.state t).call c) := fun t ht =>
    Pool.Keeps.stays (fun u hu => (hstep u hu).reading) hj (Nat.le_refl i) ht.first ht.last.le hi
  have hdecided : ∀ P, Pool.Keeps r (pl.is P) c i j := fun P t ht => (hstep t ht).decided P
  refine ⟨fun hneg => ?_, fun hpos => ?_⟩
  · refine Pool.Leaves.of_not_end hij hj (hdecided (0 ≤ ·)) ?_ fun t ht hnot => ?_
    · rw [hend]
      exact not_le.mpr hneg
    · exact ((hstep t ht).counts (hpath t ht)).elim And.left fun h => absurd h.2.1 hnot
  · exact Pool.Applies.of_moves (pl.is (0 ≤ ·)) (fun x => pl.is (· = x)) hij hj (hdecided _)
      (fun _ => hdecided _) (fun _ _ => pl.unique)
      (fun t ht => (hstep t ht).counts (hpath t ht)) hi' ((hend _).mpr hpos) ((hend _).mpr rfl)

theorem WritePlaces.atomic (pl : WritePlaces κ) (hij : i ≤ j) (hj : j ≤ n)
    (hstep : ∀ t, Pool.OwnStep r c i j t →
      pl.Step ctx (r.state t).shared ((r.state t).call c) (r.state (t + 1)).shared
        ((r.state (t + 1)).call c))
    (hi : pl.writing ((r.state i).call c)) (hi' : ¬ pl.is (0 ≤ ·) ((r.state i).call c))
    (hkbuf : ¬ pl.hasKbuf ((r.state i).call c)) (hwrote : ¬ pl.wrote ((r.state i).call c))
    (hend : ∀ P : Int → Prop, pl.is P ((r.state j).call c) ↔ P ret)
    (hbound : pl.bound ((r.state j).call c) → 0 ≤ ret) (hend' : pl.wrote ((r.state j).call c)) :
    WriteAtomic r ctx pl.kvmallocs pl.kvfrees c i j ret := by
  have hpath : ∀ t, Pool.OwnStep r c i j t → pl.writing ((r.state t).call c) := fun t ht =>
    Pool.Keeps.stays (fun u hu => (hstep u hu).writing) hj (Nat.le_refl i) ht.first ht.last.le hi
  have hdecided : ∀ P, Pool.Keeps r (pl.is P) c i j := fun P t ht => (hstep t ht).decided P
  refine ⟨fun hneg => ?_, fun hpos => ?_, ?_⟩
  · exact Pool.Leaves.of_not_end hij hj (fun t ht => (hstep t ht).bound (hpath t ht))
      (fun h => absurd (hbound h) (not_le.mpr hneg))
      fun t ht => (hstep t ht).unbound (hpath t ht)
  · exact Pool.Applies.of_moves (pl.is (0 ≤ ·)) (fun x => pl.is (· = x)) hij hj (hdecided _)
      (fun _ => hdecided _) (fun _ _ => pl.unique)
      (fun t ht => (hstep t ht).counts (hpath t ht)) hi' ((hend _).mpr hpos) ((hend _).mpr rfl)
  · exact Pool.GivesBack.of_places pl.hasKbuf pl.wrote hij hj (fun t ht => (hstep t ht).wrote)
      (fun t ht => (hstep t ht).hasKbuf) (fun t ht => (hstep t ht).kvmallocs)
      (fun t ht => (hstep t ht).kvfrees) (fun _ _ => pl.hasKbuf_of_kvmallocs)
      (fun _ => pl.hasKbuf_of_kvfrees) (fun _ => pl.not_wrote_of_hasKbuf) hkbuf hwrote hend'

end Calls

theorem addTx_natCast (k : Nat) (x : DrvCtx) :
    addTx k x = { x with tx := x.tx + BitVec.ofNat 32 k } := by
  rw [addTx, BitVec.ofInt_natCast]

theorem addRx_toInt (k : Nat) (v : BitVec 32 × BitVec 32) :
    addRx (toInt k) v = (v.1, v.2 + BitVec.ofNat 32 k) := by
  rw [addRx, toInt, BitVec.ofInt_toInt]

theorem toInt_nonneg {k : Nat} (h : k ≤ maxRwCount) : 0 ≤ toInt k := by
  rw [toInt_of_lt (Nat.lt_of_le_of_lt h (by decide))]
  exact Int.natCast_nonneg k

end Lkp.Secret
