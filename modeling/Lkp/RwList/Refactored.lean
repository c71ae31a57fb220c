/-
The RCU list as a refactoring of the list under the reader-writer spinlock.

The one module was made from the other, and a read prints the same nodes in the same
order.  The numbers differ: the older module keeps an `int` where the newer one keeps a
`u64`, and the write method stores values of `jiffies`.  From 2^31 on an `int` does not
hold them.
-/
import Lkp.RwList.Alone
import Lkp.RcuList.Alone

namespace Lkp.RwList

/-- A write: how much is asked for, and the two values of `jiffies` it reads. -/
structure Write where
  count : Nat
  jiffies1 : BitVec 64
  jiffies2 : BitVec 64
  deriving DecidableEq

/-- What the write method passes on; `ms300` is `msecs_to_jiffies(300)`. -/
def Write.clock (ms300 : BitVec 64) (w : Write) : BitVec 64 × BitVec 64 :=
  (w.jiffies1, w.jiffies2 + ms300)

/-- The calls of the write method. -/
def calls (ms300 : BitVec 64) (ws : List Write) : List (Nat × BitVec 64 × BitVec 64) :=
  ws.map fun w => (w.count, w.clock ms300)

/-- The values the write method passes on, as they are. -/
def Write.passed (ms300 : BitVec 64) (w : Write) : List Line :=
  [(1, 2, 82), (3, 1415, 67), ((w.clock ms300).1.toNat, (w.clock ms300).2.toNat, 85)]

/-- The two modules print the same after the same writes, and that is what was passed on. -/
def PrintsTheSame (c count : Nat) (ms300 : BitVec 64) (ws : List Write) : Prop :=
  ∃ out, Prints c count (calls ms300 ws) out ∧ RcuList.Prints c count (calls ms300 ws) out ∧
    out = ws.flatMap (Write.passed ms300)

/-- An `int` holds both values of the write. -/
def Write.Fits (ms300 : BitVec 64) (w : Write) : Prop :=
  (w.clock ms300).1.toNat < 2 ^ 31 ∧ (w.clock ms300).2.toNat < 2 ^ 31

section Lines

variable {c count : Nat} {ms300 : BitVec 64} {ws : List Write} {w : Write}

/-- An `int` that was an `unsigned long` is what it was exactly if that is small. -/
theorem toInt_setWidth_eq_iff {v : BitVec 64} : (v.setWidth 32).toInt = v.toNat ↔
    v.toNat < 2 ^ 31 := by
  have hv : v.toNat < 2 ^ 64 := v.isLt
  rw [BitVec.toInt_eq_toNat_cond, BitVec.toNat_setWidth]
  constructor
  · intro h
    split at h <;> omega
  · intro h
    rw [Nat.mod_eq_of_lt (by omega), if_pos (by omega)]

/-- The older module prints it if it fits. -/
theorem rwLines_eq_iff : ((nodesOf (w.clock ms300)).map Node.line) = w.passed ms300 ↔
    w.Fits ms300 := by
  have hlines : (nodesOf (w.clock ms300)).map Node.line =
      [(1, 2, 82), (3, 1415, 67), (((w.clock ms300).1.setWidth 32).toInt,
        ((w.clock ms300).2.setWidth 32).toInt, 85)] := rfl
  rw [hlines, Write.passed, List.cons_inj_right, List.cons_inj_right, List.singleton_inj,
    Prod.mk.injEq, Prod.mk.injEq, toInt_setWidth_eq_iff, toInt_setWidth_eq_iff, Write.Fits]
  exact ⟨fun h => ⟨h.1, h.2.1⟩, fun h => ⟨h.1, h.2, rfl⟩⟩

/-- Line by line, because every write makes three of them. -/
theorem flatMap_eq_iff : (ws.flatMap fun w => (nodesOf (w.clock ms300)).map Node.line) =
    ws.flatMap (Write.passed ms300) ↔ ∀ w ∈ ws, w.Fits ms300 := by
  induction ws with
  | nil => exact ⟨fun _ => nofun, fun _ => rfl⟩
  | cons w ws ih =>
      rw [List.flatMap_cons, List.flatMap_cons, List.forall_mem_cons, ← ih, ← rwLines_eq_iff]
      exact List.append_eq_append_iff_of_size_eq_left rfl

theorem printsTheSame_iff_lines : PrintsTheSame c count ms300 ws ↔
    (ws.flatMap fun w => (nodesOf (w.clock ms300)).map Node.line) =
      ws.flatMap (Write.passed ms300) := by
  have hrw : (calls ms300 ws).flatMap (fun w => (nodesOf w.2).map Node.line) =
      ws.flatMap fun w => (nodesOf (w.clock ms300)).map Node.line := List.flatMap_map ..
  have hrcu : (calls ms300 ws).flatMap (fun w => (RcuList.nodesOf w.2).map RcuList.Node.line) =
      ws.flatMap (Write.passed ms300) := List.flatMap_map ..
  constructor
  · intro h
    obtain ⟨out, hout, -, hpassed⟩ := h
    rw [← hrw, ← prints_iff.mp hout, hpassed]
  · intro h
    refine ⟨_, prints_iff.mpr rfl, RcuList.prints_iff.mpr ?_, ?_⟩
    · rw [hrw, hrcu, h]
    · rw [hrw, h]

/-- **The refactoring keeps what is printed as long as an `int` holds it.** -/
theorem printsTheSame_iff :
    PrintsTheSame c count ms300 ws ↔ ∀ w ∈ ws, w.Fits ms300 :=
  printsTheSame_iff_lines.trans flatMap_eq_iff

end Lines

/-- One write, when `jiffies` has reached 2^31. -/
theorem not_printsTheSame :
    ¬ PrintsTheSame 0 128 75 [{ count := 4, jiffies1 := 0x80000000, jiffies2 := 0x80000000 }] := by
  rw [printsTheSame_iff_lines, flatMap_eq_iff]
  intro h
  exact Nat.lt_irrefl _ (h _ (List.mem_singleton_self _)).1

end Lkp.RwList
