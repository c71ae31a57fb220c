/-
An `int` that amounts are added to, against their sum.

The counter agrees with the sum modulo `2 ^ 32` and no better: it *is* the sum for
as long as every addition finds room below `2 ^ 31` (`counts_iff_room`).  What is
said first is said of a sequence of values, whatever makes the additions; then the
calls of a pool make them.
-/
import Lkp.Concurrency.Total

namespace Lkp

/-- A counter is the sum at every moment; so it never decreases and is never negative. -/
structure Counts (n : Nat) (v : Nat → BitVec 32) (t : Nat → ℤ) : Prop where
  sum : ∀ i, i ≤ n → (v i).toInt = t i
  grows : ∀ i j, i ≤ j → j ≤ n → (v i).toInt ≤ (v j).toInt
  nonneg : ∀ i, i ≤ n → 0 ≤ (v i).toInt

theorem toInt_lt_bound (v : BitVec 32) : v.toInt < 2 ^ 31 := by
  have hlt := BitVec.toInt_lt (x := v)
  simpa using hlt

/-- An addition that stays below the bound is exact. -/
theorem toInt_add_of_lt {v : BitVec 32} {d : ℤ} (hv : 0 ≤ v.toInt) (hd : 0 ≤ d)
    (h : v.toInt + d < 2 ^ 31) : (v + BitVec.ofInt 32 d).toInt = v.toInt + d := by
  rw [BitVec.toInt_add, BitVec.toInt_ofInt, Int.add_bmod_bmod]
  exact Int.bmod_eq_of_le (by omega) (by omega)

/-- **A counter is the sum exactly as long as every addition finds room.** -/
theorem counts_iff_room {n : Nat} {v : Nat → BitVec 32} {t d : Nat → ℤ} (hv0 : v 0 = 0)
    (ht0 : t 0 = 0) (hv : ∀ k, k < n → v (k + 1) = v k + BitVec.ofInt 32 (d k))
    (ht : ∀ k, k < n → t (k + 1) = t k + d k) (hd : ∀ k, k < n → 0 ≤ d k) :
    Counts n v t ↔ ∀ k, k < n → (v k).toInt + d k < 2 ^ 31 := by
  constructor
  · intro h k hk
    have hnext := h.sum (k + 1) hk
    rw [ht k hk, ← h.sum k hk.le] at hnext
    rw [← hnext]
    exact toInt_lt_bound _
  · intro hroom
    have hboth : ∀ i, i ≤ n → (v i).toInt = t i ∧ 0 ≤ t i := by
      intro i
      induction i with
      | zero =>
          intro _
          rw [hv0, ht0]
          exact ⟨rfl, le_refl 0⟩
      | succ i ih =>
          intro hi
          obtain ⟨hsum, hpos⟩ := ih (Nat.le_of_succ_le hi)
          have hdi := hd i hi
          rw [hv i hi, ht i hi, toInt_add_of_lt (hsum ▸ hpos) hdi (hroom i hi), hsum]
          exact ⟨rfl, by omega⟩
    have hgrows : ∀ i j, i ≤ j → j ≤ n → t i ≤ t j := by
      intro i j hij
      induction j, hij using Nat.le_induction with
      | base => exact fun _ => le_refl _
      | succ j hij ih =>
          intro hj
          rw [ht j hj]
          have hle := ih (Nat.le_of_succ_le hj)
          have hdj := hd j hj
          omega
    refine ⟨fun i hi => (hboth i hi).1, fun i j hij hj => ?_, fun i hi => ?_⟩
    · rw [(hboth i (hij.trans hj)).1, (hboth j hj).1]
      exact hgrows i j hij hj
    · rw [(hboth i hi).1]
      exact (hboth i hi).2

/-! ### Counters that calls add to -/

namespace Pool

variable {σ κ ε : Type*} {f : CallStep σ κ ε} {start : σ → Prop} {idle : κ}

/-- What step `k` of a run changes the contribution of the call that takes it. -/
def change {n : Nat} (g : κ → ℤ) (r : (machine start idle f).Run n) (k : Nat) : ℤ :=
  g ((r.state (k + 1)).call (r.act k).1) - g ((r.state k).call (r.act k).1)

/-- A counter to which each step adds what it adds to its call's contribution. -/
theorem counts_iff_room {n : Nat} (r : (machine start idle f).Run n) {v : σ → BitVec 32}
    {g : κ → ℤ} (hidle : g idle = 0) (hstart : v (r.state 0).shared = 0)
    (hv : ∀ k, k < n → v (r.state (k + 1)).shared =
      v (r.state k).shared + BitVec.ofInt 32 (change g r k))
    (hg : ∀ k, k < n → 0 ≤ change g r k) :
    Counts n (fun i => v (r.state i).shared) (fun i => total g (r.state i)) ↔
      ∀ k, k < n → (v (r.state k).shared).toInt + change g r k < 2 ^ 31 := by
  refine Lkp.counts_iff_room hstart (total_init hidle r.start) hv (fun k hk => ?_) hg
  have hfin : {c | (r.state k).call c ≠ idle}.Finite :=
    finite_busy.holds (r.reachable k hk.le)
  obtain ⟨l', -, hcall⟩ := machine_next.mp (r.step k hk)
  rw [total_step hidle hfin hcall, change, call_self hcall]

end Pool

end Lkp
