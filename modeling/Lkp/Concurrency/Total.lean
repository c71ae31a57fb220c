/-
What all calls of a pool come to together.

Each call contributes an amount that can be read off its place.  Only finitely
many calls have left `idle`, so the contributions have a sum (`Pool.total`), and a
step changes the sum by what it changes the moving call's contribution.
-/
import Mathlib.Algebra.BigOperators.Finprod
import Lkp.Concurrency.Pool

namespace Lkp

namespace Pool

variable {σ κ ε : Type*} {f : CallStep σ κ ε} {start : σ → Prop} {idle : κ}

/-- The sum of what the calls contribute. -/
noncomputable def total (g : κ → ℤ) (p : Pool σ κ) : ℤ := ∑ᶠ c, g (p.call c)

/-- Only finitely many calls have been made. -/
theorem finite_busy {ok : Pool σ κ → Nat × ε → Prop} :
    (machine start idle f).Inductive ok fun p => {c | p.call c ≠ idle}.Finite where
  init := by
    intro p hinit
    have hnone : {c | p.call c ≠ idle} = ∅ := by
      ext c
      simp [hinit.2 c]
    rw [hnone]
    exact Set.finite_empty
  step := by
    intro p a p' hfin _ hnext
    obtain ⟨l', -, hcall⟩ := machine_next.mp hnext
    refine (hfin.insert a.1).subset fun d hd => ?_
    by_cases hda : d = a.1
    · exact Set.mem_insert_iff.mpr (Or.inl hda)
    · refine Set.mem_insert_of_mem _ ?_
      show p.call d ≠ idle
      rw [← call_other hcall hda]
      exact hd

theorem total_eq_sum {g : κ → ℤ} {p : Pool σ κ} (hidle : g idle = 0) {S : Finset Nat}
    (hS : ∀ c, c ∉ S → p.call c = idle) : total g p = ∑ c ∈ S, g (p.call c) := by
  refine finsum_eq_sum_of_support_subset _ fun c hc => ?_
  by_contra hout
  rw [Function.mem_support, hS c hout] at hc
  exact hc hidle

theorem total_init {g : κ → ℤ} {p : Pool σ κ} (hidle : g idle = 0)
    (hp : (machine start idle f).init p) : total g p = 0 := by
  rw [total_eq_sum (S := ∅) hidle fun c _ => hp.2 c, Finset.sum_empty]

/-- A step changes the sum by what it changes the contribution of the call that moves. -/
theorem total_step {g : κ → ℤ} {p p' : Pool σ κ} {c : Nat} {l' : κ} (hidle : g idle = 0)
    (hfin : {c | p.call c ≠ idle}.Finite) (hcall : p'.call = Function.update p.call c l') :
    total g p' = total g p + (g l' - g (p.call c)) := by
  have hbusy : ∀ d, d ∉ insert c hfin.toFinset → d ≠ c ∧ p.call d = idle := by
    intro d hd
    simp only [Finset.mem_insert, Set.Finite.mem_toFinset, Set.mem_ofPred_eq, not_or, not_not] at hd
    exact hd
  rw [total_eq_sum hidle fun d hd => (hbusy d hd).2,
    total_eq_sum (p := p') hidle fun d hd =>
      (call_other hcall (hbusy d hd).1).trans (hbusy d hd).2,
    ← Finset.add_sum_erase _ _ (Finset.mem_insert_self c _),
    ← Finset.add_sum_erase _ (fun d => g (p.call d)) (Finset.mem_insert_self c _),
    call_self hcall]
  have hrest : ∑ d ∈ (insert c hfin.toFinset).erase c, g (p'.call d) =
      ∑ d ∈ (insert c hfin.toFinset).erase c, g (p.call d) := by
    refine Finset.sum_congr rfl fun d hd => ?_
    rw [call_other hcall (Finset.ne_of_mem_erase hd)]
  rw [hrest]
  ring

/-- Where no call contributes more, and one contributes less, the sum is less. -/
theorem total_lt {g h : κ → ℤ} {p : Pool σ κ} {c : Nat} (hg : g idle = 0) (hh : h idle = 0)
    (hfin : {c | p.call c ≠ idle}.Finite) (hle : ∀ l, g l ≤ h l)
    (hlt : g (p.call c) < h (p.call c)) : total g p < total h p := by
  have hbusy : ∀ d, d ∉ insert c hfin.toFinset → p.call d = idle := by
    intro d hd
    simp only [Finset.mem_insert, Set.Finite.mem_toFinset, Set.mem_ofPred_eq, not_or, not_not] at hd
    exact hd.2
  rw [total_eq_sum hg hbusy, total_eq_sum hh hbusy]
  exact Finset.sum_lt_sum (fun d _ => hle _) ⟨c, Finset.mem_insert_self c _, hlt⟩

theorem total_nonneg {g : κ → ℤ} {p : Pool σ κ} (hg : ∀ l, 0 ≤ g l) : 0 ≤ total g p :=
  finsum_nonneg fun _ => hg _

end Pool

end Lkp
