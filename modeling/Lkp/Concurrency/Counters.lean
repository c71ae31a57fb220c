/-
Counters that are advanced side by side.

Each counter gives 0, 1, 2 and so on, and any number of them are advanced in any order
(`Counted`).  Of what they give only the numbers can be seen, and not which counter gave
them.  What can be seen is then exactly the words in which every `k + 1` comes after more
`k`s than `k + 1`s (`Ballot`): somebody must be at `k` to go on to `k + 1`.
-/
import Mathlib.Tactic
import Mathlib.Data.List.Basic
import Mathlib.Algebra.Order.BigOperators.Group.Finset

namespace Lkp

/-- Each `k + 1` comes after more `k`s than `k + 1`s. -/
inductive Ballot : List Nat → Prop
  | nil : Ballot []
  | concat {w : List Nat} {k : Nat} (h : Ballot w) (hk : ∀ j, k = j + 1 → w.count k < w.count j) :
      Ballot (w ++ [k])

section Counted

variable {α : Type*} [DecidableEq α] {hist : List (α × Nat)} {c d : α} {k : Nat}

/-- The numbers one counter has given. -/
def numbers (c : α) (hist : List (α × Nat)) : List Nat :=
  (hist.filter fun x => x.1 = c).map Prod.snd

/-- Each counter has given 0, 1, 2 and so on. -/
def Counted (hist : List (α × Nat)) : Prop := ∀ c, ∃ n, numbers c hist = List.range n

theorem numbers_concat_self : numbers c (hist ++ [(c, k)]) = numbers c hist ++ [k] := by
  simp [numbers]

theorem numbers_concat_other (h : d ≠ c) : numbers c (hist ++ [(d, k)]) = numbers c hist := by
  simp [numbers, h]

/-- A counter that goes on gives the number it has come to. -/
theorem counted_concat :
    Counted (hist ++ [(c, k)]) ↔ Counted hist ∧ numbers c hist = List.range k := by
  constructor
  · intro h
    have hown : numbers c hist = List.range k := by
      obtain ⟨n, hn⟩ := h c
      rw [numbers_concat_self] at hn
      cases n with
      | zero => exact absurd hn (by simp)
      | succ n =>
          rw [List.range_succ] at hn
          obtain ⟨hinit, hlast⟩ := List.append_inj' hn rfl
          rw [hinit, List.singleton_inj.mp hlast]
    refine ⟨fun d => ?_, hown⟩
    by_cases hd : c = d
    · exact ⟨k, hd ▸ hown⟩
    · obtain ⟨n, hn⟩ := h d
      exact ⟨n, (numbers_concat_other hd).symm.trans hn⟩
  · intro hboth d
    obtain ⟨h, hown⟩ := hboth
    by_cases hd : c = d
    · subst hd
      exact ⟨k + 1, by rw [numbers_concat_self, hown, List.range_succ]⟩
    · obtain ⟨n, hn⟩ := h d
      exact ⟨n, (numbers_concat_other hd).trans hn⟩

/-- What has been given up to some point. -/
theorem counted_before {pre : List (α × Nat)} (h : Counted hist) (hpre : pre <+: hist) :
    Counted pre := by
  obtain ⟨rest, rfl⟩ := hpre
  induction rest using List.reverseRecOn with
  | nil => rwa [List.append_nil] at h
  | append_singleton rest x ih =>
      rw [← List.append_assoc] at h
      exact ih (counted_concat.mp h).1

/-- A counter that has got to `n` has given each number below once. -/
theorem count_of_numbers {n : Nat} (h : numbers c hist = List.range n) :
    hist.count (c, k) = if k < n then 1 else 0 := by
  have hcount : hist.count (c, k) = (numbers c hist).count k := by
    rw [numbers, List.count, List.count, List.countP_map, List.countP_filter]
    refine List.countP_congr fun x _ => ?_
    simp [Prod.ext_iff, and_comm]
  rw [hcount, h, List.nodup_range.count]
  simp

/-- A number was given by one of the counters. -/
theorem count_map_snd {S : Finset α} (hS : ∀ x ∈ hist, x.1 ∈ S) :
    (hist.map Prod.snd).count k = ∑ c ∈ S, hist.count (c, k) := by
  induction hist with
  | nil => simp
  | cons x hist ih =>
      rw [List.map_cons, List.count_cons, ih fun y hy => hS y (List.mem_cons_of_mem _ hy)]
      have hone : ∑ c ∈ S, (if x == (c, k) then 1 else 0) = if x.2 == k then 1 else 0 := by
        by_cases hk : x.2 = k
        · rw [Finset.sum_eq_single_of_mem x.1 (hS x List.mem_cons_self)]
          · simp [Prod.ext_iff, hk]
          · intro d _ hd
            simp [Prod.ext_iff, hd.symm]
        · simp [Prod.ext_iff, hk]
      rw [← hone, ← Finset.sum_add_distrib]
      exact Finset.sum_congr rfl fun c _ => List.count_cons.symm

theorem Counted.count_succ_le (h : Counted hist) (c : α) (k : Nat) :
    hist.count (c, k + 1) ≤ hist.count (c, k) := by
  obtain ⟨n, hn⟩ := h c
  rw [count_of_numbers hn, count_of_numbers hn]
  split <;> split <;> omega

theorem Counted.ballot (h : Counted hist) : Ballot (hist.map Prod.snd) := by
  induction hist using List.reverseRecOn with
  | nil => exact .nil
  | append_singleton hist x ih =>
      obtain ⟨h, hown⟩ := counted_concat.mp h
      rw [List.map_append]
      refine (ih h).concat fun j hj => ?_
      -- the counter that goes on has given `j` and not yet `j + 1`
      have hall : ∀ y ∈ hist, y.1 ∈ insert x.1 (hist.map Prod.fst).toFinset := by
        intro y hy
        exact Finset.mem_insert_of_mem (List.mem_toFinset.mpr (List.mem_map_of_mem hy))
      rw [count_map_snd hall, count_map_snd hall, hj]
      refine Finset.sum_lt_sum (fun c _ => h.count_succ_le c j)
        ⟨x.1, Finset.mem_insert_self _ _, ?_⟩
      rw [count_of_numbers hown, count_of_numbers hown, hj]
      simp

/-- Some counter has not given anything yet. -/
theorem exists_numbers_nil [Infinite α] (hist : List (α × Nat)) : ∃ c, numbers c hist = [] := by
  obtain ⟨c, hc⟩ := Infinite.exists_notMem_finset (hist.map Prod.fst).toFinset
  refine ⟨c, List.map_eq_nil_iff.mpr (List.filter_eq_nil_iff.mpr fun x hx heq => hc ?_)⟩
  rw [← of_decide_eq_true heq]
  exact List.mem_toFinset.mpr (List.mem_map_of_mem hx)

/-- **Of counters advanced side by side one sees the ballot words, and no others.** -/
theorem ballot_iff [Infinite α] {w : List Nat} :
    Ballot w ↔ ∃ hist : List (α × Nat), Counted hist ∧ hist.map Prod.snd = w := by
  constructor
  · intro h
    induction h with
    | nil => exact ⟨[], fun c => ⟨0, rfl⟩, rfl⟩
    | @concat w k h hk ih =>
        obtain ⟨hist, hcounted, rfl⟩ := ih
        have hnext : ∃ c, numbers c hist = List.range k := by
          cases k with
          | zero => exact exists_numbers_nil hist
          | succ j =>
              have hall : ∀ y ∈ hist, y.1 ∈ (hist.map Prod.fst).toFinset := fun y hy =>
                List.mem_toFinset.mpr (List.mem_map_of_mem hy)
              have hlt := hk j rfl
              rw [count_map_snd hall, count_map_snd hall] at hlt
              obtain ⟨c, -, hc⟩ := Finset.exists_lt_of_sum_lt hlt
              obtain ⟨n, hn⟩ := hcounted c
              rw [count_of_numbers hn, count_of_numbers hn] at hc
              refine ⟨c, hn.trans (congrArg List.range ?_)⟩
              split at hc <;> split at hc <;> omega
        obtain ⟨c, hc⟩ := hnext
        exact ⟨hist ++ [(c, k)], counted_concat.mpr ⟨hcounted, hc⟩, by simp⟩
  · intro hex
    obtain ⟨hist, hcounted, rfl⟩ := hex
    exact hcounted.ballot

end Counted

end Lkp
