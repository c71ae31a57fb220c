/-
What one call of a pool has done, among all the others.

While other calls come in between, what a call has done cannot be read off the states
before and after it.  It can be told of the call's own steps: that none of them changes a
value (`Leaves`), that one of them applies a function to it and no other changes it
(`Applies`), that one of them gives back what another has taken (`GivesBack`).  Where no
other call takes a step in between, the first two say what the value is at the end.
-/
import Lkp.Concurrency.Pool

namespace Lkp.Pool

variable {σ κ ε β : Type*} {f : CallStep σ κ ε} {start : σ → Prop} {idle : κ} {n : Nat}

/-- Step `t` of the run, between `i` and `j`, is one of call `c`. -/
structure OwnStep (r : (machine start idle f).Run n) (c i j t : Nat) : Prop where
  first : i ≤ t
  last : t < j
  own : (r.act t).1 = c

/-- Between `i` and `j` only call `c` takes steps. -/
def RunsAlone (r : (machine start idle f).Run n) (c i j : Nat) : Prop :=
  ∀ t, i ≤ t → t < j → (r.act t).1 = c

/-- The call does not change the value `v`. -/
structure Leaves (r : (machine start idle f).Run n) (v : σ → β) (c i j : Nat) : Prop where
  steps : ∀ t, OwnStep r c i j t → v (r.state (t + 1)).shared = v (r.state t).shared
  alone : RunsAlone r c i j → v (r.state j).shared = v (r.state i).shared

/-- One step of the call applies `g` to the value `v`, and no other changes it. -/
structure Applies (r : (machine start idle f).Run n) (v : σ → β) (g : β → β) (c i j : Nat) :
    Prop where
  once : ∃ t, OwnStep r c i j t ∧ v (r.state (t + 1)).shared = g (v (r.state t).shared) ∧
    ∀ u, OwnStep r c i j u → u ≠ t → v (r.state (u + 1)).shared = v (r.state u).shared
  alone : RunsAlone r c i j → v (r.state j).shared = g (v (r.state i).shared)

/--
If a step of the call takes something, one of its steps gives something back, and only one;
if none does, none gives anything back.
-/
structure GivesBack (r : (machine start idle f).Run n) (takes : κ → κ → Prop) (gives : κ → Prop)
    (c i j : Nat) : Prop where
  once : (∃ t, OwnStep r c i j t ∧ takes ((r.state t).call c) ((r.state (t + 1)).call c)) →
    ∃ t, OwnStep r c i j t ∧ gives ((r.state t).call c) ∧
      ∀ u, OwnStep r c i j u → gives ((r.state u).call c) → u = t
  never : (¬ ∃ t, OwnStep r c i j t ∧ takes ((r.state t).call c) ((r.state (t + 1)).call c)) →
    ∀ t, OwnStep r c i j t → ¬ gives ((r.state t).call c)

variable {r : (machine start idle f).Run n} {v : σ → β} {g : β → β} {c i j : Nat}

/-- A value that no step changes is the same at the end. -/
theorem const_of_steps {i j : Nat} (hij : i ≤ j)
    (h : ∀ t, i ≤ t → t < j → v (r.state (t + 1)).shared = v (r.state t).shared) :
    v (r.state j).shared = v (r.state i).shared := by
  induction j, hij using Nat.le_induction with
  | base => rfl
  | succ j hij ih =>
      rw [h j hij (Nat.lt_succ_self j)]
      exact ih fun t hit htj => h t hit (Nat.lt_succ_of_lt htj)

theorem Leaves.of_steps (hij : i ≤ j)
    (h : ∀ t, OwnStep r c i j t → v (r.state (t + 1)).shared = v (r.state t).shared) :
    Leaves r v c i j :=
  ⟨h, fun halone => const_of_steps hij fun t hit htj => h t ⟨hit, htj, halone t hit htj⟩⟩

theorem Applies.of_once {t : Nat} (ht : OwnStep r c i j t)
    (hthere : v (r.state (t + 1)).shared = g (v (r.state t).shared))
    (helse : ∀ u, OwnStep r c i j u → u ≠ t →
      v (r.state (u + 1)).shared = v (r.state u).shared) : Applies r v g c i j := by
  refine ⟨⟨t, ht, hthere, helse⟩, fun halone => ?_⟩
  have hbefore : v (r.state t).shared = v (r.state i).shared :=
    const_of_steps ht.first fun u hiu hut =>
      helse u ⟨hiu, hut.trans ht.last, halone u hiu (hut.trans ht.last)⟩ hut.ne
  have hafter : v (r.state j).shared = v (r.state (t + 1)).shared :=
    const_of_steps ht.last fun u htu huj =>
      have hiu : i ≤ u := ht.first.trans (Nat.le_of_succ_le htu)
      helse u ⟨hiu, huj, halone u hiu huj⟩ (Nat.ne_of_gt htu)
  rw [hafter, hthere, hbefore]

/-! ### From one place to another -/

/-- A call's own step, as the step function gives it. -/
theorem OwnStep.step {t : Nat} (ht : OwnStep r c i j t) (hj : j ≤ n) :
    f c (r.act t).2 (r.state t).shared ((r.state t).call c) =
      some ((r.state (t + 1)).shared, (r.state (t + 1)).call c) := by
  obtain ⟨l', hstep, hcall⟩ := machine_next.mp (r.step t (Nat.lt_of_lt_of_le ht.last hj))
  rw [ht.own] at hstep hcall
  rw [call_self hcall]
  exact hstep

/-- No step of the call undoes `P`. -/
def Keeps (r : (machine start idle f).Run n) (P : κ → Prop) (c i j : Nat) : Prop :=
  ∀ t, OwnStep r c i j t → P ((r.state t).call c) → P ((r.state (t + 1)).call c)

variable {P : κ → Prop} {t u : Nat}

/-- What no step of the call undoes stays true of it. -/
theorem Keeps.stays (h : Keeps r P c i j) (hj : j ≤ n) (hit : i ≤ t) (htu : t ≤ u) (huj : u ≤ j)
    (ht : P ((r.state t).call c)) : P ((r.state u).call c) := by
  refine r.stays (P := fun p => P (p.call c)) htu (huj.trans hj) (fun k htk hku hk => ?_) ht
  by_cases hown : (r.act k).1 = c
  · exact h k ⟨hit.trans htk, Nat.lt_of_lt_of_le hku huj, hown⟩ hk
  · obtain ⟨l', -, hcall⟩ :=
      machine_next.mp (r.step k (Nat.lt_of_lt_of_le hku (huj.trans hj)))
    rw [call_other hcall (Ne.symm hown)]
    exact hk

/-- It is brought about by one step, and every other leaves it as it is. -/
theorem Keeps.crosses_once (h : Keeps r P c i j) (hij : i ≤ j) (hj : j ≤ n)
    (hi : ¬ P ((r.state i).call c)) (hend : P ((r.state j).call c)) :
    ∃ k, OwnStep r c i j k ∧ ¬ P ((r.state k).call c) ∧ P ((r.state (k + 1)).call c) ∧
      ∀ u, i ≤ u → u < j → u ≠ k →
        (P ((r.state u).call c) ↔ P ((r.state (u + 1)).call c)) := by
  obtain ⟨k, e, hik, hkj, hact, hbefore, hafter, -⟩ := exists_step r hij hj hi hend
  refine ⟨k, ⟨hik, hkj, by rw [hact]⟩, hbefore, hafter, fun u hiu huj hne => ?_⟩
  rcases Nat.lt_or_ge u k with huk | hku
  · -- it cannot have been true before `k`
    have hearly : ∀ v, i ≤ v → v ≤ k → ¬ P ((r.state v).call c) := fun v hiv hv hp =>
      hbefore (h.stays hj hiv hv hkj.le hp)
    exact iff_of_false (hearly u hiu huk.le) (hearly (u + 1) (Nat.le_succ_of_le hiu) huk)
  · have hku : k + 1 ≤ u := Nat.lt_of_le_of_ne hku (Ne.symm hne)
    have hlate : ∀ v, k + 1 ≤ v → v ≤ j → P ((r.state v).call c) := fun v hv hvj =>
      h.stays hj (Nat.le_succ_of_le hik) hv hvj hafter
    exact iff_of_true (hlate u hku huj.le) (hlate (u + 1) (Nat.le_succ_of_le hku) huj)

/-- A call that has not come to be `P` at the end never was, and did nothing. -/
theorem Leaves.of_not_end (hij : i ≤ j) (hj : j ≤ n) (hkeep : Keeps r P c i j)
    (hend : ¬ P ((r.state j).call c))
    (hsame : ∀ t, OwnStep r c i j t → ¬ P ((r.state (t + 1)).call c) →
      v (r.state (t + 1)).shared = v (r.state t).shared) : Leaves r v c i j :=
  .of_steps hij fun t ht => hsame t ht fun hp =>
    hend (hkeep.stays hj (Nat.le_succ_of_le ht.first) ht.last (Nat.le_refl j) hp)

/--
The step with which a call comes to be `done` applies `g x` to the value, where `x` is what
the call returns from then on, and no other step changes the value.
-/
theorem Applies.of_moves {ρ : Type*} (done : κ → Prop) (returns : ρ → κ → Prop) {g : ρ → β → β}
    {x : ρ} (hij : i ≤ j) (hj : j ≤ n) (hdone : Keeps r done c i j)
    (hreturns : ∀ y, Keeps r (returns y) c i j)
    (hunique : ∀ y l, returns x l → returns y l → x = y)
    (hmove : ∀ t, OwnStep r c i j t →
      (v (r.state (t + 1)).shared = v (r.state t).shared ∧
          (done ((r.state t).call c) ↔ done ((r.state (t + 1)).call c))) ∨
        (¬ done ((r.state t).call c) ∧ done ((r.state (t + 1)).call c) ∧
          ∃ y, returns y ((r.state (t + 1)).call c) ∧
            v (r.state (t + 1)).shared = g y (v (r.state t).shared)))
    (hi : ¬ done ((r.state i).call c)) (hend : done ((r.state j).call c))
    (hx : returns x ((r.state j).call c)) : Applies r v (g x) c i j := by
  obtain ⟨t, ht, hbefore, hafter, hother⟩ := hdone.crosses_once hij hj hi hend
  refine .of_once ht ?_ fun u hu hne => ?_
  · rcases hmove t ht with ⟨-, hsame⟩ | ⟨-, -, y, hy, happly⟩
    · exact absurd (hsame.mpr hafter) hbefore
    · have hlater := (hreturns y).stays hj (Nat.le_succ_of_le ht.first) ht.last (Nat.le_refl j) hy
      rw [hunique y _ hx hlater]
      exact happly
  · rcases hmove u hu with ⟨hsame, -⟩ | ⟨hnot, hyes, -⟩
    · exact hsame
    · exact absurd ((hother u hu.first hu.last hne).mpr hyes) hnot

/--
`hold` is where a call has something to give back, `past` where it has nothing any more.
It takes it when it comes to hold it, and gives it back when it stops.
-/
theorem GivesBack.of_places {takes : κ → κ → Prop} {gives : κ → Prop} (hold past : κ → Prop)
    (hij : i ≤ j) (hj : j ≤ n) (hpast : Keeps r past c i j)
    (hhold : ∀ t, OwnStep r c i j t → hold ((r.state t).call c) →
      hold ((r.state (t + 1)).call c) ∨
        (gives ((r.state t).call c) ∧ past ((r.state (t + 1)).call c)))
    (htake : ∀ t, OwnStep r c i j t → ¬ hold ((r.state t).call c) →
      hold ((r.state (t + 1)).call c) → takes ((r.state t).call c) ((r.state (t + 1)).call c))
    (hgive : ∀ t, OwnStep r c i j t → gives ((r.state t).call c) →
      past ((r.state (t + 1)).call c))
    (htakes : ∀ l l', takes l l' → hold l') (hgives : ∀ l, gives l → hold l)
    (hapart : ∀ l, hold l → ¬ past l) (hi : ¬ hold ((r.state i).call c))
    (hi' : ¬ past ((r.state i).call c)) (hend : past ((r.state j).call c)) :
    GivesBack r takes gives c i j := by
  refine ⟨fun hex => ?_, fun hnone t ht hgiven => ?_⟩
  · obtain ⟨t, ht, htaken⟩ := hex
    obtain ⟨k, hk, hbefore, hafter, hother⟩ := hpast.crosses_once hij hj hi' hend
    have hheld := htakes _ _ htaken
    have hit : i ≤ t + 1 := Nat.le_succ_of_le ht.first
    have htk : t + 1 ≤ k := by
      by_contra hlt
      exact hapart _ hheld
        (hpast.stays hj (Nat.le_succ_of_le hk.first) (by omega) ht.last hafter)
    -- from the step that takes it on, the call holds it until it is past that
    have hkeep : Keeps r (fun l => hold l ∨ past l) c i j := by
      intro u hu hl
      rcases hl with hl | hl
      · exact (hhold u hu hl).imp_right And.right
      · exact .inr (hpast u hu hl)
    have hstill := hkeep.stays hj hit htk hk.last.le (.inl hheld)
    have hgiven : gives ((r.state k).call c) := by
      rcases hhold k hk (hstill.resolve_right hbefore) with hl | hl
      · exact absurd hafter (hapart _ hl)
      · exact hl.1
    refine ⟨k, hk, hgiven, fun u hu hgu => ?_⟩
    by_contra hne
    exact hapart _ (hgives _ hgu) ((hother u hu.first hu.last hne).mpr (hgive u hu hgu))
  · obtain ⟨u, e, hiu, hut, hact, hbefore, hafter, -⟩ :=
      exists_step r ht.first (ht.last.le.trans hj) hi (hgives _ hgiven)
    have hu : OwnStep r c i j u := ⟨hiu, hut.trans ht.last, by rw [hact]⟩
    exact hnone ⟨u, hu, htake u hu hbefore hafter⟩

/-! ### How many steps a call takes -/

/-- The number of steps call `c` takes between `i` and `j`. -/
def ownSteps (r : (machine start idle f).Run n) (c i j : Nat) : Nat :=
  ((Finset.Ico i j).filter fun t => (r.act t).1 = c).card

/-- A measure that own steps lower, and no others raise, bounds their number. -/
theorem ownSteps_add_le {m : Nat → Nat} (hij : i ≤ j)
    (hown : ∀ t, OwnStep r c i j t → m (t + 1) + 1 ≤ m t)
    (hothers : ∀ t, i ≤ t → t < j → (r.act t).1 ≠ c → m (t + 1) ≤ m t) :
    ownSteps r c i j + m j ≤ m i := by
  induction j, hij using Nat.le_induction with
  | base => simp [ownSteps]
  | succ j hij ih =>
      have hrest := ih (fun t ht => hown t ⟨ht.first, Nat.lt_succ_of_lt ht.last, ht.own⟩)
        fun t hit htj => hothers t hit (Nat.lt_succ_of_lt htj)
      have hico : Finset.Ico i (j + 1) = insert j (Finset.Ico i j) :=
        (Finset.insert_Ico_right_eq_Ico_add_one hij).symm
      by_cases hmine : (r.act j).1 = c
      · have hstep := hown j ⟨hij, Nat.lt_succ_self j, hmine⟩
        have hcount : ownSteps r c i (j + 1) = ownSteps r c i j + 1 := by
          unfold ownSteps
          rw [hico, Finset.filter_insert, if_pos hmine, Finset.card_insert_of_notMem (by simp)]
        omega
      · have hstep := hothers j hij (Nat.lt_succ_self j) hmine
        have hcount : ownSteps r c i (j + 1) = ownSteps r c i j := by
          unfold ownSteps
          rw [hico, Finset.filter_insert, if_neg hmine]
        omega

end Lkp.Pool
