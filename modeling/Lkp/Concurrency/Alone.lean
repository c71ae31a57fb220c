/-
Calls that run alone.

A claim about what calls do one after another needs no interleavings: a call begins,
takes its steps and returns, and then the next one begins.  `Returns` is such a call
from one place to its return, `InTurn` a sequence of them.  What the world answers may
depend on the place, so that of several allocations in one call each may fail or not.

Both say that the end is reached, and what is reached is unique.
-/
import Lkp.Concurrency.Pool

namespace Lkp

variable {σ κ ε : Type*}

/-- Call `c` runs from one place to its return, `world` answering each step. -/
inductive Returns (f : CallStep σ κ ε) (done : κ → Prop) (c : Nat) (world : κ → ε) :
    σ → κ → σ → κ → Prop
  | done {s : σ} {l : κ} (h : done l) : Returns f done c world s l s l
  | step {s s₁ s' : σ} {l l₁ l' : κ} (hgo : ¬ done l)
      (hs : f c (world l) s l = some (s₁, l₁)) (h : Returns f done c world s₁ l₁ s' l') :
      Returns f done c world s l s' l'

/-- One call after another, each of them begun at `idle` with a world of its own. -/
inductive InTurn (f : CallStep σ κ ε) (done : κ → Prop) (c : Nat) (idle : κ) :
    List (κ → ε) → σ → σ → Prop
  | nil (s : σ) : InTurn f done c idle [] s s
  | cons {world : κ → ε} {rest : List (κ → ε)} {s s₁ s' : σ} {l : κ}
      (h : Returns f done c world s idle s₁ l) (hrest : InTurn f done c idle rest s₁ s') :
      InTurn f done c idle (world :: rest) s s'

variable {f : CallStep σ κ ε} {done : κ → Prop} {c : Nat} {world : κ → ε} {idle : κ}

/-- A call that runs alone ends in one way. -/
theorem Returns.unique {s s₁ s₂ : σ} {l l₁ l₂ : κ} (h₁ : Returns f done c world s l s₁ l₁)
    (h₂ : Returns f done c world s l s₂ l₂) : s₁ = s₂ ∧ l₁ = l₂ := by
  induction h₁ with
  | done hdone =>
      cases h₂ with
      | done _ => exact ⟨rfl, rfl⟩
      | step hgo _ _ => exact absurd hdone hgo
  | step hgo hs _ ih =>
      cases h₂ with
      | done hdone => exact absurd hdone hgo
      | step _ hs₂ hrest =>
          rw [hs, Option.some.injEq, Prod.mk.injEq] at hs₂
          obtain ⟨rfl, rfl⟩ := hs₂
          exact ih hrest

/-- A part of a call that is run to its end, and then the rest of the call. -/
theorem Returns.trans {whole : κ → Prop} (hsub : ∀ l, whole l → done l) {s s₁ s' : σ} {l l₁ l' : κ}
    (h : Returns f done c world s l s₁ l₁) (hrest : Returns f whole c world s₁ l₁ s' l') :
    Returns f whole c world s l s' l' := by
  induction h with
  | done _ => exact hrest
  | step hgo hs _ ih => exact .step (mt (hsub _) hgo) hs (ih hrest)

/-- Among the others, a call may run alone for a while. -/
theorem Returns.reachableBy {start : σ → Prop} {ok : Pool σ κ → Nat × ε → Prop} {s s' : σ}
    {l l' : κ} (h : Returns f done c world s l s' l') (hok : ∀ q l, ok q (c, world l)) :
    ∀ p : Pool σ κ, (Pool.machine start idle f).ReachableBy ok p → p.shared = s → p.call c = l →
      (Pool.machine start idle f).ReachableBy ok
        { shared := s', call := Function.update p.call c l' } := by
  induction h with
  | done _ =>
      intro p hp hs hl
      subst hs hl
      rw [Function.update_eq_self]
      exact hp
  | @step s s₁ s' l l₁ l' _ hstep _ ih =>
      intro p hp hs hl
      subst hs hl
      have hnext : (Pool.machine start idle f).ReachableBy ok
          { shared := s₁, call := Function.update p.call c l₁ } :=
        Pool.reachableBy_step hp (hok _ _) hstep
      have hrest := ih _ hnext rfl (Function.update_self ..)
      rwa [Function.update_idem] at hrest

/-- And so does a sequence of calls. -/
theorem InTurn.unique {worlds : List (κ → ε)} {s s₁ s₂ : σ}
    (h₁ : InTurn f done c idle worlds s s₁) (h₂ : InTurn f done c idle worlds s s₂) :
    s₁ = s₂ := by
  induction h₁ with
  | nil s =>
      cases h₂
      rfl
  | cons hcall _ ih =>
      cases h₂ with
      | cons hcall₂ hrest =>
          obtain ⟨rfl, -⟩ := hcall.unique hcall₂
          exact ih hrest

/-- What every call of the sequence adds to, the sequence adds to in turn. -/
theorem InTurn.exists_of_step {α β : Type*} {P : List α → σ → Prop} {enter : β → κ → ε}
    {add : β → List α}
    (hstep : ∀ b l s, P l s → ∃ s' l', Returns f done c (enter b) s idle s' l' ∧
      P (l ++ add b) s') :
    ∀ (bs : List β) (l : List α) (s : σ), P l s →
      ∃ s', InTurn f done c idle (bs.map enter) s s' ∧ P (l ++ bs.flatMap add) s' := by
  intro bs
  induction bs with
  | nil =>
      intro l s hP
      refine ⟨s, .nil s, ?_⟩
      rw [List.flatMap_nil, List.append_nil]
      exact hP
  | cons b bs ih =>
      intro l s hP
      obtain ⟨s₁, l₁, hcall, hP₁⟩ := hstep b l s hP
      obtain ⟨s', hrest, hP'⟩ := ih (l ++ add b) s₁ hP₁
      refine ⟨s', .cons hcall hrest, ?_⟩
      rw [List.flatMap_cons, ← List.append_assoc]
      exact hP'

end Lkp
