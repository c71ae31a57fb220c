/-
The counting loops of C.

A pass through the body of a loop goes on to the next one or leaves the loop, by `break`,
`return` or `goto`.  It is `none` where C leaves undefined what happens, and then so is
the loop.

`forUp` and `forDown` are the two loops.  What is proved of one that counts up is proved by
an invariant: `forUp_ends` asks that it hold at first and that every pass keep it, or leave
the loop with what is wanted there.
-/
import Mathlib.Tactic

namespace Lkp

/-- How a pass through the body of a loop ends, and with what state. -/
inductive Pass (σ : Type*)
  | next (s : σ)
  | stop (s : σ)

/-- The state, however the pass ended. -/
def Pass.state {σ : Type*} : Pass σ → σ
  | .next s => s
  | .stop s => s

variable {σ : Type*}

/-- `for (i = k; i < k + n; i++) body` -/
def forUp (body : Nat → σ → Option (Pass σ)) : Nat → Nat → σ → Option (Pass σ)
  | 0, _, s => some (.next s)
  | n + 1, k, s =>
      (body k s).bind fun
        | .next s' => forUp body n (k + 1) s'
        | .stop s' => some (.stop s')

/-- `for (j = n; j > 0; j--) body` -/
def forDown (body : Nat → σ → Option (Pass σ)) : Nat → σ → Option (Pass σ)
  | 0, s => some (.next s)
  | n + 1, s =>
      (body (n + 1) s).bind fun
        | .next s' => forDown body n s'
        | .stop s' => some (.stop s')

/-- Defined, with `P` where it goes on and `Q` where it leaves. -/
inductive Ends (P Q : σ → Prop) : Option (Pass σ) → Prop
  | next {s : σ} (h : P s) : Ends P Q (some (.next s))
  | stop {s : σ} (h : Q s) : Ends P Q (some (.stop s))

namespace Ends

variable {P Q P' Q' : σ → Prop} {x : Option (Pass σ)}

theorem mono (h : Ends P Q x) (hP : ∀ s, P s → P' s) (hQ : ∀ s, Q s → Q' s) : Ends P' Q' x := by
  cases h with
  | next h => exact .next (hP _ h)
  | stop h => exact .stop (hQ _ h)

/-- A loop that nothing leaves. -/
theorem exists_next (h : Ends P (fun _ => False) x) : ∃ s, x = some (.next s) ∧ P s := by
  cases h with
  | next h => exact ⟨_, rfl, h⟩
  | stop h => exact h.elim

end Ends

variable {body : Nat → σ → Option (Pass σ)} {Q : σ → Prop}

/-- **The rule for a loop that counts up.** -/
theorem forUp_ends {P : Nat → σ → Prop} {n k : Nat} {s : σ}
    (hstep : ∀ i s, k ≤ i → i < k + n → P i s → Ends (P (i + 1)) Q (body i s)) (h : P k s) :
    Ends (P (k + n)) Q (forUp body n k s) := by
  induction n generalizing k s with
  | zero => exact .next h
  | succ n ih =>
      have hpass := hstep k s (Nat.le_refl k) (by omega) h
      rw [forUp]
      generalize body k s = x at hpass ⊢
      cases hpass with
      | next h' =>
          have hrest := ih (fun i s hki hin => hstep i s (by omega) (by omega)) h'
          rw [Option.bind_some]
          rwa [show k + 1 + n = k + (n + 1) by omega] at hrest
      | stop h' => exact .stop h'

/-- The last pass of a loop, taken apart from those before it. -/
theorem forUp_succ_right (n k : Nat) (s : σ) :
    forUp body (n + 1) k s = (forUp body n k s).bind fun
      | .next s' => body (k + n) s'
      | .stop s' => some (.stop s') := by
  induction n generalizing k s with
  | zero =>
      show (body k s).bind _ = body k s
      refine Eq.trans (congrArg _ (funext fun p => ?_)) (Option.bind_fun_some _)
      cases p <;> rfl
  | succ n ih =>
      rw [forUp, forUp, Option.bind_assoc]
      congr 1
      funext p
      cases p with
      | next s' =>
          rw [show k + (n + 1) = k + 1 + n by omega]
          exact ih (k + 1) s'
      | stop s' => rfl

/-- Only the passes that are made count. -/
theorem forUp_congr {body' : Nat → σ → Option (Pass σ)} {n k : Nat} {s : σ}
    (h : ∀ i s, k ≤ i → i < k + n → body i s = body' i s) :
    forUp body n k s = forUp body' n k s := by
  induction n generalizing k s with
  | zero => rfl
  | succ n ih =>
      rw [forUp, forUp, h k s (Nat.le_refl k) (by omega)]
      congr 1
      funext p
      cases p with
      | next s' => exact ih fun i s hki hin => h i s (by omega) (by omega)
      | stop s' => rfl

/-- A loop that only looks at things ends well if each pass does. -/
theorem forUp_check {p : Nat → Bool} {n k : Nat} {s : σ}
    (h : ∀ i, body i s = if p i then some (.next s) else none) :
    forUp body n k s =
      if ∀ i, k ≤ i → i < k + n → p i = true then some (.next s) else none := by
  induction n generalizing k with
  | zero => rw [if_pos fun i hki hin => absurd hin (by omega), forUp]
  | succ n ih =>
      have hsplit : (∀ i, k ≤ i → i < k + (n + 1) → p i = true) ↔
          p k = true ∧ ∀ i, k + 1 ≤ i → i < k + 1 + n → p i = true := by
        constructor
        · intro hall
          exact ⟨hall k (Nat.le_refl k) (by omega), fun i _ _ => hall i (by omega) (by omega)⟩
        · intro hall i hki hin
          by_cases heq : i = k
          · exact heq ▸ hall.1
          · exact hall.2 i (by omega) (by omega)
      rw [forUp, h k]
      by_cases hk : p k = true
      · rw [if_pos hk, Option.bind_some]
        exact ih.trans (if_congr (by rw [hsplit, and_iff_right hk]) rfl rfl)
      · rw [if_neg hk, if_neg fun hall => hk (hsplit.mp hall).1]
        rfl

end Lkp
