/-
A lock that one call at a time can hold.

A lock is the number of the call that holds it, if any.  Which calls hold it can
also be read off the places they have got to; `Owned` says the two agree, and
mutual exclusion is nothing more than that they do.  A step keeps them in
agreement when it leaves both alone, takes a free lock, or drops its own — the
three forms of `LockStep`, which is all that has to be checked of a driver.

With several locks there is also the question of who waits for whom.  If a call
only ever waits for a lock above all those it holds, a chain of waiting calls
climbs the order and so has an end: `exists_unblocked`.
-/
import Mathlib.Tactic
import Mathlib.Order.WellFounded

namespace Lkp

/-- A lock agrees with what call `c` says it holds. -/
def Owned (c : Nat) (owner : Option Nat) (holds : Bool) : Prop :=
  holds = true ↔ owner = some c

/-- What one step of call `c` may do to a lock: owner and holding before, and after. -/
inductive LockStep (c : Nat) : Option Nat → Bool → Option Nat → Bool → Prop
  | keep (o : Option Nat) (h : Bool) : LockStep c o h o h
  | take : LockStep c none false (some c) true
  | drop (o : Option Nat) : LockStep c o true none false

namespace Owned

variable {c d : Nat} {o o' : Option Nat} {h h' : Bool}

theorem free : Owned c none false := by simp [Owned]

/-- A call that holds nothing does not own the lock. -/
theorem not_owner (hc : Owned c o false) : o ≠ some c := by
  intro hown
  have hyes := hc.mpr hown
  cases hyes

/-- Two calls cannot both hold a lock. -/
theorem exclusive (hc : Owned c o true) (hd : Owned d o true) : c = d := by
  have h1 := hc.mp rfl
  have h2 := hd.mp rfl
  rw [h1] at h2
  exact Option.some.inj h2

/-- The call that steps still agrees with the lock. -/
theorem step (hc : Owned c o h) (hs : LockStep c o h o' h') : Owned c o' h' := by
  cases hs with
  | keep => exact hc
  | take => simp [Owned]
  | drop => simp [Owned]

/-- So does every call that does not step. -/
theorem step_other {hd : Bool} (hc : Owned c o h) (hown : Owned d o hd) (hne : d ≠ c)
    (hs : LockStep c o h o' h') : Owned d o' hd := by
  cases hs with
  | keep => exact hown
  | take =>
      have hnot : hd = false := by
        cases hd with
        | false => rfl
        | true => exact absurd (hown.mp rfl) (by simp)
      subst hnot
      simp [Owned, Ne.symm hne]
  | drop =>
      have ho : o = some c := hc.mp rfl
      have hnot : hd = false := by
        cases hd with
        | false => rfl
        | true =>
            have hod := hown.mp rfl
            rw [ho] at hod
            exact absurd (Option.some.inj hod).symm hne
      subst hnot
      simp [Owned]

end Owned

/-! ### Locks taken in order -/

section LockOrder

variable {τ L : Type*} [Preorder L] [WellFoundedGT L]

/--
**No deadlock when every call waits above what it holds**: whoever is asked about,
that call or the holder of some lock waits for no lock that is taken.
-/
theorem exists_unblocked (wants : τ → Option L) (holder : L → Option τ)
    (up : ∀ t l l', wants t = some l → holder l' = some t → l' < l) (t : τ) :
    ∃ u, (u = t ∨ ∃ l, holder l = some u) ∧ ∀ l, wants u = some l → holder l = none := by
  -- the chain starts at `t`; what climbs along it is the lock waited for
  have climb : ∀ (l : L) (t : τ), wants t = some l → ∀ u, holder l = some u →
      ∃ v, (∃ k, holder k = some v) ∧ ∀ k, wants v = some k → holder k = none := by
    intro l
    induction l using WellFoundedGT.induction with
    | ind l ih =>
        intro t ht u hu
        cases hw : wants u with
        | none => exact ⟨u, ⟨l, hu⟩, by simp [hw]⟩
        | some k =>
            cases hk : holder k with
            | none =>
                refine ⟨u, ⟨l, hu⟩, fun k' hk' => ?_⟩
                rw [hw, Option.some.injEq] at hk'
                exact hk' ▸ hk
            | some v => exact ih k (up u k l hw hu) u hw v hk
  cases hw : wants t with
  | none => exact ⟨t, Or.inl rfl, by simp [hw]⟩
  | some l =>
      cases hl : holder l with
      | none =>
          refine ⟨t, Or.inl rfl, fun k hk => ?_⟩
          rw [hw, Option.some.injEq] at hk
          exact hk ▸ hl
      | some u =>
          obtain ⟨v, hv, hfree⟩ := climb l t hw u hl
          exact ⟨v, Or.inr hv, hfree⟩

end LockOrder

end Lkp
