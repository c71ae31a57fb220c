/-
Read-side sections and grace periods.

Every read-side section gets a ticket when it begins; tickets are handed out in
order.  A call of `synchronize_rcu` notes the next ticket and may return once no
section with an earlier ticket is open.  Sections that begin later it does not
wait for — that is the whole contract, and it is all a user of RCU can rely on.

A call is inside a section when it holds a ticket.  `Section` says how a step
may change what is open and what the moving call holds; that a ticket in hand is
open, and that no two calls share one, follows for every driver built from it.
-/
import Mathlib.Tactic
import Mathlib.Data.Finset.Basic

namespace Lkp

/-- The next ticket, and those of the sections now open. -/
structure Rcu where
  next : Nat
  opened : Finset Nat
  deriving DecidableEq

namespace Rcu

/-- Nothing has begun. -/
def fresh : Rcu := { next := 0, opened := ∅ }

/-- `rcu_read_lock`; the ticket is the old `next`. -/
def lock (r : Rcu) : Rcu := { next := r.next + 1, opened := insert r.next r.opened }

/-- `rcu_read_unlock`. -/
def unlock (r : Rcu) (t : Nat) : Rcu := { r with opened := r.opened.erase t }

/-- A grace period that began when `bound` was the next ticket is over. -/
def Over (r : Rcu) (bound : Nat) : Prop := ∀ t ∈ r.opened, bound ≤ t

instance (r : Rcu) (bound : Nat) : Decidable (r.Over bound) := by
  unfold Over; infer_instance

/-- Open sections have tickets that were handed out. -/
def WF (r : Rcu) : Prop := ∀ t ∈ r.opened, t < r.next

/-- The ticket a call holds, if any, is open. -/
def InSection (r : Rcu) (ticket : Option Nat) : Prop := ∀ t, ticket = some t → t ∈ r.opened

/-- Two calls do not hold the same ticket. -/
def Apart (ticket ticket' : Option Nat) : Prop := ∀ t, ticket = some t → ticket' ≠ some t

/-- What one step may do: sections open and ticket in hand, before and after. -/
inductive Section : Rcu → Option Nat → Rcu → Option Nat → Prop
  | keep (r : Rcu) (ticket : Option Nat) : Section r ticket r ticket
  | lock (r : Rcu) : Section r none r.lock (some r.next)
  | unlock (r : Rcu) (t : Nat) : Section r (some t) (r.unlock t) none

theorem fresh_wf : fresh.WF := by simp [WF, fresh]

@[simp] theorem inSection_none (r : Rcu) : r.InSection none := by simp [InSection]

@[simp] theorem apart_none (ticket : Option Nat) : Apart ticket none := by simp [Apart]

@[simp] theorem none_apart (ticket : Option Nat) : Apart none ticket := by simp [Apart]

theorem Apart.symm {a b : Option Nat} (h : Apart a b) : Apart b a :=
  fun t hb ha => h t ha hb

/-- **A grace period that is over has outlived every section begun before it.** -/
theorem Over.notMem {r : Rcu} {bound t : Nat} (h : r.Over bound) (ht : t < bound) :
    t ∉ r.opened :=
  fun hmem => absurd (h t hmem) (Nat.not_le.mpr ht)

namespace Section

variable {r r' : Rcu} {a a' b : Option Nat}

theorem wf (h : Section r a r' a') (hr : r.WF) : r'.WF := by
  cases h with
  | keep => exact hr
  | lock =>
      intro t ht
      rcases Finset.mem_insert.mp ht with rfl | hold
      · exact Nat.lt_succ_self _
      · exact Nat.lt_succ_of_lt (hr t hold)
  | unlock t => exact fun u hu => hr u (Finset.mem_of_mem_erase hu)

/-- The call that steps holds an open ticket or none. -/
theorem own (h : Section r a r' a') (ha : r.InSection a) : r'.InSection a' := by
  cases h with
  | keep => exact ha
  | lock =>
      intro t ht
      cases ht
      exact Finset.mem_insert_self _ _
  | unlock => simp

/-- So does every other call. -/
theorem other (h : Section r a r' a') (hb : r.InSection b) (hab : Apart a b) :
    r'.InSection b := by
  intro u hu
  have hmem := hb u hu
  cases h with
  | keep => exact hmem
  | lock => exact Finset.mem_insert_of_mem hmem
  | unlock t =>
      have hne : u ≠ t := by
        intro heq
        subst heq
        exact hab u rfl hu
      exact Finset.mem_erase.mpr ⟨hne, hmem⟩

/-- What the call holds is what it held, a new ticket, or nothing. -/
theorem ticket (h : Section r a r' a') : a' = a ∨ a' = some r.next ∨ a' = none := by
  cases h with
  | keep => exact Or.inl rfl
  | lock => exact Or.inr (Or.inl rfl)
  | unlock => exact Or.inr (Or.inr rfl)

/-- A new ticket is one nobody holds. -/
theorem apart (h : Section r a r' a') (hr : r.WF) (hb : r.InSection b) (hab : Apart a b) :
    Apart a' b := by
  cases h with
  | keep => exact hab
  | lock =>
      intro t ht hbt
      cases ht
      exact absurd (hr _ (hb _ hbt)) (Nat.lt_irrefl _)
  | unlock => simp

end Section

end Rcu

end Lkp
