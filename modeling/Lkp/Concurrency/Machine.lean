/-
Systems that move by steps, and what holds along their runs.

A driver under concurrent use is a machine: a state, and for every action either
the state it leads to or `none`, where the action cannot be taken.  All choice
sits in the action — which call moves, and what the world around it answers — so
`next` is a function and a run can be computed.

Two readings of "always" are needed.  `ReachableBy ok` collects the states a run
can get to when each of its steps meets `ok` in the state it is taken from; with
the trivial `ok` these are simply the reachable states.  `Run` keeps the states
in between, which is what a claim about a moment *inside* a call speaks of.
-/
import Mathlib.Tactic
import Mathlib.Data.Nat.Init
import Mathlib.Data.List.Basic

namespace Lkp

/-- Where a system may start, and what an action does in a state. -/
structure Machine (σ α : Type*) where
  /-- The states a run may begin in. -/
  init : σ → Prop
  /-- The state after an action, or `none` where it cannot be taken. -/
  next : σ → α → Option σ

namespace Machine

variable {σ α : Type*} {m : Machine σ α} {ok : σ → α → Prop}

/-! ### Reachable states -/

/-- Reached by a run whose every step meets `ok` in the state it is taken from. -/
inductive ReachableBy (m : Machine σ α) (ok : σ → α → Prop) : σ → Prop
  | init {s : σ} (h : m.init s) : ReachableBy m ok s
  | step {s s' : σ} {a : α} (h : ReachableBy m ok s) (hok : ok s a)
      (hs : m.next s a = some s') : ReachableBy m ok s'

/-- Reached by any run. -/
abbrev Reachable (m : Machine σ α) : σ → Prop := m.ReachableBy fun _ _ => True

/-- True at the start and kept by every step that meets `ok`. -/
structure Inductive (m : Machine σ α) (ok : σ → α → Prop) (I : σ → Prop) : Prop where
  init : ∀ s, m.init s → I s
  step : ∀ s a s', I s → ok s a → m.next s a = some s' → I s'

theorem Inductive.holds {I : σ → Prop} (h : m.Inductive ok I) {s : σ}
    (hs : m.ReachableBy ok s) : I s := by
  induction hs with
  | init h0 => exact h.init _ h0
  | step _ hok hnext ih => exact h.step _ _ _ ih hok hnext

/-- What is known of every state may be assumed at every step. -/
theorem ReachableBy.assuming {I : σ → Prop} (hI : m.Inductive ok I) {s : σ}
    (h : m.ReachableBy ok s) : m.ReachableBy (fun s a => ok s a ∧ I s) s := by
  induction h with
  | init h0 => exact .init h0
  | step h hok hnext ih => exact ih.step ⟨hok, hI.holds h⟩ hnext

/-- So may what is true of every state that is reached. -/
theorem ReachableBy.imp {ok' : σ → α → Prop} {s : σ} (h : m.ReachableBy ok s)
    (hw : ∀ s a, m.ReachableBy ok s → ok s a → ok' s a) : m.ReachableBy ok' s := by
  induction h with
  | init h0 => exact .init h0
  | step h hok hnext ih => exact ih.step (hw _ _ h hok) hnext

theorem ReachableBy.weaken {ok' : σ → α → Prop} {s : σ} (h : m.ReachableBy ok s)
    (hw : ∀ s a, ok s a → ok' s a) : m.ReachableBy ok' s :=
  h.imp fun s a _ => hw s a

/-! ### One machine seen as another -/

/-- Seen through `g`, a step of `m` is a step of `m'`, or nothing happens. -/
structure Refines {τ β : Type*} (m : Machine σ α) (m' : Machine τ β) (g : σ → τ) : Prop where
  init : ∀ s, m.init s → m'.init (g s)
  step : ∀ s a s', m.next s a = some s' → g s' = g s ∨ ∃ b, m'.next (g s) b = some (g s')

theorem Refines.reachable {τ β : Type*} {m' : Machine τ β} {g : σ → τ} (h : m.Refines m' g)
    {s : σ} (hs : m.Reachable s) : m'.Reachable (g s) := by
  induction hs with
  | init h0 => exact .init (h.init _ h0)
  | step _ _ hnext ih =>
      rcases h.step _ _ _ hnext with hsame | ⟨b, hb⟩
      · rw [hsame]
        exact ih
      · exact ih.step trivial hb

/-! ### Running a list of actions -/

/-- Take the actions one after another. -/
def exec (m : Machine σ α) : σ → List α → Option σ
  | s, [] => some s
  | s, a :: as => (m.next s a).bind fun s' => exec m s' as

@[simp] theorem exec_nil (s : σ) : m.exec s [] = some s := rfl

@[simp] theorem exec_cons (s : σ) (a : α) (as : List α) :
    m.exec s (a :: as) = (m.next s a).bind fun s' => m.exec s' as := rfl

theorem exec_append (s : σ) (as bs : List α) :
    m.exec s (as ++ bs) = (m.exec s as).bind fun s' => m.exec s' bs := by
  induction as generalizing s with
  | nil => rfl
  | cons a as ih =>
      simp only [List.cons_append, exec_cons, Option.bind_assoc]
      congr 1
      funext s'
      exact ih s'

theorem exec_trans {s t u : σ} {as bs : List α} (h : m.exec s as = some t)
    (h' : m.exec t bs = some u) : m.exec s (as ++ bs) = some u := by
  rw [exec_append, h]
  exact h'

theorem reachable_of_exec {s s' : σ} {as : List α} (hs : m.Reachable s)
    (h : m.exec s as = some s') : m.Reachable s' := by
  induction as generalizing s with
  | nil => simp only [exec_nil, Option.some.injEq] at h; exact h ▸ hs
  | cons a as ih =>
      obtain ⟨s₁, hs₁, hrest⟩ := Option.bind_eq_some_iff.mp h
      exact ih (hs.step trivial hs₁) hrest

theorem exists_exec {s : σ} (h : m.Reachable s) :
    ∃ s₀ as, m.init s₀ ∧ m.exec s₀ as = some s := by
  induction h with
  | init h0 => exact ⟨_, [], h0, rfl⟩
  | @step s s' a _ _ hnext ih =>
      obtain ⟨s₀, as, h0, hexec⟩ := ih
      exact ⟨s₀, as ++ [a], h0, exec_trans hexec (by rw [exec_cons, hnext]; rfl)⟩

/-! ### Runs with the states they visit -/

/-- A run of `n` steps: the states it visits and the actions between them. -/
structure Run (m : Machine σ α) (n : Nat) where
  state : Nat → σ
  act : Nat → α
  start : m.init (state 0)
  step : ∀ i, i < n → m.next (state i) (act i) = some (state (i + 1))

namespace Run

variable {n : Nat}

/-- Every step of the run meets `ok` in the state it is taken from. -/
def Meets (r : m.Run n) (ok : σ → α → Prop) : Prop :=
  ∀ i, i < n → ok (r.state i) (r.act i)

theorem reachableBy (r : m.Run n) (h : r.Meets ok) :
    ∀ i, i ≤ n → m.ReachableBy ok (r.state i) := by
  intro i
  induction i with
  | zero => intro _; exact .init r.start
  | succ i ih =>
      intro hi
      exact (ih (Nat.le_of_succ_le hi)).step (h i hi) (r.step i hi)

theorem reachable (r : m.Run n) : ∀ i, i ≤ n → m.Reachable (r.state i) :=
  r.reachableBy fun _ _ => trivial

/-- What was false early and is true later became true at some step between. -/
theorem exists_change (r : m.Run n) {P : σ → Prop} {i j : Nat} (hij : i ≤ j)
    (hi : ¬ P (r.state i)) (hj : P (r.state j)) :
    ∃ k, i ≤ k ∧ k < j ∧ ¬ P (r.state k) ∧ P (r.state (k + 1)) := by
  induction j, hij using Nat.le_induction with
  | base => exact absurd hj hi
  | succ j hij ih =>
      by_cases hp : P (r.state j)
      · obtain ⟨k, hik, hkj, hk⟩ := ih hp
        exact ⟨k, hik, Nat.lt_succ_of_lt hkj, hk⟩
      · exact ⟨j, hij, Nat.lt_succ_self j, hp, hj⟩

/-- What no step of the run undoes stays true. -/
theorem stays (r : m.Run n) {P : σ → Prop} {i j : Nat} (hij : i ≤ j) (hj : j ≤ n)
    (hstep : ∀ k, i ≤ k → k < j → P (r.state k) → P (r.state (k + 1)))
    (hi : P (r.state i)) : P (r.state j) := by
  induction j, hij using Nat.le_induction with
  | base => exact hi
  | succ j hij ih =>
      exact hstep j hij (Nat.lt_succ_self j)
        (ih (Nat.le_of_succ_le hj) fun k hk hkj => hstep k hk (Nat.lt_succ_of_lt hkj))

/-- Step `s` is the last one before `t` that is a `W`. -/
structure LastBefore (r : m.Run n) (W : σ → α → Prop) (s t : Nat) : Prop where
  before : s < t
  is : W (r.state s) (r.act s)
  last : ∀ u, s < u → u < t → ¬ W (r.state u) (r.act u)

/-- A property that only the steps in `W` decide is what the last of them made it. -/
theorem iff_last (r : m.Run n) {P : σ → Prop} {W V : σ → α → Prop} (hstart : ¬ P (r.state 0))
    (hset : ∀ i, i < n → W (r.state i) (r.act i) →
      (P (r.state (i + 1)) ↔ V (r.state i) (r.act i)))
    (hkeep : ∀ i, i < n → ¬ W (r.state i) (r.act i) → (P (r.state (i + 1)) ↔ P (r.state i))) :
    ∀ t, t ≤ n → (P (r.state t) ↔ ∃ s, r.LastBefore W s t ∧ V (r.state s) (r.act s)) := by
  intro t
  induction t with
  | zero =>
      intro _
      refine iff_of_false hstart fun hex => ?_
      obtain ⟨s, hs, -⟩ := hex
      exact absurd hs.before (Nat.not_lt_zero s)
  | succ t ih =>
      intro ht
      by_cases hw : W (r.state t) (r.act t)
      · rw [hset t ht hw]
        constructor
        · intro hv
          exact ⟨t, ⟨Nat.lt_succ_self t, hw, fun u htu hut => absurd hut (by omega)⟩, hv⟩
        · intro hex
          obtain ⟨s, hs, hv⟩ := hex
          have heq : s = t := by
            by_contra hne
            exact hs.last t (by have := hs.before; omega) (Nat.lt_succ_self t) hw
          exact heq ▸ hv
      · rw [hkeep t ht hw, ih (Nat.le_of_succ_le ht)]
        constructor
        · intro hex
          obtain ⟨s, hs, hv⟩ := hex
          refine ⟨s, ⟨Nat.lt_succ_of_lt hs.before, hs.is, fun u hsu hut => ?_⟩, hv⟩
          by_cases heq : u = t
          · exact heq ▸ hw
          · exact hs.last u hsu (by omega)
        · intro hex
          obtain ⟨s, hs, hv⟩ := hex
          have hne : s ≠ t := fun heq => hw (heq ▸ hs.is)
          exact ⟨s, ⟨by have := hs.before; omega, hs.is,
            fun u hsu hut => hs.last u hsu (Nat.lt_succ_of_lt hut)⟩, hv⟩

/-- The run that takes a given list of actions. -/
def ofActs [Inhabited α] (s₀ : σ) (as : List α) (h0 : m.init s₀)
    (h : (m.exec s₀ as).isSome) : m.Run as.length where
  state i := (m.exec s₀ (as.take i)).getD s₀
  act i := as.getD i default
  start := h0
  step i hi := by
    obtain ⟨sn, hsn⟩ := Option.isSome_iff_exists.mp h
    rw [← List.take_append_drop (i + 1) as, exec_append] at hsn
    obtain ⟨s', hs', -⟩ := Option.bind_eq_some_iff.mp hsn
    have hsplit := hs'
    rw [List.take_succ_eq_append_getElem hi, exec_append] at hsplit
    obtain ⟨s, hs, hnext⟩ := Option.bind_eq_some_iff.mp hsplit
    have hact : as.getD i default = as[i] := by simp [List.getD, hi]
    simp only [hs', hs, hact, Option.getD_some]
    simpa using hnext

/-- A state that can be reached is the last of a run. -/
theorem exists_of_reachable [Inhabited α] {s : σ} (h : m.Reachable s) :
    ∃ n, ∃ r : m.Run n, r.state n = s := by
  obtain ⟨s₀, as, h0, hexec⟩ := exists_exec h
  refine ⟨as.length, ofActs s₀ as h0 (by rw [hexec]; rfl), ?_⟩
  simp [ofActs, hexec]

end Run

end Machine

end Lkp
