/-
Runs of a pool that remember what they have done.

A state need not tell how it came about.  A variable that is only written can: it has some
value at the start, every step makes a new one of it from what that step finds, and no step
looks at it.  So a run has one value of it in each of its states (`recorded`), and what is
invariant of the pool that carries the variable along (`recording`) is true of every run of
the pool that does not (`inductive_recorded`).
-/
import Lkp.Concurrency.Pool

namespace Lkp

namespace Pool

variable {σ κ ε γ : Type*} {f : CallStep σ κ ε} {start : σ → Prop} {idle : κ}
  {u : Nat → σ → κ → γ → γ} {g₀ : γ} {n : Nat}

/-- The calls, with a variable beside the shared state that each step updates by `u`. -/
def recording (u : Nat → σ → κ → γ → γ) (f : CallStep σ κ ε) : CallStep (σ × γ) κ ε :=
  fun c e s l => (f c e s.1 l).map fun q => ((q.1, u c s.1 l s.2), q.2)

/-- The pool that carries the variable along. -/
abbrev recorder (start : σ → Prop) (idle : κ) (f : CallStep σ κ ε) (u : Nat → σ → κ → γ → γ)
    (g₀ : γ) : Machine (Pool (σ × γ) κ) (Nat × ε) :=
  machine (fun s => start s.1 ∧ s.2 = g₀) idle (recording u f)

/-- The variable along a run. -/
def recorded (u : Nat → σ → κ → γ → γ) (g₀ : γ) (r : (machine start idle f).Run n) : Nat → γ
  | 0 => g₀
  | i + 1 =>
      u (r.act i).1 (r.state i).shared ((r.state i).call (r.act i).1) (recorded u g₀ r i)

/-- A state, and a value of the variable. -/
def withRecord (p : Pool σ κ) (g : γ) : Pool (σ × γ) κ where
  shared := (p.shared, g)
  call := p.call

/-- What is asked of a step, where the variable is not looked at. -/
def unrecorded (ok : Pool σ κ → Nat × ε → Prop) (q : Pool (σ × γ) κ) (a : Nat × ε) : Prop :=
  ok (map Prod.fst id q) a

theorem recording_eq_some {c : Nat} {e : ε} {s s' : σ × γ} {l l' : κ} :
    recording u f c e s l = some (s', l') ↔
      f c e s.1 l = some (s'.1, l') ∧ s'.2 = u c s.1 l s.2 := by
  constructor
  · intro h
    obtain ⟨q, hq, heq⟩ := Option.map_eq_some_iff.mp h
    cases heq
    exact ⟨hq, rfl⟩
  · intro hex
    obtain ⟨hf, hu⟩ := hex
    refine Option.map_eq_some_iff.mpr ⟨_, hf, ?_⟩
    rw [← hu]

/-- A step of the pool is a step of the one that carries the variable along. -/
theorem recorder_next {p p' : Pool σ κ} {a : Nat × ε} (g : γ)
    (h : (machine start idle f).next p a = some p') :
    (recorder start idle f u g₀).next (withRecord p g) a =
      some (withRecord p' (u a.1 p.shared (p.call a.1) g)) := by
  obtain ⟨l', hf, hcall⟩ := machine_next.mp h
  exact machine_next.mpr ⟨l', recording_eq_some.mpr ⟨hf, rfl⟩, hcall⟩

/-- A state that is reached is reached with some value of it. -/
theorem exists_recorded {ok : Pool σ κ → Nat × ε → Prop} {p : Pool σ κ}
    (hp : (machine start idle f).ReachableBy ok p) :
    ∃ g, (recorder start idle f u g₀).ReachableBy (unrecorded ok) (withRecord p g) := by
  induction hp with
  | init h0 => exact ⟨g₀, .init ⟨⟨h0.1, rfl⟩, h0.2⟩⟩
  | step _ hok hnext ih =>
      obtain ⟨g, hg⟩ := ih
      exact ⟨_, hg.step hok (recorder_next g hnext)⟩

/-- Without the variable, the pool is in a state it can reach. -/
theorem reachableBy_unrecorded {ok : Pool σ κ → Nat × ε → Prop} {q : Pool (σ × γ) κ}
    (hq : (recorder start idle f u g₀).ReachableBy (unrecorded ok) q) :
    (machine start idle f).ReachableBy ok (map Prod.fst id q) := by
  induction hq with
  | init h0 => exact .init ⟨h0.1.1, h0.2⟩
  | step _ hok hnext ih =>
      obtain ⟨l', hf, hcall⟩ := machine_next.mp hnext
      exact ih.step hok (machine_next.mpr ⟨l', (recording_eq_some.mp hf).1, hcall⟩)

/-- What is kept, whatever the variable is, is true of every state of a run and its value. -/
theorem inductive_recorded {ok : Pool σ κ → Nat × ε → Prop}
    {I : Pool (σ × γ) κ → Prop} (hI : (recorder start idle f u g₀).Inductive (unrecorded ok) I)
    (r : (machine start idle f).Run n) (hr : r.Meets ok) :
    ∀ i, i ≤ n → I (withRecord (r.state i) (recorded u g₀ r i)) := by
  intro i
  induction i with
  | zero => intro _; exact hI.init _ ⟨⟨r.start.1, rfl⟩, r.start.2⟩
  | succ i ih =>
      intro hi
      exact hI.step _ _ _ (ih (Nat.le_of_succ_le hi)) (hr i hi) (recorder_next _ (r.step i hi))

end Pool

end Lkp
