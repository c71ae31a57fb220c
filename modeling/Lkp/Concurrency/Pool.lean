/-
Any number of calls over one shared state.

A driver method is a step function of one call: from the shared state and the
place the call has got to, one step gives the new shared state and the new place.
A pool runs as many of them as one likes, in any order: action `(c, e)` moves
call `c`, with `e` what the world around it answers.  Calls are numbered by `Nat`
and start `idle`, so no bound on how many are under way is built in.

An invariant of a pool is told in three parts — of the shared state, of one call
against the shared state, and of two calls — and the rule below says what has to
be checked of the one call that moves.  Everything a *different* call relies on
is in the two obligations named `others` and `pair`; those are where a locking
discipline does its work.
-/
import Lkp.Concurrency.Machine

namespace Lkp

/-- A shared state and, for every call, where it has got to. -/
structure Pool (σ κ : Type*) where
  shared : σ
  call : Nat → κ

/-- One step of call `c`: the world answers `e`, and `none` is a call that has to wait. -/
abbrev CallStep (σ κ ε : Type*) := Nat → ε → σ → κ → Option (σ × κ)

namespace Pool

variable {σ κ ε : Type*}

/-- Move one call. -/
def next (f : CallStep σ κ ε) (p : Pool σ κ) (a : Nat × ε) : Option (Pool σ κ) :=
  (f a.1 a.2 p.shared (p.call a.1)).map fun q =>
    { shared := q.1, call := Function.update p.call a.1 q.2 }

/-- The calls interleaved, from a shared state `start` admits and with every call idle. -/
def machine (start : σ → Prop) (idle : κ) (f : CallStep σ κ ε) :
    Machine (Pool σ κ) (Nat × ε) where
  init p := start p.shared ∧ ∀ c, p.call c = idle
  next := next f

variable {f : CallStep σ κ ε} {start : σ → Prop} {idle : κ}

/-- What a step of the pool is: one call's step, and nothing of the others. -/
theorem next_eq_some {p p' : Pool σ κ} {a : Nat × ε} :
    next f p a = some p' ↔
      ∃ l', f a.1 a.2 p.shared (p.call a.1) = some (p'.shared, l') ∧
        p'.call = Function.update p.call a.1 l' := by
  constructor
  · intro h
    obtain ⟨q, hq, rfl⟩ := Option.map_eq_some_iff.mp h
    exact ⟨q.2, hq, rfl⟩
  · intro hex
    obtain ⟨l', hq, hcall⟩ := hex
    refine Option.map_eq_some_iff.mpr ⟨_, hq, ?_⟩
    cases p'
    simp only [mk.injEq, true_and]
    exact hcall.symm

theorem machine_next {p p' : Pool σ κ} {c : Nat} {e : ε} :
    (machine start idle f).next p (c, e) = some p' ↔
      ∃ l', f c e p.shared (p.call c) = some (p'.shared, l') ∧
        p'.call = Function.update p.call c l' :=
  next_eq_some

/-- A call takes a step. -/
theorem reachableBy_step {ok : Pool σ κ → Nat × ε → Prop} {p : Pool σ κ} {c : Nat} {e : ε}
    {s' : σ} {l' : κ} (hp : (machine start idle f).ReachableBy ok p) (hok : ok p (c, e))
    (h : f c e p.shared (p.call c) = some (s', l')) :
    (machine start idle f).ReachableBy ok
      { shared := s', call := Function.update p.call c l' } :=
  hp.step hok (machine_next.mpr ⟨l', h, rfl⟩)

theorem reachable_step {p : Pool σ κ} {c : Nat} {e : ε} {s' : σ} {l' : κ}
    (hp : (machine start idle f).Reachable p) (h : f c e p.shared (p.call c) = some (s', l')) :
    (machine start idle f).Reachable { shared := s', call := Function.update p.call c l' } :=
  reachableBy_step hp trivial h

/-- What is reached from some starts is reached from more. -/
theorem reachableBy_of_start {start' : σ → Prop} {ok : Pool σ κ → Nat × ε → Prop} {p : Pool σ κ}
    (hstart : ∀ s, start s → start' s) (hp : (machine start idle f).ReachableBy ok p) :
    (machine start' idle f).ReachableBy ok p := by
  induction hp with
  | init h0 => exact .init ⟨hstart _ h0.1, h0.2⟩
  | step _ hok hnext ih => exact ih.step hok hnext

theorem call_self {p p' : Pool σ κ} {c : Nat} {l' : κ}
    (h : p'.call = Function.update p.call c l') : p'.call c = l' := by
  rw [h, Function.update_self]

theorem call_other {p p' : Pool σ κ} {c d : Nat} {l' : κ}
    (h : p'.call = Function.update p.call c l') (hd : d ≠ c) : p'.call d = p.call d := by
  rw [h, Function.update_of_ne hd]

/-- Only the call that moves can have changed place. -/
theorem moved {p p' : Pool σ κ} {c d : Nat} {e : ε}
    (h : (machine start idle f).next p (c, e) = some p') (hd : p'.call d ≠ p.call d) :
    d = c := by
  obtain ⟨l', -, hcall⟩ := machine_next.mp h
  by_contra hne
  exact hd (call_other hcall hne)

/-! ### One call along a run -/

/-- What has come to be true of a call was brought about by one of its own steps. -/
theorem exists_step {n : Nat} (r : (machine start idle f).Run n) {c : Nat} {P : κ → Prop}
    {i j : Nat} (hij : i ≤ j) (hj : j ≤ n) (hi : ¬ P ((r.state i).call c))
    (hend : P ((r.state j).call c)) :
    ∃ k e, i ≤ k ∧ k < j ∧ r.act k = (c, e) ∧ ¬ P ((r.state k).call c) ∧
      P ((r.state (k + 1)).call c) ∧ f c e (r.state k).shared ((r.state k).call c) =
        some ((r.state (k + 1)).shared, (r.state (k + 1)).call c) := by
  obtain ⟨k, hik, hkj, hbefore, hafter⟩ :=
    r.exists_change (P := fun p => P (p.call c)) hij hi hend
  have hnext := r.step k (Nat.lt_of_lt_of_le hkj hj)
  have hmoved : c = (r.act k).1 := moved hnext fun hsame => hbefore (hsame ▸ hafter)
  obtain ⟨l', hstep, hcall⟩ := machine_next.mp hnext
  subst hmoved
  refine ⟨k, (r.act k).2, hik, hkj, rfl, hbefore, hafter, ?_⟩
  rw [call_self hcall]
  exact hstep

/-- What no step of a call undoes stays true of it. -/
theorem stays {n : Nat} (r : (machine start idle f).Run n) {c : Nat} {P : κ → Prop} {i j : Nat}
    (hij : i ≤ j) (hj : j ≤ n)
    (hkeep : ∀ e s l s' l', f c e s l = some (s', l') → P l → P l')
    (hi : P ((r.state i).call c)) : P ((r.state j).call c) := by
  refine r.stays (P := fun p => P (p.call c)) hij hj (fun k _ hkj hk => ?_) hi
  obtain ⟨l', hstep, hcall⟩ := machine_next.mp (r.step k (Nat.lt_of_lt_of_le hkj hj))
  by_cases hmine : (r.act k).1 = c
  · rw [hmine] at hstep hcall
    rw [call_self hcall]
    exact hkeep _ _ _ _ _ hstep hk
  · rw [call_other hcall (Ne.symm hmine)]
    exact hk

/-- A call that no action of a run moves is idle throughout. -/
theorem idle_of_not_moved {n : Nat} (r : (machine start idle f).Run n) {c : Nat}
    (h : ∀ i, i < n → (r.act i).1 ≠ c) : ∀ i, i ≤ n → (r.state i).call c = idle := by
  intro i
  induction i with
  | zero => intro _; exact r.start.2 c
  | succ i ih =>
      intro hi
      obtain ⟨l', -, hcall⟩ := machine_next.mp (r.step i hi)
      rw [call_other hcall (Ne.symm (h i hi))]
      exact ih (Nat.le_of_succ_le hi)

/-- What is true of the calls a run moves, and of an idle one, is true of all calls. -/
theorem forall_call_of_lt {n k : Nat} (r : (machine start idle f).Run n)
    (hact : ∀ i, i < n → (r.act i).1 < k) {P : κ → Prop} (hidle : P idle) {i : Nat} (hi : i ≤ n)
    (h : ∀ c, c < k → P ((r.state i).call c)) : ∀ c, P ((r.state i).call c) := by
  intro c
  rcases Nat.lt_or_ge c k with hc | hc
  · exact h c hc
  · rw [idle_of_not_moved r
      (fun j hj => Nat.ne_of_lt (Nat.lt_of_lt_of_le (hact j hj) hc)) i hi]
    exact hidle

/-! ### One pool seen as another -/

/-- Every call seen through `h`, and what they share through `g`. -/
def map {τ μ : Type*} (g : σ → τ) (h : κ → μ) (p : Pool σ κ) : Pool τ μ where
  shared := g p.shared
  call c := h (p.call c)

theorem refines {τ μ η : Type*} {f' : CallStep τ μ η} {start' : τ → Prop} {idle' : μ}
    {g : σ → τ} {h : κ → μ} (hstart : ∀ s, start s → start' (g s)) (hidle : h idle = idle')
    (hstep : ∀ c e s l s' l', f c e s l = some (s', l') →
      (g s' = g s ∧ h l' = h l) ∨ ∃ e', f' c e' (g s) (h l) = some (g s', h l')) :
    (machine start idle f).Refines (machine start' idle' f') (map g h) where
  init p hinit := ⟨hstart _ hinit.1, fun c => by rw [← hidle, ← hinit.2 c]; rfl⟩
  step := by
    rintro p ⟨c, e⟩ p' hnext
    obtain ⟨l', hf, hcall⟩ := machine_next.mp hnext
    have hcalls : (map g h p').call = Function.update (map g h p).call c (h l') := by
      funext d
      by_cases hd : d = c
      · subst hd
        rw [Function.update_self]
        exact congrArg h (call_self hcall)
      · rw [Function.update_of_ne hd]
        exact congrArg h (call_other hcall hd)
    rcases hstep c e _ _ _ _ hf with ⟨hshared, hplace⟩ | ⟨e', hf'⟩
    · left
      have hsame : (map g h p').call = (map g h p).call := by
        rw [hcalls, hplace]
        exact Function.update_eq_self ..
      show Pool.mk (g p'.shared) (map g h p').call = Pool.mk (g p.shared) (map g h p).call
      rw [hshared, hsame]
    · exact Or.inr ⟨(c, e'), machine_next.mpr ⟨h l', hf', hcalls⟩⟩

/-- What is shared is related, and so is every call. -/
structure Similar {τ μ : Type*} (G : σ → τ → Prop) (C : κ → μ → Prop) (p : Pool σ κ)
    (q : Pool τ μ) : Prop where
  shared : G p.shared q.shared
  call : ∀ c, C (p.call c) (q.call c)

/-- Where each step is one of the other pool, or none, every state has its like there. -/
theorem exists_similar {τ μ η : Type*} {f' : CallStep τ μ η} {start' : τ → Prop} {idle' : μ}
    {G : σ → τ → Prop} {C : κ → μ → Prop} (hstart : ∀ s, start s → ∃ t, start' t ∧ G s t)
    (hidle : C idle idle')
    (hstep : ∀ p q c e s' l', (machine start idle f).Reachable p →
      (machine start' idle' f').Reachable q → Similar G C p q →
      f c e p.shared (p.call c) = some (s', l') →
      (G s' q.shared ∧ C l' (q.call c)) ∨
        ∃ e' t' m', f' c e' q.shared (q.call c) = some (t', m') ∧ G s' t' ∧ C l' m')
    {p : Pool σ κ} (hp : (machine start idle f).Reachable p) :
    ∃ q, (machine start' idle' f').Reachable q ∧ Similar G C p q := by
  induction hp with
  | @init p h0 =>
      obtain ⟨t, ht, hG⟩ := hstart _ h0.1
      refine ⟨⟨t, fun _ => idle'⟩, .init ⟨ht, fun _ => rfl⟩, hG, fun c => ?_⟩
      rw [h0.2 c]
      exact hidle
  | @step p p' a hp _ hnext ih =>
      obtain ⟨q, hq, hsim⟩ := ih
      obtain ⟨l', hf, hcall⟩ := machine_next.mp hnext
      rcases hstep p q a.1 a.2 _ _ hp hq hsim hf with ⟨hG, hC⟩ | ⟨e', t', m', hf', hG, hC⟩
      · refine ⟨q, hq, hG, fun c => ?_⟩
        by_cases hc : c = a.1
        · rw [hc, call_self hcall]
          exact hC
        · rw [call_other hcall hc]
          exact hsim.call c
      · refine ⟨_, reachable_step hq hf', hG, fun c => ?_⟩
        by_cases hc : c = a.1
        · rw [hc, call_self hcall]
          show C l' (Function.update q.call a.1 m' a.1)
          rw [Function.update_self]
          exact hC
        · rw [call_other hcall hc]
          show C (p.call c) (Function.update q.call a.1 m' c)
          rw [Function.update_of_ne hc]
          exact hsim.call c

/-! ### Invariants told call by call -/

/-- An invariant of the shared state, of each call, and of each two calls. -/
structure Inv (G : σ → Prop) (L : Nat → σ → κ → Prop) (X : Nat → κ → Nat → κ → Prop)
    (p : Pool σ κ) : Prop where
  shared : G p.shared
  each : ∀ c, L c p.shared (p.call c)
  pair : ∀ c d, c ≠ d → X c (p.call c) d (p.call d)

/-- What has to be checked, of one step of one call, for an invariant to be kept. -/
structure Kept (f : CallStep σ κ ε) (ok : Pool σ κ → Nat × ε → Prop) (G : σ → Prop)
    (L : Nat → σ → κ → Prop) (X : Nat → κ → Nat → κ → Prop) : Prop where
  /-- The call that moves. -/
  own : ∀ p c e s' l', Inv G L X p → ok p (c, e) →
    f c e p.shared (p.call c) = some (s', l') → G s' ∧ L c s' l'
  /-- A call that stands still while another one moves. -/
  others : ∀ p c e s' l' d, Inv G L X p → ok p (c, e) →
    f c e p.shared (p.call c) = some (s', l') → d ≠ c → L d s' (p.call d)
  /-- The two together. -/
  pair : ∀ p c e s' l' d, Inv G L X p → ok p (c, e) →
    f c e p.shared (p.call c) = some (s', l') → d ≠ c →
    X c l' d (p.call d) ∧ X d (p.call d) c l'

theorem Kept.invariant {ok : Pool σ κ → Nat × ε → Prop} {G : σ → Prop}
    {L : Nat → σ → κ → Prop} {X : Nat → κ → Nat → κ → Prop} (h : Kept f ok G L X)
    (hG : ∀ s, start s → G s) (hL : ∀ s c, start s → L c s idle)
    (hX : ∀ c d, X c idle d idle) :
    (machine start idle f).Inductive ok (Inv G L X) where
  init := by
    rintro p ⟨hs, hidle⟩
    refine ⟨hG _ hs, fun c => ?_, fun c d _ => ?_⟩
    · rw [hidle c]; exact hL _ _ hs
    · rw [hidle c, hidle d]; exact hX c d
  step := by
    rintro p ⟨c, e⟩ p' hinv hok hnext
    obtain ⟨l', hf, hcall⟩ := machine_next.mp hnext
    obtain ⟨hG', hL'⟩ := h.own p c e _ _ hinv hok hf
    refine ⟨hG', fun d => ?_, fun d d' hne => ?_⟩
    · by_cases hd : d = c
      · subst hd
        rw [call_self hcall]; exact hL'
      · rw [call_other hcall hd]; exact h.others p c e _ _ d hinv hok hf hd
    · by_cases hd : d = c
      · subst hd
        rw [call_self hcall, call_other hcall (Ne.symm hne)]
        exact (h.pair p d e _ _ d' hinv hok hf (Ne.symm hne)).1
      · by_cases hd' : d' = c
        · subst hd'
          rw [call_self hcall, call_other hcall hd]
          exact (h.pair p d' e _ _ d hinv hok hf hd).2
        · rw [call_other hcall hd, call_other hcall hd']
          exact hinv.pair d d' hne

/-- What is asked of each call alone need only be kept by the call that moves. -/
theorem inductive_each {ok : Pool σ κ → Nat × ε → Prop} {P : κ → Prop} (hidle : P idle)
    (hstep : ∀ p c e s' l', ok p (c, e) → f c e p.shared (p.call c) = some (s', l') →
      P (p.call c) → P l') :
    (machine start idle f).Inductive ok fun p => ∀ c, P (p.call c) where
  init p hinit c := by
    rw [hinit.2 c]
    exact hidle
  step p a p' hall hok hnext c := by
    obtain ⟨l', hf, hcall⟩ := machine_next.mp hnext
    by_cases hmine : c = a.1
    · rw [hmine, call_self hcall]
      exact hstep p a.1 a.2 _ _ hok hf (hall a.1)
    · rw [call_other hcall hmine]
      exact hall c

/-- A step of a run, as the step of the call that moves. -/
theorem step_of_run {n : Nat} (r : (machine start idle f).Run n) {t : Nat} (ht : t < n) :
    f (r.act t).1 (r.act t).2 (r.state t).shared ((r.state t).call (r.act t).1) =
      some ((r.state (t + 1)).shared, (r.state (t + 1)).call (r.act t).1) := by
  obtain ⟨l', hf, hcall⟩ := machine_next.mp (r.step t ht)
  rw [call_self hcall]
  exact hf

end Pool

end Lkp
