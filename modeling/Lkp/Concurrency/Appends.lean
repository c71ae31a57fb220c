/-
Calls that keep a list of allocated nodes, run one at a time.

What is said here holds of any driver whose calls append to a ring and walk along it,
whatever lock or section they do it in.  A walk along the ring sees its view
(`Returns.walks`), and what a walk prints after several calls is what they have appended,
in their order (`InTurn.prints_iff`).

An `Appender` is such a driver, as far as it appends: how it runs, where a call stands between
two attempts, and what an attempt comes to.  A call appends the nodes it gets memory for
(`Lawful.appends`), whether that is all of them or not (`Lawful.gains_iff`).  A `Reader` are
the calls of such a driver that walk along the ring.
-/
import Lkp.Concurrency.Alone
import Lkp.Memory.Ring

namespace Lkp

variable {σ κ ε α : Type*} {f : CallStep σ κ ε} {done : κ → Prop} {c : Nat}

/-! ### Walking -/

/-- A loop over the ring, with the nodes it has seen, from one of them to the head. -/
theorem Returns.walks {world : κ → ε} {s t : σ} {e : κ} {r : Ring α} {h : Nat}
    {place : Nat → List (Nat × α) → κ}
    (hnext : ∀ curr seen nd, curr ≠ h → r.heap.obj curr = some nd →
      Returns f done c world s (place (r.next curr) (seen ++ [(curr, nd)])) t e →
        Returns f done c world s (place curr seen) t e)
    (rest : List (Nat × α)) (curr : Nat) (seen : List (Nat × α))
    (hl : r.Lists h (seen ++ rest)) (hcurr : Path r.next curr (rest.map Prod.fst) h)
    (hend : Returns f done c world s (place h (seen ++ rest)) t e) :
    Returns f done c world s (place curr seen) t e := by
  induction rest generalizing curr seen with
  | nil =>
      obtain rfl : curr = h := hcurr
      rw [List.append_nil] at hend
      exact hend
  | cons x rest ih =>
      obtain ⟨rfl, hrest⟩ := hcurr
      have hobj : r.heap.obj x.1 = some x.2 := hl.data x (by simp)
      have hne : x.1 ≠ h := by
        intro heq
        exact hl.head_notMem (by rw [← heq, List.map_append]; simp)
      rw [List.append_cons] at hl hend
      exact hnext x.1 seen x.2 hne hobj (ih (r.next x.1) (seen ++ [x]) hl hrest hend)

/-! ### Calls, and then a walk -/

section Printing

variable {β γ : Type*} {idle : κ} {Q : σ → List (Nat × α) → Prop} {s₀ : σ}
  {enter : β → κ → ε} {look : κ → ε} {nodes : β → List α} {ret : List (Nat × α) → κ}

/-- What the calls have appended, seen by a walk that `ret` reports. -/
theorem InTurn.prints_iff (hret : Function.Injective ret)
    (hcall : ∀ b s l, Q s l → ∃ s' e xs, Returns f done c (enter b) s idle s' e ∧
      Q s' (l ++ xs) ∧ xs.map Prod.snd = nodes b)
    (hlook : ∀ s l, Q s l → ∃ s', Returns f done c look s idle s' (ret l)) (h₀ : Q s₀ [])
    (line : α → γ) {bs : List β} {out : List γ} :
    (∃ s s' seen, InTurn f done c idle (bs.map enter) s₀ s ∧
        Returns f done c look s idle s' (ret seen) ∧ out = seen.map fun x => line x.2) ↔
      out = bs.flatMap fun b => (nodes b).map line := by
  have hstep : ∀ b nds s, (∃ l, Q s l ∧ l.map Prod.snd = nds) →
      ∃ s' e, Returns f done c (enter b) s idle s' e ∧
        ∃ l, Q s' l ∧ l.map Prod.snd = nds ++ nodes b := by
    intro b nds s hex
    obtain ⟨l, hQ, rfl⟩ := hex
    obtain ⟨s', e, xs, hrun, hQ', hxs⟩ := hcall b s l hQ
    exact ⟨s', e, hrun, l ++ xs, hQ', by rw [List.map_append, hxs]⟩
  obtain ⟨s, hcalls, l, hQ, hl⟩ := InTurn.exists_of_step hstep bs [] s₀ ⟨[], h₀, rfl⟩
  obtain ⟨s', hwalk⟩ := hlook s l hQ
  have hout : (l.map fun x => line x.2) = bs.flatMap fun b => (nodes b).map line := by
    rw [show (fun x : Nat × α => line x.2) = line ∘ Prod.snd from rfl, ← List.map_map, hl,
      List.nil_append, List.map_flatMap]
  constructor
  · intro hex
    obtain ⟨t, t', seen, hcalls', hwalk', rfl⟩ := hex
    obtain rfl := hcalls.unique hcalls'
    obtain ⟨-, heq⟩ := hwalk.unique hwalk'
    rw [← hret heq, hout]
  · intro heq
    exact ⟨s, s', l, hcalls, hwalk, heq.trans hout.symm⟩

end Printing

/-! ### Drivers whose calls append -/

/--
A driver that appends to a ring.  A call is told `b` and makes one attempt after another; the
world answers `t`, of which attempt `k` makes its data, and whether there is memory.
-/
structure Appender (σ κ ε β τ α : Type*) where
  step : CallStep σ κ ε
  /-- The call is over. -/
  done : κ → Prop
  /-- An attempt is over. -/
  tried : κ → Prop
  /-- There is memory for attempt `k` if `oks k`. -/
  world : (Nat → Bool) → β → τ → κ → ε
  idle : κ
  /-- Between two attempts, with what those made have come to. -/
  place : β → List (Option Nat) → κ
  /-- In an attempt, with its data. -/
  attempt : β → List (Option Nat) → α → κ
  /-- All attempts are made. -/
  ret : β → List (Option Nat) → κ
  args : τ → Nat → Option α
  /-- How many attempts there are. -/
  tries : Nat
  ring : σ → Ring α
  head : Nat
  /-- The list is this, and no call is under way. -/
  quiet : σ → List (Nat × α) → Prop

namespace Appender

variable {β τ : Type*} (A : Appender σ κ ε β τ α)

/-- What a call appends if it gets memory so. -/
def granted (oks : Nat → Bool) (t : τ) : List α := Ring.granted (A.args t) oks 0 A.tries

/-- What it is to append. -/
def all (t : τ) : List α := A.granted (fun _ => true) t

/-- From its place a call takes this step. -/
def Takes (c : Nat) (oks : Nat → Bool) (b : β) (t : τ) (s : σ) (l : κ) (s' : σ) (l' : κ) : Prop :=
  ¬ A.done l ∧ A.step c (A.world oks b t l) s l = some (s', l')

/-- The step of an attempt, and what it comes to with memory and without. -/
structure Lawful : Prop where
  lists : ∀ s l, A.quiet s l → (A.ring s).Lists A.head l
  args : ∀ t k, (A.args t k).isSome ↔ k < A.tries
  begins : ∀ c oks b t s, A.Takes c oks b t s A.idle s (A.place b [])
  goes : ∀ c oks b t s rets, A.Takes c oks b t s (A.place b rets) s
    ((A.args t rets.length).elim (A.ret b rets) (A.attempt b rets))
  adds : ∀ c oks b t s l rets a, A.quiet s l → oks rets.length = true →
    ∃ s', A.ring s' = (A.ring s).append A.head a ∧ A.quiet s' (l ++ [((A.ring s).heap.brk, a)]) ∧
      Returns A.step A.tried c (A.world oks b t) s (A.attempt b rets a) s'
        (A.place b (rets ++ [some (A.ring s).heap.brk]))
  fails : ∀ c oks b t s rets a, oks rets.length = false →
    A.Takes c oks b t s (A.attempt b rets a) s (A.place b (rets ++ [none]))
  tried : ∀ l, A.done l → A.tried l
  ret : ∀ b rets, A.done (A.ret b rets)

namespace Lawful

variable {A} {oks : Nat → Bool} {b : β} {t : τ} {s s' : σ} {l : List (Nat × α)} {e : κ}
  {rets : List (Option Nat)} {a : α}

/-- A call with an attempt left makes it. -/
theorem goes_attempt (h : A.Lawful) (c : Nat) (oks : Nat → Bool) (b : β) (s : σ)
    (ha : A.args t rets.length = some a) :
    A.Takes c oks b t s (A.place b rets) s (A.attempt b rets a) := by
  have hgoes := h.goes c oks b t s rets
  rw [ha] at hgoes
  exact hgoes

/-- An attempt with memory, and the rest of the call. -/
theorem adds_then (h : A.Lawful) (hq : A.quiet s l) (ha : A.args t rets.length = some a)
    (hok : oks rets.length = true) :
    ∃ s₁, A.ring s₁ = (A.ring s).append A.head a ∧
      A.quiet s₁ (l ++ [((A.ring s).heap.brk, a)]) ∧
      ∀ s' e, Returns A.step A.done c (A.world oks b t) s₁
          (A.place b (rets ++ [some (A.ring s).heap.brk])) s' e →
        Returns A.step A.done c (A.world oks b t) s (A.place b rets) s' e := by
  obtain ⟨s₁, hring, hq₁, hreturns⟩ := h.adds c oks b t s l rets a hq hok
  obtain ⟨hgo, hstep⟩ := h.goes_attempt c oks b s ha
  exact ⟨s₁, hring, hq₁, fun s' e hrest => .step hgo hstep (hreturns.trans h.tried hrest)⟩

/-- An attempt without, and the rest of the call. -/
theorem fails_then (h : A.Lawful) (ha : A.args t rets.length = some a)
    (hok : oks rets.length = false)
    (hrest : Returns A.step A.done c (A.world oks b t) s (A.place b (rets ++ [none])) s' e) :
    Returns A.step A.done c (A.world oks b t) s (A.place b rets) s' e := by
  obtain ⟨hgo, hstep⟩ := h.goes_attempt c oks b s ha
  obtain ⟨hgo', hstep'⟩ := h.fails c oks b t s rets a hok
  exact .step hgo hstep (.step hgo' hstep' hrest)

/-- A call with `n` attempts left. -/
theorem appends_rest (h : A.Lawful) (c : Nat) (oks : Nat → Bool) (b : β) (t : τ) :
    ∀ n s l rets, A.quiet s l → rets.length + n = A.tries →
      ∃ s' rets', Returns A.step A.done c (A.world oks b t) s (A.place b rets) s' (A.ret b rets') ∧
        A.quiet s' (l ++ (A.ring s).added (Ring.granted (A.args t) oks rets.length n)) := by
  intro n
  induction n with
  | zero =>
      intro s l rets hq hn
      have hnone : A.args t rets.length = none := by
        rw [← Option.not_isSome_iff_eq_none, h.args]
        omega
      have hgoes := h.goes c oks b t s rets
      rw [hnone] at hgoes
      refine ⟨s, rets, .step hgoes.1 hgoes.2 (.done (h.ret b rets)), ?_⟩
      rw [show (A.ring s).added (Ring.granted (A.args t) oks rets.length 0) = [] from rfl,
        List.append_nil]
      exact hq
  | succ n ih =>
      intro s l rets hq hn
      obtain ⟨a, ha⟩ := Option.isSome_iff_exists.mp ((h.args t rets.length).mpr (by omega))
      have hnext : ∀ x : Option Nat, (rets ++ [x]).length = rets.length + 1 :=
        fun x => List.length_append
      cases hok : oks rets.length with
      | true =>
          obtain ⟨s₁, hring, hq₁, hback⟩ := h.adds_then hq ha hok
          obtain ⟨s', rets', hrun, hs'⟩ := ih s₁ _ (rets ++ [some (A.ring s).heap.brk]) hq₁
            (by rw [hnext]; omega)
          refine ⟨s', rets', hback s' _ hrun, ?_⟩
          rw [Ring.granted_of_ok ha hok, Ring.added_cons]
          rw [hnext, hring, List.append_assoc] at hs'
          exact hs'
      | false =>
          obtain ⟨s', rets', hrun, hs'⟩ := ih s l (rets ++ [none]) hq (by rw [hnext]; omega)
          refine ⟨s', rets', h.fails_then ha hok hrun, ?_⟩
          rw [Ring.granted_of_noMem hok]
          rw [hnext] at hs'
          exact hs'

/-- **A call appends what it gets memory for, in the order of its attempts.** -/
theorem appends (h : A.Lawful) (hq : A.quiet s l) (c : Nat) (oks : Nat → Bool) (b : β) (t : τ) :
    ∃ s' rets, Returns A.step A.done c (A.world oks b t) s A.idle s' (A.ret b rets) ∧
      A.quiet s' (l ++ (A.ring s).added (A.granted oks t)) := by
  obtain ⟨s', rets, hrun, hs'⟩ := h.appends_rest c oks b t A.tries s l [] hq (Nat.zero_add _)
  obtain ⟨hgo, hstep⟩ := h.begins c oks b t s
  exact ⟨s', rets, .step hgo hstep hrun, hs'⟩

/-- It has appended all it is to append exactly if there was memory every time. -/
theorem gains_iff (h : A.Lawful) (hq : A.quiet s l)
    (hrun : Returns A.step A.done c (A.world oks b t) s A.idle s' e) :
    (∃ xs, (A.ring s').Lists A.head (l ++ xs) ∧ xs.map Prod.snd = A.all t) ↔
      ∀ k, k < A.tries → oks k = true := by
  obtain ⟨s₁, rets, hrun₁, hs₁⟩ := h.appends hq c oks b t
  obtain ⟨rfl, -⟩ := hrun.unique hrun₁
  exact (h.lists _ _ hs₁).gains_iff fun k => (h.args t k).mpr

end Lawful

end Appender

/-! ### Drivers whose list is read -/

/-- The calls that show the list of a driver, told `w`, from the start on. -/
structure Reader {β τ : Type*} (A : Appender σ κ ε β τ α) (ω : Type*) where
  start : σ
  w : ω
  world : κ → ε
  ret : ω → List (Nat × α) → κ

namespace Reader

variable {β τ ω : Type*} {A : Appender σ κ ε β τ α} (R : Reader A ω)

/-- The list is empty at the start, and shown as it is. -/
structure Lawful : Prop where
  start : A.quiet R.start []
  shows : ∀ c s l, A.quiet s l →
    ∃ s', Returns A.step A.done c R.world s A.idle s' (R.ret R.w l)
  injective : Function.Injective (R.ret R.w)

variable {R}

/-- What calls append that all get memory, a reader prints. -/
theorem Lawful.prints_iff (hA : A.Lawful) (hR : R.Lawful) {γ : Type*} (line : α → γ)
    {bs : List (β × τ)} {out : List γ} :
    (∃ s s' seen,
        InTurn A.step A.done c A.idle (bs.map fun x => A.world (fun _ => true) x.1 x.2) R.start s ∧
          Returns A.step A.done c R.world s A.idle s' (R.ret R.w seen) ∧
          out = seen.map fun x => line x.2) ↔
      out = bs.flatMap fun x => (A.all x.2).map line := by
  refine InTurn.prints_iff hR.injective (fun x s l hq => ?_) (hR.shows c) hR.start line
  obtain ⟨s', rets, hrun, hs'⟩ := hA.appends hq c (fun _ => true) x.1 x.2
  exact ⟨s', _, _, hrun, hs', Ring.map_added _⟩

end Reader

end Lkp
