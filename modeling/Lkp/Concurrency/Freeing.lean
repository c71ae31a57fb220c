/-
Calls that free the nodes of a list, one at a time.

A `Freer` is a function that goes along a ring and frees its nodes, whatever lock or
section it does it in: how it runs, which node a step frees, and of which node a step reads
a field.  `FreesList` is what such a function is for, told of the steps it takes when it
runs alone (`Traces`): every node is freed once, nothing is read of a node that is gone,
and the list is empty afterwards.

`BuiltBy` is a state that calls which add to a list have led to, such as the attempts of an
`Appender`.
-/
import Lkp.Concurrency.Appends

namespace Lkp

variable {σ κ ε α : Type*}

/-! ### What a call passes through -/

/-- Call `c` runs from one place to its return and takes its steps from those of the trace. -/
inductive Traces (f : CallStep σ κ ε) (done : κ → Prop) (c : Nat) (world : κ → ε) :
    σ → κ → List (σ × κ) → σ → κ → Prop
  | done {s : σ} {l : κ} (h : done l) : Traces f done c world s l [] s l
  | step {s s₁ s' : σ} {l l₁ l' : κ} {tr : List (σ × κ)} (hgo : ¬ done l)
      (hs : f c (world l) s l = some (s₁, l₁)) (h : Traces f done c world s₁ l₁ tr s' l') :
      Traces f done c world s l ((s, l) :: tr) s' l'

namespace Traces

variable {f : CallStep σ κ ε} {done : κ → Prop} {c : Nat} {world : κ → ε} {s s₁ s' : σ}
  {l l₁ l' : κ} {tr : List (σ × κ)}

theorem returns (h : Traces f done c world s l tr s' l') : Returns f done c world s l s' l' := by
  induction h with
  | done hdone => exact .done hdone
  | step hgo hs _ ih => exact .step hgo hs ih

/-- A step that is taken is the first of the trace. -/
theorem rest (h : Traces f done c world s l tr s' l') (hgo : ¬ done l)
    (hs : f c (world l) s l = some (s₁, l₁)) :
    ∃ tr₁, tr = (s, l) :: tr₁ ∧ Traces f done c world s₁ l₁ tr₁ s' l' := by
  cases h with
  | done hdone => exact absurd hdone hgo
  | step _ hs₂ hrest =>
      rw [hs, Option.some.injEq, Prod.mk.injEq] at hs₂
      obtain ⟨rfl, rfl⟩ := hs₂
      exact ⟨_, rfl, hrest⟩

end Traces

/-! ### Functions that free a list -/

/-- A function that frees a list: how it runs, and what its steps are to the nodes. -/
structure Freer (σ κ ε α : Type*) where
  step : CallStep σ κ ε
  done : κ → Prop
  world : κ → ε
  /-- The function is entered. -/
  start : κ
  /-- It has returned. -/
  ret : κ
  ring : σ → Ring α
  /-- The head of the list. -/
  head : Nat
  /-- The node that the step from here frees. -/
  frees : κ → Option Nat
  /-- The node of which the step from here reads a field. -/
  reads : κ → Option Nat

namespace Freer

variable (F : Freer σ κ ε α) (c : Nat)

/-- The function runs by way of `tr`. -/
abbrev Runs (s : σ) (l : κ) (tr : List (σ × κ)) (s' : σ) : Prop :=
  Traces F.step F.done c F.world s l tr s' F.ret

/-- The nodes freed along a trace. -/
def freed (tr : List (σ × κ)) : List Nat := tr.filterMap fun p => F.frees p.2

/-- The list `l` is freed by way of `tr`, and left empty. -/
structure Clean (s : σ) (l : List (Nat × α)) (tr : List (σ × κ)) (s' : σ) : Prop where
  runs : F.Runs c s F.start tr s'
  once : (F.freed tr).Perm (l.map Prod.fst)
  reads : ∀ p ∈ tr, ∀ x, F.reads p.2 = some x → (F.ring p.1).heap.obj x ≠ none
  empty : (F.ring s').Lists F.head []
  again : Returns F.step F.done c F.world s' F.start s' F.ret

/-- The function frees the list it finds. -/
def FreesList (s : σ) : Prop :=
  ∃ l tr s', (F.ring s).Lists F.head l ∧ F.Clean c s l tr s'

variable {F : Freer σ κ ε α} {c : Nat}

theorem freed_cons (p : σ × κ) (tr : List (σ × κ)) :
    F.freed (p :: tr) = (F.frees p.2).toList ++ F.freed tr := by
  unfold freed
  cases h : F.frees p.2 <;> simp [h]

theorem freed_append (tr₁ tr₂ : List (σ × κ)) :
    F.freed (tr₁ ++ tr₂) = F.freed tr₁ ++ F.freed tr₂ := List.filterMap_append

/-- A function that goes by way of a place where it reads a node that is gone does not do it. -/
theorem not_freesList_of_stale {s t : σ} {l : κ} {x : Nat}
    (hvisit : ∀ tr s', F.Runs c s F.start tr s' → (t, l) ∈ tr) (hreads : F.reads l = some x)
    (hgone : (F.ring t).heap.obj x = none) : ¬ F.FreesList c s := by
  intro hfrees
  obtain ⟨_, tr, s', -, hclean⟩ := hfrees
  exact hclean.reads (t, l) (hvisit tr s' hclean.runs) x hreads hgone

/-- A function that frees nothing, reads nothing of a node and leaves an empty list as it is. -/
theorem freesList_of_empty {s : σ} {tr : List (σ × κ)} (hempty : (F.ring s).Lists F.head [])
    (hruns : F.Runs c s F.start tr s) (hfreed : F.freed tr = [])
    (hreads : ∀ p ∈ tr, F.reads p.2 = none) : F.FreesList c s := by
  refine ⟨[], tr, s, hempty, hruns, ?_, fun p hp x hx => ?_, hempty, hruns.returns⟩
  · rw [hfreed]
    exact .refl _
  · rw [hreads p hp] at hx
    cases hx

/--
A loop over the nodes, each pass of which frees the node it is at.  `Q` says which nodes
are still to come, and where the loop stands.
-/
theorem runs_loop {place : Nat → κ} {Q : σ → Nat → List Nat → Prop} {P : σ → Prop}
    (hpass : ∀ s x y rest, Q s y (x :: rest) → ∃ s₁ y₁ pre, Q s₁ y₁ rest ∧ F.freed pre = [x] ∧
      ∀ tr s', F.Runs c s₁ (place y₁) tr s' → F.Runs c s (place y) (pre ++ tr) s')
    (hend : ∀ s y, Q s y [] → ∃ tr s', F.Runs c s (place y) tr s' ∧ F.freed tr = [] ∧ P s') :
    ∀ rest s y, Q s y rest →
      ∃ tr s', F.Runs c s (place y) tr s' ∧ F.freed tr = rest ∧ P s' := by
  intro rest
  induction rest with
  | nil => exact hend
  | cons x rest ih =>
      intro s y hQ
      obtain ⟨s₁, y₁, pre, hQ₁, hpre, hback⟩ := hpass s x y rest hQ
      obtain ⟨tr, s', hruns, hfreed, hP⟩ := ih s₁ y₁ hQ₁
      refine ⟨pre ++ tr, s', hback tr s' hruns, ?_, hP⟩
      rw [freed_append, hpre, hfreed]
      rfl

/-! ### Functions that unlink nothing -/

/-- From its place the function takes this step. -/
def Takes (F : Freer σ κ ε α) (c : Nat) (s : σ) (l : κ) (s' : σ) (l' : κ) : Prop :=
  ¬ F.done l ∧ F.step c (F.world l) s l = some (s', l')

theorem Takes.cons {s s₁ s' : σ} {l l₁ : κ} {tr : List (σ × κ)} (h : F.Takes c s l s₁ l₁)
    (hruns : F.Runs c s₁ l₁ tr s') : F.Runs c s l ((s, l) :: tr) s' :=
  .step h.1 h.2 hruns

theorem Takes.rest {s s₁ s' : σ} {l l₁ : κ} {tr : List (σ × κ)} (h : F.Takes c s l s₁ l₁)
    (hruns : F.Runs c s l tr s') : ∃ tr₁, tr = (s, l) :: tr₁ ∧ F.Runs c s₁ l₁ tr₁ s' :=
  Traces.rest hruns h.1 h.2

/--
The places of a `list_for_each_entry` whose body is `kfree(curr)`: `list_empty`, the load of
the first node, the test of the loop, and the load of the next node.
-/
structure Leaving (F : Freer σ κ ε α) (c : Nat) (test load : κ) (place after : Nat → κ) :
    Prop where
  start : ∀ s, F.Takes c s F.start s test
  empty : ∀ s, F.Takes c s test s (if (F.ring s).next F.head = F.head then F.ret else load)
  first : ∀ s, F.Takes c s load s (place ((F.ring s).next F.head))
  free : ∀ s x, x ≠ F.head → (F.ring s).heap.obj x ≠ none →
    ∃ s', F.ring s' = { F.ring s with heap := (F.ring s).heap.free x } ∧
      F.Takes c s (place x) s' (after x)
  next : ∀ s x, F.Takes c s (after x) s (place ((F.ring s).next x))
  stop : ∀ s, F.Takes c s (place F.head) s F.ret
  ret : F.done F.ret
  frees : ∀ x, F.frees (place x) = if x = F.head then none else some x
  freesNot : F.frees F.start = none ∧ F.frees test = none ∧ F.frees load = none ∧
    ∀ x, F.frees (after x) = none
  reads : ∀ x, F.reads (after x) = some x
  readsNot : F.reads F.start = none ∧ F.reads test = none

namespace Leaving

variable {test load : κ} {place after : Nat → κ} {s : σ} {l : List (Nat × α)}

/-- The list is not empty, and the function comes to its first node. -/
theorem runs_first (h : F.Leaving c test load place after) (hl : (F.ring s).Lists F.head l)
    (hne : l ≠ []) {tr : List (σ × κ)} {s' : σ} :
    F.Runs c s F.start tr s' ↔ ∃ tr₁, tr = (s, F.start) :: (s, test) :: (s, load) :: tr₁ ∧
      F.Runs c s (place ((F.ring s).next F.head)) tr₁ s' := by
  have hsome := h.empty s
  rw [if_neg (mt hl.next_eq_iff.mp hne)] at hsome
  constructor
  · intro hruns
    obtain ⟨_, rfl, h₁⟩ := (h.start s).rest hruns
    obtain ⟨_, rfl, h₂⟩ := hsome.rest h₁
    obtain ⟨tr₁, rfl, h₃⟩ := (h.first s).rest h₂
    exact ⟨tr₁, rfl, h₃⟩
  · intro hex
    obtain ⟨tr₁, rfl, hruns⟩ := hex
    exact (h.start s).cons (hsome.cons ((h.first s).cons hruns))

/-- The nodes from `y` on are still to come, and the links are as they were. -/
structure Rest (F : Freer σ κ ε α) (next : Nat → Nat) (s : σ) (y : Nat) (rest : List Nat) :
    Prop where
  path : Path (F.ring s).next y rest F.head
  nodup : (F.head :: rest).Nodup
  alive : ∀ x ∈ rest, (F.ring s).heap.obj x ≠ none
  links : (F.ring s).next = next

theorem pass (h : F.Leaving c test load place after) {next : Nat → Nat} {x y : Nat}
    {rest : List Nat} (hrest : Rest F next s y (x :: rest)) :
    ∃ s₁ y₁ pre, Rest F next s₁ y₁ rest ∧ F.freed pre = [x] ∧
      ∀ tr s', F.Runs c s₁ (place y₁) tr s' → F.Runs c s (place y) (pre ++ tr) s' := by
  obtain ⟨⟨rfl, hpath⟩, hnodup, halive, hlinks⟩ := hrest
  simp only [List.nodup_cons, List.mem_cons, not_or] at hnodup
  have hy : y ≠ F.head := Ne.symm hnodup.1.1
  obtain ⟨s₁, hring, hfree⟩ := h.free s y hy (halive y List.mem_cons_self)
  have hnext : (F.ring s₁).next = (F.ring s).next := by rw [hring]
  refine ⟨s₁, (F.ring s).next y, [(s, place y), (s₁, after y)], ⟨?_, ?_, ?_, ?_⟩, ?_, ?_⟩
  · rw [hnext]
    exact hpath
  · simp only [List.nodup_cons]
    exact ⟨hnodup.1.2, hnodup.2.2⟩
  · intro z hz
    have hne : z ≠ y := fun heq => hnodup.2.1 (heq ▸ hz)
    rw [hring]
    show ((F.ring s).heap.free y).obj z ≠ none
    rw [Heap.free_of_ne hne]
    exact halive z (List.mem_cons_of_mem _ hz)
  · rw [hnext]
    exact hlinks
  · rw [freed_cons, freed_cons, h.frees, if_neg hy, h.freesNot.2.2.2]
    rfl
  · intro tr s' hruns
    rw [← hnext] at hruns
    exact hfree.cons ((h.next s₁ y).cons hruns)

theorem finish (h : F.Leaving c test load place after) {next : Nat → Nat} {y : Nat}
    (hrest : Rest F next s y []) :
    ∃ tr s', F.Runs c s (place y) tr s' ∧ F.freed tr = [] ∧ (F.ring s').next = next := by
  obtain ⟨hy, -, -, hlinks⟩ := hrest
  obtain rfl : y = F.head := hy
  refine ⟨[(s, place F.head)], s, (h.stop s).cons (.done h.ret), ?_, hlinks⟩
  rw [freed_cons, h.frees, if_pos rfl]
  rfl

/-- **Each node is freed once**, and the links stay as they are. -/
theorem frees_once (h : F.Leaving c test load place after) (hl : (F.ring s).Lists F.head l)
    (hne : l ≠ []) :
    ∃ tr s', F.Runs c s F.start tr s' ∧ F.freed tr = l.map Prod.fst ∧
      (F.ring s').next = (F.ring s).next := by
  have halive : ∀ x ∈ l.map Prod.fst, (F.ring s).heap.obj x ≠ none := by
    intro x hx
    obtain ⟨nd, hnd, rfl⟩ := List.mem_map.mp hx
    rw [hl.data nd hnd]
    exact Option.some_ne_none _
  obtain ⟨tr, s', hruns, hfreed, hnext⟩ := runs_loop (fun _ _ _ _ => h.pass)
    (fun _ _ => h.finish) _ s _ ⟨hl.ring, hl.nodup, halive, rfl⟩
  refine ⟨_, s', (h.runs_first hl hne).mpr ⟨tr, rfl, hruns⟩, ?_, hnext⟩
  rw [freed_cons, freed_cons, freed_cons, h.freesNot.1, h.freesNot.2.1, h.freesNot.2.2.1, hfreed]
  rfl

/-- **Such a function frees the empty list as it should, and no other.** -/
theorem freesList_iff (h : F.Leaving c test load place after)
    (hl : (F.ring s).Lists F.head l) : F.FreesList c s ↔ l = [] := by
  constructor
  · intro hfrees
    by_contra hne
    obtain ⟨x, rest, rfl⟩ := List.exists_cons_of_ne_nil hne
    have hx : x.1 ≠ F.head := fun heq => hl.head_notMem (by simp [← heq])
    have hobj : (F.ring s).heap.obj x.1 ≠ none := by
      rw [hl.data x List.mem_cons_self]
      exact Option.some_ne_none _
    obtain ⟨s₁, hring, hfree⟩ := h.free s x.1 hx hobj
    refine not_freesList_of_stale (fun tr s' hruns => ?_) (h.reads x.1) (t := s₁) ?_ hfrees
    · obtain ⟨tr₁, rfl, h₁⟩ := (h.runs_first hl hne).mp hruns
      rw [hl.next_head] at h₁
      obtain ⟨tr₂, rfl, h₂⟩ := hfree.rest h₁
      obtain ⟨tr₃, rfl, -⟩ := (h.next s₁ x.1).rest h₂
      simp
    · rw [hring]
      exact Heap.free_self
  · intro hnil
    subst hnil
    have hempty := h.empty s
    rw [if_pos (hl.next_eq_iff.mpr rfl)] at hempty
    refine freesList_of_empty hl ((h.start s).cons (hempty.cons (.done h.ret))) ?_ ?_
    · rw [freed_cons, freed_cons, h.freesNot.1, h.freesNot.2.1]
      rfl
    · simp [h.readsNot]

end Leaving

end Freer

/-! ### Lists that were built -/

/-- The states that calls of `add` lead to, one after another, with what they have added. -/
inductive BuiltBy (add : α → σ → σ → Prop) (start : σ) : List α → σ → Prop
  | start : BuiltBy add start [] start
  | add {as : List α} {a : α} {s s' : σ} (h : BuiltBy add start as s) (ha : add a s s') :
      BuiltBy add start (as ++ [a]) s'

namespace BuiltBy

variable {add : α → σ → σ → Prop} {start : σ} {Q : σ → List (Nat × α) → Prop}

/-- A list that was built has a view, which holds what was added. -/
theorem view (hstart : Q start [])
    (hadd : ∀ a s s' l, Q s l → add a s s' → ∃ o, Q s' (l ++ [(o, a)])) {as : List α} {s : σ}
    (h : BuiltBy add start as s) : ∃ l, Q s l ∧ l.map Prod.snd = as := by
  induction h with
  | start => exact ⟨[], hstart, rfl⟩
  | add _ ha ih =>
      obtain ⟨l, hl, rfl⟩ := ih
      obtain ⟨o, ho⟩ := hadd _ _ _ _ hl ha
      exact ⟨_, ho, List.map_append⟩

/-- Any list can be built if one can always add to it. -/
theorem exists_of_add (hstart : Q start [])
    (hadd : ∀ a s l, Q s l → ∃ s' o, add a s s' ∧ Q s' (l ++ [(o, a)])) (as : List α) :
    ∃ s, BuiltBy add start as s := by
  have hview : ∃ s l, BuiltBy add start as s ∧ Q s l := by
    induction as using List.reverseRecOn with
    | nil => exact ⟨start, [], .start, hstart⟩
    | append_singleton as a ih =>
        obtain ⟨s, l, hs, hl⟩ := ih
        obtain ⟨s', o, ha, ho⟩ := hadd a s l hl
        exact ⟨s', _, hs.add ha, ho⟩
  obtain ⟨s, -, hs, -⟩ := hview
  exact ⟨s, hs⟩

end BuiltBy

/-! ### Lists that an appender has built -/

namespace Appender

variable {β τ : Type*} {A : Appender σ κ ε β τ α} {b : β} {t : τ} {s₀ s s' : σ}
  {l : List (Nat × α)} {a : α} {as : List α}

/-- A first attempt that gets memory. -/
def Adds (A : Appender σ κ ε β τ α) (b : β) (t : τ) (a : α) (s s' : σ) : Prop :=
  ∃ c new, Returns A.step A.tried c (A.world (fun _ => true) b t) s (A.attempt b [] a) s'
    (A.place b [some new])

namespace Lawful

theorem exists_adds (h : A.Lawful) (hq : A.quiet s l) (a : α) :
    ∃ s' o, A.Adds b t a s s' ∧ A.quiet s' (l ++ [(o, a)]) := by
  obtain ⟨s', -, hq', hreturns⟩ := h.adds 0 (fun _ => true) b t s l [] a hq rfl
  exact ⟨s', _, ⟨0, _, hreturns⟩, hq'⟩

theorem quiet_of_adds (h : A.Lawful) (hq : A.quiet s l) (ha : A.Adds b t a s s') :
    A.quiet s' (l ++ [((A.ring s).heap.brk, a)]) := by
  obtain ⟨c, new, hrun⟩ := ha
  obtain ⟨s₁, -, hq', hreturns⟩ := h.adds c (fun _ => true) b t s l [] a hq rfl
  obtain ⟨rfl, -⟩ := hreturns.unique hrun
  exact hq'

/-- Every list can be built. -/
theorem exists_built (h : A.Lawful) (h₀ : A.quiet s₀ []) (as : List α) :
    ∃ s, BuiltBy (A.Adds b t) s₀ as s :=
  BuiltBy.exists_of_add h₀ (fun a _ _ hq => h.exists_adds hq a) as

/-- Where a function frees the empty list only, it is told by what was added. -/
theorem freesList_iff (h : A.Lawful) (h₀ : A.quiet s₀ []) {F : Freer σ κ ε α} {c : Nat}
    (hF : ∀ s l, A.quiet s l → (F.FreesList c s ↔ l = []))
    (hb : BuiltBy (A.Adds b t) s₀ as s) : F.FreesList c s ↔ as = [] := by
  obtain ⟨l, hq, rfl⟩ := hb.view h₀ fun _ _ _ _ hq ha => ⟨_, h.quiet_of_adds hq ha⟩
  rw [hF s l hq, List.map_eq_nil_iff]

end Lawful

end Appender

end Lkp
