/-
Freeing the list under traversals.

`freelist` waits for a grace period first and unlinks afterwards.  A traversal that
begins in between finds the whole list, and nothing waits for it: it may stand on
a node when that node is freed.

This is the only thing that goes wrong.  The links a traversal follows lead into
the list in every state, from a node just unlinked as well.  So in a run in which
every `kfree` finds no traversal standing on the node (`Unoccupied`), no traversal
ever reads a freed one (`noFreedRead`) — with any number of writers and of
`freelist` calls besides.
-/
import Lkp.RcuList.Shape

namespace Lkp.RcuList

/-- No traversal reads a node that was freed. -/
def NoFreedRead {n : Nat} (r : machine.Run n) : Prop :=
  ∀ i, i ≤ n → ∀ c t, (r.state i).call c ≠ .walkOops t

/-- The node a traversal stands on: it reads that node next. -/
def standsOn : Call → Option Nat
  | .walkAt _ _ curr _ => some curr
  | .walkNext _ _ curr _ => some curr
  | _ => none

/-- The next step of a call at `l` frees nothing a traversal at `m` stands on. -/
def Spares (l m : Call) : Prop :=
  match l with
  | .freeKfree curr => standsOn m ≠ some curr
  | _ => True

instance : DecidableRel Spares := fun l m => by
  unfold Spares; split <;> infer_instance

/-- A node is freed only while no traversal stands on it. -/
def Unoccupied (p : Pool Drv Call) (a : Nat × Env) : Prop :=
  ∀ c, Spares (p.call a.1) (p.call c)

theorem spares_idle (l : Call) : Spares l .idle := by
  unfold Spares
  split
  · exact nofun
  · trivial

/-- A traversal stands on a node of the list or on the one just unlinked. -/
def Standing (s : Drv) : Call → Prop
  | .walkAt _ _ curr _ => curr = head ∨ curr ∈ s.order ∨ s.limbo = some curr
  | .walkNext _ _ curr _ => curr ∈ s.order ∨ s.limbo = some curr
  | .walkOops _ => False
  | _ => True

section Steps

variable {c d : Nat} {s s' : Drv} {l l' m : Call}

/-- Neither kind of node is freed. -/
theorem Shape.alive (hS : Shape s) {x : Nat} (hx : x ∈ s.order ∨ s.limbo = some x) :
    ∃ nd, s.heap.obj x = some nd := by
  rcases hx with hin | hlimbo
  · exact hS.linked.alive x hin
  · exact (hS.limbo x hlimbo).2.2

/-- The first node, if there is one, is in the list. -/
theorem Linked.first_mem (hl : Linked s) : s.next head = head ∨ s.next head ∈ s.order := by
  by_cases hne : s.next head = head
  · exact Or.inl hne
  · obtain ⟨rest, horder⟩ := hl.first hne
    exact Or.inr (horder ▸ List.mem_cons_self)

/-- From either kind of node the next one is in the list. -/
theorem Shape.next_mem (hS : Shape s) {x : Nat} (hx : x ∈ s.order ∨ s.limbo = some x) :
    s.next x = head ∨ s.next x ∈ s.order := by
  rcases hx with hin | hlimbo
  · exact hS.linked.ring.next_mem hin
  · rw [(hS.limbo x hlimbo).2.1]
    exact hS.linked.first_mem

/-- The traversal that moves. -/
theorem Move.standing (h : Move c s l s' l') (hS : Shape s) (hl : Standing s l) :
    Standing s' l' := by
  cases h with
  | first w t =>
      rcases hS.linked.first_mem with hhead | hin
      · exact Or.inl hhead
      · exact Or.inr (Or.inl hin)
  | visit w t curr seen hne hobj => exact hl.resolve_left hne
  | visitOops w t curr seen hne hobj =>
      obtain ⟨nd, hnd⟩ := hS.alive (hl.resolve_left hne)
      rw [hnd] at hobj
      cases hobj
  | advance w t curr seen hobj =>
      rcases hS.next_mem hl with hhead | hin
      · exact Or.inl hhead
      · exact Or.inr (Or.inl hin)
  | advanceOops w t curr seen hobj =>
      obtain ⟨nd, hnd⟩ := hS.alive hl
      rw [hnd] at hobj
      cases hobj
  | _ => trivial

/-- A step keeps a node in the list or just unlinked, unless it frees it. -/
theorem Move.keepsNode (h : Move c s l s' l') (hS : Shape s) (hl : Placed c s l) {x : Nat}
    (hx : x ∈ s.order ∨ s.limbo = some x) (hfree : l ≠ .freeKfree x) :
    x ∈ s'.order ∨ s'.limbo = some x := by
  cases h with
  | publish count rets new tail => exact hx.imp_left fun hin => List.mem_append_left _ hin
  | del curr hne hobj =>
      obtain ⟨hsettled, rfl⟩ := hl.place
      have hin := hx.resolve_right fun hlimbo => nomatch hsettled.limbo.symm.trans hlimbo
      obtain ⟨rest, horder⟩ := hS.linked.first hne
      rw [(hS.linked.listDelRcu horder).2]
      rw [horder] at hin
      rcases List.mem_cons.mp hin with heq | hrest
      · exact Or.inr (congrArg some heq.symm)
      · exact Or.inl hrest
  | kfree curr =>
      refine Or.inl (hx.resolve_right fun hlimbo => hfree ?_)
      rw [Option.some.inj (hl.place.2.symm.trans hlimbo)]
  | _ => exact hx

/-- A traversal that stands still. -/
theorem Move.standing_other (h : Move c s l s' l') (hS : Shape s) (hl : Placed c s l)
    (hm : Standing s m) (hspare : Spares l m) : Standing s' m := by
  have hfree : ∀ x, standsOn m = some x → l ≠ .freeKfree x := by
    rintro x hx rfl
    exact hspare hx
  cases m with
  | walkAt w t curr seen =>
      exact hm.imp_right fun hx => h.keepsNode hS hl hx (hfree curr rfl)
  | walkNext w t curr seen => exact h.keepsNode hS hl hm (hfree curr rfl)
  | walkOops t => exact hm
  | _ => trivial

end Steps

theorem standing_kept :
    Pool.Kept step (fun p a => Unoccupied p a ∧ Safe p) (fun _ => True)
      (fun _ s l => Standing s l) fun _ _ _ _ => True where
  own _ c _ _ _ hinv hok hstep :=
    ⟨trivial, (move_of_step hstep).standing hok.2.shared (hinv.each c)⟩
  others _ c _ _ _ d hinv hok hstep _ :=
    (move_of_step hstep).standing_other hok.2.shared (hok.2.each c) (hinv.each d) (hok.1 d)
  pair _ _ _ _ _ _ _ _ _ _ := ⟨trivial, trivial⟩

/-- Every traversal stands on a node that is not freed. -/
abbrev AllStanding : Pool Drv Call → Prop :=
  Pool.Inv (fun _ => True) (fun _ s l => Standing s l) fun _ _ _ _ => True

theorem inductive_standing :
    machine.Inductive (fun p a => Unoccupied p a ∧ Safe p) AllStanding :=
  standing_kept.invariant (fun _ _ => trivial) (fun _ _ _ => trivial) fun _ _ => trivial

/-- **Traversals read no freed node in a run that frees none under a traversal.** -/
theorem noFreedRead {n : Nat} (r : machine.Run n) (hok : r.Meets Unoccupied) :
    NoFreedRead r := by
  intro i hi c t hoops
  have hreach := r.reachableBy hok i hi
  have hstanding := (inductive_standing.holds (hreach.assuming (inductive_safe _))).each c
  rw [hoops] at hstanding
  exact hstanding

/-! ### Two runs -/

/-- A run of traversals and at most one call of `freelist`. -/
def OneFreelist {n : Nat} (r : machine.Run n) : Prop :=
  (∀ i, i < n → ∀ count, (r.act i).2 ≠ .write count) ∧
    ∀ i, i < n → ∀ j, j < n → (r.act i).2 = .free → (r.act j).2 = .free → i = j

/-- A list of one node. -/
def list1 : Drv where
  heap := { obj := Function.update (fun _ => none) 1
              (some { ival1 := 1, ival2 := 2, letter := 82 }), brk := 2 }
  next := Function.update (fun _ => head) head 1
  prev := Function.update (fun _ => head) head 1
  writelock := none
  rcu := .fresh
  base := [1]
  order := [1]
  took := []
  limbo := none

theorem built_list1 : Built list1 where
  linked :=
    { ring := ⟨rfl, rfl⟩
      nodup := by decide
      back := ⟨rfl, trivial⟩
      alive := by
        intro x hx
        rw [List.mem_singleton.mp hx]
        exact ⟨_, rfl⟩ }
  settled := ⟨rfl, rfl⟩
  heap := by
    intro x nd hx
    by_cases h1 : x = 1
    · rw [h1]
      decide
    · simp [list1, h1] at hx
  brk := by decide
  writelock := rfl
  rcu := rfl
  base := rfl
  took := rfl

/-- The list of one node with no call under way. -/
def pool1 : Pool Drv Call := { shared := list1, call := fun _ => .idle }

theorem machine_init : machine.init pool1 := ⟨built_list1, fun _ => rfl⟩

/-- Call `c` takes `k` steps, all of them going well. -/
def steps (c k : Nat) : List (Nat × Env) := List.replicate k (c, .run true (0, 0))

/-- Call 0 walks the whole list after the grace period of call 1, which frees it then. -/
def passed : List (Nat × Env) :=
  (1, .free) :: steps 1 3 ++ (0, .walk (.show 128)) :: steps 0 6 ++ steps 1 6

def passedRun : machine.Run 17 := .ofActs pool1 passed machine_init (by decide +kernel)

/-- Call 0 has just got to the first node. -/
def caught : List (Nat × Env) :=
  (1, .free) :: steps 1 3 ++ (0, .walk (.show 128)) :: steps 0 3 ++ steps 1 4 ++ steps 0 1

def caughtRun : machine.Run 13 := .ofActs pool1 caught machine_init (by decide +kernel)

theorem noFreedRead_passedRun :
    NoFreedRead passedRun ∧ (passedRun.state 17).call 0 =
      .walkRet (.show 128) [(1, { ival1 := 1, ival2 := 2, letter := 82 })] := by
  refine ⟨noFreedRead passedRun fun i hi => ?_, by decide +kernel⟩
  have htwo : ∀ i, i < 17 → ∀ c, c < 2 →
      Spares ((passedRun.state i).call (passedRun.act i).1) ((passedRun.state i).call c) := by
    decide +kernel
  have hact : ∀ i, i < 17 → (passedRun.act i).1 < 2 := by decide +kernel
  exact Pool.forall_call_of_lt passedRun hact (spares_idle _) hi.le (htwo i hi)

/-- The node goes while a traversal inside its section stands on it. -/
theorem not_noFreedRead :
    ¬ ∀ n (r : machine.Run n), OneFreelist r → NoFreedRead r := by
  intro h
  have hone : OneFreelist caughtRun := by
    refine ⟨fun i hi count hact => ?_, by decide +kernel⟩
    have hnowrite : ∀ i, i < 13 → (caughtRun.act i).2 = .free ∨
        (caughtRun.act i).2 = .walk (.show 128) ∨ (caughtRun.act i).2 = .run true (0, 0) := by
      decide +kernel
    have hcases := hnowrite i hi
    rw [hact] at hcases
    simp at hcases
  exact h _ caughtRun hone 13 (by decide) 0 0 (by decide +kernel)

end Lkp.RcuList
