/-
What a traversal shows while others append.

It reads the list from the front without a lock, so what it has read is a prefix
of the list, and appending keeps it one.  When it finds the tail pointing to the
head the prefix is all there is: at that instant, whatever is appended before the
traversal ends, what it has read is the whole list.
-/
import Lkp.RcuList.Append
import Lkp.RcuList.Reclaim

namespace Lkp.RcuList

/-- The nodes a traversal has read, in that order. -/
def nodes (seen : Seen) : List Nat := seen.map Prod.fst

/-- They hold what was read. -/
def StillHolds (s : Drv) (seen : Seen) : Prop := ∀ x ∈ seen, s.heap.obj x.1 = some x.2

/-- What was read is the whole list: its nodes in forward order, and what they hold. -/
structure Snapshot (s : Drv) (seen : Seen) : Prop where
  forward : Path s.next (s.next head) (nodes seen) head
  order : nodes seen = s.order
  data : StillHolds s seen

/--
Every traversal reads nodes that are there, and what it has read when it returns
is the whole list as it stood at some instant between its start and its end.
-/
structure ShowsWholeList {n : Nat} (r : machine.Run n) : Prop where
  noOops : NoFreedRead r
  snapshot : ∀ i j c w seen, i ≤ j → j ≤ n → (r.state i).call c = .walk w →
    (r.state j).call c = .walkRet w seen →
      ∃ k, i ≤ k ∧ k ≤ j ∧ Snapshot (r.state k).shared seen

/-- What writes that may run side by side have made of the list. -/
structure Appended (p : Pool Drv Call) : Prop where
  /-- The forward pointers lead through the list and back, and no node is in it twice. -/
  forward : Path p.shared.next (p.shared.next head) p.shared.order head
  nodup : (head :: p.shared.order).Nodup
  /-- It is in the order of the lock; while that is held, its last node may be missing. -/
  order : p.shared.order <+: p.shared.base ++ p.shared.took
  settled : p.shared.writelock = none → p.shared.order = p.shared.base ++ p.shared.took
  /-- Every `add2tail` that returned 0 has put a node with its arguments there. -/
  added : ∀ c (k x : Nat), (retsOf (p.call c))[k]? = some (some x) →
    x ∈ p.shared.order ∧ x ∉ p.shared.base ∧ HoldsArgs p.shared k x
  /-- Two of them, two nodes. -/
  once : ∀ c (k : Nat) d (j x : Nat), (retsOf (p.call c))[k]? = some (some x) →
    (retsOf (p.call d))[j]? = some (some x) → c = d ∧ k = j
  /-- There are no others, but for an `add2tail` that is about to return. -/
  only : ∀ x ∈ p.shared.order, x ∈ p.shared.base ∨
    (∃ c, ∃ k : Nat, (retsOf (p.call c))[k]? = some (some x)) ∨
      ∃ c, aboutToReturn (p.call c) = some x
  /-- The nodes of one write stand in the order of its calls. -/
  inOrder : ∀ c, (retsOf (p.call c)).reduceOption.Sublist p.shared.order
  three : ∀ c count rets, p.call c = .writeRet count rets → rets.length = 3

/-! ### Traversals -/

/-- What a traversal has read is a prefix of the list, and it stands just behind. -/
def Walking (s : Drv) : Call → Prop
  | .walkAt _ _ curr seen =>
      StillHolds s seen ∧ nodes seen <+: s.order ∧ (curr ≠ head → nodes seen ++ [curr] <+: s.order)
  | .walkNext _ _ curr seen =>
      StillHolds s seen ∧ nodes seen <+: s.order ∧ ∃ before, nodes seen = before ++ [curr]
  | .walkOops _ => False
  | _ => True

/-- The traversal has read the whole list. -/
def Complete (w : Walk) (seen : Seen) (l : Call) : Prop :=
  l = .walkRet w seen ∨ ∃ t, l = .walkAt w t head seen

section Steps

variable {c d : Nat} {s s' : Drv} {l l' m : Call} {w : Walk} {seen : Seen}

/-- Behind a node that was read stands the next one of the list, or the head. -/
theorem Linked.prefix_next (hl : Linked s) {before : List Nat} {x : Nat}
    (h : before ++ [x] <+: s.order) :
    if s.next x = head then before ++ [x] = s.order
    else before ++ [x] ++ [s.next x] <+: s.order := by
  obtain ⟨rest, hrest⟩ := h
  have hring := hl.ring
  have hnodup := hl.nodup
  rw [← hrest, List.append_assoc] at hring
  rw [← hrest] at hnodup ⊢
  have hpath : Path s.next (s.next x) rest head := hring.next_of_mem
  split
  · rename_i heq
    rw [heq] at hpath
    have hnil : rest = [] := hpath.nil_of_eq fun hmem =>
      (List.nodup_cons.mp hnodup).1 (List.mem_append_right _ hmem)
    rw [hnil, List.append_nil]
  · rename_i hne
    obtain ⟨rest', rfl⟩ := hpath.cons_of_ne hne
    exact ⟨rest', List.append_assoc _ _ _⟩

/-- The head pointing to itself, the list is empty. -/
theorem Linked.eq_nil (hl : Linked s) (h : s.next head = head) : s.order = [] := by
  have hring := hl.ring
  rw [h] at hring
  exact hring.nil_of_eq (List.nodup_cons.mp hl.nodup).1

theorem Linked.snapshot (hl : Linked s) (horder : nodes seen = s.order)
    (hdata : StillHolds s seen) : Snapshot s seen where
  forward := by
    rw [horder]
    exact hl.ring
  order := horder
  data := hdata

/-- The traversal that moves. -/
theorem Move.walking (h : Move c s l s' l') (hL : Linked s) (hl : Walking s l) :
    Walking s' l' := by
  cases h with
  | first w t =>
      refine ⟨nofun, List.nil_prefix, fun hne => ?_⟩
      obtain ⟨rest, horder⟩ := hL.first hne
      exact ⟨rest, horder.symm⟩
  | visit w t curr seen hne hobj =>
      obtain ⟨hdata, -, hcurr⟩ := hl
      have hnodes : ∀ nd, nodes (seen ++ [(curr, nd)]) = nodes seen ++ [curr] :=
        fun nd => List.map_append
      refine ⟨fun x hx => ?_, hnodes _ ▸ hcurr hne, nodes seen, hnodes _⟩
      rcases List.mem_append.mp hx with hold | hlast
      · exact hdata x hold
      · rw [List.mem_singleton.mp hlast]
        exact hobj
  | visitOops w t curr seen hne hnone =>
      obtain ⟨-, -, hcurr⟩ := hl
      obtain ⟨nd, hobj⟩ := hL.alive curr ((hcurr hne).subset (by simp))
      exact absurd (hobj.symm.trans hnone) nofun
  | advance w t curr seen hobj =>
      obtain ⟨hdata, hpre, before, hlast⟩ := hl
      refine ⟨hdata, hpre, fun hne => ?_⟩
      rw [hlast] at hpre ⊢
      have hnext := hL.prefix_next hpre
      rw [if_neg hne] at hnext
      exact hnext
  | advanceOops w t curr seen hnone =>
      obtain ⟨-, hpre, before, hlast⟩ := hl
      obtain ⟨nd, hobj⟩ := hL.alive curr (hpre.subset (by simp [hlast]))
      exact absurd (hobj.symm.trans hnone) nofun
  | _ => trivial

/-- What was read stays as it was read. -/
theorem Move.stillHolds (h : Move c s l s' l') (hS : Shape s) (hp : Placed c s l)
    (hl : inFreelist l = false) (hdata : StillHolds s seen) (hpre : nodes seen <+: s.order) :
    StillHolds s' seen := by
  intro x hx
  have hmem : x.1 ∈ s.order := hpre.subset (List.mem_map_of_mem hx)
  exact h.keepsObj hS hl (hdata x hx) (hp.new_ne hmem)

/-- A traversal that stands still. -/
theorem Move.walking_other (h : Move c s l s' l') (hS : Shape s) (hp : Placed c s l)
    (hl : inFreelist l = false) (hm : Walking s m) : Walking s' m := by
  have hgrows := h.order_grows hl
  cases m with
  | walkAt w t curr seen =>
      obtain ⟨hdata, hpre, hcurr⟩ := hm
      exact ⟨h.stillHolds hS hp hl hdata hpre, hpre.trans hgrows,
        fun hne => (hcurr hne).trans hgrows⟩
  | walkNext w t curr seen =>
      obtain ⟨hdata, hpre, hlast⟩ := hm
      exact ⟨h.stillHolds hS hp hl hdata hpre, hpre.trans hgrows, hlast⟩
  | walkOops t => exact hm
  | _ => trivial

/-- The step with which a traversal has read the whole list finds it as it is. -/
theorem Move.snapshot (h : Move c s l s' l') (hL : Linked s) (hl : Walking s l)
    (hbefore : ¬ Complete w seen l) (hafter : Complete w seen l') : Snapshot s' seen := by
  cases h with
  | walkEmpty w' hempty =>
      rcases hafter with heq | ⟨t, heq⟩
      · cases heq
        exact hL.snapshot (hL.eq_nil hempty).symm nofun
      · cases heq
  | readUnlock w' t seen' =>
      rcases hafter with heq | ⟨t', heq⟩
      · cases heq
        exact absurd (Or.inr ⟨t, rfl⟩) hbefore
      · cases heq
  | first w' t =>
      rcases hafter with heq | ⟨t', heq⟩
      · cases heq
      · injection heq with _ _ hempty hseen
        subst hseen
        exact hL.snapshot (hL.eq_nil hempty).symm nofun
  | advance w' t curr seen' hobj =>
      obtain ⟨hdata, hpre, before, hlast⟩ := hl
      rcases hafter with heq | ⟨t', heq⟩
      · cases heq
      · -- the load that finds the head is the instant
        injection heq with _ _ hend hseen
        subst hseen
        rw [hlast] at hpre
        have hnext := hL.prefix_next hpre
        rw [if_pos hend] at hnext
        exact hL.snapshot (hlast.trans hnext) hdata
  | _ =>
      rcases hafter with heq | ⟨t, heq⟩
      · cases heq
      · cases heq

end Steps

/-! ### Every run without `freelist` -/

/-- Every traversal has read a prefix of the list. -/
abbrev AllWalking : Pool Drv Call → Prop :=
  Pool.Inv (fun _ => True) (fun _ s l => Walking s l) fun _ _ _ _ => True

/-- What the runs are known to keep. -/
def Grows (p : Pool Drv Call) (a : Nat × Env) : Prop :=
  (NoFreelist p a ∧ Safe p) ∧ Appending p

theorem walking_kept :
    Pool.Kept step Grows (fun _ => True) (fun _ s l => Walking s l) fun _ _ _ _ => True where
  own _ c _ _ _ hinv hok hstep :=
    ⟨trivial, (move_of_step hstep).walking hok.1.2.shared.linked (hinv.each c)⟩
  others _ c _ _ _ d hinv hok hstep _ :=
    (move_of_step hstep).walking_other hok.1.2.shared (hok.1.2.each c) (hok.2.each c).outside
      (hinv.each d)
  pair _ _ _ _ _ _ _ _ _ _ := ⟨trivial, trivial⟩

theorem inductive_walking : machine.Inductive Grows AllWalking :=
  walking_kept.invariant (fun _ _ => trivial) (fun _ _ _ => trivial) fun _ _ => trivial

theorem reachableBy_grows {p : Pool Drv Call} (h : machine.ReachableBy NoFreelist p) :
    machine.ReachableBy Grows p :=
  (h.assuming (inductive_safe _)).assuming inductive_appending

/-- In a list of results no node stands twice. -/
theorem index_unique {rets : Rets} (h : rets.reduceOption.Nodup) {k j x : Nat}
    (hk : rets[k]? = some (some x)) (hj : rets[j]? = some (some x)) : k = j := by
  induction rets generalizing k j with
  | nil => cases hk
  | cons a rets ih =>
      have htail : rets.reduceOption.Nodup := by
        cases a with
        | none => exact h
        | some y => exact (List.nodup_cons.mp h).2
      have hlater : ∀ i : Nat, a = some x → rets[i]? ≠ some (some x) := by
        rintro i rfl hi
        exact (List.nodup_cons.mp h).1 (List.reduceOption_mem_iff.mpr (List.mem_of_getElem? hi))
      cases k with
      | zero =>
          cases j with
          | zero => rfl
          | succ j => exact absurd hj (hlater j (Option.some.inj hk))
      | succ k =>
          cases j with
          | zero => exact absurd hk (hlater k (Option.some.inj hj))
          | succ j => exact congrArg Nat.succ (ih htail hk hj)

theorem reduceOption_sublist_published (l : Call) :
    (retsOf l).reduceOption.Sublist (published l) := by
  rw [published, List.reduceOption_append]
  exact List.sublist_append_left _ _

/-- The invariants, read as what the writes have made of the list. -/
theorem appended_of_inv {p : Pool Drv Call} (hsafe : Safe p) (happ : Appending p)
    (hacc : Accounted p) : Appended p where
  forward := hsafe.shared.linked.ring
  nodup := hsafe.shared.linked.nodup
  order := by
    by_cases hfree : p.shared.writelock = none
    · rw [happ.shared.free hfree]
    · -- whoever holds the lock knows what is missing
      obtain ⟨d, hheld⟩ := Option.ne_none_iff_exists'.mp hfree
      exact ⟨_, (happ.each d).order ((hsafe.each d).lock.mpr hheld)⟩
  settled := happ.shared.free
  added c k x hx := by
    have hpub := published_of_rets (List.mem_of_getElem? hx)
    exact ⟨(happ.each c).inList.subset hpub, (happ.each c).added x hpub, (happ.each c).data k x hx⟩
  once c k d j x hk hj := by
    by_cases hcd : c = d
    · subst hcd
      refine ⟨rfl, index_unique ?_ hk hj⟩
      have hsub := (reduceOption_sublist_published (p.call c)).trans (happ.each c).inList
      exact (List.nodup_cons.mp hsafe.shared.linked.nodup).2.sublist hsub
    · exact absurd (published_of_rets (List.mem_of_getElem? hj))
        (happ.pair c d hcd x (published_of_rets (List.mem_of_getElem? hk)))
  only x hx := by
    refine (hacc x hx).imp_right ?_
    intro hex
    obtain ⟨c, hpub⟩ := hex
    rcases List.mem_append.mp (List.reduceOption_mem_iff.mp hpub) with hret | hlast
    · obtain ⟨k, hk⟩ := List.mem_iff_getElem?.mp hret
      exact Or.inl ⟨c, k, hk⟩
    · exact Or.inr ⟨c, (List.mem_singleton.mp hlast).symm⟩
  inOrder c := (reduceOption_sublist_published _).trans (happ.each c).inList
  three c count rets hret := by
    have hargs := (happ.each c).args
    rw [hret] at hargs
    exact hargs

/-- **Without `freelist` the list gains one node for each `add2tail` that returns 0, in the
order of the lock, and every traversal shows the list whole.** -/
theorem appendOnly {n : Nat} (r : machine.Run n) (hok : r.Meets NoFreelist) :
    (∀ i, i ≤ n → Appended (r.state i)) ∧ ShowsWholeList r := by
  have hgrows : ∀ i, i ≤ n → machine.ReachableBy Grows (r.state i) := fun i hi =>
    reachableBy_grows (r.reachableBy hok i hi)
  have hsafe : ∀ i, i ≤ n → Safe (r.state i) := fun i hi =>
    (inductive_safe _).holds (hgrows i hi)
  have hwalking : ∀ i, i ≤ n → AllWalking (r.state i) := fun i hi =>
    inductive_walking.holds (hgrows i hi)
  refine ⟨fun i hi => ?_, fun i hi c t hoops => ?_, fun i j c w seen hij hj hstart hend => ?_⟩
  · have happ : Appending (r.state i) :=
      inductive_appending.holds ((hgrows i hi).weaken fun _ _ h => h.1)
    have hacc : Accounted (r.state i) :=
      inductive_accounted.holds ((hgrows i hi).weaken fun _ _ h => ⟨h.1.1, h.1.2, h.2⟩)
    exact appended_of_inv (hsafe i hi) happ hacc
  · have hwalk := (hwalking i hi).each c
    rw [hoops] at hwalk
    exact hwalk
  · -- the step with which the traversal has read the whole list
    have hnot : ¬ Complete w seen ((r.state i).call c) := by
      rw [hstart]
      rintro (heq | ⟨t, heq⟩)
      · cases heq
      · cases heq
    obtain ⟨k, e, hik, hkj, -, hbefore, hafter, hstep⟩ :=
      Pool.exists_step r hij hj hnot (Or.inl hend)
    have hkn : k < n := Nat.lt_of_lt_of_le hkj hj
    refine ⟨k + 1, Nat.le_succ_of_le hik, hkj, ?_⟩
    exact (move_of_step hstep).snapshot (hsafe k hkn.le).shared.linked
      ((hwalking k hkn.le).each c) hbefore hafter

/-- Call 1 walks a list of one node while call 0 appends two; its second allocation fails. -/
def appending : List (Nat × Env) :=
  (1, .walk (.show 128)) :: steps 1 4 ++ (0, .write 5) :: steps 0 10 ++ (0, .run false (0, 0)) ::
    steps 1 3 ++ steps 0 6 ++ steps 1 1 ++ steps 0 4

def appendingRun : machine.Run 31 := .ofActs pool1 appending machine_init (by decide +kernel)

theorem appendOnly_appendingRun :
    ((∀ i, i ≤ 31 → Appended (appendingRun.state i)) ∧ ShowsWholeList appendingRun) ∧
      (appendingRun.state 31).call 0 = .writeRet 5 [some 2, none, some 3] ∧
      (appendingRun.state 31).call 1 =
        .walkRet (.show 128) [(1, { ival1 := 1, ival2 := 2, letter := 82 }),
          (2, { ival1 := 1, ival2 := 2, letter := 82 })] := by
  refine ⟨appendOnly appendingRun ?_, by decide +kernel, by decide +kernel⟩
  have hacts : ∀ i, i < 31 → (appendingRun.act i).2 ≠ .free := by decide +kernel
  exact hacts

end Lkp.RcuList
