/-
What a traversal can show.

Each write appends a node with R, one with C and one with U, in this order, and does not hold
the lock in between; so with enough memory a traversal shows a word of these in which, up to
any point, there are at least as many R as C and at least as many C as U.  All such words can
be shown (`shown_iff`): where there are more R than C some write has still to append its C.

Where `kzalloc` may fail, and `write_miscdrv_rdwr` takes no notice, nothing of this is left:
any nodes can follow each other.
-/
import Lkp.RwList.Linear

namespace Lkp.RwList

/-- `freelist` is not called, and `kzalloc` finds memory. -/
def Plenty (_ : Pool Drv Call) (a : Nat × Env) : Prop :=
  a.2 ≠ .free ∧ ∀ clock, a.2 ≠ .run false clock

/-- A node of call number `k` of `add2tail` in a write. -/
def NodeOf (k : Nat) (nd : Node) : Prop := ∃ clock, addArgs clock k = some nd

/-- In some run, a traversal shows these nodes. -/
def Shown (ok : Pool Drv Call → Nat × Env → Prop) (nds : List Node) : Prop :=
  ∃ p c w seen, machine.ReachableBy ok p ∧ p.call c = .walkRet w seen ∧ seen.map Prod.snd = nds

theorem plenty_noFreelist (p : Pool Drv Call) (a : Nat × Env) (h : Plenty p a) : NoFreelist p a :=
  h.1

/-! ### Only such words -/

section Only

variable {c d : Nat} {e : Env} {s s' : Drv} {l l' : Call} {hist : List Entry} {rets : Rets}

/-- With memory every `add2tail` returns a node. -/
theorem rets_of_step (h : step c e s l = some (s', l'))
    (hok : e ≠ .free ∧ ∀ clock, e ≠ .run false clock) (hout : inFreelist l = false) :
    Continues (retsOf l) (retsOf l') := by
  cases move_of_step h hok.1 hout with
  | noMem count rets nd =>
      cases e with
      | run ok clock =>
          cases ok with
          | true =>
              have hplace : some (Call.addNew count rets nd s.heap.brk) =
                  some (.write count (rets ++ [none])) := congrArg (Option.map Prod.snd) h
              cases hplace
          | false => exact absurd rfl (hok.2 clock)
      | _ => cases h
  | unlock count rets new => exact Or.inr (Or.inr ⟨new, rfl⟩)
  | callWalk | callWrite | walkEmpty | readUnlock => exact Or.inl rfl
  | _ => exact Or.inr (Or.inl rfl)

/-- What a traversal has shown the list once was. -/
def HasShown (p : Pool (Drv × List Entry) Call) : Prop :=
  ∀ c w seen, p.call c = .walkRet w seen → ∃ pre, pre <+: p.shared.2 ∧ seen = cells pre

theorem inductive_hasShown :
    recorder.Inductive (fun p a => Pool.unrecorded NoFreelist p a ∧ Safe p) HasShown where
  init p hp c w seen hret := by
    rw [hp.2 c] at hret
    cases hret
  step := by
    rintro p ⟨c, e⟩ p' hshown hok hnext d w seen hret
    obtain ⟨l', hstep, hcall⟩ := Pool.machine_next.mp hnext
    obtain ⟨hmove, hrec⟩ := move_of_recording hok.2 hok.1 hstep
    have hp := hok.2.each c
    have hgrows : p.shared.2 <+: p'.shared.2 := by
      rw [hrec]
      rcases hmove.record hp with hsame | ⟨_, _, _, _, _, -, -, -, -, hmore⟩
      · rw [hsame]
      · rw [hmore]
        exact List.prefix_append _ _
    by_cases hd : d = c
    · subst hd
      rw [Pool.call_self hcall] at hret
      by_cases hold : p.call d = .walkRet w seen
      · obtain ⟨pre, hpre, hseen⟩ := hshown d w seen hold
        exact ⟨pre, hpre.trans hgrows, hseen⟩
      · exact ⟨p.shared.2, hgrows, hmove.shows hok.2.shared hp hold hret⟩
    · rw [Pool.call_other hcall hd] at hret
      obtain ⟨pre, hpre, hseen⟩ := hshown d w seen hret
      exact ⟨pre, hpre.trans hgrows, hseen⟩

/-- What is known of a state that is reached without `freelist`. -/
theorem exists_known {ok : Pool Drv Call → Nat × Env → Prop} {p : Pool Drv Call}
    (hp : machine.ReachableBy ok p) (hok : ∀ q a, ok q a → NoFreelist q a) :
    ∃ hist, Safe (Pool.withRecord p hist) ∧ (reader 0).Told retsOf aboutToReturn p hist := by
  obtain ⟨hist, hr⟩ : ∃ hist, recorder.ReachableBy (Pool.unrecorded ok)
      (Pool.withRecord p hist) := Pool.exists_recorded hp
  have hfree : recorder.ReachableBy (Pool.unrecorded NoFreelist) (Pool.withRecord p hist) :=
    hr.weaken fun q a h => hok _ _ h
  obtain ⟨hsafe, hwritten⟩ := inductive_both.holds hfree
  have hshown : HasShown (Pool.withRecord p hist) :=
    inductive_hasShown.holds (hfree.assuming inductive_safe)
  exact ⟨hist, hsafe, hwritten.shared, fun c => (hwritten.each c).own, hshown⟩

end Only

/-! ### What can be shown -/

section Shows

variable {nds : List Node}

theorem shown_plenty_iff :
    Shown Plenty nds ↔ ∃ ks, Ballot ks ∧ List.Forall₂ NodeOf ks nds := by
  have hadd : ∀ (q : Pool Drv Call) c clock l, Plenty q (c, writing 0 (fun _ => true) clock l) := by
    intro q c clock l
    cases l <;> simp [Plenty, writing]
  have hlook : ∀ (q : Pool Drv Call) c l, Plenty q (c, showing 0 l) := by
    intro q c l
    cases l <;> simp [Plenty, showing]
  have htold : ∀ p, machine.ReachableBy Plenty p →
      ∃ hist, (reader 0).Told retsOf aboutToReturn p hist := by
    intro p hp
    obtain ⟨hist, -, htold⟩ := exists_known hp plenty_noFreelist
    exact ⟨hist, htold⟩
  refine Reader.shows_iff_ballot appender_lawful (reader_lawful 0) hadd hlook htold
    fun p hp => Reader.none_notMem_rets rfl (fun q c e s' l' hq hok hstep => ?_) hp
  obtain ⟨hist, hsafe, -⟩ := exists_known hq plenty_noFreelist
  exact rets_of_step hstep hok (hsafe.each c).outside

theorem shown_noFreelist_iff : Shown NoFreelist nds ↔ ∀ nd ∈ nds, ∃ k, NodeOf k nd := by
  have hadd : ∀ (q : Pool Drv Call) c oks clock l, NoFreelist q (c, writing 0 oks clock l) := by
    intro q c oks clock l
    cases l <;> simp [NoFreelist, writing]
  have hlook : ∀ (q : Pool Drv Call) c l, NoFreelist q (c, showing 0 l) := by
    intro q c l
    cases l <;> simp [NoFreelist, showing]
  have htold : ∀ p, machine.ReachableBy NoFreelist p →
      ∃ hist, (reader 0).Told retsOf aboutToReturn p hist := by
    intro p hp
    obtain ⟨hist, -, htold⟩ := exists_known hp fun _ _ h => h
    exact ⟨hist, htold⟩
  exact Reader.shows_iff_genuine appender_lawful (reader_lawful 0) hadd hlook htold

/--
**What a traversal can show** while `kzalloc` finds memory: the nodes R, C and U of any writes,
in every order in which each C comes after more R than C, and each U after more C than U.
Where `kzalloc` may fail, the nodes in every order whatever.
-/
theorem shown_iff (nds : List Node) :
    (Shown Plenty nds ↔ ∃ ks, Ballot ks ∧ List.Forall₂ NodeOf ks nds) ∧
      (Shown NoFreelist nds ↔ ∀ nd ∈ nds, ∃ k, NodeOf k nd) :=
  ⟨shown_plenty_iff, shown_noFreelist_iff⟩

end Shows

end Lkp.RwList
