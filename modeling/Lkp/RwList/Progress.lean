/-
Nobody waits for ever for somebody who is stuck.

The calls without `freelist` never wait with the lock held, so a call that cannot go on waits
for one that can (`GoesOn`).  And that one leaves: a writer has five steps to make under the
lock, and a traversal two for each node and two more, on a list that does not grow while it is
inside.  What the others do meanwhile, and how many they are, makes no difference
(`lock_progress`).
-/
import Lkp.Concurrency.Effects
import Lkp.RwList.Linear

namespace Lkp.RwList

/-- The call has begun and not returned. -/
def UnderWay (l : Call) : Prop := l ≠ .idle ∧ ¬ Returned l

/-- Whatever the world answers, the call takes a step. -/
def CanStep (p : Pool Drv Call) (c : Nat) : Prop :=
  ∀ ok clock, (step c (.run ok clock) p.shared (p.call c)).isSome

/-- The call can step, or it waits outside for one inside that can. -/
inductive GoesOn (p : Pool Drv Call) (c : Nat) : Prop
  | itself (h : CanStep p c)
  | other {d : Nat} (hout : holding (p.call c) = .nothing) (hin : holding (p.call d) ≠ .nothing)
      (h : CanStep p d)

/-- How many steps a call makes before it lets go of the lock. -/
def remaining (hist : List Entry) : Call → Nat
  | .walkFirst _ => 2 * hist.length + 2
  | .walkAt _ _ seen => 2 * (hist.length - seen.length) + 1
  | .walkNext _ _ seen => 2 * (hist.length - seen.length) + 2
  | .addHead _ _ _ => 5
  | .addLink _ _ _ _ => 4
  | .addBack _ _ _ _ => 3
  | .addTail _ _ _ _ => 2
  | .addUnlock _ _ _ => 1
  | _ => 0

/-! ### Who can step -/

section Steps

variable {c d : Nat} {s s' : Drv} {l l' m : Call} {hist : List Entry} {ok : Bool}
  {clock : BitVec 64 × BitVec 64}

theorem isSome_of_walkStep (h : (walkStep c s l).isSome) :
    (step c (.run ok clock) s l).isSome := by
  show (Option.or (walkStep c s l) _).isSome
  rw [Option.isSome_or, h]
  rfl

theorem isSome_of_writeStep (h : (writeStep c ok clock s l).isSome) :
    (step c (.run ok clock) s l).isSome := by
  show (Option.or (walkStep c s l) (Option.or (writeStep c ok clock s l) _)).isSome
  rw [Option.isSome_or, Option.isSome_or, h, Bool.true_or, Bool.or_true]

/-- Only the two operations that take the lock have to wait. -/
theorem isSome_step (hl : UnderWay l) (hp : Placed c s hist l) (hwalk : ∀ w, l ≠ .walkLock w)
    (hwrite : ∀ count rets new, l ≠ .addLock count rets new) :
    (step c (.run ok clock) s l).isSome := by
  cases l with
  | idle => exact absurd rfl hl.1
  | walkRet | writeRet | freeRet => exact absurd trivial hl.2
  | walkOops => exact hp.place.elim
  | free | freeFirst | freeAt | freeNext | freeOops => cases hp.outside
  | walkLock w => exact absurd rfl (hwalk w)
  | addLock count rets new => exact absurd rfl (hwrite count rets new)
  | walk w => rfl
  | walkFirst w => rfl
  | walkAt w curr seen =>
      refine isSome_of_walkStep ?_
      rw [walkStep]
      split
      · rfl
      · split <;> rfl
  | walkNext w curr seen =>
      refine isSome_of_walkStep ?_
      rw [walkStep]
      split <;> rfl
  | write count rets =>
      refine isSome_of_writeStep ?_
      rw [writeStep]
      split <;> rfl
  | add count rets nd =>
      refine isSome_of_writeStep ?_
      rw [writeStep]
      split <;> rfl
  | addNew | addHead | addLink | addBack | addTail | addUnlock => rfl

theorem underWay_of_holding (h : holding l ≠ .nothing) : UnderWay l := by
  cases l with
  | walkFirst | walkAt | walkNext | walkOops => exact ⟨nofun, id⟩
  | addHead | addLink | addBack | addTail | addUnlock => exact ⟨nofun, id⟩
  | _ => exact absurd rfl h

/-- Who is inside can step. -/
theorem isSome_step_of_holding (h : holding l ≠ .nothing) (hp : Placed c s hist l) :
    (step c (.run ok clock) s l).isSome := by
  refine isSome_step (underWay_of_holding h) hp (fun w heq => ?_) fun count rets new heq => ?_
  · subst heq
    exact h rfl
  · subst heq
    exact h rfl

/-! ### How long it takes -/

/-- A step of the call inside brings it nearer to its end. -/
theorem Move.remaining_own (h : Move c s l s' l') (hS : Shape s hist) (hp : Placed c s hist l)
    (hin : holding l ≠ .nothing) :
    remaining (RwList.record c s l hist) l' + 1 ≤ remaining hist l := by
  cases h with
  | first w => exact Nat.le_refl _
  | visit w curr seen hne hobj =>
      obtain ⟨nd, -, hpre⟩ := hS.linked.visit hp.place hne
      have hlen := hpre.length_le
      rw [List.length_append, cells, List.length_map, List.length_singleton] at hlen
      show 2 * (hist.length - (seen ++ [_]).length) + 2 + 1 ≤ 2 * (hist.length - seen.length) + 1
      rw [List.length_append, List.length_singleton]
      omega
  | visitOops w curr seen => exact Nat.le_add_left _ _
  | readUnlock w seen => exact Nat.le_add_left _ _
  | advance w curr seen => exact Nat.le_refl _
  | advanceOops w curr seen => exact Nat.le_add_left _ _
  | headPrev | link | back | publish | unlock => exact Nat.le_refl _
  | _ => exact absurd rfl hin

theorem remaining_pos (hin : holding l ≠ .nothing) (hp : Placed c s hist l) :
    0 < remaining hist l := by
  cases l with
  | walkFirst | walkAt | walkNext => exact Nat.succ_pos _
  | walkOops => exact hp.place.elim
  | addHead | addLink | addBack | addTail | addUnlock => exact Nat.succ_pos _
  | _ => exact absurd rfl hin

theorem remaining_of_writing (hw : holding l = .writing) : remaining hist l ≤ 5 := by
  cases l with
  | addHead | addLink | addBack | addTail | addUnlock => simp [remaining]
  | _ => cases hw

theorem remaining_of_reading (hr : holding l = .reading) :
    remaining hist l ≤ 2 * hist.length + 2 := by
  cases l with
  | walkFirst w => exact Nat.le_refl _
  | walkAt w curr seen =>
      show 2 * (hist.length - seen.length) + 1 ≤ _
      omega
  | walkNext w curr seen =>
      show 2 * (hist.length - seen.length) + 2 ≤ _
      omega
  | walkOops => exact Nat.zero_le _
  | _ => cases hr

/-- While a call is inside the others do not change the list. -/
theorem Move.record_other (h : Move c s l s' l') (hS : Shape s hist) (hp : Placed c s hist l)
    (hm : Placed d s hist m) (hne : d ≠ c) (hin : holding m ≠ .nothing) :
    RwList.record c s l hist = hist := by
  by_cases hw : holding l = .writing
  · exact absurd (hp.alone hS hm hne hw) hin
  · exact (h.frame hw).1

end Steps

/-! ### Every run without `freelist` -/

/-- A call that has to wait finds somebody inside. -/
theorem goesOn {p : Pool Drv Call} {hist : List Entry} {c : Nat}
    (hsafe : Safe (Pool.withRecord p hist)) (hway : UnderWay (p.call c)) : GoesOn p c := by
  have hplaced : ∀ d, Placed d p.shared hist (p.call d) := hsafe.each
  have hother : ∀ d, holding (p.call c) = .nothing → holding (p.call d) ≠ .nothing →
      GoesOn p c := fun d hout hin =>
    .other hout hin fun _ _ => isSome_step_of_holding hin (hplaced d)
  have hwriter : ∀ d, p.shared.rwlock.writer = some d → holding (p.call d) ≠ .nothing := by
    intro d hd
    rw [(hplaced d).lock.writing.mpr hd]
    exact nofun
  have hreader : ∀ d, d ∈ p.shared.rwlock.readers → holding (p.call d) ≠ .nothing := by
    intro d hd
    rw [(hplaced d).lock.reading.mpr hd]
    exact nofun
  cases hcall : p.call c with
  | walkLock w =>
      cases hfree : p.shared.rwlock.writer with
      | none =>
          refine .itself fun ok clock => ?_
          rw [hcall]
          refine isSome_of_walkStep ?_
          simp [walkStep, RwLock.readLock, hfree]
      | some d => exact hother d (by rw [hcall]; rfl) (hwriter d hfree)
  | addLock count rets new =>
      cases hfree : p.shared.rwlock.writer with
      | none =>
          rcases p.shared.rwlock.readers.eq_empty_or_nonempty with hnone | ⟨d, hd⟩
          · refine .itself fun ok clock => ?_
            rw [hcall]
            refine isSome_of_writeStep ?_
            simp [writeStep, RwLock.writeLock, hfree, hnone]
          · exact hother d (by rw [hcall]; rfl) (hreader d hd)
      | some d => exact hother d (by rw [hcall]; rfl) (hwriter d hfree)
  | _ =>
      exact .itself fun ok clock => isSome_step hway (hplaced c) (by simp [hcall]) (by simp [hcall])

/--
**Nobody is stuck, and whoever holds the lock leaves it** after fewer than five steps of its own
as a writer, and fewer than two for each node and two more as a traversal.
-/
theorem lock_progress {n : Nat} (r : machine.Run n) (hok : r.Meets NoFreelist) :
    (∀ i, i ≤ n → ∀ c, UnderWay ((r.state i).call c) → GoesOn (r.state i) c) ∧
      ∀ i j c, i ≤ j → j ≤ n →
        ((∀ t, i ≤ t → t ≤ j → holding ((r.state t).call c) = .writing) →
          Pool.ownSteps r c i j < 5) ∧
        ((∀ t, i ≤ t → t ≤ j → holding ((r.state t).call c) = .reading) →
          Pool.ownSteps r c i j < 2 * (history r i).length + 2) := by
  have hinv := Pool.inductive_recorded inductive_safe r hok
  refine ⟨fun i hi c hway => goesOn (hinv i hi) hway, fun i j c hij hj => ?_⟩
  have hcount : (∀ t, i ≤ t → t ≤ j → holding ((r.state t).call c) ≠ .nothing) →
      Pool.ownSteps r c i j < remaining (history r i) ((r.state i).call c) := by
    intro hin
    have hle := Pool.ownSteps_add_le (r := r) (c := c)
      (m := fun t => remaining (history r t) ((r.state t).call c)) hij
      (fun t ht => ?_) fun t hit htj hne => ?_
    · have hpos := remaining_pos (hin j hij (Nat.le_refl j)) ((hinv j hj).each c)
      exact Nat.lt_of_lt_of_le (Nat.lt_add_of_pos_right hpos) hle
    · obtain ⟨hfirst, hlast, rfl⟩ := ht
      have htn : t < n := Nat.lt_of_lt_of_le hlast hj
      have hsafe := hinv t htn.le
      have hp := hsafe.each (r.act t).1
      have hmove := move_of_step (Pool.step_of_run r htn) (hok t htn) hp.outside
      exact hmove.remaining_own hsafe.shared hp (hin t hfirst hlast.le)
    · have htn : t < n := Nat.lt_of_lt_of_le htj hj
      have hsafe := hinv t htn.le
      have hp := hsafe.each (r.act t).1
      have hmove := move_of_step (Pool.step_of_run r htn) (hok t htn) hp.outside
      have hsame : history r (t + 1) = history r t :=
        hmove.record_other hsafe.shared hp (hsafe.each c) hne.symm (hin t hit htj.le)
      obtain ⟨l', -, hcall⟩ := Pool.machine_next.mp (r.step t htn)
      show remaining (history r (t + 1)) _ ≤ _
      rw [hsame, Pool.call_other hcall hne.symm]
  refine ⟨fun hin => ?_, fun hin => ?_⟩
  · have hlt := hcount fun t hit htj => by rw [hin t hit htj]; exact nofun
    exact Nat.lt_of_lt_of_le hlt (remaining_of_writing (hin i (Nat.le_refl i) hij))
  · have hlt := hcount fun t hit htj => by rw [hin t hit htj]; exact nofun
    exact Nat.lt_of_lt_of_le hlt (remaining_of_reading (hin i (Nat.le_refl i) hij))

/-- Call 1 waits for the lock, and call 0, inside, has one step to make. -/
theorem lock_progress_sideRun :
    (sideRun.state 11).call 1 = .walkLock (.show 128) ∧ GoesOn (sideRun.state 11) 1 ∧
      Pool.ownSteps sideRun 0 5 11 < 5 := by
  have hprogress := lock_progress sideRun sideRun_noFreelist
  have hwaits : (sideRun.state 11).call 1 = .walkLock (.show 128) := by decide +kernel
  have hinside : ∀ t, 5 ≤ t → t ≤ 11 → holding ((sideRun.state t).call 0) = .writing := by
    intro t ht ht'
    interval_cases t <;> decide +kernel
  refine ⟨hwaits, hprogress.1 11 (by decide) 1 ?_,
    (hprogress.2 5 11 0 (by decide) (by decide)).1 hinside⟩
  rw [hwaits]
  exact ⟨nofun, id⟩

end Lkp.RwList
