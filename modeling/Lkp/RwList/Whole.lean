/-
Whether a write does all it should.

The write methods of three drivers ignore what their inner functions return and return
`count` whatever happened.  So they keep what `ssize_t` promises exactly if no allocation
fails: with less memory a list gains fewer nodes than three, `gdata` keeps its object, and
the caller is told that all is well.
-/
import Lkp.RwList.Alone
import Lkp.RcuList.Alone
import Lkp.RcuRdwr.Alone

namespace Lkp

/-- A call that returns `count` whatever happened does all it should if it always gets memory. -/
theorem Appender.Lawful.whole_iff {σ κ ε β τ α : Type*} {A : Appender σ κ ε β τ α} (h : A.Lawful)
    {s : σ} {l : List (Nat × α)} (hq : A.quiet s l) {c count : Nat} {oks : Nat → Bool} {b : β}
    {t : τ} {ret : Nat → List (Option Nat) → κ} (hret : A.ret b = ret count)
    (hinj : ∀ n rets rets', ret n rets = ret count rets' → n = count) :
    (∃ s' n rets, Returns A.step A.done c (A.world oks b t) s A.idle s' (ret n rets) ∧
        AllOrNothing n count (∃ xs, (A.ring s').Lists A.head (l ++ xs) ∧ xs.map Prod.snd = A.all t)
          ((A.ring s').Lists A.head l)) ↔ ∀ k, k < A.tries → oks k = true := by
  obtain ⟨s₁, rets₁, hrun₁, -⟩ := h.appends hq c oks b t
  rw [hret] at hrun₁
  constructor
  · intro hwhole
    obtain ⟨s', n, rets, hrun, hall⟩ := hwhole
    obtain ⟨-, heq⟩ := hrun.unique hrun₁
    obtain rfl := hinj n rets rets₁ heq
    exact (h.gains_iff hq hrun).mp (hall.whole rfl)
  · intro hoks
    exact ⟨s₁, count, rets₁, hrun₁, fun _ => (h.gains_iff hq hrun₁).mpr hoks,
      fun hne => absurd rfl hne⟩

/-- So it is with the write method of the one list, -/
theorem RwList.Quiet.writesWhole_iff {c count : Nat} {oks : Nat → Bool}
    {clock : BitVec 64 × BitVec 64} {s : RwList.Drv} {l : List (Nat × RwList.Node)}
    (h : RwList.Quiet s l) :
    RwList.WritesWhole c count oks clock s l ↔ ∀ k, k < 3 → oks k = true :=
  RwList.appender_lawful.whole_iff h rfl fun _ _ _ heq => (RwList.Call.writeRet.inj heq).1

/-- and of the other. -/
theorem RcuList.Quiet.writesWhole_iff {c count : Nat} {oks : Nat → Bool}
    {clock : BitVec 64 × BitVec 64} {s : RcuList.Drv} {l : List (Nat × RcuList.Node)}
    (h : RcuList.Quiet s l) :
    RcuList.WritesWhole c count oks clock s l ↔ ∀ k, k < 3 → oks k = true :=
  RcuList.appender_lawful.whole_iff h rfl fun _ _ _ heq => (RcuList.Call.writeRet.inj heq).1

namespace RwList

/-- **A write does all it should, or reports an error, exactly if memory does not run out.** -/
theorem writesWhole_iff_memory (c count : Nat) :
    (∀ oks clock s l, Quiet s l →
      (WritesWhole c count oks clock s l ↔ ∀ k, k < 3 → oks k = true)) ∧
    (∀ oks clock s l, RcuList.Quiet s l →
      (RcuList.WritesWhole c count oks clock s l ↔ ∀ k, k < 3 → oks k = true)) ∧
    (∀ args ok s d, RcuRdwr.Quiet s d →
      (RcuRdwr.WritesWhole args c count ok s d ↔ ok = true)) := by
  refine ⟨?_, ?_, ?_⟩
  · intro oks clock s l h
    exact h.writesWhole_iff
  · intro oks clock s l h
    exact h.writesWhole_iff
  · intro args ok s d h
    exact h.writesWhole_iff

theorem writesWhole_iff_memory_loaded :
    WritesWhole 0 5 (fun _ => true) (7, 82) loaded [] ∧
      RcuList.WritesWhole 0 5 (fun _ => true) (7, 82) RcuList.loaded [] ∧
      RcuRdwr.WritesWhole RcuRdwr.showFields 0 5 true RcuRdwr.drv0 RcuRdwr.firstData :=
  ⟨((writesWhole_iff_memory 0 5).1 _ _ _ _ loaded_quiet).mpr fun _ _ => rfl,
    ((writesWhole_iff_memory 0 5).2.1 _ _ _ _ RcuList.loaded_quiet).mpr fun _ _ => rfl,
    ((writesWhole_iff_memory 0 5).2.2 _ _ _ _ RcuRdwr.drv0_quiet).mpr rfl⟩

/-- There is no memory for the second node of a list, or for a copy of the object. -/
theorem not_writesWhole :
    ¬ WritesWhole 0 5 (fun k => k != 1) (7, 82) loaded [] ∧
      ¬ RcuList.WritesWhole 0 5 (fun k => k != 1) (7, 82) RcuList.loaded [] ∧
      ¬ RcuRdwr.WritesWhole RcuRdwr.showFields 0 5 false RcuRdwr.drv0 RcuRdwr.firstData := by
  refine ⟨fun h => ?_, fun h => ?_, fun h => ?_⟩
  · exact absurd (loaded_quiet.writesWhole_iff.mp h 1 (by decide)) (by decide)
  · exact absurd (RcuList.loaded_quiet.writesWhole_iff.mp h 1 (by decide)) (by decide)
  · exact absurd (RcuRdwr.drv0_quiet.writesWhole_iff.mp h) (by decide)

end RwList

end Lkp
