/-
What `open` and `close` report of the two integers.

`ga` and `gb` move together under `lock1`, so that they always add up to 1.  The
message printed afterwards loads them one by one with the lock dropped, and
another call may make its update in between: then the pair printed is one the two
never formed (`not_reportsHeldPair`).  Which of them is loaded first is for the
compiler to choose, and neither order is better than the other.

The sum gives it away.  A pair that was loaded at two moments is one the integers
held together exactly if the one loaded first is at the second moment what it was
at the first, so that is what has to be true of a run, and nothing less
(`reportsHeldPair_iff`).
-/
import Lkp.Secret.Mutex

namespace Lkp.Secret.Mutex

variable {args : FileOp → Arg}

/--
Every pair reported is one that the two integers formed at one moment between the
call's own update and its return, and adds up to 1.
-/
def ReportsHeldPair {n : Nat} (r : (machine args).Run n) : Prop :=
  ∀ c op i j a b, i ≤ j → j ≤ n → (r.state i).call c = .fileDone op →
    (r.state j).call c = .fileRet op a b →
    (∃ k, i ≤ k ∧ k ≤ j ∧ (r.state k).shared.ga = a ∧ (r.state k).shared.gb = b) ∧ a + b = 1

/-- Where a call loads its second argument, the first is still what the call has loaded of it. -/
def StillHeld (p : Pool Drv Call) (a : Nat × Env) : Prop :=
  match p.call a.1 with
  | .fileArg _ x v => p.shared.load x = v
  | _ => True

/-! ### The sum -/

theorem update_sum (op : FileOp) (s : Drv) : (update op s).ga + (update op s).gb = s.ga + s.gb := by
  cases op with
  | opening =>
      show s.ga + 1 + (s.gb - 1) = s.ga + s.gb
      grind
  | closing =>
      show s.ga - 1 + (s.gb + 1) = s.ga + s.gb
      grind

theorem Move.sum {e : Env} {s s' : Drv} {l l' : Call} (h : Move args e s l s' l') :
    s'.ga + s'.gb = s.ga + s.gb := by
  cases h with
  | update op => exact update_sum op s
  | _ => rfl

/-- Whatever opens and closes have made of them, the two add up to 1. -/
theorem inductive_sum :
    (machine args).Inductive (fun _ _ => True) fun p => p.shared.ga + p.shared.gb = 1 where
  init := by
    intro p hinit
    obtain ⟨⟨-, hga, hgb⟩, -⟩ := hinit
    rw [hga, hgb]
    rfl
  step := by
    intro p a p' hsum _ hnext
    obtain ⟨l', hstep, -⟩ := Pool.machine_next.mp hnext
    rw [(move_of_step hstep).sum]
    exact hsum

/-! ### The two loads -/

/-- What `dev_info` prints, once the second argument is loaded too. -/
def Drv.report (s : Drv) (x : Arg) (v : BitVec 32) : BitVec 32 × BitVec 32 :=
  match x with
  | .ga => (v, s.gb)
  | .gb => (s.ga, v)

/-- The pair is the one of this moment if the first argument still stands. -/
theorem Drv.report_of_load {s : Drv} {x : Arg} {v : BitVec 32} (h : s.load x = v) :
    s.report x v = (s.ga, s.gb) := by
  subst h
  cases x <;> rfl

/-- Only then does it add up to the same. -/
theorem Drv.load_of_report {s : Drv} {x : Arg} {v : BitVec 32}
    (h : (s.report x v).1 + (s.report x v).2 = s.ga + s.gb) : s.load x = v := by
  cases x with
  | ga =>
      change v + s.gb = s.ga + s.gb at h
      exact (BitVec.add_left_inj _).mp h.symm
  | gb =>
      change s.ga + v = s.ga + s.gb at h
      exact (BitVec.add_right_inj _).mp h.symm

/-- A report ends with the load of the second argument. -/
theorem move_fileRet {e : Env} {s s' : Drv} {l : Call} {op : FileOp} {a b : BitVec 32}
    (h : Move args e s l s' (.fileRet op a b)) :
    ∃ x v, l = .fileArg op x v ∧ s.report x v = (a, b) := by
  cases h with
  | loadGb => exact ⟨.ga, a, rfl, rfl⟩
  | loadGa => exact ⟨.gb, b, rfl, rfl⟩

theorem move_of_fileArg {e : Env} {s s' : Drv} {l' : Call} {op : FileOp} {x : Arg} {v : BitVec 32}
    (h : Move args e s (.fileArg op x v) s' l') :
    l' = .fileRet op (s.report x v).1 (s.report x v).2 := by
  cases h with
  | loadGb => rfl
  | loadGa => rfl

/-- It begins with the load of the first. -/
theorem move_fileArg {e : Env} {s s' : Drv} {l : Call} {op : FileOp} {x : Arg} {v : BitVec 32}
    (h : Move args e s l s' (.fileArg op x v)) : l = .fileDone op := by
  cases h with
  | loadArg => rfl

/-- **The pairs reported are pairs held exactly if the first argument stands still** until the
second is loaded, whichever of the two is the first. -/
theorem reportsHeldPair_iff {n : Nat} (r : (machine args).Run n) :
    ReportsHeldPair r ↔ r.Meets StillHeld := by
  have hsum : ∀ i, i ≤ n → (r.state i).shared.ga + (r.state i).shared.gb = 1 := fun i hi =>
    inductive_sum.holds (r.reachable i hi)
  constructor
  · intro h k hk
    unfold StillHeld
    split
    · rename_i op x v hplace
      -- the call has come from its update, and its next step ends the report
      have hidle : ¬ (r.state 0).call (r.act k).1 = .fileArg op x v := by
        rw [r.start.2]
        exact nofun
      obtain ⟨i, e, -, hik, -, -, hafter, hload⟩ :=
        Pool.exists_step (P := fun l => l = .fileArg op x v) r (Nat.zero_le k) hk.le hidle hplace
      rw [hafter] at hload
      have hdone := move_fileArg (move_of_step hload)
      obtain ⟨l', hstep, hcall⟩ := Pool.machine_next.mp (r.step k hk)
      rw [hplace] at hstep
      have hret := move_of_fileArg (move_of_step hstep)
      have hpair := (h _ op i (k + 1) _ _ (Nat.le_succ_of_le hik.le) hk hdone
        (hret ▸ Pool.call_self hcall)).2
      exact Drv.load_of_report (hpair.trans (hsum k hk.le).symm)
    · trivial
  · intro hok c op i j a b hij hj hdone hret
    have hnot : ¬ (r.state i).call c = .fileRet op a b := by
      rw [hdone]
      exact nofun
    obtain ⟨k, e, hik, hkj, hact, -, hafter, hstep⟩ :=
      Pool.exists_step (P := fun l => l = .fileRet op a b) r hij hj hnot hret
    rw [hafter] at hstep
    obtain ⟨x, v, hplace, hreport⟩ := move_fileRet (move_of_step hstep)
    have hkn : k < n := Nat.lt_of_lt_of_le hkj hj
    have hheld : (r.state k).shared.load x = v := by
      have hstill := hok k hkn
      simp only [StillHeld, hact, hplace] at hstill
      exact hstill
    rw [Drv.report_of_load hheld, Prod.mk.injEq] at hreport
    obtain ⟨hga, hgb⟩ := hreport
    refine ⟨⟨k, hik, hkj.le, hga, hgb⟩, ?_⟩
    rw [← hga, ← hgb]
    exact hsum k hkn.le

/-- Call 0 opens and makes one load, call 1 opens, call 0 makes the other load. -/
def openedBetween : List (Nat × Env) :=
  [(0, .call (.file .opening)), (0, .run true), (0, .run true),
   (1, .call (.file .opening)), (1, .run true), (0, .run true)]

def openedBetweenRun (args : FileOp → Arg) : (machine args).Run 6 :=
  .ofActs pool0 openedBetween machine_init (by
    revert args
    decide +kernel)

/-- The pair that call 0 reports: `ga` from before the other call and `gb` from after it, or the
other way round. -/
def tornPair : Arg → BitVec 32 × BitVec 32
  | .ga => (1, -1)
  | .gb => (2, 0)

theorem openedBetweenRun_reports (args : FileOp → Arg) :
    ((openedBetweenRun args).state 2).call 0 = .fileDone .opening ∧
      ((openedBetweenRun args).state 6).call 0 =
        .fileRet .opening (tornPair (args .opening)).1 (tornPair (args .opening)).2 := by
  revert args
  decide +kernel

/-- Whichever load comes first, the two loads of call 0 do not make a pair. -/
theorem not_reportsHeldPair : ¬ ∃ args, ∀ n (r : (machine args).Run n), ReportsHeldPair r := by
  intro h
  obtain ⟨args, h⟩ := h
  obtain ⟨hdone, hret⟩ := openedBetweenRun_reports args
  have hpair := h 6 (openedBetweenRun args) 0 .opening 2 6 _ _ (by decide) (by decide) hdone hret
  have hsum : ∀ x, (tornPair x).1 + (tornPair x).2 ≠ 1 := by decide
  exact hsum _ hpair.2

end Lkp.Secret.Mutex
