/-
The two counters when opens and closes run side by side.

In `Lkp.Refcount.Driver` a call is one step.  Here each operation on a counter is: an open
counts `ga` up and later `gb` down, a close `ga` down and later `gb` up, and any number of
calls fall in between.  Each file number is a call of the pool, and goes from closed to
open and back.

What the counters say is then how many calls are past the one operation and not past the
other (`up`, `down`), which is the number of open files only when no call is under way.
They are right for as long as no more than 40 files are down whenever `gb` is counted down
(`interleaved_iff_room`).  That is sure if never more than 41 files are anything but closed
(`busy_iff`); how many are open, closes under way not counted, says nothing (`held_iff`).
-/
import Lkp.Concurrency.Total
import Lkp.Refcount.Driver

namespace Lkp.Refcount.Interleaved

/-- What the VFS does: an open, a release, or that a call goes on, with the order of two loads. -/
inductive Env
  | opening
  | closing
  | run (gaFirst : Bool)
  deriving DecidableEq

instance : Inhabited Env := ⟨.opening⟩

/-- Where a file is. -/
inductive Place
  | closed
  /-- `open_miscdrv_rdwr` entered; `refcount_inc(&ga)` comes next. -/
  | opening
  /-- `refcount_dec(&gb)` comes next. -/
  | openInc
  /-- `val_a = refcount_read(&ga)` comes next. -/
  | openDec
  | openGa (a : Int)
  /-- Open, and this was reported. -/
  | isOpen (a b : Int)
  /-- `close_miscdrv_rdwr` entered; `refcount_dec(&ga)` comes next. -/
  | closing
  /-- `refcount_inc(&gb)` comes next. -/
  | closeDec
  /-- The two loads for `dev_info` come next, in either order. -/
  | closeInc
  | closeGa (a : Int)
  | closeGb (b : Int)
  /-- Closed again, and this was reported. -/
  | shut (a b : Int)
  deriving DecidableEq

/-- `open_miscdrv_rdwr` and `close_miscdrv_rdwr`, one operation on a counter at a time. -/
def step : CallStep Drv Place Env := fun _ e s l =>
  match e, l with
  | .opening, .closed => some (s, .opening)
  | .opening, .shut _ _ => some (s, .opening)
  | .run _, .opening => some ({ s with ga := inc s.ga }, .openInc)
  | .run _, .openInc => some ({ s with gb := dec s.gb }, .openDec)
  | .run _, .openDec => some (s, .openGa s.ga)
  | .run _, .openGa a => some (s, .isOpen a s.gb)
  | .closing, .isOpen _ _ => some (s, .closing)
  | .run _, .closing => some ({ s with ga := dec s.ga }, .closeDec)
  | .run _, .closeDec => some ({ s with gb := inc s.gb }, .closeInc)
  | .run gaFirst, .closeInc => some (s, if gaFirst then .closeGa s.ga else .closeGb s.gb)
  | .run _, .closeGa a => some (s, .shut a s.gb)
  | .run _, .closeGb b => some (s, .shut s.ga b)
  | _, _ => none

/-- `REFCOUNT_INIT(42)` for both, and then any opens and closes. -/
def machine : Machine (Pool Drv Place) (Nat × Env) :=
  Pool.machine (fun s => s = { ga := 42, gb := 42 }) .closed step

/-! ### What is counted -/

/-- Past `refcount_inc(&ga)`, and not past `refcount_dec(&ga)`. -/
def up : Place → ℤ
  | .openInc | .openDec | .openGa _ | .isOpen _ _ | .closing => 1
  | _ => 0

/-- Past `refcount_dec(&gb)`, and not past `refcount_inc(&gb)`. -/
def down : Place → ℤ
  | .openDec | .openGa _ | .isOpen _ _ | .closing | .closeDec => 1
  | _ => 0

/-- Open, or on its way there; a close has not begun. -/
def held : Place → ℤ
  | .opening | .openInc | .openDec | .openGa _ | .isOpen _ _ => 1
  | _ => 0

/-- Anything but closed. -/
def busy : Place → ℤ
  | .closed | .shut _ _ => 0
  | _ => 1

/-- The counters are what they should be, and neither is saturated. -/
structure Balanced (p : Pool Drv Place) : Prop where
  ga : p.shared.ga = 42 + p.total up
  gb : p.shared.gb = 42 - p.total down
  unsaturated : p.shared.ga ≠ saturated ∧ p.shared.gb ≠ saturated

/-- `ga` has room where it is counted up, and `gb` where it is counted down. -/
def Room (p : Pool Drv Place) (a : Nat × Env) : Prop :=
  match a.2, p.call a.1 with
  | .run _, .opening => 42 + p.total up < intMax
  | .run _, .openInc => p.total down < 41
  | _, _ => True

/-! ### What one step can do -/

/-- An operation on a counter, or none, with what it does to the counts. -/
inductive Op (s : Drv) (l l' : Place) : Drv → Prop
  | none (hup : up l' = up l) (hdown : down l' = down l) : Op s l l' s
  | incGa (hl : l = .opening) (hl' : l' = .openInc) : Op s l l' { s with ga := inc s.ga }
  | decGb (hl : l = .openInc) (hl' : l' = .openDec) : Op s l l' { s with gb := dec s.gb }
  | decGa (hl : l = .closing) (hl' : l' = .closeDec) : Op s l l' { s with ga := dec s.ga }
  | incGb (hl : l = .closeDec) (hl' : l' = .closeInc) : Op s l l' { s with gb := inc s.gb }

theorem op_of_step {c : Nat} {e : Env} {s s' : Drv} {l l' : Place}
    (h : step c e s l = some (s', l')) : Op s l l' s' := by
  unfold step at h
  split at h
  case h_3 => cases h; exact .incGa rfl rfl
  case h_4 => cases h; exact .decGb rfl rfl
  case h_8 => cases h; exact .decGa rfl rfl
  case h_9 => cases h; exact .incGb rfl rfl
  case h_10 =>
    cases h
    split <;> exact .none rfl rfl
  all_goals cases h
  all_goals exact .none rfl rfl

/-- Only a run step is an operation. -/
theorem Op.env {c : Nat} {e : Env} {s s' : Drv} {l l' : Place}
    (h : step c e s l = some (s', l')) (hl : l = .opening ∨ l = .openInc) : ∃ b, e = .run b := by
  cases e with
  | run b => exact ⟨b, rfl⟩
  | opening | closing => rcases hl with rfl | rfl <;> cases h

theorem total_next {p p' : Pool Drv Place} {a : Nat × Env} {l' : Place} (g : Place → ℤ)
    (hg : g .closed = 0) (hp : machine.Reachable p)
    (hcall : p'.call = Function.update p.call a.1 l') :
    p'.total g = p.total g + (g l' - g (p.call a.1)) :=
  Pool.total_step hg (Pool.finite_busy.holds hp) hcall

/-! ### The counters along a run -/

/-- The counters are right, and `gb` has not come down to 0. -/
structure Counted (p : Pool Drv Place) : Prop where
  ga : p.shared.ga = 42 + p.total up
  gb : p.shared.gb = 42 - p.total down
  pos : 1 ≤ p.shared.gb

section Steps

variable {p p' : Pool Drv Place} {a : Nat × Env}

theorem up_nonneg : 0 ≤ p.total up := Pool.total_nonneg fun l => by cases l <;> simp [up]

theorem down_nonneg : 0 ≤ p.total down := Pool.total_nonneg fun l => by cases l <;> simp [down]

theorem Counted.balanced (h : Counted p) : Balanced p := by
  have hga := h.ga
  have hpos := h.pos
  have hup := up_nonneg (p := p)
  refine ⟨hga, h.gb, ?_, ?_⟩
  · unfold saturated; omega
  · unfold saturated; omega

/-- Where there is room each operation moves its counter by one. -/
theorem Counted.next (h : Counted p) (hp : machine.Reachable p) (hroom : Room p a)
    (hnext : machine.next p a = some p') : Counted p' := by
  obtain ⟨l', hstep, hcall⟩ := Pool.machine_next.mp hnext
  have hup := total_next up rfl hp hcall
  have hdown := total_next down rfl hp hcall
  have hga := h.ga
  have hgb := h.gb
  have hpos := h.pos
  have hupPos := up_nonneg (p := p)
  have hdownPos := down_nonneg (p := p)
  have hop := op_of_step hstep
  unfold Room at hroom
  generalize hl : p.call a.1 = l at hstep hup hdown hop hroom
  generalize hs' : p'.shared = s' at hstep hop
  cases hop with
  | none hup' hdown' =>
      rw [hup', sub_self, add_zero] at hup
      rw [hdown', sub_self, add_zero] at hdown
      exact ⟨by rw [hs', hup, hga], by rw [hs', hdown, hgb], hs' ▸ hpos⟩
  | incGa hopening hinc =>
      subst hopening hinc
      obtain ⟨b, hb⟩ := Op.env hstep (Or.inl rfl)
      rw [hb] at hroom
      have hadd : inc p.shared.ga = p.shared.ga + 1 := inc_of_lt (by omega) (by rw [hga]; exact hroom)
      simp only [up, down] at hup hdown
      refine ⟨?_, ?_, ?_⟩ <;> rw [hs'] <;> simp only [hadd] <;> omega
  | decGb hinc hdec =>
      subst hinc hdec
      obtain ⟨b, hb⟩ := Op.env hstep (Or.inr rfl)
      rw [hb] at hroom
      have hlt : p.total down < 41 := hroom
      have hsub : dec p.shared.gb = p.shared.gb - 1 := dec_of_lt (by omega)
      simp only [up, down] at hup hdown
      refine ⟨?_, ?_, ?_⟩ <;> rw [hs'] <;> simp only [hsub] <;> omega
  | decGa hclosing hdec =>
      subst hclosing hdec
      have hsub : dec p.shared.ga = p.shared.ga - 1 := dec_of_lt (by omega)
      simp only [up, down] at hup hdown
      refine ⟨?_, ?_, ?_⟩ <;> rw [hs'] <;> simp only [hsub] <;> omega
  | incGb hdec hinc =>
      subst hdec hinc
      have hadd : inc p.shared.gb = p.shared.gb + 1 :=
        inc_of_lt (by omega) (by unfold intMax; omega)
      simp only [up, down] at hup hdown
      refine ⟨?_, ?_, ?_⟩ <;> rw [hs'] <;> simp only [hadd] <;> omega

theorem counted_init (h : machine.init p) : Counted p := by
  have hup := Pool.total_init (g := up) rfl h
  have hdown := Pool.total_init (g := down) rfl h
  have hshared : p.shared = { ga := 42, gb := 42 } := h.1
  exact ⟨by rw [hshared, hup]; rfl, by rw [hshared, hdown]; rfl, by rw [hshared]; decide⟩

theorem counted_of_room (h : machine.ReachableBy Room p) : Counted p := by
  induction h with
  | init h0 => exact counted_init h0
  | step h hroom hnext ih => exact ih.next (h.weaken fun _ _ _ => trivial) hroom hnext

/-- An operation without room saturates its counter. -/
theorem not_balanced_of_not_room (h : Balanced p) (hroom : ¬ Room p a)
    (hnext : machine.next p a = some p') : ¬ Balanced p' := by
  intro hbal
  obtain ⟨l', hstep, -⟩ := Pool.machine_next.mp hnext
  obtain ⟨c, e⟩ := a
  have hga := h.ga
  have hgb := h.gb
  unfold Room at hroom
  split at hroom
  · rename_i b he hl
    subst he
    rw [hl] at hstep
    obtain ⟨hshared, -⟩ := Prod.mk.inj (Option.some.inj hstep)
    refine hbal.unsaturated.1 ?_
    rw [← hshared]
    exact if_neg fun hlt => hroom (hga ▸ hlt.2)
  · rename_i b he hl
    subst he
    rw [hl] at hstep
    obtain ⟨hshared, -⟩ := Prod.mk.inj (Option.some.inj hstep)
    refine hbal.unsaturated.2 ?_
    rw [← hshared]
    exact dec_of_le (by omega)
  · exact hroom trivial

end Steps

/--
**With opens and closes interleaved the counters are right throughout a run exactly if no
operation finds its counter full or down to 1**, told by how many calls are past the one
and not past the other.
-/
theorem interleaved_iff_room {n : Nat} (r : machine.Run n) :
    (∀ i, i ≤ n → Balanced (r.state i)) ↔ r.Meets Room := by
  constructor
  · intro h i hi
    by_contra hroom
    exact not_balanced_of_not_room (h i hi.le) hroom (r.step i hi) (h (i + 1) hi)
  · intro h i hi
    exact (counted_of_room (r.reachableBy h i hi)).balanced

/-! ### How many files -/

/-- After the step no more than `k` files count in `g`. -/
def Within (g : Place → ℤ) (k : Nat) (p : Pool Drv Place) (a : Nat × Env) : Prop :=
  ∀ p', machine.next p a = some p' → p'.total g ≤ k

section Files

variable {g : Place → ℤ} {k : Nat} {p : Pool Drv Place}

theorem total_le_of_within (hg : g .closed = 0) (h : machine.ReachableBy (Within g k) p) :
    p.total g ≤ k := by
  cases h with
  | init h0 =>
      rw [Pool.total_init hg h0]
      exact Int.natCast_nonneg k
  | step _ hok hnext => exact hok _ hnext

/-- With 41 files that are not closed there is always room. -/
theorem room_of_within (hk : k ≤ 41) {a : Nat × Env} (h : machine.ReachableBy (Within busy k) p) :
    Room p a := by
  have hle := total_le_of_within rfl h
  have hfin := Pool.finite_busy.holds h
  unfold Room
  split
  · rename_i b he hl
    have hlt : p.total up < p.total busy := Pool.total_lt rfl rfl hfin
      (fun l => by cases l <;> simp [up, busy]) (by rw [hl]; decide)
    unfold intMax
    omega
  · rename_i b he hl
    have hlt : p.total down < p.total busy := Pool.total_lt rfl rfl hfin
      (fun l => by cases l <;> simp [down, busy]) (by rw [hl]; decide)
    omega
  · trivial

/-- A run has come to file `m`, and those before it count `base`. -/
structure Stage (g : Place → ℤ) (k : Nat) (base : ℤ) (m : Nat) (l : Place)
    (p : Pool Drv Place) : Prop where
  reach : machine.ReachableBy (Within g k) p
  mine : p.call m = l
  rest : ∀ c, m < c → p.call c = .closed
  total : p.total g = base + g l

variable {base : ℤ} {m : Nat} {l : Place}

/-- File `m` takes a step. -/
theorem Stage.step (h : Stage g k base m l p) (hg : g .closed = 0) {e : Env} {s' : Drv} {l' : Place}
    (hstep : Interleaved.step m e p.shared l = some (s', l')) (hk : base + g l' ≤ k) :
    Stage g k base m l' { shared := s', call := Function.update p.call m l' } := by
  have hreach : machine.Reachable p := h.reach.weaken fun _ _ _ => trivial
  let p' : Pool Drv Place := { shared := s', call := Function.update p.call m l' }
  have hnext : machine.next p (m, e) = some p' :=
    Pool.machine_next.mpr ⟨l', by rw [h.mine]; exact hstep, rfl⟩
  have htotal : p'.total g = p.total g + (g l' - g (p.call m)) :=
    total_next (a := (m, e)) g hg hreach rfl
  rw [h.mine, h.total, show base + g l + (g l' - g l) = base + g l' by ring] at htotal
  refine ⟨h.reach.step ?_ hnext, Function.update_self (m : Nat) l' p.call, fun c hc => ?_, htotal⟩
  · intro q hq
    rw [hnext] at hq
    cases hq
    exact htotal.trans_le hk
  · show Function.update p.call m l' c = .closed
    rw [Function.update_of_ne (Nat.ne_of_gt hc)]
    exact h.rest c hc

theorem Stage.step_opening (h : Stage g k base m .closed p) (hg : g .closed = 0)
    (hk : base + g .opening ≤ k) :
    Stage g k base m .opening { p with call := Function.update p.call m .opening } :=
  h.step (e := .opening) hg rfl hk

theorem Stage.step_closing {x y : Int} (h : Stage g k base m (.isOpen x y) p) (hg : g .closed = 0)
    (hk : base + g .closing ≤ k) :
    Stage g k base m .closing { p with call := Function.update p.call m .closing } :=
  h.step (e := .closing) hg rfl hk

theorem Stage.step_run (h : Stage g k base m l p) (hg : g .closed = 0) {s' : Drv} {l' : Place}
    (hstep : Interleaved.step m (.run true) p.shared l = some (s', l')) (hk : base + g l' ≤ k) :
    Stage g k base m l' { shared := s', call := Function.update p.call m l' } :=
  h.step hg hstep hk

/-- It is left where it is. -/
theorem Stage.next (h : Stage g k base m l p) (hg : g .closed = 0) :
    Stage g k (base + g l) (m + 1) .closed p where
  reach := h.reach
  mine := h.rest (m + 1) (Nat.lt_succ_self m)
  rest c hc := h.rest c (Nat.lt_of_succ_lt hc)
  total := by rw [h.total, hg, add_zero]

theorem stage_zero (hg : g .closed = 0) :
    Stage g k 0 0 .closed { shared := { ga := 42, gb := 42 }, call := fun _ => .closed } where
  reach := .init ⟨rfl, fun _ => rfl⟩
  mine := rfl
  rest _ _ := rfl
  total := by
    have hinit : machine.init { shared := { ga := 42, gb := 42 }, call := fun _ => .closed } :=
      ⟨rfl, fun _ => rfl⟩
    rw [Pool.total_init hg hinit, hg, add_zero]

/-- Where each of 42 files in turn can count `gb` down, and count `d` from then on. -/
theorem exists_saturated {d : ℤ} (hg : g .closed = 0)
    (hcycle : ∀ (m : Nat) p, m ≤ 41 → Stage g k (m * d) m .closed p →
      ∃ p' l', Stage g k (m * d) m l' p' ∧ g l' = d ∧ p'.shared.gb = dec p.shared.gb) :
    ∃ p, machine.ReachableBy (Within g k) p ∧ p.shared.gb = saturated := by
  have hlow : ∀ m : Nat, m ≤ 41 →
      ∃ p, Stage g k (m * d) m .closed p ∧ p.shared.gb = 42 - (m : ℤ) := by
    intro m
    induction m with
    | zero => exact fun _ => ⟨_, by simpa using stage_zero hg, rfl⟩
    | succ m ih =>
        intro hm
        obtain ⟨p, hp, hgb⟩ := ih (Nat.le_of_succ_le hm)
        obtain ⟨p', l', hp', hd, hgb'⟩ := hcycle m p (Nat.le_of_succ_le hm) hp
        refine ⟨p', ?_, ?_⟩
        · have hnext := hp'.next hg
          rw [hd] at hnext
          rw [show (((m + 1 : Nat) : ℤ) * d) = m * d + d by push_cast; ring]
          exact hnext
        · rw [hgb', hgb, dec_of_lt (by omega)]
          push_cast
          ring
  obtain ⟨p, hp, hgb⟩ := hlow 41 (le_refl _)
  obtain ⟨p', l', hp', -, hgb'⟩ := hcycle 41 p (le_refl _) hp
  exact ⟨p', hp'.reach, by rw [hgb', hgb]; rfl⟩

end Files

/--
**The counters are right in every run in which at most `k` files are anything but closed, if
and only if `k` is no more than 41.**
-/
theorem busy_iff (k : Nat) :
    (∀ p, machine.ReachableBy (Within busy k) p → Balanced p) ↔ k ≤ 41 := by
  constructor
  · intro hall
    by_contra hk
    -- each file is opened as far as its `refcount_dec(&gb)`
    have hcycle : ∀ (m : Nat) p, m ≤ 41 → Stage busy k (m * 1) m .closed p →
        ∃ p' l', Stage busy k (m * 1) m l' p' ∧ busy l' = 1 ∧ p'.shared.gb = dec p.shared.gb := by
      intro m p hm hstage
      have hroom : (m : ℤ) * 1 + 1 ≤ k := by omega
      have hopening := hstage.step_opening rfl hroom
      have hinc := hopening.step_run rfl rfl hroom
      have hdec := hinc.step_run rfl rfl hroom
      exact ⟨_, _, hdec, rfl, rfl⟩
    obtain ⟨p, hp, hgb⟩ := exists_saturated rfl hcycle
    exact (hall p hp).unsaturated.2 hgb
  · intro hk p hp
    exact (counted_of_room (hp.imp fun p a h _ => room_of_within hk h)).balanced

/--
**In a run in which at most `k` files are held open, they need not be right for any `k` but
0**: a close that has begun is not counted, and has yet to give `gb` back.
-/
theorem held_iff (k : Nat) :
    (∀ p, machine.ReachableBy (Within held k) p → Balanced p) ↔ k = 0 := by
  constructor
  · intro hall
    by_contra hk
    -- each file is opened, and closed as far as its `refcount_inc(&gb)`
    have hcycle : ∀ (m : Nat) p, m ≤ 41 → Stage held k (m * 0) m .closed p →
        ∃ p' l', Stage held k (m * 0) m l' p' ∧ held l' = 0 ∧ p'.shared.gb = dec p.shared.gb := by
      intro m p hm hstage
      have hone : (m : ℤ) * 0 + 1 ≤ k := by omega
      have hzero : (m : ℤ) * 0 + 0 ≤ k := by omega
      have hopening := hstage.step_opening rfl hone
      have hinc := hopening.step_run rfl rfl hone
      have hdec := hinc.step_run rfl rfl hone
      have hga := hdec.step_run rfl rfl hone
      have hopen := hga.step_run rfl rfl hone
      have hclosing := hopen.step_closing rfl hzero
      have hback := hclosing.step_run rfl rfl hzero
      exact ⟨_, _, hback, rfl, rfl⟩
    obtain ⟨p, hp, hgb⟩ := exists_saturated rfl hcycle
    exact (hall p hp).unsaturated.2 hgb
  · rintro rfl p hp
    refine (counted_of_room (hp.imp fun p a h _ => ?_)).balanced
    have hle := total_le_of_within rfl h
    -- no file can be on its way
    have hnone : held (p.call a.1) ≤ 0 := by
      by_contra hlt
      have hsum : p.total (fun _ => 0) < p.total held := Pool.total_lt (c := a.1) rfl rfl
        (Pool.finite_busy.holds h) (fun l => by cases l <;> simp [held]) (not_le.mp hlt)
      rw [show p.total (fun _ => 0) = 0 from finsum_zero] at hsum
      omega
    unfold Room
    split
    · rename_i b he hl
      rw [hl] at hnone
      exact absurd hnone (by decide)
    · rename_i b he hl
      rw [hl] at hnone
      exact absurd hnone (by decide)
    · trivial

end Lkp.Refcount.Interleaved
