/-
Circular lists that change under those who walk along them.

A node is added at the end and gets the next address, so the addresses of a list go up
from the head.  It is unlinked from anywhere, and then keeps its own `next`: whoever
stands on it still gets back into the list.  It is not forgotten: `Link` says when it was
unlinked, as the next ticket and the next address of that time.

What a walker relies on is in `WF`.  From a node it leads to a node that was unlinked no
earlier (`after`), and no node is passed over that was already there when the one it
comes from was unlinked (`covers`).  `Held` is the place of a walker who has begun at a
given time; it stays one whatever is added or unlinked (`Held.add`, `Held.del`), and so
does the node that comes next (`Held.next`).
-/
import Mathlib.Tactic
import Mathlib.Logic.Function.Basic

namespace Lkp

/-- What has become of a node. -/
inductive Link
  | absent
  | listed
  /-- Unlinked, when `tick` was the next ticket and `brk` the next address. -/
  | unlinked (tick brk : Nat)
  deriving DecidableEq

/-- The pointers of a list, and what has become of each node. -/
structure Chain where
  head : Nat
  next : Nat → Nat
  prev : Nat → Nat
  link : Nat → Link

namespace Chain

/-- A list without nodes. -/
def single (h : Nat) : Chain where
  head := h
  next _ := h
  prev _ := h
  link := Function.update (fun _ => .absent) h .listed

/-- `list_add_tail_rcu`. -/
def add (l : Chain) (new : Nat) : Chain where
  head := l.head
  next := Function.update (Function.update l.next new l.head) (l.prev l.head) new
  prev := Function.update (Function.update l.prev new (l.prev l.head)) l.head new
  link := Function.update l.link new .listed

/-- `list_del_rcu`; the node keeps its `next`. -/
def del (l : Chain) (z tick brk : Nat) : Chain where
  head := l.head
  next := Function.update l.next (l.prev z) (l.next z)
  prev := Function.update l.prev (l.next z) (l.prev z)
  link := Function.update l.link z (.unlinked tick brk)

/-- The node is in the list now. -/
def Listed (l : Chain) (x : Nat) : Prop := l.link x = .listed

instance (l : Chain) (x : Nat) : Decidable (l.Listed x) := by unfold Listed; infer_instance

/-- The node was in the list when `y` was. -/
def Saw (l : Chain) (x y : Nat) : Prop :=
  l.Listed x ∨ ∃ tick brk, l.link x = .unlinked tick brk ∧ y < brk

/-- The node is in the list, or it was unlinked after ticket `since` and address `floor`. -/
def Held (l : Chain) (since floor x : Nat) : Prop :=
  l.Listed x ∨ ∃ tick brk, l.link x = .unlinked tick brk ∧ since < tick ∧ floor ≤ brk

/-- A list as adding and unlinking leave it; `tick` and `brk` are the next ticket and address. -/
structure WF (l : Chain) (tick brk : Nat) : Prop where
  headListed : l.Listed l.head
  next : ∀ x, l.Listed x → l.Listed (l.next x) ∧ l.prev (l.next x) = x
  prev : ∀ x, l.Listed x → l.Listed (l.prev x) ∧ l.next (l.prev x) = x
  range : ∀ x, l.link x ≠ .absent → l.head ≤ x ∧ x < brk
  up : ∀ x, l.link x ≠ .absent → l.next x = l.head ∨ x < l.next x
  past : ∀ x t n, l.link x = .unlinked t n → t ≤ tick ∧ n ≤ brk
  after : ∀ x t n, l.link x = .unlinked t n →
    l.Listed (l.next x) ∨ ∃ t' n', l.link (l.next x) = .unlinked t' n' ∧ t ≤ t' ∧ n ≤ n'
  covers : ∀ x y, l.Saw x y → l.Listed y → x < y → l.next x ≠ l.head ∧ l.next x ≤ y

variable {l : Chain} {tick brk tick' brk' since floor x y z new h : Nat}

theorem Listed.ne_absent (hx : l.Listed x) : l.link x ≠ .absent := by
  rw [show l.link x = .listed from hx]
  simp

/-! ### A list without nodes -/

@[simp] theorem single_head : (single h).head = h := rfl

@[simp] theorem single_next : (single h).next x = h := rfl

theorem listed_single : (single h).Listed x ↔ x = h := by
  unfold Listed single
  by_cases hx : x = h
  · simp [hx]
  · simp [hx]

theorem link_single_of_ne (hx : x ≠ h) : (single h).link x = .absent := by
  show Function.update (fun _ => Link.absent) h .listed x = .absent
  exact Function.update_of_ne hx ..

theorem wf_single (hbrk : h < brk) : (single h).WF tick brk where
  headListed := listed_single.mpr rfl
  next x hx := ⟨listed_single.mpr rfl, (listed_single.mp hx).symm⟩
  prev x hx := ⟨listed_single.mpr rfl, (listed_single.mp hx).symm⟩
  range x hx := by
    by_cases heq : x = h
    · exact ⟨heq.ge, heq ▸ hbrk⟩
    · exact absurd (link_single_of_ne heq) hx
  up _ _ := Or.inl rfl
  past x t n hx := by
    by_cases heq : x = h
    · subst heq
      simp [single] at hx
    · rw [link_single_of_ne heq] at hx
      cases hx
  after x t n _ := Or.inl (listed_single.mpr rfl)
  covers x y hsaw hy hlt := by
    obtain rfl := listed_single.mp hy
    by_cases heq : x = y
    · omega
    · rcases hsaw with hx | hx
      · exact absurd (listed_single.mp hx) heq
      · obtain ⟨t, n, hx, -⟩ := hx
        rw [link_single_of_ne heq] at hx
        cases hx

/-! ### Time passes -/

theorem WF.mono (hl : l.WF tick brk) (ht : tick ≤ tick') (hb : brk ≤ brk') : l.WF tick' brk' where
  headListed := hl.headListed
  next := hl.next
  prev := hl.prev
  range x hx := ⟨(hl.range x hx).1, (hl.range x hx).2.trans_le hb⟩
  up := hl.up
  past x t n hx := ⟨(hl.past x t n hx).1.trans ht, (hl.past x t n hx).2.trans hb⟩
  after := hl.after
  covers := hl.covers

/-! ### Adding a node -/

section Add

@[simp] theorem add_head : (l.add new).head = l.head := rfl

theorem link_add_of_ne (hx : x ≠ new) : (l.add new).link x = l.link x :=
  Function.update_of_ne hx ..

theorem listed_add_self : (l.add new).Listed new := Function.update_self ..

theorem listed_add_iff (hx : x ≠ new) : (l.add new).Listed x ↔ l.Listed x := by
  unfold Listed
  rw [link_add_of_ne hx]

theorem Listed.add (hx : l.Listed x) : (l.add new).Listed x := by
  by_cases heq : x = new
  · exact heq ▸ listed_add_self
  · exact (listed_add_iff heq).mpr hx

/-- The node that was last leads to the new one. -/
theorem next_add_tail : (l.add new).next (l.prev l.head) = new := Function.update_self ..

theorem next_add_new (hne : new ≠ l.prev l.head) : (l.add new).next new = l.head := by
  unfold Chain.add
  simp only [Function.update_of_ne hne, Function.update_self]

/-- All others lead where they did. -/
theorem next_add_of_ne (hnew : x ≠ new) (htail : x ≠ l.prev l.head) :
    (l.add new).next x = l.next x := by
  unfold Chain.add
  simp only [Function.update_of_ne htail, Function.update_of_ne hnew]

theorem prev_add_head : (l.add new).prev l.head = new := Function.update_self ..

theorem prev_add_new (hne : new ≠ l.head) : (l.add new).prev new = l.prev l.head := by
  unfold Chain.add
  simp only [Function.update_of_ne hne, Function.update_self]

theorem prev_add_of_ne (hnew : x ≠ new) (hhead : x ≠ l.head) :
    (l.add new).prev x = l.prev x := by
  unfold Chain.add
  simp only [Function.update_of_ne hhead, Function.update_of_ne hnew]

/-- The last node is the only one that leads to the head. -/
theorem WF.eq_tail (hl : l.WF tick brk) (hx : l.Listed x) (hnext : l.next x = l.head) :
    x = l.prev l.head := by
  rw [← hnext]
  exact (hl.next x hx).2.symm

/-- A new address is that of no node. -/
theorem WF.fresh (hl : l.WF tick brk) : l.link brk = .absent := by
  by_contra hne
  exact absurd (hl.range brk hne).2 (Nat.lt_irrefl _)

theorem WF.lt_of_listed (hl : l.WF tick brk) (hx : l.Listed x) : x < brk :=
  (hl.range x hx.ne_absent).2

/-- **A node may be added** at the next address. -/
theorem WF.add (hl : l.WF tick brk) : (l.add brk).WF tick (brk + 1) := by
  have hhead : brk ≠ l.head := (hl.lt_of_listed hl.headListed).ne'
  have htail := hl.prev l.head hl.headListed
  have hne : brk ≠ l.prev l.head := (hl.lt_of_listed htail.1).ne'
  -- a node of before is not the new one
  have hold : ∀ x, l.link x ≠ .absent → x ≠ brk := fun x hx => (hl.range x hx).2.ne
  have hlink : ∀ x, (l.add brk).link x ≠ .absent → x = brk ∨ l.link x ≠ .absent := by
    intro x hx
    by_cases heq : x = brk
    · exact Or.inl heq
    · exact Or.inr (link_add_of_ne heq ▸ hx)
  have hunlinked : ∀ x t n, (l.add brk).link x = .unlinked t n → l.link x = .unlinked t n := by
    intro x t n hx
    have heq : x ≠ brk := by
      rintro rfl
      rw [show (l.add x).link x = .listed from listed_add_self] at hx
      cases hx
    rwa [link_add_of_ne heq] at hx
  refine ⟨hl.headListed.add, fun x hx => ?_, fun x hx => ?_, fun x hx => ?_, fun x hx => ?_,
    fun x t n hx => ?_, fun x t n hx => ?_, fun x y hsaw hy hlt => ?_⟩
  · by_cases hnew : x = brk
    · rw [hnew, next_add_new hne]
      exact ⟨hl.headListed.add, prev_add_head⟩
    · have hx := (listed_add_iff hnew).mp hx
      by_cases heq : x = l.prev l.head
      · rw [heq, next_add_tail]
        exact ⟨listed_add_self, prev_add_new hhead⟩
      · rw [next_add_of_ne hnew heq]
        have hnext := hl.next x hx
        refine ⟨hnext.1.add, ?_⟩
        rw [prev_add_of_ne (hold _ hnext.1.ne_absent) fun hto => heq (hl.eq_tail hx hto)]
        exact hnext.2
  · by_cases hnew : x = brk
    · rw [hnew, prev_add_new hhead]
      exact ⟨htail.1.add, next_add_tail⟩
    · have hx := (listed_add_iff hnew).mp hx
      by_cases heq : x = l.head
      · rw [heq, prev_add_head]
        exact ⟨listed_add_self, next_add_new hne⟩
      · rw [prev_add_of_ne hnew heq]
        have hprev := hl.prev x hx
        refine ⟨hprev.1.add, ?_⟩
        rw [next_add_of_ne (hold _ hprev.1.ne_absent)]
        · exact hprev.2
        · intro hto
          rw [hto, htail.2] at hprev
          exact heq hprev.2.symm
  · rcases hlink x hx with rfl | hx
    · exact ⟨(hl.lt_of_listed hl.headListed).le, Nat.lt_succ_self _⟩
    · exact ⟨(hl.range x hx).1, Nat.lt_succ_of_lt (hl.range x hx).2⟩
  · rcases hlink x hx with rfl | hx
    · exact Or.inl (next_add_new hne)
    · by_cases heq : x = l.prev l.head
      · rw [heq, next_add_tail]
        exact Or.inr (hl.lt_of_listed htail.1)
      · rw [next_add_of_ne (hold x hx) heq]
        exact hl.up x hx
  · have hx := hl.past x t n (hunlinked x t n hx)
    exact ⟨hx.1, Nat.le_succ_of_le hx.2⟩
  · have hx := hunlinked x t n hx
    have habs : l.link x ≠ .absent := by rw [hx]; simp
    have heq : x ≠ l.prev l.head := by
      rintro rfl
      rw [show l.link (l.prev l.head) = .listed from htail.1] at hx
      cases hx
    rw [next_add_of_ne (hold x habs) heq]
    rcases hl.after x t n hx with hto | hto
    · exact Or.inl hto.add
    · obtain ⟨t', n', hto, hle⟩ := hto
      refine Or.inr ⟨t', n', ?_, hle⟩
      rw [link_add_of_ne (hold _ (by rw [hto]; simp))]
      exact hto
  · have hxbrk : x ≠ brk := by
      rintro rfl
      by_cases heq : y = x
      · omega
      · have := hl.lt_of_listed ((listed_add_iff heq).mp hy)
        omega
    have hsaw : l.Saw x y := by
      rcases hsaw with hx | hx
      · exact Or.inl ((listed_add_iff hxbrk).mp hx)
      · obtain ⟨t, n, hx, hyn⟩ := hx
        exact Or.inr ⟨t, n, hunlinked x t n hx, hyn⟩
    by_cases heq : x = l.prev l.head
    · subst heq
      rw [next_add_tail]
      refine ⟨hhead, ?_⟩
      by_cases hy' : y = brk
      · exact hy'.ge
      · -- the last node sees no further one
        exact absurd htail.2 (hl.covers _ y hsaw ((listed_add_iff hy').mp hy) hlt).1
    · rw [next_add_of_ne hxbrk heq]
      by_cases hy' : y = brk
      · rcases hsaw with hx | hx
        · refine ⟨fun hto => heq (hl.eq_tail hx hto), ?_⟩
          rw [hy']
          exact (hl.lt_of_listed (hl.next x hx).1).le
        · obtain ⟨t, n, hx, hyn⟩ := hx
          have := (hl.past x t n hx).2
          omega
      · exact hl.covers x y hsaw ((listed_add_iff hy').mp hy) hlt

end Add

/-! ### Unlinking a node -/

section Del

@[simp] theorem del_head : (l.del z tick brk).head = l.head := rfl

theorem link_del_self : (l.del z tick brk).link z = .unlinked tick brk := Function.update_self ..

theorem link_del_of_ne (hx : x ≠ z) : (l.del z tick brk).link x = l.link x :=
  Function.update_of_ne hx ..

theorem listed_del_iff : (l.del z tick brk).Listed x ↔ l.Listed x ∧ x ≠ z := by
  unfold Listed
  by_cases hx : x = z
  · simp [hx, link_del_self]
  · simp [link_del_of_ne hx, hx]

/-- The node before leads past the one unlinked. -/
theorem next_del_prev : (l.del z tick brk).next (l.prev z) = l.next z := Function.update_self ..

theorem next_del_of_ne (hx : x ≠ l.prev z) : (l.del z tick brk).next x = l.next x :=
  Function.update_of_ne hx ..

theorem prev_del_next : (l.del z tick brk).prev (l.next z) = l.prev z := Function.update_self ..

theorem prev_del_of_ne (hx : x ≠ l.next z) : (l.del z tick brk).prev x = l.prev x :=
  Function.update_of_ne hx ..

/-- A node other than the head is not before itself. -/
theorem WF.prev_ne (hl : l.WF tick brk) (hz : l.Listed z) (hne : z ≠ l.head) : l.prev z ≠ z := by
  intro heq
  have hnext := (hl.prev z hz).2
  rw [heq] at hnext
  rcases hl.up z hz.ne_absent with hhead | hlt
  · exact hne (hnext ▸ hhead)
  · omega

/-- **Any node but the head may be unlinked.** -/
theorem WF.del (hl : l.WF tick brk) (hz : l.Listed z) (hne : z ≠ l.head) :
    (l.del z tick brk).WF tick brk := by
  have hbefore := hl.prev z hz
  have hbehind := hl.next z hz
  have hself := hl.prev_ne hz hne
  have hnextne : l.next z ≠ z := by
    intro heq
    rw [heq] at hbehind
    exact hself hbehind.2
  have hlink : ∀ x, (l.del z tick brk).link x ≠ .absent → l.link x ≠ .absent := by
    intro x hx
    by_cases heq : x = z
    · exact heq ▸ hz.ne_absent
    · exact link_del_of_ne heq ▸ hx
  have hupz : l.next z = l.head ∨ z < l.next z := hl.up z hz.ne_absent
  refine ⟨listed_del_iff.mpr ⟨hl.headListed, hne.symm⟩, fun x hx => ?_, fun x hx => ?_,
    fun x hx => hl.range x (hlink x hx), fun x hx => ?_, fun x t n hx => ?_, fun x t n hx => ?_,
    fun x y hsaw hy hlt => ?_⟩
  · obtain ⟨hx, hxz⟩ := listed_del_iff.mp hx
    by_cases heq : x = l.prev z
    · rw [heq, next_del_prev]
      exact ⟨listed_del_iff.mpr ⟨hbehind.1, hnextne⟩, prev_del_next⟩
    · rw [next_del_of_ne heq]
      have hnext := hl.next x hx
      refine ⟨listed_del_iff.mpr ⟨hnext.1, fun hto => heq ?_⟩, ?_⟩
      · rw [← hto, hnext.2]
      · rw [prev_del_of_ne]
        · exact hnext.2
        · intro hto
          rw [hto, hbehind.2] at hnext
          exact hxz hnext.2.symm
  · obtain ⟨hx, hxz⟩ := listed_del_iff.mp hx
    by_cases heq : x = l.next z
    · rw [heq, prev_del_next]
      exact ⟨listed_del_iff.mpr ⟨hbefore.1, hself⟩, next_del_prev⟩
    · rw [prev_del_of_ne heq]
      have hprev := hl.prev x hx
      refine ⟨listed_del_iff.mpr ⟨hprev.1, fun hto => heq ?_⟩, ?_⟩
      · rw [← hto, hprev.2]
      · rw [next_del_of_ne]
        · exact hprev.2
        · intro hto
          rw [hto, hbefore.2] at hprev
          exact hxz hprev.2.symm
  · by_cases heq : x = l.prev z
    · rw [heq, next_del_prev]
      rcases hupz with hto | hto
      · exact Or.inl hto
      · have hup := hl.up _ hbefore.1.ne_absent
        rw [hbefore.2] at hup
        rcases hup with hup | hup
        · exact absurd hup hne
        · exact Or.inr (hup.trans hto)
    · rw [next_del_of_ne heq]
      exact hl.up x (hlink x hx)
  · by_cases heq : x = z
    · subst heq
      rw [link_del_self] at hx
      cases hx
      exact ⟨Nat.le_refl _, Nat.le_refl _⟩
    · rw [link_del_of_ne heq] at hx
      exact hl.past x t n hx
  · by_cases heq : x = z
    · subst heq
      rw [next_del_of_ne hself.symm]
      exact Or.inl (listed_del_iff.mpr ⟨hbehind.1, hnextne⟩)
    · rw [link_del_of_ne heq] at hx
      have hprev : x ≠ l.prev z := by
        rintro rfl
        rw [show l.link (l.prev z) = .listed from hbefore.1] at hx
        cases hx
      rw [next_del_of_ne hprev]
      by_cases hto : l.next x = z
      · rw [hto]
        exact Or.inr ⟨tick, brk, link_del_self, hl.past x t n hx⟩
      · rw [link_del_of_ne hto]
        rcases hl.after x t n hx with hlisted | hgone
        · exact Or.inl (listed_del_iff.mpr ⟨hlisted, hto⟩)
        · exact Or.inr hgone
  · obtain ⟨hy, hyz⟩ := listed_del_iff.mp hy
    have hsaw : l.Saw x y := by
      by_cases heq : x = z
      · exact Or.inl (heq ▸ hz)
      · rcases hsaw with hx | hx
        · exact Or.inl (listed_del_iff.mp hx).1
        · rw [link_del_of_ne heq] at hx
          exact Or.inr hx
    have hcovers := hl.covers x y hsaw hy hlt
    by_cases heq : x = l.prev z
    · subst heq
      rw [next_del_prev]
      rw [hbefore.2] at hcovers
      exact hl.covers z y (Or.inl hz) hy (lt_of_le_of_ne hcovers.2 hyz.symm)
    · rw [next_del_of_ne heq]
      exact hcovers

end Del

/-! ### Where a walker stands -/

namespace Held

theorem listed (hx : l.Listed x) : l.Held since floor x := Or.inl hx

/-- The next node is held as well. -/
theorem next (hl : l.WF tick brk) (hx : l.Held since floor x) :
    l.Held since floor (l.next x) := by
  rcases hx with hx | hx
  · exact Or.inl (hl.next x hx).1
  · obtain ⟨t, n, hx, hsince, hfloor⟩ := hx
    rcases hl.after x t n hx with hto | hto
    · exact Or.inl hto
    · obtain ⟨t', n', hto, ht, hn⟩ := hto
      exact Or.inr ⟨t', n', hto, hsince.trans_le ht, hfloor.trans hn⟩

theorem ne_absent (hx : l.Held since floor x) : l.link x ≠ .absent := by
  rcases hx with hx | hx
  · exact hx.ne_absent
  · obtain ⟨t, n, hx, -⟩ := hx
    rw [hx]
    simp

theorem add (hl : l.WF tick brk) (hx : l.Held since floor x) : (l.add brk).Held since floor x := by
  have hne : x ≠ brk := (hl.range x hx.ne_absent).2.ne
  unfold Held Listed at *
  rw [link_add_of_ne hne]
  exact hx

/-- Whatever is unlinked from now on stays held. -/
theorem del (hx : l.Held since floor x) (ht : since < tick) (hb : floor ≤ brk) :
    (l.del z tick brk).Held since floor x := by
  by_cases heq : x = z
  · subst heq
    exact Or.inr ⟨tick, brk, link_del_self, ht, hb⟩
  · unfold Held Listed at *
    rw [link_del_of_ne heq]
    exact hx

/-- A walker who has begun when `y` was there has not passed it over. -/
theorem saw (hx : l.Held since floor x) (hy : y < floor) : l.Saw x y := by
  rcases hx with hx | hx
  · exact Or.inl hx
  · obtain ⟨t, n, hx, -, hfloor⟩ := hx
    exact Or.inr ⟨t, n, hx, hy.trans_le hfloor⟩

/-- **No node is passed over**: the next one is not beyond any that stays in the list. -/
theorem next_le (hl : l.WF tick brk) (hx : l.Held since floor x) (hy : l.Listed y)
    (hfloor : y < floor) (hlt : x < y) : l.next x ≠ l.head ∧ l.next x ≤ y :=
  hl.covers x y (hx.saw hfloor) hy hlt

end Held

/-! ### The nodes in order -/

/-- The nodes below `brk` that come after `x`. -/
def rest (l : Chain) (brk x : Nat) : List Nat :=
  (List.range brk).filter fun y => l.Listed y ∧ x < y

theorem mem_rest {y : Nat} : y ∈ l.rest brk x ↔ y < brk ∧ l.Listed y ∧ x < y := by
  simp [rest]

theorem pairwise_rest : (l.rest brk x).Pairwise (· < ·) := List.pairwise_lt_range.filter _

/-- The last node leads to the head. -/
theorem WF.next_of_rest_nil (hl : l.WF tick brk) (hx : l.Listed x) (h : l.rest brk x = []) :
    l.next x = l.head := by
  rcases hl.up x hx.ne_absent with hhead | hlt
  · exact hhead
  · have hnext := (hl.next x hx).1
    have hmem : l.next x ∈ l.rest brk x := mem_rest.mpr ⟨hl.lt_of_listed hnext, hnext, hlt⟩
    rw [h] at hmem
    cases hmem

/-- Any other leads to the first of those that come after it. -/
theorem WF.next_of_rest_cons (hl : l.WF tick brk) (hx : l.Listed x) {y : Nat} {ys : List Nat}
    (h : l.rest brk x = y :: ys) : l.next x = y ∧ l.next x ≠ l.head ∧ l.Listed y := by
  have hmem : y ∈ l.rest brk x := by simp [h]
  obtain ⟨-, hy, hlt⟩ := mem_rest.mp hmem
  obtain ⟨hhead, hle⟩ := hl.covers x y (Or.inl hx) hy hlt
  have hnext := (hl.next x hx).1
  have hafter : l.next x ∈ l.rest brk x :=
    mem_rest.mpr ⟨hl.lt_of_listed hnext, hnext, (hl.up x hx.ne_absent).resolve_left hhead⟩
  have hsorted : (l.rest brk x).Pairwise (· < ·) := pairwise_rest
  rw [h] at hafter hsorted
  refine ⟨?_, hhead, hy⟩
  rcases List.mem_cons.mp hafter with heq | hys
  · exact heq
  · exact absurd ((List.pairwise_cons.mp hsorted).1 _ hys) (Nat.not_lt.mpr hle)

/-- What comes after that one. -/
theorem rest_of_rest_cons {y : Nat} {ys : List Nat} (h : l.rest brk x = y :: ys) :
    l.rest brk y = ys := by
  have hmem : y ∈ l.rest brk x := by simp [h]
  have hlt := (mem_rest.mp hmem).2.2
  have hsplit : l.rest brk y = (l.rest brk x).filter fun z => y < z := by
    unfold rest
    rw [List.filter_filter]
    refine List.filter_congr fun z _ => ?_
    simp only [Bool.decide_and, Bool.and_comm (decide (y < z)), Bool.and_assoc]
    by_cases hz : y < z
    · simp [hz, hlt.trans hz]
    · simp [hz]
  have hsorted : (l.rest brk x).Pairwise (· < ·) := pairwise_rest
  rw [h] at hsorted
  rw [hsplit, h, List.filter_cons_of_neg (by simp)]
  exact List.filter_eq_self.mpr fun z hz => by simpa using (List.pairwise_cons.mp hsorted).1 z hz

end Chain

end Lkp
