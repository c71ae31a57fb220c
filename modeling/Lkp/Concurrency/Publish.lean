/-
Values that are published in a fixed order, and what can be seen of them meanwhile.

Writers store the same values into the same cells, in the same order, and nobody else
stores.  Then memory is always as it was at first with so many of the stores made: that
number is its level.  A store that others have made before changes nothing, and a new one
raises the level by one, so the level never falls and skips nothing.

A reader loads cells one after another, each at the level of that moment.  Which lists of
values it can come by is said exactly by `exists_loaded_iff`.  They were all in memory at
one moment, whatever the writers do, if no two cells are loaded in the order in which they
are stored (`Timed.exists_snapshot`); where two are, there is a list of values that
never was (`exists_torn`).
-/
import Mathlib.Tactic

namespace Lkp

/-- What is in the cells at first, and what is stored, one value after another. -/
structure Publish (ι α : Type*) where
  init : ι → α
  stores : List (ι × α)
  /-- Each cell is stored once. -/
  nodup : (stores.map Prod.fst).Nodup
  /-- Each store changes what is in its cell. -/
  changes : ∀ s ∈ stores, s.2 ≠ init s.1

namespace Publish

variable {ι α : Type*} [DecidableEq ι] (p : Publish ι α)

/-- How many stores come before that of a cell; all of them, if it is not stored. -/
def rank (f : ι) : Nat := (p.stores.map Prod.fst).idxOf f

/-- The cell is one that is stored. -/
def Stored (f : ι) : Prop := p.rank f < p.stores.length

instance : DecidablePred p.Stored := fun _ => inferInstanceAs (Decidable (_ < _))

/-- What is in a cell in the end. -/
def last (f : ι) : α := (p.stores.lookup f).getD (p.init f)

/-- Memory at level `k`. -/
def after (k : Nat) (f : ι) : α := if p.rank f < k then p.last f else p.init f

variable {p} {f g : ι} {v : α} {j k : Nat}

/-! ### The level -/

theorem rank_of_getElem? (h : p.stores[j]? = some (f, v)) : p.rank f = j := by
  obtain ⟨hj, hget⟩ := List.getElem?_eq_some_iff.mp h
  have hj' : j < (p.stores.map Prod.fst).length := by simpa using hj
  have hf : (p.stores.map Prod.fst)[j] = f := by simp [hget]
  rw [rank, ← hf]
  exact p.nodup.idxOf_getElem j hj'

theorem stored_iff_mem : p.Stored f ↔ f ∈ p.stores.map Prod.fst := by
  rw [← List.idxOf_lt_length_iff, List.length_map]
  rfl

theorem lookup_of_mem {ss : List (ι × α)} (hnodup : (ss.map Prod.fst).Nodup) (h : (f, v) ∈ ss) :
    ss.lookup f = some v := by
  induction ss with
  | nil => cases h
  | cons s ss ih =>
      rw [List.map_cons, List.nodup_cons] at hnodup
      rcases List.mem_cons.mp h with rfl | htail
      · exact List.lookup_cons_self
      · have hne : f ≠ s.1 := by
          rintro rfl
          exact hnodup.1 (List.mem_map.mpr ⟨_, htail, rfl⟩)
        rw [List.lookup_cons, beq_false_of_ne hne]
        exact ih hnodup.2 htail

theorem last_of_mem (h : (f, v) ∈ p.stores) : p.last f = v := by
  rw [last, lookup_of_mem p.nodup h, Option.getD_some]

theorem Stored.mem (h : p.Stored f) : (f, p.last f) ∈ p.stores := by
  obtain ⟨⟨g, v⟩, hs, rfl⟩ := List.mem_map.mp (stored_iff_mem.mp h)
  rw [last_of_mem hs]
  exact hs

theorem Stored.last_ne (h : p.Stored f) : p.last f ≠ p.init f := p.changes _ h.mem

/-- A cell that is not stored keeps what is in it. -/
theorem last_of_not_stored (h : ¬ p.Stored f) : p.last f = p.init f := by
  have hnone : p.stores.lookup f = none := by
    refine List.lookup_eq_none_iff.mpr fun s hs => bne_iff_ne.mpr ?_
    rintro rfl
    exact h (stored_iff_mem.mpr (List.mem_map_of_mem hs))
  rw [last, hnone, Option.getD_none]

theorem after_of_lt (h : p.rank f < k) : p.after k f = p.last f := if_pos h

theorem after_of_le (h : k ≤ p.rank f) : p.after k f = p.init f := if_neg (Nat.not_lt.mpr h)

@[simp] theorem after_zero : p.after 0 = p.init := funext fun _ => after_of_le (Nat.zero_le _)

/-- At the top everything is as it is in the end. -/
@[simp] theorem after_length : p.after p.stores.length = p.last := by
  funext f
  by_cases hf : p.Stored f
  · exact after_of_lt hf
  · rw [after_of_le (Nat.not_lt.mp hf), last_of_not_stored hf]

/-- A cell that is not stored is the same at every level. -/
theorem after_of_not_stored (h : ¬ p.Stored f) : p.after k f = p.init f := by
  unfold after
  rw [last_of_not_stored h, ite_self]

/-- What is there between two levels. -/
theorem after_ne (h : p.after j f ≠ p.after k f) (hjk : j ≤ k) :
    p.Stored f ∧ j ≤ p.rank f ∧ p.rank f < k := by
  have hstored : p.Stored f := by
    by_contra hf
    exact h ((after_of_not_stored hf).trans (after_of_not_stored hf).symm)
  refine ⟨hstored, ?_, ?_⟩
  · by_contra hlt
    rw [Nat.not_le] at hlt
    exact h ((after_of_lt hlt).trans (after_of_lt (hlt.trans_le hjk)).symm)
  · by_contra hle
    rw [Nat.not_lt] at hle
    exact h ((after_of_le (hjk.trans hle)).trans (after_of_le hle).symm)

/-- The next store raises the level. -/
theorem update_next (h : p.stores[k]? = some (f, v)) :
    Function.update (p.after k) f v = p.after (k + 1) := by
  have hrank := rank_of_getElem? h
  funext g
  by_cases hg : g = f
  · subst hg
    rw [Function.update_self, after_of_lt (by omega), last_of_mem (List.mem_of_getElem? h)]
  · have hne : p.rank g ≠ k := by
      intro heq
      have hmem : g ∈ p.stores.map Prod.fst := stored_iff_mem.mp (by
        rw [Stored, heq]
        exact (List.getElem?_eq_some_iff.mp h).1)
      rw [← hrank] at heq
      exact hg ((List.idxOf_inj hmem).mp heq)
    rw [Function.update_of_ne hg]
    rcases Nat.lt_or_gt_of_ne hne with hlt | hgt
    · rw [after_of_lt hlt, after_of_lt (by omega)]
    · rw [after_of_le hgt.le, after_of_le (by omega)]

/-- One that was made before changes nothing. -/
theorem update_again (h : p.stores[j]? = some (f, v)) (hjk : j < k) :
    Function.update (p.after k) f v = p.after k := by
  have hval : p.after k f = v := by
    rw [after_of_lt (rank_of_getElem? h ▸ hjk), last_of_mem (List.mem_of_getElem? h)]
  rw [← hval, Function.update_eq_self]

/-! ### What can be loaded -/

/-- The values that loads one after another can give, the last of them at level `k` at most. -/
inductive Loaded (p : Publish ι α) : List (ι × α) → Nat → Prop
  | nil (k : Nat) : Loaded p [] k
  | load (f : ι) {seen : List (ι × α)} {k : Nat} (h : Loaded p seen k) :
      Loaded p (seen ++ [(f, p.after k f)]) k
  | rise {seen : List (ι × α)} {k k' : Nat} (h : Loaded p seen k) (hle : k ≤ k') :
      Loaded p seen k'

/-- A value that was stored. -/
def New (p : Publish ι α) (x : ι × α) : Prop := p.Stored x.1 ∧ x.2 = p.last x.1

/-- Where the first of two is new, and the second stored no later, the second is new. -/
def Follows (p : Publish ι α) (x y : ι × α) : Prop :=
  p.New x → p.rank y.1 ≤ p.rank x.1 → y.2 = p.last y.1

/-- A value is the first or the last of its cell. -/
def Plain (p : Publish ι α) (x : ι × α) : Prop := x.2 = p.init x.1 ∨ x.2 = p.last x.1

variable {seen : List (ι × α)}

theorem plain_after : p.Plain (f, p.after k f) := by
  by_cases hf : p.rank f < k
  · exact Or.inr (after_of_lt hf)
  · exact Or.inl (after_of_le (Nat.not_lt.mp hf))

/-- A value that is new at a level was stored below it. -/
theorem New.rank_lt (h : p.New (f, p.after k f)) : p.rank f < k := by
  by_contra hle
  exact h.1.last_ne (h.2.symm.trans (after_of_le (Nat.not_lt.mp hle)))

theorem Loaded.follows (h : p.Loaded seen k) :
    (∀ x ∈ seen, p.Plain x ∧ (p.New x → p.rank x.1 < k)) ∧ seen.Pairwise p.Follows := by
  induction h with
  | nil k => exact ⟨by simp, .nil⟩
  | load f h ih =>
      obtain ⟨hall, hpair⟩ := ih
      refine ⟨fun x hx => ?_, List.pairwise_append.mpr ⟨hpair, List.pairwise_singleton .., ?_⟩⟩
      · rcases List.mem_append.mp hx with hold | hnew
        · exact hall x hold
        · rw [List.mem_singleton.mp hnew]
          exact ⟨plain_after, New.rank_lt⟩
      · intro x hx y hy hxnew hle
        rw [List.mem_singleton.mp hy] at hle ⊢
        exact after_of_lt (hle.trans_lt ((hall x hx).2 hxnew))
  | rise h hle ih =>
      refine ⟨fun x hx => ?_, ih.2⟩
      obtain ⟨hplain, hlt⟩ := ih.1 x hx
      exact ⟨hplain, fun hnew => (hlt hnew).trans_le hle⟩

/--
A reader can be brought to load so, if the level can be raised and cells be loaded.  `R k seen todo`
says of a level what a reader has loaded, and what it comes to load of those in `order`.
-/
theorem Loaded.brought_about {R : Nat → List (ι × α) → List ι → Prop} {order : List ι} {top : Nat}
    (hnil : R 0 [] order)
    (hrise : ∀ k seen todo, R k seen todo → k < top → R (k + 1) seen todo)
    (hload : ∀ k seen f todo, R k seen (f :: todo) → R k (seen ++ [(f, p.after k f)]) todo)
    (h : p.Loaded seen k) (hk : k ≤ top) (todo : List ι)
    (horder : seen.map Prod.fst ++ todo = order) : R k seen todo := by
  have hrises : ∀ {k k' seen todo}, R k seen todo → k ≤ k' → k' ≤ top → R k' seen todo := by
    intro k k' seen todo hR hle hk'
    induction k', hle using Nat.le_induction with
    | base => exact hR
    | succ k' _ ih => exact hrise k' seen todo (ih (Nat.le_of_succ_le hk')) hk'
  induction h generalizing todo with
  | nil k =>
      obtain rfl : todo = order := horder
      exact hrises hnil (Nat.zero_le k) hk
  | load f h ih => exact hload _ _ f todo (ih hk (f :: todo) (by simpa using horder))
  | rise h hle ih => exact hrises (ih (hle.trans hk) todo horder) hle hk

/-- The least level does, and it is the rank of something new that was loaded. -/
theorem exists_loaded (hplain : ∀ x ∈ seen, p.Plain x) (hpair : seen.Pairwise p.Follows) :
    ∃ k, k ≤ p.stores.length ∧ p.Loaded seen k ∧
      ∀ j < k, ∃ x ∈ seen, p.New x ∧ j ≤ p.rank x.1 := by
  induction seen using List.reverseRecOn with
  | nil => exact ⟨0, Nat.zero_le _, .nil 0, by simp⟩
  | append_singleton xs y ih =>
      obtain ⟨hxs, -, hfollows⟩ := List.pairwise_append.mp hpair
      obtain ⟨k, hk, hloaded, hleast⟩ := ih (fun x hx => hplain x (by simp [hx])) hxs
      have hy : ∀ k', (p.rank y.1 < k' ∧ y.2 = p.last y.1) ∨ (k' ≤ p.rank y.1 ∧ y.2 = p.init y.1) →
          k ≤ k' → p.Loaded (xs ++ [y]) k' := by
        intro k' hval hle
        have hload := (hloaded.rise hle).load y.1
        have heq : p.after k' y.1 = y.2 := by
          rcases hval with ⟨hlt, hval⟩ | ⟨hge, hval⟩
          · rw [after_of_lt hlt, hval]
          · rw [after_of_le hge, hval]
        rw [heq] at hload
        exact hload
      by_cases hnew : p.New y
      · refine ⟨max k (p.rank y.1 + 1), max_le hk hnew.1,
          hy _ (Or.inl ⟨?_, hnew.2⟩) (le_max_left ..), ?_⟩
        · exact (Nat.lt_succ_self _).trans_le (le_max_right ..)
        · intro j hj
          rcases lt_max_iff.mp hj with hold | hle
          · obtain ⟨x, hx, hrest⟩ := hleast j hold
            exact ⟨x, by simp [hx], hrest⟩
          · exact ⟨y, by simp, hnew, Nat.le_of_lt_succ hle⟩
      · refine ⟨k, hk, hy k ?_ (le_refl k), fun j hj => ?_⟩
        · by_cases hlt : p.rank y.1 < k
          · -- something at least as late was new before
            obtain ⟨x, hx, hxnew, hle⟩ := hleast _ hlt
            exact Or.inl ⟨hlt, hfollows x hx y (by simp) hxnew hle⟩
          · refine Or.inr ⟨Nat.not_lt.mp hlt, ?_⟩
            rcases hplain y (by simp) with hinit | hlast
            · exact hinit
            · rw [hlast, last_of_not_stored fun hstored => hnew ⟨hstored, hlast⟩]
        · obtain ⟨x, hx, hrest⟩ := hleast j hj
          exact ⟨x, by simp [hx], hrest⟩

/--
**What a reader can come by**: first and last values such that after a new one whatever is
stored no later than it is new.
-/
theorem exists_loaded_iff : (∃ k, k ≤ p.stores.length ∧ p.Loaded seen k) ↔
    (∀ x ∈ seen, p.Plain x) ∧ seen.Pairwise p.Follows := by
  constructor
  · rintro ⟨k, -, h⟩
    exact ⟨fun x hx => (h.follows.1 x hx).1, h.follows.2⟩
  · rintro ⟨hplain, hpair⟩
    obtain ⟨k, hk, hloaded, -⟩ := exists_loaded hplain hpair
    exact ⟨k, hk, hloaded⟩

/-! ### One moment -/

/-- Memory at level `k` has all these values. -/
def Snapshot (p : Publish ι α) (k : Nat) (seen : List (ι × α)) : Prop :=
  ∀ x ∈ seen, x.2 = p.after k x.1

/-- The second is not stored, or before the first. -/
def Against (p : Publish ι α) (f g : ι) : Prop := p.Stored g → p.rank g < p.rank f

instance : DecidableRel p.Against := fun _ _ => inferInstanceAs (Decidable (_ → _))

/-- Loads from time `i` to time `t`, where `lev` says the level at each time. -/
inductive Timed (p : Publish ι α) (lev : Nat → Nat) (i : Nat) : List (ι × α) → Nat → Prop
  | nil : Timed p lev i [] i
  | load (f : ι) {seen : List (ι × α)} {t : Nat} (h : Timed p lev i seen t) :
      Timed p lev i (seen ++ [(f, p.after (lev t) f)]) t
  | wait {seen : List (ι × α)} {t : Nat} (h : Timed p lev i seen t) : Timed p lev i seen (t + 1)

variable {lev : Nat → Nat} {i t : Nat}

theorem Timed.le (h : p.Timed lev i seen t) : i ≤ t := by
  induction h with
  | nil => exact le_refl _
  | load f h ih => exact ih
  | wait h ih => exact Nat.le_succ_of_le ih

/-- The later part of what is loaded is loaded later. -/
theorem Timed.drop (h : p.Timed lev i seen t) (n : Nat) :
    ∃ i', i ≤ i' ∧ p.Timed lev i' (seen.drop n) t := by
  induction h with
  | nil =>
      rw [List.drop_nil]
      exact ⟨i, le_refl i, .nil⟩
  | wait h ih =>
      obtain ⟨i', hle, hdrop⟩ := ih
      exact ⟨i', hle, hdrop.wait⟩
  | @load f seen t h ih =>
      rcases Nat.lt_or_ge seen.length n with hlt | hge
      · refine ⟨t, h.le, ?_⟩
        rw [List.drop_eq_nil_iff.mpr (by simpa using hlt)]
        exact .nil
      · obtain ⟨i', hle, hdrop⟩ := ih
        rw [List.drop_append_of_le_length hge]
        exact ⟨i', hle, hdrop.load f⟩

/-- Loads at the top see what is there in the end. -/
theorem Timed.eq_last (h : p.Timed lev i seen t)
    (htop : ∀ s, i ≤ s → s ≤ t → lev s = p.stores.length) : ∀ x ∈ seen, x.2 = p.last x.1 := by
  induction h with
  | nil => simp
  | wait h ih => exact ih fun s his hst => htop s his (by omega)
  | @load f seen t h ih =>
      intro x hx
      rcases List.mem_append.mp hx with hold | hnew
      · exact ih htop x hold
      · rw [List.mem_singleton.mp hnew, htop t h.le (le_refl t), after_length]

theorem le_of_steps {u : Nat} (hut : u ≤ t) (hmono : ∀ s, s < t → lev s ≤ lev (s + 1)) :
    lev u ≤ lev t := by
  induction t, hut using Nat.le_induction with
  | base => exact le_refl _
  | succ t hut ih => exact (ih fun s hs => hmono s (by omega)).trans (hmono t (Nat.lt_succ_self t))

/-- The level passes every number on its way. -/
theorem exists_passes {u r : Nat} (hut : u ≤ t) (hstep : ∀ s, s < t → lev (s + 1) ≤ lev s + 1)
    (hu : lev u ≤ r) (ht : r < lev t) : ∃ s, u < s ∧ s ≤ t ∧ lev s = r + 1 := by
  induction t, hut using Nat.le_induction with
  | base => exact absurd ht (Nat.not_lt.mpr hu)
  | succ t hut ih =>
      by_cases hlt : r < lev t
      · obtain ⟨s, hus, hst, heq⟩ := ih (fun s hs => hstep s (by omega)) hlt
        exact ⟨s, hus, by omega, heq⟩
      · have := hstep t (Nat.lt_succ_self t)
        exact ⟨t + 1, by omega, le_refl _, by omega⟩

/--
**Cells that are loaded against the order of the stores are seen as they all were at one
moment**, between the first load and the last.
-/
theorem Timed.exists_snapshot (h : p.Timed lev i seen t)
    (hmono : ∀ s, s < t → lev s ≤ lev (s + 1)) (hstep : ∀ s, s < t → lev (s + 1) ≤ lev s + 1)
    (hagainst : (seen.map Prod.fst).Pairwise p.Against) :
    ∃ u, i ≤ u ∧ u ≤ t ∧ p.Snapshot (lev u) seen := by
  induction h with
  | nil => exact ⟨i, le_refl i, le_refl i, by simp [Snapshot]⟩
  | wait h ih =>
      obtain ⟨u, hiu, hut, hsnap⟩ := ih (fun s hs => hmono s (by omega))
        (fun s hs => hstep s (by omega)) hagainst
      exact ⟨u, hiu, Nat.le_succ_of_le hut, hsnap⟩
  | @load f seen t h ih =>
      rw [List.map_append] at hagainst
      obtain ⟨hseen, -, hlater⟩ := List.pairwise_append.mp hagainst
      obtain ⟨u, hiu, hut, hsnap⟩ := ih hmono hstep hseen
      have hle : lev u ≤ lev t := le_of_steps hut hmono
      by_cases hsame : p.after (lev u) f = p.after (lev t) f
      · refine ⟨u, hiu, hut, fun x hx => ?_⟩
        rcases List.mem_append.mp hx with hold | hnew
        · exact hsnap x hold
        · rw [List.mem_singleton.mp hnew]
          exact hsame.symm
      · -- `f` was stored in between, and just then nothing that was loaded before it
        obtain ⟨hstored, hlow, hhigh⟩ := after_ne hsame hle
        obtain ⟨s, hus, hst, hlev⟩ := exists_passes hut hstep hlow hhigh
        refine ⟨s, by omega, hst, fun x hx => ?_⟩
        rcases List.mem_append.mp hx with hold | hnew
        · have hafter := hlater x.1 (List.mem_map_of_mem hold) f (by simp) hstored
          rw [hsnap x hold, after_of_le (by omega), after_of_le (by omega)]
        · rw [List.mem_singleton.mp hnew, hlev, after_of_lt (Nat.lt_succ_self _), after_of_lt hhigh]

omit [DecidableEq ι] in
/-- A list that is not pairwise `R` has two parts that show it. -/
theorem exists_split {R : ι → ι → Prop} {fs : List ι} (h : ¬ fs.Pairwise R) :
    ∃ as bs, fs = as ++ bs ∧ ∃ f ∈ as, ∃ g ∈ bs, ¬ R f g := by
  induction fs with
  | nil => exact absurd List.Pairwise.nil h
  | cons x fs ih =>
      by_cases hfs : fs.Pairwise R
      · rw [List.pairwise_cons, not_and_or] at h
        push Not at h
        obtain ⟨y, hy, hxy⟩ := h.resolve_right fun hn => hn hfs
        exact ⟨[x], fs, rfl, x, by simp, y, hy, hxy⟩
      · obtain ⟨as, bs, rfl, f, hf, g, hg, hfg⟩ := ih hfs
        exact ⟨x :: as, bs, rfl, f, by simp [hf], g, hg, hfg⟩

/-- Two cells that are loaded in the order of the stores can be seen as they never were. -/
theorem exists_torn {fs : List ι} (h : ¬ fs.Pairwise p.Against) :
    ∃ seen, seen.map Prod.fst = fs ∧ (∀ x ∈ seen, p.Plain x) ∧ seen.Pairwise p.Follows ∧
      ∀ k, ¬ p.Snapshot k seen := by
  obtain ⟨as, bs, rfl, f, hf, g, hg, hfg⟩ := exists_split h
  simp only [Against, Classical.not_imp, Nat.not_lt] at hfg
  obtain ⟨hstored, hle⟩ := hfg
  -- the first part is loaded before any store, and the second after all of them
  refine ⟨as.map (fun x => (x, p.init x)) ++ bs.map fun x => (x, p.last x), ?_, ?_, ?_, ?_⟩
  · simp [Function.comp_def]
  · intro x hx
    rcases List.mem_append.mp hx with hx | hx
    · obtain ⟨y, -, rfl⟩ := List.mem_map.mp hx
      exact Or.inl rfl
    · obtain ⟨y, -, rfl⟩ := List.mem_map.mp hx
      exact Or.inr rfl
  · refine List.pairwise_append.mpr ⟨?_, ?_, ?_⟩
    · refine List.pairwise_map.mpr (List.pairwise_of_forall fun x y hnew _ => ?_)
      exact absurd hnew.2.symm hnew.1.last_ne
    · exact List.pairwise_map.mpr (List.pairwise_of_forall fun x y _ _ => rfl)
    · intro x _ y hy _ _
      obtain ⟨z, -, rfl⟩ := List.mem_map.mp hy
      rfl
  · intro k hsnap
    have hold : p.init f = p.after k f := hsnap (f, p.init f)
      (List.mem_append_left _ (List.mem_map.mpr ⟨f, hf, rfl⟩))
    have hnew : p.last g = p.after k g := hsnap (g, p.last g)
      (List.mem_append_right _ (List.mem_map.mpr ⟨g, hg, rfl⟩))
    have hlow : k ≤ p.rank f := by
      by_contra hlt
      rw [after_of_lt (Nat.not_le.mp hlt)] at hold
      exact (show p.Stored f from hle.trans_lt hstored).last_ne hold.symm
    have hhigh : p.rank g < k := by
      by_contra hge
      rw [after_of_le (Nat.not_lt.mp hge)] at hnew
      exact hstored.last_ne hnew
    omega

end Publish

end Lkp
