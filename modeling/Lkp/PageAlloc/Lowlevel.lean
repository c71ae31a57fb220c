/-
The module that tries out the page allocator.

It makes five allocations, the second of 2^`order` pages, where `order` is a parameter that
can be written while the module is loaded.  Both the error path and exit read it again when
they free those pages.  And of the fifth allocation init tests not the page, but the address
it has turned it into, which is never `NULL`.  So the pages are accounted for exactly in the
runs where the fifth allocation does not fail and `order` is, whenever those pages are
freed, what it was when they were allocated (`accounted_iff`).
-/
import Lkp.Kernel.Basic
import Lkp.Concurrency.Machine

namespace Lkp.PageAlloc.Lowlevel

/-- A pointer: `NULL`, one to the `o`-th block, or the address that a `NULL` page comes to. -/
inductive Ptr
  | null
  | block (o : Nat)
  | junk
  deriving DecidableEq

/-- `page_address(page)`, which knows nothing of `NULL`. -/
def pageAddress : Option Nat → Ptr
  | none => .junk
  | some o => .block o

/-- The address an allocation gives, `NULL` where it fails. -/
def addressOf : Option Nat → Ptr
  | none => .null
  | some o => .block o

/-- Where the module is: before allocation `k`, at a label, or before the `k`-th last free. -/
inductive Place
  | alloc (k : Nat)
  | out (k : Nat)
  | failed
  | loaded
  | exit (k : Nat)
  | removed
  deriving DecidableEq

/--
The parameter and the pointers `gptr1` to `gptr5`; and what has happened: the blocks with
their orders, the calls that freed something, how each allocation ended, and what init has
returned.
-/
structure St where
  order : BitVec 32
  gptr : Nat → Ptr
  place : Place
  obtained : List (Ptr × BitVec 32)
  released : List (Ptr × BitVec 32)
  outcomes : List Bool
  ret : Option Int

/-- A step of the module, with the outcome of an allocation, or a write of the parameter. -/
inductive Act
  | run (ok : Bool)
  | setOrder (v : BitVec 32)
  deriving Inhabited

/-- The order that `gptrk` is allocated and freed with, of what `bsa_alloc_order` is then. -/
def orderOf (k : Nat) (order : BitVec 32) : BitVec 32 :=
  if k = 2 then order else if k = 5 then 5 else 0

/-- Allocate `gptrk`. -/
def allocate (k : Nat) (ok : Bool) (s : St) : St :=
  let page := if ok then some s.obtained.length else none
  let ptr := if k = 5 then pageAddress page else addressOf page
  let t := { s with
    gptr := Function.update s.gptr k ptr
    obtained := s.obtained ++
      (if ok then [(Ptr.block s.obtained.length, orderOf k s.order)] else [])
    outcomes := s.outcomes ++ [ok] }
  if ptr = .null then { t with place := .out k }
  else if k = 5 then { t with place := .loaded, ret := some 0 }
  else { t with place := .alloc (k + 1) }

/-- `free_pages(gptrk, order)`, which ignores `NULL`. -/
def freePages (k : Nat) (s : St) : St :=
  if s.gptr k = .null then s
  else { s with released := s.released ++ [(s.gptr k, orderOf k s.order)] }

/-- The next step of `bsa_alloc` or of `lowlevel_mem_exit`. -/
def step (ok : Bool) (s : St) : Option St :=
  match s.place with
  | .alloc k => some (allocate k ok s)
  | .out 0 => none
  | .out 1 => some { s with place := .failed, ret := some (-ENOMEM) }
  -- `out5` frees `gptr4`, and so on
  | .out (k + 2) => some { freePages (k + 1) s with place := .out (k + 1) }
  | .failed => none
  | .loaded => some { s with place := .exit 5 }
  | .exit 0 => some { s with place := .removed }
  | .exit (k + 1) => some { freePages (k + 1) s with place := .exit k }
  | .removed => none

def next (s : St) : Act → Option St
  | .run ok => step ok s
  | .setOrder v => some { s with order := v }

/-- The module is about to be loaded. -/
structure Fresh (s : St) : Prop where
  place : s.place = .alloc 1
  gptr : ∀ k, s.gptr k = .null
  obtained : s.obtained = []
  released : s.released = []
  outcomes : s.outcomes = []
  ret : s.ret = none

def machine : Machine St Act where
  init := Fresh
  next := next

/--
Init returns 0 exactly if all allocations went well.  Nothing is freed but what was
allocated, with its order and once, and after a failure or exit all of it is.
-/
structure Sound (s : St) : Prop where
  returns : ∀ r, s.ret = some r → (r = 0 ↔ s.outcomes = List.replicate 5 true)
  once : s.released.Subperm s.obtained
  failed : ∀ r, s.ret = some r → r ≠ 0 → s.released.Perm s.obtained
  removed : s.place = .removed → s.released.Perm s.obtained

/--
The fifth allocation does not fail, and where `gptr2` is freed `order` is what it was
allocated with.
-/
def OrderKept (s : St) : Act → Prop
  | .setOrder _ => True
  | .run ok => (s.place = .alloc 5 → ok = true) ∧
      (s.place = .out 3 ∨ s.place = .exit 2 → (s.gptr 2, s.order) ∈ s.obtained)

/-! ### Where the module is, and what it has -/

/-- The five blocks, where the second was allocated with order `g`. -/
def blocks (g : BitVec 32) : List (Ptr × BitVec 32) :=
  [(.block 0, 0), (.block 1, g), (.block 2, 0), (.block 3, 0), (.block 4, 5)]

/-- The first `m` allocations went well. -/
structure Has (g : BitVec 32) (m : Nat) (s : St) : Prop where
  obtained : s.obtained = (blocks g).take m
  gptr : ∀ k, k < m → s.gptr (k + 1) = .block k

/-- What the module has at each place, where the blocks freed so far were so rightly. -/
inductive At (g : BitVec 32) (s : St) : Place → Prop
  | alloc {k : Nat} (hk : k < 5) (has : Has g k s) (released : s.released = [])
      (outcomes : s.outcomes = List.replicate k true) (ret : s.ret = none) :
      At g s (.alloc (k + 1))
  | out {k m : Nat} (hk : k ≤ m) (hm : m < 4) (has : Has g m s)
      (released : s.released = (((blocks g).take m).drop k).reverse)
      (outcomes : s.outcomes = List.replicate m true ++ [false]) (ret : s.ret = none) :
      At g s (.out (k + 1))
  | failed {m : Nat} (hm : m < 4) (has : Has g m s)
      (released : s.released = ((blocks g).take m).reverse)
      (outcomes : s.outcomes = List.replicate m true ++ [false])
      (ret : s.ret = some (-ENOMEM)) : At g s .failed
  | loaded (has : Has g 5 s) (released : s.released = [])
      (outcomes : s.outcomes = List.replicate 5 true) (ret : s.ret = some 0) : At g s .loaded
  | exit {k : Nat} (hk : k ≤ 5) (has : Has g 5 s)
      (released : s.released = ((blocks g).drop k).reverse)
      (outcomes : s.outcomes = List.replicate 5 true) (ret : s.ret = some 0) :
      At g s (.exit k)
  | removed (has : Has g 5 s) (released : s.released = (blocks g).reverse)
      (outcomes : s.outcomes = List.replicate 5 true) (ret : s.ret = some 0) :
      At g s .removed

/-- Everything is as it should be so far. -/
def Inv (s : St) : Prop := ∃ g, At g s s.place

variable {s s' : St} {g : BitVec 32} {k m : Nat}

theorem length_blocks : (blocks g).length = 5 := rfl

/-- The block of each pointer, with the order that goes with it. -/
theorem getElem_blocks (hk : k < (blocks g).length) :
    (blocks g)[k] = (.block k, orderOf (k + 1) g) := by
  rw [length_blocks] at hk
  interval_cases k <;> rfl

/-- Only `gptr2` has an order that is not fixed. -/
theorem order_eq_of_mem (h : (Ptr.block 1, s.order) ∈ blocks g) : s.order = g := by
  simpa [blocks] using h

theorem take_blocks : (blocks g).take 5 = blocks g := rfl

/-- Before init returns, nothing is asked but that frees are right. -/
theorem sound_of_running (hret : s.ret = none) (hplace : s.place ≠ .removed)
    (hsub : s.released.Subperm s.obtained) : Sound s := by
  refine ⟨fun r hr => ?_, hsub, fun r hr => ?_, fun hp => absurd hp hplace⟩
  · rw [hret] at hr
    cases hr
  · rw [hret] at hr
    cases hr

/-- After it returned 0, everything has to be freed only in the end. -/
theorem sound_of_loaded (hret : s.ret = some 0) (hall : s.outcomes = List.replicate 5 true)
    (hsub : s.released.Subperm s.obtained)
    (hend : s.place = .removed → s.released.Perm s.obtained) : Sound s := by
  refine ⟨fun r hr => ?_, hsub, fun r hr hne => ?_, hend⟩
  · rw [hret] at hr
    cases hr
    exact iff_of_true rfl hall
  · rw [hret] at hr
    cases hr
    exact absurd rfl hne

/-- So far every free was right, and what had to be freed is. -/
theorem Inv.sound (h : Inv s) : Sound s := by
  obtain ⟨g, hat⟩ := h
  generalize hplace : s.place = place at hat
  cases hat with
  | alloc hk has released outcomes ret =>
      refine sound_of_running ret (by rw [hplace]; exact nofun) ?_
      rw [released]
      exact List.nil_subperm
  | out hk hm has released outcomes ret =>
      refine sound_of_running ret (by rw [hplace]; exact nofun) ?_
      rw [released, has.obtained]
      exact (List.reverse_perm _).subperm.trans (List.drop_sublist _ _).subperm
  | failed hm has released outcomes ret =>
      have hperm : s.released.Perm s.obtained := by
        rw [released, has.obtained]
        exact List.reverse_perm _
      refine ⟨fun r hr => ?_, hperm.subperm, fun _ _ _ => hperm, fun _ => hperm⟩
      rw [ret] at hr
      cases hr
      refine iff_of_false (by decide) fun hall => ?_
      have hmem : false ∈ s.outcomes := by
        rw [outcomes]
        exact List.mem_append_right _ (List.mem_singleton_self _)
      rw [hall] at hmem
      cases List.eq_of_mem_replicate hmem
  | loaded has released outcomes ret =>
      refine sound_of_loaded ret outcomes ?_ fun hp => ?_
      · rw [released]
        exact List.nil_subperm
      · rw [hplace] at hp
        cases hp
  | exit hk has released outcomes ret =>
      refine sound_of_loaded ret outcomes ?_ fun hp => ?_
      · rw [released, has.obtained, take_blocks]
        exact (List.reverse_perm _).subperm.trans (List.drop_sublist _ _).subperm
      · rw [hplace] at hp
        cases hp
  | removed has released outcomes ret =>
      have hperm : s.released.Perm s.obtained := by
        rw [released, has.obtained, take_blocks]
        exact List.reverse_perm _
      exact sound_of_loaded ret outcomes hperm.subperm fun _ => hperm

/-! ### The steps -/

/-- The order of the second block is not known before it is allocated. -/
theorem Has.reorder (h : Has g k s) (hk : k < 2) (g' : BitVec 32) : Has g' k s := by
  refine ⟨?_, h.gptr⟩
  rw [h.obtained]
  interval_cases k <;> rfl

/-- An allocation that goes well adds its block. -/
theorem Has.add (h : Has g k s) (hk : k < 5) (horder : orderOf (k + 1) s.order = orderOf (k + 1) g)
    (hgptr : s'.gptr = Function.update s.gptr (k + 1) (.block k))
    (hobtained : s'.obtained = s.obtained ++ [(.block k, orderOf (k + 1) s.order)]) :
    Has g (k + 1) s' := by
  refine ⟨?_, fun j hj => ?_⟩
  · rw [hobtained, h.obtained, horder, ← getElem_blocks (g := g) hk]
    exact List.take_append_getElem hk
  · rw [hgptr]
    by_cases heq : j = k
    · rw [heq, Function.update_self]
    · rw [Function.update_of_ne (by omega)]
      exact h.gptr j (by omega)

theorem Has.length (h : Has g k s) (hk : k < 5) : s.obtained.length = k := by
  rw [h.obtained, List.length_take, length_blocks]
  omega

/-- The order of a pointer is the one it was allocated with, if `gptr2`'s is. -/
theorem orderOf_congr {v w : BitVec 32} (h : k = 2 → v = w) : orderOf k v = orderOf k w := by
  unfold orderOf
  split
  · rename_i hk
    exact h hk
  · rfl

/-- An allocation that goes well. -/
theorem Inv.allocate_true (h : Inv s) (hplace : s.place = .alloc k) :
    Inv (allocate k true s) := by
  obtain ⟨g, hat⟩ := h
  rw [hplace] at hat
  cases hat with
  | @alloc k hk has released outcomes ret =>
      -- the second block gets the order that there is now
      obtain ⟨g, has, hg⟩ : ∃ g, Has g k s ∧ orderOf (k + 1) s.order = orderOf (k + 1) g := by
        by_cases hsecond : k = 1
        · exact ⟨s.order, has.reorder (by omega) _, rfl⟩
        · exact ⟨g, has, orderOf_congr fun heq => absurd heq (by omega)⟩
      have hnull : (if k + 1 = 5 then pageAddress (some s.obtained.length)
          else addressOf (some s.obtained.length)) = .block k := by
        rw [has.length hk, pageAddress, addressOf, ite_self]
      have houtcomes : s.outcomes ++ [true] = List.replicate (k + 1) true := by
        rw [outcomes, List.replicate_succ']
      have hobtained : s.obtained ++ [(.block s.obtained.length, orderOf (k + 1) s.order)] =
          s.obtained ++ [(.block k, orderOf (k + 1) s.order)] := by
        rw [has.length hk]
      unfold allocate
      simp only [if_true, hnull, reduceCtorEq, if_false]
      by_cases hlast : k + 1 = 5
      · obtain rfl : k = 4 := by omega
        exact ⟨g, .loaded (has.add hk hg rfl hobtained) released houtcomes rfl⟩
      · rw [if_neg hlast]
        exact ⟨g, .alloc (by omega) (has.add hk hg rfl hobtained) released houtcomes ret⟩

/-- One of the first four that fails. -/
theorem Inv.allocate_false (h : Inv s) (hplace : s.place = .alloc k) (hk5 : k ≠ 5) :
    Inv (allocate k false s) := by
  obtain ⟨g, hat⟩ := h
  rw [hplace] at hat
  cases hat with
  | @alloc k hk has released outcomes ret =>
      unfold allocate
      simp only [Bool.false_eq_true, if_false, hk5, addressOf, if_true]
      refine ⟨g, .out (Nat.le_refl k) (by omega) ⟨?_, fun j hj => ?_⟩ ?_ ?_ ret⟩
      · rw [List.append_nil]
        exact has.obtained
      · show Function.update s.gptr (k + 1) Ptr.null (j + 1) = .block j
        rw [Function.update_of_ne (by omega)]
        exact has.gptr j hj
      · rw [List.drop_of_length_le (List.length_take_le k _)]
        exact released
      · rw [← outcomes]

/-- Freeing the block before those that are gone, with its order. -/
theorem freePages_released (has : Has g m s) (hk : k < m) (hm : m ≤ 5)
    (hrel : s.released = (((blocks g).take m).drop (k + 1)).reverse)
    (horder : k + 1 = 2 → s.order = g) :
    (freePages (k + 1) s).released = (((blocks g).take m).drop k).reverse := by
  have hlen : k < ((blocks g).take m).length := by
    rw [List.length_take, length_blocks]
    omega
  have hptr := has.gptr k hk
  rw [freePages, if_neg (by rw [hptr]; exact nofun), List.drop_eq_getElem_cons hlen,
    List.reverse_cons, List.getElem_take, getElem_blocks, hrel, hptr, orderOf_congr horder]

/-- It changes nothing else. -/
theorem freePages_eq : freePages k s = { s with released := (freePages k s).released } := by
  unfold freePages
  split <;> rfl

/-- Where the order of `gptr2` is kept, it is the one of the second block. -/
theorem Has.order_eq (h : Has g m s) (hm : 1 < m) (hkept : (s.gptr 2, s.order) ∈ s.obtained) :
    s.order = g := by
  rw [h.gptr 1 hm, h.obtained] at hkept
  exact order_eq_of_mem (List.mem_of_mem_take hkept)

/-- A step on the error path. -/
theorem Inv.out (h : Inv s) (hplace : s.place = .out (k + 2))
    (hkept : k = 1 → (s.gptr 2, s.order) ∈ s.obtained) :
    Inv { freePages (k + 1) s with place := .out (k + 1) } := by
  obtain ⟨g, hat⟩ := h
  rw [hplace] at hat
  cases hat with
  | @out k' m hk hm has released outcomes ret =>
      have horder : k + 1 = 2 → s.order = g := by
        intro heq
        obtain rfl : k = 1 := by omega
        exact has.order_eq hk (hkept rfl)
      have hreleased := freePages_released has hk (by omega) released horder
      rw [freePages_eq, hreleased]
      exact ⟨g, .out (by omega) hm ⟨has.obtained, has.gptr⟩ rfl outcomes ret⟩

/-- The end of it. -/
theorem Inv.fail (h : Inv s) (hplace : s.place = .out 1) :
    Inv { s with place := .failed, ret := some (-ENOMEM) } := by
  obtain ⟨g, hat⟩ := h
  rw [hplace] at hat
  cases hat with
  | out hk hm has released outcomes ret =>
      exact ⟨g, .failed hm ⟨has.obtained, has.gptr⟩ released outcomes rfl⟩

/-- A step of exit. -/
theorem Inv.exit (h : Inv s) (hplace : s.place = .exit (k + 1))
    (hkept : k = 1 → (s.gptr 2, s.order) ∈ s.obtained) :
    Inv { freePages (k + 1) s with place := .exit k } := by
  obtain ⟨g, hat⟩ := h
  rw [hplace] at hat
  cases hat with
  | exit hk has released outcomes ret =>
      have horder : k + 1 = 2 → s.order = g := by
        intro heq
        obtain rfl : k = 1 := by omega
        exact has.order_eq hk (hkept rfl)
      have hreleased := freePages_released has hk (Nat.le_refl 5) released horder
      rw [freePages_eq, hreleased]
      exact ⟨g, .exit (by omega) ⟨has.obtained, has.gptr⟩ rfl outcomes ret⟩

/-- A write of the parameter moves nothing. -/
theorem Inv.setOrder (h : Inv s) (v : BitVec 32) : Inv { s with order := v } := by
  obtain ⟨g, hat⟩ := h
  suffices hall : ∀ place, At g s place → At g { s with order := v } place from ⟨g, hall _ hat⟩
  intro place hat
  cases hat with
  | alloc hk has released outcomes ret =>
      exact .alloc hk ⟨has.obtained, has.gptr⟩ released outcomes ret
  | out hk hm has released outcomes ret =>
      exact .out hk hm ⟨has.obtained, has.gptr⟩ released outcomes ret
  | failed hm has released outcomes ret =>
      exact .failed hm ⟨has.obtained, has.gptr⟩ released outcomes ret
  | loaded has released outcomes ret =>
      exact .loaded ⟨has.obtained, has.gptr⟩ released outcomes ret
  | exit hk has released outcomes ret =>
      exact .exit hk ⟨has.obtained, has.gptr⟩ released outcomes ret
  | removed has released outcomes ret =>
      exact .removed ⟨has.obtained, has.gptr⟩ released outcomes ret

theorem inductive_inv : machine.Inductive OrderKept Inv where
  init := by
    intro s hs
    refine ⟨0, ?_⟩
    rw [hs.place]
    exact .alloc (by decide) ⟨hs.obtained, nofun⟩ hs.released hs.outcomes hs.ret
  step := by
    intro s a s' h hok hs
    cases a with
    | setOrder v =>
        obtain rfl : { s with order := v } = s' := Option.some.inj hs
        exact h.setOrder v
    | run ok =>
        obtain ⟨hfifth, hkept⟩ := hok
        change step ok s = some s' at hs
        unfold step at hs
        split at hs
        · rename_i k hplace
          obtain rfl := Option.some.inj hs
          cases ok with
          | true => exact h.allocate_true hplace
          | false =>
              refine h.allocate_false hplace fun heq => ?_
              cases hfifth (heq ▸ hplace)
        · cases hs
        · rename_i hplace
          obtain rfl := Option.some.inj hs
          exact h.fail hplace
        · rename_i k hplace
          obtain rfl := Option.some.inj hs
          exact h.out hplace fun heq => hkept (.inl (by rw [hplace, heq]))
        · cases hs
        · rename_i hplace
          obtain rfl := Option.some.inj hs
          obtain ⟨g, hat⟩ := h
          rw [hplace] at hat
          cases hat with
          | loaded has released outcomes ret =>
              exact ⟨g, .exit (Nat.le_refl 5) ⟨has.obtained, has.gptr⟩ released outcomes ret⟩
        · rename_i hplace
          obtain rfl := Option.some.inj hs
          obtain ⟨g, hat⟩ := h
          rw [hplace] at hat
          cases hat with
          | exit hk has released outcomes ret =>
              exact ⟨g, .removed ⟨has.obtained, has.gptr⟩ released outcomes ret⟩
        · rename_i k hplace
          obtain rfl := Option.some.inj hs
          exact h.exit hplace fun heq => hkept (.inr (by rw [hplace, heq]))
        · cases hs

/-! ### Runs that are not sound -/

/-- A fifth allocation that fails is taken for one that went well. -/
theorem not_sound_of_fifth (h : Inv s) (hplace : s.place = .alloc 5) :
    ¬ Sound (allocate 5 false s) := by
  intro hsound
  obtain ⟨g, hat⟩ := h
  rw [hplace] at hat
  cases hat with
  | alloc hk has released outcomes ret =>
      have hall := (hsound.returns 0 rfl).mp rfl
      have hmem : false ∈ (allocate 5 false s).outcomes :=
        List.mem_append_right _ (List.mem_singleton_self _)
      rw [hall] at hmem
      cases List.eq_of_mem_replicate hmem

/-- What is freed was obtained with that order. -/
theorem kept_of_sound (has : Has g m s) (hm : 1 < m)
    (hsound : (freePages 2 s).released.Subperm s.obtained) :
    (s.gptr 2, s.order) ∈ s.obtained := by
  have hptr := has.gptr 1 hm
  refine hsound.subset ?_
  rw [freePages, if_neg (by rw [hptr]; exact nofun)]
  exact List.mem_append_right _ (List.mem_singleton_self _)

/-- If the next state is sound, the step was one that keeps the order. -/
theorem orderKept_of_sound {a : Act} (h : Inv s) (hs : next s a = some s') (hsound : Sound s') :
    OrderKept s a := by
  cases a with
  | setOrder v => trivial
  | run ok =>
      change step ok s = some s' at hs
      refine ⟨fun hplace => ?_, fun hplace => ?_⟩
      · cases ok with
        | true => rfl
        | false =>
            rw [step, hplace] at hs
            obtain rfl := Option.some.inj hs
            exact absurd hsound (not_sound_of_fifth h hplace)
      · obtain ⟨g, hat⟩ := h
        rcases hplace with hout | hexit
        · rw [step, hout] at hs
          obtain rfl := Option.some.inj hs
          rw [hout] at hat
          cases hat with
          | out hk hm has released outcomes ret =>
              have hsub := hsound.once
              rw [freePages_eq] at hsub
              exact kept_of_sound has hk hsub
        · rw [step, hexit] at hs
          obtain rfl := Option.some.inj hs
          rw [hexit] at hat
          cases hat with
          | exit hk has released outcomes ret =>
              have hsub := hsound.once
              rw [freePages_eq] at hsub
              exact kept_of_sound has (by decide) hsub

/-- **The pages are accounted for throughout a run exactly if its steps keep the order.** -/
theorem accounted_iff {n : Nat} (r : machine.Run n) :
    (∀ i, i ≤ n → Sound (r.state i)) ↔ r.Meets OrderKept := by
  constructor
  · intro h i
    induction i using Nat.strong_induction_on with
    | _ i ih =>
        intro hi
        -- the steps before kept it, so that everything is known of this state
        have hbefore : ∀ j, j ≤ i → Inv (r.state j) := by
          intro j hj
          induction j with
          | zero => exact inductive_inv.init _ r.start
          | succ j ihj =>
              exact inductive_inv.step _ _ _ (ihj (by omega)) (ih j (by omega) (by omega))
                (r.step j (by omega))
        exact orderKept_of_sound (hbefore i (Nat.le_refl i)) (r.step i hi) (h (i + 1) hi)
  · intro h i hi
    exact (inductive_inv.holds (r.reachableBy h i hi)).sound

/-- Before loading, with the order the module has. -/
def fresh0 : St where
  order := 3
  gptr := fun _ => .null
  place := .alloc 1
  obtained := []
  released := []
  outcomes := []
  ret := none

theorem fresh_fresh0 : Fresh fresh0 := ⟨rfl, fun _ => rfl, rfl, rfl, rfl, rfl⟩

/-- Load, write 2 into the parameter, and unload. -/
def changedRun : machine.Run 11 :=
  .ofActs fresh0 (List.replicate 5 (.run true) ++ [.setOrder 2] ++ List.replicate 5 (.run true))
    fresh_fresh0 (by decide +kernel)

/-- 8 pages were allocated at `gptr2`, and 4 are freed. -/
theorem not_accounted : ¬ ∀ n (r : machine.Run n) i, i ≤ n → Sound (r.state i) := by
  intro h
  have hsound := h 11 changedRun 11 (by decide)
  have hfreed : (Ptr.block 1, 2) ∈ (changedRun.state 11).released := by decide +kernel
  have hnot : (Ptr.block 1, 2) ∉ (changedRun.state 11).obtained := by decide +kernel
  exact hnot (hsound.once.subset hfreed)

end Lkp.PageAlloc.Lowlevel
