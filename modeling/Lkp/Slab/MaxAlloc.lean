/-
The three modules that ask for larger and larger blocks until the allocator refuses.

The size starts at 0 or 100, and grows by a parameter that can be any `int`.  With a step
of 0 it stays where it is.  With a negative one it comes down to 0, or wraps, and the two
modules that divide by it start at 100 so as not to get 0: they get it all the same where
the step goes into 100 (`returnsEnomem_iff`).

The allocator is a parameter.  It answers each call, by the number of the call and the
size, and is only asked to refuse what is above its limit.
-/
import Lkp.Kernel.Basic
import Lkp.CLang.Loop

namespace Lkp.Slab.MaxAlloc

/-- What `kmalloc` gives: the pointer, and the `ksize` of it. -/
structure Block where
  ptr : BitVec 64
  ksize : BitVec 64
  deriving DecidableEq

/-- The answer of `kmalloc` to its `i`-th call, `none` for `NULL`. -/
abbrev Kmalloc := Nat → BitVec 64 → Option Block

/-- 0 bytes can be had, and none above the limit, which is far below the largest `size_t`. -/
structure Kmalloc.Bounded (kmalloc : Kmalloc) (limit : Nat) : Prop where
  zero : ∀ i, ∃ b, kmalloc i 0 = some b ∧ b.ksize = 0
  refuses : ∀ i size, limit < size.toNat → kmalloc i size = none
  room : limit + 2 ^ 31 < 2 ^ 64

/-- `size2alloc`, the rows printed so far, and what is returned. -/
structure Test (ρ : Type) where
  size2alloc : BitVec 64
  rows : List ρ
  ret : Int

/-- How a pass prints its row: `none` where it divides by zero. -/
abbrev Row (ρ : Type) := BitVec 64 → Block → Option ρ

/-- One pass of the loop of `test_maxallocsz`.  The block is freed again. -/
def testPass {ρ : Type} (row : Row ρ) (stepsz : BitVec 32) (kmalloc : Kmalloc) (i : Nat)
    (s : Test ρ) : Option (Pass (Test ρ)) :=
  match kmalloc i s.size2alloc with
  | none => some (.stop { s with ret := -ENOMEM })
  | some b => (row s.size2alloc b).map fun r =>
      -- the `int` is converted to `size_t`, with its sign
      .next { s with size2alloc := s.size2alloc + stepsz.signExtend 64, rows := s.rows ++ [r] }

/-- The loop of `test_maxallocsz`, for at most `n` passes. -/
def testLoop {ρ : Type} (start : BitVec 64) (row : Row ρ) (stepsz : BitVec 32)
    (kmalloc : Kmalloc) (n : Nat) : Option (Pass (Test ρ)) :=
  forUp (testPass row stepsz kmalloc) n 0 { size2alloc := start, rows := [], ret := 0 }

/-- `((actual_alloced - size2alloc) * 100) / size2alloc` -/
def wastePct (size2alloc : BitVec 64) (b : Block) : Option (BitVec 64) :=
  if size2alloc = 0 then none else some ((b.ksize - size2alloc) * 100 / size2alloc)

/-- `test_maxallocsz` of `slab3_maxsize`, which prints the size and the pointer. -/
def Slab3Maxsize.testMaxallocsz : BitVec 32 → Kmalloc → Nat →
    Option (Pass (Test (BitVec 64 × BitVec 64))) :=
  testLoop 0 fun size2alloc b => some (size2alloc, b.ptr)

/-- `test_maxallocsz` of `slab4_actualsize`: the two sizes, what is wasted, and the percentage. -/
def Slab4Actualsize.testMaxallocsz : BitVec 32 → Kmalloc → Nat →
    Option (Pass (Test (BitVec 64 × BitVec 64 × BitVec 64 × BitVec 64))) :=
  testLoop 100 fun size2alloc b => (wastePct size2alloc b).map fun pct =>
    (size2alloc, b.ksize, b.ksize - size2alloc, pct)

/-- `test_maxallocsz` of `slab4_actualsz_wstg_plot`: the size and the percentage. -/
def Slab4ActualszWstgPlot.testMaxallocsz : BitVec 32 → Kmalloc → Nat →
    Option (Pass (Test (BitVec 64 × BitVec 64))) :=
  testLoop 100 fun size2alloc b => (wastePct size2alloc b).map fun pct => (size2alloc, pct)

/-- After finitely many passes, none of which divides by zero, `-ENOMEM` is returned. -/
def ReturnsEnomem {ρ : Type} (run : Nat → Option (Pass (Test ρ))) : Prop :=
  ∃ n t, run n = some (.stop t) ∧ t.ret = -ENOMEM

/-- The size of pass `i`. -/
def sizeAt (start : Nat) (stepsz : BitVec 32) (i : Nat) : BitVec 64 :=
  BitVec.ofInt 64 (start + i * stepsz.toInt)

/-- The loop goes on after pass `i`. -/
def Goes {ρ : Type} (start : Nat) (row : Row ρ) (stepsz : BitVec 32) (kmalloc : Kmalloc)
    (i : Nat) : Prop :=
  ∃ b r, kmalloc i (sizeAt start stepsz i) = some b ∧ row (sizeAt start stepsz i) b = some r

section Loop

variable {ρ : Type} {start limit i k n : Nat} {row : Row ρ} {stepsz : BitVec 32}
  {kmalloc : Kmalloc} {s : Test ρ}

theorem sizeAt_succ : sizeAt start stepsz (i + 1) =
    sizeAt start stepsz i + stepsz.signExtend 64 := by
  rw [sizeAt, sizeAt, BitVec.signExtend, ← BitVec.ofInt_add]
  congr 1
  push_cast
  ring

/-- From pass `k` on, the loop stops exactly if some pass is refused, and it gets there. -/
theorem stops_iff (hs : s.size2alloc = sizeAt start stepsz k) :
    (∃ t, forUp (testPass row stepsz kmalloc) n k s = some (.stop t) ∧ t.ret = -ENOMEM) ↔
      ∃ m, k ≤ m ∧ m < k + n ∧ kmalloc m (sizeAt start stepsz m) = none ∧
        ∀ i, k ≤ i → i < m → Goes start row stepsz kmalloc i := by
  induction n generalizing k s with
  | zero =>
      refine iff_of_false (fun hex => ?_) fun hex => ?_
      · obtain ⟨t, ht, -⟩ := hex
        cases ht
      · obtain ⟨m, hkm, hmk, -⟩ := hex
        omega
  | succ n ih =>
      rw [forUp, testPass, hs]
      cases hmalloc : kmalloc k (sizeAt start stepsz k) with
      | none =>
          refine iff_of_true ⟨_, rfl, rfl⟩ ⟨k, Nat.le_refl k, by omega, hmalloc, ?_⟩
          intro i hki hik
          omega
      | some b =>
          have hlater : ∀ {m}, k ≤ m → kmalloc m (sizeAt start stepsz m) = none → k + 1 ≤ m := by
            intro m hkm hnone
            by_contra hlt
            obtain rfl : m = k := by omega
            rw [hmalloc] at hnone
            cases hnone
          cases hrow : row (sizeAt start stepsz k) b with
          | none =>
              refine iff_of_false (fun hex => ?_) fun hex => ?_
              · obtain ⟨t, ht, -⟩ := hex
                simp only [hrow, Option.map_none, Option.bind_none] at ht
                cases ht
              · obtain ⟨m, hkm, -, hnone, hgoes⟩ := hex
                obtain ⟨b', r, hb, hr⟩ := hgoes k (Nat.le_refl k) (hlater hkm hnone)
                obtain rfl : b = b' := Option.some.inj (hmalloc.symm.trans hb)
                rw [hrow] at hr
                cases hr
          | some r =>
              simp only [hrow, Option.map_some, Option.bind_some]
              rw [ih (k := k + 1) (by rw [sizeAt_succ])]
              constructor
              · intro hex
                obtain ⟨m, hkm, hmk, hnone, hgoes⟩ := hex
                refine ⟨m, by omega, by omega, hnone, fun i hki him => ?_⟩
                by_cases heq : i = k
                · exact heq ▸ ⟨b, r, hmalloc, hrow⟩
                · exact hgoes i (by omega) him
              · intro hex
                obtain ⟨m, hkm, hmk, hnone, hgoes⟩ := hex
                exact ⟨m, hlater hkm hnone, by omega, hnone, fun i hki him =>
                  hgoes i (by omega) him⟩

/-- The test returns exactly if some call is refused, and all passes before it go through. -/
theorem returns_iff_refused :
    ReturnsEnomem (testLoop (BitVec.ofNat 64 start) row stepsz kmalloc) ↔
      ∃ m, kmalloc m (sizeAt start stepsz m) = none ∧
        ∀ i, i < m → Goes start row stepsz kmalloc i := by
  have hstart : BitVec.ofNat 64 start = sizeAt start stepsz 0 := by
    simp [sizeAt]
  constructor
  · intro hret
    obtain ⟨n, hstop⟩ := hret
    obtain ⟨m, -, -, hnone, hgoes⟩ := (stops_iff hstart).mp hstop
    exact ⟨m, hnone, fun i him => hgoes i (Nat.zero_le i) him⟩
  · intro hex
    obtain ⟨m, hnone, hgoes⟩ := hex
    exact ⟨m + 1, (stops_iff hstart).mpr
      ⟨m, Nat.zero_le m, by omega, hnone, fun i _ him => hgoes i him⟩⟩

/-- A test that divides by nothing goes on to the first call that is refused. -/
theorem returns_iff (start : Nat) (hrow : ∀ size b, (row size b).isSome) :
    ReturnsEnomem (testLoop (BitVec.ofNat 64 start) row stepsz kmalloc) ↔
      ∃ m, kmalloc m (sizeAt start stepsz m) = none := by
  classical
  rw [returns_iff_refused]
  refine ⟨fun hex => hex.imp fun m h => h.1, fun hex => ?_⟩
  refine ⟨Nat.find hex, Nat.find_spec hex, fun i hi => ?_⟩
  obtain ⟨b, hb⟩ := Option.ne_none_iff_exists'.mp (Nat.find_min hex hi)
  obtain ⟨r, hr⟩ := Option.isSome_iff_exists.mp (hrow (sizeAt start stepsz i) b)
  exact ⟨b, r, hb, hr⟩

/-- One that divides by the size has to get there before the size is 0. -/
theorem returns_iff_nonzero (start : Nat)
    (hrow : ∀ size b, (row size b).isSome = decide (size ≠ 0)) :
    ReturnsEnomem (testLoop (BitVec.ofNat 64 start) row stepsz kmalloc) ↔
      ∃ m, kmalloc m (sizeAt start stepsz m) = none ∧ ∀ i, i < m → sizeAt start stepsz i ≠ 0 := by
  classical
  rw [returns_iff_refused]
  constructor
  · intro hex
    obtain ⟨m, hnone, hgoes⟩ := hex
    refine ⟨m, hnone, fun i him => ?_⟩
    obtain ⟨b, r, -, hr⟩ := hgoes i him
    have hsome := hrow (sizeAt start stepsz i) b
    rw [hr] at hsome
    exact of_decide_eq_true hsome.symm
  · intro hex
    have hfirst : ∃ m, kmalloc m (sizeAt start stepsz m) = none := hex.imp fun m h => h.1
    obtain ⟨m, hnone, hne⟩ := hex
    refine ⟨Nat.find hfirst, Nat.find_spec hfirst, fun i hi => ?_⟩
    have him : i < m := lt_of_lt_of_le hi (Nat.find_min' hfirst hnone)
    obtain ⟨b, hb⟩ := Option.ne_none_iff_exists'.mp (Nat.find_min hfirst hi)
    have hsome := hrow (sizeAt start stepsz i) b
    rw [decide_eq_true (hne i him)] at hsome
    obtain ⟨r, hr⟩ := Option.isSome_iff_exists.mp hsome
    exact ⟨b, r, hb, hr⟩

end Loop

section Sizes

variable {start limit i m : Nat} {stepsz : BitVec 32} {kmalloc : Kmalloc}

/-- A size that has not wrapped. -/
theorem toNat_sizeAt (hlo : 0 ≤ start + i * stepsz.toInt)
    (hhi : start + i * stepsz.toInt < 2 ^ 64) :
    ((sizeAt start stepsz i).toNat : Int) = start + i * stepsz.toInt := by
  rw [sizeAt, BitVec.toNat_ofInt, Int.toNat_of_nonneg (Int.emod_nonneg _ (by norm_num))]
  exact Int.emod_eq_of_lt hlo hhi

/-- A size just below 0. -/
theorem toNat_sizeAt_neg (hlo : -2 ^ 31 ≤ start + i * stepsz.toInt)
    (hhi : start + i * stepsz.toInt < 0) :
    ((sizeAt start stepsz i).toNat : Int) = 2 ^ 64 + (start + i * stepsz.toInt) := by
  rw [sizeAt, BitVec.toNat_ofInt, Int.toNat_of_nonneg (Int.emod_nonneg _ (by norm_num))]
  rw [← Int.add_emod_left]
  exact Int.emod_eq_of_lt (by omega) (by omega)

theorem sizeAt_ne_zero (hlo : 0 < start + i * stepsz.toInt)
    (hhi : start + i * stepsz.toInt < 2 ^ 64) : sizeAt start stepsz i ≠ 0 := by
  intro hzero
  have hsize := toNat_sizeAt hlo.le hhi
  rw [hzero] at hsize
  have hnat : (0 : BitVec 64).toNat = 0 := rfl
  omega

/-- Counting up, the sizes go past the limit, and do not wrap before. -/
theorem exists_refused_up (start : Nat) (hk : kmalloc.Bounded limit) (hstart : start < 2 ^ 31)
    (hpos : 0 < stepsz.toInt) :
    ∃ m, kmalloc m (sizeAt start stepsz m) = none ∧
      ∀ i, i < m → 0 ≤ start + i * stepsz.toInt ∧ start + i * stepsz.toInt ≤ limit := by
  classical
  have hroom := hk.room
  have hhi := BitVec.toInt_lt (x := stepsz)
  have hex : ∃ m : Nat, (limit : Int) < start + m * stepsz.toInt := by
    refine ⟨limit + 1, ?_⟩
    have hgrow : ((limit + 1 : Nat) : Int) * 1 ≤ (limit + 1 : Nat) * stepsz.toInt :=
      Int.mul_le_mul_of_nonneg_left (by omega) (by omega)
    push_cast at hgrow ⊢
    omega
  have hbefore : ∀ i, i < Nat.find hex →
      0 ≤ start + i * stepsz.toInt ∧ start + i * stepsz.toInt ≤ limit := by
    intro i hi
    have hnot := Nat.find_min hex hi
    have hnonneg : 0 ≤ (i : Int) * stepsz.toInt := Int.mul_nonneg (by omega) (by omega)
    omega
  have hover := Nat.find_spec hex
  refine ⟨Nat.find hex, hk.refuses _ _ ?_, hbefore⟩
  generalize Nat.find hex = m at hbefore hover
  have hfits : start + m * stepsz.toInt < 2 ^ 64 := by
    cases m with
    | zero =>
        push_cast
        omega
    | succ m =>
        obtain ⟨-, hle⟩ := hbefore m (Nat.lt_succ_self m)
        push_cast
        rw [add_mul, one_mul]
        norm_num at hhi
        omega
  have hsize := toNat_sizeAt (by omega) hfits
  omega

/-- Counting down, they go below 0, and the first that does wraps past the limit. -/
theorem exists_refused_down (start : Nat) (hk : kmalloc.Bounded limit) (hneg : stepsz.toInt < 0) :
    ∃ m, kmalloc m (sizeAt start stepsz m) = none ∧
      ∀ i, i < m → 0 ≤ start + i * stepsz.toInt ∧ start + i * stepsz.toInt ≤ start := by
  classical
  have hroom := hk.room
  have hlo := BitVec.le_toInt stepsz
  have hex : ∃ m : Nat, start + m * stepsz.toInt < 0 := by
    refine ⟨start + 1, ?_⟩
    have hshrink : ((start + 1 : Nat) : Int) * stepsz.toInt ≤ (start + 1 : Nat) * (-1) :=
      Int.mul_le_mul_of_nonneg_left (by omega) (by omega)
    push_cast at hshrink ⊢
    omega
  have hbefore : ∀ i, i < Nat.find hex →
      0 ≤ start + i * stepsz.toInt ∧ start + i * stepsz.toInt ≤ start := by
    intro i hi
    have hnot := Nat.find_min hex hi
    have hnonpos : (i : Int) * stepsz.toInt ≤ 0 :=
      Int.mul_nonpos_of_nonneg_of_nonpos (by omega) (by omega)
    omega
  have hunder := Nat.find_spec hex
  refine ⟨Nat.find hex, hk.refuses _ _ ?_, hbefore⟩
  generalize Nat.find hex = m at hbefore hunder
  have hnear : -2 ^ 31 ≤ start + m * stepsz.toInt := by
    cases m with
    | zero =>
        push_cast at hunder
        omega
    | succ m =>
        obtain ⟨hge, -⟩ := hbefore m (Nat.lt_succ_self m)
        push_cast
        rw [add_mul, one_mul]
        norm_num at hlo ⊢
        omega
  have hsize := toNat_sizeAt_neg hnear hunder
  omega

/-- From 0, only a step of 0 is never refused. -/
theorem exists_refused_iff (hk : kmalloc.Bounded limit) :
    (∃ m, kmalloc m (sizeAt 0 stepsz m) = none) ↔ stepsz.toInt ≠ 0 := by
  constructor
  · intro hex hzero
    obtain ⟨m, hnone⟩ := hex
    obtain ⟨b, hb, -⟩ := hk.zero m
    have hsize : sizeAt 0 stepsz m = 0 := by
      rw [sizeAt, hzero]
      simp
    rw [hsize, hb] at hnone
    cases hnone
  · intro hne
    rcases lt_or_gt_of_ne hne with hneg | hpos
    · exact (exists_refused_down 0 hk hneg).imp fun m h => h.1
    · exact (exists_refused_up 0 hk (by norm_num) hpos).imp fun m h => h.1

/--
The step does not keep the test from its end: with a step of 0 some call for 100 bytes is
refused, and so is one before the size gets to 0 where the step counts down to it.
-/
def StepGetsThere (stepsz : BitVec 32) (kmalloc : Kmalloc) : Prop :=
  (stepsz.toInt = 0 → ∃ i, kmalloc i 100 = none) ∧
  (stepsz.toInt < 0 → stepsz.toInt ∣ 100 →
    ∃ i : Nat, 0 < 100 + i * stepsz.toInt ∧ kmalloc i (sizeAt 100 stepsz i) = none)

/-- A negative step that goes into 100 brings the size to 0. -/
theorem exists_zero (hneg : stepsz.toInt < 0) (hdvd : stepsz.toInt ∣ 100) :
    ∃ c : Nat, 100 + c * stepsz.toInt = 0 := by
  obtain ⟨c, hc⟩ := hdvd
  have hcpos : 0 ≤ -c := by
    by_contra hlt
    have hprod : stepsz.toInt * c ≤ 0 :=
      Int.mul_nonpos_of_nonpos_of_nonneg (by omega) (by omega)
    omega
  refine ⟨(-c).toNat, ?_⟩
  rw [Int.toNat_of_nonneg hcpos, Int.neg_mul, Int.mul_comm c, ← hc]
  rfl

/-- So a call that is refused with no size of 0 before it is one before that. -/
theorem pos_of_refused (hk : kmalloc.Bounded limit) (hneg : stepsz.toInt < 0)
    (hdvd : stepsz.toInt ∣ 100) (hnone : kmalloc m (sizeAt 100 stepsz m) = none)
    (hne : ∀ i, i < m → sizeAt 100 stepsz i ≠ 0) : 0 < 100 + m * stepsz.toInt := by
  obtain ⟨c, hc⟩ := exists_zero hneg hdvd
  have hzero : sizeAt 100 stepsz c = 0 := by
    rw [sizeAt]
    push_cast
    rw [hc]
    rfl
  have hle : m ≤ c := by
    by_contra hlt
    exact hne c (by omega) hzero
  have hlt : m < c := by
    refine lt_of_le_of_ne hle fun heq => ?_
    obtain ⟨b, hb, -⟩ := hk.zero m
    rw [heq, hzero, ← heq, hb] at hnone
    cases hnone
  have hless : (c : Int) * stepsz.toInt < m * stepsz.toInt :=
    Int.mul_lt_mul_of_neg_right (by omega) hneg
  omega

/-- On the way down there is no 0 before a positive size. -/
theorem sizeAt_ne_zero_before (hneg : stepsz.toInt < 0) (hleft : 0 < 100 + m * stepsz.toInt)
    (him : i < m) : sizeAt 100 stepsz i ≠ 0 := by
  have hless : (m : Int) * stepsz.toInt < i * stepsz.toInt :=
    Int.mul_lt_mul_of_neg_right (by omega) hneg
  have hnonpos : (i : Int) * stepsz.toInt ≤ 0 :=
    Int.mul_nonpos_of_nonneg_of_nonpos (by omega) (by omega)
  exact sizeAt_ne_zero (by push_cast; omega) (by push_cast; omega)

/-- A negative step that does not go into 100 takes the size past 0. -/
theorem exists_refused_past (hk : kmalloc.Bounded limit) (hneg : stepsz.toInt < 0)
    (hdvd : ¬ stepsz.toInt ∣ 100) :
    ∃ m, kmalloc m (sizeAt 100 stepsz m) = none ∧ ∀ i, i < m → sizeAt 100 stepsz i ≠ 0 := by
  obtain ⟨m, hnone, hbefore⟩ := exists_refused_down 100 hk hneg
  refine ⟨m, hnone, fun i him => ?_⟩
  obtain ⟨hge, hle⟩ := hbefore i him
  have hne : (100 : Nat) + (i : Int) * stepsz.toInt ≠ 0 := by
    intro hsum
    exact hdvd ⟨-i, by push_cast at hsum; linarith⟩
  exact sizeAt_ne_zero (lt_of_le_of_ne hge hne.symm) (by omega)

/-- From 100, a call is refused before the size is 0, or the step is a bad one. -/
theorem exists_refused_nonzero_iff (hk : kmalloc.Bounded limit) :
    (∃ m, kmalloc m (sizeAt 100 stepsz m) = none ∧
        ∀ i, i < m → sizeAt 100 stepsz i ≠ 0) ↔ StepGetsThere stepsz kmalloc := by
  have hroom := hk.room
  -- a step of 0 leaves the size where it is
  have hstays : stepsz.toInt = 0 → ∀ i, sizeAt 100 stepsz i = 100 := by
    intro hzero i
    rw [sizeAt, hzero]
    simp
  constructor
  · intro hex
    obtain ⟨m, hnone, hne⟩ := hex
    refine ⟨fun hzero => ⟨m, ?_⟩, fun hneg hdvd => ⟨m, ?_, hnone⟩⟩
    · rw [← hstays hzero m]
      exact hnone
    · exact pos_of_refused hk hneg hdvd hnone hne
  · intro hgets
    obtain ⟨hzero, hdown⟩ := hgets
    rcases lt_trichotomy stepsz.toInt 0 with hneg | heq | hpos
    · by_cases hdvd : stepsz.toInt ∣ 100
      · obtain ⟨m, hleft, hnone⟩ := hdown hneg hdvd
        exact ⟨m, hnone, fun i him => sizeAt_ne_zero_before hneg hleft him⟩
      · exact exists_refused_past hk hneg hdvd
    · obtain ⟨m, hnone⟩ := hzero heq
      exact ⟨m, by rw [hstays heq, hnone], fun i _ => by rw [hstays heq]; decide⟩
    · obtain ⟨m, hnone, hbefore⟩ := exists_refused_up 100 hk (by norm_num) hpos
      refine ⟨m, hnone, fun i him => ?_⟩
      obtain ⟨-, hle⟩ := hbefore i him
      have hnonneg : 0 ≤ (i : Int) * stepsz.toInt := Int.mul_nonneg (by omega) (by omega)
      exact sizeAt_ne_zero (by push_cast; omega) (by omega)

/-- **Which steps the three tests come to their end with.** -/
theorem returnsEnomem_iff (hk : kmalloc.Bounded limit) :
    (ReturnsEnomem (Slab3Maxsize.testMaxallocsz stepsz kmalloc) ↔ stepsz.toInt ≠ 0) ∧
    (ReturnsEnomem (Slab4Actualsize.testMaxallocsz stepsz kmalloc) ↔
      StepGetsThere stepsz kmalloc) ∧
    (ReturnsEnomem (Slab4ActualszWstgPlot.testMaxallocsz stepsz kmalloc) ↔
      StepGetsThere stepsz kmalloc) := by
  have hdivides : ∀ size b, (wastePct size b).isSome = decide (size ≠ 0) := by
    intro size b
    by_cases hzero : size = 0
    · rw [wastePct, if_pos hzero, hzero]
      rfl
    · rw [wastePct, if_neg hzero, decide_eq_true hzero]
      rfl
  refine ⟨?_, ?_, ?_⟩
  · exact (returns_iff 0 fun _ _ => rfl).trans (exists_refused_iff hk)
  · refine (returns_iff_nonzero 100 fun size b => ?_).trans
      (exists_refused_nonzero_iff hk)
    rw [Option.isSome_map, hdivides]
  · refine (returns_iff_nonzero 100 fun size b => ?_).trans
      (exists_refused_nonzero_iff hk)
    rw [Option.isSome_map, hdivides]

/-- An allocator for up to 4 MB, whose blocks have the next power of two as their size. -/
def kmalloc0 : Kmalloc := fun _ size =>
  if 2 ^ 22 < size.toNat then none
  else if size = 0 then some { ptr := 0x10, ksize := 0 }
  else some { ptr := 0xffff888000000000, ksize := BitVec.ofNat 64 (2 ^ Nat.clog 2 size.toNat) }

theorem kmalloc0_bounded : kmalloc0.Bounded (2 ^ 22) := by
  refine ⟨fun i => ⟨_, rfl, rfl⟩, fun i size hlt => ?_, by norm_num⟩
  exact if_pos hlt

/-- With the step the module has, all three tests come to their end. -/
theorem returnsEnomem_default :
    ReturnsEnomem (Slab3Maxsize.testMaxallocsz 204800 kmalloc0) ∧
    ReturnsEnomem (Slab4Actualsize.testMaxallocsz 204800 kmalloc0) ∧
    ReturnsEnomem (Slab4ActualszWstgPlot.testMaxallocsz 204800 kmalloc0) := by
  have hstep : (204800 : BitVec 32).toInt = 204800 := by decide
  have hgets : StepGetsThere 204800 kmalloc0 := by
    rw [StepGetsThere, hstep]
    exact ⟨fun hzero => absurd hzero (by norm_num), fun hneg => absurd hneg (by norm_num)⟩
  have hne : (204800 : BitVec 32).toInt ≠ 0 := by
    rw [hstep]
    norm_num
  obtain ⟨h3, h4, hplot⟩ := returnsEnomem_iff kmalloc0_bounded
  exact ⟨h3.mpr hne, h4.mpr hgets, hplot.mpr hgets⟩

/-- With a step of -100 the second pass divides by zero. -/
theorem not_returnsEnomem : ¬ ∀ (stepsz : BitVec 32) (limit : Nat) (kmalloc : Kmalloc),
    kmalloc.Bounded limit →
      ReturnsEnomem (Slab3Maxsize.testMaxallocsz stepsz kmalloc) ∧
      ReturnsEnomem (Slab4Actualsize.testMaxallocsz stepsz kmalloc) ∧
      ReturnsEnomem (Slab4ActualszWstgPlot.testMaxallocsz stepsz kmalloc) := by
  intro h
  obtain ⟨-, hret, -⟩ := h (-100) (2 ^ 22) kmalloc0 kmalloc0_bounded
  obtain ⟨n, t, hstop, -⟩ := hret
  rcases n with - | - | n
  · cases hstop
  · cases hstop
  · cases hstop

end Sizes

end Lkp.Slab.MaxAlloc
