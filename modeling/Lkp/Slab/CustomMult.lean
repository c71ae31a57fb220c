/-
The module that makes a hundred slab caches.

`kmem_cache_create` returns `NULL` where it fails.  `create_cust_llkd_cache` looks at the
pointer with `IS_ERR` then, finds no error number in it, and returns 0: the failure is
lost, and init goes on to use a cache that does not exist.  So init is right only where
every cache is made (`initSound_iff`).

The check that init makes before that is one signed comparison of `OURMAX_CACHES * xfactor`.
It lets factors through that are zero or negative, for which the sizes of the caches are
not what the assertion in the loop says they are (`sizesFit_iff`).
-/
import Lkp.Kernel.Basic
import Lkp.Klib.Snprintf
import Lkp.Memory.Slots

namespace Lkp.Slab.CustomMult

/-- `OURMAX_CACHES` -/
def OURMAX_CACHES : Nat := 100

/-- `MAX_ALLOW` -/
def MAX_ALLOW : Nat := 1 * 1024 * 1024

/-- A slab cache: what `kmem_cache_create` is given, the size as an `unsigned int`. -/
structure Cache where
  name : Buf
  size : BitVec 32
  deriving DecidableEq

/-- The memory, and `our_llkd_cachep`. -/
abbrev Drv := Slots Cache

/-- `"%s-%d"`, with `OURCACHENAME` and the index. -/
def nameText (idx : Nat) : Buf :=
  ascii ['o', 'u', 'r', '_', 's', 'l', 'a', 'b'] ++ ascii ['-'] ++ decimal idx

/-- `snprintf_lkp(nm, 127, "%s-%d", OURCACHENAME, idx)`, with the 128 zeroed bytes of `nm`. -/
def printName (idx : Nat) : Option (Buf × Klib.SnprintfCall) :=
  Klib.snprintfLkp 127 (nameText idx) (List.replicate 128 0)

theorem isSome_printName (idx : Nat) : (printName idx).isSome = true := by
  rw [printName, Klib.snprintfLkp, Option.isSome_map]
  exact isSome_snprintf (by rw [List.length_replicate]; decide)

/-- The string that is left in `nm`. -/
def cacheName (idx : Nat) : Buf := cstr ((printName idx).get (isSome_printName idx)).1

/-- `sz = (i + 1) * xfactor`: a product of `int`s, stored into a `size_t`. -/
def cacheSize (xfactor : BitVec 32) (i : Nat) : BitVec 64 :=
  (BitVec.ofNat 32 (i + 1) * xfactor).signExtend 64

/-- Cache `i`. -/
def cache (xfactor : BitVec 32) (i : Nat) : Cache where
  name := cacheName i
  size := (cacheSize xfactor i).setWidth 32

/-- A pointer as a number. -/
def address : Option Nat → Nat
  | none => 0
  | some o => o

/-- `IS_ERR(ptr)`: the last 4095 addresses stand for error numbers. -/
def isErr (ptr : Option Nat) : Bool := decide (2 ^ 64 - 4095 ≤ address ptr)

/-- `PTR_ERR(ptr)` -/
def ptrErr (ptr : Option Nat) : Int := address ptr - 2 ^ 64

/-- `create_cust_llkd_cache(idx, sz)`; `ok idx` is a `kmem_cache_create` that goes well. -/
def createCustLlkdCache (xfactor : BitVec 32) (ok : Nat → Bool) (idx : Nat) (s : Drv) :
    Int × Drv :=
  let t := s.fillOrSkip (cache xfactor) ok idx
  if t.ptr idx = none then (if isErr (t.ptr idx) then ptrErr (t.ptr idx) else 0, t) else (0, t)

/-- One pass of the loop of `create_our_llkd_caches`, with what it returns. -/
def createPass (xfactor : BitVec 32) (ok : Nat → Bool) (i : Nat) (s : Int × Drv) :
    Option (Pass (Int × Drv)) :=
  let r := createCustLlkdCache xfactor ok i s.2
  if r.1 < 0 then some (.stop (-(i : Int), r.2)) else some (.next (0, r.2))

/-- `create_our_llkd_caches`, for `n` caches. -/
def createOurLlkdCaches (n : Nat) (xfactor : BitVec 32) (ok : Nat → Bool) (s : Drv) :
    Option (Int × Drv) :=
  (forUp (createPass xfactor ok) n 0 (0, s)).map Pass.state

/-- `use_our_cache(idx)`: undefined without a cache.  What it allocates it frees again. -/
def useOurCache (idx : Nat) (s : Drv) : Option (Pass Drv) :=
  if (s.ptr idx).any fun o => (s.mem.heap.obj o).isSome then some (.next s) else none

/-- The check of init: `(OURMAX_CACHES * xfactor) >= MAX_ALLOW`. -/
def tooBig (n : Nat) (xfactor : BitVec 32) : Bool :=
  decide ((BitVec.ofNat 32 n * xfactor).toInt ≥ MAX_ALLOW)

/-- `slab_custom_mult_init`, for `n` caches. -/
def slabCustomMultInit (n : Nat) (xfactor : BitVec 32) (ok : Nat → Bool) (s : Drv) :
    Option (Int × Drv) :=
  if tooBig n xfactor then some (-EINVAL, s)
  else (createOurLlkdCaches n xfactor ok s).bind fun r =>
    if r.1 < 0 then
      -- `for (i = (-1 * ret) - 1; i >= 0; i--)`
      (forDown (fun j m => (m.putPtr (fun _ => true) (r.2.ptr (j - 1))).map .next) (-r.1).toNat
        r.2.mem).map fun p => (-ENOMEM, { r.2 with mem := p.state })
    else (forUp useOurCache n 0 r.2).map fun p => (0, p.state)

/-- The module is loaded: nothing that was allocated is lost, and the array is all `NULL`. -/
structure Loaded (s : Drv) : Prop where
  heap : s.mem.heap.WF
  null : ∀ i, s.ptr i = none

/--
Init returns 0 exactly if it has made all caches, each under its own name, and otherwise an
error, with those destroyed that were made before the first failure.
-/
structure InitSound (n : Nat) (xfactor : BitVec 32) (ok : Nat → Bool) (s : Drv) (ret : Int)
    (s' : Drv) : Prop where
  made : ret = 0 ↔ ∀ i, i < n →
    ∃ o, s'.ptr i = some o ∧ s'.mem.heap.obj o = some (cache xfactor i)
  /-- The index is an `int`. -/
  named : ret = 0 → ∀ i, i < n → i < 2 ^ 31 → ∃ o a,
    s'.ptr i = some o ∧ s'.mem.heap.obj o = some a ∧ a.name = nameText i
  negative : ret ≠ 0 → ret < 0
  refused : tooBig n xfactor = true → Ledger.GaveBack s.mem s.mem s'.mem []
  undone : ret ≠ 0 → tooBig n xfactor = false →
    ∀ i, i < n → ok i = false → (∀ j, j < i → ok j = true) →
      Ledger.GaveBack s.mem s.mem s'.mem (s.addrs i)

section Init

variable {n i k : Nat} {xfactor : BitVec 32} {ok : Nat → Bool} {s t : Drv}

/-- The buffer for the name has room for it. -/
theorem cacheName_eq (h : i < 2 ^ 31) : cacheName i = nameText i := by
  have hlen : (decimal i).length ≤ 10 := length_decimal_le (by decide) (by omega)
  have hnul : NoNul (nameText i) :=
    ((noNul_ascii (by simp)).append (noNul_ascii (by simp))).append (noNul_decimal i)
  have hroom : (nameText i).length < 127 := by
    rw [nameText, List.length_append, List.length_append, length_ascii, length_ascii]
    simp only [List.length_cons, List.length_nil]
    omega
  obtain ⟨d', c, heq, -, hname, -⟩ := Klib.snprintfLkp_whole (d := List.replicate 128 0) hnul hroom
    (by rw [List.length_replicate]; decide)
  have hget : (printName i).get (isSome_printName i) = (d', c) := Option.get_of_eq_some _ heq
  rw [cacheName, hget]
  exact hname

/-- Whether the cache is made or not, 0 is returned. -/
theorem createCustLlkdCache_eq :
    createCustLlkdCache xfactor ok i s = (0, s.fillOrSkip (cache xfactor) ok i) := by
  unfold createCustLlkdCache
  by_cases hnull : (s.fillOrSkip (cache xfactor) ok i).ptr i = none
  · simp only [hnull, if_true]
    rw [if_neg (by decide)]
  · simp only [hnull, if_false]

/-- So the loop goes on to the end. -/
theorem createOurLlkdCaches_ends (n : Nat) (xfactor : BitVec 32) (ok : Nat → Bool) (s : Drv) :
    ∃ t, createOurLlkdCaches n xfactor ok s = some (0, t) ∧
      Slots.Tried (cache xfactor) ok s n t := by
  have hstep : ∀ (i : Nat) (r : Int × Drv), 0 ≤ i → i < 0 + n →
      (r.1 = 0 ∧ Slots.Tried (cache xfactor) ok s i r.2) →
      Ends (fun r => r.1 = 0 ∧ Slots.Tried (cache xfactor) ok s (i + 1) r.2) (fun _ => False)
        (createPass xfactor ok i r) := by
    intro i r _ _ hr
    rw [createPass, createCustLlkdCache_eq, if_neg (lt_irrefl 0)]
    exact .next ⟨rfl, hr.2.step⟩
  have hstart : ((0 : Int), s).1 = 0 ∧ Slots.Tried (cache xfactor) ok s 0 ((0 : Int), s).2 :=
    ⟨rfl, .start⟩
  obtain ⟨⟨ret, t⟩, ht, hret, htried⟩ := (forUp_ends hstep hstart).exists_next
  obtain rfl : ret = 0 := hret
  rw [Nat.zero_add] at htried
  exact ⟨t, by rw [createOurLlkdCaches, ht]; rfl, htried⟩

/-- All caches can be used, or the loop is undefined. -/
theorem useOurCache_loop : forUp useOurCache n 0 t =
    if ∀ i, i < n → ((t.ptr i).any fun o => (t.mem.heap.obj o).isSome) = true then some (.next t)
    else none := by
  rw [forUp_check (p := fun i => (t.ptr i).any fun o => (t.mem.heap.obj o).isSome) fun _ => rfl]
  exact if_congr (by simp) rfl rfl

/-- A factor that is refused leaves everything as it is. -/
theorem initSound_refused (hs : Loaded s) (hbig : tooBig n xfactor = true) :
    InitSound n xfactor ok s (-EINVAL) s := by
  have hpos : 0 < n := by
    by_contra hzero
    obtain rfl : n = 0 := by omega
    simp [tooBig, MAX_ALLOW] at hbig
  refine ⟨?_, fun hzero => absurd hzero (by decide), fun _ => by decide, fun _ => ?_,
    fun _ hfalse => ?_⟩
  · refine iff_of_false (by decide) fun hall => ?_
    obtain ⟨o, ho, -⟩ := hall 0 hpos
    rw [hs.null] at ho
    cases ho
  · exact ⟨⟨[], (List.append_nil _).symm, .refl _⟩, rfl⟩
  · rw [hbig] at hfalse
    cases hfalse

/-- With all caches made, the array has them. -/
theorem made_of_filled (hs : Loaded s) (h : Slots.Filled (cache xfactor) s n t) (hi : i < n) :
    ∃ o, t.ptr i = some o ∧ t.mem.heap.obj o = some (cache xfactor i) :=
  ⟨_, h.ptrs i hi, h.obj hs.heap hi⟩

/-- And they can be used. -/
theorem usable_of_filled (hs : Loaded s) (h : Slots.Filled (cache xfactor) s n t) (hi : i < n) :
    ((t.ptr i).any fun o => (t.mem.heap.obj o).isSome) = true := by
  obtain ⟨o, ho, hobj⟩ := made_of_filled hs h hi
  rw [ho, Option.any_some, hobj]
  rfl

/-- So success is what it should be. -/
theorem initSound_filled (hs : Loaded s) (hbig : tooBig n xfactor = false)
    (h : Slots.Filled (cache xfactor) s n t) : InitSound n xfactor ok s 0 t := by
  refine ⟨iff_of_true rfl fun i hi => made_of_filled hs h hi, fun _ i hi hint => ?_, ?_,
    fun htrue => ?_, ?_⟩
  · obtain ⟨o, ho, hobj⟩ := made_of_filled hs h hi
    refine ⟨o, cache xfactor i, ho, hobj, ?_⟩
    simp only [cache]
    exact cacheName_eq hint
  · intro hret
    exact absurd rfl hret
  · rw [hbig] at htrue
    cases htrue
  · intro hret
    exact absurd rfl hret

/-- **Init is sound exactly if it refuses the factor or no cache fails.** -/
theorem initSound_iff (hs : Loaded s) :
    (∃ ret s', slabCustomMultInit n xfactor ok s = some (ret, s') ∧
        InitSound n xfactor ok s ret s') ↔
      tooBig n xfactor = true ∨ ∀ i, i < n → ok i = true := by
  by_cases hbig : tooBig n xfactor = true
  · exact iff_of_true ⟨-EINVAL, s, if_pos hbig, initSound_refused hs hbig⟩ (.inl hbig)
  · obtain ⟨t, hcreate, htried⟩ := createOurLlkdCaches_ends n xfactor ok s
    have hinit : slabCustomMultInit n xfactor ok s =
        (forUp useOurCache n 0 t).map fun p => (0, p.state) := by
      rw [slabCustomMultInit, if_neg hbig, hcreate, Option.bind_some, if_neg (lt_irrefl 0)]
    rw [hinit, useOurCache_loop, or_iff_right hbig]
    constructor
    · intro hex i hi
      obtain ⟨ret, s', hsome, -⟩ := hex
      split at hsome
      · rename_i hall
        rw [← htried.ptrs i hi]
        exact Option.isSome_of_any (hall i hi)
      · cases hsome
    · intro hok
      have hfilled := htried.filled hok
      refine ⟨0, t, ?_, initSound_filled hs (Bool.eq_false_iff.mpr hbig) hfilled⟩
      rw [if_pos fun i hi => usable_of_filled hs hfilled hi]
      rfl

/-- With nothing allocated the module can be loaded. -/
theorem loaded_empty : Loaded .empty := ⟨.empty, fun _ => rfl⟩

/-- All hundred caches are made. -/
theorem initSound_hundred : ∃ ret s',
    slabCustomMultInit OURMAX_CACHES 300 (fun _ => true) .empty = some (ret, s') ∧
      InitSound OURMAX_CACHES 300 (fun _ => true) .empty ret s' :=
  (initSound_iff loaded_empty).mpr (.inr fun _ _ => rfl)

/-- The second cache fails, and `use_our_cache(1)` has none to use. -/
theorem not_initSound : ¬ ∀ (n : Nat) (xfactor : BitVec 32) (ok : Nat → Bool) (s : Drv),
    Loaded s → ∃ ret s', slabCustomMultInit n xfactor ok s = some (ret, s') ∧
      InitSound n xfactor ok s ret s' := by
  intro h
  obtain ⟨ret, s', hinit, -⟩ := h OURMAX_CACHES 300 (fun i => decide (i ≠ 1)) .empty loaded_empty
  have hundefined : (slabCustomMultInit OURMAX_CACHES 300 (fun i => decide (i ≠ 1)) .empty).isSome =
      false := by
    decide +kernel
  rw [hinit] at hundefined
  cases hundefined

end Init

/-! ### The sizes -/

/-- The assertion in the loop holds of every size, and each is larger than the one before. -/
structure SizesFit (xfactor : BitVec 32) : Prop where
  asserted : ∀ i, i < OURMAX_CACHES →
    0 < cacheSize xfactor i ∧ (cacheSize xfactor i).toNat < MAX_ALLOW
  increasing : ∀ i j, i < j → j < OURMAX_CACHES → cacheSize xfactor i < cacheSize xfactor j

section Sizes

variable {xfactor : BitVec 32} {i k : Nat}

/-- A product of small factors does not wrap. -/
theorem toInt_ofNat_mul (hk : k ≤ OURMAX_CACHES) (hpos : 0 < xfactor.toInt)
    (hlt : xfactor.toInt < MAX_ALLOW) :
    (BitVec.ofNat 32 k * xfactor).toInt = k * xfactor.toInt := by
  unfold OURMAX_CACHES at hk
  unfold MAX_ALLOW at hlt
  have hfactor : (BitVec.ofNat 32 k).toInt = k := toInt_of_lt (by omega)
  have hle : (k : Int) * xfactor.toInt ≤ 100 * 1048576 :=
    Int.mul_le_mul (by omega) (by omega) (by omega) (by omega)
  have hnonneg : 0 ≤ (k : Int) * xfactor.toInt := Int.mul_nonneg (by omega) (by omega)
  rw [BitVec.toInt_mul, hfactor]
  exact Int.bmod_eq_of_le (by omega) (by omega)

theorem toNat_cacheSize (hi : i < OURMAX_CACHES) (hpos : 0 < xfactor.toInt)
    (hlt : xfactor.toInt < MAX_ALLOW) :
    ((cacheSize xfactor i).toNat : Int) = (i + 1) * xfactor.toInt := by
  have hprod := toInt_ofNat_mul (k := i + 1) hi hpos hlt
  have hnonneg : 0 ≤ ((i : Int) + 1) * xfactor.toInt := Int.mul_nonneg (by omega) (by omega)
  have hle : ((i : Int) + 1) * xfactor.toInt ≤ 100 * 1048576 := by
    unfold OURMAX_CACHES at hi
    unfold MAX_ALLOW at hlt
    exact Int.mul_le_mul (by omega) (by omega) (by omega) (by omega)
  rw [cacheSize, BitVec.signExtend, hprod, BitVec.toNat_ofInt]
  push_cast
  rw [Int.toNat_of_nonneg (Int.emod_nonneg _ (by norm_num))]
  exact Int.emod_eq_of_lt hnonneg (by omega)

/-- The first size is the factor. -/
theorem cacheSize_zero : cacheSize xfactor 0 = BitVec.ofInt 64 xfactor.toInt := by
  rw [cacheSize, BitVec.signExtend]
  congr 2
  exact BitVec.one_mul xfactor

/-- The assertion for the first size is one about the factor. -/
theorem range_of_sizesFit (h : SizesFit xfactor) :
    0 < xfactor.toInt ∧ xfactor.toInt < MAX_ALLOW := by
  obtain ⟨hpos, hlt⟩ := h.asserted 0 (by decide)
  have hlo := BitVec.le_toInt xfactor
  have hhi := BitVec.toInt_lt (x := xfactor)
  rw [cacheSize_zero] at hpos hlt
  rw [BitVec.lt_def, BitVec.toNat_ofInt] at hpos
  rw [BitVec.toNat_ofInt] at hlt
  unfold MAX_ALLOW at hlt ⊢
  norm_num at hpos hlt hlo hhi ⊢
  omega

/-- A factor in that range, which the check lets through, has fitting sizes. -/
theorem sizesFit_of_range (hbig : tooBig OURMAX_CACHES xfactor = false)
    (hpos : 0 < xfactor.toInt) (hlt : xfactor.toInt < MAX_ALLOW) : SizesFit xfactor := by
  refine ⟨fun i hi => ?_, fun i j hij hj => ?_⟩
  · have hsize := toNat_cacheSize hi hpos hlt
    have hall : ¬ (BitVec.ofNat 32 OURMAX_CACHES * xfactor).toInt ≥ MAX_ALLOW := by
      simpa [tooBig] using hbig
    rw [toInt_ofNat_mul (Nat.le_refl _) hpos hlt] at hall
    have hfirst : xfactor.toInt ≤ ((i : Int) + 1) * xfactor.toInt :=
      le_mul_of_one_le_left (by omega) (by omega)
    have hlast : ((i : Int) + 1) * xfactor.toInt ≤ OURMAX_CACHES * xfactor.toInt :=
      Int.mul_le_mul_of_nonneg_right (by omega) (by omega)
    refine ⟨?_, by omega⟩
    show 0 < (cacheSize xfactor i).toNat
    omega
  · have hi := toNat_cacheSize (i := i) (by omega) hpos hlt
    have hj := toNat_cacheSize hj hpos hlt
    have hless : ((i : Int) + 1) * xfactor.toInt < (j + 1) * xfactor.toInt :=
      Int.mul_lt_mul_of_pos_right (by omega) hpos
    rw [BitVec.lt_def]
    omega

/-- **The check lets only fitting sizes through, unless the factor is zero or negative.** -/
theorem sizesFit_iff (xfactor : BitVec 32) :
    (tooBig OURMAX_CACHES xfactor = false → SizesFit xfactor) ↔
      tooBig OURMAX_CACHES xfactor = true ∨ (0 < xfactor.toInt ∧ xfactor.toInt < MAX_ALLOW) := by
  by_cases hbig : tooBig OURMAX_CACHES xfactor = true
  · refine iff_of_true (fun hfalse => ?_) (.inl hbig)
    rw [hbig] at hfalse
    cases hfalse
  · have hpasses : tooBig OURMAX_CACHES xfactor = false := Bool.eq_false_iff.mpr hbig
    rw [or_iff_right hbig]
    constructor
    · intro hfit
      exact range_of_sizesFit (hfit hpasses)
    · intro hrange _
      exact sizesFit_of_range hpasses hrange.1 hrange.2

/-- With a factor of 0 every size is 0. -/
theorem not_sizesFit : ¬ ∀ xfactor : BitVec 32,
    tooBig OURMAX_CACHES xfactor = false → SizesFit xfactor := by
  intro h
  have hfirst := ((h 0 (by decide)).asserted 0 (by decide)).1
  exact absurd hfirst (by decide)

end Sizes

end Lkp.Slab.CustomMult
