/-
`show_phy_pages` of the common library code: one row for each page of a piece of memory.

The number of rows is made from the length alone and kept in an `int`.  A piece that does
not start on a page boundary may touch one page more than that, and a very long one has
more pages than an `int` counts; `showsRange_iff` says exactly when the rows are the pages
of the piece.

With the contiguity check the rows stop where the page frames stop being consecutive, and
a notice says so (`showsPrefix`).  This takes a start that passes the validity check: any
other gets one line that says it is invalid, and no row (`not_showsPrefix`).
-/
import Lkp.Kernel.Basic
import Lkp.CLang.Loop
import Lkp.Memory.Pages

namespace Lkp.Klib

/-- A kernel as this code sees it: its page size and its direct mapping. -/
structure Mm where
  /-- `PAGE_SHIFT` -/
  pageShift : Nat
  /-- No page is smaller than 4096 bytes, so that a frame number and 1 more fit a `long`. -/
  shift : 12 ≤ pageShift
  virtToPhys : BitVec 64 → BitVec 64
  /-- Without `CONFIG_X86` there is no check, which is as if every address passed it. -/
  virtAddrValid : BitVec 64 → Bool

namespace Mm

variable (m : Mm)

/-- `PAGE_SIZE` -/
def pageSize : Nat := 2 ^ m.pageShift

/-- `vaddr+(i*PAGE_SIZE)` -/
def pageAddr (vaddr : BitVec 64) (i : Nat) : BitVec 64 := vaddr + BitVec.ofNat 64 (i * m.pageSize)

/-- `PHYS_PFN(pa)` of the `i`-th page. -/
def pfn (vaddr : BitVec 64) (i : Nat) : Nat :=
  (m.virtToPhys (m.pageAddr vaddr i)).toNat >>> m.pageShift

theorem pageSize_pos : 0 < m.pageSize := Nat.two_pow_pos _

end Mm

/-- A line that is printed. -/
inductive Out
  /-- `invalid virtual address` -/
  | invalid (vaddr : BitVec 64)
  /-- `start kaddr .., len .., contiguity_check is ..`, and the heading of the columns. -/
  | heading (vaddr : BitVec 64) (len : Nat) (check : Bool)
  | row (i : Nat) (va pa : BitVec 64) (pfn : Nat)
  /-- `physical NON-contiguity detected` -/
  | nonContiguity (i : Nat)
  deriving DecidableEq

/-- What the loop keeps: the lines printed, and `prev_pfn`. -/
structure Printed where
  out : List Out
  prevPfn : Nat

/-- The row of the `i`-th page. -/
def rowOf (m : Mm) (vaddr : BitVec 64) (i : Nat) : Out :=
  .row i (m.pageAddr vaddr i) (m.virtToPhys (m.pageAddr vaddr i)) (m.pfn vaddr i)

/-- One pass of the loop over the pages. -/
def showPage (m : Mm) (vaddr : BitVec 64) (check : Bool) (i : Nat) (s : Printed) :
    Option (Pass Printed) :=
  if check = true ∧ i ≠ 0 ∧ m.pfn vaddr i ≠ s.prevPfn + 1 then
    some (.stop { s with out := s.out ++ [.nonContiguity i] })
  else
    some (.next
      { out := s.out ++ [rowOf m vaddr i]
        prevPfn := if check then m.pfn vaddr i else s.prevPfn })

/-- `int loops = len/PAGE_SIZE`, and `loops++` for a remainder. -/
def loops (m : Mm) (len : BitVec 64) : BitVec 32 :=
  let loops := BitVec.ofNat 32 (len.toNat / m.pageSize)
  if len.toNat % m.pageSize ≠ 0 then loops + 1 else loops

/-- `show_phy_pages(kaddr, len, contiguity_check)` -/
def showPhyPages (m : Mm) (kaddr len : BitVec 64) (check : Bool) : Option (List Out) :=
  if m.virtAddrValid kaddr then
    (forUp (showPage m kaddr check) (loops m len).toInt.toNat 0
      { out := [.heading kaddr len.toNat check], prevPfn := 1 }).map fun p => p.state.out
  else some [.invalid kaddr]

/-! ### The number of passes -/

variable {m : Mm} {kaddr len : BitVec 64}

theorem loops_toInt : (loops m len).toInt = toInt (pageCount m.pageSize len.toNat) := by
  unfold loops pageCount toInt
  split
  · rw [BitVec.ofNat_add]
    rfl
  · rw [Nat.add_zero]

/-- An `int` counts fewer pages than `2 ^ 31`. -/
theorem loops_lt : (loops m len).toInt.toNat < 2 ^ 31 := by
  have hlt := BitVec.toInt_lt (x := loops m len)
  omega

theorem loops_eq (h : pageCount m.pageSize len.toNat < 2 ^ 31) :
    (loops m len).toInt.toNat = pageCount m.pageSize len.toNat := by
  rw [loops_toInt, toInt_of_lt h, Int.toNat_natCast]

theorem loops_le : (loops m len).toInt.toNat ≤ pageCount m.pageSize len.toNat := by
  rcases Nat.lt_or_ge (pageCount m.pageSize len.toNat) (2 ^ 31) with hlt | hge
  · exact (loops_eq hlt).le
  · exact loops_lt.le.trans hge

/-- The pages that are shown start inside the piece. -/
theorem pageAddr_lt (hwrap : kaddr.toNat + len.toNat ≤ 2 ^ 64) {i : Nat}
    (hi : i < (loops m len).toInt.toNat) : kaddr.toNat + i * m.pageSize < 2 ^ 64 := by
  have hcount : i < pageCount m.pageSize len.toNat := Nat.lt_of_lt_of_le hi loops_le
  have hpos : 0 < len.toNat := by
    by_contra hzero
    rw [Nat.eq_zero_of_not_pos hzero, pageCount, Nat.zero_div, Nat.zero_mod] at hcount
    exact absurd hcount (Nat.not_lt_zero i)
  rw [pageCount_eq m.pageSize_pos hpos] at hcount
  have hlast : i * m.pageSize ≤ len.toNat - 1 :=
    (Nat.le_div_iff_mul_le m.pageSize_pos).mp (Nat.le_of_lt_succ hcount)
  omega

/-! ### Without the check -/

/-- Of a line, the page it is about. -/
def rowPage (m : Mm) : Out → Option Nat
  | .row _ va _ _ => some (va.toNat / m.pageSize)
  | _ => none

/-- The rows are those of the pages the piece touches, each page once. -/
def ShowsRange (m : Mm) (kaddr len : BitVec 64) : Prop :=
  ∃ out, showPhyPages m kaddr len false = some out ∧ (out.filterMap (rowPage m)).Nodup ∧
    ∀ p, p ∈ out.filterMap (rowPage m) ↔ Touches m.pageSize kaddr.toNat len.toNat p

/-- The rows without the check. -/
theorem showPhyPages_unchecked (hvalid : m.virtAddrValid kaddr = true) :
    showPhyPages m kaddr len false = some (.heading kaddr len.toNat false ::
      (List.range (loops m len).toInt.toNat).map (rowOf m kaddr)) := by
  have hstep : ∀ (i : Nat) (s : Printed), 0 ≤ i → i < 0 + (loops m len).toInt.toNat →
      s.out = .heading kaddr len.toNat false :: (List.range i).map (rowOf m kaddr) →
      Ends (fun t => t.out = .heading kaddr len.toNat false ::
        (List.range (i + 1)).map (rowOf m kaddr)) (fun _ => False)
        (showPage m kaddr false i s) := by
    intro i s _ _ hs
    refine .next ?_
    show s.out ++ [rowOf m kaddr i] = _
    rw [hs, List.range_succ, List.map_append]
    rfl
  have hfirst : ({ out := [.heading kaddr len.toNat false], prevPfn := 1 } : Printed).out =
      .heading kaddr len.toNat false :: (List.range 0).map (rowOf m kaddr) := rfl
  obtain ⟨s, hs, hout⟩ := (forUp_ends hstep hfirst).exists_next
  rw [showPhyPages, if_pos hvalid, hs, Option.map_some, Option.some.injEq, Pass.state, hout,
    Nat.zero_add]

/-- Row `i` is about the `i`-th page from the first one. -/
theorem rowPage_rowOf {i : Nat} (h : kaddr.toNat + i * m.pageSize < 2 ^ 64) :
    rowPage m (rowOf m kaddr i) = some (kaddr.toNat / m.pageSize + i) := by
  show some ((kaddr + BitVec.ofNat 64 (i * m.pageSize)).toNat / m.pageSize) = _
  rw [BitVec.toNat_add, BitVec.toNat_ofNat, Nat.add_mod_mod, Nat.mod_eq_of_lt h,
    Nat.add_mul_div_right _ _ m.pageSize_pos]

/-- The pages of the rows are as many as there are passes, from the first page on. -/
theorem filterMap_rowPage {n : Nat} (h : ∀ i, i < n → kaddr.toNat + i * m.pageSize < 2 ^ 64) :
    ((List.range n).map (rowOf m kaddr)).filterMap (rowPage m) =
      List.range' (kaddr.toNat / m.pageSize) n := by
  rw [List.filterMap_map, List.range'_eq_map_range, ← List.filterMap_eq_map]
  refine List.filterMap_congr fun i hi => ?_
  exact rowPage_rowOf (h i (List.mem_range.mp hi))

/-- **The rows are the pages of the piece** exactly when it is empty, or its first and last
bytes lie so that it touches no more pages than it fills, and an `int` can count them. -/
theorem showsRange_iff (hvalid : m.virtAddrValid kaddr = true)
    (hwrap : kaddr.toNat + len.toNat ≤ 2 ^ 64) :
    ShowsRange m kaddr len ↔
      len.toNat = 0 ∨
        kaddr.toNat % m.pageSize + (len.toNat - 1) % m.pageSize < m.pageSize ∧
          pageCount m.pageSize len.toNat < 2 ^ 31 := by
  have hsize := m.pageSize_pos
  have hpages : ShowsRange m kaddr len ↔
      ∀ p, p ∈ List.range' (kaddr.toNat / m.pageSize) (loops m len).toInt.toNat ↔
        Touches m.pageSize kaddr.toNat len.toNat p := by
    have hfilter := filterMap_rowPage fun i (hi : i < (loops m len).toInt.toNat) =>
      pageAddr_lt hwrap hi
    rw [ShowsRange, showPhyPages_unchecked hvalid]
    simp only [Option.some.injEq, exists_eq_left', List.filterMap_cons]
    rw [hfilter]
    exact ⟨fun h => h.2, fun h => ⟨List.nodup_range', h⟩⟩
  rw [hpages]
  rcases Nat.eq_zero_or_pos len.toNat with hzero | hpos
  · have hnone : (loops m len).toInt.toNat = 0 := by
      have hle : (loops m len).toInt.toNat ≤ pageCount m.pageSize len.toNat := loops_le
      rw [hzero, pageCount, Nat.zero_div, Nat.zero_mod] at hle
      exact Nat.le_zero.mp hle
    rw [hnone, hzero]
    exact ⟨fun _ => .inl rfl, fun _ p => ⟨nofun, fun h => absurd h not_touches_zero⟩⟩
  · have hquot : (kaddr.toNat % m.pageSize + (len.toNat - 1) % m.pageSize) / m.pageSize = 0 ↔
        kaddr.toNat % m.pageSize + (len.toNat - 1) % m.pageSize < m.pageSize :=
      ⟨fun h => (Nat.div_eq_zero_iff.mp h).resolve_left hsize.ne', Nat.div_eq_of_lt⟩
    have hle : (loops m len).toInt.toNat ≤ pageCount m.pageSize len.toNat := loops_le
    have hlt : (loops m len).toInt.toNat < 2 ^ 31 := loops_lt
    rw [touches_range'_iff hsize hpos, or_iff_right hpos.ne', ← hquot]
    generalize (kaddr.toNat % m.pageSize + (len.toNat - 1) % m.pageSize) / m.pageSize = extra
    constructor
    · intro hloops
      omega
    · intro hcond
      rw [loops_eq hcond.2, hcond.1, Nat.add_zero]

/-- A direct mapping from one address on, with pages of 4096 bytes. -/
def directMap : Mm where
  pageShift := 12
  shift := Nat.le_refl 12
  virtToPhys va := va - 0xffff888000000000
  virtAddrValid _ := true

/-- Two pages and a byte, from a page boundary on. -/
theorem showsRange_aligned : ShowsRange directMap 0xffff888000001000 8193 :=
  (showsRange_iff rfl (by decide)).mpr (.inr (by decide))

/-- Two bytes on two pages: the second page has no row. -/
theorem not_showsRange :
    ¬ ∀ (m : Mm) (kaddr len : BitVec 64), m.virtAddrValid kaddr = true →
      kaddr.toNat + len.toNat ≤ 2 ^ 64 → ShowsRange m kaddr len := by
  intro h
  obtain ⟨out, hout, -, hpages⟩ := h directMap 0xffff888000001fff 2 rfl (by decide)
  have hshown : showPhyPages directMap 0xffff888000001fff 2 false = some
      [.heading 0xffff888000001fff 2 false, rowOf directMap 0xffff888000001fff 0] := by
    decide +kernel
  rw [hshown, Option.some.injEq] at hout
  have hsecond := (hpages 0xffff888000002).mpr ⟨0xffff888000002000, by decide⟩
  rw [← hout] at hsecond
  revert hsecond
  decide +kernel

/-! ### With the check -/

/-- The page frame that the mapping has for the address `a`. -/
def Mm.frameAt (m : Mm) (a : Nat) : Nat := (m.virtToPhys (BitVec.ofNat 64 a)).toNat / m.pageSize

/-- Of a line, the four columns of its row: the count, the two addresses and the page frame. -/
def columns : Out → Option (Nat × Nat × Nat × Nat)
  | .row i va pa pfn => some (i, va.toNat, pa.toNat, pfn)
  | _ => none

/-- The columns for the `i`-th page from `kaddr` on. -/
def pageColumns (m : Mm) (kaddr i : Nat) : Nat × Nat × Nat × Nat :=
  (i, (kaddr + i * m.pageSize) % 2 ^ 64,
    (m.virtToPhys (BitVec.ofNat 64 (kaddr + i * m.pageSize))).toNat,
    m.frameAt (kaddr + i * m.pageSize))

/-- The notice that the frames are not consecutive. -/
def Noticed (out : List Out) : Prop := ∃ i, .nonContiguity i ∈ out

/-- The rows of the longest run of consecutive frames, and a notice if that is not all. -/
structure ShowsPrefix (m : Mm) (kaddr len : BitVec 64) (k : Nat) (out : List Out) : Prop where
  longest : IsGreatest {l | l ≤ pageCount m.pageSize len.toNat ∧
    Consecutive (fun i => m.frameAt (kaddr.toNat + i * m.pageSize)) l} k
  rows : out.filterMap columns = (List.range k).map (pageColumns m kaddr.toNat)
  noticed : Noticed out ↔ k < pageCount m.pageSize len.toNat

/-- What the loop has printed and kept, before pass `i`. -/
structure Following (m : Mm) (kaddr len : BitVec 64) (i : Nat) (s : Printed) : Prop where
  out : s.out = .heading kaddr len.toNat true :: (List.range i).map (rowOf m kaddr)
  prevPfn : i ≠ 0 → s.prevPfn = m.pfn kaddr (i - 1)
  consecutive : Consecutive (m.pfn kaddr) i

/-- The loop has met a frame that does not follow, in pass `i`. -/
structure Broken (m : Mm) (kaddr len : BitVec 64) (i : Nat) (s : Printed) : Prop where
  out : s.out =
    (.heading kaddr len.toNat true :: (List.range i).map (rowOf m kaddr)) ++ [.nonContiguity i]
  consecutive : Consecutive (m.pfn kaddr) i
  gap : ¬ Consecutive (m.pfn kaddr) (i + 1)

theorem showPage_ends {i n : Nat} {s : Printed} (hi : i < n) (h : Following m kaddr len i s) :
    Ends (Following m kaddr len (i + 1)) (fun t => ∃ k, k < n ∧ Broken m kaddr len k t)
      (showPage m kaddr true i s) := by
  unfold showPage
  split
  · rename_i hgap
    obtain ⟨-, hne, hgap⟩ := hgap
    refine .stop ⟨i, hi, by rw [h.out], h.consecutive, fun hcons => hgap ?_⟩
    rw [h.prevPfn hne]
    exact (consecutive_succ_iff.mp hcons).2 hne
  · rename_i hfollows
    refine .next ⟨?_, fun _ => rfl, consecutive_succ_iff.mpr ⟨h.consecutive, fun hne => ?_⟩⟩
    · show s.out ++ [rowOf m kaddr i] = _
      rw [h.out, List.range_succ, List.map_append]
      rfl
    · by_contra hgap
      rw [← h.prevPfn hne] at hgap
      exact hfollows ⟨rfl, hne, hgap⟩

/-- The address that the loop works out for a page. -/
theorem Mm.pageAddr_eq (i : Nat) :
    m.pageAddr kaddr i = BitVec.ofNat 64 (kaddr.toNat + i * m.pageSize) := by
  rw [BitVec.ofNat_add, BitVec.ofNat_toNat, BitVec.setWidth_eq]
  rfl

/-- Shifting by `PAGE_SHIFT` divides by `PAGE_SIZE`. -/
theorem Mm.pfn_eq (i : Nat) : m.pfn kaddr i = m.frameAt (kaddr.toNat + i * m.pageSize) := by
  rw [pfn, pageAddr_eq, Nat.shiftRight_eq_div_pow]
  rfl

theorem columns_rowOf (i : Nat) :
    columns (rowOf m kaddr i) = some (pageColumns m kaddr.toNat i) := by
  show some (i, (m.pageAddr kaddr i).toNat, (m.virtToPhys (m.pageAddr kaddr i)).toNat,
    m.pfn kaddr i) = _
  rw [Mm.pfn_eq, Mm.pageAddr_eq, BitVec.toNat_ofNat]
  rfl

theorem filterMap_columns (k : Nat) :
    ((List.range k).map (rowOf m kaddr)).filterMap columns =
      (List.range k).map (pageColumns m kaddr.toNat) := by
  rw [List.filterMap_map, ← List.filterMap_eq_map]
  exact List.filterMap_congr fun i _ => columns_rowOf i

theorem not_noticed_map (k : Nat) : ¬ Noticed ((List.range k).map (rowOf m kaddr)) := by
  intro hnoticed
  obtain ⟨i, hi⟩ := hnoticed
  obtain ⟨j, -, hj⟩ := List.mem_map.mp hi
  cases hj

/-- Where every page has followed the one before, the output is what it should be. -/
theorem Following.shows {s : Printed}
    (h : Following m kaddr len (pageCount m.pageSize len.toNat) s) :
    ShowsPrefix m kaddr len (pageCount m.pageSize len.toNat) s.out where
  longest := by
    have hcons := h.consecutive
    rw [funext Mm.pfn_eq] at hcons
    exact hcons.isGreatest (Nat.le_refl _) fun hlt => absurd hlt (Nat.lt_irrefl _)
  rows := by
    rw [h.out]
    exact filterMap_columns _
  noticed := by
    rw [h.out]
    refine iff_of_false ?_ (Nat.lt_irrefl _)
    intro hnoticed
    obtain ⟨i, hi⟩ := hnoticed
    rcases List.mem_cons.mp hi with heq | hmem
    · cases heq
    · exact not_noticed_map _ ⟨i, hmem⟩

/-- Where page `k` has not, the rows are those of the pages before it. -/
theorem Broken.shows {k : Nat} {s : Printed} (h : Broken m kaddr len k s)
    (hk : k < pageCount m.pageSize len.toNat) : ShowsPrefix m kaddr len k s.out where
  longest := by
    have hcons := h.consecutive
    have hgap := h.gap
    rw [funext Mm.pfn_eq] at hcons hgap
    exact hcons.isGreatest hk.le fun _ => hgap
  rows := by
    rw [h.out, List.filterMap_append]
    show ((List.range k).map (rowOf m kaddr)).filterMap columns ++ [] = _
    rw [List.append_nil]
    exact filterMap_columns k
  noticed := by
    rw [h.out]
    exact iff_of_true ⟨k, List.mem_append_right _ (List.mem_singleton_self _)⟩ hk

/-- **The check shows the longest run of consecutive frames**, for every mapping and every
start that passes the validity check. -/
theorem showsPrefix (hvalid : m.virtAddrValid kaddr = true)
    (hcount : pageCount m.pageSize len.toNat < 2 ^ 31) :
    ∃ k out, showPhyPages m kaddr len true = some out ∧ ShowsPrefix m kaddr len k out := by
  have hstart : Following m kaddr len 0
      { out := [.heading kaddr len.toNat true], prevPfn := 1 } :=
    ⟨rfl, fun hne => absurd rfl hne, consecutive_zero⟩
  have hends := forUp_ends (n := pageCount m.pageSize len.toNat)
    (fun i s _ hi hs => showPage_ends (by rwa [Nat.zero_add] at hi) hs) hstart
  rw [Nat.zero_add] at hends
  rw [showPhyPages, if_pos hvalid, loops_eq hcount]
  generalize forUp .. = x at hends
  cases hends with
  | @next s h => exact ⟨_, s.out, rfl, h.shows⟩
  | @stop s h =>
      obtain ⟨k, hk, hbroken⟩ := h
      exact ⟨k, s.out, rfl, hbroken.shows hk⟩

/-- The 5 pages that the module shows first, of a direct mapping. -/
theorem showsPrefix_identity : ∃ k out,
    showPhyPages directMap 0xffff888000000000 (5 * 4096) true = some out ∧
      ShowsPrefix directMap 0xffff888000000000 (5 * 4096) k out :=
  showsPrefix rfl (by decide)

/-- No address passes the check. -/
def unmapped : Mm := { directMap with virtAddrValid := fun _ => false }

/-- A page at an address that is not valid: one line says so, and there is no row. -/
theorem not_showsPrefix :
    ¬ ∀ (m : Mm) (kaddr len : BitVec 64), kaddr.toNat % m.pageSize = 0 →
      pageCount m.pageSize len.toNat < 2 ^ 31 →
      ∃ k out, showPhyPages m kaddr len true = some out ∧ ShowsPrefix m kaddr len k out := by
  intro h
  obtain ⟨k, out, hout, hshows⟩ := h unmapped 0 4096 (by decide) (by decide)
  have hshown : showPhyPages unmapped 0 4096 true = some [.invalid 0] := by decide +kernel
  rw [hshown, Option.some.injEq] at hout
  have hrows := hshows.rows
  have hnoticed := hshows.noticed
  rw [← hout] at hrows hnoticed
  -- no row means that no page counts, and a page left out calls for the notice
  have hnone : k = 0 := by
    rcases Nat.eq_zero_or_pos k with hzero | hpos
    · exact hzero
    · have hlength := congrArg List.length hrows
      rw [List.length_map, List.length_range] at hlength
      exact hlength.symm
  subst hnone
  obtain ⟨i, hi⟩ := hnoticed.mpr (by decide)
  rcases List.mem_singleton.mp hi with ⟨⟩

end Lkp.Klib
