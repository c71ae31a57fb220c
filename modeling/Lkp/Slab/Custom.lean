/-
The constructor of the module that makes a slab cache of its own.

`our_ctor` formats six numbers of the current task into the member `config`.  The limit it
passes, `6 * sizeof(u64) + 5`, is the size of six numbers as words and of the five
separators, but it is digits that are stored.  So the record is complete, and can be read
back, exactly where the digits of the six numbers are 47 at most (`keepsRecord_iff`).
-/
import Lkp.Klib.Snprintf

namespace Lkp.Slab

/-- The members of `current` that are formatted.  The counters are `unsigned long`. -/
structure Accounting where
  tgid : BitVec 32
  pid : BitVec 32
  nvcsw : BitVec 64
  nivcsw : BitVec 64
  minFlt : BitVec 64
  majFlt : BitVec 64
  deriving DecidableEq

namespace Accounting

/-- The texts of the six numbers: `%ld` prints a counter as a signed number. -/
def numbers (p : Accounting) : List Buf :=
  [signed p.tgid.toInt, signed p.pid.toInt, signed p.nvcsw.toInt, signed p.nivcsw.toInt,
    signed p.minFlt.toInt, signed p.majFlt.toInt]

/-- `"%d.%d,%ld.%ld,%ld,%ld"` -/
def record (p : Accounting) : Buf :=
  signed p.tgid.toInt ++ ascii ['.'] ++ signed p.pid.toInt ++ ascii [','] ++
    signed p.nvcsw.toInt ++ ascii ['.'] ++ signed p.nivcsw.toInt ++ ascii [','] ++
    signed p.minFlt.toInt ++ ascii [','] ++ signed p.majFlt.toInt

/-- How many characters the six numbers have in all. -/
def digits (p : Accounting) : Nat := (p.numbers.map List.length).sum

end Accounting

/-- `sizeof(ctx->config)` -/
def configSize : Nat := 64

/-- `6 * sizeof(u64) + 5` -/
def configLimit : Nat := 6 * 8 + 5

/-- `our_ctor`: the member `config` of the new object, all zeros after the `memset`. -/
def ourCtor (p : Accounting) : Option (Buf × Klib.SnprintfCall) :=
  Klib.snprintfLkp configLimit p.record (List.replicate configSize 0)

/-- Read a number and the separator after it. -/
def readField (sep : Char) (t : Buf) : Option (ℤ × Buf) :=
  (readSigned t).bind fun r =>
    match r.2 with
    | c :: rest => if c = UInt8.ofNat sep.toNat then some (r.1, rest) else none
    | [] => none

/-- Read a record with the separators it was written with. -/
def readRecord (t : Buf) : Option Accounting :=
  (readField '.' t).bind fun tgid =>
  (readField ',' tgid.2).bind fun pid =>
  (readField '.' pid.2).bind fun nvcsw =>
  (readField ',' nvcsw.2).bind fun nivcsw =>
  (readField ',' nivcsw.2).bind fun minFlt =>
  (readSigned minFlt.2).bind fun majFlt =>
    if majFlt.2 = [] then
      some
        { tgid := .ofInt 32 tgid.1, pid := .ofInt 32 pid.1, nvcsw := .ofInt 64 nvcsw.1
          nivcsw := .ofInt 64 nivcsw.1, minFlt := .ofInt 64 minFlt.1
          majFlt := .ofInt 64 majFlt.1 }
    else none

/-- The whole record is stored, without a warning, and what is stored can be read back. -/
structure KeepsRecord (p : Accounting) (config : Buf) (c : Klib.SnprintfCall) : Prop where
  complete : c.Complete
  whole : cstr config = p.record
  back : readRecord (cstr config) = some p

variable {p : Accounting} {t : Buf} {x : ℤ} {sep : Char}

theorem noNul_record (p : Accounting) : NoNul p.record := by
  have hdot : NoNul (ascii ['.']) := noNul_ascii (by simp)
  have hcomma : NoNul (ascii [',']) := noNul_ascii (by simp)
  have hids := ((noNul_signed p.tgid.toInt).append hdot).append (noNul_signed p.pid.toInt)
  have hswitches := (((hids.append hcomma).append (noNul_signed p.nvcsw.toInt)).append
    hdot).append (noNul_signed p.nivcsw.toInt)
  exact (((hswitches.append hcomma).append (noNul_signed _)).append hcomma).append
    (noNul_signed _)

theorem length_record (p : Accounting) : p.record.length = p.digits + 5 := by
  simp only [Accounting.record, Accounting.digits, Accounting.numbers, List.length_append,
    length_ascii, List.length_singleton, List.map_cons, List.map_nil, List.sum_cons,
    List.sum_nil]
  omega

/-! ### Reading a record back -/

theorem readField_signed (hsep : sep.toNat < 256) (hdigit : sep.isDigit = false) :
    readField sep (signed x ++ (ascii [sep] ++ t)) = some (x, t) := by
  have hno : NoDigit (ascii [sep] ++ t) := by
    intro c hc
    obtain rfl : UInt8.ofNat sep.toNat = c := Option.some.inj hc
    rw [charOf, UInt8.toNat_ofNat_of_lt' hsep, Char.ofNat_toNat]
    exact hdigit
  rw [readField, readSigned_signed hno, Option.bind_some]
  exact if_pos rfl

/-- **A whole record is read back as it was.** -/
theorem readRecord_record (p : Accounting) : readRecord p.record = some p := by
  have hdot : ∀ (x : ℤ) t, readField '.' (signed x ++ (ascii ['.'] ++ t)) = some (x, t) :=
    fun x t => readField_signed (by decide) (by decide)
  have hcomma : ∀ (x : ℤ) t, readField ',' (signed x ++ (ascii [','] ++ t)) = some (x, t) :=
    fun x t => readField_signed (by decide) (by decide)
  have hlast : ∀ x : ℤ, readSigned (signed x) = some (x, []) := by
    intro x
    have hread := readSigned_signed (x := x) noDigit_nil
    rwa [List.append_nil] at hread
  simp only [Accounting.record, List.append_assoc, readRecord, hdot, hcomma, hlast,
    Option.bind_some, if_true, BitVec.ofInt_toInt]

/-- **The record is kept exactly if its numbers have at most 47 characters.** -/
theorem keepsRecord_iff (p : Accounting) :
    (∃ config c, ourCtor p = some (config, c) ∧ KeepsRecord p config c) ↔ p.digits ≤ 47 := by
  have hlen := length_record p
  have hsize : configLimit ≤ (List.replicate configSize (0 : UInt8)).length := by
    rw [List.length_replicate]
    decide
  constructor
  · intro hex
    obtain ⟨config, c, hctor, hkeeps⟩ := hex
    by_contra hlong
    have hcut : configLimit ≤ p.record.length := by
      rw [hlen]
      unfold configLimit
      omega
    obtain ⟨d', c', heq, hwarns, -, -⟩ :=
      Klib.snprintfLkp_cut (noNul_record p) (by decide) hcut hsize
    obtain ⟨rfl, rfl⟩ := Prod.mk.inj (Option.some.inj (hctor.symm.trans heq))
    exact hkeeps.complete.quiet hwarns
  · intro hshort
    have hfits : p.record.length < configLimit := by
      rw [hlen]
      unfold configLimit
      omega
    obtain ⟨d', c, heq, hcomplete, hstr, -⟩ :=
      Klib.snprintfLkp_whole (noNul_record p) hfits hsize
    exact ⟨d', c, heq, hcomplete, hstr, by rw [hstr, readRecord_record]⟩

/-- A task with ids of seven digits and counters of ten. -/
def busyTask : Accounting where
  tgid := 1000000
  pid := 1000000
  nvcsw := 1000000000
  nivcsw := 1000000000
  minFlt := 1000000000
  majFlt := 1000000000

/-- Its record is cut. -/
theorem not_keepsRecord : ¬ ∀ p : Accounting, p.tgid.toNat ≤ 4194304 → p.pid.toNat ≤ 4194304 →
    ∃ config c, ourCtor p = some (config, c) ∧ KeepsRecord p config c := by
  intro h
  obtain ⟨config, c, hctor, hkeeps⟩ := h busyTask (by decide) (by decide)
  have hwarns : (ourCtor busyTask).map (fun r => decide (r.2.ret ≥ r.2.maxsize)) = some true := by
    decide +kernel
  rw [hctor, Option.map_some, Option.some.injEq, decide_eq_true_eq] at hwarns
  exact hkeeps.complete.quiet hwarns

end Lkp.Slab
