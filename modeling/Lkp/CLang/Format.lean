/-
Texts made by `printf` conversions, and the functions that put a text into a buffer.

A text is what a format and its arguments come to.  `snprintf` stores as much of it as
there is room for and a terminator, and returns its whole length, so that it was cut
exactly if the length reaches the limit.  `strncat` appends to the string a buffer holds.
Both are `none` where they would write outside the buffer.

The lengths of texts are bounded by what their conversions are given (`length_signed_le`),
and a number that is printed can be read back (`readSigned_signed`).
-/
import Lkp.Memory.Bytes
import Mathlib.Data.Nat.Digits.Lemmas

namespace Lkp

/-- The bytes of ASCII characters. -/
def ascii (s : List Char) : Buf := s.map fun c => UInt8.ofNat c.toNat

/-! ### Conversions -/

/-- `%u` -/
def decimal (n : Nat) : Buf := ascii (Nat.toDigits 10 n)

/-- `%d` -/
def signed (x : ℤ) : Buf := if x < 0 then ascii ['-'] ++ decimal x.natAbs else decimal x.natAbs

/-- The hexadecimal digit `i` of a word. -/
def hexDigit (p : BitVec 64) (i : Nat) : Char := Nat.digitChar (p.toNat / 16 ^ i % 16)

/-- `%px`: all sixteen digits of a word. -/
def pointer (p : BitVec 64) : Buf := ascii ((List.range 16).reverse.map (hexDigit p))

/-- `%8d` and the like: the text at the right of at least `w` columns. -/
def padLeft (w : Nat) (t : Buf) : Buf := List.replicate (w - t.length) 32 ++ t

/-- `%-16s` and the like: the text at the left. -/
def padRight (w : Nat) (t : Buf) : Buf := t ++ List.replicate (w - t.length) 32

/-- No byte of the text would end a string. -/
def NoNul (t : Buf) : Prop := (0 : UInt8) ∉ t

section Conversions

variable {t u : Buf} {n k w : Nat} {x : ℤ} {p : BitVec 64}

@[simp] theorem length_ascii (s : List Char) : (ascii s).length = s.length := List.length_map ..

theorem NoNul.append (ht : NoNul t) (hu : NoNul u) : NoNul (t ++ u) := by
  intro h
  exact (List.mem_append.mp h).elim ht hu

theorem noNul_blanks (n : Nat) : NoNul (List.replicate n 32) := by
  intro h
  have heq := (List.mem_replicate.mp h).2
  cases heq

theorem NoNul.padLeft (h : NoNul t) : NoNul (padLeft w t) := (noNul_blanks _).append h

theorem NoNul.padRight (h : NoNul t) : NoNul (padRight w t) := h.append (noNul_blanks _)

theorem noNul_ascii {s : List Char} (h : ∀ c ∈ s, 0 < c.toNat ∧ c.toNat < 256) :
    NoNul (ascii s) := by
  intro h0
  obtain ⟨c, hc, hzero⟩ := List.mem_map.mp h0
  obtain ⟨hpos, hlt⟩ := h c hc
  have hnat := congrArg UInt8.toNat hzero
  rw [UInt8.toNat_ofNat_of_lt' hlt] at hnat
  exact absurd hnat hpos.ne'

theorem digit_range {c : Char} (h : c.isDigit = true) : 48 ≤ c.toNat ∧ c.toNat ≤ 57 := by
  simp only [Char.isDigit, Bool.and_eq_true, decide_eq_true_eq] at h
  exact h

/-- A number that is printed is all digits. -/
theorem range_of_mem_decimal {c : UInt8} (h : c ∈ decimal n) :
    48 ≤ c.toNat ∧ c.toNat ≤ 57 := by
  obtain ⟨d, hd, rfl⟩ := List.mem_map.mp h
  have hrange := digit_range (Nat.isDigit_of_mem_toDigits (by decide) (by decide) hd)
  rw [UInt8.toNat_ofNat_of_lt' (by omega : d.toNat < 256)]
  exact hrange

theorem noNul_decimal (n : Nat) : NoNul (decimal n) := by
  intro h
  exact absurd (range_of_mem_decimal h).1 (by decide)

theorem decimal_ne_nil (n : Nat) : decimal n ≠ [] := by
  intro hnil
  exact Nat.toDigits_ne_nil (List.map_eq_nil_iff.mp hnil)

theorem signed_natCast (n : Nat) : signed (n : ℤ) = decimal n := by
  rw [signed, if_neg (Int.not_lt.mpr (Int.natCast_nonneg n)), Int.natAbs_natCast]

theorem noNul_signed (x : ℤ) : NoNul (signed x) := by
  unfold signed
  split
  · exact NoNul.append (noNul_ascii (by simp)) (noNul_decimal _)
  · exact noNul_decimal _

theorem digitChar_toNat (h : n < 16) : 0 < n.digitChar.toNat ∧ n.digitChar.toNat < 256 := by
  interval_cases n <;> decide

theorem noNul_pointer (p : BitVec 64) : NoNul (pointer p) := by
  refine noNul_ascii fun c hc => ?_
  obtain ⟨i, -, rfl⟩ := List.mem_map.mp hc
  exact digitChar_toNat (Nat.mod_lt _ (by decide))

theorem length_decimal_le (hk : 0 < k) (h : n < 10 ^ k) : (decimal n).length ≤ k := by
  rw [decimal, length_ascii]
  exact (Nat.length_toDigits_le_iff (by decide) hk).mpr h

theorem length_signed_le (hk : 0 < k) (h : x.natAbs < 10 ^ k) : (signed x).length ≤ k + 1 := by
  have hle := length_decimal_le hk h
  unfold signed
  split
  · rw [List.length_append, length_ascii, List.length_singleton]
    omega
  · omega

@[simp] theorem length_pointer (p : BitVec 64) : (pointer p).length = 16 := by
  rw [pointer, length_ascii, List.length_map, List.length_reverse, List.length_range]

theorem length_padLeft : (padLeft w t).length = max w t.length := by
  rw [padLeft, List.length_append, List.length_replicate]
  omega

theorem length_padRight : (padRight w t).length = max w t.length := by
  rw [padRight, List.length_append, List.length_replicate]
  omega

/-- What `%d` prints of an `int` has at most eleven characters. -/
theorem length_signed_int_le (v : BitVec 32) : (signed v.toInt).length ≤ 11 := by
  refine length_signed_le (by decide) ?_
  have hlo := BitVec.le_toInt v
  have hhi := BitVec.toInt_lt (x := v)
  norm_num at hlo hhi ⊢
  omega

/-- What `%u` prints of an `unsigned int` has at most ten. -/
theorem length_decimal_uint_le (v : BitVec 32) : (decimal v.toNat).length ≤ 10 := by
  refine length_decimal_le (by decide) ?_
  have hlt := v.isLt
  omega

end Conversions

/-! ### Buffers -/

/-- Store a text at the start of a buffer. -/
def overwrite (d t : Buf) : Option Buf :=
  if t.length ≤ d.length then some (t ++ d.drop t.length) else none

/-- `snprintf(d, size, ..)` with a format that comes to `t`: what it leaves in `d`. -/
def snprintf (size : Nat) (t d : Buf) : Option Buf :=
  if size = 0 then some d else overwrite d (t.take (size - 1) ++ [0])

/-- `strncat(d, s, n)`: at most `n` bytes of the string, and a terminator. -/
def strncat (d s : Buf) (n : Nat) : Option Buf :=
  if (0 : UInt8) ∈ s ∨ n ≤ s.length then overwrite d (cstr d ++ (cstr s).take n ++ [0]) else none

section Buffers

variable {d d' s t u : Buf} {n size : Nat}

theorem overwrite_eq (h : t.length ≤ d.length) : overwrite d t = some (t ++ d.drop t.length) :=
  if_pos h

theorem length_overwrite (h : overwrite d t = some d') : d'.length = d.length := by
  unfold overwrite at h
  split at h
  · rename_i hle
    cases h
    rw [List.length_append, List.length_drop]
    omega
  · cases h

/-- A text stored with its terminator is the string of the buffer from then on. -/
theorem overwrite_string (ht : NoNul t) (h : t.length < d.length) :
    ∃ d', overwrite d (t ++ [0]) = some d' ∧ cstr d' = t ∧ d'.length = d.length := by
  have hle : (t ++ [0]).length ≤ d.length := by
    rw [List.length_append, List.length_singleton]
    exact h
  have heq := overwrite_eq hle
  refine ⟨_, heq, ?_, length_overwrite heq⟩
  rw [List.append_assoc]
  exact cstr_append_zero ht _

/-- **`snprintf` stores the whole text** if the limit is larger than its length. -/
theorem snprintf_whole (ht : NoNul t) (h : t.length < size) (hd : size ≤ d.length) :
    ∃ d', snprintf size t d = some d' ∧ cstr d' = t ∧ d'.length = d.length := by
  rw [snprintf, if_neg (by omega), List.take_of_length_le (by omega)]
  exact overwrite_string ht (by omega)

/-- It never writes more than `size` bytes. -/
theorem isSome_snprintf (hd : size ≤ d.length) : (snprintf size t d).isSome = true := by
  unfold snprintf
  split
  · rfl
  · rw [overwrite_eq]
    · rfl
    · rw [List.length_append, List.length_take, List.length_singleton]
      omega

/-- Otherwise it cuts the text. -/
theorem snprintf_cut (ht : NoNul t) (hsize : 0 < size) (h : size ≤ t.length)
    (hd : size ≤ d.length) :
    ∃ d', snprintf size t d = some d' ∧ cstr d' = t.take (size - 1) ∧ d'.length = d.length := by
  have hcut : NoNul (t.take (size - 1)) := fun h0 => ht (List.mem_of_mem_take h0)
  rw [snprintf, if_neg hsize.ne']
  refine overwrite_string hcut ?_
  rw [List.length_take]
  omega

/-- **`strncat` appends the string** if the buffer has room for it. -/
theorem strncat_whole (hs : (0 : UInt8) ∈ s) (hn : (cstr s).length ≤ n)
    (h : (cstr d).length + (cstr s).length < d.length) :
    ∃ d', strncat d s n = some d' ∧ cstr d' = cstr d ++ cstr s ∧ d'.length = d.length := by
  rw [strncat, if_pos (.inl hs), List.take_of_length_le hn]
  refine overwrite_string (NoNul.append (zero_notMem_cstr d) (zero_notMem_cstr s)) ?_
  rw [List.length_append]
  exact h

end Buffers

/-! ### Reading numbers back -/

/-- The character of a byte. -/
def charOf (c : UInt8) : Char := Char.ofNat c.toNat

/-- The digits a text starts with, as a number, and what follows them. -/
def readDecimal (t : Buf) : Option (Nat × Buf) :=
  let ds := t.takeWhile fun c => (charOf c).isDigit
  if ds = [] then none else some (Nat.ofDigitChars 10 (ds.map charOf) 0, t.drop ds.length)

/-- The same with a sign. -/
def readSigned : Buf → Option (ℤ × Buf)
  | 45 :: t => (readDecimal t).map fun r => (-(r.1 : ℤ), r.2)
  | t => (readDecimal t).map fun r => ((r.1 : ℤ), r.2)

section Reading

variable {t u : Buf} {n : Nat} {x : ℤ}

/-- The text does not go on with a digit. -/
def NoDigit (t : Buf) : Prop := ∀ c ∈ t.head?, (charOf c).isDigit = false

theorem noDigit_nil : NoDigit [] := by simp [NoDigit]

theorem map_charOf_ascii {s : List Char} (h : ∀ c ∈ s, c.isDigit = true) :
    (ascii s).map charOf = s := by
  rw [ascii, List.map_map]
  refine (List.map_congr_left fun c hc => ?_).trans (List.map_id s)
  have hlt : c.toNat < 256 := by
    have hrange := digit_range (h c hc)
    omega
  show Char.ofNat (UInt8.ofNat c.toNat).toNat = c
  rw [UInt8.toNat_ofNat_of_lt' hlt, Char.ofNat_toNat]

/-- **What `%u` printed is read back.** -/
theorem readDecimal_decimal (hu : NoDigit u) : readDecimal (decimal n ++ u) = some (n, u) := by
  have hdigits : ∀ c ∈ Nat.toDigits 10 n, c.isDigit = true := fun c hc =>
    Nat.isDigit_of_mem_toDigits (by decide) (by decide) hc
  have hmap := map_charOf_ascii hdigits
  have hall : ∀ c ∈ decimal n, (charOf c).isDigit = true := by
    intro c hc
    refine hdigits (charOf c) ?_
    rw [← hmap]
    exact List.mem_map_of_mem hc
  have htake : (decimal n ++ u).takeWhile (fun c => (charOf c).isDigit) = decimal n := by
    rw [List.takeWhile_append_of_pos hall]
    cases u with
    | nil => exact List.append_nil _
    | cons c u =>
        have hc : (charOf c).isDigit = false := hu c rfl
        rw [List.takeWhile_cons, hc]
        exact List.append_nil _
  unfold readDecimal
  simp only [htake, if_neg (decimal_ne_nil n), List.drop_left]
  rw [decimal, hmap, Nat.ofDigitChars_ten_toDigits]

/-- **What `%d` printed is read back.** -/
theorem readSigned_signed (hu : NoDigit u) : readSigned (signed x ++ u) = some (x, u) := by
  have hread := readDecimal_decimal (n := x.natAbs) hu
  unfold signed
  split
  · rename_i hneg
    have hsign : readSigned (ascii ['-'] ++ decimal x.natAbs ++ u) =
        (readDecimal (decimal x.natAbs ++ u)).map fun r => (-(r.1 : ℤ), r.2) := rfl
    rw [hsign, hread, Option.map_some]
    congr 2
    omega
  · rename_i hpos
    have hsign : readSigned (decimal x.natAbs ++ u) =
        (readDecimal (decimal x.natAbs ++ u)).map fun r => ((r.1 : ℤ), r.2) := by
      unfold readSigned
      split
      · rename_i t heq
        -- no digit is the sign
        rw [heq] at hread
        cases hread
      · rfl
    rw [hsign, hread, Option.map_some]
    congr 2
    omega

end Reading

end Lkp
