/-
Byte buffers, C strings, and the copying routines the kernel has for them.

A buffer is the list of its bytes, so its length is part of it and every access
is checked: a routine answers `none` where it would read or write outside a
buffer it was given.  "Never out of bounds" is then the statement that the
answer is not `none`.

`strscpy` is written one byte at a time, as `strscpyByte` iterated, because a
caller that holds no lock against its readers exposes every intermediate buffer.
`strscpy_eq` is all a caller that does hold one ever needs.
-/
import Mathlib.Tactic
import Mathlib.Data.List.Basic
import Mathlib.Data.List.TakeWhile

namespace Lkp

/-- The bytes of a buffer. -/
abbrev Buf := List UInt8

/-! ### C strings -/

/-- The C string a buffer starts with: its bytes before the first NUL. -/
def cstr (b : Buf) : Buf := b.takeWhile (· ≠ 0)

/-- `strlen`: `none` when the buffer holds no NUL, so that the scan leaves it. -/
def strlen : Buf → Option Nat
  | [] => none
  | c :: cs => if c = 0 then some 0 else (strlen cs).map (· + 1)

@[simp] theorem cstr_nil : cstr [] = [] := rfl

@[simp] theorem cstr_zero_cons (cs : Buf) : cstr (0 :: cs) = [] := rfl

theorem cstr_cons {c : UInt8} (hc : c ≠ 0) (cs : Buf) : cstr (c :: cs) = c :: cstr cs := by
  simp [cstr, hc]

theorem zero_notMem_cstr (b : Buf) : (0 : UInt8) ∉ cstr b := by
  intro h
  simpa using List.mem_takeWhile_imp h

theorem prefix_cstr (b : Buf) : cstr b <+: b := List.takeWhile_prefix _

theorem length_cstr_le (b : Buf) : (cstr b).length ≤ b.length := (prefix_cstr b).length_le

theorem cstr_eq_self {b : Buf} (h : (0 : UInt8) ∉ b) : cstr b = b := by
  refine List.takeWhile_eq_self_iff.mpr fun c hc => ?_
  have hne : c ≠ 0 := fun h0 => h (h0 ▸ hc)
  simpa using hne

/-- No prefix without a NUL is longer. -/
theorem prefix_cstr_of_prefix {b q : Buf} (h : q <+: b) (h0 : (0 : UInt8) ∉ q) : q <+: cstr b := by
  obtain ⟨t, rfl⟩ := h
  induction q with
  | nil => exact List.nil_prefix
  | cons c cs ih =>
      have hc : c ≠ 0 := fun hz => h0 (by simp [hz])
      have hcs : (0 : UInt8) ∉ cs := fun hz => h0 (by simp [hz])
      rw [List.cons_append, cstr_cons hc]
      exact (List.prefix_cons_inj c).mpr (ih hcs)

/-- Whatever follows the terminator is not part of the string. -/
theorem cstr_append_zero {t : Buf} (h : (0 : UInt8) ∉ t) (r : Buf) :
    cstr (t ++ 0 :: r) = t := by
  induction t with
  | nil => rfl
  | cons c cs ih =>
      have hc : c ≠ 0 := fun h0 => h (by simp [h0])
      have hcs : (0 : UInt8) ∉ cs := fun h0 => h (by simp [h0])
      rw [List.cons_append, cstr_cons hc, ih hcs]

theorem strlen_eq_some {b : Buf} {n : Nat} :
    strlen b = some n ↔ (0 : UInt8) ∈ b ∧ (cstr b).length = n := by
  induction b generalizing n with
  | nil => simp [strlen]
  | cons c cs ih =>
      by_cases hc : c = 0
      · subst hc
        simp [strlen]
      · have h0 : (0 : UInt8) ≠ c := fun h => hc h.symm
        simp only [strlen, if_neg hc, Option.map_eq_some_iff, ih, cstr_cons hc,
          List.length_cons, List.mem_cons, h0, false_or]
        constructor
        · intro hex
          obtain ⟨k, ⟨hmem, rfl⟩, rfl⟩ := hex
          exact ⟨hmem, rfl⟩
        · intro hex
          obtain ⟨hmem, rfl⟩ := hex
          exact ⟨_, ⟨hmem, rfl⟩, rfl⟩

/-- A terminated buffer has a length, and the scan finds it. -/
theorem strlen_of_mem {b : Buf} (h : (0 : UInt8) ∈ b) : strlen b = some (cstr b).length :=
  strlen_eq_some.mpr ⟨h, rfl⟩

/-- The string of a terminated buffer is shorter than the buffer. -/
theorem length_cstr_lt {b : Buf} (h : (0 : UInt8) ∈ b) : (cstr b).length < b.length := by
  rcases Nat.lt_or_ge (cstr b).length b.length with hlt | hge
  · exact hlt
  · have hb : cstr b = b := (prefix_cstr b).eq_of_length (Nat.le_antisymm (length_cstr_le b) hge)
    exact absurd h (hb ▸ zero_notMem_cstr b)

/-- The first `n` bytes are a prefix of the string as long as `n` does not exceed its length. -/
theorem take_prefix_cstr {b : Buf} {n : Nat} (h : n ≤ (cstr b).length) :
    b.take n <+: cstr b := by
  obtain ⟨r, hr⟩ := prefix_cstr b
  have htake : b.take n = (cstr b).take n := by
    conv_lhs => rw [← hr]
    exact List.take_append_of_le_length h
  rw [htake]
  exact List.take_prefix _ _

theorem take_length_cstr (b : Buf) : b.take (cstr b).length = cstr b :=
  (List.prefix_iff_eq_take.mp (prefix_cstr b)).symm

/-- `strnlen(s, n)`. -/
def strnlen (s : Buf) (n : Nat) : Nat := (cstr (s.take n)).length

theorem strnlen_le (s : Buf) (n : Nat) : strnlen s n ≤ n :=
  (length_cstr_le _).trans (by simp)

theorem strnlen_eq {s : Buf} (h : (0 : UInt8) ∉ s) (n : Nat) : strnlen s n = min n s.length := by
  rw [strnlen, cstr_eq_self fun h0 => h (List.mem_of_mem_take h0), List.length_take]

/-! ### Stores -/

/-- Store one byte. -/
def poke (d : Buf) (i : Nat) (c : UInt8) : Option Buf :=
  if i < d.length then some (d.set i c) else none

theorem poke_eq_some {d d' : Buf} {i : Nat} {c : UInt8} :
    poke d i c = some d' ↔ i < d.length ∧ d' = d.set i c := by
  unfold poke
  split
  · rename_i h
    simp [h, eq_comm]
  · rename_i h
    simp [h]

/-- What leaves the kernel when `n` bytes of `src` are copied to a user buffer of `room` bytes. -/
def copyToUser (src : Buf) (room n : Nat) : Option Buf :=
  if n ≤ src.length ∧ n ≤ room then some (src.take n) else none

/-- `strncpy(d, s, n)`: at most `n` bytes of the string, and zeros up to `n`. -/
def strncpy (d s : Buf) (n : Nat) : Buf :=
  (cstr s).take n ++ List.replicate (n - (cstr s).length) 0 ++ d.drop n

/-! ### `strscpy` -/

/--
One byte of `strscpy(d, s, n)`, at index `i`: the buffer it leaves and whether the
copy is over.  The last of the `n` places is kept for the terminator.
-/
def strscpyByte (d s : Buf) (n i : Nat) : Option (Buf × Bool) :=
  if n ≤ i + 1 then (poke d i 0).map fun d' => (d', true)
  else s[i]?.bind fun c => (poke d i c).map fun d' => (d', decide (c = 0))

/-- The copying loop from index `i`, with room for `room` more bytes. -/
def strscpyFrom (s : Buf) : Nat → Nat → Buf → Option Buf
  | 0, _, d => some d
  | room + 1, i, d =>
      (strscpyByte d s (i + (room + 1)) i).bind fun r =>
        if r.2 then some r.1 else strscpyFrom s room (i + 1) r.1

/-- `strscpy(d, s, n)`: nothing is written for `n = 0`. -/
def strscpy (d s : Buf) (n : Nat) : Option Buf := strscpyFrom s n 0 d

/-- One byte of the copy stays inside both buffers as long as the index is below `n`. -/
theorem strscpyByte_isSome {d s : Buf} {n i : Nat} (hd : n ≤ d.length) (hs : n ≤ s.length)
    (hi : i < n) : ∃ d' fin, strscpyByte d s n i = some (d', fin) ∧ d'.length = d.length := by
  unfold strscpyByte
  split
  · exact ⟨d.set i 0, true, by simp [poke, Nat.lt_of_lt_of_le hi hd], by simp⟩
  · have his : i < s.length := Nat.lt_of_lt_of_le hi hs
    exact ⟨d.set i s[i], decide (s[i] = 0), by simp [poke, Nat.lt_of_lt_of_le hi hd, his],
      by simp⟩

theorem strscpyFrom_eq (s : Buf) :
    ∀ (room i : Nat) (d : Buf), i + room < d.length → i + room ≤ s.length →
      strscpyFrom s (room + 1) i d =
        some (d.take i ++ (cstr ((s.drop i).take room) ++
          0 :: d.drop (i + (cstr ((s.drop i).take room)).length + 1))) := by
  intro room
  induction room with
  | zero =>
      intro i d hd _
      have hi : i < d.length := by omega
      simp only [strscpyFrom, strscpyByte, poke, hi, if_true, Nat.le_refl, Option.map_some,
        Option.bind_some, List.take_zero, cstr_nil, List.nil_append, List.length_nil,
        Nat.add_zero, Nat.zero_add]
      rw [List.set_eq_take_append_cons_drop, if_pos hi]
  | succ room ih =>
      intro i d hd hs
      have hi : i < d.length := by omega
      have his : i < s.length := by omega
      have hdrop : (s.drop i).take (room + 1) = s[i] :: (s.drop (i + 1)).take room := by
        rw [List.drop_eq_getElem_cons his, List.take_succ_cons]
      rw [strscpyFrom, strscpyByte, if_neg (by omega)]
      simp only [List.getElem?_eq_getElem his, poke, hi, if_true, Option.bind_some,
        Option.map_some, hdrop]
      by_cases hc : s[i] = 0
      · -- the terminator itself is copied, and the copy ends there
        simp only [hc, decide_true, if_true, cstr_zero_cons, List.nil_append, List.length_nil,
          Nat.add_zero]
        rw [List.set_eq_take_append_cons_drop, if_pos hi]
      · simp only [hc, decide_false, Bool.false_eq_true, if_false]
        rw [ih (i + 1) (d.set i s[i]) (by simp; omega) (by omega), cstr_cons hc,
          List.set_eq_take_append_cons_drop, if_pos hi]
        have htake : (d.take i ++ s[i] :: d.drop (i + 1)).take (i + 1) = d.take i ++ [s[i]] := by
          rw [List.take_append, List.length_take, Nat.min_eq_left hi.le,
            List.take_of_length_le (by simp)]
          simp
        have htail : ∀ k, (d.take i ++ s[i] :: d.drop (i + 1)).drop (i + 1 + k + 1)
            = d.drop (i + (k + 1) + 1) := by
          intro k
          rw [List.drop_append, List.length_take, Nat.min_eq_left hi.le,
            List.drop_of_length_le (by simp; omega),
            show i + 1 + k + 1 - i = (k + 1) + 1 by omega, List.drop_succ_cons, List.drop_drop]
          simp only [List.nil_append]
          congr 1
          omega
        rw [htake, htail]
        simp

/-- **What `strscpy` does**: the string of the first `n - 1` bytes, terminated. -/
theorem strscpy_eq {d s : Buf} {n : Nat} (hn : 0 < n) (hd : n ≤ d.length) (hs : n ≤ s.length) :
    strscpy d s n =
      some (cstr (s.take (n - 1)) ++ 0 :: d.drop ((cstr (s.take (n - 1))).length + 1)) := by
  obtain ⟨k, rfl⟩ := Nat.exists_eq_succ_of_ne_zero (Nat.pos_iff_ne_zero.mp hn)
  have h := strscpyFrom_eq s k 0 d (by omega) (by omega)
  simpa [strscpy] using h

@[simp] theorem strscpy_zero (d s : Buf) : strscpy d s 0 = some d := rfl

/-- The destination keeps its length. -/
theorem length_strscpy {d s d' : Buf} {n : Nat} (hd : n ≤ d.length) (hs : n ≤ s.length)
    (h : strscpy d s n = some d') : d'.length = d.length := by
  rcases Nat.eq_zero_or_pos n with rfl | hn
  · simp only [strscpy_zero, Option.some.injEq] at h
    rw [h]
  · rw [strscpy_eq hn hd hs, Option.some.injEq] at h
    have hlen : (cstr (s.take (n - 1))).length ≤ n - 1 :=
      (length_cstr_le _).trans (by simp)
    rw [← h]
    simp only [List.length_append, List.length_cons, List.length_drop]
    omega

/-- A terminated destination stays terminated. -/
theorem zero_mem_strscpy {d s d' : Buf} {n : Nat} (h0 : (0 : UInt8) ∈ d) (hd : n ≤ d.length)
    (hs : n ≤ s.length) (h : strscpy d s n = some d') : (0 : UInt8) ∈ d' := by
  rcases Nat.eq_zero_or_pos n with rfl | hn
  · simp only [strscpy_zero, Option.some.injEq] at h
    exact h ▸ h0
  · rw [strscpy_eq hn hd hs, Option.some.injEq] at h
    rw [← h]
    simp

theorem strscpy_isSome {d s : Buf} {n : Nat} (hd : n ≤ d.length) (hs : n ≤ s.length) :
    ∃ d', strscpy d s n = some d' := by
  rcases Nat.eq_zero_or_pos n with rfl | hn
  · exact ⟨d, rfl⟩
  · exact ⟨_, strscpy_eq hn hd hs⟩

end Lkp
