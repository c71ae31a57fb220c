/-
Bytes and the pages they lie on.

A page is the quotient of an address by the page size.  The pages a range of bytes
touches are an interval, of as many pages as the range has when it starts on a page
boundary, or one more (`touches_range'_iff`).

The frames behind consecutive pages may be consecutive only up to some page;
`Consecutive` says that they are up to the `k`-th.
-/
import Mathlib.Tactic
import Mathlib.Data.List.Range

namespace Lkp

/-- A byte of `[a, a + len)` lies on page `p`. -/
def Touches (size a len p : Nat) : Prop := ∃ x, a ≤ x ∧ x < a + len ∧ x / size = p

/-- How many pages `len` bytes fill, the last one perhaps not wholly. -/
def pageCount (size len : Nat) : Nat := len / size + if len % size ≠ 0 then 1 else 0

section Touching

variable {size a len p : Nat}

theorem pageCount_eq (hsize : 0 < size) (hlen : 0 < len) :
    pageCount size len = (len - 1) / size + 1 := by
  have hdiv := Nat.div_add_mod len size
  have hmod := Nat.mod_lt len hsize
  have hquot : ∀ q r, r < size → len - 1 = size * q + r → (len - 1) / size = q := by
    intro q r hr heq
    rw [heq, Nat.mul_add_div hsize, Nat.div_eq_of_lt hr, Nat.add_zero]
  unfold pageCount
  split
  · rename_i hne
    rw [hquot (len / size) (len % size - 1) (by omega) (by omega)]
  · rename_i heq
    have hzero : len % size = 0 := by omega
    have hpos : 0 < len / size :=
      Nat.div_pos (Nat.le_of_dvd hlen (Nat.dvd_of_mod_eq_zero hzero)) hsize
    have hsplit : size * (len / size) = size * (len / size - 1) + size := by
      rw [← Nat.mul_succ]
      congr 1
      omega
    rw [hquot (len / size - 1) (size - 1) (by omega) (by omega)]
    omega

/-- A range of no bytes touches nothing. -/
theorem not_touches_zero : ¬ Touches size a 0 p := by
  intro htouch
  obtain ⟨x, hx, hx', -⟩ := htouch
  omega

/-- The pages a range touches are those from its first byte's to its last byte's. -/
theorem touches_iff (hsize : 0 < size) (hlen : 0 < len) :
    Touches size a len p ↔ a / size ≤ p ∧ p ≤ (a + (len - 1)) / size := by
  constructor
  · intro htouch
    obtain ⟨x, hx, hx', rfl⟩ := htouch
    exact ⟨Nat.div_le_div_right hx, Nat.div_le_div_right (by omega)⟩
  · intro hp
    obtain ⟨hlo, hhi⟩ := hp
    rw [Nat.le_div_iff_mul_le hsize] at hhi
    by_cases hin : a ≤ p * size
    · exact ⟨p * size, hin, by omega, Nat.mul_div_cancel p hsize⟩
    · have hfirst : a / size = p := by
        refine Nat.le_antisymm hlo ?_
        rw [Nat.le_div_iff_mul_le hsize]
        omega
      exact ⟨a, Nat.le_refl a, by omega, hfirst⟩

/-- The last page a range touches. -/
theorem last_page (hsize : 0 < size) :
    (a + (len - 1)) / size =
      a / size + (len - 1) / size + (a % size + (len - 1) % size) / size := by
  have hsum : a + (len - 1) =
      size * (a / size + (len - 1) / size) + (a % size + (len - 1) % size) := by
    have ha := Nat.div_add_mod a size
    have hl := Nat.div_add_mod (len - 1) size
    rw [Nat.mul_add]
    omega
  conv_lhs => rw [hsum]
  exact Nat.mul_add_div hsize ..

/-- `n` pages from the first one on are those a range touches. -/
theorem touches_range'_iff (hsize : 0 < size) (hlen : 0 < len) {n : Nat} :
    (∀ p, p ∈ List.range' (a / size) n ↔ Touches size a len p) ↔
      n = pageCount size len + (a % size + (len - 1) % size) / size := by
  have hlast : (a + (len - 1)) / size =
      a / size + (len - 1) / size + (a % size + (len - 1) % size) / size := last_page hsize
  have hcount := pageCount_eq hsize hlen
  constructor
  · intro h
    have hfirst : a / size ≤ (a + (len - 1)) / size := Nat.div_le_div_right (Nat.le_add_right ..)
    have hend := (h ((a + (len - 1)) / size)).mpr
      ((touches_iff hsize hlen).mpr ⟨hfirst, Nat.le_refl _⟩)
    have hpos := (List.mem_range'_1.mp hend).2
    have hmem := (h (a / size + (n - 1))).mp (List.mem_range'_1.mpr (by omega))
    have hle := ((touches_iff hsize hlen).mp hmem).2
    omega
  · intro hn p
    rw [List.mem_range'_1, touches_iff hsize hlen]
    omega

end Touching

/-! ### Consecutive frames -/

/-- The first `k` values are consecutive. -/
def Consecutive (f : Nat → Nat) (k : Nat) : Prop := ∀ i, i + 1 < k → f (i + 1) = f i + 1

section Prefixes

variable {f : Nat → Nat} {k l : Nat}

theorem Consecutive.mono (h : Consecutive f k) (hl : l ≤ k) : Consecutive f l :=
  fun i hi => h i (Nat.lt_of_lt_of_le hi hl)

theorem consecutive_zero : Consecutive f 0 := nofun

theorem consecutive_succ_iff :
    Consecutive f (k + 1) ↔ Consecutive f k ∧ (k ≠ 0 → f k = f (k - 1) + 1) := by
  constructor
  · intro h
    refine ⟨h.mono (Nat.le_succ k), fun hk => ?_⟩
    obtain ⟨j, rfl⟩ := Nat.exists_eq_succ_of_ne_zero hk
    exact h j (Nat.lt_succ_self _)
  · intro h i hi
    obtain ⟨hk, hlast⟩ := h
    rcases Nat.lt_or_ge (i + 1) k with hlt | hge
    · exact hk i hlt
    · obtain rfl : k = i + 1 := by omega
      exact hlast (Nat.succ_ne_zero i)

/-- Where the next value does not follow, the prefix is the longest one. -/
theorem Consecutive.isGreatest {n : Nat} (h : Consecutive f k) (hk : k ≤ n)
    (hstop : k < n → ¬ Consecutive f (k + 1)) : IsGreatest {l | l ≤ n ∧ Consecutive f l} k := by
  refine ⟨⟨hk, h⟩, fun l hl => ?_⟩
  by_contra hlt
  have hlong : k + 1 ≤ l := by omega
  exact hstop (by have := hl.1; omega) (hl.2.mono hlong)

end Prefixes

end Lkp
