/-
`snprintf_lkp` of the common library code: `snprintf`, with a warning where it cut the text.
-/
import Lkp.CLang.Format

namespace Lkp.Klib

/-- A call of `snprintf_lkp`: its limit, the text it formats, and the string it leaves. -/
structure SnprintfCall where
  maxsize : Nat
  text : Buf
  stored : Buf
  deriving DecidableEq

namespace SnprintfCall

/-- What it returns. -/
def ret (c : SnprintfCall) : Nat := c.text.length

/-- It prints `possible overflow!`. -/
def Warns (c : SnprintfCall) : Prop := c.ret ≥ c.maxsize

/-- The text is stored completely, and nothing is said of an overflow. -/
structure Complete (c : SnprintfCall) : Prop where
  whole : c.stored = c.text
  quiet : ¬ c.Warns

end SnprintfCall

/-- `snprintf_lkp(d, maxsize, ..)` with a format that comes to `t`. -/
def snprintfLkp (maxsize : Nat) (t d : Buf) : Option (Buf × SnprintfCall) :=
  (snprintf maxsize t d).map fun d' => (d', { maxsize := maxsize, text := t, stored := cstr d' })

variable {maxsize : Nat} {t d : Buf}

/-- A call whose limit is larger than its text is complete. -/
theorem snprintfLkp_whole (ht : NoNul t) (h : t.length < maxsize) (hd : maxsize ≤ d.length) :
    ∃ d' c, snprintfLkp maxsize t d = some (d', c) ∧ c.Complete ∧ cstr d' = t ∧
      d'.length = d.length := by
  obtain ⟨d', heq, hstr, hlen⟩ := snprintf_whole ht h hd
  refine ⟨d', _, by rw [snprintfLkp, heq, Option.map_some], ⟨hstr, ?_⟩, hstr, hlen⟩
  exact Nat.not_le.mpr h

/-- Any other is not. -/
theorem snprintfLkp_cut (ht : NoNul t) (hmax : 0 < maxsize) (h : maxsize ≤ t.length)
    (hd : maxsize ≤ d.length) :
    ∃ d' c, snprintfLkp maxsize t d = some (d', c) ∧ c.Warns ∧ cstr d' = t.take (maxsize - 1) ∧
      d'.length = d.length := by
  obtain ⟨d', heq, hstr, hlen⟩ := snprintf_cut ht hmax h hd
  exact ⟨d', ⟨maxsize, t, cstr d'⟩, by rw [snprintfLkp, heq, Option.map_some], h, hstr, hlen⟩

end Lkp.Klib
