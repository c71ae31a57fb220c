/-
The driver context of the two secret drivers, and what their critical sections
do to it.

Both drivers keep a secret of at most `MAXBYTES - 1` characters in
`ctx->oursecret` and count the bytes they handed out and took in.  They differ
only in which lock guards what, so the sections are defined here once, as
functions of the context; `Lkp.Secret.Mutex` and `Lkp.Secret.Spin` put locks and
interleavings around them.

`DrvCtx.WF` is what every section keeps: the array has its full size and holds a
NUL.  Nothing else bounds a later `strlen`, so this is what all safety of the
read method comes from.
-/
import Lkp.Kernel.Basic
import Lkp.Memory.Bytes
import Mathlib.Data.Fintype.Pi

namespace Lkp.Secret

/-- `MAXBYTES`. -/
def maxBytes : Nat := 128

/-- The part of `struct drv_ctx` the methods use. -/
structure DrvCtx where
  tx : BitVec 32
  rx : BitVec 32
  oursecret : Buf
  deriving DecidableEq

/-- The string literal `"initmsg"` with its terminator. -/
def initmsg : Buf := [105, 110, 105, 116, 109, 115, 103, 0]

/-- The context after init: zeroed, then `strscpy(ctx->oursecret, "initmsg", 8)`. -/
def initCtx : Option DrvCtx :=
  (strscpy (List.replicate maxBytes 0) initmsg 8).map fun s => { tx := 0, rx := 0, oursecret := s }

/-- The methods that move the two integers `ga` and `gb`. -/
inductive FileOp
  | opening
  | closing
  deriving DecidableEq

/-- The arguments that `dev_info` takes from the two integers.  They are loaded one by one,
and C leaves open which one first. -/
inductive Arg
  | ga
  | gb
  deriving DecidableEq

instance : Fintype FileOp := ⟨{.opening, .closing}, fun op => by cases op <;> decide⟩

instance : Fintype Arg := ⟨{.ga, .gb}, fun x => by cases x <;> decide⟩

/-- The last argument first. -/
def fromLast : FileOp → Arg := fun _ => .gb

/-- The calls the VFS makes: `open`, `release`, `read` for `count` bytes, `write` of a buffer. -/
inductive Method
  | file (op : FileOp)
  | read (count : Nat)
  | write (ubuf : Buf)
  deriving DecidableEq

/-! ### The sections -/

/-- The two checks of the read method, and the error each ends the call with. -/
def readChecks (count secretLen : Nat) : Option Int :=
  if count < maxBytes then some (-EINVAL)
  else if secretLen ≤ 0 then some (-EINVAL)
  else none

/-- The copying section of the read method, with `ok` for a `copy_to_user` that succeeds. -/
def readCopy (count secretLen : Nat) (ok : Bool) (x : DrvCtx) : Option (DrvCtx × Int × Buf) :=
  (copyToUser x.oursecret count secretLen).map fun bytes =>
    if ok then ({ x with tx := x.tx + BitVec.ofNat 32 secretLen }, (secretLen : Int), bytes)
    else (x, -EFAULT, [])

/-- How many bytes of `kbuf` the write method passes to `strscpy`. -/
def storeSize (kbuf : Buf) : Nat := if kbuf.length > maxBytes then maxBytes else kbuf.length

/-- The section of the write method: the new secret, and the count received. -/
def writeStore (kbuf : Buf) (x : DrvCtx) : Option (DrvCtx × Int) :=
  (strscpy x.oursecret kbuf (storeSize kbuf)).map fun s =>
    ({ x with oursecret := s, rx := x.rx + BitVec.ofNat 32 kbuf.length }, toInt kbuf.length)

theorem storeSize_le_max (kbuf : Buf) : storeSize kbuf ≤ maxBytes := by
  unfold storeSize; split <;> omega

theorem storeSize_le_length (kbuf : Buf) : storeSize kbuf ≤ kbuf.length := by
  unfold storeSize; split <;> omega

/-! ### What every section keeps -/

/-- The secret array has its size and is terminated. -/
structure DrvCtx.WF (x : DrvCtx) : Prop where
  size : x.oursecret.length = maxBytes
  nul : (0 : UInt8) ∈ x.oursecret

theorem initCtx_wf {x : DrvCtx} (h : initCtx = some x) : x.WF := by
  obtain ⟨s, hs, rfl⟩ := Option.map_eq_some_iff.mp h
  have hd : (8 : Nat) ≤ (List.replicate maxBytes (0 : UInt8)).length := by simp [maxBytes]
  have hm : (8 : Nat) ≤ initmsg.length := Nat.le_refl _
  refine ⟨?_, ?_⟩
  · rw [length_strscpy hd hm hs, List.length_replicate]
  · exact zero_mem_strscpy (by simp [maxBytes]) hd hm hs

namespace DrvCtx.WF

variable {x : DrvCtx}

/-- The string in the array leaves room for its terminator. -/
theorem length_cstr_lt (h : x.WF) : (cstr x.oursecret).length < maxBytes :=
  h.size ▸ Lkp.length_cstr_lt h.nul

theorem strlen_eq (h : x.WF) : strlen x.oursecret = some (cstr x.oursecret).length :=
  strlen_of_mem h.nul

/-- A length measured in any earlier section is one the copy can use. -/
theorem readCopy_isSome (h : x.WF) {count secretLen : Nat} {ok : Bool}
    (hcount : secretLen ≤ count) (hlen : secretLen < maxBytes) :
    ∃ r, readCopy count secretLen ok x = some r := by
  have hin : secretLen ≤ x.oursecret.length := by rw [h.size]; exact hlen.le
  exact ⟨_, by rw [readCopy, copyToUser, if_pos ⟨hin, hcount⟩, Option.map_some]⟩

theorem writeStore_isSome (h : x.WF) (kbuf : Buf) : ∃ r, writeStore kbuf x = some r := by
  obtain ⟨s, hs⟩ := strscpy_isSome (d := x.oursecret) (s := kbuf)
    (h.size ▸ storeSize_le_max kbuf) (storeSize_le_length kbuf)
  exact ⟨_, by rw [writeStore, hs, Option.map_some]⟩

theorem writeStore (h : x.WF) {kbuf : Buf} {r : DrvCtx × Int}
    (hr : Secret.writeStore kbuf x = some r) : r.1.WF := by
  obtain ⟨s, hs, rfl⟩ := Option.map_eq_some_iff.mp hr
  have hd : storeSize kbuf ≤ x.oursecret.length := h.size ▸ storeSize_le_max kbuf
  refine ⟨?_, ?_⟩
  · rw [length_strscpy hd (storeSize_le_length kbuf) hs, h.size]
  · exact zero_mem_strscpy h.nul hd (storeSize_le_length kbuf) hs

end DrvCtx.WF

/-- What the copying section does: it never touches the secret. -/
theorem readCopy_spec {count secretLen : Nat} {ok : Bool} {x : DrvCtx} {r : DrvCtx × Int × Buf}
    (h : readCopy count secretLen ok x = some r) :
    r.1.oursecret = x.oursecret ∧
      (0 ≤ r.2.1 → r.2.1 = secretLen ∧ r.2.2 = x.oursecret.take secretLen) := by
  obtain ⟨bytes, hb, rfl⟩ := Option.map_eq_some_iff.mp h
  unfold copyToUser at hb
  split at hb
  · simp only [Option.some.injEq] at hb
    cases ok with
    | true => exact ⟨rfl, fun _ => ⟨rfl, hb.symm⟩⟩
    | false => exact ⟨rfl, fun hneg => absurd hneg (by simp [EFAULT])⟩
  · simp at hb

/-- With a copy that succeeds it is this. -/
theorem readCopy_ok {count secretLen : Nat} {x : DrvCtx} {r : DrvCtx × Int × Buf}
    (h : readCopy count secretLen true x = some r) :
    r = ({ x with tx := x.tx + BitVec.ofNat 32 secretLen }, (secretLen : Int),
      x.oursecret.take secretLen) := by
  obtain ⟨bytes, hb, rfl⟩ := Option.map_eq_some_iff.mp h
  unfold copyToUser at hb
  split at hb
  · rw [← Option.some.inj hb]
    rfl
  · cases hb

theorem readCopy_wf {count secretLen : Nat} {ok : Bool} {x : DrvCtx} {r : DrvCtx × Int × Buf}
    (hx : x.WF) (h : readCopy count secretLen ok x = some r) : r.1.WF := by
  have hkeep := (readCopy_spec h).1
  exact ⟨hkeep ▸ hx.size, hkeep ▸ hx.nul⟩

/-- Past the checks the user's buffer has room for any secret. -/
theorem readChecks_eq_none {count secretLen : Nat} :
    readChecks count secretLen = none ↔ maxBytes ≤ count ∧ 0 < secretLen := by
  unfold readChecks
  split
  · rename_i h
    simp [Nat.not_le.mpr h]
  · split
    · rename_i h
      simp [Nat.not_lt.mpr h]
    · rename_i hc hs
      simp [Nat.le_of_not_lt hc, Nat.lt_of_not_le hs]

/-- Both checks end the call in the same way. -/
theorem readChecks_eq_some {count secretLen : Nat} {e : Int}
    (h : readChecks count secretLen = some e) : e = -EINVAL := by
  unfold readChecks at h
  split at h
  · exact (Option.some.inj h).symm
  · split at h
    · exact (Option.some.inj h).symm
    · cases h

theorem readChecks_neg {count secretLen : Nat} {e : Int}
    (h : readChecks count secretLen = some e) : e < 0 := by
  rw [readChecks_eq_some h]
  decide

end Lkp.Secret
