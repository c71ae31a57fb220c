/-
The test program, and what it and the driver do to a message between them.

`rdwr_test_secret w <device> <message>` stores a message and a later
`rdwr_test_secret r <device>` prints what the driver holds.  On the way the
message is measured by `strnlen`, cut to `MAXBYTES` bytes by the cap on `num`,
padded by `strncpy`, cut again by `strscpy`, measured by `strlen` and printed
with a width.

`Law` is what one would want of the two programs together.  The program's own
length check compares `strnlen(.., MAXBYTES)` with `MAXBYTES`, which it can never
exceed (`checkArgs_ne_tooBig`), so nothing is ever rejected and a message of
`MAXBYTES` bytes or more comes back cut; and an empty message is stored but cannot
be read.  For every other message the law holds, and for those only (`law_iff`).
-/
import Lkp.Secret.Methods

namespace Lkp.Secret.TestApp

/-! ### The program -/

/-- What the world answers one invocation. -/
structure World where
  opens : Bool
  mallocs : Bool
  /-- The bytes `malloc` hands over, whatever was there before. -/
  junk : Nat → UInt8
  kvmallocs : Bool
  copies : Bool

/-- Nothing an invocation asks for is refused. -/
structure World.Fine (w : World) : Prop where
  opens : w.opens = true
  mallocs : w.mallocs = true
  kvmallocs : w.kvmallocs = true
  copies : w.copies = true

/-- How an invocation ends; only the last two exit with `EXIT_SUCCESS`. -/
inductive Outcome
  | usage
  | tooBig (shown : Nat)
  | openFailed
  | noMemory
  | readFailed (n : Int)
  | writeFailed (n : Int)
  /-- `n` bytes read, and the secret as it is printed. -/
  | read (n : Int) (printed : Buf)
  | wrote (n : Int)
  deriving DecidableEq

/-- `'r'` and `'w'`. -/
def optR : UInt8 := 114
def optW : UInt8 := 119

/-- `argv[1][0]`. -/
def optOf (argv : List Buf) : UInt8 := (argv.getD 1 []).headD 0

/-- `argv[3]`. -/
def msgOf (argv : List Buf) : Buf := argv.getD 3 []

/-- The checks of the command line. -/
def checkArgs (argv : List Buf) : Option Outcome :=
  if argv.length < 3 then some .usage
  else if optOf argv ≠ optR ∧ optOf argv ≠ optW then some .usage
  else if (optOf argv = optW ∧ argv.length ≠ 4) ∨ (optOf argv = optR ∧ argv.length ≠ 3) then
    some .usage
  else if optW = optOf argv ∧ strnlen (msgOf argv) maxBytes > maxBytes then
    some (.tooBig (strnlen (msgOf argv) maxBytes))
  else none

/-- `num`: what is passed to `malloc` and to the system call. -/
def numOf (argv : List Buf) : Nat :=
  if optW = optOf argv then
    if strnlen (msgOf argv) maxBytes + 1 > maxBytes then maxBytes
    else strnlen (msgOf argv) maxBytes + 1
  else maxBytes

/-- What `"%.*s"` prints for a precision of `n`. -/
def printed (n : Int) (buf : Buf) : Buf := cstr (buf.take n.toNat)

/-- `main`, with the driver's context before and after. -/
def main (argv : List Buf) (w : World) (x : DrvCtx) : Option (DrvCtx × Outcome) :=
  match checkArgs argv with
  | some out => some (x, out)
  | none =>
      if w.opens then
        if w.mallocs then
          let num := numOf argv
          let buf := (List.range num).map w.junk
          if optR = optOf argv then
            (readMiscdrvRdwr num w.copies x).map fun r =>
              if r.2.1 < 0 then (r.1, .readFailed r.2.1)
              else (r.1, .read r.2.1 (printed r.2.1 (r.2.2 ++ buf.drop r.2.2.length)))
          else
            (writeMiscdrvRdwr (strncpy buf (msgOf argv) num) w.kvmallocs w.copies x).map fun r =>
              if r.2 < 0 then (r.1, .writeFailed r.2) else (r.1, .wrote r.2)
        else some (x, .noMemory)
      else some (x, .openFailed)

/-- The command lines of the two modes; all that counts of the option is its first byte. -/
def writing (prg opt dev msg : Buf) : List Buf := [prg, optW :: opt, dev, msg]
def reading (prg opt dev : Buf) : List Buf := [prg, optR :: opt, dev]

/-! ### The law -/

/-- Contexts some run of the driver leads to. -/
def Reached (x : DrvCtx) : Prop :=
  ∃ args p, (Mutex.machine args).Reachable p ∧ p.shared.ctx = x

/-- What calls of the read method alone can make of a context. -/
inductive OnlyRead : DrvCtx → DrvCtx → Prop
  | refl (x : DrvCtx) : OnlyRead x x
  | read {x y z : DrvCtx} {count : Nat} {ok : Bool} {ret : Int} {ubuf : Buf}
      (h : OnlyRead x y) (hr : readMiscdrvRdwr count ok y = some (z, ret, ubuf)) : OnlyRead x z

/-- What is asked of the program and the driver for one message. -/
structure Law (s : Buf) : Prop where
  /-- A message stored with success is what a later invocation prints, and it does print. -/
  prints : ∀ prg opt dev w x y n, Reached x →
    main (writing prg opt dev s) w x = some (y, .wrote n) →
    ∀ z, OnlyRead y z → ∀ prg' opt' dev' w', w'.Fine →
      ∃ z' n', main (reading prg' opt' dev') w' z = some (z', .read n' s)
  /-- A message that leaves no room for its terminator in the array is rejected. -/
  rejects : maxBytes ≤ s.length → ∀ prg opt dev w x, Reached x →
    ∃ shown, main (writing prg opt dev s) w x = some (x, .tooBig shown)

/-! ### What the program does -/

/-- **The length check never fires.** -/
theorem checkArgs_ne_tooBig (argv : List Buf) (shown : Nat) :
    checkArgs argv ≠ some (.tooBig shown) := by
  have hle := strnlen_le (msgOf argv) maxBytes
  unfold checkArgs
  split
  · simp
  · split
    · simp
    · split
      · simp
      · rw [if_neg fun h => Nat.not_lt.mpr hle h.2]
        simp

theorem checkArgs_writing (prg opt dev msg : Buf) :
    checkArgs (writing prg opt dev msg) = none := by
  have hle := strnlen_le msg maxBytes
  have hopt : optOf (writing prg opt dev msg) = optW := rfl
  have hmsg : msgOf (writing prg opt dev msg) = msg := rfl
  have hlen : (writing prg opt dev msg).length = 4 := rfl
  rw [checkArgs, hopt, hmsg, hlen, if_neg (by decide), if_neg (by decide), if_neg (by decide),
    if_neg fun h => Nat.not_lt.mpr hle h.2]

theorem checkArgs_reading (prg opt dev : Buf) : checkArgs (reading prg opt dev) = none := by
  have hopt : optOf (reading prg opt dev) = optR := rfl
  have hlen : (reading prg opt dev).length = 3 := rfl
  rw [checkArgs, hopt, hlen, if_neg (by decide), if_neg (by decide), if_neg (by decide),
    if_neg fun h => absurd h.1 (by decide)]

/-- The bytes passed to `write(2)` for a message. -/
def sent (msg : Buf) : Buf :=
  msg.take maxBytes ++ List.replicate (min maxBytes (msg.length + 1) - msg.length) 0

theorem numOf_writing {prg opt dev msg : Buf} (h : (0 : UInt8) ∉ msg) :
    numOf (writing prg opt dev msg) = min maxBytes (msg.length + 1) := by
  have hopt : optOf (writing prg opt dev msg) = optW := rfl
  have hmsg : msgOf (writing prg opt dev msg) = msg := rfl
  rw [numOf, hopt, hmsg, if_pos rfl, strnlen_eq h]
  split <;> omega

/-- In `w` mode. -/
theorem main_writing {prg opt dev msg : Buf} {w : World} {x : DrvCtx}
    (h : (0 : UInt8) ∉ msg) (hopen : w.opens = true) (hmalloc : w.mallocs = true) :
    main (writing prg opt dev msg) w x =
      (writeMiscdrvRdwr (sent msg) w.kvmallocs w.copies x).map fun r =>
        if r.2 < 0 then (r.1, .writeFailed r.2) else (r.1, .wrote r.2) := by
  have hopt : optOf (writing prg opt dev msg) = optW := rfl
  have hmsg : msgOf (writing prg opt dev msg) = msg := rfl
  have hbuf : strncpy ((List.range (min maxBytes (msg.length + 1))).map w.junk) msg
      (min maxBytes (msg.length + 1)) = sent msg := by
    have hcut : msg.take (min maxBytes (msg.length + 1)) = msg.take maxBytes := by
      rcases Nat.le_total maxBytes (msg.length + 1) with hle | hle
      · rw [Nat.min_eq_left hle]
      · rw [Nat.min_eq_right hle, List.take_of_length_le (by omega),
          List.take_of_length_le (by omega)]
    rw [strncpy, cstr_eq_self h, hcut, List.drop_of_length_le (by simp), List.append_nil, sent]
  rw [main, checkArgs_writing, hopt, hmsg]
  simp only [hopen, hmalloc, if_true, numOf_writing h, hbuf]
  rw [if_neg (by decide)]

/-- In `r` mode, when nothing is refused. -/
theorem main_reading {prg opt dev : Buf} {w : World} {x : DrvCtx} (hw : w.Fine) :
    main (reading prg opt dev) w x =
      (readMiscdrvRdwr maxBytes true x).map fun r =>
        if r.2.1 < 0 then (r.1, .readFailed r.2.1)
        else (r.1, .read r.2.1 (printed r.2.1
          (r.2.2 ++ ((List.range maxBytes).map w.junk).drop r.2.2.length))) := by
  have hopt : optOf (reading prg opt dev) = optR := rfl
  have hnum : numOf (reading prg opt dev) = maxBytes := by
    rw [numOf, hopt, if_neg (by decide)]
  rw [main, checkArgs_reading, hopt, hnum]
  simp only [hw.opens, hw.mallocs, hw.copies, if_true]

theorem length_sent (msg : Buf) : (sent msg).length = min maxBytes (msg.length + 1) := by
  simp only [sent, List.length_append, List.length_take, List.length_replicate]
  omega

/-- **A successful run in `w` mode leaves the first `MAXBYTES - 1` bytes of the message.** -/
theorem stored {prg opt dev msg : Buf} {w : World} {x y : DrvCtx} {n : Int} (hx : x.WF)
    (h : (0 : UInt8) ∉ msg) (hrun : main (writing prg opt dev msg) w x = some (y, .wrote n)) :
    y.WF ∧ cstr y.oursecret = msg.take (maxBytes - 1) := by
  have hopen : w.opens = true := by
    by_contra hno
    simp [main, checkArgs_writing, hno] at hrun
  have hmalloc : w.mallocs = true := by
    by_contra hno
    simp [main, checkArgs_writing, hno, hopen] at hrun
  rw [main_writing h hopen hmalloc] at hrun
  obtain ⟨r, hr, hout⟩ := Option.map_eq_some_iff.mp hrun
  have hret : ¬ r.2 < 0 ∧ r.1 = y := by
    split at hout
    · simp at hout
    · rename_i hpos
      simp only [Prod.mk.injEq] at hout
      exact ⟨hpos, hout.1⟩
  obtain ⟨hpos, rfl⟩ := hret
  unfold writeMiscdrvRdwr at hr
  split at hr
  · split at hr
    · have hlen := length_sent msg
      have hsize : storeSize (sent msg) = min maxBytes (msg.length + 1) := by
        unfold storeSize; split <;> omega
      have hfront : (sent msg).take (storeSize (sent msg) - 1) = msg.take (maxBytes - 1) := by
        have hle : min maxBytes (msg.length + 1) - 1 ≤ (msg.take maxBytes).length := by
          rw [List.length_take]; omega
        rw [hsize, sent, List.take_append_of_le_length hle, List.take_take]
        rcases Nat.le_total maxBytes (msg.length + 1) with hcut | hcut
        · congr 1
          omega
        · rw [List.take_of_length_le (by omega), List.take_of_length_le (by omega)]
      have hcstr := writeStore_cstr hx (by rw [hlen]; simp [maxBytes]) hr
      rw [hfront] at hcstr
      refine ⟨hx.writeStore hr, ?_⟩
      rw [hcstr, cstr_eq_self fun h0 => h (List.mem_of_mem_take h0)]
    · cases hr
      exact absurd (show -EFAULT < 0 by decide) hpos
  · cases hr
    exact absurd (show -ENOMEM < 0 by decide) hpos

/-- When nothing is refused a run in `w` mode succeeds. -/
theorem main_writing_fine {prg opt dev msg : Buf} {w : World} {x : DrvCtx} (hx : x.WF)
    (h : (0 : UInt8) ∉ msg) (hw : w.Fine) :
    ∃ y, main (writing prg opt dev msg) w x = some (y, .wrote (sent msg).length) := by
  obtain ⟨r, hr⟩ := hx.writeStore_isSome (sent msg)
  have hle : (sent msg).length ≤ maxBytes := by rw [length_sent]; exact Nat.min_le_left _ _
  have hret : r.2 = ((sent msg).length : Int) := by
    obtain ⟨b, -, rfl⟩ := Option.map_eq_some_iff.mp hr
    exact toInt_of_lt (lt_of_le_of_lt hle (by decide))
  refine ⟨r.1, ?_⟩
  rw [main_writing h hw.opens hw.mallocs, writeMiscdrvRdwr, hw.kvmallocs, hw.copies, if_pos rfl,
    if_pos rfl, hr, Option.map_some, hret, if_neg (by omega)]

theorem OnlyRead.secret {x y : DrvCtx} (h : OnlyRead x y) : y.oursecret = x.oursecret := by
  induction h with
  | refl => rfl
  | read _ hr ih =>
      obtain ⟨n, -, hrest⟩ := Option.bind_eq_some_iff.mp hr
      split at hrest
      · simp only [Option.some.injEq, Prod.mk.injEq] at hrest
        rw [← hrest.1, ih]
      · rw [(readCopy_spec hrest).1, ih]

/-- A run in `r` mode prints the string in the array, if there is one. -/
theorem main_reading_prints {prg opt dev : Buf} {w : World} {x : DrvCtx} (hx : x.WF)
    (hw : w.Fine) (hpos : 0 < (cstr x.oursecret).length) :
    ∃ y, main (reading prg opt dev) w x =
      some (y, .read (cstr x.oursecret).length (cstr x.oursecret)) := by
  have hprinted : ∀ junk : Buf, printed (cstr x.oursecret).length (cstr x.oursecret ++ junk) =
      cstr x.oursecret := by
    intro junk
    rw [printed, Int.toNat_natCast, List.take_left, cstr_eq_self (zero_notMem_cstr _)]
  refine ⟨{ x with tx := x.tx + BitVec.ofNat 32 (cstr x.oursecret).length }, ?_⟩
  rw [main_reading hw, readMiscdrvRdwr_eq hx (Nat.le_refl _) hpos, Option.map_some,
    if_neg (Int.not_lt.mpr (Int.natCast_nonneg _)), hprinted]

/-- With an empty secret it fails. -/
theorem main_reading_fails {prg opt dev : Buf} {w : World} {x : DrvCtx} (hx : x.WF)
    (hw : w.Fine) (hempty : cstr x.oursecret = []) :
    main (reading prg opt dev) w x = some (x, .readFailed (-EINVAL)) := by
  rw [main_reading hw, readMiscdrvRdwr_empty hx hempty, Option.map_some,
    if_pos (show -EINVAL < 0 by decide)]

theorem Reached.wf {x : DrvCtx} (h : Reached x) : x.WF := by
  obtain ⟨args, p, hp, rfl⟩ := h
  exact ((Mutex.inductive_safe _).holds hp).shared

/-! ### Which messages the law holds for -/

/-- An ordinary world. -/
def calm : World :=
  { opens := true, mallocs := true, junk := fun _ => 0, kvmallocs := true, copies := true }

theorem calm_fine : calm.Fine := ⟨rfl, rfl, rfl, rfl⟩

theorem reached_drv0 : Reached Mutex.drv0.ctx :=
  ⟨fromLast, _, .init Mutex.machine_init, rfl⟩

/-- No long message is rejected. -/
theorem not_law_of_long {s : Buf} (hlong : maxBytes ≤ s.length) : ¬ Law s := by
  intro hlaw
  obtain ⟨shown, hrun⟩ := hlaw.rejects hlong [] [] [] { calm with opens := false } _ reached_drv0
  simp [main, checkArgs_writing] at hrun

/-- An empty message is stored, and then there is nothing to print. -/
theorem not_law_nil : ¬ Law [] := by
  intro hlaw
  have hx := reached_drv0.wf
  have hwrite : ∃ y, main (writing [] [] [] []) calm Mutex.drv0.ctx =
      some (y, .wrote (sent []).length) := main_writing_fine hx (by simp) calm_fine
  obtain ⟨y, hy⟩ := hwrite
  obtain ⟨hwf, hempty⟩ := stored hx (by simp) hy
  obtain ⟨z, n, hread⟩ := hlaw.prints [] [] [] calm _ _ _ reached_drv0 hy y (.refl y) [] [] []
    calm calm_fine
  rw [main_reading_fails hwf calm_fine hempty] at hread
  simp at hread

/-- A message that fits, its terminator included, comes back whole. -/
theorem law_of_fits {s : Buf} (h : (0 : UInt8) ∉ s) (hpos : 0 < s.length)
    (hlt : s.length < maxBytes) : Law s where
  prints prg opt dev w x y n hx hrun z hz prg' opt' dev' w' hw' := by
    obtain ⟨hwf, hsecret⟩ := stored hx.wf h hrun
    have hsame : cstr z.oursecret = s := by
      rw [hz.secret, hsecret, List.take_of_length_le (by omega)]
    have hzwf : z.WF := ⟨hz.secret ▸ hwf.size, hz.secret ▸ hwf.nul⟩
    have hread : ∃ z', main (reading prg' opt' dev') w' z =
        some (z', .read (cstr z.oursecret).length (cstr z.oursecret)) :=
      main_reading_prints hzwf hw' (hsame.symm ▸ hpos)
    obtain ⟨z', hz'⟩ := hread
    rw [hsame] at hz'
    exact ⟨z', _, hz'⟩
  rejects hlong := absurd hlt (Nat.not_lt.mpr hlong)

/-- **The law holds for the messages of 1 to `MAXBYTES - 1` bytes, and for no others.** -/
theorem law_iff {s : Buf} (h : (0 : UInt8) ∉ s) :
    Law s ↔ 0 < s.length ∧ s.length < maxBytes := by
  constructor
  · intro hlaw
    refine ⟨?_, ?_⟩
    · by_contra hzero
      have hnil : s = [] := List.eq_nil_of_length_eq_zero (Nat.eq_zero_of_not_pos hzero)
      exact not_law_nil (hnil ▸ hlaw)
    · by_contra hlong
      exact not_law_of_long (Nat.le_of_not_lt hlong) hlaw
  · intro hex
    obtain ⟨hpos, hlt⟩ := hex
    exact law_of_fits h hpos hlt

/-- `"abc"`. -/
theorem law_iff_abc : Law [97, 98, 99] := (law_iff (by decide)).mpr (by decide)

/-- 128 letters are neither rejected nor kept. -/
theorem not_law : ¬ ∀ s : Buf, (0 : UInt8) ∉ s → Law s := by
  intro h
  have hmem : (0 : UInt8) ∉ List.replicate maxBytes (97 : UInt8) := by decide
  exact not_law_of_long (by simp) (h _ hmem)

end Lkp.Secret.TestApp
