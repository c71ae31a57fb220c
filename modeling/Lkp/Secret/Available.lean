/-
Whether there is a secret to read.

The read method takes an empty secret for something that cannot be.  A write of two or more
bytes that does not begin with a NUL leaves a secret behind it, but one of a single byte
does not: `strscpy` gets room for one byte, and puts the terminator there.  Nothing else
makes the secret empty or stops it being so.  Hence a read finds it empty exactly if the
last write to have stored anything before it was of one byte (`available_iff`).

What the two drivers have in common is in `SecretPlaces`: the places at which a call starts
to store, at which it measures, and at which it has measured.  The rest is what one step of
a driver does between them.
-/
import Lkp.Secret.WriteRead
import Lkp.Secret.Exclusion

namespace Lkp.Secret

variable {args : FileOp → Arg}

/-- At least one byte, and the first is not NUL. -/
structure IsText (ubuf : Buf) : Prop where
  pos : 1 ≤ ubuf.length
  first : ubuf.head? ≠ some 0

instance : DecidablePred IsText := fun ubuf =>
  decidable_of_iff (1 ≤ ubuf.length ∧ ubuf.head? ≠ some 0)
    ⟨fun h => ⟨h.1, h.2⟩, fun h => ⟨h.pos, h.first⟩⟩

/-- The places of a driver at which its calls come upon the secret. -/
structure SecretPlaces (κ : Type*) where
  /-- The next step stores the first byte of this buffer, or of its terminator. -/
  stores : κ → Option Buf
  /-- The next step is the `strlen`. -/
  measures : κ → Bool
  /-- `count` and `secret_len` of a read that has measured and comes to its checks. -/
  measured : κ → Option (Nat × Nat)

section Runs

variable {σ κ ε : Type*} {f : CallStep σ κ ε} {start : σ → Prop} {idle : κ} {n : Nat}

/-- No read finds the secret empty, or comes to report that it is not available. -/
structure Available (pl : SecretPlaces κ) (r : (Pool.machine start idle f).Run n) : Prop where
  positive : ∀ t, t ≤ n → ∀ c count secretLen,
    pl.measured ((r.state t).call c) = some (count, secretLen) → 0 < secretLen
  branch : ∀ t, t ≤ n → ∀ c count secretLen,
    pl.measured ((r.state t).call c) = some (count, secretLen) →
      ¬ (¬ count < maxBytes ∧ secretLen ≤ 0)

/-- Step `t` is one of a call that starts to store. -/
def Stores (pl : SecretPlaces κ) (p : Pool σ κ) (a : Nat × ε) : Prop :=
  (pl.stores (p.call a.1)).isSome = true

/-- What it stores has one byte. -/
def StoresByte (pl : SecretPlaces κ) (p : Pool σ κ) (a : Nat × ε) : Prop :=
  ∃ kbuf, pl.stores (p.call a.1) = some kbuf ∧ kbuf.length = 1

instance (pl : SecretPlaces κ) (p : Pool σ κ) (a : Nat × ε) : Decidable (StoresByte pl p a) :=
  decidable_of_iff ((pl.stores (p.call a.1)).any (·.length = 1) = true) <| by
    rw [StoresByte, Option.any_eq_true]
    simp

/-- Where a read measures, the last buffer stored before it, if any, has not one byte. -/
def NoByteBefore (pl : SecretPlaces κ) (r : (Pool.machine start idle f).Run n) : Prop :=
  ∀ t, t < n → pl.measures ((r.state t).call (r.act t).1) = true →
    ∀ s, r.LastBefore (Stores pl) s t → ¬ StoresByte pl (r.state s) (r.act s)

/-- What a step of a call does to the secret, and learns of it. -/
structure SecretPlaces.Step (pl : SecretPlaces κ) (x : DrvCtx) (l : κ) (x' : DrvCtx) (l' : κ) :
    Prop where
  store : ∀ kbuf, pl.stores l = some kbuf → (cstr x'.oursecret = [] ↔ kbuf.length = 1)
  keep : pl.stores l = none → (cstr x'.oursecret = [] ↔ cstr x.oursecret = [])
  measure : pl.measures l = true →
    ∃ count, pl.measured l' = some (count, (cstr x.oursecret).length)
  measured : ∀ q, pl.measured l' = some q →
    pl.measured l = some q ∨ pl.measures l = true ∧ q.2 = (cstr x.oursecret).length

variable {pl : SecretPlaces κ} {r : (Pool.machine start idle f).Run n} {ctx : σ → DrvCtx}

/-- In particular where no buffer stored has one byte. -/
theorem noByteBefore_of_meets (h : r.Meets fun p a => ¬ StoresByte pl p a) :
    NoByteBefore pl r :=
  fun _ ht _ s hlast => h s (hlast.before.trans ht)

/-- The secret is empty exactly if the last buffer stored has one byte. -/
theorem empty_iff (hstart : cstr (ctx (r.state 0).shared).oursecret ≠ [])
    (hstep : ∀ t, t < n → pl.Step (ctx (r.state t).shared) ((r.state t).call (r.act t).1)
      (ctx (r.state (t + 1)).shared) ((r.state (t + 1)).call (r.act t).1)) {t : Nat}
    (ht : t ≤ n) : cstr (ctx (r.state t).shared).oursecret = [] ↔
      ∃ s, r.LastBefore (Stores pl) s t ∧ StoresByte pl (r.state s) (r.act s) := by
  refine r.iff_last (P := fun p => cstr (ctx p.shared).oursecret = []) hstart
    (fun i hi hw => ?_) (fun i hi hw => ?_) t ht
  · obtain ⟨kbuf, hkbuf⟩ := Option.isSome_iff_exists.mp hw
    rw [(hstep i hi).store kbuf hkbuf]
    constructor
    · intro hlen
      exact ⟨kbuf, hkbuf, hlen⟩
    · intro hex
      obtain ⟨k, hk, hlen⟩ := hex
      rw [hkbuf] at hk
      cases hk
      exact hlen
  · exact (hstep i hi).keep (Option.not_isSome_iff_eq_none.mp hw)

/-- **The secret is there for every read exactly if no read comes after a byte.** -/
theorem available_iff_of_steps (ctx : σ → DrvCtx) (hidle : pl.measured idle = none)
    (hstart : cstr (ctx (r.state 0).shared).oursecret ≠ [])
    (hstep : ∀ t, t < n → pl.Step (ctx (r.state t).shared) ((r.state t).call (r.act t).1)
      (ctx (r.state (t + 1)).shared) ((r.state (t + 1)).call (r.act t).1)) :
    Available pl r ↔ NoByteBefore pl r := by
  constructor
  · intro h t ht hmeasures s hlast hbyte
    have hempty := (empty_iff hstart hstep ht.le).mpr ⟨s, hlast, hbyte⟩
    obtain ⟨count, hmeasured⟩ := (hstep t ht).measure hmeasures
    have hpos := h.positive (t + 1) ht _ _ _ hmeasured
    rw [hempty] at hpos
    exact absurd hpos (Nat.lt_irrefl 0)
  · intro h
    have hpositive : ∀ t, t ≤ n → ∀ c count secretLen,
        pl.measured ((r.state t).call c) = some (count, secretLen) → 0 < secretLen := by
      intro t ht c count secretLen hmeasured
      have hnot : ¬ pl.measured ((r.state 0).call c) = some (count, secretLen) := by
        rw [r.start.2 c, hidle]
        exact nofun
      -- the step at which the call measured
      obtain ⟨k, e, -, hkt, hact, hbefore, hafter, -⟩ :=
        Pool.exists_step (P := fun l => pl.measured l = some (count, secretLen)) r
          (Nat.zero_le t) ht hnot hmeasured
      have hkn : k < n := Nat.lt_of_lt_of_le hkt ht
      have hdone := (hstep k hkn).measured (count, secretLen)
      rw [hact] at hdone
      obtain ⟨hmeasures, hlen⟩ := (hdone hafter).resolve_left hbefore
      have hlen : secretLen = (cstr (ctx (r.state k).shared).oursecret).length := hlen
      rw [hlen]
      refine List.length_pos_iff.mpr fun hempty => ?_
      obtain ⟨s, hlast, hbyte⟩ := (empty_iff hstart hstep hkn.le).mp hempty
      exact h k hkn (by rw [hact]; exact hmeasures) s hlast hbyte
    refine ⟨hpositive, fun t ht c count secretLen hmeasured hbranch => ?_⟩
    have hpos := hpositive t ht c count secretLen hmeasured
    omega

end Runs

/-! ### The string in the array -/

theorem cstr_eq_nil_iff {b : Buf} (h : (0 : UInt8) ∈ b) : cstr b = [] ↔ b.head? = some 0 := by
  cases b with
  | nil => cases h
  | cons c b =>
      by_cases hc : c = 0
      · simp [hc]
      · simp [cstr_cons hc, hc]

/-- A text of which at least one byte is kept leaves something. -/
theorem IsText.cstr_take_ne_nil {ubuf : Buf} (h : IsText ubuf) {k : Nat} (hk : 0 < k) :
    cstr (ubuf.take k) ≠ [] := by
  obtain ⟨c, bs, rfl⟩ := List.exists_cons_of_length_pos h.pos
  have hc : c ≠ 0 := fun h0 => h.first (by rw [h0]; rfl)
  obtain ⟨k, rfl⟩ := Nat.exists_eq_succ_of_ne_zero hk.ne'
  rw [List.take_succ_cons, cstr_cons hc]
  exact List.cons_ne_nil _ _

theorem initCtx_ne_nil {x : DrvCtx} (h : initCtx = some x) : cstr x.oursecret ≠ [] := by
  have hx : initCtx.map (fun x => x.oursecret.head?) = some (some 105) := by
    decide +kernel
  rw [h, Option.map_some, Option.some.injEq] at hx
  intro hempty
  rw [(cstr_eq_nil_iff (initCtx_wf h).nul).mp hempty] at hx
  cases hx

/-! ### The driver with one mutex -/

namespace Mutex

/-- The buffer of a write that is called. -/
def Env.written : Env → Option Buf
  | .call (.write ubuf) => some ubuf
  | _ => none

/-- The bytes written are text. -/
def WritesText (_ : Pool Drv Call) (a : Nat × Env) : Prop := ∀ ubuf ∈ a.2.written, IsText ubuf

instance : DecidableRel WritesText := fun _ a =>
  inferInstanceAs (Decidable (∀ ubuf ∈ a.2.written, IsText ubuf))

def places : SecretPlaces Call where
  stores
    | .writeFetched kbuf => some kbuf
    | _ => none
  measures
    | .read _ => true
    | _ => false
  measured
    | .readLen count secretLen => some (count, secretLen)
    | _ => none

/-- The buffer a write works on is text. -/
def Carries : Call → Prop
  | .write ubuf | .writeKbuf _ ubuf | .writeFetched ubuf => IsText ubuf
  | _ => True

section Steps

variable {e : Env} {s s' : Drv} {l l' : Call}

theorem Move.carries (h : Move args e s l s' l')
    (htext : ∀ ubuf, e = .call (.write ubuf) → IsText ubuf) (hl : Carries l) : Carries l' := by
  cases h with
  | callWrite ubuf => exact htext ubuf rfl
  | alloc ubuf => exact hl
  | fetch kbuf ubuf => exact hl
  | _ => trivial

theorem inductive_carries :
    (machine args).Inductive WritesText fun p => ∀ c, Carries (p.call c) := by
  refine Pool.inductive_each trivial fun p c e s' l' hok hstep hl => ?_
  exact (move_of_step hstep).carries (fun ubuf henv => hok ubuf (by rw [henv]; rfl)) hl

/-- A text leaves an empty secret exactly if it has one byte. -/
theorem front_eq_nil_iff {ubuf : Buf} (h : IsText ubuf) : front ubuf = [] ↔ ubuf.length = 1 := by
  have hpos := h.pos
  constructor
  · intro hempty
    by_contra hne
    have hmax : (1 : Nat) < maxBytes := by decide
    exact h.cstr_take_ne_nil (k := min ubuf.length maxBytes - 1) (by omega) hempty
  · intro hlen
    have hzero : min ubuf.length maxBytes - 1 = 0 := by omega
    rw [front, hzero]
    rfl

theorem Move.places (h : Move args e s l s' l') (hwf : s.ctx.WF) (hl : Carries l) :
    places.Step s.ctx l s'.ctx l' where
  store kbuf hkbuf := by
    cases h with
    | store k hr =>
        cases hkbuf
        rw [writeStore_front hwf hl.pos hr]
        exact front_eq_nil_iff hl
    | storeOops k hr =>
        obtain ⟨r, hr'⟩ := hwf.writeStore_isSome k
        rw [hr'] at hr
        cases hr
    | _ => cases hkbuf
  keep hnone := by
    have hnot : ¬ Storing l := by
      intro hstoring
      cases l with
      | writeFetched kbuf => cases hnone
      | _ => exact hstoring
    rw [h.secret hnot]
  measure hmeasures := by
    cases h with
    | measure count hn =>
        obtain ⟨-, rfl⟩ := strlen_eq_some.mp hn
        exact ⟨count, rfl⟩
    | overrun count hn =>
        rw [hwf.strlen_eq] at hn
        cases hn
    | _ => cases hmeasures
  measured q hq := by
    cases h with
    | measure count hn =>
        obtain ⟨-, rfl⟩ := strlen_eq_some.mp hn
        cases hq
        exact .inr ⟨rfl, rfl⟩
    | _ => cases hq

end Steps

theorem available_iff_noByteBefore {n : Nat} (r : (machine args).Run n)
    (htext : r.Meets WritesText) : Available places r ↔ NoByteBefore places r := by
  refine available_iff_of_steps Drv.ctx rfl (initCtx_ne_nil r.start.1.1) fun t ht => ?_
  refine (move_of_run r ht).places (wf_of_run r ht.le) ?_
  exact inductive_carries.holds (r.reachableBy htext t ht.le) _

end Mutex

/-! ### The driver with two locks

A store is a step for every byte.  Whether the secret is empty is decided by the first of
them: the others leave the first byte of the array as it is.
-/

namespace Spin

/-- The buffer of a write that is called. -/
def Env.written : Env → Option Buf
  | .call (.write ubuf) => some ubuf
  | _ => none

/-- The bytes written are text. -/
def WritesText (_ : Pool Drv Call) (a : Nat × Env) : Prop := ∀ ubuf ∈ a.2.written, IsText ubuf

instance : DecidableRel WritesText := fun _ a =>
  inferInstanceAs (Decidable (∀ ubuf ∈ a.2.written, IsText ubuf))

def places : SecretPlaces Call where
  stores
    | .writeCopy kbuf 0 => some kbuf
    | _ => none
  measures
    | .readHeld _ => true
    | _ => false
  measured
    | .readMeasured count secretLen | .readLen count secretLen => some (count, secretLen)
    | _ => none

/-- The buffer a write works on is text. -/
def Carries : Call → Prop
  | .write ubuf | .writeKbuf _ ubuf | .writeFetched ubuf | .writeCopy ubuf _ => IsText ubuf
  | _ => True

section Steps

variable {c : Nat} {e : Env} {s s' : Drv} {l l' : Call} {kbuf b : Buf} {i : Nat} {fin : Bool}

theorem Move.carries (h : Move args c e s l s' l')
    (htext : ∀ ubuf, e = .call (.write ubuf) → IsText ubuf) (hl : Carries l) : Carries l' := by
  cases h with
  | callWrite ubuf => exact htext ubuf rfl
  | alloc | fetch | storeLock | storeByte => exact hl
  | _ => trivial

theorem inductive_carries :
    (machine args).Inductive WritesText fun p => ∀ c, Carries (p.call c) := by
  refine Pool.inductive_each trivial fun p c e s' l' hok hstep hl => ?_
  exact (move_of_step hstep).carries (fun ubuf henv => hok ubuf (by rw [henv]; rfl)) hl

/-- A byte of a store puts one byte into the array: the terminator where there is no room. -/
theorem set_of_strscpyByte {d : Buf} {n : Nat} (hb : strscpyByte d kbuf n i = some (b, fin)) :
    ∃ ch, i < d.length ∧ b = d.set i ch ∧ (if n ≤ i + 1 then ch = 0 else kbuf[i]? = some ch) := by
  unfold strscpyByte at hb
  split at hb
  · rename_i hroom
    obtain ⟨d', hd', hpair⟩ := Option.map_eq_some_iff.mp hb
    obtain ⟨hi, rfl⟩ := poke_eq_some.mp hd'
    cases hpair
    exact ⟨0, hi, rfl, by rw [if_pos hroom]⟩
  · rename_i hroom
    obtain ⟨ch, hch, hmap⟩ := Option.bind_eq_some_iff.mp hb
    obtain ⟨d', hd', hpair⟩ := Option.map_eq_some_iff.mp hmap
    obtain ⟨hi, rfl⟩ := poke_eq_some.mp hd'
    cases hpair
    exact ⟨ch, hi, rfl, by rw [if_neg hroom]; exact hch⟩

/-- The first byte of a text that is stored is NUL exactly if it is the only one. -/
theorem head_of_first {d : Buf} (htext : IsText kbuf)
    (hb : strscpyByte d kbuf (storeSize kbuf) 0 = some (b, fin)) :
    b.head? = some 0 ↔ kbuf.length = 1 := by
  obtain ⟨ch, hlen, rfl, hch⟩ := set_of_strscpyByte hb
  have hsize : storeSize kbuf ≤ 0 + 1 ↔ kbuf.length = 1 := by
    have hpos := htext.pos
    rw [Mutex.storeSize_eq, maxBytes]
    omega
  have hhead : (d.set 0 ch).head? = some ch := by
    rw [List.head?_eq_getElem?, List.getElem?_set_self hlen]
  rw [hhead, Option.some.injEq, ← hsize]
  split at hch
  · rename_i hroom
    exact iff_of_true hch hroom
  · rename_i hroom
    refine iff_of_false (fun h0 => htext.first ?_) hroom
    rw [List.head?_eq_getElem?, hch, h0]

/-- Any other leaves the first byte of the array as it is. -/
theorem head_of_later {d : Buf} {n : Nat}
    (hb : strscpyByte d kbuf n (i + 1) = some (b, fin)) : b.head? = d.head? := by
  obtain ⟨ch, -, rfl, -⟩ := set_of_strscpyByte hb
  rw [List.head?_eq_getElem?, List.getElem?_set_ne (Nat.succ_ne_zero i), List.head?_eq_getElem?]

theorem storeSize_ne_zero (h : IsText kbuf) : storeSize kbuf ≠ 0 := by
  have hpos := h.pos
  rw [Mutex.storeSize_eq, maxBytes]
  omega

/-- A byte of a store, with what it leaves of the string. -/
theorem Sealed.empty_iff (hs : Sealed s.ctx)
    (hb : strscpyByte s.ctx.oursecret kbuf (storeSize kbuf) i = some (b, fin)) :
    cstr b = [] ↔ b.head? = some 0 :=
  cstr_eq_nil_iff (hs.storeByte hb).nul

theorem Move.places (h : Move args c e s l s' l') (hs : Sealed s.ctx) (hbound : Bounded l')
    (hl : Carries l) : places.Step s.ctx l s'.ctx l' where
  store kbuf hkbuf := by
    cases h with
    | storeByte k i hn hb | storeLast k i hn hb =>
        cases i with
        | zero =>
            cases hkbuf
            exact (hs.empty_iff hb).trans (head_of_first hl hb)
        | succ i => cases hkbuf
    | storeNone k i hzero => exact absurd hzero (storeSize_ne_zero hl)
    | storeOops => exact hbound.elim
    | _ => cases hkbuf
  keep hnone := by
    cases h with
    | storeByte k i hn hb | storeLast k i hn hb =>
        cases i with
        | zero => cases hnone
        | succ i =>
            rw [cstr_eq_nil_iff hs.nul, ← head_of_later hb]
            exact hs.empty_iff hb
    | update op => cases op <;> exact Iff.rfl
    | _ => exact Iff.rfl
  measure hmeasures := by
    cases h with
    | measure count hn =>
        obtain ⟨-, rfl⟩ := strlen_eq_some.mp hn
        exact ⟨count, rfl⟩
    | overrun => exact hbound.elim
    | _ => cases hmeasures
  measured q hq := by
    cases h with
    | measure count hn =>
        obtain ⟨-, rfl⟩ := strlen_eq_some.mp hn
        cases hq
        exact .inr ⟨rfl, rfl⟩
    | readUnlock => exact .inl hq
    | _ => cases hq

end Steps

theorem available_iff_noByteBefore {n : Nat} (r : (machine args).Run n)
    (htext : r.Meets WritesText) : Available places r ↔ NoByteBefore places r := by
  have hsafe : ∀ t, t ≤ n → Safe (r.state t) := fun t ht =>
    (inductive_safe _).holds (r.reachable t ht)
  refine available_iff_of_steps Drv.ctx rfl (initCtx_ne_nil r.start.1.1) fun t ht => ?_
  refine (move_of_step (Pool.step_of_run r ht)).places (hsafe t ht.le).shared
    ((hsafe (t + 1) ht).each _).2 ?_
  exact inductive_carries.holds (r.reachableBy htext t ht.le) _

end Spin

/-! ### Both drivers -/

/-- **In both drivers every read finds a secret, unless the last buffer stored has one byte.** -/
theorem available_iff (args : FileOp → Arg) (n : Nat) :
    (∀ r : (Mutex.machine args).Run n, r.Meets Mutex.WritesText →
      (Available Mutex.places r ↔ NoByteBefore Mutex.places r)) ∧
    ∀ r : (Spin.machine args).Run n, r.Meets Spin.WritesText →
      (Available Spin.places r ↔ NoByteBefore Spin.places r) :=
  ⟨Mutex.available_iff_noByteBefore, Spin.available_iff_noByteBefore⟩

/-- In both a string is written and then read. -/
theorem available_runs :
    Available Mutex.places Mutex.writeReadRun ∧ Available Spin.places Spin.inTurnRun :=
  ⟨((available_iff _ _).1 Mutex.writeReadRun (by unfold Machine.Run.Meets; decide +kernel)).mpr
      (noByteBefore_of_meets (by unfold Machine.Run.Meets; decide +kernel)),
    ((available_iff _ _).2 Spin.inTurnRun (by unfold Machine.Run.Meets; decide +kernel)).mpr
      (noByteBefore_of_meets (by unfold Machine.Run.Meets; decide +kernel))⟩

/-- `"A"` is written without its terminator, and then there is a read. -/
def Mutex.byteRun (args : FileOp → Arg) : (Mutex.machine args).Run 7 :=
  .ofActs pool0 ((writeRead [65]).take 7) machine_init (by
    revert args
    decide +kernel)

theorem Mutex.byteRun_measures (args : FileOp → Arg) :
    (byteRun args).Meets WritesText ∧ ((byteRun args).state 7).call 1 = .readLen 128 0 := by
  unfold Machine.Run.Meets
  revert args
  decide +kernel

/-- The same with two locks. -/
def Spin.byteRun (args : FileOp → Arg) : (Spin.machine args).Run 15 :=
  .ofActs pool0 ((1, .call (.write [65])) :: steps 1 10 ++ (0, .call (.read 128)) :: steps 0 3)
    machine_init (by
      revert args
      decide +kernel)

theorem Spin.byteRun_measures (args : FileOp → Arg) :
    (byteRun args).Meets WritesText ∧ ((byteRun args).state 15).call 0 = .readLen 128 0 := by
  unfold Machine.Run.Meets
  revert args
  decide +kernel

/-- In both drivers the read measures 0. -/
theorem not_available :
    (¬ ∃ args, ∀ n (r : (Mutex.machine args).Run n),
      r.Meets Mutex.WritesText → Available Mutex.places r) ∧
    ¬ ∃ args, ∀ n (r : (Spin.machine args).Run n),
      r.Meets Spin.WritesText → Available Spin.places r := by
  constructor
  · intro h
    obtain ⟨args, h⟩ := h
    obtain ⟨htext, hplace⟩ := Mutex.byteRun_measures args
    have hread := h 7 (Mutex.byteRun args) htext
    exact absurd (hread.positive 7 (by decide) 1 128 0 (by rw [hplace]; rfl)) (by decide)
  · intro h
    obtain ⟨args, h⟩ := h
    obtain ⟨htext, hplace⟩ := Spin.byteRun_measures args
    have hread := h 15 (Spin.byteRun args) htext
    exact absurd (hread.positive 15 (by decide) 0 128 0 (by rw [hplace]; rfl)) (by decide)

end Lkp.Secret
