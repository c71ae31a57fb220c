/-
The module that shows `vmalloc` and its relatives.

`kvmalloc` takes the memory from the slab or from vmalloc space, as it sees fit, and
`kcalloc` always from the slab.  Exit releases both with `kvfree`.  The labels of
`vmalloc_try` use `vfree` for them, which is for vmalloc space only.  So what is allocated
is released as it should be only where neither `kcalloc` nor what follows it is the
allocation that fails (`disciplined_iff`).
-/
import Lkp.Kernel.Basic
import Lkp.Memory.Vars

namespace Lkp.Vmalloc

/-- Where a block of memory lies. -/
inductive Kind
  | slab
  | vmalloc
  deriving DecidableEq

/-- A block, with its size in bytes. -/
structure Block where
  kind : Kind
  bytes : Nat
  deriving DecidableEq

/-- The pointers of the module. -/
inductive Var
  | vptrRndm
  | vptrInit
  | kv
  | kvarr
  | vrx
  deriving DecidableEq

/-- The functions that release. -/
inductive Free
  | vfree
  | kvfree
  deriving DecidableEq

/-- The blocks a function is valid for. -/
def Free.takes : Free → Block → Bool
  | .vfree, b => decide (b.kind = .vmalloc)
  | .kvfree, _ => true

/-- A call that releases what a pointer points to. -/
abbrev Call := Free × Var

/-- The memory and the pointers, and the calls made so far. -/
structure Drv extends Vars Var Block where
  calls : List Call

/-- The kernel: whether it is older than 5.8, and the logarithm of its `PAGE_SIZE`. -/
structure Kernel where
  old : Bool
  pageShift : Nat

/-- How the five allocations end.  What `kvmalloc` gives may be of either kind. -/
structure Outcome where
  vmalloc : Bool
  vzalloc : Bool
  kvmalloc : Option Kind
  kcalloc : Bool
  vmallocRo : Bool

/-- `KVN_MIN_BYTES` -/
def KVN_MIN_BYTES : Nat := 16

/-- `DISP_BYTES` -/
def DISP_BYTES : Nat := 16

/-- The labels, each with the calls from there to the end. -/
def errOut1 : List Call := []
def errOut2 : List Call := (.vfree, .vptrRndm) :: errOut1
def errOut3 : List Call := (.vfree, .vptrInit) :: errOut2
def errOut4 : List Call := (.vfree, .kv) :: errOut3
def errOut5 : List Call := (.vfree, .kvarr) :: errOut4

/-- The calls of `vmalloc_demo_exit`. -/
def exitCalls (kernel : Kernel) : List Call :=
  (if kernel.old then [(.vfree, .vrx)] else []) ++
    [(.kvfree, .kvarr), (.kvfree, .kv), (.vfree, .vptrInit), (.vfree, .vptrRndm)]

/-- Make the calls. -/
def Drv.make (s : Drv) (cs : List Call) : Option Drv :=
  (Ledger.putAll (s.releases Free.takes cs) s.mem).map fun m =>
    { s with mem := m, calls := s.calls ++ cs }

/-- `print_hex_dump_bytes` of the first bytes of what `v` points to: they have to be there. -/
def Drv.Shows (s : Drv) (v : Var) (disp : Nat) : Bool :=
  (s.ptr v).any fun o => (s.mem.heap.obj o).any fun b => decide (disp ≤ b.bytes)

/-- Allocate into `v`.  A failure goes to the label, and what is allocated is shown. -/
def tryStep (v : Var) (b : Option Block) (label : List Call) (disp : Nat)
    (next : Drv → Option (Int × Drv)) (s : Drv) : Option (Int × Drv) :=
  let t : Drv := { s with toVars := s.get v b }
  if t.ptr v = none then (t.make label).map fun u => (-ENOMEM, u)
  else if t.Shows v disp then next t else none

/-- `return 0` -/
def success (s : Drv) : Option (Int × Drv) := some (0, s)

/-- A block, if the allocation goes well. -/
def block (ok : Bool) (kind : Kind) (bytes : Nat) : Option Block :=
  if ok then some { kind := kind, bytes := bytes } else none

/-- The end of `vmalloc_try`, from `5. __vmalloc()` on: only an old kernel does that. -/
def tryFrom5 (kernel : Kernel) (out : Outcome) : Drv → Option (Int × Drv) :=
  if kernel.old then
    tryStep .vrx (block out.vmallocRo .vmalloc (42 * 2 ^ kernel.pageShift)) errOut5 DISP_BYTES
      success
  else success

/-- From `4. kcalloc()` on. -/
def tryFrom4 (kernel : Kernel) (out : Outcome) : Drv → Option (Int × Drv) :=
  tryStep .kvarr (block out.kcalloc .slab (1000 * 8)) errOut4 DISP_BYTES (tryFrom5 kernel out)

/-- From `3. kvmalloc()` on. -/
def tryFrom3 (kernel : Kernel) (kvnum : BitVec 32) (out : Outcome) : Drv → Option (Int × Drv) :=
  tryStep .kv (out.kvmalloc.map fun kind => { kind := kind, bytes := kvnum.toNat }) errOut3
    KVN_MIN_BYTES (tryFrom4 kernel out)

/-- `vmalloc_try` -/
def vmallocTry (kernel : Kernel) (kvnum : BitVec 32) (out : Outcome) :
    Drv → Option (Int × Drv) :=
  tryStep .vptrRndm (block out.vmalloc .vmalloc 10000) errOut1 DISP_BYTES <|
  tryStep .vptrInit (block out.vzalloc .vmalloc 10000) errOut2 DISP_BYTES <|
  tryFrom3 kernel kvnum out

/-- `vmalloc_demo_init` -/
def vmallocDemoInit (kernel : Kernel) (kvnum : BitVec 32) (out : Outcome) (s : Drv) :
    Option (Int × Drv) :=
  if kvnum.toInt < KVN_MIN_BYTES then some (-EINVAL, s) else vmallocTry kernel kvnum out s

/-- `vmalloc_demo_exit` -/
def vmallocDemoExit (kernel : Kernel) (s : Drv) : Option Drv := s.make (exitCalls kernel)

/-- The module is loaded. -/
structure Loaded (s : Drv) : Prop where
  heap : s.mem.heap.WF
  calls : s.calls = []

/--
What was allocated is released, each block once: by exit after init went well, and otherwise
by init itself, which releases each pointer with the function that exit has for it.
-/
structure Disciplined (kernel : Kernel) (s : Drv) (ret : Int) (s' : Drv) : Prop where
  failed : ret ≠ 0 → Ledger.GaveBack s.mem s.mem s'.mem (Vars.obtained s.mem s'.mem)
  same : ret ≠ 0 → ∀ c ∈ s'.calls, c ∈ exitCalls kernel
  exit : ret = 0 → ∃ s'', vmallocDemoExit kernel s' = some s'' ∧
    Ledger.GaveBack s.mem s.mem s''.mem (Vars.obtained s.mem s'.mem)

variable {kernel : Kernel} {kvnum : BitVec 32} {out : Outcome} {s t : Drv}
  {obs : List (Var × Block)}

/-- `t` has made no calls, and has got the blocks `obs` since `s`. -/
structure Has (s : Drv) (obs : List (Var × Block)) (t : Drv) : Prop where
  got : Vars.Got s.mem obs t.toVars
  calls : t.calls = []

namespace Has

theorem start (hs : Loaded s) : Has s [] s := ⟨.start, hs.calls⟩

/-- An allocation that fails makes the calls of its label. -/
theorem tryStep_none (h : Has s obs t) {v : Var} {label : List Call} {disp : Nat}
    {next : Drv → Option (Int × Drv)} (hv : v ∉ obs.map Prod.fst) :
    ∃ u, Has s obs u ∧
      tryStep v none label disp next t = (u.make label).map fun u => (-ENOMEM, u) :=
  ⟨{ t with toVars := t.get v none }, ⟨h.got.get_none hv, h.calls⟩,
    if_pos (Function.update_self ..)⟩

/-- One that goes well goes on, with a block more. -/
theorem tryStep_some (h : Has s obs t) (hs : Loaded s) {v : Var} {b : Block}
    {label : List Call} {disp : Nat} {next : Drv → Option (Int × Drv)}
    (hv : v ∉ obs.map Prod.fst) (hb : disp ≤ b.bytes) :
    ∃ u, Has s (obs ++ [(v, b)]) u ∧ tryStep v (some b) label disp next t = next u := by
  have hgot := h.got.get_some hv b
  refine ⟨{ t with toVars := t.get v (some b) }, ⟨hgot, h.calls⟩, ?_⟩
  obtain ⟨o, ho, hobj⟩ := hgot.obj hs.heap (List.mem_append_right _ (List.mem_singleton_self _))
  have hshows : Drv.Shows { t with toVars := t.get v (some b) } v disp = true := by
    rw [Drv.Shows, ho, Option.any_some, hobj, Option.any_some]
    exact decide_eq_true hb
  rw [tryStep, if_neg (by rw [ho]; exact Option.some_ne_none o), if_pos hshows]

/-- Calls that name every pointer once, with a function for its block, give back everything. -/
theorem make (h : Has s obs t) (hs : Loaded s) {cs : List Call}
    (hperm : (cs.map Prod.snd).Perm (obs.map Prod.fst))
    (htakes : ∀ c ∈ cs, ∀ b, (c.2, b) ∈ obs → c.1.takes b = true) :
    ∃ u, t.make cs = some u ∧ u.calls = cs ∧
      Ledger.GaveBack s.mem s.mem u.mem (Vars.obtained s.mem u.mem) ∧
      Vars.obtained s.mem t.mem = Vars.obtained s.mem u.mem := by
  obtain ⟨m, hput, hgave⟩ := h.got.putAll hs.heap hperm htakes
  refine ⟨_, by rw [Drv.make, hput, Option.map_some], by rw [h.calls, List.nil_append], hgave, ?_⟩
  obtain ⟨-, rfl⟩ := Ledger.putAll_eq_some_iff.mp hput
  rw [Vars.obtained, Vars.obtained, Ledger.brk_release]

/-- A failure whose label treats the pointers as exit does is in order. -/
theorem failed (h : Has s obs t) (hs : Loaded s) {label : List Call}
    (hperm : (label.map Prod.snd).Perm (obs.map Prod.fst))
    (htakes : ∀ c ∈ label, ∀ b, (c.2, b) ∈ obs → c.1.takes b = true)
    (hsame : ∀ c ∈ label, c ∈ exitCalls kernel) :
    ∃ ret s', ((t.make label).map fun u => (-ENOMEM, u)) = some (ret, s') ∧
      Disciplined kernel s ret s' := by
  obtain ⟨u, hmake, hcalls, hgave, -⟩ := h.make hs hperm htakes
  refine ⟨-ENOMEM, u, by rw [hmake, Option.map_some], fun _ => hgave, fun _ => ?_, fun hret => ?_⟩
  · rw [hcalls]
    exact hsame
  · exact absurd hret (by decide)

/-- A label that treats some pointer otherwise is not. -/
theorem not_failed (h : Has s obs t) {label : List Call}
    (hother : ∃ c ∈ label, c ∉ exitCalls kernel) :
    ¬ ∃ ret s', ((t.make label).map fun u => (-ENOMEM, u)) = some (ret, s') ∧
      Disciplined kernel s ret s' := by
  intro hex
  obtain ⟨ret, s', hrun, hdisc⟩ := hex
  obtain ⟨u, hmake, heq⟩ := Option.map_eq_some_iff.mp hrun
  obtain ⟨m, -, rfl⟩ := Option.map_eq_some_iff.mp hmake
  obtain ⟨rfl, rfl⟩ := Prod.mk.inj heq
  obtain ⟨c, hc, hnot⟩ := hother
  refine hnot (hdisc.same (by decide) c ?_)
  rw [h.calls, List.nil_append]
  exact hc

/-- After success exit releases everything. -/
theorem succeeded (h : Has s obs t) (hs : Loaded s)
    (hperm : ((exitCalls kernel).map Prod.snd).Perm (obs.map Prod.fst))
    (htakes : ∀ c ∈ exitCalls kernel, ∀ b, (c.2, b) ∈ obs → c.1.takes b = true) :
    ∃ ret s', success t = some (ret, s') ∧ Disciplined kernel s ret s' := by
  obtain ⟨u, hmake, -, hgave, hsame⟩ := h.make hs hperm htakes
  refine ⟨0, t, rfl, fun hret => absurd rfl hret, fun hret => absurd rfl hret, fun _ => ?_⟩
  exact ⟨u, hmake, hsame ▸ hgave⟩

end Has

/-- The blocks, as they are got one after another. -/
def got1 : List (Var × Block) := [(.vptrRndm, { kind := .vmalloc, bytes := 10000 })]
def got2 : List (Var × Block) := got1 ++ [(.vptrInit, { kind := .vmalloc, bytes := 10000 })]
def got3 (kind : Kind) (kvnum : BitVec 32) : List (Var × Block) :=
  got2 ++ [(.kv, { kind := kind, bytes := kvnum.toNat })]
def got4 (kind : Kind) (kvnum : BitVec 32) : List (Var × Block) :=
  got3 kind kvnum ++ [(.kvarr, { kind := .slab, bytes := 1000 * 8 })]
def got5 (kind : Kind) (kvnum : BitVec 32) (pageShift : Nat) : List (Var × Block) :=
  got4 kind kvnum ++ [(.vrx, { kind := .vmalloc, bytes := 42 * 2 ^ pageShift })]

/-- Only the blocks of `kv` and `kvarr` may lie elsewhere than in vmalloc space. -/
theorem kind_of_mem_got5 {kind : Kind} {pageShift : Nat} {v : Var} {b : Block}
    (h : (v, b) ∈ got5 kind kvnum pageShift) : v = .kv ∨ v = .kvarr ∨ b.kind = .vmalloc := by
  simp only [got5, got4, got3, got2, got1, List.mem_append, List.mem_singleton,
    Prod.mk.injEq] at h
  rcases h with (((⟨-, rfl⟩ | ⟨-, rfl⟩) | ⟨rfl, -⟩) | ⟨rfl, -⟩) | ⟨-, rfl⟩
  · exact .inr (.inr rfl)
  · exact .inr (.inr rfl)
  · exact .inl rfl
  · exact .inr (.inl rfl)
  · exact .inr (.inr rfl)

/-- Those exit releases with `kvfree`. -/
theorem kvfree_of_mem_exitCalls {c : Call} (h : c ∈ exitCalls kernel)
    (hvar : c.2 = .kv ∨ c.2 = .kvarr) : c.1 = .kvfree := by
  obtain ⟨f, v⟩ := c
  unfold exitCalls at h
  rcases hvar with rfl | rfl
  · split at h <;> simpa using h
  · split at h <;> simpa using h

/-- So exit has the right function for every block. -/
theorem exitCalls_takes {kind : Kind} (pageShift : Nat) :
    ∀ c ∈ exitCalls kernel, ∀ b, (c.2, b) ∈ got5 kind kvnum pageShift → c.1.takes b = true := by
  intro c hc b hb
  rcases kind_of_mem_got5 hb with hkv | hkvarr | hkind
  · rw [kvfree_of_mem_exitCalls hc (.inl hkv), Free.takes]
  · rw [kvfree_of_mem_exitCalls hc (.inr hkvarr), Free.takes]
  · cases hfree : c.1 with
    | vfree => exact decide_eq_true hkind
    | kvfree => rfl

/-- The last allocation, on an old kernel, and the end. -/
theorem tryFrom5_iff (hs : Loaded s) {kind : Kind} (h : Has s (got4 kind kvnum) t) :
    (∃ ret s', tryFrom5 kernel out t = some (ret, s') ∧ Disciplined kernel s ret s') ↔
      (kernel.old = true → out.vmallocRo = true) := by
  unfold tryFrom5
  by_cases hold : kernel.old = true
  · rw [if_pos hold]
    by_cases hok : out.vmallocRo = true
    · have hshown : DISP_BYTES ≤ 42 * 2 ^ kernel.pageShift := by
        have hpage := Nat.one_le_two_pow (n := kernel.pageShift)
        unfold DISP_BYTES
        omega
      obtain ⟨u, hu, hrun⟩ := h.tryStep_some hs (v := .vrx)
        (b := { kind := .vmalloc, bytes := 42 * 2 ^ kernel.pageShift })
        (by simp [got4, got3, got2, got1]) hshown
      rw [block, if_pos hok, hrun]
      refine iff_of_true (hu.succeeded hs ?_ (exitCalls_takes _)) fun _ => hok
      rw [exitCalls, if_pos hold]
      simp only [got4, got3, got2, got1, List.map_cons, List.map_nil, List.cons_append,
        List.nil_append]
      decide
    · obtain ⟨u, hu, hrun⟩ := h.tryStep_none (v := .vrx) (by simp [got4, got3, got2, got1])
      rw [block, if_neg hok, hrun]
      refine iff_of_false (hu.not_failed ⟨(.vfree, .kv), by decide, ?_⟩) fun hall => hok (hall hold)
      rw [exitCalls, if_pos hold]
      decide
  · rw [if_neg hold]
    refine iff_of_true (h.succeeded hs ?_ fun c hc b hb => ?_) fun hold' => absurd hold' hold
    · rw [exitCalls, if_neg hold]
      simp only [got4, got3, got2, got1, List.map_cons, List.map_nil, List.cons_append,
        List.nil_append]
      decide
    · exact exitCalls_takes 0 c hc b (List.mem_append_left _ hb)

/-- `kcalloc`, and what follows it. -/
theorem tryFrom4_iff (hs : Loaded s) {kind : Kind} (h : Has s (got3 kind kvnum) t) :
    (∃ ret s', tryFrom4 kernel out t = some (ret, s') ∧ Disciplined kernel s ret s') ↔
      out.kcalloc = true ∧ (kernel.old = true → out.vmallocRo = true) := by
  unfold tryFrom4
  by_cases hok : out.kcalloc = true
  · have hshown : DISP_BYTES ≤ 1000 * 8 := by decide
    obtain ⟨u, hu, hrun⟩ := h.tryStep_some hs (v := .kvarr)
      (b := { kind := .slab, bytes := 1000 * 8 }) (by simp [got3, got2, got1]) hshown
    rw [block, if_pos hok, hrun, tryFrom5_iff hs hu, and_iff_right hok]
  · obtain ⟨u, hu, hrun⟩ := h.tryStep_none (v := .kvarr) (by simp [got3, got2, got1])
    rw [block, if_neg hok, hrun]
    refine iff_of_false (hu.not_failed ⟨(.vfree, .kv), by decide, ?_⟩) fun hall => hok hall.1
    unfold exitCalls
    split <;> decide

/-- `kvmalloc`, and what follows it: before it `vfree` is right for what there is. -/
theorem tryFrom3_iff (hs : Loaded s) (hkv : KVN_MIN_BYTES ≤ kvnum.toInt) (h : Has s got2 t) :
    (∃ ret s', tryFrom3 kernel kvnum out t = some (ret, s') ∧ Disciplined kernel s ret s') ↔
      (out.kvmalloc.isSome = true →
        out.kcalloc = true ∧ (kernel.old = true → out.vmallocRo = true)) := by
  unfold tryFrom3
  cases hkind : out.kvmalloc with
  | none =>
      obtain ⟨u, hu, hrun⟩ := h.tryStep_none (v := .kv) (by decide)
      rw [Option.map_none, hrun]
      refine iff_of_true (hu.failed hs (by decide) ?_ ?_) nofun
      · simp [errOut3, errOut2, errOut1, got2, got1, Free.takes]
      · simp [errOut3, errOut2, errOut1, exitCalls]
  | some kind =>
      have hbytes : KVN_MIN_BYTES ≤ kvnum.toNat := by
        have hcond := BitVec.toInt_eq_toNat_cond kvnum
        split at hcond <;> omega
      obtain ⟨u, hu, hrun⟩ := h.tryStep_some hs (v := .kv)
        (b := { kind := kind, bytes := kvnum.toNat }) (by decide) hbytes
      rw [Option.map_some, hrun, tryFrom4_iff hs hu, Option.isSome_some, forall_prop_of_true rfl]

/-- Where the first three allocations go well, so do those that follow. -/
def LaterSucceed (kernel : Kernel) (out : Outcome) : Prop :=
  out.vmalloc = true → out.vzalloc = true → out.kvmalloc.isSome = true →
    out.kcalloc = true ∧ (kernel.old = true → out.vmallocRo = true)

/-- **The discipline is kept unless `kcalloc`, or `__vmalloc` after it, fails.** -/
theorem disciplined_iff (hs : Loaded s) (hkv : KVN_MIN_BYTES ≤ kvnum.toInt) :
    (∃ ret s', vmallocDemoInit kernel kvnum out s = some (ret, s') ∧
        Disciplined kernel s ret s') ↔ LaterSucceed kernel out := by
  rw [vmallocDemoInit, if_neg (Int.not_lt.mpr hkv), vmallocTry, LaterSucceed]
  have hstart := Has.start hs
  have hshown : DISP_BYTES ≤ 10000 := by decide
  by_cases hvmalloc : out.vmalloc = true
  · obtain ⟨t1, h1, hrun⟩ := hstart.tryStep_some hs (v := .vptrRndm)
      (b := { kind := .vmalloc, bytes := 10000 }) List.not_mem_nil hshown
    rw [block, if_pos hvmalloc, hrun, forall_prop_of_true hvmalloc]
    by_cases hvzalloc : out.vzalloc = true
    · obtain ⟨t2, h2, hrun⟩ := h1.tryStep_some hs (v := .vptrInit)
        (b := { kind := .vmalloc, bytes := 10000 }) (by decide) hshown
      rw [block, if_pos hvzalloc, hrun, forall_prop_of_true hvzalloc]
      exact tryFrom3_iff hs hkv h2
    · obtain ⟨u, hu, hrun⟩ := h1.tryStep_none (v := .vptrInit) (by decide)
      rw [block, if_neg hvzalloc, hrun]
      refine iff_of_true (hu.failed hs (by decide) ?_ ?_) fun hok => absurd hok hvzalloc
      · simp [errOut2, errOut1, Free.takes]
      · simp [errOut2, errOut1, exitCalls]
  · obtain ⟨u, hu, hrun⟩ := hstart.tryStep_none (v := .vptrRndm) List.not_mem_nil
    rw [block, if_neg hvmalloc, hrun]
    exact iff_of_true (hu.failed hs (by decide) nofun nofun) fun hok => absurd hok hvmalloc

/-- The module as it is loaded. -/
def drv0 : Drv where
  mem := .empty
  ptr := fun _ => none
  calls := []

theorem loaded_drv0 : Loaded drv0 := ⟨.empty, rfl⟩

/-- 5 MB from vmalloc space on a new kernel, where nothing fails. -/
theorem disciplined_default : ∃ ret s',
    vmallocDemoInit ⟨false, 12⟩ 0x500000 ⟨true, true, some .vmalloc, true, true⟩ drv0 =
      some (ret, s') ∧ Disciplined ⟨false, 12⟩ drv0 ret s' :=
  (disciplined_iff loaded_drv0 (by decide)).mpr fun _ _ _ => ⟨rfl, nofun⟩

/-- `kcalloc` fails after `kvmalloc` took a page from the slab: `vfree` is called for it. -/
theorem not_disciplined : ¬ ∀ (kernel : Kernel) (kvnum : BitVec 32) (out : Outcome) (s : Drv),
    Loaded s → KVN_MIN_BYTES ≤ kvnum.toInt →
      ∃ ret s', vmallocDemoInit kernel kvnum out s = some (ret, s') ∧
        Disciplined kernel s ret s' := by
  intro h
  obtain ⟨ret, s', hinit, -⟩ := h ⟨false, 12⟩ 4096 ⟨true, true, some .slab, false, true⟩ drv0
    loaded_drv0 (by decide)
  have hundefined : (vmallocDemoInit ⟨false, 12⟩ 4096 ⟨true, true, some .slab, false, true⟩
      drv0).isSome = false := by
    decide
  rw [hinit] at hundefined
  cases hundefined

end Lkp.Vmalloc
