/-
What a traversal of the RCU list can show.

As under the reader-writer lock a write appends its three nodes one after another and holds
nothing in between, and a traversal shows the list as it was at one moment.  So the words are
the same, and what the older module can show is what this one can show, cut to what an `int`
holds (`same_shown`): traversals that no longer wait for a writer see no more, and no less.
-/
import Lkp.RcuList.Alone
import Lkp.RcuList.Snapshot
import Lkp.RwList.Shown

namespace Lkp.RcuList

/-- The calls of the module's functions, from its loading on. -/
def booted : Machine (Pool Drv Call) (Nat × Env) := Pool.machine (· = loaded) .idle step

/-- `freelist` is not called, and `kzalloc` finds memory. -/
def Plenty (_ : Pool Drv Call) (a : Nat × Env) : Prop :=
  a.2 ≠ .free ∧ ∀ clock, a.2 ≠ .run false clock

/-- A node of call number `k` of `add2tail` in a write. -/
def NodeOf (k : Nat) (nd : Node) : Prop := ∃ clock, addArgs clock k = some nd

/-- In some run, a traversal shows these nodes. -/
def Shown (ok : Pool Drv Call → Nat × Env → Prop) (nds : List Node) : Prop :=
  ∃ p c w seen, booted.ReachableBy ok p ∧ p.call c = .walkRet w seen ∧ seen.map Prod.snd = nds

theorem built_loaded : Built loaded where
  linked := ⟨rfl, List.nodup_singleton _, trivial, nofun⟩
  settled := ⟨rfl, rfl⟩
  heap := nofun
  brk := Nat.zero_lt_one
  writelock := rfl
  rcu := rfl
  base := rfl
  took := rfl

/-! ### Only such words -/

/-- A node, and the call of `add2tail` it comes from. -/
abbrev Entry := Addition Node

/-- The store that makes the old tail point to the new node adds it. -/
def record (c : Nat) (s : Drv) (l : Call) (hist : List Entry) : List Entry :=
  match l with
  | .addPublish _ rets new _ =>
      match s.heap.obj new with
      | some nd => hist ++ [{ node := new, data := nd, call := c, index := rets.length }]
      | none => hist
  | _ => hist

abbrev recorder : Machine (Pool (Drv × List Entry) Call) (Nat × Env) :=
  Pool.recorder (· = loaded) .idle step record []

/-- What a call has added. -/
def added (l : Call) : List (Nat × Nat) := numbered (retsOf l ++ [aboutToReturn l])

/-- What is known of the list in every state without `freelist`. -/
structure Fine (p : Pool Drv Call) : Prop where
  safe : Safe p
  appending : Appending p
  walking : AllWalking p

/-- What has been added, told of the list. -/
structure Tells (s : Drv) (hist : List Entry) : Prop where
  order : s.order = hist.map Addition.node
  data : ∀ en ∈ hist, s.heap.obj en.node = some en.data
  genuine : ∀ en ∈ hist, NodeOf en.index en.data

/-- What a call has added, and what it has shown. -/
structure Did (c : Nat) (hist : List Entry) (l : Call) : Prop where
  own : ofCall c hist = added l
  shown : ∀ w seen, Complete w seen l → ∃ pre, pre <+: hist ∧ seen = cells pre

section Only

variable {c d : Nat} {e : Env} {s s' : Drv} {l l' m : Call} {hist : List Entry} {seen : Seen}

/-- The list changes with one step only. -/
theorem Move.gains (h : Move c s l s' l') (hp : Placed c s l) (hl : inFreelist l = false)
    (hist : List Entry) :
    (record c s l hist = hist ∧ s'.order = s.order ∧ added l' = added l) ∨
      ∃ count rets new tail nd, l = .addPublish count rets new tail ∧ s'.heap = s.heap ∧
        s.heap.obj new = some nd ∧ s'.order = s.order ++ [new] ∧
        record c s l hist =
          hist ++ [{ node := new, data := nd, call := c, index := rets.length }] ∧
        added l' = added l ++ [(rets.length, new)] := by
  cases h with
  | publish count rets new tail =>
      obtain ⟨⟨nd, hobj⟩, -⟩ := hp.new new rfl
      refine Or.inr ⟨count, rets, new, tail, nd, rfl, rfl, hobj, rfl, by simp [record, hobj], ?_⟩
      show numbered (rets ++ [some new]) = numbered (rets ++ [none]) ++ [(rets.length, new)]
      rw [numbered_concat_none, numbered_concat_some]
  | noMem count rets nd => exact Or.inl ⟨rfl, rfl, numbered_concat_none⟩
  | unlock count rets new => exact Or.inl ⟨rfl, rfl, numbered_concat_none⟩
  | del => cases hl
  | _ => exact Or.inl ⟨rfl, rfl, rfl⟩

theorem Move.tells (h : Move c s l s' l') (hS : Shape s) (hp : Placed c s l) (hl : Wrote s l)
    (ht : Tells s hist) : Tells s' (record c s l hist) := by
  rcases h.gains hp hl.outside hist with ⟨hrec, horder, -⟩ |
    ⟨count, rets, new, tail, nd, rfl, hheap, hobj, horder, hrec, -⟩
  · rw [hrec]
    refine ⟨horder.trans ht.order, fun en hen => ?_, ht.genuine⟩
    have hmem : en.node ∈ s.order := ht.order ▸ List.mem_map_of_mem hen
    exact h.keepsObj hS hl.outside (ht.data en hen) (hp.new_ne hmem)
  · rw [hrec]
    refine ⟨?_, fun en hen => ?_, fun en hen => ?_⟩
    · rw [horder, ht.order, List.map_append]
      rfl
    · rw [hheap]
      rcases List.mem_append.mp hen with hold | hlast
      · exact ht.data en hold
      · obtain rfl := List.mem_singleton.mp hlast
        exact hobj
    · rcases List.mem_append.mp hen with hold | hlast
      · exact ht.genuine en hold
      · obtain rfl := List.mem_singleton.mp hlast
        obtain ⟨clock, nd', hargs, hobj'⟩ := hl.args
        rw [hobj] at hobj'
        cases hobj'
        exact ⟨clock, hargs⟩

theorem Move.grows (h : Move c s l s' l') (hp : Placed c s l) (hl : inFreelist l = false) :
    hist <+: record c s l hist := by
  rcases h.gains hp hl hist with ⟨hrec, -⟩ | ⟨_, _, _, _, _, -, -, -, -, hrec, -⟩
  · rw [hrec]
  · rw [hrec]
    exact List.prefix_append _ _

/-- The nodes of a list and what they hold are the list. -/
theorem eq_of_nodes (obj : Nat → Option Node) {xs ys : Seen}
    (hnodes : xs.map Prod.fst = ys.map Prod.fst) (hx : ∀ x ∈ xs, obj x.1 = some x.2)
    (hy : ∀ y ∈ ys, obj y.1 = some y.2) : xs = ys := by
  induction xs generalizing ys with
  | nil => exact (List.map_eq_nil_iff.mp hnodes.symm).symm
  | cons x xs ih =>
      cases ys with
      | nil => cases hnodes
      | cons y ys =>
          obtain ⟨hhead, htail⟩ := List.cons.inj hnodes
          have hdata : some x.2 = some y.2 := by
            rw [← hx x List.mem_cons_self, ← hy y List.mem_cons_self, hhead]
          rw [Prod.ext hhead (Option.some.inj hdata),
            ih htail (fun z hz => hx z (List.mem_cons_of_mem _ hz))
              fun z hz => hy z (List.mem_cons_of_mem _ hz)]

theorem Tells.eq_cells (ht : Tells s hist) (h : Snapshot s seen) : seen = cells hist := by
  refine eq_of_nodes s.heap.obj ?_ h.data fun x hx => ?_
  · have hnodes : seen.map Prod.fst = s.order := h.order
    rw [hnodes, ht.order]
    simp [cells]
  · obtain ⟨en, hen, rfl⟩ := List.mem_map.mp hx
    exact ht.data en hen

/-- The call that moves. -/
theorem Move.did (h : Move c s l s' l') (hS : Shape s) (hp : Placed c s l) (hl : Wrote s l)
    (hw : Walking s l) (ht : Tells s hist) (hd : Did c hist l) :
    Did c (record c s l hist) l' where
  own := by
    rcases h.gains hp hl.outside hist with ⟨hrec, -, hadded⟩ |
      ⟨_, _, _, _, _, -, -, -, -, hrec, hadded⟩
    · rw [hrec, hadded]
      exact hd.own
    · rw [hrec, hadded, ofCall_concat_self, hd.own]
  shown w seen hafter := by
    by_cases hbefore : Complete w seen l
    · obtain ⟨pre, hpre, hseen⟩ := hd.shown w seen hbefore
      exact ⟨pre, hpre.trans (h.grows hp hl.outside), hseen⟩
    · have hsnapshot := h.snapshot hS.linked hw hbefore hafter
      exact ⟨_, List.prefix_rfl, (h.tells hS hp hl ht).eq_cells hsnapshot⟩

/-- A call that stands still. -/
theorem Move.did_other (h : Move c s l s' l') (hp : Placed c s l) (hl : inFreelist l = false)
    (hne : d ≠ c) (hd : Did d hist m) : Did d (record c s l hist) m where
  own := by
    rcases h.gains hp hl hist with ⟨hrec, -⟩ | ⟨_, _, _, _, _, -, -, -, -, hrec, -⟩
    · rw [hrec]
      exact hd.own
    · rw [hrec, ofCall_concat_other hne.symm]
      exact hd.own
  shown w seen hcomplete := by
    obtain ⟨pre, hpre, hseen⟩ := hd.shown w seen hcomplete
    exact ⟨pre, hpre.trans (h.grows hp hl), hseen⟩

/-- The list, and each call. -/
abbrev Told : Pool (Drv × List Entry) Call → Prop :=
  Pool.Inv (fun s => Tells s.1 s.2) (fun c s l => Did c s.2 l) fun _ _ _ _ => True

theorem inductive_told :
    recorder.Inductive (fun q _ => Fine (Pool.map Prod.fst id q)) Told := by
  have hkept : Pool.Kept (Pool.recording record step)
      (fun q _ => Fine (Pool.map Prod.fst id q)) (fun s => Tells s.1 s.2)
      (fun c s l => Did c s.2 l) fun _ _ _ _ => True := by
    refine ⟨fun q c e s' l' hinv hok hstep => ?_, fun q c e s' l' d hinv hok hstep hne => ?_,
      fun _ _ _ _ _ _ _ _ _ _ => ⟨trivial, trivial⟩⟩
    · obtain ⟨hf, hrec⟩ := Pool.recording_eq_some.mp hstep
      rw [hrec]
      have hmove := move_of_step hf
      have hp : Placed c q.shared.1 (q.call c) := hok.safe.each c
      have hl : Wrote q.shared.1 (q.call c) := hok.appending.each c
      exact ⟨hmove.tells hok.safe.shared hp hl hinv.shared,
        hmove.did hok.safe.shared hp hl (hok.walking.each c) hinv.shared (hinv.each c)⟩
    · obtain ⟨hf, hrec⟩ := Pool.recording_eq_some.mp hstep
      rw [hrec]
      have hl : Wrote q.shared.1 (q.call c) := hok.appending.each c
      exact (move_of_step hf).did_other (hok.safe.each c) hl.outside hne (hinv.each d)
  refine hkept.invariant (fun s hs => ?_) (fun s c hs => ?_) fun _ _ => trivial
  · obtain ⟨hs, hhist⟩ := hs
    rw [hs, hhist]
    exact ⟨rfl, nofun, nofun⟩
  · rw [hs.2]
    refine ⟨rfl, ?_⟩
    rintro w seen (heq | ⟨t, heq⟩)
    · cases heq
    · cases heq

/-- With memory every `add2tail` returns a node. -/
theorem rets_of_step (h : step c e s l = some (s', l')) (hok : ∀ clock, e ≠ .run false clock) :
    Continues (retsOf l) (retsOf l') := by
  cases move_of_step h with
  | noMem count rets nd =>
      cases e with
      | run ok clock =>
          cases ok with
          | true =>
              have hplace : some (Call.addNew count rets nd s.heap.brk) =
                  some (.write count (rets ++ [none])) := congrArg (Option.map Prod.snd) h
              cases hplace
          | false => exact absurd rfl (hok clock)
      | _ => cases h
  | unlock count rets new => exact Or.inr (Or.inr ⟨new, rfl⟩)
  | callAdd | writeEnd | alloc | fill | lock | link | back | publish | tail =>
      exact Or.inr (Or.inl rfl)
  | _ => exact Or.inl rfl

theorem fine_of_booted {ok : Pool Drv Call → Nat × Env → Prop} {p : Pool Drv Call}
    (hp : booted.ReachableBy ok p) (hok : ∀ q a, ok q a → NoFreelist q a) : Fine p := by
  have hreach : machine.ReachableBy NoFreelist p :=
    (Pool.reachableBy_of_start (fun s hs => hs ▸ built_loaded) hp).weaken hok
  have hgrows := reachableBy_grows hreach
  exact ⟨(inductive_safe _).holds hgrows,
    inductive_appending.holds (hgrows.weaken fun _ _ h => h.1), inductive_walking.holds hgrows⟩

/-- What is known of a state that is reached without `freelist`. -/
theorem exists_told {ok : Pool Drv Call → Nat × Env → Prop} {p : Pool Drv Call}
    (hp : booted.ReachableBy ok p) (hok : ∀ q a, ok q a → NoFreelist q a) :
    ∃ hist, (reader 0).Told retsOf aboutToReturn p hist := by
  obtain ⟨hist, hr⟩ : ∃ hist, recorder.ReachableBy (Pool.unrecorded ok)
      (Pool.withRecord p hist) := Pool.exists_recorded hp
  have htold : Told (Pool.withRecord p hist) := by
    refine inductive_told.holds (hr.imp fun q a hq _ => fine_of_booted ?_ hok)
    exact Pool.reachableBy_unrecorded hq
  exact ⟨hist, htold.shared.genuine, fun c => (htold.each c).own,
    fun c w seen hret => (htold.each c).shown w seen (Or.inl hret)⟩

end Only

/-! ### What can be shown -/

section Shows

variable {nds : List Node}

theorem shown_plenty_iff :
    Shown Plenty nds ↔ ∃ ks, Ballot ks ∧ List.Forall₂ NodeOf ks nds := by
  have hadd : ∀ (q : Pool Drv Call) c clock l, Plenty q (c, writing 0 (fun _ => true) clock l) := by
    intro q c clock l
    cases l <;> simp [Plenty, writing]
  have hlook : ∀ (q : Pool Drv Call) c l, Plenty q (c, showing 0 l) := by
    intro q c l
    cases l <;> simp [Plenty, showing]
  have htold : ∀ p, booted.ReachableBy Plenty p →
      ∃ hist, (reader 0).Told retsOf aboutToReturn p hist :=
    fun p hp => exists_told hp fun _ _ h => h.1
  refine Reader.shows_iff_ballot appender_lawful (reader_lawful 0) hadd hlook htold
    fun p hp => Reader.none_notMem_rets rfl (fun q c e s' l' hq hok hstep => ?_) hp
  exact rets_of_step hstep hok.2

theorem shown_noFreelist_iff : Shown NoFreelist nds ↔ ∀ nd ∈ nds, ∃ k, NodeOf k nd := by
  have hadd : ∀ (q : Pool Drv Call) c oks clock l, NoFreelist q (c, writing 0 oks clock l) := by
    intro q c oks clock l
    cases l <;> simp [NoFreelist, writing]
  have hlook : ∀ (q : Pool Drv Call) c l, NoFreelist q (c, showing 0 l) := by
    intro q c l
    cases l <;> simp [NoFreelist, showing]
  have htold : ∀ p, booted.ReachableBy NoFreelist p →
      ∃ hist, (reader 0).Told retsOf aboutToReturn p hist :=
    fun p hp => exists_told hp fun _ _ h => h
  exact Reader.shows_iff_genuine appender_lawful (reader_lawful 0) hadd hlook htold

end Shows

/-! ### The two modules -/

/-- The node as the older module has it: an `int` for each of the two values. -/
def Node.narrow (nd : Node) : RwList.Node where
  ival1 := nd.ival1.setWidth 32
  ival2 := nd.ival2.setWidth 32
  letter := nd.letter

section Both

variable {k : Nat} {ks : List Nat} {nds : List RwList.Node}

theorem addArgs_narrow (clock : BitVec 64 × BitVec 64) (k : Nat) :
    RwList.addArgs clock k = (addArgs clock k).map Node.narrow := by
  rcases k with _ | _ | _ | k <;> rfl

theorem nodeOf_narrow {nd : RwList.Node} :
    RwList.NodeOf k nd ↔ ∃ wide, NodeOf k wide ∧ wide.narrow = nd := by
  constructor
  · intro h
    obtain ⟨clock, hargs⟩ := h
    rw [addArgs_narrow] at hargs
    obtain ⟨wide, hwide, hnarrow⟩ := Option.map_eq_some_iff.mp hargs
    exact ⟨wide, ⟨clock, hwide⟩, hnarrow⟩
  · intro hex
    obtain ⟨wide, ⟨clock, hargs⟩, rfl⟩ := hex
    exact ⟨clock, by rw [addArgs_narrow, hargs]; rfl⟩

/-- Nodes of the one module are nodes of the other, cut. -/
theorem forall₂_narrow :
    List.Forall₂ RwList.NodeOf ks nds ↔
      ∃ wide, List.Forall₂ NodeOf ks wide ∧ nds = wide.map Node.narrow := by
  constructor
  · intro h
    induction h with
    | nil => exact ⟨[], .nil, rfl⟩
    | cons hnd _ ih =>
        obtain ⟨nd, hof, rfl⟩ := nodeOf_narrow.mp hnd
        obtain ⟨wide, hwide, rfl⟩ := ih
        exact ⟨nd :: wide, .cons hof hwide, rfl⟩
  · intro hex
    obtain ⟨wide, hwide, rfl⟩ := hex
    exact List.forall₂_map_right_iff.mpr
      (hwide.imp fun k nd hnd => nodeOf_narrow.mpr ⟨nd, hnd, rfl⟩)

theorem genuine_narrow :
    (∀ nd ∈ nds, ∃ k, RwList.NodeOf k nd) ↔
      ∃ wide : List Node, (∀ nd ∈ wide, ∃ k, NodeOf k nd) ∧ nds = wide.map Node.narrow := by
  constructor
  · intro h
    induction nds with
    | nil => exact ⟨[], nofun, rfl⟩
    | cons nd nds ih =>
        obtain ⟨⟨k, hnd⟩, hnds⟩ := List.forall_mem_cons.mp h
        obtain ⟨nd, hof, rfl⟩ := nodeOf_narrow.mp hnd
        obtain ⟨wide, hwide, rfl⟩ := ih hnds
        exact ⟨nd :: wide, List.forall_mem_cons.mpr ⟨⟨k, hof⟩, hwide⟩, rfl⟩
  · intro hex
    obtain ⟨wide, hwide, rfl⟩ := hex
    intro nd hnd
    obtain ⟨x, hx, rfl⟩ := List.mem_map.mp hnd
    obtain ⟨k, hk⟩ := hwide x hx
    exact ⟨k, nodeOf_narrow.mpr ⟨x, hk, rfl⟩⟩

/--
**The RCU module can show what the older one can**, and nothing else, but for the upper halves
of the values: whether or not `kzalloc` may fail, a traversal under the reader-writer lock can
show certain nodes exactly if one in an RCU section can show nodes that are these when cut.
-/
theorem same_shown (nds : List RwList.Node) :
    (RwList.Shown RwList.Plenty nds ↔ ∃ wide, Shown Plenty wide ∧ nds = wide.map Node.narrow) ∧
      (RwList.Shown RwList.NoFreelist nds ↔
        ∃ wide, Shown NoFreelist wide ∧ nds = wide.map Node.narrow) := by
  rw [RwList.shown_plenty_iff, RwList.shown_noFreelist_iff]
  refine ⟨⟨fun hex => ?_, fun hex => ?_⟩, ⟨fun h => ?_, fun hex => ?_⟩⟩
  · obtain ⟨ks, hks, hnds⟩ := hex
    obtain ⟨wide, hwide, hnarrow⟩ := forall₂_narrow.mp hnds
    exact ⟨wide, shown_plenty_iff.mpr ⟨ks, hks, hwide⟩, hnarrow⟩
  · obtain ⟨wide, h, hnarrow⟩ := hex
    obtain ⟨ks, hks, hwide⟩ := shown_plenty_iff.mp h
    exact ⟨ks, hks, forall₂_narrow.mpr ⟨wide, hwide, hnarrow⟩⟩
  · obtain ⟨wide, hwide, hnarrow⟩ := genuine_narrow.mp h
    exact ⟨wide, shown_noFreelist_iff.mpr hwide, hnarrow⟩
  · obtain ⟨wide, h, hnarrow⟩ := hex
    exact genuine_narrow.mpr ⟨wide, shown_noFreelist_iff.mp h, hnarrow⟩

end Both

end Lkp.RcuList
