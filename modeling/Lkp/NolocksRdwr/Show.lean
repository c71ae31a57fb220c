/-
What a read of the driver without a lock can report.

All writers store the same values in the same order, so what the object holds is always
what it held at first with so many of the stores made (`Levelled`), and the two looks of
a read are loads at levels that do not fall.  From that follows what a read can load, in
`reader()` and in `SHOW_DATA()`: exactly the lists `loads_iff` describes.  In particular
`reader()` looks at `issue_in_l6` first, which is stored last; where it is set everything
else that is loaded is the writer's.

`SHOW_DATA()` prints values that the object held together at one moment, in every run, if
and only if its arguments are evaluated against the order of the stores (`untorn_iff`).  C
leaves their order open; in the order they are written the line can be torn.
-/
import Lkp.NolocksRdwr.Driver

namespace Lkp.NolocksRdwr

open RcuRdwr (GlobalData Field Seen readerFields readerMore writerStores firstData showFields)

/-! ### The level -/

/-- What the object holds at first, and what a writer stores. -/
def plan : Publish Field Int where
  init := firstData.get
  stores := writerStores
  nodup := by decide
  changes := by decide

theorem get_set (d : GlobalData) (f : Field) (v : Int) :
    (d.set f v).get = Function.update d.get f v := by
  funext g
  cases f <;> cases g <;> rfl

/-- How many of the stores the object shows. -/
def Drv.level (s : Drv) : Nat :=
  match s.heap.obj s.gd with
  | some d => writerStores.countP fun x => d.get x.1 = x.2
  | none => 0

/-- The object is there, and holds what it does at level `k`. -/
structure AtLevel (s : Drv) (k : Nat) : Prop where
  le : k ≤ 4
  object : ∃ d, s.heap.obj s.gd = some d ∧ d.get = plan.after k

theorem count_after : ∀ k, k ≤ 4 →
    (writerStores.countP fun x => plan.after k x.1 = x.2) = k := by decide

theorem AtLevel.level_eq {s : Drv} {k : Nat} (h : AtLevel s k) : s.level = k := by
  obtain ⟨d, hd, hget⟩ := h.object
  rw [Drv.level, hd]
  simp only [hget]
  exact count_after k h.le

/-! ### What is known of a call -/

/-- All that `reader()` loads, in order. -/
def readerOrder : List Field := [.issueInL6, .gpsLock, .lat, .longit, .alt]

/-- What `reader()` may still have on its list. -/
def readerTodos : List (List Field) :=
  [[.issueInL6, .gpsLock], [.gpsLock], [.lat, .longit, .alt], [.longit, .alt], [.alt], []]

/-- What it comes to load in all. -/
def comes (todo : List Field) : List Field :=
  if .gpsLock ∈ todo then todo ++ [.lat, .longit, .alt] else todo

/-- A call agrees with the level: what it has loaded, and what it has stored. -/
def At (args : List Field) (gd k : Nat) : Call → Prop
  | .reader _ q todo seen => q = gd ∧ todo ∈ readerTodos ∧
      seen.map Prod.fst ++ comes todo = readerOrder ∧ plan.Loaded seen k
  | .showLoad _ todo seen =>
      seen.map Prod.fst ++ todo = readerOrder ++ args ∧ plan.Loaded seen k
  | .showUse _ f todo q seen => q = gd ∧
      seen.map Prod.fst ++ f :: todo = readerOrder ++ args ∧ plan.Loaded seen k
  | .readRet _ seen => seen.map Prod.fst = readerOrder ++ args ∧ plan.Loaded seen k
  | .writerStore _ q todo => q = gd ∧ ∃ j, j ≤ k ∧ todo = writerStores.drop j
  | .writeRet _ => k = 4
  | .oops => False
  | _ => True

section Steps

variable {args : List Field} {gd k k' : Nat} {s s' : Drv} {l l' : Call}

theorem At.rise (h : At args gd k l) (hle : k ≤ k') (hk' : k' ≤ 4) : At args gd k' l := by
  cases l with
  | reader count q todo seen => exact ⟨h.1, h.2.1, h.2.2.1, h.2.2.2.rise hle⟩
  | showLoad count todo seen => exact ⟨h.1, h.2.rise hle⟩
  | showUse count f todo q seen => exact ⟨h.1, h.2.1, h.2.2.rise hle⟩
  | readRet count seen => exact ⟨h.1, h.2.rise hle⟩
  | writerStore count q todo =>
      obtain ⟨hq, j, hj, htodo⟩ := h
      exact ⟨hq, j, hj.trans hle, htodo⟩
  | writeRet count =>
      have h4 : k = 4 := h
      show k' = 4
      omega
  | idle | read | write => trivial
  | oops => exact h

/-- `gps_lock` is set, so the fields behind it are loaded too. -/
theorem comes_next {f : Field} {todo : List Field} (h : f :: todo ∈ readerTodos) :
    todo ++ readerMore f (plan.after k f) ∈ readerTodos ∧
      comes (f :: todo) = f :: comes (todo ++ readerMore f (plan.after k f)) := by
  have hgps : plan.after k .gpsLock = 1 := Publish.after_of_not_stored (by decide)
  simp only [readerTodos, List.mem_cons, List.cons.injEq, reduceCtorEq, or_false,
    List.not_mem_nil] at h
  rcases h with ⟨rfl, rfl⟩ | ⟨rfl, rfl⟩ | ⟨rfl, rfl⟩ | ⟨rfl, rfl⟩ | ⟨rfl, rfl⟩ <;>
    simp [readerMore, hgps, readerTodos, comes]

/-- The object at a pointer that is `gd`. -/
theorem AtLevel.get {q : Nat} {d : GlobalData} (h : AtLevel s k) (hq : q = s.gd)
    (hd : s.heap.obj q = some d) : d.get = plan.after k := by
  obtain ⟨d', hd', hget⟩ := h.object
  rw [hq, hd'] at hd
  cases hd
  exact hget

/-- A step leaves the level or raises it by one, and the call agrees with it. -/
theorem Move.at (h : Move args s l s' l') (hs : AtLevel s k) (hl : At args s.gd k l) :
    s'.gd = s.gd ∧ ∃ k', k ≤ k' ∧ k' ≤ k + 1 ∧ AtLevel s' k' ∧ At args s.gd k' l' := by
  have hstays : At args s.gd k l' → s' = s →
      s'.gd = s.gd ∧ ∃ k', k ≤ k' ∧ k' ≤ k + 1 ∧ AtLevel s' k' ∧ At args s.gd k' l' := by
    rintro hl' rfl
    exact ⟨rfl, k, le_refl k, Nat.le_succ k, hs, hl'⟩
  cases h with
  | callRead | callWrite => exact hstays trivial rfl
  | readGd count => exact hstays ⟨rfl, by decide, by decide, .nil k⟩ rfl
  | load count q f todo seen hd =>
      obtain ⟨hq, htodo, horder, hseen⟩ := hl
      rw [congrFun (hs.get hq hd) f] at hstays ⊢
      obtain ⟨hnext, hcomes⟩ := comes_next (k := k) htodo
      refine hstays ⟨hq, hnext, ?_, hseen.load f⟩ rfl
      rw [hcomes] at horder
      simpa using horder
  | showBegin count q seen =>
      obtain ⟨-, -, horder, hseen⟩ := hl
      refine hstays ⟨?_, hseen⟩ rfl
      rw [← horder]
      simp [comes]
  | showLoad count f todo seen => exact hstays ⟨rfl, hl.1, hl.2⟩ rfl
  | showEnd count seen => exact hstays ⟨by simpa using hl.1, hl.2⟩ rfl
  | showUse count f todo q seen hd =>
      obtain ⟨hq, horder, hseen⟩ := hl
      rw [congrFun (hs.get hq hd) f] at hstays ⊢
      exact hstays ⟨by simpa using horder, hseen.load f⟩ rfl
  | writeGd count => exact hstays ⟨rfl, 0, Nat.zero_le k, rfl⟩ rfl
  | @store count q f v todo d hd =>
      obtain ⟨hq, j, hj, hdrop⟩ := hl
      have hget := hs.get hq hd
      have hstore : plan.stores[j]? = some (f, v) := by
        have hhead := congrArg List.head? hdrop
        rw [List.head?_drop] at hhead
        exact hhead.symm
      have htail : todo = writerStores.drop (j + 1) := by
        rw [← List.tail_drop, ← hdrop]
        rfl
      have hj4 : j < 4 := (List.getElem?_eq_some_iff.mp hstore).1
      have hobj : ({ s with heap := s.heap.store q (d.set f v) } : Drv).heap.obj s.gd =
          some (d.set f v) := by
        rw [hq]
        exact Heap.store_self
      rcases Nat.eq_or_lt_of_le hj with rfl | hlt
      · -- nobody has made this store before
        refine ⟨rfl, j + 1, Nat.le_succ j, le_refl _, ⟨hj4, d.set f v, hobj, ?_⟩,
          hq, j + 1, le_refl _, htail⟩
        rw [get_set, hget, Publish.update_next hstore]
      · refine ⟨rfl, k, le_refl k, Nat.le_succ k, ⟨hs.le, d.set f v, hobj, ?_⟩,
          hq, j + 1, hlt, htail⟩
        rw [get_set, hget, Publish.update_again hstore hlt]
  | writeEnd count q =>
      obtain ⟨-, j, hj, hdrop⟩ := hl
      have hlen : 4 ≤ j := List.drop_eq_nil_iff.mp hdrop.symm
      exact hstays (Nat.le_antisymm hs.le (hlen.trans hj)) rfl
  | oops l q hq hnone =>
      have hptr : q = s.gd := by
        unfold pointer at hq
        split at hq
        · cases hq; exact hl.1
        · cases hq; exact hl.1
        · cases hq; exact hl.1
        · cases hq
      obtain ⟨d, hd, -⟩ := hs.object
      rw [hptr, hd] at hnone
      cases hnone

end Steps

/-- The object is at its level, and every call agrees with it. -/
abbrev Levelled (args : List Field) : Pool Drv Call → Prop :=
  Pool.Inv (fun s => AtLevel s s.level) (fun _ s l => At args s.gd s.level l) fun _ _ _ _ => True

theorem atLevel_drv0 : AtLevel drv0 0 :=
  ⟨by decide, firstData, rfl, (Publish.after_zero (p := plan)).symm⟩

theorem kept (args : List Field) :
    Pool.Kept (step args) (fun _ _ => True) (fun s => AtLevel s s.level)
      (fun _ s l => At args s.gd s.level l) fun _ _ _ _ => True where
  own p c e s' l' hinv _ hstep := by
    obtain ⟨hgd, k', -, -, hs', hl'⟩ := (move_of_step hstep).at hinv.shared (hinv.each c)
    rw [hs'.level_eq, hgd]
    exact ⟨hs', hl'⟩
  others p c e s' l' d hinv _ hstep _ := by
    obtain ⟨hgd, k', hle, -, hs', -⟩ := (move_of_step hstep).at hinv.shared (hinv.each c)
    rw [hs'.level_eq, hgd]
    exact (hinv.each d).rise hle hs'.le
  pair _ _ _ _ _ _ _ _ _ _ := ⟨trivial, trivial⟩

theorem inductive_levelled (args : List Field) :
    (machine args).Inductive (fun _ _ => True) (Levelled args) := by
  refine (kept args).invariant (fun s hs => ?_) (fun _ _ _ => trivial) fun _ _ => trivial
  subst hs
  exact atLevel_drv0.level_eq.symm ▸ atLevel_drv0

/-! ### What a read loads -/

/-- All that a call has loaded, in `reader()` and in `SHOW_DATA()`. -/
def loads : Call → Seen
  | .reader _ _ _ seen | .showLoad _ _ seen | .showUse _ _ _ _ seen | .readRet _ seen => seen
  | _ => []

/-- What `SHOW_DATA()` loaded of it. -/
def printed (seen : Seen) : Seen := seen.drop readerOrder.length

section Runs

variable {args : List Field} {p : Pool Drv Call} {seen : Seen} {k : Nat}

theorem levelled (hp : (machine args).Reachable p) : Levelled args p :=
  (inductive_levelled args).holds hp

theorem Move.loads {s s' : Drv} {l l' : Call} {gd : Nat} (h : Move args s l s' l')
    (hs : AtLevel s k) (hl : At args gd k l) (hgd : gd = s.gd) :
    loads l' = loads l ∨ ∃ f, loads l' = loads l ++ [(f, plan.after k f)] := by
  subst hgd
  cases h with
  | load count q f todo seen hd => exact Or.inr ⟨f, by rw [← hs.get hl.1 hd]; rfl⟩
  | showUse count f todo q seen hd => exact Or.inr ⟨f, by rw [← hs.get hl.1 hd]; rfl⟩
  | oops l q hq hnone =>
      have hmove : Move args s l s .oops := .oops l q hq hnone
      obtain ⟨-, k', -, -, -, hoops⟩ := hmove.at hs hl
      exact hoops.elim
  | _ => exact Or.inl rfl

/-- A read that begins at `i` makes its loads from then on, one after another. -/
theorem timed {n : Nat} (r : (machine args).Run n) {c i j : Nat} (hij : i ≤ j) (hj : j ≤ n)
    (hidle : (r.state i).call c = .idle) :
    plan.Timed (fun t => (r.state t).shared.level) i (loads ((r.state j).call c)) j := by
  induction j, hij using Nat.le_induction with
  | base =>
      rw [hidle]
      exact .nil
  | succ j hij ih =>
      have hnow := ih (Nat.le_of_succ_le hj)
      have hinv := levelled (r.reachable j (Nat.le_of_succ_le hj))
      obtain ⟨l', hstep, hcall⟩ := Pool.machine_next.mp (r.step j hj)
      by_cases hc : (r.act j).1 = c
      · rw [hc] at hstep hcall
        rw [Pool.call_self hcall]
        rcases (move_of_step hstep).loads hinv.shared (hinv.each c) rfl with hsame | ⟨f, hload⟩
        · rw [hsame]
          exact hnow.wait
        · rw [hload]
          exact (hnow.load f).wait
      · rw [Pool.call_other hcall (Ne.symm hc)]
        exact hnow.wait

theorem level_mono {n : Nat} (r : (machine args).Run n) {t : Nat} (ht : t < n) :
    (r.state t).shared.level ≤ (r.state (t + 1)).shared.level ∧
      (r.state (t + 1)).shared.level ≤ (r.state t).shared.level + 1 := by
  have hinv := levelled (r.reachable t ht.le)
  obtain ⟨l', hstep, -⟩ := Pool.machine_next.mp (r.step t ht)
  obtain ⟨-, k', hle, hlt, hs', -⟩ := (move_of_step hstep).at hinv.shared (hinv.each _)
  rw [hs'.level_eq]
  exact ⟨hle, hlt⟩

/-! ### All that can be loaded -/

/-- A read that has loaded `seen` and comes to load `todo` besides. -/
inductive Place (args : List Field) (gd : Nat) (seen : Seen) : List Field → Call → Prop
  | reader (count todo) (htodo : todo ∈ readerTodos) :
      Place args gd seen (comes todo ++ args) (.reader count gd todo seen)
  | show (count todo) : Place args gd seen todo (.showLoad count todo seen)

/-- A reachable state in which call 1 reads so, and call 0 writes. -/
structure Reads (args : List Field) (k : Nat) (seen : Seen) (todo : List Field)
    (p : Pool Drv Call) : Prop where
  reach : (machine args).Reachable p
  level : AtLevel p.shared k
  reads : Place args p.shared.gd seen todo (p.call 1)
  writes : ∃ count, p.call 0 = .writerStore count p.shared.gd (writerStores.drop k)

theorem Reads.read {todo todo' : List Field} {seen' : Seen} {l : Call}
    (h : Reads args k seen todo p) (hstep : readStep args p.shared (p.call 1) = some (p.shared, l))
    (hplace : Place args p.shared.gd seen' todo' l) :
    Reads args k seen' todo' { p with call := Function.update p.call 1 l } where
  reach := Pool.reachable_step (e := .run) h.reach (by
    show (readStep args p.shared (p.call 1)).or _ = _
    rw [hstep, Option.some_or])
  level := h.level
  reads := by
    show Place args p.shared.gd seen' todo' (Function.update p.call 1 l 1)
    rw [Function.update_self]
    exact hplace
  writes := h.writes

/-- The writer makes one more store. -/
theorem Reads.rise {todo : List Field} (h : Reads args k seen todo p) (hk : k < 4) :
    ∃ p', Reads args (k + 1) seen todo p' := by
  obtain ⟨count, hwrites⟩ := h.writes
  obtain ⟨d, hd, hget⟩ := h.level.object
  have hdrop : writerStores.drop k = writerStores[k] :: writerStores.drop (k + 1) :=
    List.drop_eq_getElem_cons hk
  rw [hdrop] at hwrites
  let s' : Drv := { p.shared with heap := p.shared.heap.store p.shared.gd
                                            (d.set writerStores[k].1 writerStores[k].2) }
  let l' : Call := .writerStore count p.shared.gd (writerStores.drop (k + 1))
  have hstep : step args 0 .run p.shared (p.call 0) = some (s', l') := by
    rw [hwrites]
    simp [step, readStep, writeStep, hd, s', l']
  refine ⟨_, Pool.reachable_step h.reach hstep, ⟨hk, _, Heap.store_self, ?_⟩, h.reads, count,
    Function.update_self (0 : Nat) l' p.call⟩
  rw [get_set, hget]
  exact Publish.update_next (List.getElem?_eq_getElem hk)

/-- `SHOW_DATA()` loads one field more. -/
theorem Reads.show_one {f : Field} {todo : List Field} {count : Nat}
    (h : Reads args k seen (f :: todo) p) (hcall : p.call 1 = .showLoad count (f :: todo) seen) :
    ∃ p', Reads args k (seen ++ [(f, plan.after k f)]) todo p' := by
  obtain ⟨d, hd, hget⟩ := h.level.object
  have hload : step args 1 .run p.shared (p.call 1) =
      some (p.shared, .showUse count f todo p.shared.gd seen) := by
    rw [hcall]
    rfl
  have huse : step args 1 .run p.shared
      (Function.update p.call 1 (.showUse count f todo p.shared.gd seen) 1) =
        some (p.shared, .showLoad count todo (seen ++ [(f, d.get f)])) := by
    simp [step, readStep, hd]
  refine ⟨_, Pool.reachable_step (Pool.reachable_step h.reach hload) huse, h.level, ?_, ?_⟩
  · rw [hget]
    simpa using Place.show count todo
  · simpa using h.writes

/-- `reader()` is through, and `SHOW_DATA()` begins. -/
theorem Reads.begin {count gd : Nat} (h : Reads args k seen args p)
    (hcall : p.call 1 = .reader count gd [] seen) :
    Reads args k seen args
      { p with call := Function.update p.call 1 (.showLoad count args seen) } :=
  h.read (by rw [hcall]; rfl) (.show count args)

/-- A read loads one field more. -/
theorem Reads.load {f : Field} {todo : List Field} (h : Reads args k seen (f :: todo) p) :
    ∃ p', Reads args k (seen ++ [(f, plan.after k f)]) todo p' := by
  obtain ⟨d, hd, hget⟩ := h.level.object
  have hplace := h.reads
  generalize htodo : f :: todo = all at hplace
  generalize hcall : p.call 1 = l at hplace
  cases hplace with
  | «show» count => exact h.show_one (htodo ▸ hcall)
  | reader count rest hrest =>
      cases rest with
      | nil =>
          obtain rfl : args = f :: todo := htodo.symm
          exact (h.begin hcall).show_one (Function.update_self (1 : Nat) _ p.call)
      | cons g rest =>
          obtain ⟨hnext, hcomes⟩ := comes_next (k := k) hrest
          rw [hcomes, List.cons_append, List.cons.injEq] at htodo
          obtain ⟨rfl, rfl⟩ := htodo
          refine ⟨_, h.read (l := .reader count p.shared.gd (rest ++ readerMore f (plan.after k f))
            (seen ++ [(f, plan.after k f)])) ?_ (.reader count _ hnext)⟩
          rw [hcall]
          simp [readStep, hd, hget]

theorem exists_reads_nil (args : List Field) :
    ∃ p, Reads args 0 [] (readerOrder ++ args) p := by
  let p0 : Pool Drv Call := { shared := drv0, call := fun _ => .idle }
  have hexec : ∃ p, (machine args).exec p0
      [(0, .write 0), (0, .run), (1, .read 0), (1, .run)] = some p ∧ p.shared = drv0 ∧
        p.call 0 = .writerStore 0 1 writerStores ∧ p.call 1 = .reader 0 1 readerFields [] :=
    ⟨_, rfl, rfl, rfl, rfl⟩
  obtain ⟨p, hexec, hshared, hwriter, hreader⟩ := hexec
  refine ⟨p, Machine.reachable_of_exec (.init ⟨rfl, fun _ => rfl⟩) hexec, ?_, ?_, 0, ?_⟩
  · rw [hshared]
    exact atLevel_drv0
  · rw [hreader, hshared]
    exact Place.reader 0 readerFields (by decide)
  · rw [hwriter, hshared]
    rfl

theorem exists_reads (h : plan.Loaded seen k) (hk : k ≤ 4) (todo : List Field)
    (horder : seen.map Prod.fst ++ todo = readerOrder ++ args) :
    ∃ p, Reads args k seen todo p := by
  refine h.brought_about (R := fun k seen todo => ∃ p, Reads args k seen todo p)
    (exists_reads_nil args) ?_ ?_ hk todo horder
  · rintro k seen todo ⟨p, hp⟩ hlt
    exact hp.rise hlt
  · rintro k seen f todo ⟨p, hp⟩
    exact hp.load

/-- A read that has nothing left to load returns. -/
theorem Reads.ret (h : Reads args k seen [] p) :
    ∃ p' count, (machine args).Reachable p' ∧ p'.call 1 = .readRet count seen := by
  have hplace := h.reads
  generalize htodo : ([] : List Field) = all at hplace
  generalize hcall : p.call 1 = l at hplace
  have hend : ∀ {p count}, Reads args k seen [] p → p.call 1 = .showLoad count [] seen →
      ∃ p' count, (machine args).Reachable p' ∧ p'.call 1 = .readRet count seen := by
    intro p count hp hcall
    have hret : step args 1 .run p.shared (p.call 1) = some (p.shared, .readRet count seen) := by
      rw [hcall]
      rfl
    exact ⟨_, count, Pool.reachable_step hp.reach hret, Function.update_self (1 : Nat) _ p.call⟩
  cases hplace with
  | «show» count => exact hend h (htodo ▸ hcall)
  | reader count rest hrest =>
      obtain ⟨hcomes, rfl⟩ := List.append_eq_nil_iff.mp htodo.symm
      have hrest' : rest = [] := by
        unfold comes at hcomes
        split at hcomes
        · cases (List.append_eq_nil_iff.mp hcomes).2
        · exact hcomes
      subst hrest'
      exact hend (h.begin hcall) (Function.update_self (1 : Nat) _ p.call)

theorem loads_of_ret (hp : (machine args).Reachable p) {c count : Nat}
    (hret : p.call c = .readRet count seen) : seen.map Prod.fst = readerOrder ++ args ∧
      (∀ x ∈ seen, plan.Plain x) ∧ seen.Pairwise plan.Follows := by
  have hinv := levelled hp
  have hat := hinv.each c
  rw [hret] at hat
  obtain ⟨horder, hloaded⟩ := hat
  exact ⟨horder, Publish.exists_loaded_iff.mp ⟨_, hinv.shared.le, hloaded⟩⟩

theorem exists_ret (horder : seen.map Prod.fst = readerOrder ++ args)
    (hplain : ∀ x ∈ seen, plan.Plain x) (hpair : seen.Pairwise plan.Follows) :
    ∃ p count, (machine args).Reachable p ∧ p.call 1 = .readRet count seen := by
  obtain ⟨k, hk, hloaded⟩ := Publish.exists_loaded_iff.mpr ⟨hplain, hpair⟩
  have horder' : seen.map Prod.fst ++ [] = readerOrder ++ args := by simpa using horder
  obtain ⟨p, hp⟩ := exists_reads hloaded hk [] horder'
  exact hp.ret

/--
**What a read can load**: the fields in their order, each with its first or its last value,
and after a new value whatever is stored no later than it is new.
-/
theorem loads_iff (args : List Field) (seen : Seen) :
    (∃ p c count, (machine args).Reachable p ∧ p.call c = .readRet count seen) ↔
      seen.map Prod.fst = readerOrder ++ args ∧ (∀ x ∈ seen, plan.Plain x) ∧
        seen.Pairwise plan.Follows := by
  constructor
  · rintro ⟨p, c, count, hp, hret⟩
    exact loads_of_ret hp hret
  · rintro ⟨horder, hplain, hpair⟩
    obtain ⟨p, count, hp, hret⟩ := exists_ret horder hplain hpair
    exact ⟨p, 1, count, hp, hret⟩

/-- Where `reader()` finds `issue_in_l6` set, everything a read loads is the writer's. -/
theorem current_of_issue (hp : (machine args).Reachable p) {c count : Nat}
    (hret : p.call c = .readRet count seen) (hissue : seen.head? = some (.issueInL6, 1)) :
    ∀ x ∈ seen, x.2 = plan.last x.1 := by
  obtain ⟨-, hplain, hpair⟩ := loads_of_ret hp hret
  cases seen with
  | nil => cases hissue
  | cons y seen =>
      obtain rfl : y = (.issueInL6, 1) := Option.some.inj hissue
      have hnew : plan.New (.issueInL6, 1) := ⟨by decide, by decide⟩
      intro x hx
      rcases List.mem_cons.mp hx with rfl | hlater
      · exact hnew.2
      · by_cases hstored : plan.Stored x.1
        · exact (List.pairwise_cons.mp hpair).1 x hlater hnew (Nat.le_of_lt_succ hstored)
        · rcases hplain x hx with hinit | hlast
          · rw [hinit, Publish.last_of_not_stored hstored]
          · exact hlast

/-! ### One moment -/

/-- The object holds all these values. -/
def Holds (s : Drv) (seen : Seen) : Prop :=
  ∃ d, s.heap.obj s.gd = some d ∧ ∀ x ∈ seen, x.2 = d.get x.1

/-- Whatever a read prints the object held at one moment between its call and its return. -/
def Untorn (args : List Field) : Prop :=
  ∀ (n : Nat) (r : (machine args).Run n) (c i j count : Nat) (seen : Seen), i ≤ j → j ≤ n →
    (r.state i).call c = .idle → (r.state j).call c = .readRet count seen →
    ∃ t, i ≤ t ∧ t ≤ j ∧ Holds (r.state t).shared (printed seen)

theorem map_printed (hp : (machine args).Reachable p) {c count : Nat}
    (hret : p.call c = .readRet count seen) : (printed seen).map Prod.fst = args := by
  obtain ⟨horder, -⟩ := loads_of_ret hp hret
  rw [printed, List.map_drop, horder, List.drop_left]

theorem untorn_of_against (hargs : args.Pairwise plan.Against) : Untorn args := by
  intro n r c i j count seen hij hj hidle hret
  have htimed := timed r hij hj hidle
  rw [hret] at htimed
  obtain ⟨i', hii', hprinted⟩ := htimed.drop readerOrder.length
  obtain ⟨t, hit, htj, hsnap⟩ := hprinted.exists_snapshot
    (fun s hs => (level_mono r (by omega)).1) (fun s hs => (level_mono r (by omega)).2)
    ((map_printed (r.reachable j hj) hret).symm ▸ hargs)
  obtain ⟨d, hd, hget⟩ := (levelled (r.reachable t (htj.trans hj))).shared.object
  exact ⟨t, hii'.trans hit, htj, d, hd, fun x hx => by rw [hget]; exact hsnap x hx⟩

theorem against_of_untorn (huntorn : Untorn args) : args.Pairwise plan.Against := by
  by_contra hargs
  obtain ⟨shown, hfst, hplain, hpair, htorn⟩ := Publish.exists_torn hargs
  -- `reader()` looks first, before any store
  let first : Seen := readerOrder.map fun f => (f, plan.init f)
  have hplain' : ∀ x ∈ first ++ shown, plan.Plain x := by
    intro x hx
    rcases List.mem_append.mp hx with hold | hshown
    · obtain ⟨f, -, rfl⟩ := List.mem_map.mp hold
      exact Or.inl rfl
    · exact hplain x hshown
  have hpair' : (first ++ shown).Pairwise plan.Follows := by
    refine List.pairwise_append.mpr ⟨?_, hpair, ?_⟩
    · refine List.pairwise_map.mpr (List.pairwise_of_forall fun f g hnew _ => ?_)
      exact absurd hnew.2.symm hnew.1.last_ne
    · intro x hx y _ hnew _
      obtain ⟨f, -, rfl⟩ := List.mem_map.mp hx
      exact absurd hnew.2.symm hnew.1.last_ne
  have horder : (first ++ shown).map Prod.fst = readerOrder ++ args := by
    simp [first, hfst, Function.comp_def]
  obtain ⟨p, count, hp, hret⟩ := exists_ret horder hplain' hpair'
  obtain ⟨n, r, hend⟩ := Machine.Run.exists_of_reachable hp
  have hidle : (r.state 0).call 1 = .idle := r.start.2 1
  obtain ⟨t, -, htn, d, hd, hholds⟩ := huntorn n r 1 0 n count _ (Nat.zero_le n) (le_refl n)
    hidle (by rw [hend]; exact hret)
  obtain ⟨d', hd', hget⟩ := (levelled (r.reachable t htn)).shared.object
  obtain rfl : d = d' := Option.some.inj (hd.symm.trans hd')
  refine htorn (r.state t).shared.level fun x hx => ?_
  rw [← hget]
  exact hholds x (by simpa [printed, first, readerOrder] using hx)

/--
**What is printed was all there at one moment, in every run, if and only if the arguments of
`SHOW_DATA()` are evaluated against the order of the stores.**  As they are written they are
not, and from the last one on they are.
-/
theorem untorn_iff :
    (∀ args, Untorn args ↔ args.Pairwise plan.Against) ∧
      ¬ Untorn showFields ∧ Untorn showFields.reverse := by
  refine ⟨fun args => ⟨against_of_untorn, untorn_of_against⟩, fun huntorn => ?_, ?_⟩
  · exact absurd (against_of_untorn huntorn) (by decide)
  · exact untorn_of_against (by decide)

/--
**A read that begins after a write has returned sees what was written**, in `reader()` and
in `SHOW_DATA()`, whatever other reads and writes are under way.
-/
theorem current_after_write {n : Nat} (r : (machine args).Run n) {w c i j countW count : Nat}
    (hij : i ≤ j) (hj : j ≤ n) (hwrite : (r.state i).call w = .writeRet countW)
    (hidle : (r.state i).call c = .idle) (hret : (r.state j).call c = .readRet count seen) :
    ∀ x ∈ seen, x.2 = plan.last x.1 := by
  have htimed := timed r hij hj hidle
  rw [hret] at htimed
  have htop : (r.state i).shared.level = 4 := by
    have hat := (levelled (r.reachable i (hij.trans hj))).each w
    rw [hwrite] at hat
    exact hat
  refine htimed.eq_last fun t hit htj => ?_
  refine r.stays (P := fun p => p.shared.level = 4) hit (htj.trans hj) ?_ htop
  intro k _ hk hlevel
  have hmono := (level_mono r (by omega : k < n)).1
  have hle := (levelled (r.reachable (k + 1) (by omega))).shared.le
  omega

end Runs

/-- What both looks load of the data a writer leaves. -/
def written : Seen := (readerOrder ++ showFields).map fun f => (f, plan.last f)

/-- Call 0 has written when call 1 reads, and call 2 is between its stores all the while. -/
def beside : List (Nat × Env) :=
  (2, .write 4) :: List.replicate 2 (2, .run) ++ (0, .write 8) :: List.replicate 6 (0, .run) ++
    (1, .read 8) :: List.replicate 5 (1, .run) ++ List.replicate 2 (2, .run) ++
    List.replicate 6 (1, .run) ++ List.replicate 2 (2, .run) ++ List.replicate 7 (1, .run)

def besideRun : (machine showFields).Run 33 :=
  .ofActs { shared := drv0, call := fun _ => .idle } beside ⟨rfl, fun _ => rfl⟩ (by decide +kernel)

theorem besideRun_ret : (besideRun.state 33).call 1 = .readRet 8 written := by decide +kernel

theorem current_after_write_besideRun :
    (besideRun.state 33).call 1 = .readRet 8 written ∧ ∀ x ∈ written, x.2 = plan.last x.1 :=
  ⟨besideRun_ret, current_after_write besideRun (i := 10) (w := 0) (by decide) (by decide)
    (by decide +kernel : _ = Call.writeRet 8) (by decide +kernel) besideRun_ret⟩

/-- Call 0 has set `issue_in_l6` and not returned when call 1 reads, and call 2 has begun. -/
def midway : List (Nat × Env) :=
  (0, .write 8) :: List.replicate 5 (0, .run) ++ (2, .write 4) :: List.replicate 2 (2, .run) ++
    (1, .read 8) :: List.replicate 9 (1, .run) ++ [(0, .run), (2, .run)] ++
    List.replicate 9 (1, .run)

def midwayRun : (machine showFields).Run 30 :=
  .ofActs { shared := drv0, call := fun _ => .idle } midway ⟨rfl, fun _ => rfl⟩ (by decide +kernel)

theorem midwayRun_ret : (midwayRun.state 30).call 1 = .readRet 8 written := by decide +kernel

theorem current_of_issue_midwayRun :
    (midwayRun.state 30).call 1 = .readRet 8 written ∧ ∀ x ∈ written, x.2 = plan.last x.1 :=
  ⟨midwayRun_ret, current_of_issue (midwayRun.reachable 30 (by decide)) midwayRun_ret (by decide)⟩

end Lkp.NolocksRdwr
