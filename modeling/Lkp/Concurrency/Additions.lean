/-
Calls that add to a list, each of them several times and in its own order.

A call attempts one addition after another.  Those that succeed are told from what its
attempts have come to (`numbered`), and they are what the list has from it (`ofCall`).
Where every attempt succeeds the calls are counters advanced side by side, and every ballot
word can be brought about (`exists_of_ballot`); where attempts may fail, a call for each
addition will do (`exists_of_calls`).

So what the readers of a driver can show while its calls append is told by whether there is
always memory: ballot words if there is (`shows_iff_ballot`), any data if there need not be
(`shows_iff_genuine`).
-/
import Lkp.Concurrency.Appends
import Lkp.Concurrency.Counters

namespace Lkp

/-! ### Attempts -/

section Attempts

variable {α : Type*} {rets : List (Option α)} {x : α}

/-- The attempts that have come to something, with their numbers. -/
def numbered (rets : List (Option α)) : List (Nat × α) :=
  rets.zipIdx.filterMap fun x => x.1.map fun new => (x.2, new)

theorem numbered_concat_none : numbered (rets ++ [none]) = numbered rets := by
  simp [numbered, List.zipIdx_append]

theorem numbered_concat_some :
    numbered (rets ++ [some x]) = numbered rets ++ [(rets.length, x)] := by
  simp [numbered, List.zipIdx_append]

/-- If all have, each number is there. -/
theorem map_numbered (h : none ∉ rets) : (numbered rets).map Prod.fst = List.range rets.length := by
  induction rets using List.reverseRecOn with
  | nil => rfl
  | append_singleton rets o ih =>
      cases o with
      | none => exact absurd (List.mem_append_right _ List.mem_cons_self) h
      | some x =>
          have hrest : none ∉ rets := fun hmem => h (List.mem_append_left _ hmem)
          rw [numbered_concat_some, List.map_append, ih hrest, List.length_append]
          exact List.range_succ.symm

/-- Attempts are forgotten or kept, or one more has come to something. -/
def Continues (rets rets' : List (Option α)) : Prop :=
  rets' = [] ∨ rets' = rets ∨ ∃ x, rets' = rets ++ [some x]

theorem Continues.none_notMem {rets' : List (Option α)} (h : Continues rets rets')
    (hrets : none ∉ rets) : none ∉ rets' := by
  rcases h with rfl | rfl | ⟨x, rfl⟩
  · exact List.not_mem_nil
  · exact hrets
  · simpa using hrets

/-- So it is when one more may be on its way. -/
theorem exists_range_of_numbered (h : none ∉ rets) (o : Option α) :
    ∃ n, (numbered (rets ++ [o])).map Prod.fst = List.range n := by
  cases o with
  | none => exact ⟨rets.length, by rw [numbered_concat_none, map_numbered h]⟩
  | some x =>
      have hall : none ∉ rets ++ [some x] := by simpa using h
      exact ⟨_, map_numbered hall⟩

end Attempts

/-! ### What has been added -/

/-- A node with its data, added by attempt `index` of call `call`. -/
structure Addition (α : Type*) where
  node : Nat
  data : α
  call : Nat
  index : Nat
  deriving DecidableEq

section Added

variable {α : Type*} {c k x : Nat} {a : α} {hist : List (Addition α)}

/-- The nodes, as a list has them. -/
def cells (hist : List (Addition α)) : List (Nat × α) := hist.map fun en => (en.node, en.data)

/-- What comes from one call. -/
def ofCall (c : Nat) (hist : List (Addition α)) : List (Nat × Nat) :=
  (hist.filter fun en => en.call = c).map fun en => (en.index, en.node)

@[simp] theorem cells_nil : cells ([] : List (Addition α)) = [] := rfl

@[simp] theorem cells_append (more : List (Addition α)) :
    cells (hist ++ more) = cells hist ++ cells more := List.map_append

theorem ofCall_concat_self :
    ofCall c (hist ++ [{ node := x, data := a, call := c, index := k }]) =
      ofCall c hist ++ [(k, x)] := by
  simp [ofCall]

theorem ofCall_concat_other {en : Addition α} (h : en.call ≠ c) :
    ofCall c (hist ++ [en]) = ofCall c hist := by
  simp [ofCall, h]

/-- Where no attempt fails, calls are counters. -/
theorem ballot_of_calls {rets : Nat → List (Option Nat)} {last : Nat → Option Nat}
    (hrets : ∀ c, none ∉ rets c) (hown : ∀ c, ofCall c hist = numbered (rets c ++ [last c]))
    {pre : List (Addition α)} (hpre : pre <+: hist) : Ballot (pre.map Addition.index) := by
  have hcounted : Counted (hist.map fun en => (en.call, en.index)) := by
    intro c
    have hnumbers : numbers c (hist.map fun en => (en.call, en.index)) =
        (ofCall c hist).map Prod.fst := by
      simp [numbers, ofCall, List.filter_map, Function.comp_def]
    rw [hnumbers, hown]
    exact exists_range_of_numbered (hrets c) _
  have hballot := (counted_before hcounted (hpre.map _)).ballot
  rwa [List.map_map] at hballot

end Added

/-! ### What can be brought about -/

namespace Pool

variable {σ κ β : Type*} {reach : Pool σ κ → Prop} {Q : σ → List β → Prop} {R : Nat → κ → Prop}
  {N : Nat → β → Prop} {idle : κ}

/-- The list is `bs`, and call `c` has made `made c` of the additions. -/
structure Stands (reach : Pool σ κ → Prop) (Q : σ → List β → Prop) (R : Nat → κ → Prop)
    (made : Nat → Nat) (bs : List β) (p : Pool σ κ) : Prop where
  reach : reach p
  list : Q p.shared bs
  ready : ∀ c, R (made c) (p.call c)

/-- Additions by any calls, one at a time. -/
theorem exists_stands {p₀ : Pool σ κ} (h₀ : Stands reach Q R (fun _ => 0) [] p₀)
    (hadd : ∀ p bs c n b, reach p → Q p.shared bs → R n (p.call c) → N n b → ∃ s' l',
      reach { shared := s', call := Function.update p.call c l' } ∧ Q s' (bs ++ [b]) ∧
        R (n + 1) l')
    (es : List ((Nat × Nat) × β)) (hes : Counted (es.map Prod.fst))
    (hN : ∀ x ∈ es, N x.1.2 x.2) :
    ∃ p, Stands reach Q R (fun c => (numbers c (es.map Prod.fst)).length) (es.map Prod.snd) p := by
  induction es using List.reverseRecOn with
  | nil => exact ⟨p₀, h₀⟩
  | append_singleton es x ih =>
      obtain ⟨⟨c, k⟩, b⟩ := x
      rw [List.map_append] at hes ⊢
      obtain ⟨hcounted, hk⟩ := counted_concat.mp hes
      obtain ⟨p, hp⟩ := ih hcounted fun x hx => hN x (List.mem_append_left _ hx)
      have hready : R k (p.call c) := by
        have hready := hp.ready c
        rwa [hk, List.length_range] at hready
      have hb : N k b := hN _ (List.mem_append_right _ List.mem_cons_self)
      obtain ⟨s', l', hreach, hlist, hnext⟩ := hadd p _ c k b hp.reach hp.list hready hb
      refine ⟨_, hreach, by rw [List.map_append]; exact hlist, fun d => ?_⟩
      show R (numbers d (es.map Prod.fst ++ [(c, k)])).length (Function.update p.call c l' d)
      by_cases hd : d = c
      · subst hd
        rw [Function.update_self, numbers_concat_self, List.length_append, hk, List.length_range]
        exact hnext
      · rw [Function.update_of_ne hd, numbers_concat_other (Ne.symm hd)]
        exact hp.ready d

/-- Every ballot word, and some call has made no addition. -/
theorem exists_of_ballot {p₀ : Pool σ κ} (h₀ : Stands reach Q R (fun _ => 0) [] p₀)
    (hadd : ∀ p bs c n b, reach p → Q p.shared bs → R n (p.call c) → N n b → ∃ s' l',
      reach { shared := s', call := Function.update p.call c l' } ∧ Q s' (bs ++ [b]) ∧
        R (n + 1) l')
    {ks : List Nat} {bs : List β} (hks : Ballot ks) (hN : List.Forall₂ N ks bs) :
    ∃ p c, reach p ∧ Q p.shared bs ∧ R 0 (p.call c) := by
  obtain ⟨hist, hcounted, rfl⟩ : ∃ hist : List (Nat × Nat), Counted hist ∧ hist.map Prod.snd = ks :=
    ballot_iff.mp hks
  obtain ⟨hlen, hall⟩ := List.forall₂_iff_zip.mp (List.forall₂_map_left_iff.mp hN)
  have hfst : (hist.zip bs).map Prod.fst = hist := List.map_fst_zip hlen.le
  have hsnd : (hist.zip bs).map Prod.snd = bs := List.map_snd_zip hlen.ge
  obtain ⟨p, hp⟩ := exists_stands h₀ hadd (hist.zip bs) (by rwa [hfst]) fun x hx => hall hx
  rw [hfst, hsnd] at hp
  obtain ⟨c, hnone⟩ := exists_numbers_nil hist
  have hready := hp.ready c
  rw [hnone] at hready
  exact ⟨p, c, hp.reach, hp.list, hready⟩

/-- A call that has made `n` attempts and stands at `place`, or that has not begun. -/
def Ready (idle : κ) (place : List (Option Nat) → κ) (n : Nat) (l : κ) : Prop :=
  (n = 0 ∧ l = idle) ∨ ∃ rets, l = place rets ∧ rets ≠ [] ∧ rets.length = n

theorem Ready.eq_idle {place : List (Option Nat) → κ} {l : κ} (h : Ready idle place 0 l) :
    l = idle := by
  rcases h with ⟨-, hidle⟩ | ⟨rets, -, hne, hlen⟩
  · exact hidle
  · exact absurd (List.length_eq_zero_iff.mp hlen) hne

/--
The next attempt of a call: from `place` a step leads to where it is made, and from there it
runs back to `place`.
-/
theorem exists_attempt {ε : Type*} {f : CallStep σ κ ε} {start : σ → Prop} {D : κ → Prop}
    {ok : Pool σ κ → Nat × ε → Prop} {place : List (Option Nat) → κ} {world : κ → ε}
    {p : Pool σ κ} {c n : Nat} {S : σ → Prop} {e : ε}
    (hp : (machine start idle f).ReachableBy ok p) (hready : Ready idle place n (p.call c))
    (hbegin : f c e p.shared idle = some (p.shared, place [])) (hok₀ : ∀ q, ok q (c, e))
    (hok : ∀ q l, ok q (c, world l))
    (hnext : ∀ rets, rets.length = n → ∃ l₁ s' o,
      f c (world (place rets)) p.shared (place rets) = some (p.shared, l₁) ∧
        Returns f D c world p.shared l₁ s' (place (rets ++ [some o])) ∧ S s') :
    ∃ s' l', (machine start idle f).ReachableBy ok
        { shared := s', call := Function.update p.call c l' } ∧
      S s' ∧ Ready idle place (n + 1) l' := by
  have hplace : ∃ rets, rets.length = n ∧ (machine start idle f).ReachableBy ok
      { shared := p.shared, call := Function.update p.call c (place rets) } := by
    rcases hready with ⟨hzero, hidle⟩ | ⟨rets, hcall, -, hlen⟩
    · rw [← hidle] at hbegin
      exact ⟨[], hzero.symm, reachableBy_step hp (hok₀ p) hbegin⟩
    · refine ⟨rets, hlen, ?_⟩
      rw [← hcall, Function.update_eq_self]
      exact hp
  obtain ⟨rets, hlen, hreach⟩ := hplace
  obtain ⟨l₁, s', o, hstep, hreturns, hs'⟩ := hnext rets hlen
  have hmade := reachableBy_step (c := c) hreach (hok _ _)
    ((congrArg _ (Function.update_self ..)).trans hstep)
  rw [Function.update_idem] at hmade
  have hdone := hreturns.reachableBy hok _ hmade rfl (Function.update_self ..)
  rw [Function.update_idem] at hdone
  refine ⟨s', _, hdone, hs', Or.inr ⟨_, rfl, by simp, ?_⟩⟩
  rw [List.length_append, hlen]
  rfl

/-- Any additions, if each can be made by a call of its own. -/
theorem exists_of_calls {P : β → Prop} {p₀ : Pool σ κ} (hreach : reach p₀) (hlist : Q p₀.shared [])
    (hidle : ∀ c, p₀.call c = idle)
    (hadd : ∀ p bs c b, reach p → Q p.shared bs → p.call c = idle → P b → ∃ s' l',
      reach { shared := s', call := Function.update p.call c l' } ∧ Q s' (bs ++ [b]))
    {bs : List β} (hbs : ∀ b ∈ bs, P b) :
    ∃ p c, reach p ∧ Q p.shared bs ∧ p.call c = idle := by
  have hall : ∃ p, reach p ∧ Q p.shared bs ∧ ∀ c, bs.length ≤ c → p.call c = idle := by
    induction bs using List.reverseRecOn with
    | nil => exact ⟨p₀, hreach, hlist, fun c _ => hidle c⟩
    | append_singleton bs b ih =>
        obtain ⟨p, hp, hq, hfree⟩ := ih fun x hx => hbs x (List.mem_append_left _ hx)
        obtain ⟨s', l', hp', hq'⟩ := hadd p bs bs.length b hp hq (hfree _ (Nat.le_refl _))
          (hbs b (List.mem_append_right _ List.mem_cons_self))
        refine ⟨_, hp', hq', fun c hc => ?_⟩
        rw [List.length_append] at hc
        have hlt : bs.length < c := hc
        exact (Function.update_of_ne hlt.ne' ..).trans (hfree c hlt.le)
  obtain ⟨p, hp, hq, hfree⟩ := hall
  exact ⟨p, bs.length, hp, hq, hfree _ (Nat.le_refl _)⟩

end Pool

/-! ### What readers can show -/

section Shows

variable {σ κ ε β τ α ω : Type*} {A : Appender σ κ ε β τ α} {R : Reader A ω} {b : β}
  {ok : Pool σ κ → Nat × ε → Prop} {p : Pool σ κ} {c n : Nat} {as : List α} {a : α}

/-- `a` may be the data of attempt `k`. -/
def Appender.NodeOf (A : Appender σ κ ε β τ α) (k : Nat) (a : α) : Prop := ∃ t, A.args t k = some a

/-- These are on the list, and no call is at work on it. -/
def Appender.Holds (A : Appender σ κ ε β τ α) (s : σ) (as : List α) : Prop :=
  ∃ l, A.quiet s l ∧ l.map Prod.snd = as

/-- The calls of the driver, any number of them at once. -/
abbrev Reader.machine (R : Reader A ω) : Machine (Pool σ κ) (Nat × ε) :=
  Pool.machine (· = R.start) A.idle A.step

/-- In some run, a reader shows these. -/
def Reader.Shows (R : Reader A ω) (ok : Pool σ κ → Nat × ε → Prop) (as : List α) : Prop :=
  ∃ p c w seen, R.machine.ReachableBy ok p ∧ p.call c = R.ret w seen ∧ seen.map Prod.snd = as

/-- What has been added, told of the calls, of which `rets` says what their attempts have come
to and `last` which is about to; and readers have shown what there was at some time. -/
structure Reader.Told (R : Reader A ω) (rets : κ → List (Option Nat)) (last : κ → Option Nat)
    (p : Pool σ κ) (hist : List (Addition α)) : Prop where
  genuine : ∀ en ∈ hist, A.NodeOf en.index en.data
  own : ∀ c, ofCall c hist = numbered (rets (p.call c) ++ [last (p.call c)])
  shown : ∀ c w seen, p.call c = R.ret w seen → ∃ pre, pre <+: hist ∧ seen = cells pre

namespace Reader

variable {rets : κ → List (Option Nat)} {last : κ → Option Nat}

/-! ### No other data, and no other words -/

theorem Shows.genuine (htold : ∀ p, R.machine.ReachableBy ok p → ∃ hist, R.Told rets last p hist)
    (h : R.Shows ok as) : ∀ a ∈ as, ∃ k, A.NodeOf k a := by
  obtain ⟨p, c, w, seen, hp, hret, rfl⟩ := h
  obtain ⟨hist, hhist⟩ := htold p hp
  obtain ⟨pre, hpre, rfl⟩ := hhist.shown c w seen hret
  intro a ha
  simp only [cells, List.map_map, List.mem_map] at ha
  obtain ⟨en, hen, rfl⟩ := ha
  exact ⟨en.index, hhist.genuine en (hpre.subset hen)⟩

/-- With memory every attempt comes to something. -/
theorem none_notMem_rets (hidle : rets A.idle = [])
    (hsteps : ∀ p c e s' l', R.machine.ReachableBy ok p → ok p (c, e) →
      A.step c e p.shared (p.call c) = some (s', l') →
        Continues (rets (p.call c)) (rets l'))
    (hp : R.machine.ReachableBy ok p) : ∀ c, none ∉ rets (p.call c) := by
  have hind : R.machine.Inductive (fun q a => ok q a ∧ R.machine.ReachableBy ok q)
      fun q => ∀ c, none ∉ rets (q.call c) := by
    refine Pool.inductive_each (P := fun l => none ∉ rets l) ?_ ?_
    · rw [hidle]
      exact List.not_mem_nil
    · intro q c e s' l' hq hstep hrets
      exact (hsteps q c e s' l' hq.2 hq.1 hstep).none_notMem hrets
  exact hind.holds (hp.imp fun q a hq hok => ⟨hok, hq⟩)

theorem Shows.ballot (htold : ∀ p, R.machine.ReachableBy ok p → ∃ hist, R.Told rets last p hist)
    (hall : ∀ p, R.machine.ReachableBy ok p → ∀ c, none ∉ rets (p.call c)) (h : R.Shows ok as) :
    ∃ ks, Ballot ks ∧ List.Forall₂ A.NodeOf ks as := by
  obtain ⟨p, c, w, seen, hp, hret, rfl⟩ := h
  obtain ⟨hist, hhist⟩ := htold p hp
  obtain ⟨pre, hpre, rfl⟩ := hhist.shown c w seen hret
  refine ⟨_, ballot_of_calls (hall p hp) hhist.own hpre, ?_⟩
  simp only [cells, List.map_map, List.forall₂_map_left_iff, List.forall₂_map_right_iff,
    List.forall₂_same]
  exact fun en hen => hhist.genuine en (hpre.subset hen)

/-! ### And all of them -/

/-- A call makes its next attempt. -/
theorem exists_add (hA : A.Lawful)
    (hadd : ∀ q c t l, ok q (c, A.world (fun _ => true) b t l))
    (hp : R.machine.ReachableBy ok p) (hlist : A.Holds p.shared as)
    (hready : Pool.Ready A.idle (A.place b) n (p.call c)) (ha : A.NodeOf n a) :
    ∃ s' l', R.machine.ReachableBy ok { shared := s', call := Function.update p.call c l' } ∧
      A.Holds s' (as ++ [a]) ∧ Pool.Ready A.idle (A.place b) (n + 1) l' := by
  obtain ⟨l, hquiet, rfl⟩ := hlist
  obtain ⟨t, hargs⟩ := ha
  refine Pool.exists_attempt (D := A.tried) hp hready (hA.begins c _ b t p.shared).2
    (fun q => hadd q c t _) (fun q l => hadd q c t l) fun rets hlen => ?_
  have hgoes := (hA.goes c (fun _ => true) b t p.shared rets).2
  rw [hlen, hargs] at hgoes
  obtain ⟨s', -, hquiet', hadds⟩ := hA.adds c (fun _ => true) b t _ l rets a hquiet rfl
  exact ⟨_, s', _, hgoes, hadds, _, hquiet', List.map_append⟩

/-- A call that has not begun reads the list. -/
theorem shows_of_holds (hR : R.Lawful) (hlook : ∀ q c l, ok q (c, R.world l))
    (hp : R.machine.ReachableBy ok p) (hlist : A.Holds p.shared as) (hidle : p.call c = A.idle) :
    R.Shows ok as := by
  obtain ⟨l, hquiet, rfl⟩ := hlist
  obtain ⟨s', hshows⟩ := hR.shows c _ l hquiet
  have hreach := hshows.reachableBy (fun q l => hlook q c l) p hp rfl hidle
  exact ⟨_, c, R.w, l, hreach, Function.update_self .., rfl⟩

/-- Nobody has called anything yet. -/
def pool0 (R : Reader A ω) : Pool σ κ := { shared := R.start, call := fun _ => A.idle }

theorem machine_init : R.machine.init R.pool0 := ⟨rfl, fun _ => rfl⟩

theorem shows_of_ballot (hA : A.Lawful) (hR : R.Lawful)
    (hadd : ∀ q c t l, ok q (c, A.world (fun _ => true) b t l))
    (hlook : ∀ q c l, ok q (c, R.world l)) {ks : List Nat} (hks : Ballot ks)
    (has : List.Forall₂ A.NodeOf ks as) : R.Shows ok as := by
  have h₀ : Pool.Stands (R.machine.ReachableBy ok) A.Holds (Pool.Ready A.idle (A.place b))
      (fun _ => 0) [] R.pool0 :=
    ⟨.init machine_init, ⟨[], hR.start, rfl⟩, fun _ => Or.inl ⟨rfl, rfl⟩⟩
  obtain ⟨p, c, hp, hlist, hready⟩ :=
    Pool.exists_of_ballot h₀ (fun _ _ _ _ _ => exists_add hA hadd) hks has
  exact shows_of_holds hR hlook hp hlist hready.eq_idle

/-- A call that gets memory for one of its attempts. -/
theorem exists_call (hA : A.Lawful) (hadd : ∀ q c oks t l, ok q (c, A.world oks b t l))
    (hp : R.machine.ReachableBy ok p) (hlist : A.Holds p.shared as) (hidle : p.call c = A.idle)
    (ha : ∃ k, A.NodeOf k a) :
    ∃ s' l', R.machine.ReachableBy ok { shared := s', call := Function.update p.call c l' } ∧
      A.Holds s' (as ++ [a]) := by
  obtain ⟨l, hquiet, rfl⟩ := hlist
  obtain ⟨k, t, hargs⟩ := ha
  obtain ⟨s', rets, hcall, hquiet'⟩ := hA.appends hquiet c (fun i => i == k) b t
  have hone : A.granted (fun i => i == k) t = [a] :=
    Ring.granted_single hargs ((hA.args t k).mp (Option.isSome_of_eq_some hargs))
  have hreach := hcall.reachableBy (fun q l => hadd q c _ t l) p hp rfl hidle
  refine ⟨s', _, hreach, _, hquiet', ?_⟩
  rw [List.map_append, Ring.map_added, hone]

theorem shows_of_genuine (hA : A.Lawful) (hR : R.Lawful)
    (hadd : ∀ q c oks t l, ok q (c, A.world oks b t l)) (hlook : ∀ q c l, ok q (c, R.world l))
    (has : ∀ a ∈ as, ∃ k, A.NodeOf k a) : R.Shows ok as := by
  obtain ⟨p, c, hp, hlist, hidle⟩ : ∃ p c, R.machine.ReachableBy ok p ∧
      A.Holds p.shared as ∧ p.call c = A.idle :=
    Pool.exists_of_calls (.init machine_init) ⟨[], hR.start, rfl⟩ (fun _ => rfl)
      (fun _ _ _ _ => exists_call hA hadd) has
  exact shows_of_holds hR hlook hp hlist hidle

/-- **With memory for every attempt readers can show the ballot words**, and no others. -/
theorem shows_iff_ballot (hA : A.Lawful) (hR : R.Lawful)
    (hadd : ∀ q c t l, ok q (c, A.world (fun _ => true) b t l))
    (hlook : ∀ q c l, ok q (c, R.world l))
    (htold : ∀ p, R.machine.ReachableBy ok p → ∃ hist, R.Told rets last p hist)
    (hall : ∀ p, R.machine.ReachableBy ok p → ∀ c, none ∉ rets (p.call c)) :
    R.Shows ok as ↔ ∃ ks, Ballot ks ∧ List.Forall₂ A.NodeOf ks as := by
  refine ⟨fun h => h.ballot htold hall, fun hex => ?_⟩
  obtain ⟨ks, hks, has⟩ := hex
  exact shows_of_ballot hA hR hadd hlook hks has

/-- **Where memory may run out they can show any data there is**, in any order. -/
theorem shows_iff_genuine (hA : A.Lawful) (hR : R.Lawful)
    (hadd : ∀ q c oks t l, ok q (c, A.world oks b t l)) (hlook : ∀ q c l, ok q (c, R.world l))
    (htold : ∀ p, R.machine.ReachableBy ok p → ∃ hist, R.Told rets last p hist) :
    R.Shows ok as ↔ ∀ a ∈ as, ∃ k, A.NodeOf k a :=
  ⟨fun h => h.genuine htold, shows_of_genuine hA hR hadd hlook⟩

end Reader

end Shows

end Lkp
