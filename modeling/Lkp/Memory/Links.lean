/-
Circular lists made of `next` and `prev` pointers.

`Path next p l q` says that following `next` from `p` visits the nodes of `l` and
then stands at `q`; a list with head `h` is a path from `next h` back to `h`.
`Back prev h l` says that each node points back to the one before it.

Only two edits are needed: a node linked in at the tail, made visible by one store
to the old tail's `next`, and the first node unlinked.  A path reads nothing but
the `next` of its own nodes (`Path.congr`), so stores elsewhere leave it alone.
-/
import Mathlib.Tactic
import Mathlib.Data.List.Basic
import Mathlib.Logic.Function.Basic

namespace Lkp

variable {α : Type*}

/-- From `p`, following `next` visits the nodes of `l` and then reaches `q`. -/
def Path (next : α → α) : α → List α → α → Prop
  | p, [], q => p = q
  | p, x :: l, q => p = x ∧ Path next (next x) l q

/-- Every node's `prev` is the node before it, the first one's being `p`. -/
def Back (prev : α → α) : α → List α → Prop
  | _, [] => True
  | p, x :: l => prev x = p ∧ Back prev x l

/-- The last node, or the head of an empty list. -/
def tailOf (h : α) (l : List α) : α := l.getLast?.getD h

@[simp] theorem tailOf_nil (h : α) : tailOf h [] = h := rfl

@[simp] theorem tailOf_concat (h x : α) (l : List α) : tailOf h (l ++ [x]) = x := by
  simp [tailOf]

theorem tailOf_cons (h x : α) (l : List α) : tailOf h (x :: l) = tailOf x l := by
  simp [tailOf, List.getLast?_cons]

namespace Path

variable {next next' : α → α} {p q : α} {l l' : List α}

/-- A path reads the `next` of its own nodes only. -/
theorem congr (h : Path next p l q) (hsame : ∀ x ∈ l, next' x = next x) : Path next' p l q := by
  induction l generalizing p with
  | nil => exact h
  | cons x l ih =>
      refine ⟨h.1, ?_⟩
      rw [hsame x List.mem_cons_self]
      exact ih h.2 fun y hy => hsame y (List.mem_cons_of_mem _ hy)

theorem append_iff {r : α} : Path next p (l ++ l') r ↔ ∃ q, Path next p l q ∧ Path next q l' r := by
  induction l generalizing p with
  | nil =>
      constructor
      · intro h
        exact ⟨p, rfl, h⟩
      · intro hex
        obtain ⟨q, rfl, h⟩ := hex
        exact h
  | cons x l ih =>
      constructor
      · intro hex
        obtain ⟨hx, h⟩ := hex
        obtain ⟨q, h1, h2⟩ := ih.mp h
        exact ⟨q, ⟨hx, h1⟩, h2⟩
      · intro hex
        obtain ⟨q, ⟨hx, h1⟩, h2⟩ := hex
        exact ⟨hx, ih.mpr ⟨q, h1, h2⟩⟩

/-- Where the path stands after a node. -/
theorem next_of_mem {x : α} (h : Path next p (l ++ x :: l') q) : Path next (next x) l' q := by
  obtain ⟨m, -, -, hrest⟩ := append_iff.mp h
  exact hrest

/-- A path that has arrived at a node it does not visit is over. -/
theorem nil_of_eq (h : Path next q l q) (hq : q ∉ l) : l = [] := by
  cases l with
  | nil => rfl
  | cons x l => exact absurd (h.1 ▸ List.mem_cons_self) hq

/-- A path elsewhere has a next node, and that is where it stands. -/
theorem cons_of_ne (h : Path next p l q) (hne : p ≠ q) : ∃ l', l = p :: l' := by
  cases l with
  | nil => exact absurd h hne
  | cons x l => exact ⟨l, by rw [h.1]⟩

/-- From a node of the path one step leads to a node of the path or to its end. -/
theorem next_mem {x : α} (h : Path next p l q) (hx : x ∈ l) : next x = q ∨ next x ∈ l := by
  obtain ⟨a, b, rfl⟩ := List.append_of_mem hx
  have hrest := h.next_of_mem
  cases b with
  | nil => exact Or.inl hrest
  | cons y b => exact Or.inr (by simp [hrest.1])

/-- Two paths to one end, which neither visits before, are the same. -/
theorem unique (h : Path next p l q) (h' : Path next p l' q) (hq : q ∉ l) (hq' : q ∉ l') :
    l = l' := by
  induction l generalizing p l' with
  | nil =>
      cases h
      exact (h'.nil_of_eq hq').symm
  | cons x l ih =>
      cases l' with
      | nil =>
          cases h'
          exact absurd (h.1 ▸ List.mem_cons_self) hq
      | cons y l' =>
          obtain ⟨rfl, hrest⟩ := h
          obtain ⟨rfl, hrest'⟩ := h'
          rw [ih hrest hrest' (fun hmem => hq (List.mem_cons_of_mem _ hmem))
            fun hmem => hq' (List.mem_cons_of_mem _ hmem)]

variable [DecidableEq α] {h : α}

/-- **Publishing**: one store to the old tail's `next` appends a node. -/
theorem publish {new : α} (hp : Path next (next h) l h) (hnodup : (h :: l).Nodup)
    (hnew : new ∉ h :: l) (hback : next new = h) :
    Path (Function.update next (tailOf h l) new)
      (Function.update next (tailOf h l) new h) (l ++ [new]) h := by
  rcases List.eq_nil_or_concat l with rfl | ⟨l, x, rfl⟩
  · have hne : new ≠ h := fun heq => hnew (heq ▸ List.mem_cons_self)
    rw [tailOf_nil, Function.update_self, List.nil_append]
    refine ⟨rfl, ?_⟩
    rw [Function.update_of_ne hne]
    exact hback
  · rw [List.concat_eq_append] at hp hnodup hnew ⊢
    obtain ⟨y, hpath, hy, -⟩ := append_iff.mp hp
    subst hy
    have hhx : h ≠ y := fun heq => (List.nodup_cons.mp hnodup).1 (by simp [heq])
    have hxl : y ∉ l := by
      intro hmem
      have hl := (List.nodup_cons.mp hnodup).2
      rw [List.nodup_append] at hl
      exact hl.2.2 y hmem y (by simp) rfl
    have hnx : new ≠ y := fun heq => hnew (by simp [heq])
    rw [tailOf_concat, Function.update_of_ne hhx]
    refine append_iff.mpr ⟨new, append_iff.mpr ⟨y, ?_, rfl, ?_⟩, rfl, ?_⟩
    · refine hpath.congr fun z hz => Function.update_of_ne ?_ ..
      intro heq
      subst heq
      exact hxl hz
    · exact Function.update_self ..
    · rw [Function.update_of_ne hnx]
      exact hback

/-- Unlinking the first node. -/
theorem unlink_first {x : α} (hp : Path next (next h) (x :: l) h) (hh : h ∉ x :: l) :
    Path (Function.update next h (next x)) (Function.update next h (next x) h) l h := by
  rw [Function.update_self]
  refine hp.2.congr fun y hy => Function.update_of_ne ?_ ..
  intro heq
  subst heq
  exact hh (List.mem_cons_of_mem _ hy)

end Path

namespace Back

variable {prev prev' : α → α} {p : α} {l : List α}

theorem congr (h : Back prev p l) (hsame : ∀ x ∈ l, prev' x = prev x) : Back prev' p l := by
  induction l generalizing p with
  | nil => trivial
  | cons x l ih =>
      refine ⟨(hsame x List.mem_cons_self).trans h.1, ?_⟩
      exact ih h.2 fun y hy => hsame y (List.mem_cons_of_mem _ hy)

/-- A node whose `prev` is the old tail goes behind it. -/
theorem concat {new : α} (h : Back prev p l) (hnew : prev new = tailOf p l) :
    Back prev p (l ++ [new]) := by
  induction l generalizing p with
  | nil => exact ⟨hnew, trivial⟩
  | cons x l ih => exact ⟨h.1, ih h.2 (by rw [hnew, tailOf_cons])⟩

end Back

end Lkp
