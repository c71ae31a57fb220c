/-
A lock that one writer or any number of readers can hold.

As with a plain lock, what a call holds can be read off the place it has got to,
and the lock agrees with that (`RwLock.Owned`).  A step keeps them in agreement
when it is one of the five forms of `RwLock.Step`.
-/
import Mathlib.Tactic
import Mathlib.Data.Finset.Basic

namespace Lkp

/-- The writer inside, if any, and the readers inside. -/
structure RwLock where
  writer : Option Nat
  readers : Finset Nat
  deriving DecidableEq

namespace RwLock

/-- Nobody is inside. -/
def unlocked : RwLock := { writer := none, readers := ∅ }

/-- `read_lock`, where no writer is inside. -/
def readLock (k : RwLock) (c : Nat) : Option RwLock :=
  if k.writer = none then some { k with readers := insert c k.readers } else none

/-- `read_unlock`. -/
def readUnlock (k : RwLock) (c : Nat) : RwLock := { k with readers := k.readers.erase c }

/-- `write_lock`, where nobody is inside. -/
def writeLock (k : RwLock) (c : Nat) : Option RwLock :=
  if k.writer = none ∧ k.readers = ∅ then some { k with writer := some c } else none

/-- `write_unlock`. -/
def writeUnlock (k : RwLock) : RwLock := { k with writer := none }

/-- What a call holds. -/
inductive Hold
  | nothing
  | reading
  | writing
  deriving DecidableEq

/-- A lock agrees with what call `c` says it holds. -/
structure Owned (c : Nat) (k : RwLock) (h : Hold) : Prop where
  writing : h = .writing ↔ k.writer = some c
  reading : h = .reading ↔ c ∈ k.readers

/-- What one step of call `c` may do to a lock: lock and holding before, and after. -/
inductive Step (c : Nat) : RwLock → Hold → RwLock → Hold → Prop
  | keep (k : RwLock) (h : Hold) : Step c k h k h
  | readLock {k k' : RwLock} (h : k.readLock c = some k') : Step c k .nothing k' .reading
  | readUnlock (k : RwLock) : Step c k .reading (k.readUnlock c) .nothing
  | writeLock {k k' : RwLock} (h : k.writeLock c = some k') : Step c k .nothing k' .writing
  | writeUnlock (k : RwLock) : Step c k .writing k.writeUnlock .nothing

/-- With a writer inside there is no reader. -/
def WF (k : RwLock) : Prop := k.writer ≠ none → k.readers = ∅

variable {c d : Nat} {k k' : RwLock} {h h' hd : Hold}

theorem readLock_eq_some :
    k.readLock c = some k' ↔ k.writer = none ∧ { k with readers := insert c k.readers } = k' := by
  simp [readLock]

theorem writeLock_eq_some : k.writeLock c = some k' ↔
    (k.writer = none ∧ k.readers = ∅) ∧ { k with writer := some c } = k' := by
  simp [writeLock]

namespace Owned

theorem unlocked : Owned c RwLock.unlocked .nothing :=
  ⟨by simp [RwLock.unlocked], by simp [RwLock.unlocked]⟩

/-- Two calls cannot both hold a lock for writing. -/
theorem exclusive (hc : Owned c k .writing) (hd : Owned d k .writing) : c = d := by
  have h1 := hc.writing.mp rfl
  have h2 := hd.writing.mp rfl
  rw [h1] at h2
  exact Option.some.inj h2

/-- The call that steps still agrees with the lock. -/
theorem step (hc : Owned c k h) (hs : Step c k h k' h') : Owned c k' h' := by
  cases hs with
  | keep => exact hc
  | readLock hlock =>
      obtain ⟨hfree, rfl⟩ := readLock_eq_some.mp hlock
      exact ⟨by simp [hfree], by simp⟩
  | readUnlock => exact ⟨by simpa [RwLock.readUnlock] using hc.writing, by simp [RwLock.readUnlock]⟩
  | writeLock hlock =>
      obtain ⟨⟨-, hnone⟩, rfl⟩ := writeLock_eq_some.mp hlock
      exact ⟨by simp, by simp [hnone]⟩
  | writeUnlock =>
      exact ⟨by simp [RwLock.writeUnlock], by simpa [RwLock.writeUnlock] using hc.reading⟩

/-- So does every call that does not step. -/
theorem step_other (hc : Owned c k h) (hown : Owned d k hd) (hne : d ≠ c)
    (hs : Step c k h k' h') : Owned d k' hd := by
  cases hs with
  | keep => exact hown
  | readLock hlock =>
      obtain ⟨-, rfl⟩ := readLock_eq_some.mp hlock
      exact ⟨hown.writing, by simpa [hne] using hown.reading⟩
  | readUnlock => exact ⟨hown.writing, by simpa [RwLock.readUnlock, hne] using hown.reading⟩
  | writeLock hlock =>
      obtain ⟨⟨hfree, -⟩, rfl⟩ := writeLock_eq_some.mp hlock
      have hnot := hown.writing
      rw [hfree] at hnot
      exact ⟨by simpa [Ne.symm hne] using hnot, hown.reading⟩
  | writeUnlock =>
      have hmine := hc.writing.mp rfl
      have hnot := hown.writing
      rw [hmine] at hnot
      exact ⟨by simpa [RwLock.writeUnlock, Ne.symm hne] using hnot, hown.reading⟩

/-- Where a call is inside to read no writer is. -/
theorem writer_eq_none (hk : k.WF) (hc : Owned c k .reading) : k.writer = none := by
  by_contra hwriter
  have hmem := hc.reading.mp rfl
  rw [hk hwriter] at hmem
  exact absurd hmem (Finset.notMem_empty c)

/-- One call does not read while another writes. -/
theorem not_both (hk : k.WF) (hc : Owned c k .reading) (hd : Owned d k .writing) : False := by
  have hwriter := hd.writing.mp rfl
  rw [writer_eq_none hk hc] at hwriter
  cases hwriter

end Owned

/-- Only a writer that leaves lets the lock go. -/
theorem Step.leaves (hs : Step c k h k' h') (hk : k.writer ≠ none) (hk' : k'.writer = none) :
    h = .writing ∧ h' = .nothing := by
  cases hs with
  | keep | readUnlock => exact absurd hk' hk
  | readLock hlock => exact absurd (readLock_eq_some.mp hlock).1 hk
  | writeLock hlock => exact absurd (writeLock_eq_some.mp hlock).1.1 hk
  | writeUnlock => exact ⟨rfl, rfl⟩

theorem WF.step (hk : k.WF) (hs : Step c k h k' h') : k'.WF := by
  cases hs with
  | keep => exact hk
  | readLock hlock =>
      obtain ⟨hfree, rfl⟩ := readLock_eq_some.mp hlock
      exact fun hwriter => absurd hfree hwriter
  | readUnlock =>
      intro hwriter
      simp [readUnlock, hk hwriter]
  | writeLock hlock =>
      obtain ⟨⟨-, hnone⟩, rfl⟩ := writeLock_eq_some.mp hlock
      exact fun _ => hnone
  | writeUnlock => exact fun hwriter => absurd rfl hwriter

end RwLock

end Lkp
