/-
A driver together with the loading and unloading of its module.

A device method runs in whoever made the call; init and exit run in whoever loads
or unloads the module.  Only one of the latter is ever under way, so where it has
got to is one place (`phase`) beside the driver's data, and its steps fall between
those of the calls in any way.  Which new calls may be made is up to `accepts`; calls
that were made go on, whatever becomes of the module.
-/
import Lkp.Concurrency.Pool

namespace Lkp

/-- A driver's data, where its module stands, and whether its device is registered. -/
structure Loadable (σ φ : Type*) where
  drv : σ
  phase : φ
  registered : Bool

/-- Who moves: a method, or init or exit, with `ok` for what it calls going well. -/
inductive Mover (ε : Type*)
  | call (e : ε)
  | module (ok : Bool)
  deriving DecidableEq

instance {ε : Type*} : Inhabited (Mover ε) := ⟨.module true⟩

namespace Loadable

variable {σ κ ε φ : Type*} [DecidableEq κ]

/-- A step of a method, or one of init or exit, which is taken by a call that stays idle. -/
def step (client : CallStep σ κ ε) (idle : κ) (accepts : Loadable σ φ → ε → Bool)
    (code : Bool → Loadable σ φ → Option (Loadable σ φ)) :
    CallStep (Loadable σ φ) κ (Mover ε) := fun c e m l =>
  match e with
  | .call e =>
      if l = idle ∧ accepts m e = false then none
      else (client c e m.drv l).map fun r => ({ m with drv := r.1 }, r.2)
  | .module ok => if l = idle then (code ok m).map fun m' => (m', idle) else none

/-- What a step can be. -/
inductive Moved (client : CallStep σ κ ε) (idle : κ) (accepts : Loadable σ φ → ε → Bool)
    (code : Bool → Loadable σ φ → Option (Loadable σ φ)) (c : Nat) :
    Mover ε → Loadable σ φ → κ → Loadable σ φ → κ → Prop
  | call {m l e s' l'} (haccepts : l = idle → accepts m e = true)
      (h : client c e m.drv l = some (s', l')) :
      Moved client idle accepts code c (.call e) m l { m with drv := s' } l'
  | module {m m' ok} (h : code ok m = some m') :
      Moved client idle accepts code c (.module ok) m idle m' idle

theorem moved_of_step {client : CallStep σ κ ε} {idle : κ} {accepts : Loadable σ φ → ε → Bool}
    {code : Bool → Loadable σ φ → Option (Loadable σ φ)} {c : Nat} {e : Mover ε}
    {m m' : Loadable σ φ} {l l' : κ} (h : step client idle accepts code c e m l = some (m', l')) :
    Moved client idle accepts code c e m l m' l' := by
  cases e with
  | call e =>
      simp only [step] at h
      split at h
      · cases h
      · rename_i hin
        obtain ⟨r, hr, hpair⟩ := Option.map_eq_some_iff.mp h
        cases hpair
        refine .call (fun hidle => ?_) hr
        cases haccepts : accepts m e with
        | true => rfl
        | false => exact absurd ⟨hidle, haccepts⟩ hin
  | module ok =>
      simp only [step] at h
      split at h
      · rename_i hidle
        obtain ⟨m'', hcode, hpair⟩ := Option.map_eq_some_iff.mp h
        cases hpair
        subst hidle
        exact .module hcode
      · cases h

end Loadable

end Lkp
