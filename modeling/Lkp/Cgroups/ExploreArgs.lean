/-
The arguments of the script that explores cgroups.

Three passes read them.  The first looks for the first argument that is not an option, and
complains if it is not the last one; but it breaks off at `-d` with a number.  The second
looks at the last argument.  The third is `getopts`, which stops at the first argument that
is not an option.  They agree unless something follows the cgroup and a `-d` comes before
it (`parsed_iff`): then nothing complains, and both the cgroup and what follows are dropped.
-/
import Lkp.Shell.Getopts

namespace Lkp.Cgroups.Explore

open Shell

/-- `^[0-9]+$` -/
def isNumber (w : Word) : Bool := !w.isEmpty && w.all Char.isDigit

/-- `"${w:0:1}" = "-"` -/
def dashed (w : Word) : Bool := w.head? = some '-'

/-- What the options set. -/
structure Settings where
  depth : Word
  verbose : Bool
  processNames : Bool
  threadNames : Bool
  deriving DecidableEq

/-- `DEPTH=0`, `VERBOSE=0`, `SHOW_PROCESS_NAMES=0`, `SHOW_THREAD_NAMES=0` -/
def settings0 : Settings where
  depth := ['0']
  verbose := false
  processNames := false
  threadNames := false

/-- How the processing of the arguments ends. -/
inductive Outcome
  /-- The script goes on, from this cgroup and with these settings. -/
  | run (startCg : Word) (s : Settings)
  /-- `The CGROUP passed .. appears to be invalid? Aborting...` -/
  | invalid (startCg : Word)
  /-- `ERROR: the CGROUP parameter must be the last one.`, and the usage; status 1. -/
  | notLast
  /-- The usage, and the status. -/
  | usage (status : Nat)
  /-- `${!nextp}` is not set. -/
  | unbound
  deriving DecidableEq

/-- The scan for `cgstartparam_pos`, from argument `i` on: `none` if `-d` is the last one. -/
def scan : Nat → List Word → Option Nat
  | _, [] => some 0
  | i, ['-', 'd'] :: ws =>
      match ws with
      | [] => none
      | v :: ws => if isNumber v then some 0 else scan (i + 1) (v :: ws)
  | i, w :: ws => if dashed w then scan (i + 1) ws else some i

/-- `start_cg`, by the look at the last argument. -/
def startCg (mount : Word) (args : List Word) : Word :=
  match args.getLast? with
  | none => mount
  | some lastarg => if dashed lastarg || isNumber lastarg then mount else lastarg

/-- The string of options. -/
def optstring : List Char := [':', 'd', ':', 'v', 'p', 't', 'h']

/-- One pass of the `getopts` loop: new settings, or the status the script exits with. -/
def applyEvent (s : Settings) : Event → Except Nat Settings
  | .value 'd' w => .ok { s with depth := w }
  | .flag 'v' | .flag 'V' => .ok { s with verbose := true }
  | .flag 'p' => .ok { s with processNames := true }
  | .flag 't' => .ok { s with threadNames := true }
  | .flag 'h' => .error 0
  | _ => .error 1

/-- The `getopts` loop. -/
def applyEvents : Settings → List Event → Except Nat Settings
  | s, [] => .ok s
  | s, e :: es => (applyEvent s e).bind fun s' => applyEvents s' es

/-- From `#--- Args processing` on; `valid` says which cgroups there are. -/
def argsProcessing (mount : Word) (valid : Word → Bool) (args : List Word) : Outcome :=
  match scan 1 args with
  | none => .unbound
  | some pos =>
      if pos ≠ 0 ∧ pos < args.length then .notLast
      else if !valid (startCg mount args) then .invalid (startCg mount args)
      else
        match applyEvents settings0 (getopts optstring args) with
        | .error status => .usage status
        | .ok s => .run (startCg mount args) s

/-! ### What the usage promises -/

/-- A number. -/
abbrev Number := { w : Word // isNumber w = true }

/-- What can be meant as a cgroup: neither dashed nor a number. -/
abbrev Cgroup := { w : Word // dashed w = false ∧ isNumber w = false }

/-- An option. -/
inductive Opt
  | v
  | p
  | t
  | d (depth : Number)

/-- Its arguments. -/
def Opt.words : Opt → List Word
  | .v => [['-', 'v']]
  | .p => [['-', 'p']]
  | .t => [['-', 't']]
  | .d depth => [['-', 'd'], depth.1]

/-- The depth it gives. -/
def Opt.depth? : Opt → Option Word
  | .d depth => some depth.1
  | _ => none

/-- Options, then perhaps a cgroup with more options after it. -/
structure Args where
  before : List Opt
  cgroup : Option (Cgroup × List Opt)

/-- The list of arguments. -/
def Args.words (a : Args) : List Word :=
  a.before.flatMap Opt.words ++
    match a.cgroup with
    | none => []
    | some (cg, after) => cg.1 :: after.flatMap Opt.words

/-- The settings with all these options applied. -/
def Settings.apply (s : Settings) (os : List Opt) : Settings where
  depth := (os.filterMap Opt.depth?).getLast?.getD s.depth
  verbose := s.verbose || os.any fun | .v => true | _ => false
  processNames := s.processNames || os.any fun | .p => true | _ => false
  threadNames := s.threadNames || os.any fun | .t => true | _ => false

/-- Go on from a cgroup if there is such a one. -/
def runFrom (valid : Word → Bool) (cg : Word) (os : List Opt) : Outcome :=
  if valid cg then .run cg (settings0.apply os) else .invalid cg

/-- What the script should do. -/
def expected (mount : Word) (valid : Word → Bool) (a : Args) : Outcome :=
  match a.cgroup with
  | none => runFrom valid mount a.before
  | some (cg, []) => runFrom valid cg.1 a.before
  | some (_, _ :: _) => .notLast

variable {os : List Opt} {ws : List Word} {w mount : Word} {valid : Word → Bool} {i : Nat}

/-! ### The three passes -/

/-- The scan goes over options, and breaks off at a depth. -/
theorem scan_options (os : List Opt) (ws : List Word) (i : Nat) :
    scan i (os.flatMap Opt.words ++ ws) =
      if os.any fun o => o.depth?.isSome then some 0 else scan (i + os.length) ws := by
  induction os generalizing i with
  | nil => simp
  | cons o os ih =>
      have hnext : i + 1 + os.length = i + (o :: os).length := by
        rw [List.length_cons]
        omega
      cases o with
      | v =>
          show scan (i + 1) (os.flatMap Opt.words ++ ws) = _
          rw [ih, hnext]
          simp [Opt.depth?]
      | p =>
          show scan (i + 1) (os.flatMap Opt.words ++ ws) = _
          rw [ih, hnext]
          simp [Opt.depth?]
      | t =>
          show scan (i + 1) (os.flatMap Opt.words ++ ws) = _
          rw [ih, hnext]
          simp [Opt.depth?]
      | d depth => simp [Opt.words, Opt.depth?, scan, depth.2]

/-- The event of an option. -/
def Opt.event : Opt → Event
  | .v => .flag 'v'
  | .p => .flag 'p'
  | .t => .flag 't'
  | .d depth => .value 'd' depth.1

/-- `getopts` reports the options as they are. -/
theorem getopts_options (os : List Opt) (ws : List Word) :
    getopts optstring (os.flatMap Opt.words ++ ws) =
      os.map Opt.event ++ getopts optstring ws := by
  induction os with
  | nil => rfl
  | cons o os ih =>
      rw [List.map_cons, List.cons_append, ← ih]
      cases o with
      | v => exact getopts_flag (by decide) (by decide)
      | p => exact getopts_flag (by decide) (by decide)
      | t => exact getopts_flag (by decide) (by decide)
      | d depth => exact getopts_value (by decide) (by decide)

/-- The loop applies them all. -/
theorem applyEvents_options (s : Settings) (os : List Opt) :
    applyEvents s (os.map Opt.event) = .ok (s.apply os) := by
  induction os generalizing s with
  | nil => simp [applyEvents, Settings.apply]
  | cons o os ih =>
      rw [List.map_cons, applyEvents]
      cases o with
      | v => simp [Opt.event, applyEvent, Except.bind, ih, Settings.apply, Opt.depth?]
      | p => simp [Opt.event, applyEvent, Except.bind, ih, Settings.apply, Opt.depth?]
      | t => simp [Opt.event, applyEvent, Except.bind, ih, Settings.apply, Opt.depth?]
      | d depth =>
          simp [Opt.event, applyEvent, Except.bind, ih, Settings.apply, Opt.depth?,
            List.getLast?_cons]

/-- No argument of an option is taken for a cgroup. -/
theorem skipped_of_mem (h : w ∈ os.flatMap Opt.words) : (dashed w || isNumber w) = true := by
  obtain ⟨o, -, ho⟩ := List.mem_flatMap.mp h
  cases o with
  | v =>
      rw [List.mem_singleton.mp ho]
      rfl
  | p =>
      rw [List.mem_singleton.mp ho]
      rfl
  | t =>
      rw [List.mem_singleton.mp ho]
      rfl
  | d depth =>
      rcases List.mem_cons.mp ho with rfl | hnumber
      · rfl
      · rw [List.mem_singleton.mp hnumber, depth.2, Bool.or_true]

theorem startCg_options : startCg mount (os.flatMap Opt.words) = mount := by
  rw [startCg]
  cases hlast : (os.flatMap Opt.words).getLast? with
  | none => rfl
  | some w => exact if_pos (skipped_of_mem (List.mem_of_getLast? hlast))

theorem startCg_concat (cg : Cgroup) : startCg mount (ws ++ [cg.1]) = cg.1 := by
  rw [startCg, List.getLast?_concat]
  show (if _ then mount else cg.1) = cg.1
  rw [if_neg (by simp [cg.2.1, cg.2.2])]

theorem optionLetters_of_not_dashed (h : dashed w = false) : optionLetters w = none := by
  cases w with
  | nil => rfl
  | cons c cs =>
      have hc : c ≠ '-' := by simpa [dashed] using h
      unfold optionLetters
      split
      · rename_i heq
        exact absurd (List.cons.inj heq).1 hc
      · rfl

theorem length_le_words (os : List Opt) : os.length ≤ (os.flatMap Opt.words).length := by
  induction os with
  | nil => simp
  | cons o os ih =>
      have hpos : 0 < o.words.length := by cases o <;> simp [Opt.words]
      rw [List.flatMap_cons, List.length_append, List.length_cons]
      omega

/-- Only a depth has two arguments. -/
theorem length_words (h : (os.any fun o => o.depth?.isSome) = false) :
    (os.flatMap Opt.words).length = os.length := by
  induction os with
  | nil => rfl
  | cons o os ih =>
      obtain ⟨ho, hos⟩ := Bool.or_eq_false_iff.mp (List.any_cons.symm.trans h)
      rw [List.flatMap_cons, List.length_append, ih hos, List.length_cons, Nat.add_comm]
      cases o with
      | v => rfl
      | p => rfl
      | t => rfl
      | d depth => cases ho

/-- The scan stops at a cgroup. -/
theorem scan_cgroup (cg : Cgroup) : scan i (cg.1 :: ws) = some i := by
  obtain ⟨w, hdash, -⟩ := cg
  show scan i (w :: ws) = some i
  unfold scan
  split
  · rename_i heq
    cases heq
  · rename_i heq
    cases heq
    cases hdash
  · rename_i heq
    cases heq
    rw [if_neg (by rw [hdash]; exact Bool.false_ne_true)]

/-! ### What they come to -/

/-- Where the scan finds nothing wrong, the other two passes decide. -/
theorem argsProcessing_eq {pos : Nat} (hscan : scan 1 ws = some pos)
    (hpos : ¬ (pos ≠ 0 ∧ pos < ws.length)) (hopts : getopts optstring ws = os.map Opt.event) :
    argsProcessing mount valid ws = runFrom valid (startCg mount ws) os := by
  rw [argsProcessing, hscan]
  show (if _ then _ else _) = _
  rw [if_neg hpos, hopts, applyEvents_options, runFrom]
  cases valid (startCg mount ws) <;> rfl

/-- It does not complain then. -/
theorem argsProcessing_ne {pos : Nat} (hscan : scan 1 ws = some pos)
    (hpos : ¬ (pos ≠ 0 ∧ pos < ws.length)) : argsProcessing mount valid ws ≠ .notLast := by
  rw [argsProcessing, hscan]
  show (if _ then _ else _) ≠ _
  rw [if_neg hpos]
  split
  · exact nofun
  · split <;> exact nofun

/-- A list of arguments that the passes do not agree on. -/
def Args.misread (a : Args) : Bool :=
  a.before.any (fun o => o.depth?.isSome) &&
    match a.cgroup with
    | some (_, _ :: _) => true
    | _ => false

/-- Without a cgroup. -/
theorem parsed_alone (before : List Opt) :
    argsProcessing mount valid (before.flatMap Opt.words) = runFrom valid mount before := by
  have hopts := getopts_options before []
  rw [List.append_nil] at hopts
  have hscan := scan_options before [] 1
  rw [List.append_nil] at hscan
  have hzero : scan 1 (before.flatMap Opt.words) = some 0 := by
    rw [hscan]
    split <;> rfl
  rw [argsProcessing_eq hzero (by simp) (by simpa [getopts] using hopts), startCg_options]

/-- With a cgroup at the end. -/
theorem parsed_last (before : List Opt) (cg : Cgroup) :
    argsProcessing mount valid (before.flatMap Opt.words ++ [cg.1]) =
      runFrom valid cg.1 before := by
  have hopts := getopts_options before [cg.1]
  rw [getopts_stop (optionLetters_of_not_dashed cg.2.1), List.append_nil] at hopts
  have hscan := scan_options before [cg.1] 1
  rw [scan_cgroup] at hscan
  by_cases hd : before.any fun o => o.depth?.isSome
  · rw [if_pos hd] at hscan
    rw [argsProcessing_eq hscan (by simp) hopts, startCg_concat]
  · rw [if_neg hd] at hscan
    have hlast : ¬ (1 + before.length ≠ 0 ∧
        1 + before.length < (before.flatMap Opt.words ++ [cg.1]).length) := by
      rw [List.length_append, length_words (Bool.eq_false_iff.mpr hd), List.length_singleton]
      omega
    rw [argsProcessing_eq hscan hlast hopts, startCg_concat]

/-- With options after it: the script complains if there is no depth before it. -/
theorem parsed_followed_iff (before : List Opt) (cg : Cgroup) (o : Opt) (after : List Opt) :
    argsProcessing mount valid
        (before.flatMap Opt.words ++ cg.1 :: (o :: after).flatMap Opt.words) = .notLast ↔
      (before.any fun o => o.depth?.isSome) = false := by
  have hscan := scan_options before (cg.1 :: (o :: after).flatMap Opt.words) 1
  rw [scan_cgroup] at hscan
  by_cases hd : before.any fun o => o.depth?.isSome
  · rw [if_pos hd] at hscan
    exact iff_of_false (argsProcessing_ne hscan (by simp)) (by simp [hd])
  · rw [if_neg hd] at hscan
    have hmore : 1 + before.length ≠ 0 ∧ 1 + before.length <
        (before.flatMap Opt.words ++ cg.1 :: (o :: after).flatMap Opt.words).length := by
      have hafter := length_le_words (o :: after)
      rw [List.length_cons] at hafter
      rw [List.length_append, length_words (Bool.eq_false_iff.mpr hd), List.length_cons]
      omega
    refine iff_of_true ?_ (Bool.eq_false_iff.mpr hd)
    rw [argsProcessing, hscan]
    exact if_pos hmore

/-- **The script does what it promises unless options follow a cgroup and a `-d` precedes it.** -/
theorem parsed_iff (mount : Word) (valid : Word → Bool) (a : Args) :
    argsProcessing mount valid a.words = expected mount valid a ↔ a.misread = false := by
  obtain ⟨before, cgroup⟩ := a
  rcases cgroup with - | ⟨cg, - | ⟨o, after⟩⟩
  · have hwords : Args.words ⟨before, none⟩ = before.flatMap Opt.words := List.append_nil _
    rw [hwords]
    exact iff_of_true (parsed_alone before) (Bool.and_false _)
  · exact iff_of_true (parsed_last before cg) (Bool.and_false _)
  · have hmisread : Args.misread ⟨before, some (cg, o :: after)⟩ =
        before.any fun o => o.depth?.isSome := Bool.and_true _
    rw [hmisread]
    exact parsed_followed_iff before cg o after

/-- `-d 2 /c -v` -/
def misread0 : Args where
  before := [.d ⟨['2'], by decide⟩]
  cgroup := some (⟨['/', 'c'], by decide⟩, [.v])

/-- The script goes on from the mount point, and without `-v`. -/
theorem not_parsed : ¬ ∀ (mount : Word) (valid : Word → Bool) (a : Args),
    argsProcessing mount valid a.words = expected mount valid a := by
  intro h
  have hparsed := h ['/', 'm'] (fun _ => true) misread0
  exact absurd hparsed (by decide)

end Lkp.Cgroups.Explore
