/-
The `getopts` of the shell, in its silent mode.

It takes one argument after another, as long as they are options, and stops at the first
that is not.  An option is a dash with a number of letters, of which the last may take a
value: the rest of the argument or, if there is none, the next one, whatever it looks like.
What it reports is a list of events, one for each letter.
-/
import Mathlib.Tactic

namespace Lkp.Shell

/-- An argument of a command. -/
abbrev Word := List Char

/-- What `getopts` reports: a letter, one with its value, or what is wrong with it. -/
inductive Event
  | flag (c : Char)
  | value (c : Char) (w : Word)
  | unknown (c : Char)
  | missing (c : Char)
  deriving DecidableEq

/-- Whether the letter is in the string of options, and takes a value there. -/
def takesValue : List Char → Char → Option Bool
  | [], _ => none
  | o :: os, c => if o = c ∧ c ≠ ':' then some (os.head? = some ':') else takesValue os c

/-- The letters of an argument, and the last one if it takes the next argument as its value. -/
def letters (optstring : List Char) : List Char → List Event × Option Char
  | [] => ([], none)
  | c :: cs =>
      let rest := letters optstring cs
      match takesValue optstring c with
      | none => (.unknown c :: rest.1, rest.2)
      | some false => (.flag c :: rest.1, rest.2)
      | some true => if cs = [] then ([], some c) else ([.value c cs], none)

/-- The letters of an option; a lone dash is none, and two dashes end the options. -/
def optionLetters : Word → Option (List Char)
  | '-' :: c :: cs => if c :: cs = ['-'] then none else some (c :: cs)
  | _ => none

/-- The events of all arguments. -/
def getopts (optstring : List Char) : List Word → List Event
  | [] => []
  | [w] =>
      match optionLetters w with
      | none => []
      | some cs =>
          let r := letters optstring cs
          r.1 ++ r.2.toList.map .missing
  | w :: v :: ws =>
      match optionLetters w with
      | none => []
      | some cs =>
          let r := letters optstring cs
          match r.2 with
          | none => r.1 ++ getopts optstring (v :: ws)
          | some c => r.1 ++ .value c v :: getopts optstring ws

variable {optstring : List Char} {c : Char} {w v : Word} {ws : List Word}

/-- What is not an option ends them. -/
theorem getopts_stop (h : optionLetters w = none) : getopts optstring (w :: ws) = [] := by
  cases ws with
  | nil => simp only [getopts, h]
  | cons v ws => simp only [getopts, h]

/-- A dash and a letter without a value. -/
theorem getopts_flag (hc : c ≠ '-') (h : takesValue optstring c = some false) :
    getopts optstring (['-', c] :: ws) = .flag c :: getopts optstring ws := by
  have hletters : optionLetters ['-', c] = some [c] := if_neg (by simpa using hc)
  cases ws with
  | nil => simp [getopts, hletters, letters, h]
  | cons v ws => simp [getopts, hletters, letters, h]

/-- A dash and a letter that takes the next argument. -/
theorem getopts_value (hc : c ≠ '-') (h : takesValue optstring c = some true) :
    getopts optstring (['-', c] :: v :: ws) = .value c v :: getopts optstring ws := by
  have hletters : optionLetters ['-', c] = some [c] := if_neg (by simpa using hc)
  simp [getopts, hletters, letters, h]

end Lkp.Shell
