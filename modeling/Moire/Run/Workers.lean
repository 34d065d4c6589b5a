import Moire.Evaluator
import Moire.Json.Basic
import Moire.Log
import Moire.Number.Text

/-!
# The number of workers

The number that is asked for comes first, then the one that a batch scheduler gives, then the
number of processors. A scheduler's value that is no positive count is told and passed over.
-/

namespace Moire

/-- Formatting characters, private ones and line separators, which leave no mark on paper. -/
def isUnprinted (c : Char) : Bool :=
  let n := c.toNat
  n < 0x20 || (0x7f ≤ n && n ≤ 0x9f) || (c != ' ' && isSpace c) ||
    [0xad, 0x61c, 0x6dd, 0x70f, 0x180e, 0xfeff].contains n ||
    (0x600 ≤ n && n ≤ 0x605) || (0x200b ≤ n && n ≤ 0x200f) || (0x202a ≤ n && n ≤ 0x202e) ||
    (0x2060 ≤ n && n ≤ 0x206f) || (0xfff9 ≤ n && n ≤ 0xfffb) || (0xe000 ≤ n && n ≤ 0xf8ff)

/-- A character in a quoted value. -/
def quotedChar (c : Char) : String :=
  if c = '"' then "\\\""
  else if c = '\\' then "\\\\"
  else if c = '\n' then "\\n"
  else if c = '\r' then "\\r"
  else if c = '\t' then "\\t"
  else if c = '\x00' then "\\0"
  else if isUnprinted c then "\\u\x7b" ++ String.ofList (Nat.toDigits 16 c.toNat) ++ "\x7d"
  else c.toString

/-- A value in quotes, with escapes for what does not show. -/
def quotedValue (text : String) : String :=
  "\"" ++ String.join (text.toList.map quotedChar) ++ "\""

/-- A positive count, with blanks around it. -/
def positiveCount? (text : String) : Option Nat :=
  (readCount? (trimBlanks text)).filter (0 < ·)

/-- The number of workers that is asked for or given by the scheduler. -/
def chosenWorkers? (requested : Option Nat) (scheduler : Option String) : Option Nat :=
  (requested.filter (0 < ·)).or (scheduler.bind positiveCount?)

/-- What is told of a scheduler's value that cannot be used although it is needed. -/
def schedulerWarning? (requested : Option Nat) (scheduler : Option String) : Option String :=
  match chosenWorkers? requested scheduler, scheduler with
  | none, some text => some ("Ignoring SLURM_CPUS_PER_TASK=" ++ quotedValue text)
  | _, _ => none

/-- Set up the workers on a machine with a number of processors. -/
def Evaluator.start (requested : Option Nat) (scheduler : Option String) (processors : Nat) :
    Logged Evaluator := do
  if let some warning := schedulerWarning? requested scheduler then say warning
  let workers := (chosenWorkers? requested scheduler).getD processors
  say s!"Using {workers} worker threads"
  Evaluator.create workers

end Moire
