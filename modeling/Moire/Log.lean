import Moire.Failure
import Moire.Text.Blank

/-!
# Computations that tell what they do

A run tells its progress in messages. `Logged` is a computation that may stop and that adds messages
to a log; the messages told before it stopped are kept. A message may quote texts from outside, so
characters that would steer a terminal are spelled out.
-/

namespace Moire

/-- Messages in the order in which they were told. -/
abbrev Log := Array String

/-- A computation that may stop and that tells what it does. -/
abbrev Logged := ExceptT Failure (StateM Log)

/-- The line between the parts of a log. -/
def ruler : String := "==========================================="

/-- The character steers a terminal. -/
def steersTerminal (c : Char) : Bool :=
  ['\x07', '\x08', '\x0c', '\x1b', '\x7f'].contains c

/-- A number below 256 in two hexadecimal digits. -/
def hexPair (n : Nat) : String :=
  String.ofList [Nat.digitChar (n / 16 % 16), Nat.digitChar (n % 16)]

/-- A character as it is told. -/
def toldChar (c : Char) : String :=
  if steersTerminal c then "\\x" ++ hexPair c.toNat
  else if 0x80 ≤ c.toNat ∧ c.toNat ≤ 0x9f then "\\u\x7b" ++ hexPair c.toNat ++ "\x7d"
  else c.toString

/-- A message as it is told. -/
def toldText (message : String) : String :=
  String.join (message.toList.map toldChar)

/-- The lines of a message as they are told, without the blanks at their ends. -/
def toldLines (message : String) : List String :=
  ((toldText message).splitOn "\n").map trimEnd

/-- The log with a further message. -/
def Log.tell (log : Log) (message : String) : Log := log.push (toldText message)

/-- Tell a message. -/
def say (message : String) : Logged Unit :=
  modify fun log ↦ log.tell message

end Moire
