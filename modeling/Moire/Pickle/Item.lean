import Moire.Pickle.Field
import Std.Data.TreeMap

/-!
# Values under construction

What the machine that runs a pickle holds: a stack of items, a stack of stacks that marks open and
close, and a memo in which items are kept under numbers. An item on the stack may be a reference
into the memo, and what is done to it is done to the kept item.
-/

namespace Moire.Pickle

/-- A function that a pickle may name. -/
inductive Global where
  | set
  | frozenset
  | list
  | bytearray
  | int
  | encode
  /-- One that is not known here. -/
  | other
  deriving DecidableEq, Repr, Inhabited

/-- The function of a name in a module. -/
def Global.ofName (home name : List UInt8) : Global :=
  let home := decodeText home
  let name := decodeText name
  if home = some "_codecs" ∧ name = some "encode" then .encode
  else if home = some "__builtin__" ∨ home = some "builtins" then
    if name = some "set" then .set
    else if name = some "frozenset" then .frozenset
    else if name = some "list" then .list
    else if name = some "bytearray" then .bytearray
    else if name = some "int" then .int
    else .other
  else .other

/-- A value under construction. -/
inductive Item where
  | nothing
  | bool (value : Bool)
  /-- A number that is written in a word. -/
  | int (value : Int)
  /-- A number that is written in any number of digits. -/
  | long (value : Int)
  | real (value : Float)
  | text (value : String)
  | bytes (value : List UInt8)
  | list (items : List Item)
  | tuple (items : List Item)
  | set (items : List Item)
  | frozenset (items : List Item)
  | dict (entries : List (Item × Item))
  | global (function : Global)
  /-- A reference into the memo. -/
  | kept (id : Nat)
  deriving Inhabited

/-- The kept items, with the number of references to each that have not been used. -/
abbrev Memo := Std.TreeMap Nat (Item × Int)

/-- The machine between two operations. -/
structure Machine where
  stack : List Item
  /-- The stacks below the open marks, the innermost first. -/
  marks : List (List Item)
  memo : Memo

namespace Machine

/-- The machine before the first operation. -/
def start : Machine := ⟨[], [], ∅⟩

/-- Put an item on the stack. -/
def push (machine : Machine) (item : Item) : Machine :=
  { machine with stack := item :: machine.stack }

/-- Take the top of the stack. -/
def pop (machine : Machine) : Option (Item × Machine) :=
  match machine.stack with
  | item :: stack => some (item, { machine with stack })
  | [] => none

/-- Take the top of the stack, or the kept item that it refers to. -/
def popKept (machine : Machine) : Option (Item × Machine) := do
  let (item, machine) ← machine.pop
  match item with
  | .kept id => do
      let (item, count) ← machine.memo[id]?
      return (item, { machine with memo := machine.memo.insert id (item, count - 1) })
  | item => return (item, machine)

/-- Close the innermost mark: its items in order, and the stack below it. -/
def popMark (machine : Machine) : Option (List Item × Machine) :=
  match machine.marks with
  | stack :: marks => some (machine.stack.reverse, { machine with stack, marks })
  | [] => none

/-- The item on top of the stack, or the kept item that it refers to. -/
def top (machine : Machine) : Option Item :=
  match machine.stack with
  | .kept id :: _ => (machine.memo[id]?).map Prod.fst
  | item :: _ => some item
  | [] => none

/-- Keep the top of the stack under a number and leave a reference to it. -/
def keep (machine : Machine) (id : Nat) : Option Machine := do
  let item ← machine.top
  let (_, machine) ← machine.pop
  let memo := machine.memo.insert id (item, 1)
  return { machine with memo }.push (.kept id)

/-- Put a reference to a kept item on the stack. -/
def fetch (machine : Machine) (id : Nat) : Option Machine := do
  let (item, count) ← machine.memo[id]?
  let memo := machine.memo.insert id (item, count + 1)
  return { machine with memo }.push (.kept id)

/-- Change the item on top of the stack, or the kept item that it refers to. -/
def changeTop (machine : Machine) (change : Item → Option Item) : Option Machine := do
  match machine.stack with
  | .kept id :: _ => do
      let (item, count) ← machine.memo[id]?
      let changed ← change item
      return { machine with memo := machine.memo.insert id (changed, count) }
  | item :: stack => do
      let changed ← change item
      return { machine with stack := changed :: stack }
  | [] => none

/-- Add items to the list on top of the stack. -/
def extendList (machine : Machine) (items : List Item) : Option Machine :=
  machine.changeTop fun
    | .list old => some (.list (old ++ items))
    | _ => none

/-- Add items to the set on top of the stack. -/
def extendSet (machine : Machine) (items : List Item) : Option Machine :=
  machine.changeTop fun
    | .set old => some (.set (old ++ items))
    | _ => none

/-- Items taken in pairs; a single one at the end is left out. -/
def pairUp : List Item → List (Item × Item)
  | key :: value :: rest => (key, value) :: pairUp rest
  | _ => []

/-- Add entries to the dictionary on top of the stack. -/
def extendDict (machine : Machine) (entries : List (Item × Item)) : Option Machine :=
  machine.changeTop fun
    | .dict old => some (.dict (old ++ entries))
    | _ => none

/-- The last of some arguments, or the kept item that it refers to, and the others. -/
def popArgument (machine : Machine) (arguments : List Item) :
    Option (Item × List Item × Machine) := do
  let argument ← arguments.getLast?
  let (item, after) ← { machine with stack := [argument] }.popKept
  return (item, arguments.dropLast, { after with stack := machine.stack })

/-- The bytes of a text whose characters are numbers of bytes. -/
def textBytes (text : String) : List UInt8 :=
  text.toList.map fun c ↦ c.toNat.toUInt8

/-- The value of a function at some arguments. An unknown function is left as it is. -/
def apply (machine : Machine) (function : Global) (arguments : List Item) : Option Machine := do
  match function with
  | .other => return machine.push (.global .other)
  | .encode => do
      let (coding, arguments, machine) ← machine.popArgument arguments
      let (text, _, machine) ← machine.popArgument arguments
      match coding, text with
      | .text _, .text text => return machine.push (.bytes (textBytes text))
      | _, _ => none
  | .bytearray => do
      let (argument, _, machine) ← machine.popArgument (arguments.take 1)
      match argument with
      | .bytes bytes => return machine.push (.bytes bytes)
      | .text text => return machine.push (.bytes (textBytes text))
      | _ => none
  | _ => do
      let (argument, _, machine) ← machine.popArgument arguments
      match function, argument with
      | .set, .list items => return machine.push (.set items)
      | .frozenset, .list items => return machine.push (.frozenset items)
      | .list, .list items => return machine.push (.list items)
      | .int, .long n => return machine.push (.long n)
      | _, _ => none

end Machine

end Moire.Pickle
