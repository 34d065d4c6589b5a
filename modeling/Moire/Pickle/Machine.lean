import Moire.Pickle.Item

/-!
# Running a pickle

The machine reads operations from a list of bytes, each of which takes items from the stack and puts
others on it. Objects of classes are not known here: an empty dictionary stands for a new object,
and the state that an object is given takes its place.
-/

namespace Moire.Pickle

/-- One operation that stands alone or is followed by bytes of its own. -/
def Machine.operate (machine : Machine) (code : UInt8) (rest : List UInt8) :
    Option (Machine × List UInt8) := do
  let push (item : Item) : Option (Machine × List UInt8) := some (machine.push item, rest)
  match code.toNat with
  -- The version of the format, and the length of a frame.
  | 0x80 => do
      let (_, rest) ← takeBytes 1 rest
      return (machine, rest)
  | 0x95 => do
      let (_, rest) ← takeBytes 8 rest
      return (machine, rest)
  -- Marks and the stack.
  | 0x28 => return ({ machine with stack := [], marks := machine.stack :: machine.marks }, rest)
  | 0x30 =>
      if machine.stack.isEmpty then do
        let (_, machine) ← machine.popMark
        return (machine, rest)
      else do
        let (_, machine) ← machine.pop
        return (machine, rest)
  | 0x31 => do
      let (_, machine) ← machine.popMark
      return (machine, rest)
  | 0x32 => return (machine.push (← machine.top), rest)
  -- Keeping and fetching.
  | 0x70 => do
      let (line, rest) ← takeLine rest
      return (← machine.keep (← idLine line), rest)
  | 0x71 => do
      let (id, rest) ← takeNumber 1 rest
      return (← machine.keep id, rest)
  | 0x72 => do
      let (id, rest) ← takeNumber 4 rest
      return (← machine.keep id, rest)
  | 0x94 => return (← machine.keep machine.memo.size, rest)
  | 0x67 => do
      let (line, rest) ← takeLine rest
      return (← machine.fetch (← idLine line), rest)
  | 0x68 => do
      let (id, rest) ← takeNumber 1 rest
      return (← machine.fetch id, rest)
  | 0x6a => do
      let (id, rest) ← takeNumber 4 rest
      return (← machine.fetch id, rest)
  -- Constants and numbers.
  | 0x4e => push .nothing
  | 0x88 => push (.bool true)
  | 0x89 => push (.bool false)
  | 0x49 => do
      let (line, rest) ← takeLine rest
      if line = [0x30, 0x30] then return (machine.push (.bool false), rest)
      else if line = [0x30, 0x31] then return (machine.push (.bool true), rest)
      else return (machine.push (.int (← intLine line)), rest)
  | 0x4c => do
      let (line, rest) ← takeLine rest
      return (machine.push (.long (← longLine line)), rest)
  | 0x46 => do
      let (line, rest) ← takeLine rest
      return (machine.push (.real (← floatLine line)), rest)
  | 0x4a => do
      let (field, rest) ← takeBytes 4 rest
      return (machine.push (.int (signedNumber field)), rest)
  | 0x4b => do
      let (n, rest) ← takeNumber 1 rest
      return (machine.push (.int n), rest)
  | 0x4d => do
      let (n, rest) ← takeNumber 2 rest
      return (machine.push (.int n), rest)
  | 0x8a => do
      let (field, rest) ← takeField 1 rest
      return (machine.push (.long (signedNumber field)), rest)
  | 0x8b => do
      let (field, rest) ← takeField 4 rest
      return (machine.push (.long (signedNumber field)), rest)
  | 0x47 => do
      let (field, rest) ← takeBytes 8 rest
      return (machine.push (.real (ofFloatBytes field)), rest)
  -- Texts and bytes.
  | 0x53 => do
      let (line, rest) ← takeLine rest
      return (machine.push (.bytes (← quotedLine line)), rest)
  | 0x56 => do
      let (line, rest) ← takeLine rest
      return (machine.push (.text (String.ofList (← escapedText line))), rest)
  | 0x58 => do
      let (field, rest) ← takeField 4 rest
      return (machine.push (.text (← decodeText field)), rest)
  | 0x8c => do
      let (field, rest) ← takeField 1 rest
      return (machine.push (.text (← decodeText field)), rest)
  | 0x8d => do
      let (field, rest) ← takeField 8 rest
      return (machine.push (.text (← decodeText field)), rest)
  | 0x54 | 0x42 => do
      let (field, rest) ← takeField 4 rest
      return (machine.push (.bytes field), rest)
  | 0x55 | 0x43 => do
      let (field, rest) ← takeField 1 rest
      return (machine.push (.bytes field), rest)
  | 0x8e | 0x96 => do
      let (field, rest) ← takeField 8 rest
      return (machine.push (.bytes field), rest)
  -- Tuples.
  | 0x29 => push (.tuple [])
  | 0x85 => do
      let (a, machine) ← machine.pop
      return (machine.push (.tuple [a]), rest)
  | 0x86 => do
      let (b, machine) ← machine.pop
      let (a, machine) ← machine.pop
      return (machine.push (.tuple [a, b]), rest)
  | 0x87 => do
      let (c, machine) ← machine.pop
      let (b, machine) ← machine.pop
      let (a, machine) ← machine.pop
      return (machine.push (.tuple [a, b, c]), rest)
  | 0x74 => do
      let (items, machine) ← machine.popMark
      return (machine.push (.tuple items), rest)
  -- Lists and sets.
  | 0x5d => push (.list [])
  | 0x6c => do
      let (items, machine) ← machine.popMark
      return (machine.push (.list items), rest)
  | 0x61 => do
      let (item, machine) ← machine.pop
      return (← machine.extendList [item], rest)
  | 0x65 => do
      let (items, machine) ← machine.popMark
      return (← machine.extendList items, rest)
  | 0x8f => push (.set [])
  | 0x91 => do
      let (items, machine) ← machine.popMark
      return (machine.push (.frozenset items), rest)
  | 0x90 => do
      let (items, machine) ← machine.popMark
      return (← machine.extendSet items, rest)
  -- Dictionaries.
  | 0x7d => push (.dict [])
  | 0x64 => do
      let (items, machine) ← machine.popMark
      return (machine.push (.dict (Machine.pairUp items)), rest)
  | 0x73 => do
      let (value, machine) ← machine.pop
      let (key, machine) ← machine.pop
      return (← machine.extendDict [(key, value)], rest)
  | 0x75 => do
      let (items, machine) ← machine.popMark
      return (← machine.extendDict (Machine.pairUp items), rest)
  -- Functions.
  | 0x63 => do
      let (home, rest) ← takeLine rest
      let (name, rest) ← takeLine rest
      return (machine.push (.global (.ofName home name)), rest)
  | 0x93 => do
      let (name, machine) ← machine.popKept
      let (home, machine) ← machine.popKept
      match home, name with
      | .text home, .text name =>
          return (machine.push (.global (.ofName home.toUTF8.toList name.toUTF8.toList)), rest)
      | _, _ => none
  | 0x52 => do
      let (arguments, machine) ← machine.popKept
      let (function, machine) ← machine.popKept
      match function, arguments with
      | .global function, .tuple arguments => return (← machine.apply function arguments, rest)
      | _, _ => none
  -- Objects.
  | 0x69 => do
      let (_, rest) ← takeLine rest
      let (_, rest) ← takeLine rest
      let (_, machine) ← machine.popMark
      return (machine.push (.dict []), rest)
  | 0x6f => do
      let (_, machine) ← machine.popMark
      let (_, machine) ← machine.pop
      return (machine.push (.dict []), rest)
  | 0x81 => do
      let (_, machine) ← machine.pop
      let (_, machine) ← machine.pop
      return (machine.push (.dict []), rest)
  | 0x92 => do
      let (_, machine) ← machine.pop
      let (_, machine) ← machine.pop
      let (_, machine) ← machine.pop
      return (machine.push (.dict []), rest)
  | 0x62 => do
      let (state, machine) ← machine.pop
      let (_, machine) ← machine.pop
      return (machine.push state, rest)
  | _ => none

/-- Run operations up to the one that stops the machine: the item on top, the memo, and the bytes
that are left. Every operation takes a byte at least. -/
def Machine.run : Nat → Machine → List UInt8 → Option (Item × Memo × List UInt8)
  | 0, _, _ => none
  | _, _, [] => none
  | fuel + 1, machine, code :: rest =>
      if code = 0x2e then (machine.pop).map fun (item, machine) ↦ (item, machine.memo, rest)
      else
        match machine.operate code rest with
        | some (next, rest) => run fuel next rest
        | none => none

end Moire.Pickle
