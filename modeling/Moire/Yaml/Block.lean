import Moire.Yaml.Source

/-!
# Block scalars

A block scalar is the indented lines behind its header. The header says whether lines are kept or
folded, what becomes of the line breaks at the end, and it may say how deep the lines are indented;
otherwise the first line that is not empty does.
-/

namespace Moire.Yaml

/-- What becomes of the line breaks at the end of a block scalar. -/
inductive Chomping where
  | strip
  | clip
  | keep
  deriving DecidableEq, Repr

/-- The sign that says what becomes of the line breaks at the end. -/
def chomping? (c : Char) : Option Chomping :=
  if c = '+' then some .keep else if c = '-' then some .strip else none

/-- The header of a block scalar behind its first mark: what becomes of the line breaks at the end,
the depth of the indentation or zero, and the number of its characters. -/
def blockHeader : List Char → Option (Chomping × Nat × Nat)
  | [] => some (.clip, 0, 0)
  | c :: rest =>
      if c = '0' then none
      else
        match chomping? c with
        | some chomping =>
            match rest with
            | d :: _ =>
                if d = '0' then none
                else if d.isDigit then some (chomping, d.toNat - 48, 2)
                else some (chomping, 0, 1)
            | [] => some (chomping, 0, 1)
        | none =>
            if c.isDigit then
              match rest.head?.bind chomping? with
              | some chomping => some (chomping, c.toNat - 48, 2)
              | none => some (.clip, c.toNat - 48, 1)
            else some (.clip, 0, 0)

/-- The line breaks in front of the next line that is not empty, the widest indentation on the way,
and the place where that line begins. The indentation is zero as long as it is not known. -/
def blockGap (indent widest index line column : Nat) :
    List Char → Option (List Char × Nat × Cursor)
  | [] => some ([], max widest column, ⟨[], index, line, column⟩)
  | c :: rest =>
      let inside := indent = 0 || column < indent
      if c = ' ' && inside then blockGap indent widest (index + 1) line (column + 1) rest
      else if c = '\t' && inside then none
      else if isBreak c then
        prepend [c] (blockGap indent (max widest column) (index + 1) (line + 1) 0 rest)
      else some ([], max widest column, ⟨c :: rest, index, line, column⟩)

/-- The lines of a block scalar, from a place behind line breaks: the break that ended the line
before, whether that line began with a blank, and the further breaks are given. The result has the
breaks behind the last line apart. -/
def blockLines (folded : Bool) (indent : Nat) :
    Nat → List Char → Bool → List Char → Cursor →
      Option (List Char × List Char × List Char × Cursor)
  | 0, _, _, _, _ => none
  | fuel + 1, first, afterBlank, more, c =>
      if c.column ≠ indent || c.atEnd then some ([], first, more, c)
      else do
        let startsBlank := c.rest.head?.any isBlank
        let between :=
          if folded && first = ['\n'] && !afterBlank && !startsBlank then
            if more.isEmpty then [' '] else more
          else first ++ more
        let (line, stop) := c.span fun char ↦ !isBreak char
        let next := stop.passBreak
        let (breaks, _, next) ← blockGap indent 0 next.index next.line next.column next.rest
        let (text, rest) ←
          blockLines folded indent fuel (stop.rest.take 1) startsBlank breaks next
        return (between ++ line ++ text, rest)

/-- The block scalar at a place, in a block of which lines have to be indented to a column. -/
def blockAt (folded : Bool) (indent : Nat) (c : Cursor) : Option (String × Cursor) := do
  let (chomping, depth, length) ← blockHeader c.rest.tail
  let header := (c.pass (length + 1)).passComment
  if !startsBreak header.rest then none
  else
    let start := header.passBreak
    let given := if depth = 0 then 0 else indent - 1 + depth
    let (breaks, widest, start) ←
      blockGap given 0 start.index start.line start.column start.rest
    let column := if given = 0 then max (max widest indent) 1 else given
    let (text, first, more, stop) ←
      blockLines folded column (c.rest.length + 1) [] false breaks start
    let tail := match chomping with
      | .strip => []
      | .clip => first
      | .keep => first ++ more
    return (String.ofList (text ++ tail), stop)

end Moire.Yaml
