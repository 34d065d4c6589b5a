import Moire.Yaml.Source

/-!
# Plain scalars

A scalar without quotes ends in front of a comment, in front of a colon with a blank behind it, and,
inside of brackets, in front of their marks. It may go on on further lines, which outside of
brackets have to be indented.
-/

namespace Moire.Yaml

/-- The character delimits the entries of collections in brackets. -/
def isFlowMark (c : Char) : Bool := [',', '[', ']', '\x7b', '\x7d'].contains c

/-- A plain scalar may start with this text. -/
def startsPlain (inFlow : Bool) : List Char → Bool
  | [] => false
  | c :: rest =>
      if c = '-' then !rest.head?.any isBlank
      else if c = '?' || c = ':' then !inFlow && !startsBlank rest
      else
        !(isBlank c || isBreak c || isFlowMark c ||
          ['#', '&', '*', '!', '|', '>', '\'', '"', '%', '@', '\x60'].contains c)

/-- The text of a plain scalar after a gap, whether a line has ended behind it, and the place where
the next token is looked for. In brackets a colon in front of a mark is an error, and so is a tab in
the indentation of a line. -/
def plainFrom (inFlow : Bool) (indent : Nat) (gap : Gap) (index line column : Nat) :
    List Char → Option (List Char × Bool × Cursor)
  | [] => some ([], gap.isBroken, ⟨[], index, line, column⟩)
  | c :: rest =>
      let here : Cursor := ⟨c :: rest, index, line, column⟩
      if isBreak c then plainFrom inFlow indent (gap.lineBreak c) (index + 1) (line + 1) 0 rest
      else if isBlank c then
        if c = '\t' && gap.isBroken && column < indent then none
        else plainFrom inFlow indent (gap.blank c) (index + 1) line (column + 1) rest
      else if gap.isOpen && ((!inFlow && column < indent) || c = '#' || here.atMark) then
        some ([], gap.isBroken, here)
      else if inFlow && c = ':' && rest.head?.any (fun d ↦ isFlowMark d || d = '?') then none
      else if (c = ':' && startsBlank rest) || (inFlow && isFlowMark c) then
        some ([], gap.isBroken, here)
      else
        prepend (gap.text ++ [c]) (plainFrom inFlow indent .none (index + 1) line (column + 1) rest)

/-- The plain scalar at a place, and whether a line has ended behind it. -/
def plainAt (inFlow : Bool) (indent : Nat) (c : Cursor) : Option (String × Bool × Cursor) :=
  (plainFrom inFlow indent .none c.index c.line c.column c.rest).map fun (text, stop) ↦
    (String.ofList text, stop)

end Moire.Yaml
