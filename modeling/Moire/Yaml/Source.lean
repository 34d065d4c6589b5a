/-!
# Places in a text

A reader of documents goes through a text character by character and has to know the line and the
column that it is at. This module has the classes of characters, the `Cursor` that keeps the place,
and the `Gap` between two words, in which line breaks are folded.
-/

namespace Moire.Yaml

/-- The character is a blank within a line. -/
def isBlank (c : Char) : Bool := c = ' ' || c = '\t'

/-- The character ends a line. -/
def isBreak (c : Char) : Bool := c = '\n' || c = '\u2028' || c = '\u2029'

/-- The character may stand in the name of a label. -/
def isWord (c : Char) : Bool := c.isAlphanum || c = '_' || c = '-'

/-- The text begins with a blank or a line break, or is at its end. -/
def startsBlank : List Char → Bool
  | c :: _ => isBlank c || isBreak c
  | [] => true

/-- The text begins with a line break, or is at its end. -/
def startsBreak : List Char → Bool
  | c :: _ => isBreak c
  | [] => true

/-- The character may stand in a document. -/
def isPrintable (c : Char) : Bool :=
  let n := c.toNat
  n = 9 || n = 10 || n = 13 || (32 ≤ n && n ≤ 126) || n = 0x85 ||
    (0xa0 ≤ n && n ≤ 0xd7ff) || (0xe000 ≤ n && n ≤ 0xfffd) || 0x10000 ≤ n

/-- A text in which every line break is a single character, and most are the same one. -/
def unifyBreaks : List Char → List Char
  | '\r' :: '\n' :: rest => '\n' :: unifyBreaks rest
  | '\r' :: rest => '\n' :: unifyBreaks rest
  | '\u0085' :: rest => '\n' :: unifyBreaks rest
  | c :: rest => c :: unifyBreaks rest
  | [] => []

/-- A place in a text. -/
structure Cursor where
  rest : List Char
  index : Nat
  line : Nat
  column : Nat
  deriving Inhabited

namespace Cursor

/-- The place before a text. -/
def start (text : List Char) : Cursor := ⟨text, 0, 0, 0⟩

/-- Nothing is left. -/
def atEnd (c : Cursor) : Bool := c.rest.isEmpty

/-- Pass characters that do not end a line. -/
def pass (c : Cursor) (count : Nat) : Cursor :=
  { c with rest := c.rest.drop count, index := c.index + count, column := c.column + count }

/-- Pass a line break, if there is one. -/
def passBreak (c : Cursor) : Cursor :=
  match c.rest with
  | char :: rest => if isBreak char then ⟨rest, c.index + 1, c.line + 1, 0⟩ else c
  | [] => c

/-- The characters of a kind, none of which ends a line, and the place behind them. -/
def span (c : Cursor) (kind : Char → Bool) : List Char × Cursor :=
  let run := c.rest.takeWhile kind
  (run, c.pass run.length)

/-- Pass blanks within a line, and a comment that may follow them. -/
def passComment (c : Cursor) : Cursor :=
  let next := (c.span isBlank).2
  if next.rest.head? = some '#' then (next.span fun char ↦ !isBreak char).2 else next

/-- A line starts with a given mark of a document. -/
def isMark (mark : List Char) (c : Cursor) : Bool :=
  c.column = 0 && c.rest.take 3 = mark && startsBlank (c.rest.drop 3)

/-- A document begins or ends here. -/
def atMark (c : Cursor) : Bool :=
  isMark ['-', '-', '-'] c || isMark ['.', '.', '.'] c

end Cursor

/-- What has been passed since the last word of a scalar. -/
inductive Gap where
  /-- Blanks within a line. -/
  | blanks (text : List Char)
  /-- A line break and further ones. -/
  | broken (first : Char) (more : List Char)
  /-- A line break that was escaped, and further ones. -/
  | joined (more : List Char)
  deriving Repr

namespace Gap

/-- Nothing. -/
def none : Gap := .blanks []

/-- A further line break. -/
def lineBreak (c : Char) : Gap → Gap
  | .blanks _ => .broken c []
  | .broken first more => .broken first (more ++ [c])
  | .joined more => .joined (more ++ [c])

/-- A further blank. -/
def blank (c : Char) : Gap → Gap
  | .blanks text => .blanks (text ++ [c])
  | gap => gap

/-- Something has been passed. -/
def isOpen : Gap → Bool
  | .blanks text => !text.isEmpty
  | _ => true

/-- A line has ended. -/
def isBroken : Gap → Bool
  | .blanks _ => false
  | _ => true

/-- What a gap becomes in the text: a single line break is folded to a blank, and of several the
first is left out. -/
def text : Gap → List Char
  | .blanks text => text
  | .broken first more =>
      if first ≠ '\n' then first :: more else if more.isEmpty then [' '] else more
  | .joined more => more

end Gap

/-- Put characters in front of the text that was read. -/
def prepend {β : Type} (chars : List Char) : Option (List Char × β) → Option (List Char × β)
  | some (text, rest) => some (chars ++ text, rest)
  | none => none

end Moire.Yaml
