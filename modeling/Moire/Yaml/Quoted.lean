import Moire.Yaml.Scalar
import Moire.Yaml.Source

/-!
# Quoted text

Text in single quotes, in which a quote is written twice, and text in double quotes, in which a
backslash starts an escape. A line break inside the quotes becomes a blank, and further ones stay
line breaks; blanks around them are dropped. No document may begin or end inside of quotes.
-/

namespace Moire.Yaml

/-- The text after an opening single quote, and the place behind the closing one. -/
def singleQuoted (gap : Gap) (index line column : Nat) :
    List Char → Option (List Char × Cursor)
  | [] => none
  | c :: rest =>
      if isBreak c then singleQuoted (gap.lineBreak c) (index + 1) (line + 1) 0 rest
      else if isBlank c then singleQuoted (gap.blank c) (index + 1) line (column + 1) rest
      else if Cursor.atMark ⟨c :: rest, index, line, column⟩ then none
      else if c = '\'' then
        match rest with
        | '\'' :: rest =>
            prepend (gap.text ++ ['\'']) (singleQuoted .none (index + 2) line (column + 2) rest)
        | _ => some (gap.text, ⟨rest, index + 1, line, column + 1⟩)
      else prepend (gap.text ++ [c]) (singleQuoted .none (index + 1) line (column + 1) rest)

/-- The character of a one-letter escape. -/
def escapeChar? (c : Char) : Option Char :=
  [('0', '\x00'), ('a', '\x07'), ('b', '\x08'), ('t', '\t'), ('\t', '\t'), ('n', '\n'),
    ('v', '\x0b'), ('f', '\x0c'), ('r', '\r'), ('e', '\x1b'), (' ', ' '), ('"', '"'), ('/', '/'),
    ('\\', '\\'), ('N', '\u0085'), ('_', '\u00a0'), ('L', '\u2028'), ('P', '\u2029')].lookup c

/-- The character that hexadecimal digits number. -/
def numbered? (digits : List Char) : Option Char := do
  let n ← readBase? 16 digits
  if n.isValidChar then some (Char.ofNat n) else none

/-- The text after an opening double quote, and the place behind the closing one. -/
def doubleQuoted (gap : Gap) (index line column : Nat) :
    List Char → Option (List Char × Cursor)
  | [] => none
  | '\\' :: 'x' :: a :: b :: rest => do
      let c ← numbered? [a, b]
      prepend (gap.text ++ [c]) (doubleQuoted .none (index + 4) line (column + 4) rest)
  | '\\' :: 'u' :: a :: b :: c :: d :: rest => do
      let c ← numbered? [a, b, c, d]
      prepend (gap.text ++ [c]) (doubleQuoted .none (index + 6) line (column + 6) rest)
  | '\\' :: 'U' :: a :: b :: c :: d :: e :: f :: g :: h :: rest => do
      let c ← numbered? [a, b, c, d, e, f, g, h]
      prepend (gap.text ++ [c]) (doubleQuoted .none (index + 10) line (column + 10) rest)
  | '\\' :: c :: rest =>
      if isBreak c then
        prepend gap.text (doubleQuoted (.joined []) (index + 2) (line + 1) 0 rest)
      else do
        let c ← escapeChar? c
        prepend (gap.text ++ [c]) (doubleQuoted .none (index + 2) line (column + 2) rest)
  | c :: rest =>
      if isBreak c then doubleQuoted (gap.lineBreak c) (index + 1) (line + 1) 0 rest
      else if isBlank c then doubleQuoted (gap.blank c) (index + 1) line (column + 1) rest
      else if Cursor.atMark ⟨c :: rest, index, line, column⟩ then none
      else if c = '"' then some (gap.text, ⟨rest, index + 1, line, column + 1⟩)
      else prepend (gap.text ++ [c]) (doubleQuoted .none (index + 1) line (column + 1) rest)

/-- The scalar behind its opening quote. -/
def quotedAt (single : Bool) (c : Cursor) : Option (String × Cursor) :=
  let read := if single then singleQuoted else doubleQuoted
  (read .none (c.index + 1) c.line (c.column + 1) c.rest.tail).map fun (text, stop) ↦
    (String.ofList text, stop)

end Moire.Yaml
