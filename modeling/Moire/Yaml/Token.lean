import Moire.Yaml.Block
import Moire.Yaml.Label
import Moire.Yaml.Plain
import Moire.Yaml.Quoted

/-!
# Tokens of a document

A text as the list of its tokens. Columns become tokens too: a block begins where a key or a dash
stands further to the right than those around it, and ends where one stands further to the left. A
key is known by the colon behind it, which has to stand on the same line and at most
`longestKey` characters behind the beginning of the key; so the tokens that say that a key begins
are put in where it did.
-/

namespace Moire.Yaml

/-- A token. -/
inductive Token where
  | directive (content : Directive)
  | documentStart
  | documentEnd
  /-- A list of dashes begins. -/
  | blockList
  /-- A mapping without braces begins. -/
  | blockMapping
  | blockEnd
  | listOpen
  | listClose
  | mappingOpen
  | mappingClose
  | dash
  | comma
  | key
  | value
  | label (name : String)
  | reference (name : String)
  | tag (handle : String) (suffix : List UInt8)
  | scalar (style : Style) (text : String)
  deriving Repr

/-- The characters between the beginning of a key and its colon, at most. -/
def longestKey : Nat := 1024

/-- A token that may turn out to begin a key. -/
structure PendingKey where
  /-- The number of tokens in front of it. -/
  number : Nat
  index : Nat
  line : Nat
  column : Nat
  /-- Nothing but a key may stand here. -/
  required : Bool

/-- The state between two tokens. -/
structure Lexer where
  cursor : Cursor
  /-- The tokens so far, the latest first. -/
  tokens : List Token
  /-- The number of the tokens so far. -/
  count : Nat
  /-- The columns of the open blocks, the innermost first. -/
  blocks : List Nat
  /-- The key that may have begun inside of the innermost brackets. -/
  pending : Option PendingKey
  /-- The keys that may have begun around the open brackets, the innermost first. -/
  outer : List (Option PendingKey)
  /-- A key may begin here. -/
  keyAllowed : Bool

namespace Lexer

/-- The state before a text. -/
def start (text : List Char) : Lexer :=
  { cursor := .start text, tokens := [], count := 0, blocks := [], pending := none, outer := []
    keyAllowed := true }

/-- A bracket is open. -/
def inFlow (lexer : Lexer) : Bool := !lexer.outer.isEmpty

/-- The least column at which lines belong to the innermost block. -/
def indent (lexer : Lexer) : Nat :=
  match lexer.blocks with
  | column :: _ => column + 1
  | [] => 0

/-- A further token. -/
def emit (lexer : Lexer) (token : Token) : Lexer :=
  { lexer with tokens := token :: lexer.tokens, count := lexer.count + 1 }

/-- A further token behind a number of others. -/
def insert (lexer : Lexer) (number : Nat) (token : Token) : Lexer :=
  let (later, earlier) := lexer.tokens.splitAt (lexer.count - number)
  { lexer with tokens := later ++ token :: earlier, count := lexer.count + 1 }

/-- Go on at another place. -/
def moveTo (lexer : Lexer) (cursor : Cursor) : Lexer := { lexer with cursor }

/-- Say whether a key may begin at the next token. -/
def allowKey (lexer : Lexer) (keyAllowed : Bool) : Lexer := { lexer with keyAllowed }

/-- Skip blanks, line breaks and comments from a place. A tab is skipped only where no key may
begin, or in brackets. The mark of an encoding may stand at the beginning of a line. -/
def gapFrom (inFlow keyAllowed inComment : Bool) (index line column : Nat) :
    List Char → Bool × Cursor
  | [] => (keyAllowed, ⟨[], index, line, column⟩)
  | c :: rest =>
      if isBreak c then gapFrom inFlow (keyAllowed || !inFlow) false (index + 1) (line + 1) 0 rest
      else if inComment || c = ' ' || (c = '\ufeff' && column = 0) ||
          (c = '\t' && (inFlow || !keyAllowed)) then
        gapFrom inFlow keyAllowed inComment (index + 1) line (column + 1) rest
      else if c = '#' then gapFrom inFlow keyAllowed true (index + 1) line (column + 1) rest
      else (keyAllowed, ⟨c :: rest, index, line, column⟩)

/-- Skip to the next token. -/
def skip (lexer : Lexer) : Lexer :=
  let c := lexer.cursor
  let (keyAllowed, cursor) :=
    gapFrom lexer.inFlow lexer.keyAllowed false c.index c.line c.column c.rest
  { lexer with cursor, keyAllowed }

/-- A key that may have begun, unless its colon can no longer follow. -/
def expireKey (cursor : Cursor) : Option PendingKey → Option (Option PendingKey)
  | none => some none
  | some key =>
      if key.line < cursor.line || key.index + longestKey < cursor.index then
        if key.required then none else some none
      else some (some key)

/-- Give up the keys whose colon can no longer follow. -/
def expireKeys (lexer : Lexer) : Option Lexer := do
  let pending ← expireKey lexer.cursor lexer.pending
  let outer ← lexer.outer.mapM (expireKey lexer.cursor)
  return { lexer with pending, outer }

/-- Give up the key that may have begun. -/
def dropKey (lexer : Lexer) : Option Lexer :=
  match lexer.pending with
  | some key => if key.required then none else some { lexer with pending := none }
  | none => some lexer

/-- A key may begin here, if one is allowed. -/
def noteKey (lexer : Lexer) : Option Lexer :=
  if lexer.keyAllowed then do
    let c := lexer.cursor
    let required := !lexer.inFlow && lexer.blocks.head? = some c.column
    let key : PendingKey := ⟨lexer.count, c.index, c.line, c.column, required⟩
    return { ← lexer.dropKey with pending := some key }
  else some lexer

/-- End the blocks whose column is not kept. -/
def closeBlocks (lexer : Lexer) (keeps : Nat → Bool) : Lexer :=
  if lexer.inFlow then lexer
  else
    let closed := lexer.blocks.takeWhile fun column ↦ !keeps column
    { closed.foldl (fun lexer _ ↦ lexer.emit .blockEnd) lexer with
      blocks := lexer.blocks.drop closed.length }

/-- Begin a block at a column, if it is further to the right than those that are open. -/
def openBlock (lexer : Lexer) (number column : Nat) (token : Token) : Lexer :=
  if lexer.inFlow || !(lexer.blocks.head?.all fun open_ ↦ open_ < column) then lexer
  else { lexer.insert number token with blocks := column :: lexer.blocks }

/-- A token of so many characters. -/
def take (lexer : Lexer) (length : Nat) (token : Token) : Lexer :=
  (lexer.moveTo (lexer.cursor.pass length)).emit token

/-- A token in front of which all blocks end. -/
def outside (lexer : Lexer) : Option Lexer := do
  let lexer ← (lexer.closeBlocks fun _ ↦ false).dropKey
  return lexer.allowKey false

/-- A bracket opens. -/
def openBracket (lexer : Lexer) (token : Token) : Option Lexer := do
  let lexer ← lexer.noteKey
  let inside := { lexer with pending := none, outer := lexer.pending :: lexer.outer }
  return (inside.allowKey true).take 1 token

/-- A bracket closes. -/
def closeBracket (lexer : Lexer) (token : Token) : Option Lexer := do
  let lexer ← lexer.dropKey
  let outside := match lexer.outer with
    | pending :: outer => { lexer with pending, outer }
    | [] => lexer
  return (outside.allowKey false).take 1 token

/-- A dash or a question mark, which begins a block outside of brackets. -/
def blockMark (lexer : Lexer) (block token : Token) : Option Lexer := do
  if !lexer.inFlow && !lexer.keyAllowed then none
  (lexer.openBlock lexer.count lexer.cursor.column block).dropKey.map (·.take 1 token)

/-- A colon, which makes a key of what may have begun one. -/
def colon (lexer : Lexer) : Option Lexer :=
  match lexer.pending with
  | some key =>
      let marked := (lexer.insert key.number .key).openBlock key.number key.column .blockMapping
      some (({ marked with pending := none }.allowKey false).take 1 .value)
  | none =>
      if lexer.inFlow then some ((lexer.allowKey false).take 1 .value)
      else if lexer.keyAllowed then
        some ((lexer.openBlock lexer.count lexer.cursor.column .blockMapping).take 1 .value)
      else none

/-- A scalar in quotes. -/
def quoted (lexer : Lexer) (single : Bool) : Option Lexer := do
  let lexer ← lexer.noteKey
  let (text, stop) ← quotedAt single lexer.cursor
  return ((lexer.allowKey false).moveTo stop).emit (.scalar .quoted text)

/-- A plain scalar. -/
def plain (lexer : Lexer) : Option Lexer := do
  let lexer ← lexer.noteKey
  let (text, broken, stop) ← plainAt lexer.inFlow lexer.indent lexer.cursor
  return ((lexer.allowKey broken).moveTo stop).emit (.scalar .plain text)

/-- A block scalar. -/
def block (lexer : Lexer) (folded : Bool) : Option Lexer := do
  let lexer ← lexer.dropKey
  let (text, stop) ← blockAt folded lexer.indent lexer.cursor
  let style := if folded then Style.folded else .literal
  return ((lexer.allowKey true).moveTo stop).emit (.scalar style text)

/-- A label or a reference. -/
def named (lexer : Lexer) (token : String → Token) : Option Lexer := do
  let lexer ← lexer.noteKey
  let (name, stop) ← labelAt lexer.cursor
  return ((lexer.allowKey false).moveTo stop).emit (token name)

/-- A tag. -/
def tagged (lexer : Lexer) : Option Lexer := do
  let lexer ← lexer.noteKey
  let (handle, suffix, stop) ← tagAt lexer.inFlow lexer.cursor
  return ((lexer.allowKey false).moveTo stop).emit (.tag handle suffix)

/-- The token at a place that is not the end. -/
def step (lexer : Lexer) : Option Lexer := do
  let c := lexer.cursor
  let blankNext := startsBlank c.rest.tail
  match c.rest.head? with
  | none => none
  | some char =>
      if c.column = 0 && char = '%' then do
        let lexer ← lexer.outside
        let (directive, stop) ← directiveAt c
        return (lexer.moveTo stop).emit (.directive directive)
      else if Cursor.isMark ['-', '-', '-'] c then
        return (← lexer.outside).take 3 .documentStart
      else if Cursor.isMark ['.', '.', '.'] c then
        return (← lexer.outside).take 3 .documentEnd
      else if char = '[' then lexer.openBracket .listOpen
      else if char = '\x7b' then lexer.openBracket .mappingOpen
      else if char = ']' then lexer.closeBracket .listClose
      else if char = '\x7d' then lexer.closeBracket .mappingClose
      else if char = ',' then return ((← lexer.dropKey).allowKey true).take 1 .comma
      else if char = '-' && blankNext then
        return (← lexer.blockMark .blockList .dash).allowKey true
      else if char = '?' && (lexer.inFlow || blankNext) then
        return (← lexer.blockMark .blockMapping .key).allowKey (!lexer.inFlow)
      else if char = ':' && (lexer.inFlow || blankNext) then lexer.colon
      else if char = '*' then lexer.named .reference
      else if char = '&' then lexer.named .label
      else if char = '!' then lexer.tagged
      else if char = '|' && !lexer.inFlow then lexer.block false
      else if char = '>' && !lexer.inFlow then lexer.block true
      else if char = '\'' then lexer.quoted true
      else if char = '"' then lexer.quoted false
      else if startsPlain lexer.inFlow c.rest then lexer.plain
      else none

/-- The tokens up to the end of the text. Every token takes a character at least. -/
def run : Nat → Lexer → Option (List Token)
  | 0, _ => none
  | fuel + 1, lexer => do
      let lexer ← lexer.skip.expireKeys
      let lexer := lexer.closeBlocks fun column ↦ column ≤ lexer.cursor.column
      if lexer.cursor.atEnd then return (← lexer.outside).tokens.reverse
      else run fuel (← lexer.step)

end Lexer

/-- The tokens of a text. -/
def tokens? (text : List Char) : Option (List Token) :=
  Lexer.run (text.length + 1) (.start text)

end Moire.Yaml
