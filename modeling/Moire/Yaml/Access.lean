import Moire.Number.Machine
import Moire.Word
import Moire.Yaml.Basic
import Moire.Yaml.Scalar

/-!
# What a document holds at a place

Readers for the values that are asked for at a place of a document. A number or a truth value is a
plain scalar, or one of which all lines are kept and whose tag names the kind; a text is any
scalar. Whole numbers are accepted for floats, but floats not for whole numbers. What is not written
is an empty list or an empty mapping where one is asked for. A reference stands for the node with
its label, and only so many references are followed.
-/

namespace Moire.Yaml

/-- A computation on a document that counts the references it has followed. -/
abbrev Reading := ReaderT Document (StateT Nat Option)

/-- The node that a place holds. -/
def follow : Yaml → Reading Yaml
  | .labelled _ node => pure node
  | .reference label => do
      modify (· + 1)
      let document ← read
      if document.limit < (← get) then failure
      document.labelled.lookup label
  | node => pure node

/-- The text of a scalar of any kind. -/
def text? (node : Yaml) : Reading String := do
  match ← follow node with
  | .scalar _ _ text => return text
  | _ => failure

/-- The text of a scalar that may be of a core kind. -/
def textOf? (kind : String) (node : Yaml) : Reading String := do
  match ← follow node with
  | .scalar tag style text =>
      if style = .plain || (style = .literal && tag = some (.core kind)) then return text
      else failure
  | _ => failure

/-- A count. -/
def count? (node : Yaml) : Reading Nat := do
  let text ← textOf? "int" node
  let n ← int? text
  if !text.startsWith "-" ∧ n < countLimit then return n.toNat else failure

/-- A whole number that a word holds. -/
def intIn? (word : Word) (node : Yaml) : Reading Int := do
  (int? (← textOf? "int" node)).filter word.holds

/-- A float. -/
def real? (node : Yaml) : Reading Float := do
  float? (← textOf? "float" node)

/-- A truth value. -/
def truth? (node : Yaml) : Reading Bool := do
  bool? (← textOf? "bool" node)

/-- A list. -/
def list? {β : Type} (read : Yaml → Reading β) (node : Yaml) : Reading (List β) := do
  match ← follow node with
  | .list _ items => items.mapM read
  | .scalar _ .plain "" => return []
  | _ => failure

/-- A list of two. -/
def pair? {β : Type} (read : Yaml → Reading β) (node : Yaml) : Reading (β × β) := do
  match ← follow node with
  | .list _ [x, y] => return (← read x, ← read y)
  | _ => failure

/-- The entries of a mapping whose keys are scalars. -/
def entries? (node : Yaml) : Reading (List (String × Yaml)) := do
  match ← follow node with
  | .mapping _ entries => entries.mapM fun (key, value) ↦ do return (← text? key, value)
  | .scalar _ .plain "" => return []
  | _ => failure

/-- The value under a key, if there is one. A second one is an error. -/
def entry? (entries : List (String × Yaml)) (name : String) : Reading (Option Yaml) :=
  match entries.filter fun (key, _) ↦ key = name with
  | [] => pure none
  | [(_, value)] => pure (some value)
  | _ => failure

/-- The scalar stands for nothing. One that is tagged so has to be one of the names of nothing. -/
def isMissing (tag : Option Tag) (style : Style) (text : String) : Reading Bool :=
  if style ≠ .plain then pure false
  else
    match tag with
    | none => pure (text = "" || isNull text)
    | some tag =>
        if tag ≠ .core "null" then pure false else if isNull text then pure true else failure

/-- A value that may be nothing. -/
def nullable? {β : Type} (read : Yaml → Reading β) (node : Yaml) : Reading (Option β) := do
  let node ← follow node
  match node with
  | .scalar tag style text =>
      if ← isMissing tag style text then return none else return some (← read node)
  | _ => return some (← read node)

/-- The value under a key that may be missing or nothing. -/
def optional? {β : Type} (entries : List (String × Yaml)) (name : String)
    (read : Yaml → Reading β) : Reading (Option β) := do
  match ← entry? entries name with
  | none => return none
  | some value => nullable? read value

/-- The value under a key, or a default if it is missing. -/
def orDefault? {β : Type} (entries : List (String × Yaml)) (name : String)
    (read : Yaml → Reading β) (default : β) : Reading β := do
  match ← entry? entries name with
  | none => return default
  | some value => read value

/-- A name: a scalar, or a local tag in front of nothing. -/
def name? (node : Yaml) : Reading String := do
  match ← follow node with
  | .scalar tag style text =>
      match tag.bind Tag.localName? with
      | some name =>
          if style = .plain && (text = "" || isNull text) then return name else failure
      | none => return text
  | _ => failure

end Moire.Yaml
