import Moire.Yaml.Basic
import Moire.Yaml.Token

/-!
# Reading documents

The tree of a document from its tokens. A label names a node from where the node begins, so that a
node may hold a reference to itself, and a later label of the same name takes its place. A text
holds one document.

Every part of the reader takes the tokens that it needs and leaves the others. A document is read
with fuel for its tokens.
-/

namespace Moire.Yaml

/-- The tokens that are left, and the numbers that the names of labels stand for. -/
structure ReaderState where
  tokens : List Token
  names : List (String × Nat)

/-- A step of the reader, which fails where the tokens form no document. -/
abbrev Reader := StateT ReaderState Option

/-- What the handles of tags stand for. -/
abbrev Handles := List (String × List UInt8)

/-- The handles that every document knows. -/
def Handles.initial : Handles :=
  [("!", Tag.unspecific.bytes), ("!!", (Tag.core "").bytes)]

namespace Reader

/-- The next token. -/
def peek : Reader (Option Token) := do
  return (← get).tokens.head?

/-- Leave the next token behind. -/
def skip : Reader Unit :=
  modify fun state ↦ { state with tokens := state.tokens.tail }

/-- Number the node that a name stands for from here on. The number counts the names so far. -/
def label (name : String) : Reader Nat := do
  let names := (← get).names
  let number := names.length
  let others := names.filter fun (other, _) ↦ other ≠ name
  modify fun state ↦ { state with names := (name, number) :: others }
  return number

/-- The number that a name stands for. -/
def reference (name : String) : Reader Nat := do
  match (← get).names.lookup name with
  | some number => return number
  | none => failure

/-- The name of the label in front of a node, if there is one. -/
def labelName? : Reader (Option String) := do
  match ← peek with
  | some (.label name) => skip; return some name
  | _ => return none

/-- The tag in front of a node, if there is one. -/
def tag? (handles : Handles) : Reader (Option Tag) := do
  match ← peek with
  | some (.tag handle suffix) =>
      skip
      if handle = "" then return some ⟨suffix⟩
      else
        match handles.lookup handle with
        | some meaning => return some ⟨meaning ++ suffix⟩
        | none => failure
  | _ => return none

/-- The label and the tag in front of a node, in either order. -/
def properties (handles : Handles) : Reader (Option String × Option Tag) := do
  match ← labelName? with
  | some name => return (some name, ← tag? handles)
  | none =>
      match ← tag? handles with
      | some tag => return (← labelName?, some tag)
      | none => return (none, none)

/-- The next token is one of those that end an entry of a block. -/
def endsEntry : Option Token → Bool
  | some .key | some .value | some .blockEnd => true
  | _ => false

mutual

/-- A node. Outside of brackets it may be a block, and behind a key a list whose dashes are not
indented. -/
def node (handles : Handles) : Nat → Bool → Bool → Reader Yaml
  | 0, _, _ => failure
  | fuel + 1, inBlock, behindKey => do
      match ← peek with
      | some (.reference name) => skip; return .reference (← reference name)
      | _ =>
          let (name, tag) ← properties handles
          let number ← name.mapM label
          let content ← content handles fuel inBlock behindKey (name.isSome || tag.isSome) tag
          return match number with
            | some number => .labelled number content
            | none => content

/-- The content of a node behind its label and its tag. With one of these it may be missing. -/
def content (handles : Handles) : Nat → Bool → Bool → Bool → Option Tag → Reader Yaml
  | 0, _, _, _, _ => failure
  | fuel + 1, inBlock, behindKey, named, tag => do
      match ← peek with
      | some (.scalar style text) =>
          skip
          return .scalar (if tag = some .unspecific then none else tag) style text
      | some .listOpen => skip; return .list tag (← flowItems handles fuel true)
      | some .mappingOpen => skip; return .mapping tag (← flowEntries handles fuel true)
      | some .dash =>
          if behindKey then return .list tag (← looseItems handles fuel)
          else if named then return .scalar tag .plain ""
          else failure
      | some .blockList =>
          if inBlock then do skip; return .list tag (← blockItems handles fuel)
          else if named then return .scalar tag .plain ""
          else failure
      | some .blockMapping =>
          if inBlock then do skip; return .mapping tag (← blockEntries handles fuel)
          else if named then return .scalar tag .plain ""
          else failure
      | _ => if named then return .scalar tag .plain "" else failure

/-- The items of a list of dashes, up to the end of the block. -/
def blockItems (handles : Handles) : Nat → Reader (List Yaml)
  | 0 => failure
  | fuel + 1 => do
      match ← peek with
      | some .blockEnd => skip; return []
      | some .dash =>
          skip
          let item ← match ← peek with
            | some .dash | some .blockEnd => pure .absent
            | _ => node handles fuel true false
          return item :: (← blockItems handles fuel)
      | _ => failure

/-- The items of a list whose dashes stand below a key. -/
def looseItems (handles : Handles) : Nat → Reader (List Yaml)
  | 0 => failure
  | fuel + 1 => do
      match ← peek with
      | some .dash =>
          skip
          let next ← peek
          let item ← match next with
            | some .dash => pure .absent
            | _ => if endsEntry next then pure .absent else node handles fuel true false
          return item :: (← looseItems handles fuel)
      | _ => return []

/-- The entries of a mapping without braces, up to the end of the block. -/
def blockEntries (handles : Handles) : Nat → Reader (List (Yaml × Yaml))
  | 0 => failure
  | fuel + 1 => do
      match ← peek with
      | some .blockEnd => skip; return []
      | some .key =>
          skip
          let key ← blockPart handles fuel
          let value ← match ← peek with
            | some .value => skip; blockPart handles fuel
            | _ => pure .absent
          return (key, value) :: (← blockEntries handles fuel)
      | _ => failure

/-- A key or a value of a mapping without braces, which may be missing. -/
def blockPart (handles : Handles) : Nat → Reader Yaml
  | 0 => failure
  | fuel + 1 => do
      if endsEntry (← peek) then return .absent else node handles fuel true true

/-- The items of a list in brackets, up to the closing one. All but the first stand behind a
comma. -/
def flowItems (handles : Handles) : Nat → Bool → Reader (List Yaml)
  | 0, _ => failure
  | fuel + 1, first => do
      if let some .listClose ← peek then skip; return []
      if !first then
        match ← peek with
        | some .comma => skip
        | _ => failure
      match ← peek with
      | some .listClose => skip; return []
      | some .key =>
          skip
          let item ← flowPair handles fuel
          return item :: (← flowItems handles fuel false)
      | _ =>
          let item ← node handles fuel false false
          return item :: (← flowItems handles fuel false)

/-- A mapping of one entry inside of a list in brackets. Where its key is missing, the token in the
place of the key is taken for it. -/
def flowPair (handles : Handles) : Nat → Reader Yaml
  | 0 => failure
  | fuel + 1 => do
      let key ← match ← peek with
        | some .value | some .comma | some .listClose => skip; pure .absent
        | _ => node handles fuel false false
      let value ← match ← peek with
        | some .value =>
            skip
            match ← peek with
            | some .comma | some .listClose => pure .absent
            | _ => node handles fuel false false
        | _ => pure .absent
      return .mapping none [(key, value)]

/-- The entries of a mapping in braces, up to the closing one. -/
def flowEntries (handles : Handles) : Nat → Bool → Reader (List (Yaml × Yaml))
  | 0, _ => failure
  | fuel + 1, first => do
      if let some .mappingClose ← peek then skip; return []
      if !first then
        match ← peek with
        | some .comma => skip
        | _ => failure
      match ← peek with
      | some .mappingClose => skip; return []
      | some .key =>
          skip
          let key ← match ← peek with
            | some .value | some .comma | some .mappingClose => pure .absent
            | _ => node handles fuel false false
          let value ← match ← peek with
            | some .value =>
                skip
                match ← peek with
                | some .comma | some .mappingClose => pure .absent
                | _ => node handles fuel false false
            | _ => pure .absent
          return (key, value) :: (← flowEntries handles fuel false)
      | _ =>
          let key ← node handles fuel false false
          return (key, .absent) :: (← flowEntries handles fuel false)

end

/-- The directives in front of a document: the handles that they declare. At most one names a
version, which has to be a known one, and none declares a handle a second time. -/
def directives : Nat → Bool → Handles → Reader Handles
  | 0, _, _ => failure
  | fuel + 1, versioned, handles => do
      match ← peek with
      | some (.directive (.version major minor)) =>
          if versioned || major ≠ 1 || (minor ≠ 1 && minor ≠ 2) then failure
          skip
          directives fuel true handles
      | some (.directive (.handle name meaning)) =>
          if (handles.lookup name).isSome then failure
          skip
          directives fuel versioned ((name, meaning) :: handles)
      | _ => return handles

/-- The root of a document that begins with a mark. -/
def markedRoot (fuel : Nat) : Reader Yaml := do
  let handles ← directives fuel false []
  let some .documentStart ← peek | failure
  skip
  match ← peek with
  | none | some .documentStart | some .documentEnd | some (.directive _) => return .absent
  | _ => node (handles ++ Handles.initial) fuel true false

/-- The root of a document. -/
def root (fuel : Nat) : Reader Yaml := do
  match ← peek with
  | none => return .absent
  | some .documentStart | some (.directive _) => markedRoot fuel
  | _ => node Handles.initial fuel true false

/-- Nothing but marks that end a document is left. -/
def isDone (state : ReaderState) : Bool :=
  state.tokens.all fun token ↦ match token with
    | .documentEnd => true
    | _ => false

end Reader

/-- The document that a text holds. -/
def parse? (source : String) : Option Document := do
  let text := source.toList
  if !text.all isPrintable then none
  let tokens ← tokens? (unifyBreaks text)
  let (root, state) ← (Reader.root (4 * tokens.length + 4)).run ⟨tokens, []⟩
  if Reader.isDone state then some (.ofRoot root) else none

end Moire.Yaml
