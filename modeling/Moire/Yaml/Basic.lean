/-!
# YAML documents

A document is a tree of scalars, lists and mappings. A node may carry a tag, and it may be labelled,
so that other places of the document stand for it. A scalar keeps how it was written, for only a
plain one is a number, a truth value or nothing of its own accord.
-/

namespace Moire.Yaml

/-- How a scalar is written. -/
inductive Style where
  | plain
  | quoted
  | literal
  | folded
  deriving DecidableEq, Repr, Inhabited

/-- The name of the kind of a node, by its bytes. -/
structure Tag where
  bytes : List UInt8
  deriving DecidableEq, Repr, Inhabited

namespace Tag

/-- The tag of one of the kinds that every document knows. -/
def core (kind : String) : Tag :=
  ⟨("tag:yaml.org,2002:" ++ kind).toUTF8.toList⟩

/-- The tag that leaves the kind of a node open. -/
def unspecific : Tag := ⟨[0x21]⟩

/-- The tag starts with an exclamation mark. -/
def isLocal (tag : Tag) : Bool := tag.bytes.head? = some 0x21

/-- The name of a local tag, which is what stands behind its exclamation mark. -/
def localName? (tag : Tag) : Option String :=
  match tag.bytes with
  | [0x21] => some "!"
  | 0x21 :: name => String.fromUTF8? name.toByteArray
  | _ => none

end Tag

end Moire.Yaml

namespace Moire

/-- A node of a YAML document. -/
inductive Yaml where
  | scalar (tag : Option Yaml.Tag) (style : Yaml.Style) (text : String)
  | list (tag : Option Yaml.Tag) (items : List Yaml)
  | mapping (tag : Option Yaml.Tag) (entries : List (Yaml × Yaml))
  /-- A node with a label. -/
  | labelled (label : Nat) (node : Yaml)
  /-- A place that stands for the node with a label. -/
  | reference (label : Nat)
  deriving Inhabited

namespace Yaml

/-- A value that is not written at all. -/
def absent : Yaml := .scalar none .plain ""

mutual

/-- The labelled nodes, in the order in which they begin. -/
def labels : Yaml → List (Nat × Yaml)
  | .scalar _ _ _ => []
  | .list _ items => itemLabels items
  | .mapping _ entries => entryLabels entries
  | .labelled label node => (label, node) :: labels node
  | .reference _ => []

/-- The labelled nodes of the items of a list. -/
def itemLabels : List Yaml → List (Nat × Yaml)
  | [] => []
  | item :: rest => labels item ++ itemLabels rest

/-- The labelled nodes of the entries of a mapping. -/
def entryLabels : List (Yaml × Yaml) → List (Nat × Yaml)
  | [] => []
  | (key, value) :: rest => labels key ++ labels value ++ entryLabels rest

end

mutual

/-- The number of scalars, of references, and of beginnings and ends of collections. -/
def size : Yaml → Nat
  | .scalar _ _ _ => 1
  | .list _ items => itemsSize items + 2
  | .mapping _ entries => entriesSize entries + 2
  | .labelled _ node => size node
  | .reference _ => 1

/-- The size of the items of a list. -/
def itemsSize : List Yaml → Nat
  | [] => 0
  | item :: rest => size item + itemsSize rest

/-- The size of the entries of a mapping. -/
def entriesSize : List (Yaml × Yaml) → Nat
  | [] => 0
  | (key, value) :: rest => size key + size value + entriesSize rest

end

/-- A document: its root, its labelled nodes with the latest first, and the number of references
that a reader of it may follow. -/
structure Document where
  root : Yaml
  labelled : List (Nat × Yaml)
  limit : Nat

/-- The document of a root. -/
def Document.ofRoot (root : Yaml) : Document :=
  ⟨root, root.labels.reverse, 100 * root.size⟩

end Yaml

end Moire
