import Moire.Failure

/-!
# Files and folders

A tree of files, in which results are stored and from which settings are read. A path is a text in
which bars separate the names of folders. Every operation either succeeds or fails with the error
that the operating system reports. The steps of a path are followed one by one, so that two dots
lead back only from a folder that is there.
-/

namespace Moire

/-- Why the system refuses an operation on files. -/
inductive SystemError where
  | notFound
  | alreadyExists
  | notFolder
  | isFolder
  | nameTooLong
  /-- The path holds a character that no name may hold. -/
  | badName
  deriving DecidableEq, Repr, Inhabited

/-- The wording of the operating system. -/
def SystemError.message : SystemError → String
  | .notFound => "No such file or directory (os error 2)"
  | .alreadyExists => "File exists (os error 17)"
  | .notFolder => "Not a directory (os error 20)"
  | .isFolder => "Is a directory (os error 21)"
  | .nameTooLong => "File name too long (os error 36)"
  | .badName => Error.unusableName

/-- A file or a folder. -/
inductive FileTree where
  | file (content : ByteArray)
  | folder (entries : List (String × FileTree))
  deriving Inhabited

/-- The bytes of a name, at most. -/
def longestName : Nat := 255

/-- The bytes of a path, at most. -/
def longestPath : Nat := 4095

/-- Refuse a path that cannot be handed to the system. -/
def checkPath (path : String) : Except SystemError Unit :=
  if path.toList.contains '\x00' then .error .badName
  else if longestPath < path.utf8ByteSize then .error .nameTooLong
  else .ok ()

/-- The texts between the bars of a path. -/
def barParts : List Char → List (List Char)
  | [] => [[]]
  | c :: rest =>
      if c = '/' then [] :: barParts rest
      else
        match barParts rest with
        | part :: parts => (c :: part) :: parts
        | [] => [[c]]

/-- The steps along a path. Empty ones stand for nothing. -/
def pathSteps (path : String) : List String :=
  ((barParts path.toList).filter (· ≠ [])).map String.ofList

/-- The names along a path, with single dots left out and with two dots taking the name before them
away. -/
def pathNames (path : String) : List String :=
  ((pathSteps path).foldl
    (fun names step ↦
      if step = "." then names else if step = ".." then names.tail else step :: names)
    []).reverse

/-- The steps along a path without the single dots behind the first step. -/
def pathParts (path : String) : List String :=
  match pathSteps path with
  | first :: rest => first :: rest.filter (· ≠ ".")
  | [] => []

/-- A path, the path of the folder that it stands in, and so on. -/
def pathsUp (path : String) : List String :=
  let parts := pathParts path
  path :: (List.range (parts.length - 1)).map fun i ↦
    "/".intercalate (parts.take (parts.length - 1 - i))

/-- A path followed by a further one. An absolute path stands for itself. -/
def joinPath (base path : String) : String :=
  if path.startsWith "/" then path
  else if base = "" ∨ base.endsWith "/" then base ++ path
  else base ++ "/" ++ path

namespace FileTree

/-- An empty folder. -/
def empty : FileTree := .folder []

/-- Put an entry into a list of entries, in place of the one of the same name. -/
def setEntry (name : String) (tree : FileTree) :
    List (String × FileTree) → List (String × FileTree)
  | [] => [(name, tree)]
  | (other, old) :: rest =>
      if other = name then (name, tree) :: rest else (other, old) :: setEntry name tree rest

/-- The entry of a name. -/
def child (entries : List (String × FileTree)) (name : String) : Except SystemError FileTree :=
  if longestName < name.utf8ByteSize then .error .nameTooLong
  else
    match entries.lookup name with
    | some tree => .ok tree
    | none => .error .notFound

/-- What stands at the end of a list of names. -/
def find : FileTree → List String → Except SystemError FileTree
  | tree, [] => .ok tree
  | .file _, _ :: _ => .error .notFolder
  | .folder entries, name :: rest =>
      match child entries name with
      | .ok tree => find tree rest
      | .error cause => .error cause

/-- The tree with another one at the end of a list of names. -/
def graft (other : FileTree) : FileTree → List String → FileTree
  | _, [] => other
  | .file content, _ :: _ => .file content
  | .folder entries, name :: rest =>
      .folder (setEntry name (graft other ((entries.lookup name).getD empty) rest) entries)

/-- The entries of the folder at the end of a list of names. -/
def findFolder (tree : FileTree) (names : List String) :
    Except SystemError (List (String × FileTree)) := do
  match ← tree.find names with
  | .folder entries => return entries
  | .file _ => throw .notFolder

/-- Follow the steps of a path. Dots are only found in a folder that is there. -/
def follow (tree : FileTree) (names : List String) :
    List String → Except SystemError (List String)
  | [] => .ok names
  | step :: rest =>
      if step = "." then do
        let _ ← tree.findFolder names
        follow tree names rest
      else if step = ".." then do
        let _ ← tree.findFolder names
        follow tree names.dropLast rest
      else follow tree (names ++ [step]) rest

/-- The names that lead to what a path stands for. There is none for the empty path. -/
def locate (tree : FileTree) (path : String) : Except SystemError (List String) := do
  checkPath path
  if path = "" then throw .notFound
  tree.follow [] (pathSteps path)

/-- The content of a file. A path with a bar at its end is that of a folder. -/
def read (tree : FileTree) (path : String) : Except SystemError ByteArray := do
  match ← tree.find (← tree.locate path) with
  | .file content => if path.endsWith "/" then throw .notFolder else return content
  | .folder _ => throw .isFolder

/-- Write a file. Its folder has to be there. -/
def write (tree : FileTree) (path : String) (content : ByteArray) :
    Except SystemError FileTree := do
  let names ← tree.locate path
  if path.endsWith "/" then do
    let _ ← tree.findFolder names.dropLast
    throw .isFolder
  match tree.find names with
  | .ok (.folder _) => throw .isFolder
  | .ok (.file _) => return graft (.file content) tree names
  | .error .notFound => do
      let _ ← tree.findFolder names.dropLast
      return graft (.file content) tree names
  | .error cause => throw cause

/-- A folder stands at a path. -/
def holdsFolder (tree : FileTree) (path : String) : Bool :=
  match tree.locate path with
  | .ok names => (tree.findFolder names).isOk
  | .error _ => false

/-- Make a folder in one that is there. -/
def makeFolder (tree : FileTree) (path : String) : Except SystemError FileTree := do
  checkPath path
  let steps := pathSteps path
  let parent ← tree.follow [] steps.dropLast
  let _ ← tree.findFolder parent
  match steps.getLast? with
  | none => throw .alreadyExists
  | some last =>
      if last = "." ∨ last = ".." then throw .alreadyExists
      let names := parent ++ [last]
      match tree.find names with
      | .ok _ => throw .alreadyExists
      | .error .notFound => return graft empty tree names
      | .error cause => throw cause

/-- Make a folder unless it is there. -/
def ensureFolder (tree : FileTree) (path : String) : Except SystemError FileTree :=
  match tree.makeFolder path with
  | .error cause => if tree.holdsFolder path then .ok tree else .error cause
  | made => made

/-- Make the first of several folders, each of which stands in the next one. Where the next one is
missing, it is made before. -/
def ensureFolders (tree : FileTree) : List String → Except SystemError FileTree
  | [] => .ok tree
  | path :: above =>
      match tree.ensureFolder path with
      | .error .notFound => do
          let grown ← ensureFolders tree above
          grown.ensureFolder path
      | made => made

/-- Make a folder together with the folders that it stands in. -/
def createFolder (tree : FileTree) (path : String) : Except SystemError FileTree :=
  if path = "" then .ok tree else tree.ensureFolders (pathsUp path)

/-- Something stands at a path. -/
def holds (tree : FileTree) (path : String) : Bool :=
  match tree.locate path with
  | .ok names => (tree.find names).isOk
  | .error _ => false

mutual

/-- The paths of all files below a place. -/
def paths (place : String) : FileTree → List String
  | .file _ => [place]
  | .folder entries => entryPaths place entries

/-- The paths of all files in a list of entries. -/
def entryPaths (place : String) : List (String × FileTree) → List String
  | [] => []
  | (name, tree) :: rest => paths (joinPath place name) tree ++ entryPaths place rest

end

/-- The paths of all files in order. -/
def listing (tree : FileTree) : List String :=
  (tree.paths "").mergeSort fun a b ↦ decide (a ≤ b)

/-- The paths of all files below a folder, as seen from there and in order. -/
def listingAt (tree : FileTree) (path : String) : List String :=
  match tree.locate path >>= tree.findFolder with
  | .ok entries => listing (.folder entries)
  | .error _ => []

/-- Put a file into the tree together with the folders that it stands in. -/
def seed (tree : FileTree) (path : String) (content : ByteArray) : Except SystemError FileTree := do
  let grown ← tree.createFolder ("/".intercalate (pathSteps path).dropLast)
  grown.write path content

end FileTree

end Moire
