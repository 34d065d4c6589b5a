import Moire.Failure
import Moire.Files.Tree
import Moire.Json.Form

/-!
# Documents in files

Values are written to files as JSON documents of a given form, and read back from them.
-/

namespace Moire

/-- Write a document to a file. -/
def writeDocument (form : Json.Form) (files : FileTree) (path : String) (value : Json) :
    Outcome FileTree :=
  match files.write path (form.write value).toUTF8 with
  | .ok files => .ok files
  | .error cause => fail (.transfer path cause.message)

/-- Read a document of a given kind from a file. -/
def readDocument {β : Type} (form : Json.Form) (files : FileTree) (path : String)
    (decode : Json → Option β) : Outcome β :=
  match files.read path with
  | .error cause => fail (.transfer path cause.message)
  | .ok bytes =>
      match (String.fromUTF8? bytes).bind fun text ↦ (form.read? text).bind decode with
      | some value => .ok value
      | none => fail (.transfer path Error.undecodable)

end Moire
