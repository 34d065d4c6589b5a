import Moire.Files.Tree
import Moire.Pickle.Reader
import Moire.Pickle.Writer
import Moire.Store.Cache

/-!
# A folder of stored arrays

Each array is a file of its own in a folder, named for its key. A `ResultStore` is such a folder or
a store in memory.
-/

namespace Moire

/-- A folder in which arrays are stored. -/
structure PickleFolder where
  root : String
  files : FileTree

namespace PickleFolder

/-- Use a folder, which is made if it is not there. -/
def create (files : FileTree) (root : String) : Outcome PickleFolder :=
  match files.createFolder root with
  | .ok files => .ok ⟨root, files⟩
  | .error cause => fail (.store root cause.message)

/-- The path of the file for a key. -/
def pathFor (folder : PickleFolder) (key : String) : String :=
  joinPath folder.root (key ++ ".pkl")

/-- The array under a key. -/
def load (folder : PickleFolder) (key : String) : Outcome (Option (StoredArray Float)) :=
  let path := folder.pathFor key
  if !folder.files.holds path then .ok none
  else
    match folder.files.read path with
    | .error cause => fail (.store key cause.message)
    | .ok bytes =>
        match Pickle.decode? bytes.toList with
        | some array => .ok (some array)
        | none => fail (.store key Error.undecodable)

/-- The folder with an array under a key. -/
def save (folder : PickleFolder) (key : String) (array : StoredArray Float) :
    Outcome PickleFolder :=
  match folder.files.write (folder.pathFor key) (Pickle.encode array).toByteArray with
  | .ok files => .ok { folder with files }
  | .error cause => fail (.store key cause.message)

instance : ResultCache PickleFolder Float where
  load := load
  save := save

end PickleFolder

/-- A store in memory or in a folder. -/
inductive ResultStore where
  | memory (store : MemoryStore Float)
  | folder (store : PickleFolder)

instance : ResultCache ResultStore Float where
  load
    | .memory store, key => ResultCache.load store key
    | .folder store, key => ResultCache.load store key
  save
    | .memory store, key, array => .memory <$> ResultCache.save store key array
    | .folder store, key, array => .folder <$> ResultCache.save store key array

end Moire
