import Moire.BandModel
import Moire.Log
import Moire.Store.Array
import Std.Data.TreeMap

/-!
# Stores of results

A store keeps arrays under keys. A key names the model, what was computed, the twist angle and the
density of points. `cachedRows` takes a table from the store, or computes it and stores it.
-/

namespace Moire

/-- Something that keeps arrays under keys. -/
class ResultCache (σ : Type) (α : outParam Type) where
  /-- The array under a key. -/
  load : σ → String → Outcome (Option (StoredArray α))
  /-- The store with an array under a key. -/
  save : σ → String → StoredArray α → Outcome σ

/-- The key of a result. -/
def resultKey {α : Type} [Number α] (model : BandModel α) (kind : String) (density : Nat) :
    String :=
  model.name ++ "_" ++ kind ++ "_" ++ Number.fixed 4 model.twistAngle ++ s!"_density_{density}"

/-- A store and the log of the work on it. -/
structure Session (σ : Type) where
  cache : σ
  log : Log

/-- A computation on a store that tells what it does. What it did before it stopped is kept. -/
abbrev Job (σ : Type) := ExceptT Failure (StateM (Session σ))

namespace Job

/-- Carry out a computation that does not need the store. -/
def ofLogged {σ β : Type} (work : Logged β) : Job σ β := fun session ↦
  let (result, log) := work session.log
  (result, { session with log })

/-- Computations that do not need a store are computations on any. -/
instance {σ : Type} : MonadLift Logged (Job σ) := ⟨ofLogged⟩

variable {σ α : Type} [ResultCache σ α]

/-- Look a key up. -/
def load (key : String) : Job σ (Option (StoredArray α)) := fun session ↦
  (ResultCache.load session.cache key, session)

/-- Store an array under a key. -/
def save (key : String) (array : StoredArray α) : Job σ Unit := fun session ↦
  match ResultCache.save session.cache key array with
  | .ok cache => (.ok (), { session with cache })
  | .error cause => (.error cause, session)

end Job

variable {σ α : Type} [ResultCache σ α]

/-- Compute a table and store it. -/
def computeRows (key : String) (compute : Logged (List (List α))) : Job σ (List (List α)) := do
  let rows ← compute
  let array ← StoredArray.ofRows rows
  Job.save key array
  return rows

/-- The table under a key, or, if there is none or the store is to be refreshed, the computed
one. -/
def cachedRows (key : String) (refresh : Bool) (compute : Logged (List (List α))) :
    Job σ (List (List α)) := do
  if refresh then computeRows key compute
  else
    match ← Job.load key with
    | some hit => do
        say s!"Loaded {key} from cache"
        hit.toRows
    | none => computeRows key compute

/-- Arrays kept in memory. -/
structure MemoryStore (α : Type) where
  entries : Std.TreeMap String (StoredArray α)

namespace MemoryStore

variable {α : Type}

/-- The store without arrays. -/
def empty : MemoryStore α := ⟨∅⟩

/-- Put an array under a key. -/
def insert (store : MemoryStore α) (key : String) (array : StoredArray α) : MemoryStore α :=
  ⟨store.entries.insert key array⟩

/-- The array under a key. -/
def get? (store : MemoryStore α) (key : String) : Option (StoredArray α) :=
  store.entries[key]?

/-- The keys in order. -/
def keys (store : MemoryStore α) : List String := store.entries.keys

instance : ResultCache (MemoryStore α) α where
  load store key := .ok (store.get? key)
  save store key array := .ok (store.insert key array)

end MemoryStore

end Moire
