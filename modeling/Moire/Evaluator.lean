import Moire.Word

/-!
# Work over many points

An evaluator cuts a list of points into one chunk per worker and works on the chunks side by side.
Finished chunks come back in any order, each tagged with its place; `collect` restores the order
and reports the failure of the first chunk that failed. A failure on a chunk is told with the
chunk's number, whatever its own kind was.
-/

namespace Moire

/-- A number of workers. -/
structure Evaluator where
  workers : Nat
  deriving DecidableEq, Repr, Inhabited

/-- The outcome of a chunk, tagged with the chunk's place. -/
structure ChunkResult (γ : Type) where
  index : Nat
  payload : Outcome (List γ)

/-- What a worker reports for a failure on its chunk. -/
def Failure.onChunk (chunk : Nat) : Failure → Failure
  | .error (.worker _ stage reason) => .error (.worker chunk stage reason)
  | .error (.numerical stage reason) => .error (.worker chunk stage reason)
  | .error cause => .error (.worker chunk cause.stage cause.message)
  | .fault cause => .error (.worker chunk .evaluation cause.message)

/-- The values of a function on a chunk, up to its first failure. -/
def runChunk {β γ : Type} (index : Nat) (f : β → Outcome γ) (chunk : List β) :
    Outcome (List γ) :=
  match chunk.mapM f with
  | .ok values => .ok values
  | .error cause => .error (cause.onChunk index)

/-- The outcomes of all chunks, in the order of the chunks. -/
def chunkResults {β γ : Type} (f : β → Outcome γ) (chunks : List (List β)) :
    List (ChunkResult γ) :=
  chunks.zipIdx.map fun (chunk, index) ↦ ⟨index, runChunk index f chunk⟩

/-- Put finished chunks into their order. All of `count` chunks have to be there, and the first
failure among them is the failure of the whole. -/
def collect {γ : Type} (count : Nat) (results : List (ChunkResult γ)) :
    Outcome (List (List γ)) := do
  let ordered := results.mergeSort fun a b ↦ a.index ≤ b.index
  if ordered.length ≠ count then
    fail (.worker ordered.length .evaluation "chunk result was lost")
  ordered.mapM ChunkResult.payload

/-- The values of finished chunks, one after the other. -/
def assemble {γ : Type} (count : Nat) (results : List (ChunkResult γ)) : Outcome (List γ) := do
  let values ← collect count results
  return values.flatten

/-- Cut a list into pieces of given sizes. -/
def splitSizes {β : Type} : List Nat → List β → List (List β)
  | [], _ => []
  | size :: sizes, items => items.take size :: splitSizes sizes (items.drop size)

namespace Evaluator

/-- An evaluator with a given number of workers. -/
def create (workers : Nat) : Outcome Evaluator := do
  if workers = 0 then refuse "workers" "at least one worker is required"
  return ⟨workers⟩

/-- The sizes of the chunks of a list: equal ones, one per worker as far as the items go, and the
last one takes the remainder. -/
def chunkSizes (evaluator : Evaluator) (length : Nat) : List Nat :=
  if length = 0 then []
  else
    let chunks := min evaluator.workers length
    let size := length / chunks
    List.replicate (chunks - 1) size ++ [length - (chunks - 1) * size]

/-- Cut a list into chunks. -/
def partition {β : Type} (evaluator : Evaluator) (items : List β) : List (List β) :=
  splitSizes (evaluator.chunkSizes items.length) items

/-- The values of a function on given chunks, chunk by chunk. -/
def evaluateChunks {β γ : Type} (_ : Evaluator) (chunks : List (List β)) (f : β → Outcome γ) :
    Outcome (List (List γ)) :=
  collect chunks.length (chunkResults f chunks)

/-- The values of a function on a list of points, in the order of the points. -/
def evaluate {β γ : Type} (evaluator : Evaluator) (points : List β) (f : β → Outcome γ) :
    Outcome (List γ) :=
  let chunks := evaluator.partition points
  assemble chunks.length (chunkResults f chunks)

/-- What is told before work on a number of points begins. -/
def announcement (evaluator : Evaluator) (length : Nat) : String :=
  let chunks := (evaluator.chunkSizes length).length
  s!"Evaluating {length} k-points in {chunks} chunks on {evaluator.workers} workers"

end Evaluator

end Moire
