/-!
# Why a computation stops

An `Error` is a cause that the library reports: a parameter out of range, a table of the wrong
size, a solver that gave up, a file that could not be read. A `Fault` is a broken precondition of
the arithmetic underneath, such as a sum that leaves its machine word. `Failure` is either, and
every computation that can stop returns in `Outcome`. The wording is in `Error.message` and
`Fault.message` alone.
-/

namespace Moire

/-- The part of the work at one point in which a failure happened. -/
inductive Stage where
  | assembly
  | eigen
  | aggregation
  | evaluation
  deriving DecidableEq, Repr, Inhabited

/-- How a stage reads in messages. -/
def Stage.text : Stage → String
  | .assembly => "Hamiltonian assembly"
  | .eigen => "eigen-decomposition"
  | .aggregation => "aggregation"
  | .evaluation => "evaluation"

/-- A reported cause. -/
inductive Error where
  /-- The lattice closure did not reach an index within a number of rounds. -/
  | unreached (i j : Int) (rounds : Nat)
  | dimensionMismatch (context : String) (expected found : Nat)
  | invalidParameter (name reason : String)
  | numerical (stage : Stage) (reason : String)
  /-- The work on a chunk of points failed. -/
  | worker (chunk : Nat) (stage : Stage) (reason : String)
  | store (key reason : String)
  | transfer (path reason : String)
  | threadPool (reason : String)
  deriving DecidableEq, Repr, Inhabited

/-- The reason that is given for the content of a file that is not of the kind it should be. -/
def Error.undecodable : String := "the content cannot be decoded"

/-- The reason that is given for a path with a character that no name may hold. -/
def Error.unusableName : String := "file name contained an unexpected NUL byte"

/-- The reason is not one of the operating system, nor one that a check of values gives. -/
def Error.isForeign (reason : String) : Bool :=
  reason = undecodable || reason = unusableName

/-- The wording of a closure that stopped short. -/
def Error.unreachedText (i j : Int) (rounds : Nat) : String :=
  s!"lattice closure did not reach index ({i}, {j}) within {rounds} rounds"

/-- The wording of a cause. -/
def Error.message : Error → String
  | .unreached i j rounds => "basis generation failed: " ++ unreachedText i j rounds
  | .dimensionMismatch context expected found =>
      s!"dimension mismatch in {context}: expected {expected}, found {found}"
  | .invalidParameter name reason => s!"invalid parameter `{name}`: {reason}"
  | .numerical stage reason => "numerical failure during " ++ stage.text ++ ": " ++ reason
  | .worker chunk stage reason =>
      s!"worker for chunk {chunk} failed during " ++ stage.text ++ ": " ++ reason
  | .store key reason => s!"cache error for `{key}`: {reason}"
  | .transfer path reason => s!"export to `{path}` failed: {reason}"
  | .threadPool reason => s!"failed to build thread pool: {reason}"

/-- The stage that a worker reports for a cause. -/
def Error.stage : Error → Stage
  | .numerical stage _ => stage
  | .worker _ stage _ => stage
  | .dimensionMismatch .. => .assembly
  | _ => .evaluation

/-- The operations of machine integers that can leave their word. -/
inductive WordOperation where
  | add
  | subtract
  | multiply
  | negate
  deriving DecidableEq, Repr, Inhabited

/-- The verb of an operation. -/
def WordOperation.text : WordOperation → String
  | .add => "add"
  | .subtract => "subtract"
  | .multiply => "multiply"
  | .negate => "negate"

/-- A broken precondition. -/
inductive Fault where
  | overflow (operation : WordOperation)
  | indexOutOfBounds (length index : Nat)
  /-- More elements were asked for than memory can address. -/
  | capacityOverflow
  | emptyMatrix
  /-- A sort found that its comparisons contradict each other. -/
  | inconsistentOrder
  /-- A fault raised by a caller's own function, with its text if it has one. -/
  | raised (text : Option String)
  deriving DecidableEq, Repr, Inhabited

/-- The wording of a fault. -/
def Fault.message : Fault → String
  | .overflow operation => "attempt to " ++ operation.text ++ " with overflow"
  | .indexOutOfBounds length index =>
      s!"index out of bounds: the len is {length} but the index is {index}"
  | .capacityOverflow => "capacity overflow"
  | .emptyMatrix =>
      "Unable to compute the symmetric tridiagonal decomposition of an empty matrix."
  | .inconsistentOrder =>
      "user-provided comparison function does not correctly implement a total order"
  | .raised (some text) => text
  | .raised none => "worker panicked"

/-- Why a computation stopped. -/
inductive Failure where
  | error (cause : Error)
  | fault (cause : Fault)
  deriving DecidableEq, Repr, Inhabited

/-- The wording of a failure. -/
def Failure.message : Failure → String
  | .error cause => cause.message
  | .fault cause => cause.message

/-- The result of a computation that can stop. -/
abbrev Outcome := Except Failure

/-- Stop with a reported cause. -/
def fail {β : Type} (cause : Error) : Outcome β :=
  .error (.error cause)

/-- Stop with a broken precondition. -/
def breakDown {β : Type} (cause : Fault) : Outcome β :=
  .error (.fault cause)

/-- Refuse a parameter. -/
def refuse {β : Type} (name reason : String) : Outcome β :=
  fail (.invalidParameter name reason)

/-- The entry of a list, which has to be there. -/
def entry {β : Type} (items : List β) (i : Nat) : Outcome β :=
  match items[i]? with
  | some item => .ok item
  | none => breakDown (.indexOutOfBounds items.length i)

/-- An entry that is there is found. -/
theorem entry_eq_ok {β : Type} {items : List β} {i : Nat} {item : β} (h : items[i]? = some item) :
    entry items i = .ok item := by
  rw [entry, h]

/-- A lookup within a list finds the entry. -/
theorem entry_getD {β : Type} {items : List β} {i : Nat} (fallback : β) (h : i < items.length) :
    entry items i = .ok (items.getD i fallback) := by
  refine entry_eq_ok ?_
  rw [List.getD_eq_getElem?_getD, List.getElem?_eq_getElem h, Option.getD_some]

/-- A lookup behind the end breaks down. -/
theorem entry_eq_breakDown {β : Type} {items : List β} {i : Nat} (h : items.length ≤ i) :
    entry items i = breakDown (.indexOutOfBounds items.length i) := by
  rw [entry, List.getElem?_eq_none h]

/-- A computation in two parts succeeds when both of them do. -/
theorem bind_eq_ok {β γ : Type} {first : Outcome β} {next : β → Outcome γ} {result : γ} :
    (first >>= next) = .ok result ↔ ∃ value, first = .ok value ∧ next value = .ok result := by
  cases first with
  | error failure => exact ⟨nofun, nofun⟩
  | ok value => exact ⟨fun h ↦ ⟨value, rfl, h⟩, fun ⟨_, rfl, h⟩ ↦ h⟩

end Moire
