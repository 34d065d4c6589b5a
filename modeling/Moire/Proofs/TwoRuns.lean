import Moire.Run.Task

/-!
# Two runs side by side

Computations that may stop and that change a state are compared with each other. Two of them agree
along a relation of states, `Agree`, if from related states they have the same result and end in
related states. Agreement follows the steps of the two computations (`Agree.bind`), and it is
carried from computations that tell what they do to those on a store and to steps of a run. A
computation whose result does not depend on the log agrees with itself along every relation of logs,
`Steady`. Where computations may fail in different ways but return the same, one reproduces the
other, `Reproduces`.
-/

namespace Moire

variable {S β γ : Type}

/-- From related states the two computations have the same result and end in related states. -/
def Agree (R : S → S → Prop) (first second : ExceptT Failure (StateM S) β) : Prop :=
  ∀ s s', R s s' → (first s).1 = (second s').1 ∧ R (first s).2 (second s').2

variable {R : S → S → Prop}

/-- Two steps run one after the other: the second from the state that the first left, if it
returned. -/
theorem run_bind (first : ExceptT Failure (StateM S) β) (next : β → ExceptT Failure (StateM S) γ)
    (s : S) : (first >>= next) s = match first s with
      | (.ok value, after) => next value after
      | (.error cause, after) => (.error cause, after) := by
  show StateT.bind first (ExceptT.bindCont next) s = _
  unfold StateT.bind
  show (match first s with | (result, after) => ExceptT.bindCont next result after) = _
  obtain ⟨result, after⟩ := first s
  cases result <;> rfl

/-- A step that succeeds hands over to the next one. -/
theorem run_bind_ok {first : ExceptT Failure (StateM S) β} {s : S} {value : β}
    (h : (first s).1 = .ok value) (next : β → ExceptT Failure (StateM S) γ) :
    (first >>= next) s = next value (first s).2 := by
  rw [run_bind]
  rcases hfirst : first s with ⟨result, after⟩
  rw [hfirst] at h
  obtain rfl : result = .ok value := h
  rfl

/-- After a step that stops nothing else is done. -/
theorem run_bind_error {first : ExceptT Failure (StateM S) β} {s : S} {cause : Failure}
    (h : (first s).1 = .error cause) (next : β → ExceptT Failure (StateM S) γ) :
    (first >>= next) s = (.error cause, (first s).2) := by
  rw [run_bind]
  rcases hfirst : first s with ⟨result, after⟩
  rw [hfirst] at h
  obtain rfl : result = .error cause := h
  rfl

/-- Two steps return when the first does and the second does from every state. -/
theorem returns_bind {first : ExceptT Failure (StateM S) β} {s : S} {value : β}
    (h : (first s).1 = .ok value) {next : β → ExceptT Failure (StateM S) γ} {last : γ}
    (hnext : ∀ after, (next value after).1 = .ok last) : ((first >>= next) s).1 = .ok last := by
  rw [run_bind_ok h]
  exact hnext _

/-- Both steps of a computation that returns have returned. -/
theorem exists_of_bind_ok {first : ExceptT Failure (StateM S) β}
    {next : β → ExceptT Failure (StateM S) γ} {s : S} {last : γ}
    (h : ((first >>= next) s).1 = .ok last) :
    ∃ value, (first s).1 = .ok value ∧ (next value (first s).2).1 = .ok last := by
  rw [run_bind] at h
  rcases hfirst : first s with ⟨result, after⟩
  rw [hfirst] at h
  cases result with
  | ok value => exact ⟨value, rfl, h⟩
  | error cause => cases h

/-- Returning a value runs alike from any two states. -/
theorem agree_pure (value : β) : Agree R (pure value) (pure value) :=
  fun _ _ h ↦ ⟨rfl, h⟩

/-- What does not touch the state agrees with itself. -/
theorem agree_outcome (outcome : Outcome β) :
    Agree R (liftM outcome : ExceptT Failure (StateM S) β) (liftM outcome) :=
  fun _ _ h ↦ ⟨rfl, h⟩

/-- Agreement of two steps one after the other. The second one is only asked for values that the
first one can return. -/
theorem Agree.bind {first second : ExceptT Failure (StateM S) β}
    {next following : β → ExceptT Failure (StateM S) γ} (h : Agree R first second)
    (hnext : ∀ value, (∃ s, (first s).1 = .ok value) → Agree R (next value) (following value)) :
    Agree R (first >>= next) (second >>= following) := by
  intro s s' hs
  obtain ⟨hresult, hafter⟩ := h s s' hs
  rw [run_bind, run_bind]
  rcases hfirst : first s with ⟨result, after⟩
  rcases hsecond : second s' with ⟨result', after'⟩
  rw [hfirst, hsecond] at hresult hafter
  obtain rfl : result = result' := hresult
  cases result with
  | ok value => exact hnext value ⟨s, by rw [hfirst]⟩ _ _ hafter
  | error cause => exact ⟨rfl, hafter⟩

/-! ## What a computation returns -/

/-- Whatever the computation returns has the property. -/
def Ensures (work : ExceptT Failure (StateM S) β) (P : β → Prop) : Prop :=
  ∀ s value, (work s).1 = .ok value → P value

/-- What holds of a value holds of what returning it gives. -/
theorem ensures_pure {P : β → Prop} {value : β} (h : P value) :
    Ensures (pure value : ExceptT Failure (StateM S) β) P := by
  intro _ other hvalue
  cases hvalue
  exact h

/-- What holds of every value of an outcome holds of what lifting it gives. -/
theorem ensures_outcome {outcome : Outcome β} {P : β → Prop}
    (h : ∀ value, outcome = .ok value → P value) :
    Ensures (liftM outcome : ExceptT Failure (StateM S) β) P :=
  fun _ value hvalue ↦ h value hvalue

/-- What the first step ensures may be used for the second. -/
theorem Ensures.bind {first : ExceptT Failure (StateM S) β}
    {next : β → ExceptT Failure (StateM S) γ} {P : β → Prop} {Q : γ → Prop} (h : Ensures first P)
    (hnext : ∀ value, P value → Ensures (next value) Q) : Ensures (first >>= next) Q := by
  intro s value hvalue
  obtain ⟨middle, hfirst, hlast⟩ := exists_of_bind_ok hvalue
  exact hnext middle (h s middle hfirst) _ value hlast

/-- The trivial condition is always ensured. -/
theorem ensures_true (work : ExceptT Failure (StateM S) β) : Ensures work fun _ ↦ True :=
  fun _ _ _ ↦ trivial

/-- Whatever the first computation returns, from any state, the second one returns from every
state. -/
def Reproduces (first second : ExceptT Failure (StateM S) β) : Prop :=
  ∀ s s' value, (first s).1 = .ok value → (second s').1 = .ok value

/-- Outcomes with the same value are reproduced, whatever the state. -/
theorem reproduces_outcome {outcome other : Outcome β}
    (h : ∀ value, outcome = .ok value → other = .ok value) :
    Reproduces (liftM outcome : ExceptT Failure (StateM S) β) (liftM other) :=
  fun _ _ value hvalue ↦ h value hvalue

/-- Steps that are reproduced one by one are reproduced together. -/
theorem Reproduces.bind {first second : ExceptT Failure (StateM S) β}
    {next following : β → ExceptT Failure (StateM S) γ} (h : Reproduces first second)
    (hnext : ∀ value, Reproduces (next value) (following value)) :
    Reproduces (first >>= next) (second >>= following) := by
  intro s s' value hvalue
  obtain ⟨middle, hfirst, hlast⟩ := exists_of_bind_ok hvalue
  exact returns_bind (h s s' middle hfirst) fun _ ↦ hnext middle _ _ value hlast

/-! ## Computations that tell what they do -/

/-- The result does not depend on what was told before. -/
def Steady (work : Logged β) : Prop := Agree (fun _ _ ↦ True) work work

/-- Telling something does not depend on what was told before. -/
theorem steady_say (message : String) : Steady (say message) := fun _ _ _ ↦ ⟨rfl, trivial⟩

/-- Steady steps are steady together. -/
theorem Steady.bind {work : Logged β} {next : β → Logged γ} (h : Steady work)
    (hnext : ∀ value, Steady (next value)) : Steady (work >>= next) :=
  Agree.bind h fun value _ ↦ hnext value

/-- Telling one thing reproduces telling another, since neither returns anything. -/
theorem reproduces_say (message other : String) : Reproduces (say message) (say other) :=
  fun _ _ _ hvalue ↦ hvalue

/-- The result of a computation from an empty log. -/
def Logged.result (work : Logged β) : Outcome β := (work #[]).1

/-- A steady computation has its result with any messages before it. -/
theorem Steady.result_eq {work : Logged β} (h : Steady work) (log : Log) :
    (work log).1 = work.result :=
  (h log #[] trivial).1

/-! ## Computations on a store and steps of a run -/

variable {σ α : Type}

/-- A computation that does not need the store agrees with itself along a relation of stores. -/
theorem Steady.agree_job {R : σ → σ → Prop} {work : Logged β} (h : Steady work) :
    Agree (fun s s' : Session σ ↦ R s.cache s'.cache) (Job.ofLogged work) (Job.ofLogged work) :=
  fun s s' hs ↦ ⟨(h s.log s'.log trivial).1, hs⟩

/-- Agreement on the store carries over to the run, which keeps the report. -/
theorem Agree.ofJob {R : Session σ → Session σ → Prop} {first second : Job σ β}
    (h : Agree R first second) :
    Agree (fun b b' : Bench σ α ↦ R b.session b'.session ∧ b.report = b'.report)
      (Run.ofJob first) (Run.ofJob second) := by
  intro b b' hb
  obtain ⟨hresult, hafter⟩ := h b.session b'.session hb.1
  exact ⟨hresult, hafter, hb.2⟩

/-- Amending equal reports leaves equal reports. -/
theorem agree_amend {R : Session σ → Session σ → Prop} (change : Report α → Report α) :
    Agree (fun b b' : Bench σ α ↦ R b.session b'.session ∧ b.report = b'.report)
      (Run.amend change) (Run.amend change) :=
  fun _ _ hb ↦ ⟨rfl, hb.1, congrArg change hb.2⟩

/-! ## Steps of a task -/

namespace Task

variable [Scalar α] [ResultCache σ α]

/-- A task says what it is and then does it. -/
theorem run_eq (task : Task) (ctx : TaskContext α) (bench : Bench σ α) :
    ∃ log, task.run ctx bench = task.body ctx ⟨⟨bench.session.cache, log⟩, bench.report⟩ :=
  ⟨_, rfl⟩

/-- The reported differences are those of the rows over the grid, stored or computed. -/
theorem run_energyDifference {ctx : TaskContext α} {bench : Bench σ α} {rows : List (List α)}
    {differences : List α}
    (hrows : ∀ log, (gridEnergies ctx ⟨bench.session.cache, log⟩).1 = .ok rows)
    (hpair : ctx.params.transitionPair = none)
    (hdifferences : energyDifferences rows ctx.window 1 1 = .ok differences) :
    (energyDifference.run ctx bench).1 = .ok () ∧ (energyDifference.run ctx bench).2.report =
      { bench.report with energyDifference := some differences } := by
  obtain ⟨log, hrun⟩ := energyDifference.run_eq ctx bench
  rw [hrun]
  show (runEnergyDifference ctx _).1 = _ ∧ (runEnergyDifference ctx _).2.report = _
  unfold runEnergyDifference
  rw [hpair]
  have hgrid : ((Run.ofJob (gridEnergies ctx) : Run σ α _)
      ⟨⟨bench.session.cache, log⟩, bench.report⟩).1 = .ok rows := hrows log
  dsimp only [Option.getD_none]
  rw [run_bind_ok hgrid, run_bind_ok (show _ = Except.ok differences from hdifferences)]
  exact ⟨rfl, rfl⟩

end Task

end Moire
