import DomainModel.Graph
import DomainModel.Rules
/-!
# Compile — from inputs to a graph

Inputs are read unit by unit; a blank one is an empty unit and no reader sees it.  Where every input was read, the names
are defined and the rules checked; a model without any observation becomes a graph.  Otherwise the observations are the
failure: those of the reader alone, if it refused an input.
-/
namespace DomainModel

open Source (Tree)

/-- **How a model is compiled.** -/
structure CompileOptions where
  /-- The most observations that a failure tells, zero for all of them. -/
  limit : Nat := 0
  /-- Look for circles of bases. -/
  circles : Bool := true
  /-- The types outside the model. -/
  outside : Universe := .empty

/-- **Why there is no graph**; there is something to tell. -/
structure CompileFailure where
  observations : List Observation
deriving DecidableEq, Repr

namespace CompileFailure

def messages (f : CompileFailure) : List String := f.observations.map (·.text)

/-- The texts, one a line. -/
def display (f : CompileFailure) : String := Observation.display f.observations

end CompileFailure

/-- **One source unit as a text.** -/
structure Input where
  text : String
  source : Option String
deriving DecidableEq, Repr

namespace Input

def isBlank (i : Input) : Bool := Text.isBlankText i.text

end Input

/-- **What turns a text into a tree**, given the name of the source, or says why it does not. -/
abbrev Reader (m : Type → Type) := String → Option String → m (Except (List ReadFailure) Tree)

/-- The tree of an input.  A blank input is an empty tree, and the reader is not asked.  Failures that name no source
are those of the input's source. -/
def Input.read {m : Type → Type} [Monad m] (reader : Reader m) (i : Input) : m (Except (List ReadFailure) Tree) :=
  if i.isBlank then return .ok (.blank i.source)
  else do
    match ← reader i.text i.source with
    | .ok tree => return .ok tree
    | .error failures => return .error (failures.map (·.within i.source))

/-- **What a forest is told about**: names declared twice, then broken rules. -/
def observe (options : CompileOptions) (forest : List Tree) : List Observation :=
  let groups := Group.merge forest
  let (t, conflicts) := Table.ofGroups groups options.outside
  conflicts.map (fun c => .ofMessage c.message) ++ (t.check options.circles groups).map (·.observation)

/-- The graph of a forest as it stands; names that nothing declares are left open.  The numbers do not run out here: that a
build has `Builder.capacity` of them is left out. -/
def graphOf (outside : Universe) (forest : List Tree) : Graph :=
  let groups := Group.merge forest
  .ofGroups groups (Table.ofGroups groups outside).1

/-- **Compile a forest**, its graph being made at once.  `Builder.capacity`, the most symbols that are built, is left out;
`compileSteps` compiles a forest step by step and stops where there are more (`compileSteps_eq`). -/
def compileForest (options : CompileOptions) (forest : List Tree) : Except CompileFailure Graph :=
  match observe options forest with
  | [] => .ok (graphOf options.outside forest)
  | o :: os => .error ⟨Observation.limited options.limit (o :: os)⟩

/-- The observations on readings, in order. -/
def readingObservations (readings : List (Except (List ReadFailure) Tree)) : List Observation :=
  readings.flatMap fun
    | .ok _ => []
    | .error failures => failures.map (·.observation)

/-- The trees among readings, in order. -/
def readingTrees (readings : List (Except (List ReadFailure) Tree)) : List Tree :=
  readings.filterMap Except.toOption

/-- Compile what was read.  A unit that was refused without a reason is left out. -/
def compileReadings (options : CompileOptions) (readings : List (Except (List ReadFailure) Tree)) :
    Except CompileFailure Graph :=
  match readingObservations readings with
  | [] => compileForest options (readingTrees readings)
  | o :: os => .error ⟨Observation.limited options.limit (o :: os)⟩

/-- **Compile inputs with a reader** that may have effects. -/
def compileM {m : Type → Type} [Monad m] (reader : Reader m) (options : CompileOptions) (inputs : List Input) :
    m (Except CompileFailure Graph) := do
  return compileReadings options (← inputs.mapM (·.read reader))

/-- **Compile inputs with a reader.** -/
def compile (reader : Reader Id) (options : CompileOptions) (inputs : List Input) : Except CompileFailure Graph :=
  compileReadings options (inputs.map (·.read reader))

/-- Compile several models, each by itself. -/
def compileBatchM {m : Type → Type} [Monad m] (reader : Reader m) (options : CompileOptions)
    (batches : List (List Input)) : m (List (Except CompileFailure Graph)) :=
  batches.mapM (compileM reader options)

/-- What compiling is told about: nothing, where there is a graph. -/
def observationsOf : Except CompileFailure Graph → List Observation
  | .ok _ => []
  | .error f => f.observations

theorem observationsOf_compileForest {options : CompileOptions} (hlimit : options.limit = 0)
    (forest : List Tree) : observationsOf (compileForest options forest) = observe options forest := by
  unfold compileForest
  cases observe options forest with
  | nil => rfl
  | cons o os => simp only [observationsOf, hlimit, Observation.limited_zero]

/-- **A failure says something**, whatever the limit. -/
theorem observations_compileForest_ne_nil {options : CompileOptions} {forest : List Tree} {f : CompileFailure}
    (h : compileForest options forest = .error f) : f.observations ≠ [] := by
  unfold compileForest at h
  split at h
  · cases h
  · cases h
    intro h'
    simp [Observation.limited_eq_nil_iff] at h'

end DomainModel
