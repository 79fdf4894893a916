import DomainModel.Compile
import DomainModel.Graph.Builder
import DomainModel.Group.Index
import DomainModel.Rules.Inspector
import DomainModel.Table.Collector
/-!
# Steps — a forest compiled step by step

The groups of a forest are read off the index of its blocks.  A collector defines the names and an inspector checks the
rules, both on one report.  If nothing was reported, a graph is built symbol by symbol, as long as there are numbers.
-/
namespace DomainModel

open Source (Tree)

/-- **What compiling step by step stops with.** -/
inductive CompileStop where
  /-- There is something to tell. -/
  | failure (f : CompileFailure)
  /-- The graph could not be built. -/
  | refusal (r : BuildRefusal)
deriving DecidableEq, Repr

/-- **Compile a forest step by step**: group, define, check, and build if there is nothing to tell. -/
def compileSteps (options : CompileOptions) (forest : List Tree) : Except CompileStop Graph :=
  let groups := FragmentIndex.merge forest
  let (t, report) := Collector.collect groups options.outside .empty
  let report := Inspector.inspect options.circles groups t report
  if report.isEmpty then (Builder.build groups t).mapError .refusal
  else .error (.failure ⟨report.limited options.limit⟩)

end DomainModel
