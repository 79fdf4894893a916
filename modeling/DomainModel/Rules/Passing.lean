import DomainModel.Group.Pass
import DomainModel.Rules.Inspector
/-!
# Passing — the nodes that an inspector visits

The inspector as a visitor, sent through groups, with each node noted in its scope when it is visited.  A node that opens a
scope is checked in the scope it is in.
-/
namespace DomainModel
namespace Inspector

open NotingM (look note step)

abbrev InspectorM := NotingM Inspector (Scope × Source.Node)

def walkWithin (s : Scope) (walk : InspectorM Unit) : InspectorM Unit := do
  let outer := (← look).scope
  step fun i => { i with scope := s }
  walk
  step fun i => { i with scope := outer }

/-- Check a node that opens a scope, then walk in the scope. -/
def checkAndWalk (name : Identifier) (check : Scope → Inspector → Inspector) (walk : InspectorM Unit) :
    InspectorM Unit := do
  let own := .declaration (← look).scope name
  step (check own)
  walkWithin own walk

def visitor : Source.Visitor InspectorM :=
  { Source.Visitor.plain with
    entity := fun e => checkAndWalk e.name fun _ i => (i.inspectIdentity e).inspectBase .entity false e.name e.base
    event := fun e => checkAndWalk e.name fun _ i => i.inspectBase .event false e.name e.base
    value := fun v => checkAndWalk v.name fun _ i => i.inspectBase .value true v.name v.base
    property := fun p => step (·.visitProperty p)
    path := fun p => checkAndWalk p.operation.name fun own i => i.inspectOperation own .path p.operation
    query := fun q => checkAndWalk q.operation.name fun own i => i.inspectOperation own .query q.operation
    command := fun operation => step (·.visitCommand operation)
    filter := fun a => step (·.visitFilter a) }

/-- The inspector, each node that it visits being noted in its scope. -/
def notingVisitor : Source.Visitor InspectorM := visitor.noting fun n => note fun i => (i.scope, n)

/-- **An inspector sent through groups**: what it ends with, and the nodes visited, in order. -/
def passing (circles : Bool) (groups : List Group) (t : Table) (report : Report) :
    Noting Inspector (Scope × Source.Node) :=
  ((Group.pass (fun s => step fun i => { i with scope := s }) notingVisitor groups).run
    ⟨⟨t, circles, report, .top []⟩, []⟩).2

end Inspector
end DomainModel
