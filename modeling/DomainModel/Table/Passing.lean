import DomainModel.Group.Pass
import DomainModel.Table.Collector
/-!
# Passing — the declarations that a collector is passed

The collector as a visitor that notes each declaration when it goes to be defined.  What it does not visit itself it
walks through.
-/
namespace DomainModel
namespace Collector

open NotingM (look note step)

abbrev CollectorM := NotingM Collector Declaration

/-- Note what is declared in the scope that has been come to, and define it. -/
def declare (declaration : Scope → Declaration) : CollectorM Unit := do
  note fun c => declaration c.scope
  step fun c => c.define (declaration c.scope)

/-- Walk in the scope that a name opens and come back. -/
def walkBelow (name : Identifier) (walk : CollectorM Unit) : CollectorM Unit := do
  let outer := (← look).scope
  step fun c => { c with scope := .declaration outer name }
  walk
  step fun c => { c with scope := outer }

/-- **The collector as a visitor.**  An entity is declared before its events are visited. -/
def visitor : Source.Visitor CollectorM :=
  { Source.Visitor.plain with
    entity := fun e walk => do
      declare e.declaration
      walkBelow e.name walk
    event := fun e _ => declare e.declaration
    value := fun v _ => declare v.declaration
    externalEnum := fun e => declare (Source.plainDeclaration .externalEnum · e.name)
    webApi := fun root _ => declare (Source.plainDeclaration .webApi · root.operation.name) }

/-- **A collector sent through groups**: what it ends with, and the declarations passed, in order. -/
def passing (groups : List Group) (outside : Universe) (report : Report) : Noting Collector Declaration :=
  ((Group.pass (fun s => step fun c => { c with scope := s }) visitor groups).run
    ⟨⟨.empty outside, report, .top []⟩, []⟩).2

end Collector
end DomainModel
