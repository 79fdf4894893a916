import DomainModel.Report
import DomainModel.Table.Declared
/-!
# Collector — a table filled on a walk

A collector goes through the members of groups.  It defines each name that it passes, reports those that are taken and
keeps the scope it is in: an entity opens a scope for its events, whether or not its own name was taken, and closes it
behind them.
-/
namespace DomainModel

open Source (Block Entity Event ExternalEnum Member Path Value)

/-- **The table so far**, what was reported on the way, and the scope of what comes next. -/
structure Collector where
  table : Table
  report : Report
  scope : Scope

namespace Collector

def define (c : Collector) (d : Declaration) : Collector :=
  match c.table.define d with
  | (table, none) => { c with table }
  | (table, some conflict) => { c with table, report := c.report.fail conflict.message }

def visitEvent (c : Collector) (e : Event) : Collector := c.define (e.declaration c.scope)

/-- **Define an entity, then its events** in the scope that it opens. -/
def visitEntity (c : Collector) (e : Entity) : Collector :=
  let entered := { c.define (e.declaration c.scope) with scope := .declaration c.scope e.name }
  { e.events.foldl visitEvent entered with scope := c.scope }

def visitValue (c : Collector) (v : Value) : Collector := c.define (v.declaration c.scope)

def visitExternalEnum (c : Collector) (e : ExternalEnum) : Collector :=
  c.define (Source.plainDeclaration .externalEnum c.scope e.name)

def visitWebApi (c : Collector) (root : Path) : Collector :=
  c.define (Source.plainDeclaration .webApi c.scope root.operation.name)

mutual

def visitBlock (c : Collector) : Block → Collector
  | ⟨_, _, members⟩ => visitMembers c members

def visitMember (c : Collector) : Member → Collector
  | .block b => visitBlock c b
  | .entity e => c.visitEntity e
  | .value v => c.visitValue v
  | .externalEnum e => c.visitExternalEnum e
  | .webApi root => c.visitWebApi root

def visitMembers (c : Collector) : List Member → Collector
  | [] => c
  | m :: ms => visitMembers (visitMember c m) ms

end

/-- Visit the members of a group, each in its scope. -/
def visitGroup (c : Collector) (g : Group) : Collector :=
  g.members.foldl (fun c m => { c with scope := m.2 }.visitMember m.1) c

/-- **The table of groups**, what is taken being reported after what was reported before. -/
def collect (groups : List Group) (outside : Universe) (report : Report) : Table × Report :=
  let c := (Group.all groups).foldl visitGroup ⟨.empty outside, report, .top []⟩
  (c.table, c.report)

end Collector
end DomainModel
