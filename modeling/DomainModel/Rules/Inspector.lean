import DomainModel.Report
import DomainModel.Rules
import DomainModel.Source.Walk
/-!
# Inspector — the rules checked on a walk

An inspector goes through the nodes of a tree with a finished table.  It reports the rules that a node breaks, goes on
below it in the scope that the node opens, and comes back to the scope it was in.  A reference that means nothing is
reported and ends the rule that needs it, not the walk.
-/
namespace DomainModel

open Source (ApiMember Atom Block Entity Event Member Node Operation Path Property Query Reference Value)

/-- **The table, what was reported on the way, and the scope of the node that comes next.** -/
structure Inspector where
  table : Table
  /-- Look for circles of bases. -/
  circles : Bool
  report : Report
  scope : Scope

namespace Inspector

def fail (i : Inspector) (v : Violation) : Inspector := { i with report := i.report.fail v.message }

def failIf (i : Inspector) (condition : Bool) (v : Violation) : Inspector :=
  { i with report := i.report.failIf condition fun _ => v.message }

/-- What a reference means, one that means nothing being reported. -/
def resolve (i : Inspector) (s : Scope) (reference : QualifiedName) : Option Meaning × Inspector :=
  match i.table.resolveIn s reference with
  | some m => (some m, i)
  | none => (none, i.fail (.unresolved reference))

/-- **Walk in another scope and come back.** -/
def within (i : Inspector) (s : Scope) (walk : Inspector → Inspector) : Inspector :=
  { walk { i with scope := s } with scope := i.scope }

def inspectBase (i : Inspector) (kind : DeclarationKind) (builtInAllowed : Bool) (name : Identifier)
    (base : Option Reference) : Inspector :=
  match base with
  | none => i
  | some base =>
    match i.resolve i.scope base.name with
    | (none, i) => i
    | (some (.builtIn b), i) => i.failIf (!builtInAllowed) (.baseRefused kind name b.keyword)
    | (some (.external e), i) => i.fail (.baseRefused kind name (Meaning.external e).name)
    | (some (.declaration d), i) =>
      if d.kind ≠ kind then i.fail (.baseRefused kind name d.name.text)
      else if d.fullName = i.scope.qualify name then i.fail (.ownBase kind name)
      else i.failIf (i.circles && i.table.reaches (i.scope.qualify name) kind d) (.circularBases kind name)

def inspectIdentity (i : Inspector) (e : Entity) : Inspector :=
  match e.identity with
  | none => i.failIf e.base.isNone (.noIdentityNorBase e.name)
  | some identity =>
    match (i.failIf e.base.isSome (.baseBesideIdentity e.name)).resolve (.declaration i.scope e.name) identity.name with
    | (none, i) => i
    | (some m, i) => i.failIf (!i.table.isValue m) (.identityNoValue e.name)

def inspectResult (i : Inspector) (own : Scope) (kind : OperationKind) (operation : Operation) : Inspector :=
  match i.resolve own operation.result.name with
  | (none, i) => i
  | (some m, i) =>
    (i.failIf (!i.table.isValue m) (.resultNoValue kind operation.name)).failIf (kind == .query && m.isVoid)
      (.resultVoid kind operation.name)

def inspectArgument (i : Inspector) (own : Scope) (kind : OperationKind) (operation : Operation) (a : Atom) :
    Inspector :=
  match (i.failIf (!a.type.cardinality.isExactlyOne) (.argumentNotOnce kind a.name operation.name)).resolve own
      a.type.name with
  | (none, i) => i
  | (some m, i) => i.failIf (kind != .command && !i.table.isScalar m) (.argumentNoScalar kind a.name operation.name)

/-- The result of an operation, then its arguments, whether or not the result means anything. -/
def inspectOperation (i : Inspector) (own : Scope) (kind : OperationKind) (operation : Operation) : Inspector :=
  let i := i.inspectResult own kind operation
  match operation.arguments with
  | [] => i
  | [a] => i.inspectArgument own kind operation a
  | _ => i.fail (.severalArguments kind operation.name)

def visitProperty (i : Inspector) (p : Property) : Inspector :=
  match i.resolve i.scope p.atom.type.name with
  | (none, i) => i
  | (some m, i) => i.failIf (!i.table.isValue m) (.propertyNoValue p.atom.name)

def visitFilter (i : Inspector) (a : Atom) : Inspector :=
  let i :=
    match i.resolve i.scope a.type.name with
    | (none, i) => i
    | (some m, i) => i.failIf (!i.table.isScalar m) (.filterNoScalar a.name)
  i.failIf (!a.type.cardinality.isExactlyZeroOrOne) (.filterNotOptional a.name)

def visitEvent (i : Inspector) (e : Event) : Inspector :=
  (i.inspectBase .event false e.name e.base).within (.declaration i.scope e.name) fun i =>
    e.properties.foldl visitProperty i

def visitValue (i : Inspector) (v : Value) : Inspector :=
  (i.inspectBase .value true v.name v.base).within (.declaration i.scope v.name) fun i =>
    v.properties.foldl visitProperty i

/-- **The identity of an entity, its base, then its events** in the scope that it opens. -/
def visitEntity (i : Inspector) (e : Entity) : Inspector :=
  ((i.inspectIdentity e).inspectBase .entity false e.name e.base).within (.declaration i.scope e.name) fun i =>
    e.events.foldl visitEvent i

def visitCommand (i : Inspector) (operation : Operation) : Inspector :=
  i.inspectOperation (.declaration i.scope operation.name) .command operation

def visitQuery (i : Inspector) (q : Query) : Inspector :=
  let own := .declaration i.scope q.operation.name
  (i.inspectOperation own .query q.operation).within own fun i => q.filters.foldl visitFilter i

mutual

/-- **The operation of a path, its filters, then its members** in the scope that it opens. -/
def visitPath (i : Inspector) : Path → Inspector
  | ⟨operation, filters, members⟩ =>
    let own := .declaration i.scope operation.name
    (i.inspectOperation own .path operation).within own fun i => visitApiMembers (filters.foldl visitFilter i) members

def visitApiMember (i : Inspector) : ApiMember → Inspector
  | .command operation => i.visitCommand operation
  | .query q => i.visitQuery q
  | .path p => visitPath i p

def visitApiMembers (i : Inspector) : List ApiMember → Inspector
  | [] => i
  | m :: ms => visitApiMembers (visitApiMember i m) ms

end

mutual

/-- The members of a block; a block opens no scope of its own here. -/
def visitBlock (i : Inspector) : Block → Inspector
  | ⟨_, _, members⟩ => visitMembers i members

def visitMember (i : Inspector) : Member → Inspector
  | .block b => visitBlock i b
  | .entity e => i.visitEntity e
  | .value v => i.visitValue v
  | .externalEnum _ => i
  | .webApi root => i.visitPath root

def visitMembers (i : Inspector) : List Member → Inspector
  | [] => i
  | m :: ms => visitMembers (visitMember i m) ms

end

/-- **Visit a node of any kind**, and what is below it. -/
def visit (i : Inspector) : Node → Inspector
  | .tree t => t.blocks.foldl visitBlock i
  | .block b => i.visitBlock b
  | .entity e => i.visitEntity e
  | .event e => i.visitEvent e
  | .value v => i.visitValue v
  | .externalEnum _ => i
  | .property p => i.visitProperty p
  | .webApi root => i.visitPath root
  | .path p => i.visitPath p
  | .query q => i.visitQuery q
  | .command operation => i.visitCommand operation
  | .filter a => i.visitFilter a

/-- Visit the members of a group, each in its scope. -/
def visitGroup (i : Inspector) (g : Group) : Inspector :=
  g.members.foldl (fun i m => { i with scope := m.2 }.visitMember m.1) i

/-- **What is reported on groups**, after what was reported before. -/
def inspect (circles : Bool) (groups : List Group) (t : Table) (report : Report) : Report :=
  ((Group.all groups).foldl visitGroup ⟨t, circles, report, .top []⟩).report

end Inspector
end DomainModel
