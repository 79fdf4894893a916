import DomainModel.Group
import DomainModel.Symbol
/-!
# Tree — the symbols of a namespace as a tree

What a namespace holds as symbols, before they are numbered.  A namespace holds the members of its blocks and then the
namespaces inside; an entity holds its events; a web API or a path holds its commands, then its queries, then its paths.

A base is looked up where the declaration is written; identities, properties, results, arguments and filters are looked
up inside the declaration.
-/
namespace DomainModel

/-- **A reference at its place.** -/
structure Written where
  reference : QualifiedName
  scope : Scope
deriving DecidableEq, Repr

/-- **A symbol without a number**: the full name it declares, if any, and the symbols inside. -/
structure SymbolTree where
  name : Identifier
  tags : TagSet
  content : Content Written
  declares : Option QualifiedName
  inside : List SymbolTree

namespace Source

def Reference.typeUse (scope : Scope) (r : Reference) : TypeUse Written := ⟨⟨r.name, scope⟩, r.cardinality⟩

def Reference.base (scope : Scope) (r : Reference) : Written := ⟨r.name, scope⟩

/-- An argument or a filter at a place. -/
def Atom.symbol (scope : Scope) (a : Atom) : AtomSymbol Written :=
  ⟨a.name, .ofList a.tags, a.type.typeUse scope, none⟩

def Property.symbol (scope : Scope) (p : Property) : AtomSymbol Written :=
  { p.atom.symbol scope with aliasName := p.aliasName }

/-- An operation, whose types are looked up inside it.  Several arguments are none. -/
def Operation.symbol (own : Scope) (kind : OperationKind) (o : Operation) : OperationSymbol Written where
  kind := kind
  result := o.result.typeUse own
  argument :=
    match o.arguments with
    | [a] => some (a.symbol own)
    | _ => none

def Event.tree (scope : Scope) (e : Event) : SymbolTree where
  name := e.name
  tags := .ofList e.tags
  content := .event e.isAbstract (e.base.map (·.base scope)) (e.properties.map (·.symbol (.declaration scope e.name)))
  declares := some (scope.qualify e.name)
  inside := []

def Entity.tree (scope : Scope) (e : Entity) : SymbolTree where
  name := e.name
  tags := .ofList e.tags
  content := .entity e.isAbstract (e.identity.map (·.typeUse (.declaration scope e.name)))
    (e.base.map (·.base scope)) .unassigned
  declares := some (scope.qualify e.name)
  inside := e.events.map (·.tree (.declaration scope e.name))

/-- A value; of an external one only the base is kept. -/
def Value.tree (scope : Scope) (v : Value) : SymbolTree where
  name := v.name
  tags := .ofList v.tags
  content :=
    if v.isExternal then .externalValue (v.base.map (·.base scope))
    else .complexValue v.isAbstract (v.base.map (·.base scope))
      (v.properties.map (·.symbol (.declaration scope v.name))) v.equalBy
  declares := some (scope.qualify v.name)
  inside := []

def ExternalEnum.tree (scope : Scope) (e : ExternalEnum) : SymbolTree where
  name := e.name
  tags := .ofList e.tags
  content := .externalEnum
  declares := some (scope.qualify e.name)
  inside := []

def Operation.commandTree (scope : Scope) (o : Operation) : SymbolTree where
  name := o.name
  tags := .ofList o.tags
  content := .command (o.symbol (.declaration scope o.name) .command)
  declares := none
  inside := []

def Query.tree (scope : Scope) (q : Query) : SymbolTree where
  name := q.operation.name
  tags := .ofList q.operation.tags
  content := .query (q.operation.symbol (.declaration scope q.operation.name) .query)
    (q.filters.map (·.symbol (.declaration scope q.operation.name)))
  declares := none
  inside := []

def ApiMember.commandTree? (scope : Scope) : ApiMember → Option SymbolTree
  | .command o => some (o.commandTree scope)
  | _ => none

def ApiMember.queryTree? (scope : Scope) : ApiMember → Option SymbolTree
  | .query q => some (q.tree scope)
  | _ => none

mutual

/-- A path with its members: commands, then queries, then paths. -/
def Path.tree (scope : Scope) : Path → SymbolTree
  | ⟨operation, filters, members⟩ =>
    let own := Scope.declaration scope operation.name
    { name := operation.name
      tags := .ofList operation.tags
      content := .path (operation.symbol own .path) (filters.map (·.symbol own)) .unassigned
      declares := none
      inside := members.filterMap (·.commandTree? own) ++ members.filterMap (·.queryTree? own) ++
        ApiMember.pathTrees own members }

def ApiMember.pathTree (scope : Scope) : ApiMember → List SymbolTree
  | .path p => [p.tree scope]
  | .command _ | .query _ => []

def ApiMember.pathTrees (scope : Scope) : List ApiMember → List SymbolTree
  | [] => []
  | m :: ms => m.pathTree scope ++ ApiMember.pathTrees scope ms

end

/-- A web API: its root path under a name that is declared. -/
def Path.rootTree (scope : Scope) (p : Path) : SymbolTree :=
  let own := Scope.declaration scope p.operation.name
  { p.tree scope with
    content := .webApi (p.operation.symbol own .path) (p.filters.map (·.symbol own)) .unassigned
    declares := some (scope.qualify p.operation.name) }

/-- **The symbol of a member of a block**; blocks are symbols of their own. -/
def Member.tree? (scope : Scope) : Member → Option SymbolTree
  | .block _ => none
  | .entity e => some (e.tree scope)
  | .value v => some (v.tree scope)
  | .externalEnum e => some (e.tree scope)
  | .webApi root => some (root.rootTree scope)

end Source

namespace Group

mutual

/-- **A namespace with its members and the namespaces inside.** -/
def tree : Group → SymbolTree
  | ⟨fullName, fragments, children⟩ =>
    { name := fullName.last
      tags := .empty
      content := .space .unassigned
      declares := none
      inside := (fragments.flatMap (·.members)).filterMap (fun m => m.1.tree? m.2) ++ trees children }

def trees : List Group → List SymbolTree
  | [] => []
  | g :: gs => g.tree :: trees gs

end

end Group
end DomainModel
