import DomainModel.Group
import DomainModel.Table
/-!
# Declared — the table of a forest

Every entity, event, value, enumeration and web API declares its full name, an entity before its events.  The names are
defined group by group, the members of a group in source order.
-/
namespace DomainModel

open Source (Member)

namespace Source

/-- What an event declares, written inside its entity. -/
def Event.declaration (scope : Scope) (e : Event) : Declaration where
  kind := .event
  fullName := scope.qualify e.name
  isExternal := false
  base := e.base.map (·.name)
  hasProperties := !e.properties.isEmpty
  scope := scope

/-- What an entity declares, without its events. -/
def Entity.declaration (scope : Scope) (e : Entity) : Declaration where
  kind := .entity
  fullName := scope.qualify e.name
  isExternal := false
  base := e.base.map (·.name)
  hasProperties := false
  scope := scope

def Value.declaration (scope : Scope) (v : Value) : Declaration where
  kind := .value
  fullName := scope.qualify v.name
  isExternal := v.isExternal
  base := v.base.map (·.name)
  hasProperties := !v.properties.isEmpty
  scope := scope

/-- A declaration of a name and no more. -/
def plainDeclaration (kind : DeclarationKind) (scope : Scope) (name : Identifier) : Declaration where
  kind := kind
  fullName := scope.qualify name
  isExternal := false
  base := none
  hasProperties := false
  scope := scope

/-- **What a member of a block declares** at its place; the members of a path declare nothing. -/
def Member.declarations (scope : Scope) : Member → List Declaration
  | .block _ => []
  | .entity e => e.declaration scope :: e.events.map (·.declaration (.declaration scope e.name))
  | .value v => [v.declaration scope]
  | .externalEnum e => [plainDeclaration .externalEnum scope e.name]
  | .webApi root => [plainDeclaration .webApi scope root.operation.name]

end Source

namespace Group

def declarations (g : Group) : List Declaration := g.members.flatMap fun m => m.1.declarations m.2

end Group

namespace Table

def declared (groups : List Group) : List Declaration := (Group.all groups).flatMap (·.declarations)

/-- **The table of groups**, with the conflicts among their declarations. -/
def ofGroups (groups : List Group) (outside : Universe) : Table × List Conflict :=
  (empty outside).defineAll (declared groups)

end Table
end DomainModel
