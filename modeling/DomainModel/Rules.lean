import DomainModel.Observation
import DomainModel.Table.Declared
/-!
# Rules — what a declaration must satisfy

The rules look at one member of a block at its place, with the finished table.  They never stop: the violations of a
forest are those of its members, one after the other.

A base is looked up where the declaration is written; identities, properties, results, arguments and filters are looked
up inside the declaration.
-/
namespace DomainModel

open Source (Atom ApiMember Block Entity Event Member Operation Path Property Query Reference Value)

/-- **A broken rule.** -/
inductive Violation where
  /-- A reference means nothing. -/
  | unresolved (reference : QualifiedName)
  /-- An entity has an identity and a base. -/
  | baseBesideIdentity (entity : Identifier)
  /-- An entity has neither an identity nor a base. -/
  | noIdentityNorBase (entity : Identifier)
  /-- An identity is no value. -/
  | identityNoValue (entity : Identifier)
  /-- A base is of the wrong kind. -/
  | baseRefused (kind : DeclarationKind) (name : Identifier) (base : String)
  /-- A base is the declaration itself. -/
  | ownBase (kind : DeclarationKind) (name : Identifier)
  /-- The bases lead back to the declaration. -/
  | circularBases (kind : DeclarationKind) (name : Identifier)
  /-- A property is no value. -/
  | propertyNoValue (property : Identifier)
  /-- A result is no value. -/
  | resultNoValue (kind : OperationKind) (name : Identifier)
  /-- A query has nothing for its result. -/
  | resultVoid (kind : OperationKind) (name : Identifier)
  /-- An operation has several arguments. -/
  | severalArguments (kind : OperationKind) (name : Identifier)
  /-- An argument may be missing or occur more than once. -/
  | argumentNotOnce (kind : OperationKind) (argument name : Identifier)
  /-- An argument that must be a single value is none. -/
  | argumentNoScalar (kind : OperationKind) (argument name : Identifier)
  /-- A filter is no single value. -/
  | filterNoScalar (filter : Identifier)
  /-- A filter must occur or may occur more than once. -/
  | filterNotOptional (filter : Identifier)
deriving DecidableEq, Repr

namespace Violation

def message : Violation → String
  | unresolved reference => "The type or namespace '" ++ reference.text ++ "' could not be found."
  | baseBesideIdentity entity =>
    "Entity '" ++ entity.text ++ "' must not specify a base entity if the identifier type is specified."
  | noIdentityNorBase entity =>
    "Entity '" ++ entity.text ++ "' must inherit from a base entity, or specify an identifier type."
  | identityNoValue entity => "Identity type for '" ++ entity.text ++ "' must be a value type."
  | baseRefused kind name base => kind.name ++ " '" ++ name.text ++ "' cannot inherit from '" ++ base ++ "'."
  | ownBase kind name => kind.name ++ " '" ++ name.text ++ "' cannot inherit from itself."
  | circularBases kind name => kind.name ++ " '" ++ name.text ++ "' has a circular base chain."
  | propertyNoValue property => "Property '" ++ property.text ++ "' type must be a value type."
  | resultNoValue kind name => kind.name ++ " '" ++ name.text ++ "' must return a value type."
  | resultVoid kind name => kind.name ++ " '" ++ name.text ++ "' must return some result."
  | severalArguments kind name => kind.name ++ " '" ++ name.text ++ "' can only contain one argument."
  | argumentNotOnce kind argument name =>
    kind.name ++ " argument '" ++ argument.text ++ "' for '" ++ name.text ++
      "' must have a cardinality of exactly one."
  | argumentNoScalar kind argument name =>
    kind.name ++ " argument '" ++ argument.text ++ "' for '" ++ name.text ++ "' must be a scalar value."
  | filterNoScalar filter => "Query filter '" ++ filter.text ++ "' must be a scalar value."
  | filterNotOptional filter => "Query filter '" ++ filter.text ++ "' must have a cardinality of zero or one."

def observation (v : Violation) : Observation := .ofMessage v.message

end Violation

/-- A violation, if the condition holds. -/
def violationIf (condition : Bool) (v : Violation) : List Violation := if condition then [v] else []

namespace Table

variable (t : Table)

/-- Look a reference up and check what it means; one that means nothing is itself a violation. -/
def checkReference (scope : Scope) (reference : QualifiedName) (check : Meaning → List Violation) : List Violation :=
  match t.resolveIn scope reference with
  | none => [.unresolved reference]
  | some m => check m

/-- **The rule on bases**: a base has the kind of the declaration, or is a built-in where that is allowed; it is not the
declaration itself, nor, where circles are looked for, does it lead back to it. -/
def checkBase (circles : Bool) (scope : Scope) (kind : DeclarationKind) (builtInAllowed : Bool) (name : Identifier) :
    Option Reference → List Violation
  | none => []
  | some base =>
    t.checkReference scope base.name fun
      | .builtIn b => violationIf (!builtInAllowed) (.baseRefused kind name b.keyword)
      | .external e => [.baseRefused kind name (Meaning.external e).name]
      | .declaration d =>
        if d.kind ≠ kind then [.baseRefused kind name d.name.text]
        else if d.fullName = scope.qualify name then [.ownBase kind name]
        else violationIf (circles && t.reaches (scope.qualify name) kind d) (.circularBases kind name)

/-- **The rule on properties**: the type is a value. -/
def checkProperty (scope : Scope) (p : Property) : List Violation :=
  t.checkReference scope p.atom.type.name fun m => violationIf (!t.isValue m) (.propertyNoValue p.atom.name)

/-- The rules on an event, written inside its entity. -/
def checkEvent (circles : Bool) (scope : Scope) (e : Event) : List Violation :=
  t.checkBase circles scope .event false e.name e.base ++
    e.properties.flatMap (t.checkProperty (.declaration scope e.name))

def checkValue (circles : Bool) (scope : Scope) (v : Value) : List Violation :=
  t.checkBase circles scope .value true v.name v.base ++
    v.properties.flatMap (t.checkProperty (.declaration scope v.name))

/-- **The rule on identities**: an entity has an identity, which is a value, or a base, but not both. -/
def checkIdentity (scope : Scope) (e : Entity) : List Violation :=
  match e.identity with
  | some identity =>
    violationIf e.base.isSome (.baseBesideIdentity e.name) ++
      t.checkReference (.declaration scope e.name) identity.name fun m =>
        violationIf (!t.isValue m) (.identityNoValue e.name)
  | none => violationIf e.base.isNone (.noIdentityNorBase e.name)

def checkEntity (circles : Bool) (scope : Scope) (e : Entity) : List Violation :=
  t.checkIdentity scope e ++ t.checkBase circles scope .entity false e.name e.base ++
    e.events.flatMap (t.checkEvent circles (.declaration scope e.name))

/-- The rule on the argument of an operation: it occurs exactly once, and for a query or a path it is a single value. -/
def checkArgument (own : Scope) (kind : OperationKind) (operation : Operation) (a : Atom) : List Violation :=
  violationIf (!a.type.cardinality.isExactlyOne) (.argumentNotOnce kind a.name operation.name) ++
    t.checkReference own a.type.name fun m =>
      violationIf (kind != .command && !t.isScalar m) (.argumentNoScalar kind a.name operation.name)

/-- **The rules on an operation**: the result is a value, that of a query not void, and there is at most one argument. -/
def checkOperation (own : Scope) (kind : OperationKind) (operation : Operation) : List Violation :=
  t.checkReference own operation.result.name (fun m =>
    violationIf (!t.isValue m) (.resultNoValue kind operation.name) ++
      violationIf (kind == .query && m.isVoid) (.resultVoid kind operation.name)) ++
    match operation.arguments with
    | [] => []
    | [a] => t.checkArgument own kind operation a
    | _ => [.severalArguments kind operation.name]

/-- **The rule on filters**: a single value that may be missing. -/
def checkFilter (own : Scope) (a : Atom) : List Violation :=
  t.checkReference own a.type.name (fun m => violationIf (!t.isScalar m) (.filterNoScalar a.name)) ++
    violationIf (!a.type.cardinality.isExactlyZeroOrOne) (.filterNotOptional a.name)

def checkQuery (scope : Scope) (q : Query) : List Violation :=
  let own := .declaration scope q.operation.name
  t.checkOperation own .query q.operation ++ q.filters.flatMap (t.checkFilter own)

mutual

/-- The rules on a path, its filters and its members. -/
def checkPath (t : Table) (scope : Scope) : Path → List Violation
  | ⟨operation, filters, members⟩ =>
    let own := .declaration scope operation.name
    t.checkOperation own .path operation ++ filters.flatMap (t.checkFilter own) ++ checkApiMembers t own members

def checkApiMember (t : Table) (scope : Scope) : ApiMember → List Violation
  | .command operation => t.checkOperation (.declaration scope operation.name) .command operation
  | .query q => t.checkQuery scope q
  | .path p => checkPath t scope p

def checkApiMembers (t : Table) (scope : Scope) : List ApiMember → List Violation
  | [] => []
  | m :: ms => checkApiMember t scope m ++ checkApiMembers t scope ms

end

/-- **The rules on a member of a block** at its place. -/
def checkMember (circles : Bool) (scope : Scope) : Member → List Violation
  | .block _ => []
  | .entity e => t.checkEntity circles scope e
  | .value v => t.checkValue circles scope v
  | .externalEnum _ => []
  | .webApi root => checkPath t scope root

/-- **The violations of groups**, member by member. -/
def check (circles : Bool) (groups : List Group) : List Violation :=
  (Group.all groups).flatMap fun g => g.members.flatMap fun m => t.checkMember circles m.2 m.1

end Table
end DomainModel
