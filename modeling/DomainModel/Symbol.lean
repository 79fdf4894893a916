import DomainModel.Lookup.Type
import DomainModel.Source
import DomainModel.Symbol.Children
import DomainModel.Tag.Grouped
/-!
# Symbol — the entries of a graph

A symbol has a name, a parent, tags and a content that depends on its kind.  Symbols name types through lookups; what a
lookup is stays open here: the written reference while a graph is built, the type it names afterwards (`map`).
-/
namespace DomainModel

/-- **The kinds of symbols.** -/
inductive SymbolKind where
  | space | entity | event | complexValue | externalValue | externalEnum | webApi | path | query | command
deriving DecidableEq, Repr

namespace SymbolKind

def all : List SymbolKind :=
  [space, entity, event, complexValue, externalValue, externalEnum, webApi, path, query, command]

def name : SymbolKind → String
  | space => "Namespace"
  | entity => "Entity"
  | event => "Event"
  | complexValue => "ComplexValue"
  | externalValue => "ExternalValue"
  | externalEnum => "ExternalEnum"
  | webApi => "WebApi"
  | path => "WebApiPath"
  | query => "WebApiQuery"
  | command => "WebApiCommand"

/-- The kind of declaration a symbol of the kind comes from; a namespace and what is inside an API are not declared. -/
def declarationKind? : SymbolKind → Option DeclarationKind
  | entity => some .entity
  | event => some .event
  | complexValue => some .value
  | externalValue => some .value
  | externalEnum => some .externalEnum
  | webApi => some .webApi
  | space | path | query | command => none

end SymbolKind

/-- **A use of a type**: the lookup of the type, and how often a value of it may occur. -/
structure TypeUse (L : Type) where
  lookup : L
  cardinality : Cardinality
deriving DecidableEq, Repr

/-- A named value of a type: a property, an argument or a filter. -/
structure AtomSymbol (L : Type) where
  name : Identifier
  tags : TagSet
  type : TypeUse L
  aliasName : Option Identifier
deriving DecidableEq, Repr

/-- What commands, queries and paths have in common. -/
structure OperationSymbol (L : Type) where
  kind : OperationKind
  result : TypeUse L
  argument : Option (AtomSymbol L)
deriving DecidableEq, Repr

/-- **What a symbol holds, by its kind.**  Those that contain symbols own their children. -/
inductive Content (L : Type) where
  | space (members : Children)
  | entity (isAbstract : Bool) (identity : Option (TypeUse L)) (base : Option L) (events : Children)
  | event (isAbstract : Bool) (base : Option L) (properties : List (AtomSymbol L))
  | complexValue (isAbstract : Bool) (base : Option L) (properties : List (AtomSymbol L)) (equalBy : List Identifier)
  | externalValue (base : Option L)
  | externalEnum
  | webApi (operation : OperationSymbol L) (filters : List (AtomSymbol L)) (members : Children)
  | path (operation : OperationSymbol L) (filters : List (AtomSymbol L)) (members : Children)
  | query (operation : OperationSymbol L) (filters : List (AtomSymbol L))
  | command (operation : OperationSymbol L)
deriving DecidableEq, Repr

/-- **An entry of a graph.** -/
structure Symbol (L : Type) where
  name : Identifier
  parent : Option SymbolId
  tags : TagSet
  content : Content L
deriving DecidableEq, Repr

variable {L M : Type}

def TypeUse.map (f : L → M) (t : TypeUse L) : TypeUse M := ⟨f t.lookup, t.cardinality⟩

def AtomSymbol.map (f : L → M) (a : AtomSymbol L) : AtomSymbol M := ⟨a.name, a.tags, a.type.map f, a.aliasName⟩

def OperationSymbol.map (f : L → M) (o : OperationSymbol L) : OperationSymbol M :=
  ⟨o.kind, o.result.map f, o.argument.map (·.map f)⟩

namespace Content

def map (f : L → M) : Content L → Content M
  | space members => space members
  | entity isAbstract identity base events => entity isAbstract (identity.map (·.map f)) (base.map f) events
  | event isAbstract base properties => event isAbstract (base.map f) (properties.map (·.map f))
  | complexValue isAbstract base properties equalBy =>
    complexValue isAbstract (base.map f) (properties.map (·.map f)) equalBy
  | externalValue base => externalValue (base.map f)
  | externalEnum => externalEnum
  | webApi operation filters members => webApi (operation.map f) (filters.map (·.map f)) members
  | path operation filters members => path (operation.map f) (filters.map (·.map f)) members
  | query operation filters => query (operation.map f) (filters.map (·.map f))
  | command operation => command (operation.map f)

def kind : Content L → SymbolKind
  | space .. => .space
  | entity .. => .entity
  | event .. => .event
  | complexValue .. => .complexValue
  | externalValue .. => .externalValue
  | externalEnum => .externalEnum
  | webApi .. => .webApi
  | path .. => .path
  | query .. => .query
  | command .. => .command

def base? : Content L → Option L
  | entity _ _ base _ => base
  | event _ base _ => base
  | complexValue _ base _ _ => base
  | externalValue base => base
  | _ => none

def identity? : Content L → Option (TypeUse L)
  | entity _ identity _ _ => identity
  | _ => none

def isAbstract? : Content L → Option Bool
  | entity isAbstract _ _ _ => some isAbstract
  | event isAbstract _ _ => some isAbstract
  | complexValue isAbstract _ _ _ => some isAbstract
  | _ => none

def properties : Content L → List (AtomSymbol L)
  | event _ _ properties => properties
  | complexValue _ _ properties _ => properties
  | _ => []

/-- The properties by which values are compared. -/
def equalBy? : Content L → Option (List Identifier)
  | complexValue _ _ _ equalBy => some equalBy
  | _ => none

def operation? : Content L → Option (OperationSymbol L)
  | webApi operation _ _ => some operation
  | path operation _ _ => some operation
  | query operation _ => some operation
  | command operation => some operation
  | _ => none

def filters? : Content L → Option (List (AtomSymbol L))
  | webApi _ filters _ => some filters
  | path _ filters _ => some filters
  | query _ filters => some filters
  | _ => none

def filters (c : Content L) : List (AtomSymbol L) := c.filters?.getD []

/-- The place for children, in a kind that contains symbols. -/
def children? : Content L → Option Children
  | space members => some members
  | entity _ _ _ events => some events
  | webApi _ _ members => some members
  | path _ _ members => some members
  | _ => none

def children (c : Content L) : List SymbolId :=
  match c.children? with
  | some children => children.ids
  | none => []

/-- The content with its children given; none where they were given before, or there is no place for them. -/
def assign? (ids : List SymbolId) : Content L → Option (Content L)
  | space members => (members.assign? ids).map space
  | entity isAbstract identity base events => (events.assign? ids).map (entity isAbstract identity base)
  | webApi operation filters members => (members.assign? ids).map (webApi operation filters)
  | path operation filters members => (members.assign? ids).map (path operation filters)
  | _ => none

/-- **What a walk visits right below a symbol**: the properties of an event or a value, the filters of a web API, a path
or a query. -/
def atoms (c : Content L) : List (AtomSymbol L) := c.properties ++ c.filters

@[simp] theorem kind_map (f : L → M) (c : Content L) : (c.map f).kind = c.kind := by cases c <;> rfl

@[simp] theorem children_map (f : L → M) (c : Content L) : (c.map f).children = c.children := by cases c <;> rfl

@[simp] theorem base?_map (f : L → M) (c : Content L) : (c.map f).base? = c.base?.map f := by cases c <;> rfl

@[simp] theorem properties_map (f : L → M) (c : Content L) : (c.map f).properties = c.properties.map (·.map f) := by
  cases c <;> rfl

@[simp] theorem filters_map (f : L → M) (c : Content L) : (c.map f).filters = c.filters.map (·.map f) := by
  cases c <;> rfl

end Content

namespace Symbol

def map (f : L → M) (s : Symbol L) : Symbol M := ⟨s.name, s.parent, s.tags, s.content.map f⟩

def kind (s : Symbol L) : SymbolKind := s.content.kind

def children (s : Symbol L) : List SymbolId := s.content.children

/-- The kind of declaration the symbol comes from. -/
def declarationKind? (s : Symbol L) : Option DeclarationKind := s.kind.declarationKind?

/-- **A type** is a symbol that comes from a declaration. -/
def isType (s : Symbol L) : Bool := s.declarationKind?.isSome

@[simp] theorem isType_map (f : L → M) (s : Symbol L) : (s.map f).isType = s.isType := by
  rw [isType, isType, declarationKind?, kind, map, Content.kind_map]
  rfl

/-- Where a symbol holds a lookup. -/
inductive Slot where
  | base | identity | result | argument | property (i : Nat) | filter (i : Nat)
deriving DecidableEq, Repr

def lookup? (s : Symbol L) : Slot → Option L
  | .base => s.content.base?
  | .identity => s.content.identity?.map (·.lookup)
  | .result => s.content.operation?.map (·.result.lookup)
  | .argument => s.content.operation?.bind fun o => o.argument.map (·.type.lookup)
  | .property i => s.content.properties[i]?.map (·.type.lookup)
  | .filter i => s.content.filters[i]?.map (·.type.lookup)

/-- The slots at which a symbol holds a lookup. -/
def slots (s : Symbol L) : List Slot :=
  let fixed : List Slot := [.base, .identity, .result, .argument]
  (fixed ++ (List.range s.content.properties.length).map Slot.property ++
    (List.range s.content.filters.length).map Slot.filter).filter fun slot => (s.lookup? slot).isSome

end Symbol
end DomainModel
