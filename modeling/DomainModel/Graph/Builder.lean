import DomainModel.Graph
/-!
# Builder — a graph built symbol by symbol

Symbols are pushed one after the other, and get the next number.  A symbol that contains symbols is pushed without
children; what is inside is pushed after it, and then the children are given.  A declared name is registered when its
symbol is there.  A build stops where a number is missing, or children are given to what takes none or has some.

The symbols of a namespace are those of its members and then the namespaces inside; those of a web API or a path its
commands, then its queries, then its paths.
-/
namespace DomainModel

open Source (ApiMember Entity Event ExternalEnum Member Operation Path Query Value)

/-- **What stops a build.** -/
inductive BuildRefusal where
  /-- There is no number for a further symbol. -/
  | arenaFull
  /-- There is no symbol of the number. -/
  | noSymbol (id : SymbolId)
  /-- The symbol contains no symbols. -/
  | noPlace (id : SymbolId)
  /-- The symbol was given its children before. -/
  | assignedBefore (id : SymbolId)
deriving DecidableEq, Repr

namespace BuildRefusal

/-- What the build is stopped with, given how many symbols there are. -/
def message (size : Nat) : BuildRefusal → String
  | arenaFull => "symbol arena exceeded u32::MAX entries"
  | noSymbol id => "index out of bounds: the len is " ++ toString size ++ " but the index is " ++ toString id.index
  | noPlace id => id.inspect ++ " cannot own children"
  | assignedBefore _ => Children.refusal

end BuildRefusal

/-- **A graph being built**: the symbols so far, whose lookups are as written, and the names registered so far. -/
structure Builder where
  symbols : List (Symbol Written)
  index : SymbolIndex
deriving DecidableEq, Repr

abbrev BuildM := StateT Builder (Except BuildRefusal)

namespace Builder

def empty : Builder := ⟨[], .empty⟩

def capacity : Nat := UInt32.size

def size (b : Builder) : Nat := b.symbols.length

/-- **Push a symbol**, which gets the next number. -/
def push (s : Symbol Written) : BuildM SymbolId := fun b =>
  if b.size < capacity then .ok (⟨b.size⟩, { b with symbols := b.symbols ++ [s] }) else .error .arenaFull

/-- **Give a symbol its children**, once. -/
def assign (id : SymbolId) (ids : List SymbolId) : BuildM Unit := fun b =>
  match b.symbols[id.index]? with
  | none => .error (.noSymbol id)
  | some s =>
    match s.content.children?, s.content.assign? ids with
    | none, _ => .error (.noPlace id)
    | some _, none => .error (.assignedBefore id)
    | some _, some content => .ok ((), { b with symbols := b.symbols.set id.index { s with content } })

/-- Register the number of a declared name; the first number counts. -/
def register (name : QualifiedName) (id : SymbolId) : BuildM Unit := fun b =>
  .ok ((), { b with index := b.index.insert name id })

def declare (name : QualifiedName) (s : Symbol Written) : BuildM SymbolId := do
  let id ← push s
  register name id
  return id

/-- **Push what is inside a symbol** that is there, and give it its children. -/
def fill (id : SymbolId) (inside : BuildM (List SymbolId)) : BuildM SymbolId := do
  let ids ← inside
  assign id ids
  return id

/-- Build something for each of a list that there is something to build for. -/
def each {α : Type} (build : α → BuildM (Option SymbolId)) : List α → BuildM (List SymbolId)
  | [] => return []
  | a :: as => do
    let id ← build a
    let ids ← each build as
    return id.toList ++ ids

def buildEvent (parent : SymbolId) (scope : Scope) (e : Event) : BuildM SymbolId :=
  let own := .declaration scope e.name
  declare (scope.qualify e.name)
    { name := e.name, parent := some parent, tags := .ofList e.tags
      content := .event e.isAbstract (e.base.map (·.base scope)) (e.properties.map (·.symbol own)) }

/-- Build an entity, then its events. -/
def buildEntity (parent : SymbolId) (scope : Scope) (e : Entity) : BuildM SymbolId := do
  let own := .declaration scope e.name
  let id ← declare (scope.qualify e.name)
    { name := e.name, parent := some parent, tags := .ofList e.tags
      content := .entity e.isAbstract (e.identity.map (·.typeUse own)) (e.base.map (·.base scope)) .unassigned }
  fill id (each (fun v => some <$> buildEvent id own v) e.events)

def buildValue (parent : SymbolId) (scope : Scope) (v : Value) : BuildM SymbolId :=
  let base := v.base.map (·.base scope)
  let own := .declaration scope v.name
  declare (scope.qualify v.name)
    { name := v.name, parent := some parent, tags := .ofList v.tags
      content :=
        if v.isExternal then .externalValue base
        else .complexValue v.isAbstract base (v.properties.map (·.symbol own)) v.equalBy }

def buildExternalEnum (parent : SymbolId) (scope : Scope) (e : ExternalEnum) : BuildM SymbolId :=
  declare (scope.qualify e.name)
    { name := e.name, parent := some parent, tags := .ofList e.tags, content := .externalEnum }

def buildCommand (parent : SymbolId) (scope : Scope) (o : Operation) : BuildM SymbolId :=
  let own := .declaration scope o.name
  push { name := o.name, parent := some parent, tags := .ofList o.tags, content := .command (o.symbol own .command) }

def buildQuery (parent : SymbolId) (scope : Scope) (q : Query) : BuildM SymbolId :=
  let own := .declaration scope q.operation.name
  push
    { name := q.operation.name, parent := some parent, tags := .ofList q.operation.tags
      content := .query (q.operation.symbol own .query) (q.filters.map (·.symbol own)) }

def buildCommand? (parent : SymbolId) (scope : Scope) : ApiMember → BuildM (Option SymbolId)
  | .command o => some <$> buildCommand parent scope o
  | _ => return none

def buildQuery? (parent : SymbolId) (scope : Scope) : ApiMember → BuildM (Option SymbolId)
  | .query q => some <$> buildQuery parent scope q
  | _ => return none

mutual

/-- **Build a path**, then its commands, its queries and its paths; the root of a web API is a path of its own kind. -/
def buildPath (parent : SymbolId) (scope : Scope) (isRoot : Bool) : Path → BuildM SymbolId
  | ⟨operation, filters, members⟩ => do
    let own := .declaration scope operation.name
    let operationSymbol := operation.symbol own .path
    let filterSymbols := filters.map (·.symbol own)
    let id ← push
      { name := operation.name, parent := some parent, tags := .ofList operation.tags
        content :=
          if isRoot then .webApi operationSymbol filterSymbols .unassigned
          else .path operationSymbol filterSymbols .unassigned }
    fill id do
      let commands ← each (buildCommand? id own) members
      let queries ← each (buildQuery? id own) members
      let paths ← buildPaths id own members
      return commands ++ queries ++ paths

def buildPath? (parent : SymbolId) (scope : Scope) : ApiMember → BuildM (Option SymbolId)
  | .path p => some <$> buildPath parent scope false p
  | .command _ | .query _ => return none

def buildPaths (parent : SymbolId) (scope : Scope) : List ApiMember → BuildM (List SymbolId)
  | [] => return []
  | m :: ms => do
    let id ← buildPath? parent scope m
    let ids ← buildPaths parent scope ms
    return id.toList ++ ids

end

/-- **Build a member of a block**; blocks are built as namespaces.  A web API is registered when all of it is there. -/
def buildMember (parent : SymbolId) (scope : Scope) : Member → BuildM (Option SymbolId)
  | .block _ => return none
  | .entity e => some <$> buildEntity parent scope e
  | .value v => some <$> buildValue parent scope v
  | .externalEnum e => some <$> buildExternalEnum parent scope e
  | .webApi root => do
    let id ← buildPath parent scope true root
    register (scope.qualify root.operation.name) id
    return some id

mutual

/-- **Build a namespace**, then its members and the namespaces inside. -/
def buildNamespace (parent : Option SymbolId) : Group → BuildM SymbolId
  | ⟨fullName, fragments, children⟩ => do
    let id ← push { name := fullName.last, parent := parent, tags := .empty, content := .space .unassigned }
    fill id do
      let members ← each (fun m => buildMember id m.2 m.1) (fragments.flatMap (·.members))
      let spaces ← buildNamespaces (some id) children
      return members ++ spaces

def buildNamespaces (parent : Option SymbolId) : List Group → BuildM (List SymbolId)
  | [] => return []
  | g :: gs => do
    let id ← buildNamespace parent g
    let ids ← buildNamespaces parent gs
    return id :: ids

end

/-- **The graph of groups, built**, its references looked up in a table and among the names registered in the end. -/
def build (groups : List Group) (t : Table) : Except BuildRefusal Graph := do
  let (namespaces, b) ← (buildNamespaces none groups).run empty
  return { symbols := b.symbols.map (·.map (Graph.bind t b.index)), namespaces, index := b.index }

end Builder
end DomainModel
