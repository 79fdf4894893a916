import DomainModel.Graph.Visitor
/-!
# Methods — visitors with a method a kind

A visitor can be written with a method for each kind of symbol.  A method is given the walks of its visitor, one a kind,
and one that is not written runs the walk of its kind.  Web APIs and paths have methods of their own and share a walk;
external values, enumerations and commands have no walk.

The methods of a delegate hand the walk of their kind to the handler of their kind, if there is one.
-/
namespace DomainModel

/-- **The walks of a visitor**: below the graph, and below each kind that has atoms or children. -/
structure Walks (m : Type → Type) where
  graph : m Unit
  space : Children → m Unit
  entity : Children → m Unit
  event : List GraphAtom → m Unit
  complexValue : List GraphAtom → m Unit
  path : List GraphAtom → Children → m Unit
  query : List GraphAtom → m Unit

/-- **The methods of a visitor**, each given what the walk of its kind goes over. -/
structure Methods (m : Type → Type) where
  skips : Subject → m Bool
  graph : Walks m → m Unit
  space : Walks m → SymbolId → GraphSymbol → Children → m Unit
  entity : Walks m → SymbolId → GraphSymbol → Children → m Unit
  event : Walks m → SymbolId → GraphSymbol → List GraphAtom → m Unit
  complexValue : Walks m → SymbolId → GraphSymbol → List GraphAtom → m Unit
  externalValue : SymbolId → GraphSymbol → m Unit
  externalEnum : SymbolId → GraphSymbol → m Unit
  webApi : Walks m → SymbolId → GraphSymbol → List GraphAtom → Children → m Unit
  path : Walks m → SymbolId → GraphSymbol → List GraphAtom → Children → m Unit
  query : Walks m → SymbolId → GraphSymbol → List GraphAtom → m Unit
  command : SymbolId → GraphSymbol → m Unit
  atom : GraphAtom → m Unit

variable {m : Type → Type} [Monad m]

namespace Methods

/-- The methods of a visitor for which none is written. -/
def plain : Methods m where
  skips _ := pure false
  graph w := w.graph
  space w _ _ members := w.space members
  entity w _ _ events := w.entity events
  event w _ _ properties := w.event properties
  complexValue w _ _ properties := w.complexValue properties
  externalValue _ _ := pure ()
  externalEnum _ _ := pure ()
  webApi w _ _ filters members := w.path filters members
  path w _ _ filters members := w.path filters members
  query w _ _ filters := w.query filters
  command _ _ := pure ()
  atom _ := pure ()

def visitAtom (v : Methods m) (a : GraphAtom) : m Unit := do
  if ← v.skips (.atom a) then return
  v.atom a

/-- The walks of a visitor, by how it visits a symbol. -/
def walks (v : Methods m) (namespaces : List SymbolId) (visit : SymbolId → m Unit) : Walks m where
  graph := namespaces.forM visit
  space members := members.ids.forM visit
  entity events := events.ids.forM visit
  event properties := properties.forM v.visitAtom
  complexValue properties := properties.forM v.visitAtom
  path filters members := do
    filters.forM v.visitAtom
    members.ids.forM visit
  query filters := filters.forM v.visitAtom

/-- **Visit a symbol by the method of its kind.** -/
def visitSymbol (v : Methods m) (w : Walks m) (id : SymbolId) (s : GraphSymbol) : m Unit :=
  match s.content with
  | .space members => v.space w id s members
  | .entity _ _ _ events => v.entity w id s events
  | .event _ _ properties => v.event w id s properties
  | .complexValue _ _ properties _ => v.complexValue w id s properties
  | .externalValue _ => v.externalValue id s
  | .externalEnum => v.externalEnum id s
  | .webApi _ filters members => v.webApi w id s filters members
  | .path _ filters members => v.path w id s filters members
  | .query _ filters => v.query w id s filters
  | .command _ => v.command id s

end Methods

namespace Graph

/-- Visit a symbol by methods, unless it is skipped, at most so many levels down. -/
def visitByWithin (g : Graph) (v : Methods m) : Nat → SymbolId → m Unit
  | 0, _ => pure ()
  | depth + 1, id =>
    match g.symbol? id with
    | none => pure ()
    | some s => do
      if ← v.skips (.symbol id s) then return
      v.visitSymbol (v.walks g.namespaces (visitByWithin g v depth)) id s

/-- **Visit the graph by methods**, unless it is skipped. -/
def acceptBy (g : Graph) (v : Methods m) : m Unit := do
  if ← v.skips .graph then return
  v.graph (v.walks g.namespaces (g.visitByWithin v g.size))

end Graph

namespace Delegate

/-- Hand a walk to a handler; without one, walk. -/
def dispatch (handler : Option (SymbolId → GraphSymbol → m Unit → m Unit)) (id : SymbolId) (s : GraphSymbol)
    (walk : m Unit) : m Unit :=
  match handler with
  | some handle => handle id s walk
  | none => walk

/-- **The methods of a delegate.** -/
def methods (d : Delegate m) : Methods m where
  skips subject :=
    match d.skips with
    | some test => test subject
    | none => pure false
  graph w :=
    match d.graph with
    | some handle => handle w.graph
    | none => w.graph
  space w id s members := dispatch (d.symbol .space) id s (w.space members)
  entity w id s events := dispatch (d.symbol .entity) id s (w.entity events)
  event w id s properties := dispatch (d.symbol .event) id s (w.event properties)
  complexValue w id s properties := dispatch (d.symbol .complexValue) id s (w.complexValue properties)
  externalValue id s := dispatch (d.symbol .externalValue) id s (pure ())
  externalEnum id s := dispatch (d.symbol .externalEnum) id s (pure ())
  webApi w id s filters members := dispatch (d.symbol .webApi) id s (w.path filters members)
  path w id s filters members := dispatch (d.symbol .path) id s (w.path filters members)
  query w id s filters := dispatch (d.symbol .query) id s (w.query filters)
  command id s := dispatch (d.symbol .command) id s (pure ())
  atom a :=
    match d.atom with
    | some handle => handle a
    | none => pure ()

end Delegate
end DomainModel
