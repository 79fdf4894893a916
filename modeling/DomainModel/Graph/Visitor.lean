import DomainModel.Graph
/-!
# Visitor — walking a graph

A visitor is asked about each subject before it is visited, and may skip it with all that is below it.  Visiting a
symbol is given the walk below it, to run before, after or between what the visitor does itself, or not at all.  The walk
below a symbol visits its properties or filters and then its children; that of the graph visits its namespaces.

A delegate has handlers for some kinds only; any other kind is walked.
-/
namespace DomainModel

/-- **What a visitor may skip.** -/
inductive Subject where
  | graph
  | symbol (id : SymbolId) (s : GraphSymbol)
  | atom (a : GraphAtom)

/-- **What is done on a walk.**  The unit of `graph` and `symbol` is the walk below. -/
structure Visitor (m : Type → Type) where
  skips : Subject → m Bool
  graph : m Unit → m Unit
  symbol : SymbolId → GraphSymbol → m Unit → m Unit
  atom : GraphAtom → m Unit

variable {m : Type → Type} [Monad m]

namespace Visitor

def plain : Visitor m where
  skips _ := pure false
  graph walk := walk
  symbol _ _ walk := walk
  atom _ := pure ()

/-- Visit an atom, unless it is skipped. -/
def visitAtom (v : Visitor m) (a : GraphAtom) : m Unit := do
  if ← v.skips (.atom a) then return
  v.atom a

end Visitor

namespace Graph

/-- Visit a symbol, unless it is skipped, at most so many levels down. -/
def visitWithin (g : Graph) (v : Visitor m) : Nat → SymbolId → m Unit
  | 0, _ => pure ()
  | depth + 1, id =>
    match g.symbol? id with
    | none => pure ()
    | some s => do
      if ← v.skips (.symbol id s) then return
      v.symbol id s do
        s.content.atoms.forM v.visitAtom
        s.children.forM (visitWithin g v depth)

/-- **Visit a symbol.**  Children have greater numbers than their parents, so there are no more levels than symbols. -/
def visit (g : Graph) (v : Visitor m) (id : SymbolId) : m Unit := g.visitWithin v g.size id

/-- The walk below the graph: its namespaces. -/
def walk (g : Graph) (v : Visitor m) : m Unit := g.namespaces.forM (g.visit v)

/-- **Visit the graph**, unless it is skipped. -/
def accept (g : Graph) (v : Visitor m) : m Unit := do
  if ← v.skips .graph then return
  v.graph (g.walk v)

end Graph

/-- **Handlers for some kinds**, and a test for what to skip, if there is one. -/
structure Delegate (m : Type → Type) where
  skips : Option (Subject → m Bool)
  graph : Option (m Unit → m Unit)
  symbol : SymbolKind → Option (SymbolId → GraphSymbol → m Unit → m Unit)
  atom : Option (GraphAtom → m Unit)

namespace Delegate

def empty : Delegate m := ⟨none, none, fun _ => none, none⟩

/-- **The visitor of a delegate**: a handler where there is one, else the walk. -/
def visitor (d : Delegate m) : Visitor m where
  skips subject :=
    match d.skips with
    | some test => test subject
    | none => pure false
  graph walk :=
    match d.graph with
    | some handle => handle walk
    | none => walk
  symbol id s walk :=
    match d.symbol s.kind with
    | some handle => handle id s walk
    | none => walk
  atom a :=
    match d.atom with
    | some handle => handle a
    | none => pure ()

def run (d : Delegate m) (g : Graph) : m Unit := g.accept d.visitor

end Delegate
end DomainModel
