import DomainModel.Graph.Visitor
/-!
# Trace — logs of walks

A plan says, kind by kind, what is logged around the walk below a symbol and whether that walk is run once, twice or not
at all, and which subjects are skipped.  It is run by a visitor that overrides everything or by a delegate that handles
only the kinds that the plan names.
-/
namespace DomainModel

/-- **What is done with a symbol.** -/
inductive VisitMode where
  /-- Walk below it. -/
  | default
  /-- Log before and after the walk. -/
  | wrap
  /-- Log and do not walk. -/
  | prune
  /-- Walk, log, and walk again. -/
  | twice
deriving DecidableEq, Repr

namespace VisitMode

def ofWord? : String → Option VisitMode
  | "default" => some .default
  | "wrap" => some .wrap
  | "prune" => some .prune
  | "twice" => some .twice
  | _ => none

end VisitMode

/-- **What is logged on a walk.** -/
structure VisitPlan where
  /-- The mode of the graph itself. -/
  graphMode : VisitMode
  /-- The mode of each kind of symbol. -/
  symbolMode : SymbolKind → VisitMode
  /-- The mode of atoms. -/
  atomMode : VisitMode
  /-- Kinds, or kinds with short names, to skip; none to ask nothing. -/
  skip : Option (List String)
  /-- Log each question whether to skip. -/
  logsAsks : Bool

/-- A log, written line by line. -/
abbrev Logged := StateM (List String)

namespace Logged

def line (text : String) : Logged Unit := modify (text :: ·)

/-- The lines of a run, in order. -/
def lines (run : Logged Unit) : List String := (run.run []).2.reverse

end Logged

namespace Subject

def kindName : Subject → String
  | graph => "Compilation"
  | symbol _ s => s.kind.name
  | atom _ => "Atom"

/-- The short name of a subject; the graph has none. -/
def shortName : Subject → String
  | graph => ""
  | symbol _ s => s.name.text
  | atom a => a.name.text

def key (s : Subject) : String := s.kindName ++ ":" ++ s.shortName

end Subject

namespace VisitPlan

open Logged (line)

def around (mode : VisitMode) (label : String) (walk : Logged Unit) : Logged Unit :=
  match mode with
  | .default => walk
  | .wrap => do
    line ("enter " ++ label)
    walk
    line ("exit " ++ label)
  | .prune => line ("prune " ++ label)
  | .twice => do
    walk
    line ("again " ++ label)
    walk

/-- A subject is skipped when its kind is, or its kind with its short name. -/
def isSkipped (skip : List String) (s : Subject) : Bool := skip.contains s.kindName || skip.contains s.key

def ask (p : VisitPlan) (skip : List String) (s : Subject) : Logged Bool := do
  let answer := isSkipped skip s
  if p.logsAsks then line ("ask " ++ s.key ++ " " ++ toString answer)
  return answer

/-- The label of the graph: the number of its symbols. -/
def graphLabel (g : Graph) : String := "Compilation " ++ toString g.size

/-- The label of a symbol: its kind and its full name. -/
def symbolLabel (g : Graph) (id : SymbolId) (s : GraphSymbol) : String :=
  s.kind.name ++ " " ++ ((g.fullName? id).map (·.text)).getD ""

def atomLabel (g : Graph) (a : GraphAtom) : String :=
  "atom " ++ a.name.text ++ " " ++ (a.type.lookup.map g.describe).getD "?" ++ " " ++ a.type.cardinality.text

/-- **The plan as a visitor**: everything is asked about, and every atom is logged with its type. -/
def visitor (p : VisitPlan) (g : Graph) : Visitor Logged where
  skips := p.ask (p.skip.getD [])
  graph := around p.graphMode (graphLabel g)
  symbol id s := around (p.symbolMode s.kind) (symbolLabel g id s)
  atom a := line (atomLabel g a)

/-- **The plan as a delegate**: handlers for the kinds with a mode of their own, and the test only if there is one. -/
def delegate (p : VisitPlan) (g : Graph) : Delegate Logged where
  skips := p.skip.map p.ask
  graph := if p.graphMode = .default then none else some (around p.graphMode (graphLabel g))
  symbol kind :=
    if p.symbolMode kind = .default then none
    else some fun id s => around (p.symbolMode kind) (symbolLabel g id s)
  atom := if p.atomMode = .default then none else some fun a => line ("atom " ++ a.name.text)

/-- The visitor that logs atoms and nothing else. -/
def atomsOnly : Visitor Logged := { Visitor.plain with atom := fun a => line ("atom " ++ a.name.text) }

/-- Where a walk starts: at a type or, failing that, a namespace of the full name. -/
def startAt? (g : Graph) (name : QualifiedName) : Option SymbolId := g.get? name <|> g.namespace? name

/-- The log of a walk over the graph, or from a symbol on. -/
def log (g : Graph) (v : Visitor Logged) (start : Option SymbolId) : List String :=
  Logged.lines (match start with | none => g.accept v | some id => g.visit v id)

end VisitPlan
end DomainModel
