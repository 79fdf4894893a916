import DomainModel.Graph.Visitor
import DomainModel.Writer
/-!
# Summary — a graph as an outline

One line a symbol, property and filter, indented by what encloses it.  A type that a reference does not name is written
as a question mark.
-/
namespace DomainModel
namespace Graph

variable (g : Graph)

def lookupText (lookup : Option TypeRef) : String := (lookup.map g.describe).getD "?"

def typeText (t : TypeUse (Option TypeRef)) : String := g.lookupText t.lookup ++ t.cardinality.suffix

/-- What a declaration derives from, behind a colon. -/
def baseText (base : Option (Option TypeRef)) : String :=
  match base with
  | none => ""
  | some lookup => " : " ++ g.lookupText lookup

def abstractText (isAbstract : Bool) : String := if isAbstract then "abstract " else ""

def operationText (keyword : String) (name : Identifier) (o : OperationSymbol (Option TypeRef)) : String :=
  let argument :=
    match o.argument with
    | none => ""
    | some a => "(" ++ a.name.text ++ ": " ++ g.typeText a.type ++ ")"
  keyword ++ " " ++ name.text ++ argument ++ " -> " ++ g.typeText o.result

/-- The properties by which values are compared. -/
def equalByText (equalBy : List Identifier) : String :=
  if equalBy.isEmpty then "" else " equal by (" ++ ", ".intercalate (equalBy.map (·.text)) ++ ")"

/-- **The line of a symbol.** -/
def symbolText (id : SymbolId) (s : GraphSymbol) : String :=
  match s.content with
  | .space _ => "namespace " ++ ((g.fullName? id).map (·.text)).getD ""
  | .entity isAbstract identity base _ =>
    abstractText isAbstract ++ "entity " ++ s.name.text ++
      match identity with
      | some identity => " identity " ++ g.typeText identity
      | none => g.baseText base
  | .event isAbstract base _ => abstractText isAbstract ++ "event " ++ s.name.text ++ g.baseText base
  | .complexValue isAbstract base _ equalBy =>
    abstractText isAbstract ++ "value " ++ s.name.text ++ g.baseText base ++ equalByText equalBy
  | .externalValue base => "external value " ++ s.name.text ++ g.baseText base
  | .externalEnum => "external enum " ++ s.name.text
  | .webApi operation _ _ => g.operationText "api" s.name operation
  | .path operation _ _ => g.operationText "path" s.name operation
  | .query operation _ => g.operationText "query" s.name operation
  | .command operation => g.operationText "command" s.name operation

def atomText (a : GraphAtom) : String :=
  a.name.text ++ ": " ++ g.typeText a.type ++
    match a.aliasName with
    | none => ""
    | some aliasName => " as " ++ aliasName.text

/-- **The visitor that writes the lines**, what is below a symbol one level deeper. -/
def printer : Visitor (StateM Writer) where
  skips _ := pure false
  graph walk := walk
  symbol id s walk := do
    modify (·.emitLine (g.symbolText id s))
    modify Writer.indent
    walk
    modify Writer.outdent
  atom a := modify (·.emitLine (g.atomText a))

def summary : String := ((g.accept g.printer).run Writer.start).2.output

end Graph
end DomainModel
