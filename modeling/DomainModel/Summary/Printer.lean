import DomainModel.Graph.Methods
import DomainModel.Summary
/-!
# Printer — the outline kind by kind

A printer has a method for each kind of symbol.  Each writes the line of its symbol and, for the kinds that hold
anything below, walks on one level deeper; the line of a value comes in two pieces and the end of the line.
-/
namespace DomainModel
namespace Graph

variable (g : Graph)

/-- Write a line, and what is below it one level deeper. -/
def printAbove (text : String) (walk : StateM Writer Unit) : StateM Writer Unit := do
  modify (·.emitLine text)
  modify Writer.indent
  walk
  modify Writer.outdent

/-- What an operation is called, takes and gives; nothing for a symbol that is none. -/
def operationLine (keyword : String) (s : GraphSymbol) : String :=
  match s.content.operation? with
  | none => ""
  | some o => g.operationText keyword s.name o

/-- The line of a value: what it is called and derives from, then the properties by which it is compared, if any. -/
def printValue (s : GraphSymbol) : StateM Writer Unit := do
  let keys := s.content.equalBy?.getD []
  modify (·.emit
    (abstractText (s.content.isAbstract?.getD false) ++ "value " ++ s.name.text ++ g.baseText s.content.base?))
  if !keys.isEmpty then modify (·.emit (" equal by (" ++ ", ".intercalate (keys.map (·.text)) ++ ")"))
  modify Writer.newline

/-- **The methods of a printer.** -/
def printing : Methods (StateM Writer) where
  skips _ := pure false
  graph w := w.graph
  space w id _ members := printAbove ("namespace " ++ ((g.fullName? id).map (·.text)).getD "") (w.space members)
  entity w _ s events :=
    let shape :=
      match s.content.identity? with
      | some identity => " identity " ++ g.typeText identity
      | none => g.baseText s.content.base?
    printAbove (abstractText (s.content.isAbstract?.getD false) ++ "entity " ++ s.name.text ++ shape) (w.entity events)
  event w _ s properties :=
    printAbove
      (abstractText (s.content.isAbstract?.getD false) ++ "event " ++ s.name.text ++ g.baseText s.content.base?)
      (w.event properties)
  complexValue w _ s properties := do
    g.printValue s
    modify Writer.indent
    w.complexValue properties
    modify Writer.outdent
  externalValue _ s := modify (·.emitLine ("external value " ++ s.name.text ++ g.baseText s.content.base?))
  externalEnum _ s := modify (·.emitLine ("external enum " ++ s.name.text))
  webApi w _ s filters members := printAbove (g.operationLine "api" s) (w.path filters members)
  path w _ s filters members := printAbove (g.operationLine "path" s) (w.path filters members)
  query w _ s filters := printAbove (g.operationLine "query" s) (w.query filters)
  command _ s := modify (·.emitLine (g.operationLine "command" s))
  atom a := modify (·.emitLine (g.atomText a))

end Graph
end DomainModel
