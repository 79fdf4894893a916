import DomainModel.Observation
import DomainModel.Source
import DomainModel.Text.Pieces
/-!
# LineFormat — models written line by line

One declaration a line, by its first word; lines without words and lines that start with `#` are comments.  A line adds
to what the lines before it opened: the namespace, its last member, the event or value that takes properties, the path
that takes operations.  A line with a fault is told with its place and, but for the two cases noted below, changes
nothing; the lines after it are read all the same.
-/
namespace DomainModel
namespace LineFormat

open Source (ApiMember Atom Block Entity Event Member Operation Path Property Query Reference Tree Value)

/-- **What is wrong with a line.** -/
inductive Fault where
  | missingName
  | missingType
  | missingResult
  | badName (e : NameError)
  | badRange
  | badMinimum
  | badMaximum
  | badCardinality (e : CardinalityError)
  | unexpected (word : String)
  | outsideNamespace
  | eventOutsideEntity
  | propertyOutside
  | eventClosed
  | operationOutsideApi
  | pathClosed
deriving DecidableEq, Repr

namespace Fault

def message : Fault → String
  | missingName => "missing name"
  | missingType => "missing type"
  | missingResult => "missing result"
  | badName e => e.message
  | badRange => "bad range"
  | badMinimum => "bad minimum"
  | badMaximum => "bad maximum"
  | badCardinality e => e.message
  | unexpected word => "unexpected '" ++ word ++ "'"
  | outsideNamespace => "declaration outside a namespace"
  | eventOutsideEntity => "event outside an entity"
  | propertyOutside => "property outside an event or value"
  | eventClosed => "event was closed"
  | operationOutsideApi => "operation outside an api"
  | pathClosed => "path was closed"

end Fault

/-! ## Words -/

/-- An identifier, if there is a word. -/
def identifier : Option String → Except Fault Identifier
  | none => .error .missingName
  | some word => (Identifier.parse word).mapError .badName

/-- A dotted name, if there is a word. -/
def qualifiedName : Option String → Except Fault QualifiedName
  | none => .error .missingName
  | some word => (QualifiedName.parse word).mapError .badName

/-- A decimal number that fits 32 bits, a plus before it being allowed. -/
def count? (cs : List Char) : Option UInt32 :=
  let digits := if cs.head? = some '+' then cs.tail else cs
  if digits ≠ [] ∧ digits.all Char.isDigit then
    let n := digits.foldl (fun n c => 10 * n + (c.toNat - '0'.toNat)) 0
    if n < 4294967296 then some (UInt32.ofNat n) else none
  else none

def splitAtDots : List Char → Option (List Char × List Char)
  | [] => none
  | '.' :: '.' :: cs => some ([], cs)
  | c :: cs => (splitAtDots cs).map fun p => (c :: p.1, p.2)

def splitAtBracket (cs : List Char) : Option (List Char × List Char) :=
  match cs.dropWhile (· != '[') with
  | [] => none
  | _ :: rest => some (cs.takeWhile (· != '['), rest)

def range (cs : List Char) : Except Fault Cardinality :=
  match splitAtDots cs with
  | none => .error .badRange
  | some (minimum, maximum) =>
    match count? minimum, count? maximum with
    | none, _ => .error .badMinimum
    | some _, none => .error .badMaximum
    | some minimum, some maximum => (Cardinality.of minimum (some maximum)).mapError .badCardinality

/-- **A type**: a dotted name, with `?`, `*`, `+` or a range in brackets behind it. -/
def reference : Option String → Except Fault Reference
  | none => .error .missingType
  | some word => do
    let cs := word.toList
    let named (cs : List Char) (c : Cardinality) : Except Fault Reference := do
      return ⟨← qualifiedName (some (String.ofList cs)), c⟩
    match cs.getLast? with
    | some '?' => named cs.dropLast .zeroOrOne
    | some '*' => named cs.dropLast .zeroOrMore
    | some '+' => named cs.dropLast .oneOrMore
    | some ']' =>
      match splitAtBracket cs.dropLast with
      | some (name, bounds) => do
        let c ← range bounds
        named name c
      | none => named cs .one
    | _ => named cs .one

/-- The words of an operation behind its name: arguments and, the last one counting, a result. -/
def operationWords (arguments : List Atom) (result : Option Reference) :
    List String → Except Fault (List Atom × Option Reference)
  | [] => .ok (arguments, result)
  | w :: ws =>
    if w = "arg" then
      match ws with
      | [] => .error .missingName
      | [name] => do
        let _ ← identifier (some name)
        .error .missingType
      | name :: type :: ws => do
        let name ← identifier (some name)
        let type ← reference (some type)
        operationWords (arguments ++ [⟨name, type, []⟩]) result ws
    else if w = "->" then
      match ws with
      | [] => .error .missingType
      | type :: ws => do
        let type ← reference (some type)
        operationWords arguments (some type) ws
    else .error (.unexpected w)

/-- **An operation**, from the words behind the first. -/
def operation (ws : List String) : Except Fault Operation := do
  let name ← identifier ws.head?
  let (arguments, result) ← operationWords [] none ws.tail
  match result with
  | none => .error .missingResult
  | some result => return ⟨name, result, arguments, []⟩

def entityWords (e : Entity) : List String → Except Fault Entity
  | [] => .ok e
  | w :: ws =>
    if w = "abstract" then entityWords { e with isAbstract := true } ws
    else if w = "identity" then
      match ws with
      | [] => .error .missingType
      | type :: ws => do
        let type ← reference (some type)
        entityWords { e with identity := some type } ws
    else if w = ":" then
      match ws with
      | [] => .error .missingType
      | type :: ws => do
        let type ← reference (some type)
        entityWords { e with base := some type } ws
    else .error (.unexpected w)

def valueWords (v : Value) : List String → Except Fault Value
  | [] => .ok v
  | w :: ws =>
    if w = "abstract" then valueWords { v with isAbstract := true } ws
    else if w = "external" then valueWords { v with isExternal := true } ws
    else if w = ":" then
      match ws with
      | [] => .error .missingType
      | type :: ws => do
        let type ← reference (some type)
        valueWords { v with base := some type } ws
    else if w = "key" then
      match ws with
      | [] => .error .missingName
      | name :: ws => do
        let name ← identifier (some name)
        valueWords { v with equalBy := v.equalBy ++ [name] } ws
    else .error (.unexpected w)

/-- An event, from the words behind the first; words behind the base are left aside. -/
def event (ws : List String) : Except Fault Event := do
  let name ← identifier ws[0]?
  let base ← if ws[1]? = some ":" then some <$> reference ws[2]? else pure none
  return ⟨name, false, base, [], []⟩

/-- A property, from the words behind the first. -/
def property (ws : List String) : Except Fault Property := do
  let name ← identifier ws[0]?
  let type ← reference ws[1]?
  let aliasName ← if ws[2]? = some "alias" then some <$> identifier ws[3]? else pure none
  return ⟨⟨name, type, []⟩, aliasName⟩

/-- A filter, from the words behind the first. -/
def filter (ws : List String) : Except Fault Atom := do
  let name ← identifier ws[0]?
  let type ← reference ws[1]?
  return ⟨name, type, []⟩

/-! ## Lines -/

/-- What takes properties. -/
inductive Open where
  | nothing | event | value
deriving DecidableEq, Repr

/-- **What the lines so far have given**: the imports, the blocks that are closed, the block that is open, what takes
properties, and whether a path takes operations. -/
structure Draft where
  imports : List QualifiedName
  closed : List Block
  current : Option Block
  last : Open
  inPath : Bool

namespace Draft

def empty : Draft := ⟨[], [], none, .nothing, false⟩

def close (d : Draft) : Draft := { d with closed := d.closed ++ d.current.toList, current := none }

def tree (d : Draft) : Tree := ⟨none, d.imports, d.close.closed⟩

def inBlock (d : Draft) (f : Block → Except Fault Block) : Except Fault Draft :=
  match d.current with
  | none => .error .outsideNamespace
  | some b => do return { d with current := some (← f b) }

def addMember (d : Draft) (m : Member) : Except Fault Draft :=
  d.inBlock fun b => .ok { b with members := b.members ++ [m] }

def onLastMember (d : Draft) (f : Option Member → Except Fault Member) : Except Fault Draft :=
  d.inBlock fun b => do return { b with members := b.members.dropLast ++ [← f b.members.getLast?] }

def addEvent (e : Event) : Option Member → Except Fault Member
  | some (.entity entity) => .ok (.entity { entity with events := entity.events ++ [e] })
  | _ => .error .eventOutsideEntity

def addToLastEvent (p : Property) (e : Entity) : Except Fault Member :=
  match e.events.getLast? with
  | none => .error .eventClosed
  | some last =>
    .ok (.entity { e with events := e.events.dropLast ++ [{ last with properties := last.properties ++ [p] }] })

def addProperty (p : Property) : Open → Option Member → Except Fault Member
  | .event, some (.entity e) => addToLastEvent p e
  | .value, some (.value v) => .ok (.value { v with properties := v.properties ++ [p] })
  | _, _ => .error .propertyOutside

/-- Change the path that takes operations: the root of the web API that is the last member, or the path that is the
last member of that root. -/
def inContainer (inPath : Bool) (f : Path → Path) : Option Member → Except Fault Member
  | some (.webApi root) =>
    if inPath then
      match root.members.getLast? with
      | some (.path p) => .ok (.webApi { root with members := root.members.dropLast ++ [.path (f p)] })
      | _ => .error .pathClosed
    else .ok (.webApi (f root))
  | _ => .error .operationOutsideApi

def addOperation (d : Draft) (m : ApiMember) : Except Fault Draft :=
  d.onLastMember (inContainer d.inPath fun p => { p with members := p.members ++ [m] })

/-- A filter of the query or path that is the last member of a path, or else of the path itself. -/
def withFilter (a : Atom) (p : Path) : Path :=
  match p.members.getLast? with
  | some (.query q) => { p with members := p.members.dropLast ++ [.query { q with filters := q.filters ++ [a] }] }
  | some (.path inner) =>
    { p with members := p.members.dropLast ++ [.path { inner with filters := inner.filters ++ [a] }] }
  | _ => { p with filters := p.filters ++ [a] }

/-- What a line adds that either succeeds or changes nothing. -/
def add (d : Draft) (word : String) (ws : List String) : Except Fault Draft :=
  match word with
  | "import" => do return { d with imports := d.imports ++ [← qualifiedName ws.head?] }
  | "using" => do
    let name ← qualifiedName ws.head?
    d.inBlock fun b => .ok { b with imports := b.imports ++ [name] }
  | "entity" => do
    let name ← identifier ws.head?
    let e ← entityWords ⟨name, false, none, none, [], []⟩ ws.tail
    return { ← d.addMember (.entity e) with last := .nothing }
  | "event" => do
    let e ← LineFormat.event ws
    return { ← d.onLastMember (addEvent e) with last := .event }
  | "value" => do
    let name ← identifier ws.head?
    let v ← valueWords ⟨name, false, false, none, [], [], []⟩ ws.tail
    return { ← d.addMember (.value v) with last := .value }
  | "prop" => do
    let p ← property ws
    d.onLastMember (addProperty p d.last)
  | "enum" => do
    let name ← identifier ws.head?
    d.addMember (.externalEnum ⟨name, []⟩)
  | "api" => do
    let o ← operation ws
    return { ← d.addMember (.webApi ⟨o, [], []⟩) with inPath := false }
  | "command" => do
    let o ← operation ws
    d.addOperation (.command o)
  | "query" => do
    let o ← operation ws
    d.addOperation (.query ⟨o, []⟩)
  | "end" => .ok { d with inPath := false }
  | "filter" => do
    let a ← LineFormat.filter ws
    d.onLastMember (inContainer d.inPath (withFilter a))
  | other => .error (.unexpected other)

/-- **Read a line.**  A `namespace` closes the block before it even if its own name is bad, and a `path` whose operation
is good ends the path before it even if there is no web API to take it. -/
def line (d : Draft) (word : String) (ws : List String) : Draft × Option Fault :=
  let keep (d : Draft) : Except Fault Draft → Draft × Option Fault
    | .ok d => (d, none)
    | .error fault => (d, some fault)
  match word with
  | "namespace" =>
    let d := d.close
    match qualifiedName ws.head? with
    | .ok name => ({ d with current := some ⟨name, [], []⟩, last := .nothing, inPath := false }, none)
    | .error fault => (d, some fault)
  | "path" =>
    match operation ws with
    | .error fault => (d, some fault)
    | .ok o =>
      let d := { d with inPath := false }
      keep d ((d.addOperation (.path ⟨o, [], []⟩)).map fun d => { d with inPath := true })
  | _ => keep d (d.add word ws)

end Draft

/-- The column of the first word of a line: one more than the bytes of the blanks before it. -/
def firstColumn (line : List Char) : Nat := 1 + ((line.takeWhile Text.isBlank).map Char.utf8Size).foldr (· + ·) 0

/-- Read lines in order from a line number on, with the failures in order. -/
def readLines (d : Draft) (number : Nat) : List (List Char) → Draft × List ReadFailure
  | [] => (d, [])
  | l :: ls =>
    match Text.words l with
    | [] => readLines d (number + 1) ls
    | word :: ws =>
      if word.head? = some '#' then readLines d (number + 1) ls
      else
        let (d, fault) := d.line (String.ofList word) (ws.map String.ofList)
        let (d, failures) := readLines d (number + 1) ls
        (d, (fault.map fun f => ReadFailure.located f.message number (firstColumn l)).toList ++ failures)

/-- **Read a text.**  A carriage return before the end of a line is a blank and belongs to no word. -/
def read (text : String) (_ : Option String) : Except (List ReadFailure) Tree :=
  match readLines .empty 1 (Text.pieces (· == '\n') text.toList) with
  | (d, []) => .ok d.tree
  | (_, failures) => .error failures

end LineFormat
end DomainModel
