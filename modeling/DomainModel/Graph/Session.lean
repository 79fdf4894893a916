import DomainModel.Graph
import DomainModel.Lookup.Store
/-!
# Session — reading a graph

The lookups of a graph are deferred: each is resolved when it is first read.  A session is a graph with the state of its
lookups; reading changes that state and nothing else.
-/
namespace DomainModel

/-- **Where a lookup is held**: a symbol and a slot of it. -/
structure LookupAddress where
  id : SymbolId
  slot : Symbol.Slot
deriving DecidableEq, Repr

namespace Graph

variable (g : Graph)

def addressesAt (id : SymbolId) : List LookupAddress :=
  match g.symbol? id with
  | none => []
  | some s => s.slots.map fun slot => ⟨id, slot⟩

/-- **The addresses of all lookups**, symbol by symbol. -/
def addresses : List LookupAddress := g.ids.flatMap g.addressesAt

/-- What the lookup at an address names; none where there is no lookup. -/
def lookup? (a : LookupAddress) : Option (Option TypeRef) := (g.symbol? a.id).bind (·.lookup? a.slot)

/-- **The lookups of a graph that no one has read.** -/
def deferred : LookupStore := ⟨g.addresses.map fun a => .deferred (.known (g.lookup? a).join)⟩

/-- The lookups that the outline of the graph reads: all but the bases of entities that have an identity. -/
def outlineAddresses : List LookupAddress :=
  g.addresses.filter fun a => !(a.slot == .base && (g.lookup? ⟨a.id, .identity⟩).isSome)

end Graph

/-- **A graph being read.** -/
structure Session where
  graph : Graph
  lookups : LookupStore

namespace Session

def start (g : Graph) : Session := ⟨g, g.deferred⟩

def at? (s : Session) (a : LookupAddress) : Option Nat := s.graph.addresses.idxOf? a

def lookup? (s : Session) (a : LookupAddress) : Option Lookup := (s.at? a).bind s.lookups.get?

/-- **Read the lookup at an address**, if there is one. -/
def read (s : Session) (a : LookupAddress) : Option Reading × Session :=
  match s.at? a with
  | none => (none, s)
  | some i =>
    let (reading, lookups) := s.lookups.read i
    (some reading, { s with lookups })

def readAll (s : Session) (as : List LookupAddress) : Session := as.foldl (fun s a => (s.read a).2) s

def readSymbol (s : Session) (id : SymbolId) : Session := s.readAll (s.graph.addressesAt id)

def readOutline (s : Session) : Session := s.readAll s.graph.outlineAddresses

def readEverything (s : Session) : Session := s.readAll s.graph.addresses

def readBase (s : Session) (kinds : List SymbolKind) (id : SymbolId) : Session :=
  match s.graph.symbol? id with
  | none => s
  | some symbol => if kinds.contains symbol.kind then (s.read ⟨id, .base⟩).2 else s

/-- The entity that an entity derives from; the base of an entity is read. -/
def baseEntity (s : Session) (id : SymbolId) : Option SymbolId × Session :=
  (s.graph.baseEntity? id, s.readBase [.entity] id)

/-- The event or value that one derives from; the base of an event or a value is read, that of an external value not. -/
def baseMolecule (s : Session) (id : SymbolId) : Option SymbolId × Session :=
  (s.graph.baseMolecule? id, s.readBase [.event, .complexValue] id)

end Session
end DomainModel
