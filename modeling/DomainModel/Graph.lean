import DomainModel.Symbol.Placed
import DomainModel.Table
/-!
# Graph — the symbols of a model

A graph holds the symbols in pre-order, the namespaces at the top, and the numbers of the declared full names, the first
symbol of a name counting.  Each lookup holds the type that its reference names.
-/
namespace DomainModel

/-- **Numbers by full name**, the first of each name. -/
structure SymbolIndex where
  entries : List (QualifiedName × SymbolId)
deriving DecidableEq, Repr

namespace SymbolIndex

def empty : SymbolIndex := ⟨[]⟩

def get? (x : SymbolIndex) (name : QualifiedName) : Option SymbolId :=
  (x.entries.find? fun e => e.1 = name).map (·.2)

/-- One name more, unless it has a number. -/
def insert (x : SymbolIndex) (name : QualifiedName) (id : SymbolId) : SymbolIndex :=
  if (x.get? name).isSome then x else ⟨x.entries ++ [(name, id)]⟩

def size (x : SymbolIndex) : Nat := x.entries.length

def ofList (entries : List (QualifiedName × SymbolId)) : SymbolIndex :=
  entries.foldl (fun x e => x.insert e.1 e.2) empty

/-- **A name that has a number keeps it**, and another gets the one given. -/
theorem get?_insert (x : SymbolIndex) (name other : QualifiedName) (id : SymbolId) :
    (x.insert name id).get? other = (x.get? other <|> if name = other then some id else none) := by
  unfold insert
  split
  · rename_i h
    by_cases hn : name = other
    · subst hn
      obtain ⟨i, hi⟩ := Option.isSome_iff_exists.1 h
      simp [hi]
    · simp only [if_neg hn]; cases x.get? other <;> rfl
  · unfold get?
    rw [List.find?_append]
    cases hf : List.find? (fun e => decide (e.1 = other)) x.entries with
    | some e => simp
    | none => by_cases hn : name = other <;> simp [hn]

end SymbolIndex

/-- A symbol whose lookups hold what they name. -/
abbrev GraphSymbol := Symbol (Option TypeRef)

/-- An atom whose lookup holds what it names. -/
abbrev GraphAtom := AtomSymbol (Option TypeRef)

/-- **The symbols of a model.** -/
structure Graph where
  symbols : List GraphSymbol
  namespaces : List SymbolId
  index : SymbolIndex
deriving DecidableEq, Repr

namespace Graph

/-- **What a written reference names in a graph**: what it means, a declaration being the symbol of its full name. -/
def bind (t : Table) (x : SymbolIndex) (w : Written) : Option TypeRef :=
  (t.resolveIn w.scope w.reference).bind fun
    | .builtIn b => some (.builtIn b)
    | .external e => some (.external e)
    | .declaration d => (x.get? d.fullName).map .symbol

/-- The numbers of the declared names among placed symbols, numbered from a number on. -/
def declaredFrom (start : Nat) : List Placed → List (QualifiedName × SymbolId)
  | [] => []
  | p :: ps => (p.declares.map fun name => (name, SymbolId.mk start)).toList ++ declaredFrom (start + 1) ps

/-- **The graph of groups**, its references looked up in a table. -/
def ofGroups (groups : List Group) (t : Table) : Graph :=
  let trees := Group.trees groups
  let placed := SymbolTree.placeAll none 0 trees
  let index := SymbolIndex.ofList (declaredFrom 0 placed)
  { symbols := placed.map fun p => p.symbol.map (bind t index)
    namespaces := SymbolTree.roots 0 trees
    index }

variable (g : Graph)

def size : Nat := g.symbols.length

def isEmpty : Bool := g.symbols.isEmpty

def symbol? (id : SymbolId) : Option GraphSymbol := g.symbols[id.index]?

def ids : List SymbolId := (List.range g.size).map .mk

/-- **The types of a graph**, by number. -/
def typeIds : List SymbolId := g.ids.filter fun id => ((g.symbol? id).map (·.isType)).getD false

def get? (name : QualifiedName) : Option SymbolId := g.index.get? name

/-- Down the namespaces, a segment a step. -/
def descend (among : List SymbolId) : List Identifier → Option SymbolId
  | [] => none
  | segment :: rest =>
    let found := among.find? fun id =>
      match g.symbol? id with
      | some s => s.name == segment && s.kind == .space
      | none => false
    match found, rest with
    | none, _ => none
    | some id, [] => some id
    | some id, next :: rest => descend (((g.symbol? id).map (·.children)).getD []) (next :: rest)

/-- **The namespace of a full name**, from the top down by segments. -/
def namespace? (name : QualifiedName) : Option SymbolId := g.descend g.namespaces name.segments

/-- The names from the top to a symbol, at most so many steps up. -/
def pathWithin : Nat → SymbolId → List Identifier
  | 0, _ => []
  | fuel + 1, id =>
    match g.symbol? id with
    | none => []
    | some s =>
      match s.parent with
      | none => [s.name]
      | some parent => pathWithin fuel parent ++ [s.name]

/-- **The full name of a symbol**, by its parents.  A parent has a smaller number than its children, so there are no more
steps than the number says. -/
def fullName? (id : SymbolId) : Option QualifiedName :=
  (QualifiedName.ofSegments (g.pathWithin (id.index + 1) id)).toOption

/-- **The entity that an entity derives from.** -/
def baseEntity? (id : SymbolId) : Option SymbolId := do
  let s ← g.symbol? id
  if s.kind ≠ .entity then none
  let base ← (← (← s.content.base?)).symbol?
  if (← g.symbol? base).kind = .entity then some base else none

/-- **The event or value that one derives from**, if it is of the same kind; external values have none. -/
def baseMolecule? (id : SymbolId) : Option SymbolId := do
  let s ← g.symbol? id
  if s.kind ≠ .event ∧ s.kind ≠ .complexValue then none
  let base ← (← (← s.content.base?)).symbol?
  if (← g.symbol? base).kind = s.kind then some base else none

/-- **The name of a type**: a keyword or a full name. -/
def describe : TypeRef → String
  | .builtIn b => b.keyword
  | .external e => e.text
  | .symbol id => ((g.fullName? id).map (·.text)).getD ""

def inspect : String :=
  "Compilation \x7b symbols: " ++ toString g.size ++ ", namespaces: [" ++
    ", ".intercalate (g.namespaces.map SymbolId.inspect) ++ "], types: " ++ toString g.index.size ++ " \x7d"

/-- **The graph keeps the symbols as they were placed**, with their lookups bound. -/
theorem symbols_ofGroups (groups : List Group) (t : Table) :
    (ofGroups groups t).symbols =
      (SymbolTree.placeAll none 0 (Group.trees groups)).map fun p => p.symbol.map (bind t (ofGroups groups t).index) :=
  rfl

end Graph
end DomainModel
