import DomainModel.Universe
/-!
# Type — what a reference of the graph names

A built-in type, a type outside the model, or a symbol of the graph by its number.
-/
namespace DomainModel

/-- **The number of a symbol** in the arena of a graph. -/
structure SymbolId where
  index : Nat
deriving DecidableEq, Repr

namespace SymbolId

def inspect (id : SymbolId) : String := "SymbolId(" ++ toString id.index ++ ")"

end SymbolId

/-- **The type a reference names.** -/
inductive TypeRef where
  | builtIn (b : BuiltIn)
  | external (t : ExternalType)
  | symbol (id : SymbolId)
deriving DecidableEq, Repr

namespace TypeRef

/-- The symbol, if the type is one. -/
def symbol? : TypeRef → Option SymbolId
  | symbol id => some id
  | _ => none

def isVoid : TypeRef → Bool
  | builtIn .void => true
  | _ => false

def inspectStandsFor : Option BuiltIn → String
  | none => "None"
  | some b => "Some(" ++ b.title ++ ")"

def inspect : TypeRef → String
  | builtIn b => "BuiltIn(" ++ b.title ++ ")"
  | external t =>
    "External(ExternalType \x7b full_name: " ++ t.fullName.inspect ++ ", builtin: " ++ inspectStandsFor t.standsFor ++ " \x7d)"
  | symbol id => "Symbol(" ++ id.inspect ++ ")"

end TypeRef
end DomainModel
