import DomainModel.Lookup.Type
/-!
# Children — the members of a symbol, given once
-/
namespace DomainModel

/-- **The children of a symbol**, none until they are assigned. -/
inductive Children where
  | unassigned
  | assigned (ids : List SymbolId)
deriving DecidableEq, Repr

namespace Children

/-- What a second assignment is stopped with. -/
def refusal : String := "children were already assigned"

/-- Give the children; they cannot be given twice. -/
def assign? : Children → List SymbolId → Option Children
  | unassigned, ids => some (assigned ids)
  | assigned _, _ => none

def ids : Children → List SymbolId
  | unassigned => []
  | assigned ids => ids

def isAssigned : Children → Bool
  | unassigned => false
  | assigned _ => true

end Children
end DomainModel
