import DomainModel.Scope
/-!
# Search — going outward from a place

Two loops go from a place to the places around it.  One gathers the candidates of all of them in a list.  The other puts
the candidates of one place into a list that it empties for each, asks for them, and goes on outward only where none of
them is known.
-/
namespace DomainModel

/-- **On the way outward**: the names listed, and the place that comes next. -/
structure ScopeSearch where
  names : List QualifiedName
  current : Option Scope

namespace Scope

/-- One round of gathering: the candidates of a further place, or all of them. -/
def gatherRound (r : QualifiedName) (w : ScopeSearch) : List QualifiedName ⊕ ScopeSearch :=
  match w.current with
  | none => .inl w.names
  | some s => .inr ⟨w.names ++ s.frameCandidates r, s.parent?⟩

/-- The candidates gathered, if there are no further places within so many rounds. -/
def gatherWithin (r : QualifiedName) : Nat → ScopeSearch → Option (List QualifiedName)
  | 0, _ => none
  | rounds + 1, w =>
    match gatherRound r w with
    | .inl names => some names
    | .inr w => gatherWithin r rounds w

variable {m : Type → Type} [Monad m] {α : Type}

/-- **One round of asking**: an answer, or none of the candidates of the place is known. -/
def askRound (lookup : QualifiedName → m (Option α)) (r : QualifiedName) (w : ScopeSearch) :
    m (Option α ⊕ ScopeSearch) :=
  match w.current with
  | none => return .inl none
  | some s => do
    let emptied : ScopeSearch := { w with names := [] }
    let filled : ScopeSearch := { emptied with names := emptied.names ++ s.frameCandidates r }
    match ← filled.names.findSomeM? lookup with
    | some found => return .inl (some found)
    | none => return .inr { filled with current := s.parent? }

/-- **The answer of a search outward**, if it comes within so many rounds. -/
def askWithin (lookup : QualifiedName → m (Option α)) (r : QualifiedName) : Nat → ScopeSearch → m (Option (Option α))
  | 0, _ => return none
  | rounds + 1, w => do
    match ← askRound lookup r w with
    | .inl answer => return some answer
    | .inr w => askWithin lookup r rounds w

end Scope
end DomainModel
