import DomainModel.Table
/-!
# Search — following bases from one to the next

A search along the bases of one kind for a name, and a search along bases for a single value.  They go from base to base
and note the names they have passed.  They end when they come to what they look for, when they come to a name a second
time, or when there is no further base that would do.
-/
namespace DomainModel

/-- **A search under way**: the names passed, and where it is. -/
structure BaseSearch where
  seen : List QualifiedName
  current : Declaration

namespace Table

/-- **One round of a search**: an answer, or the search goes on. -/
def searchRound (t : Table) (name : QualifiedName) (kind : DeclarationKind) (s : BaseSearch) : Bool ⊕ BaseSearch :=
  if s.current.fullName = name then .inl true
  else if s.current.fullName ∈ s.seen then .inl false
  else
    match t.baseOf s.current with
    | some (.declaration next) =>
      if next.kind = kind then .inr ⟨s.seen ++ [s.current.fullName], next⟩ else .inl false
    | _ => .inl false

/-- **The answer of a search**, if it comes within so many rounds. -/
def searchWithin (t : Table) (name : QualifiedName) (kind : DeclarationKind) : Nat → BaseSearch → Option Bool
  | 0, _ => none
  | rounds + 1, s =>
    match t.searchRound name kind s with
    | .inl answer => some answer
    | .inr s => t.searchWithin name kind rounds s

end Table

/-- **A search for a single value under way**: the names passed, and what it has come to. -/
structure SingleSearch where
  seen : List QualifiedName
  current : Meaning

namespace Table

/-- **One round of a search for a single value**: an answer, or the base of a value without properties. -/
def singleRound (t : Table) (s : SingleSearch) : Bool ⊕ SingleSearch :=
  match s.current with
  | .builtIn _ => .inl true
  | .external _ => .inl false
  | .declaration d =>
    match d.kind with
    | .externalEnum => .inl true
    | .value =>
      if d.hasProperties then .inl false
      else if d.fullName ∈ s.seen then .inl false
      else
        match t.baseOf d with
        | some base => .inr ⟨s.seen ++ [d.fullName], base⟩
        | none => .inl false
    | _ => .inl false

/-- The answer of a search for a single value, if it comes within so many rounds. -/
def singleWithin (t : Table) : Nat → SingleSearch → Option Bool
  | 0, _ => none
  | rounds + 1, s =>
    match t.singleRound s with
    | .inl answer => some answer
    | .inr s => t.singleWithin rounds s

end Table
end DomainModel
