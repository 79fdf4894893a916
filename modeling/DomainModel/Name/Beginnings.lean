import DomainModel.Name.Qualified
/-!
# Beginnings — a chain as one list of segments

These go by the list of segments alone: a beginning is compared place by place and must not be the longer one, the
beginnings of a chain are slices of its list, and a chain is extended by putting segments behind the last, one at a time.
The parents of a chain come one after another, until a chain has none.
-/
namespace DomainModel
namespace QualifiedName

/-- **A beginning, place by place.**  Where one list ends the places end, so the lengths are compared first. -/
def beginsWith (a b : QualifiedName) : Bool :=
  decide (b.size ≤ a.size) && (b.segments.zip a.segments).all fun p => p.1 == p.2

def parentSlice (n : QualifiedName) : Option (List Identifier) :=
  if n.size < 2 then none else some (n.segments.take (n.size - 1))

/-- The slices from the start that are neither empty nor the whole list, the longest first. -/
def slices (n : QualifiedName) : List (List Identifier) :=
  (List.range' 1 (n.size - 1)).reverse.map n.segments.take

theorem size_of_parent {n p : QualifiedName} (h : n.parent = some p) : p.size < n.size := by
  obtain ⟨first, rest⟩ := n
  cases rest with
  | nil => cases h
  | cons i is =>
    simp only [parent, List.isEmpty_cons, Bool.false_eq_true, if_false, Option.some.injEq] at h
    subst h
    simp [size, segments]

/-- **The parent, its parent and so on**, until there is none. -/
def parents (n : QualifiedName) : List QualifiedName :=
  match _h : n.parent with
  | none => []
  | some p => p :: p.parents
termination_by n.size
decreasing_by exact size_of_parent _h

def push (n : QualifiedName) (i : Identifier) : QualifiedName := { n with rest := n.rest ++ [i] }

/-- The segments of another chain, put behind the last one at a time. -/
def extend (a b : QualifiedName) : QualifiedName := b.segments.foldl push a

end QualifiedName
end DomainModel
