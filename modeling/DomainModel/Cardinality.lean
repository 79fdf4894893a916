/-!
# Cardinality — how often a value may occur

A lower and an upper bound, the upper one possibly open.  `Cardinality.of` builds a range that `IsValid`; the record
itself holds any two bounds, since a stored one is taken as it stands.
-/
namespace DomainModel

/-- **A range of occurrences**; no maximum means without an upper bound. -/
structure Cardinality where
  minimum : UInt32
  maximum : Option UInt32
deriving DecidableEq, Repr

/-- **A range that no cardinality may have**, with its bounds. -/
structure CardinalityError where
  minimum : UInt32
  maximum : Option UInt32
deriving DecidableEq, Repr

namespace CardinalityError

def message (e : CardinalityError) : String :=
  "invalid cardinality " ++ toString e.minimum ++ ".." ++ (e.maximum.map toString).getD "*" ++
    ": maximum must be non-zero and not below the minimum"

end CardinalityError

namespace Cardinality

/-- **A range makes sense** when its maximum, if it has one, is neither zero nor below the minimum. -/
def IsValid (c : Cardinality) : Prop := ∀ max, c.maximum = some max → max ≠ 0 ∧ c.minimum ≤ max

instance (c : Cardinality) : Decidable c.IsValid :=
  match h : c.maximum with
  | none => .isTrue (by simp [IsValid, h])
  | some max => decidable_of_iff (max ≠ 0 ∧ c.minimum ≤ max) (by simp [IsValid, h])

/-- The range of two bounds, if it is valid. -/
def of (minimum : UInt32) (maximum : Option UInt32) : Except CardinalityError Cardinality :=
  if IsValid ⟨minimum, maximum⟩ then .ok ⟨minimum, maximum⟩ else .error ⟨minimum, maximum⟩

/-- What a literal range that is not valid is stopped with. -/
def literalRefused : String := "invalid cardinality range"

/-- Exactly once, the range of a reference that names none. -/
def one : Cardinality := ⟨1, some 1⟩

def zeroOrOne : Cardinality := ⟨0, some 1⟩

def zeroOrMore : Cardinality := ⟨0, none⟩

def oneOrMore : Cardinality := ⟨1, none⟩

instance : Inhabited Cardinality := ⟨one⟩

def isAtLeastOne (c : Cardinality) : Bool := decide (0 < c.minimum)

def canBeMany (c : Cardinality) : Bool :=
  match c.maximum with
  | none => true
  | some max => decide (1 < max)

def isOne (c : Cardinality) : Bool := c.isAtLeastOne && !c.canBeMany

def isZeroOrOne (c : Cardinality) : Bool := !c.isAtLeastOne && !c.canBeMany

/-- It need not occur, however often it may. -/
def isZeroOrMore (c : Cardinality) : Bool := !c.isAtLeastOne

def isOneOrMore (c : Cardinality) : Bool := c.isAtLeastOne && c.canBeMany

def isExactlyOne (c : Cardinality) : Bool := c.minimum == 1 && c.maximum == some 1

def isExactlyZeroOrOne (c : Cardinality) : Bool := c.minimum == 0 && c.maximum == some 1

/-- The written range: one number when the bounds agree, else `minimum..maximum`, an open end being `*`. -/
def text (c : Cardinality) : String :=
  match c.maximum with
  | none => toString c.minimum ++ "..*"
  | some max => if max = c.minimum then toString max else toString c.minimum ++ ".." ++ toString max

instance : ToString Cardinality := ⟨text⟩

/-- What a type carries behind it: nothing for exactly one, `?`, `*` or `+` for the usual ranges, else the range. -/
def suffix (c : Cardinality) : String :=
  if c = one then "" else if c = zeroOrOne then "?" else if c = zeroOrMore then "*" else if c = oneOrMore then "+"
  else "[" ++ c.text ++ "]"

/-- **The builder gives every valid range and no other.** -/
theorem of_eq_ok_iff {minimum : UInt32} {maximum : Option UInt32} {c : Cardinality} :
    of minimum maximum = .ok c ↔ c = ⟨minimum, maximum⟩ ∧ c.IsValid := by
  unfold of
  split
  · rename_i h
    constructor
    · intro h'; cases h'; exact ⟨rfl, h⟩
    · rintro ⟨rfl, -⟩; rfl
  · rename_i h
    constructor
    · intro h'; cases h'
    · rintro ⟨rfl, h'⟩; exact absurd h' h

theorem isExactlyOne_iff {c : Cardinality} : c.isExactlyOne = true ↔ c = one := by
  cases c; simp [isExactlyOne, one]

theorem isExactlyZeroOrOne_iff {c : Cardinality} : c.isExactlyZeroOrOne = true ↔ c = zeroOrOne := by
  cases c; simp [isExactlyZeroOrOne, zeroOrOne]

end Cardinality
end DomainModel
