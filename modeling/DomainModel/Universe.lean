import DomainModel.BuiltIn
import DomainModel.Name.Qualified
/-!
# Universe — the types outside the model

A universe says which full names denote types outside the model and which of those types are values.  A listed
universe is a table of entries, the latest entry of a name counting.
-/
namespace DomainModel

/-- **A type outside the model**; one may stand for a built-in type. -/
structure ExternalType where
  fullName : QualifiedName
  standsFor : Option BuiltIn
deriving DecidableEq, Repr

namespace ExternalType

/-- A type that stands for nothing else. -/
def ofName (fullName : QualifiedName) : ExternalType := ⟨fullName, none⟩

def text (t : ExternalType) : String := t.fullName.text

end ExternalType

/-- **What a model may ask about the outside.** -/
structure Universe where
  lookup : QualifiedName → Option ExternalType
  isValueType : ExternalType → Bool

namespace Universe

def empty : Universe := ⟨fun _ => none, fun _ => false⟩

instance : Inhabited Universe := ⟨empty⟩

end Universe

/-- An entry of a listed universe. -/
inductive UniverseEntry where
  /-- A type whose values are values. -/
  | value
  /-- A type that is no value type. -/
  | reference
  /-- Another name of a built-in type. -/
  | builtIn (b : BuiltIn)
deriving DecidableEq, Repr

namespace UniverseEntry

/-- The built-in type an entry stands for. -/
def builtIn? : UniverseEntry → Option BuiltIn
  | builtIn b => some b
  | _ => none

/-- Only a reference entry is no value type. -/
def isValueType : UniverseEntry → Bool
  | reference => false
  | _ => true

end UniverseEntry

/-- **A universe given by a list of entries**, one a name. -/
structure ListedUniverse where
  entries : List (QualifiedName × UniverseEntry)
deriving DecidableEq, Repr

namespace ListedUniverse

def empty : ListedUniverse := ⟨[]⟩

/-- An entry in place of any earlier one of the name. -/
def insert (u : ListedUniverse) (name : QualifiedName) (entry : UniverseEntry) : ListedUniverse :=
  ⟨(name, entry) :: u.entries.filter fun e => e.1 ≠ name⟩

def get? (u : ListedUniverse) (name : QualifiedName) : Option UniverseEntry :=
  (u.entries.find? fun e => e.1 = name).map (·.2)

def size (u : ListedUniverse) : Nat := u.entries.length

def isEmpty (u : ListedUniverse) : Bool := u.entries.isEmpty

def toUniverse (u : ListedUniverse) : Universe where
  lookup name := (u.get? name).map fun e => ⟨name, e.builtIn?⟩
  isValueType type := (u.get? type.fullName).any (·.isValueType)

/-- The last entry of a name counts. -/
theorem get?_insert (u : ListedUniverse) (name other : QualifiedName) (entry : UniverseEntry) :
    (u.insert name entry).get? other = if other = name then some entry else u.get? other := by
  unfold insert get?
  rw [List.find?_cons]
  by_cases h : other = name
  · subst h; simp
  · have h' : decide (name = other) = false := by simpa using Ne.symm h
    simp only [h', if_neg h, List.find?_filter]
    congr 1
    refine congrArg (fun p => List.find? p u.entries) (funext fun e => ?_)
    by_cases he : e.1 = other
    · simp [he, h]
    · simp [he]

end ListedUniverse
end DomainModel
