import DomainModel.BuiltIn
import DomainModel.Ordered
import DomainModel.Scope
import DomainModel.Source
import DomainModel.Universe
/-!
# Table — what full names mean

A table holds one declaration a full name, the first that was given.  A full name means a built-in type, a declaration
or a type outside the model, in this order; a reference means what the first of its candidates means.
-/
namespace DomainModel

/-- **A declared name**: its kind, its full name, what later questions need of it, and where it is written. -/
structure Declaration where
  kind : DeclarationKind
  fullName : QualifiedName
  isExternal : Bool
  base : Option QualifiedName
  hasProperties : Bool
  scope : Scope
deriving DecidableEq, Repr

namespace Declaration

def name (d : Declaration) : Identifier := d.fullName.last

def ownScope (d : Declaration) : Scope := .declaration d.scope d.name

end Declaration

/-- **What a name means.** -/
inductive Meaning where
  | builtIn (b : BuiltIn)
  | declaration (d : Declaration)
  | external (t : ExternalType)
deriving DecidableEq, Repr

namespace Meaning

def name : Meaning → String
  | builtIn b => b.keyword
  | declaration d => d.name.text
  | external t => t.fullName.last.text

/-- The full name of what is meant; that of a built-in is its keyword. -/
def fullName : Meaning → String
  | builtIn b => b.keyword
  | declaration d => d.fullName.text
  | external t => t.fullName.text

/-- The declaration, if one is meant. -/
def declaration? : Meaning → Option Declaration
  | declaration d => some d
  | _ => none

/-- The kind of declaration, if one is meant. -/
def kind? (m : Meaning) : Option DeclarationKind := m.declaration?.map (·.kind)

def isVoid : Meaning → Bool
  | builtIn .void => true
  | _ => false

end Meaning

/-- **A name declared twice**: what it was first, and what it is declared to be as well. -/
structure Conflict where
  name : Identifier
  first : DeclarationKind
  second : DeclarationKind
deriving DecidableEq, Repr

namespace Conflict

def message (c : Conflict) : String :=
  if c.first = c.second then "Duplicate definition of '" ++ c.name.text ++ "'."
  else "'" ++ c.name.text ++ "' is defined as both a " ++ c.first.name ++ " and a " ++ c.second.name ++ "."

end Conflict

/-- **The declarations of a model**, in the order in which they were defined, and the types outside it. -/
structure Table where
  declarations : List Declaration
  outside : Universe

namespace Table

def empty (outside : Universe) : Table := ⟨[], outside⟩

def find? (t : Table) (name : QualifiedName) : Option Declaration :=
  t.declarations.find? fun d => d.fullName = name

/-- **Define a name**; one that is taken keeps its declaration, and the conflict is told. -/
def define (t : Table) (d : Declaration) : Table × Option Conflict :=
  match t.find? d.fullName with
  | none => ({ t with declarations := t.declarations ++ [d] }, none)
  | some taken => (t, some ⟨d.name, taken.kind, d.kind⟩)

/-- Define names in order, telling the conflicts in order. -/
def defineAll (t : Table) : List Declaration → Table × List Conflict
  | [] => (t, [])
  | d :: ds =>
    let (t, conflict) := t.define d
    let (t, conflicts) := t.defineAll ds
    (t, conflict.toList ++ conflicts)

def size (t : Table) : Nat := t.declarations.length

def isEmpty (t : Table) : Bool := t.declarations.isEmpty

def listed (t : Table) : List Declaration := orderedBy (·.fullName) t.declarations

/-- The form for logs, the types outside being described by a word. -/
def inspect (t : Table) (outside : String) : String :=
  "SymbolTable \x7b declarations: " ++ toString t.size ++ ", universe: " ++ outside ++ " \x7d"

/-- **What a full name means**: a keyword its built-in type, else its declaration, else a type outside, which may stand
for a built-in one. -/
def resolve (t : Table) (name : QualifiedName) : Option Meaning :=
  match if name.rest.isEmpty then BuiltIn.ofKeyword? name.first.text else none with
  | some b => some (.builtIn b)
  | none =>
    match t.find? name with
    | some d => some (.declaration d)
    | none =>
      (t.outside.lookup name).map fun e =>
        match e.standsFor with
        | some b => .builtIn b
        | none => .external e

/-- **What a reference means at a place.** -/
def resolveIn (t : Table) (s : Scope) (reference : QualifiedName) : Option Meaning := s.resolve t.resolve reference

/-- What the base of a declaration means; a base is written outside the declaration. -/
def baseOf (t : Table) (d : Declaration) : Option Meaning := d.base.bind fun base => t.resolveIn d.scope base

/-- **What may be the type of a property**: a built-in, an enumeration, a value, or a value type from outside. -/
def isValue (t : Table) : Meaning → Bool
  | .builtIn _ => true
  | .declaration d => d.kind == .externalEnum || d.kind == .value
  | .external e => t.outside.isValueType e

/-- A built-in or an enumeration, or a value without properties that leads to one in at most so many bases. -/
def isScalarWithin (t : Table) : Nat → Meaning → Bool
  | _, .builtIn _ => true
  | _, .external _ => false
  | fuel, .declaration d =>
    match d.kind with
    | .externalEnum => true
    | .value =>
      if d.hasProperties then false
      else
        match fuel, t.baseOf d with
        | 0, _ => false
        | _, none => false
        | fuel + 1, some base => t.isScalarWithin fuel base
    | _ => false

/-- **A single value**: a built-in or an enumeration, or a value without properties whose base is one.  A chain of bases
that ends passes each declaration at most once. -/
def isScalar (t : Table) (m : Meaning) : Bool := t.isScalarWithin (t.size + 1) m

/-- The chain of bases of one kind from a declaration on comes to the name, within so many steps. -/
def reachesWithin (t : Table) (name : QualifiedName) (kind : DeclarationKind) : Nat → Declaration → Bool
  | 0, _ => false
  | fuel + 1, d =>
    d.fullName == name ||
      match t.baseOf d with
      | some (.declaration base) => base.kind == kind && t.reachesWithin name kind fuel base
      | _ => false

/-- **The chain of bases of one kind from a declaration on comes to the name.**  A chain that comes to it passes each
declaration at most once before. -/
def reaches (t : Table) (name : QualifiedName) (kind : DeclarationKind) (d : Declaration) : Bool :=
  t.reachesWithin name kind (t.size + 1) d

@[simp] theorem outside_define (t : Table) (d : Declaration) : (t.define d).1.outside = t.outside := by
  unfold define; split <;> rfl

theorem fullName_of_find? {t : Table} {name : QualifiedName} {d : Declaration} (h : t.find? name = some d) :
    d.fullName = name := by simpa using List.find?_some h

/-- **A definition gives a meaning to its name alone**, and only if the name had none. -/
theorem find?_define (t : Table) (d : Declaration) (name : QualifiedName) :
    (t.define d).1.find? name = (t.find? name <|> if d.fullName = name then some d else none) := by
  unfold define
  split
  · rename_i h
    unfold find?
    rw [List.find?_append]
    by_cases hn : d.fullName = name <;> simp [hn]
  · rename_i taken h
    by_cases hn : d.fullName = name
    · subst hn; simp [h]
    · simp only [if_neg hn]; cases t.find? name <;> rfl

end Table
end DomainModel
