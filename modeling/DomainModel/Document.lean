/-!
# Document — data as it is stored

The values of the usual interchange format: objects are lists of named fields.
-/
namespace DomainModel

/-- **A stored value.** -/
inductive Document where
  | null
  | bool (b : Bool)
  | integer (n : Int)
  /-- A number written with a fraction: `mantissa` over ten to the power `places`. -/
  | decimal (mantissa : Int) (places : Nat)
  | text (s : String)
  | array (items : List Document)
  | object (fields : List (String × Document))

namespace Document

instance : Inhabited Document := ⟨null⟩

def text? : Document → Option String
  | text s => some s
  | _ => none

/-- The number of a whole number that fits 32 bits without sign. -/
def count? : Document → Option UInt32
  | integer n => if 0 ≤ n ∧ n < 4294967296 then some (UInt32.ofNat n.toNat) else none
  | _ => none

def items? : Document → Option (List Document)
  | array items => some items
  | _ => none

def field? (name : String) (fields : List (String × Document)) : Option Document :=
  (fields.find? fun f => f.1 == name).map (·.2)

/-- **The values of a record's fields**: those of an object by name, a missing one being none and any other field being
left aside, or the items of an array of exactly as many.  An object that gives a field of the record twice is refused. -/
def record? (names : List String) : Document → Option (List (Option Document))
  | object fields =>
    if names.all fun name => decide (fields.countP (·.1 == name) ≤ 1) then
      some (names.map fun name => field? name fields)
    else none
  | array items => if items.length = names.length then some (items.map some) else none
  | _ => none

end Document
end DomainModel
