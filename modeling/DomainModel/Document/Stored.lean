import DomainModel.BuiltIn
import DomainModel.Cardinality
import DomainModel.Document
import DomainModel.Name.Qualified
import DomainModel.Tag
/-!
# Stored — names, ranges and tags as documents

Names are checked when they are read.  The bounds of a range and the keys of a tag are taken as they stand.
-/
namespace DomainModel

namespace Identifier

def ofDocument? (d : Document) : Option Identifier := d.text?.bind fun s => (parse s).toOption

def toDocument (i : Identifier) : Document := .text i.text

end Identifier

namespace QualifiedName

def ofDocument? (d : Document) : Option QualifiedName := d.text?.bind fun s => (parse s).toOption

def toDocument (n : QualifiedName) : Document := .text n.text

end QualifiedName

namespace Cardinality

/-- An upper bound; none or null is an open end. -/
def maximumOf? : Option Document → Option (Option UInt32)
  | none | some .null => some none
  | some d => d.count?.map some

/-- **Read a range from its two bounds**, whatever they are. -/
def ofDocument? (d : Document) : Option Cardinality :=
  match d.record? ["minimum", "maximum"] with
  | some [some minimum, maximum] => do return ⟨← minimum.count?, ← maximumOf? maximum⟩
  | _ => none

def toDocument (c : Cardinality) : Document :=
  .object [("minimum", .integer c.minimum.toNat),
    ("maximum", match c.maximum with | none => .null | some max => .integer max.toNat)]

end Cardinality

namespace BuiltIn

/-- Read a built-in from its title, alone or as the one field of an object that holds nothing. -/
def ofDocument? : Document → Option BuiltIn
  | .text s => ofTitle? s
  | .object [(s, .null)] => ofTitle? s
  | _ => none

def toDocument (b : BuiltIn) : Document := .text b.title

end BuiltIn

namespace Pair

def ofDocument? (d : Document) : Option Pair :=
  match d.record? ["name", "value"] with
  | some [some name, some value] => do return ⟨← Identifier.ofDocument? name, ← value.text?⟩
  | _ => none

def toDocument (p : Pair) : Document := .object [("name", p.key.toDocument), ("value", .text p.value)]

end Pair

namespace Tag

/-- **Read a tag from its name and its pairs**, whatever their keys are. -/
def ofDocument? (d : Document) : Option Tag :=
  match d.record? ["name", "pairs"] with
  | some [some name, some pairs] => do
    return ⟨← Identifier.ofDocument? name, ← (← pairs.items?).mapM Pair.ofDocument?⟩
  | _ => none

def toDocument (t : Tag) : Document :=
  .object [("name", t.name.toDocument), ("pairs", .array (t.pairs.map Pair.toDocument))]

end Tag
end DomainModel
