/-!
# BuiltIn — the scalar types every model knows

Seventeen types, each named by a lowercase keyword.  `BuiltIn.all` lists them in the order in which a table is seeded,
the constructors in the order by which they are ranked.
-/
namespace DomainModel

/-- **A built-in type.** -/
inductive BuiltIn where
  | void | bool | byte | sbyte | char | decimal | double | float | short | int | long | ushort | uint | ulong | string
  | guid | dateTime
deriving DecidableEq, Repr

namespace BuiltIn

/-- The types by rank. -/
def ranked : List BuiltIn :=
  [void, bool, byte, sbyte, char, decimal, double, float, short, int, long, ushort, uint, ulong, string, guid, dateTime]

/-- The types in seeding order. -/
def all : List BuiltIn :=
  [void, bool, byte, char, decimal, double, float, short, int, long, uint, ulong, ushort, sbyte, string, guid, dateTime]

/-- The title, by which a stored built-in is named. -/
def title : BuiltIn → String
  | void => "Void"
  | bool => "Bool"
  | byte => "Byte"
  | sbyte => "SByte"
  | char => "Char"
  | decimal => "Decimal"
  | double => "Double"
  | float => "Float"
  | short => "Short"
  | int => "Int"
  | long => "Long"
  | ushort => "UShort"
  | uint => "UInt"
  | ulong => "ULong"
  | string => "String"
  | guid => "Guid"
  | dateTime => "DateTime"

/-- The keyword, by which a model names the type. -/
def keyword : BuiltIn → String
  | void => "void"
  | bool => "bool"
  | byte => "byte"
  | sbyte => "sbyte"
  | char => "char"
  | decimal => "decimal"
  | double => "double"
  | float => "float"
  | short => "short"
  | int => "int"
  | long => "long"
  | ushort => "ushort"
  | uint => "uint"
  | ulong => "ulong"
  | string => "string"
  | guid => "guid"
  | dateTime => "datetime"

/-- The type of a keyword; case counts. -/
def ofKeyword? (text : String) : Option BuiltIn := ranked.find? fun b => b.keyword == text

def ofTitle? (text : String) : Option BuiltIn := ranked.find? fun b => b.title == text

/-- The place by rank, from zero. -/
def rank (b : BuiltIn) : Nat := ranked.idxOf b

/-- The place in seeding order, from zero. -/
def tableIndex (b : BuiltIn) : Nat := all.idxOf b

instance : ToString BuiltIn := ⟨keyword⟩

theorem ofKeyword?_keyword (b : BuiltIn) : ofKeyword? b.keyword = some b := by cases b <;> rfl

/-- Only a keyword is read. -/
theorem keyword_of_ofKeyword? {text : String} {b : BuiltIn} (h : ofKeyword? text = some b) : b.keyword = text := by
  simpa using List.find?_some h

end BuiltIn
end DomainModel
