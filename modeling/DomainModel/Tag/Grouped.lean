import DomainModel.Tag
/-!
# Grouped — the tags of a declaration by name

Groups of tags of one name, the groups in the order of their names and each group in source order.
-/
namespace DomainModel

/-- **Tags by name**: each group with its name. -/
structure TagSet where
  groups : List (Identifier × List Tag)
deriving DecidableEq, Repr

namespace TagSet

def empty : TagSet := ⟨[]⟩

instance : Inhabited TagSet := ⟨empty⟩

/-- Put a tag at the end of its group; a new group comes where its name belongs. -/
def pushInto (t : Tag) : List (Identifier × List Tag) → List (Identifier × List Tag)
  | [] => [(t.name, [t])]
  | (name, group) :: rest =>
    match compare t.name name with
    | .lt => (t.name, [t]) :: (name, group) :: rest
    | .eq => (name, group ++ [t]) :: rest
    | .gt => (name, group) :: pushInto t rest

def push (s : TagSet) (t : Tag) : TagSet := ⟨pushInto t s.groups⟩

/-- Several tags more, in order. -/
def extend (s : TagSet) (ts : List Tag) : TagSet := ts.foldl push s

def ofList (ts : List Tag) : TagSet := empty.extend ts

def get (s : TagSet) (name : String) : List Tag :=
  ((s.groups.find? fun g => g.1.text == name).map (·.2)).getD []

def first? (s : TagSet) (name : String) : Option Tag := (s.get name).head?

/-- The tag of a name that occurs once. -/
def single? (s : TagSet) (name : String) : Option Tag :=
  match s.get name with
  | [t] => some t
  | _ => none

def contains (s : TagSet) (name : String) : Bool := !(s.get name).isEmpty

def isEmpty (s : TagSet) : Bool := s.groups.isEmpty

def size (s : TagSet) : Nat := (s.groups.map (·.2.length)).foldr (· + ·) 0

@[simp] theorem extend_nil (s : TagSet) : s.extend [] = s := rfl

@[simp] theorem extend_cons (s : TagSet) (t : Tag) (ts : List Tag) : s.extend (t :: ts) = (s.push t).extend ts := rfl

end TagSet
end DomainModel
