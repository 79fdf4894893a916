import DomainModel.Name.Segments
import DomainModel.Tag.Grouped
/-!
# Run — a set of tags under operations

A set of tags is made anew from a list, or it is given one tag more or several.  A group is searched for by a raw text:
the names are passed one after another, up to the first that does not come before the text.
-/
namespace DomainModel
namespace TagSet

/-- **What may be done to a set of tags.** -/
inductive Operation
  | renew (ts : List Tag)
  | push (t : Tag)
  | extend (ts : List Tag)
deriving DecidableEq, Repr

def apply (s : TagSet) : Operation → TagSet
  | .renew ts => ofList ts
  | .push t => s.push t
  | .extend ts => s.extend ts

def run (s : TagSet) (ops : List Operation) : TagSet := ops.foldl apply s

/-- The tags put in so far, and what an operation puts in behind them. -/
def addedBy (ts : List Tag) : Operation → List Tag
  | .renew us => us
  | .push t => ts ++ [t]
  | .extend us => ts ++ us

/-- **All tags that operations put into a set**, in order. -/
def added (ops : List Operation) : List Tag := ops.foldl addedBy []

/-- The tags of a name, the name given as a raw text. -/
def named (name : String) (ts : List Tag) : List Tag := ts.filter (·.name.text == name)

def searchIn (name : String) : List (Identifier × List Tag) → List Tag
  | [] => []
  | (first, group) :: rest =>
    match compare (Text.bytes name) (Text.bytes first.text) with
    | .lt => []
    | .eq => group
    | .gt => searchIn name rest

/-- **A group by a raw text**, the names standing in order. -/
def search (s : TagSet) (name : String) : List Tag := searchIn name s.groups

end TagSet
end DomainModel
