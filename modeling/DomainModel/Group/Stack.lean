import DomainModel.Group
/-!
# Stack — groups taken off a stack, round by round

A stack grows at its end.  In each round the last group is taken off and noted, and its children are put on in reverse, so
that the first of them is taken off next; the rounds end when nothing is left.
-/
namespace DomainModel

/-- **The rounds so far**: the groups noted, and those on the stack. -/
structure GroupStack where
  noted : List Group
  stack : List Group

namespace GroupStack

/-- **One round**: the groups noted in the end, or the stack for the next round. -/
def round (x : GroupStack) : List Group ⊕ GroupStack :=
  match x.stack.getLast? with
  | none => .inl x.noted
  | some g => .inr ⟨x.noted ++ [g], x.stack.dropLast ++ g.children.reverse⟩

/-- What is noted in the end, if the end comes within so many rounds. -/
def runWithin : Nat → GroupStack → Option (List Group)
  | 0, _ => none
  | rounds + 1, x =>
    match x.round with
    | .inl noted => some noted
    | .inr x => runWithin rounds x

/-- The groups still to be noted, in order. -/
def rest (x : GroupStack) : List Group := Group.preorderAll x.stack.reverse

end GroupStack
end DomainModel
