/-!
# Address — where an entry of a forest stands

A forest is given by its roots and by the children of each entry.  An address is the number of a root and then, level by
level, the number of a child.  Addresses are compared number by number, so that an entry comes before all that is below
it, and what is below an entry comes before the next entry of the same level.
-/
namespace DomainModel

/-- **A place in a forest**: the number of a root, then of a child, and so on. -/
abbrev Address := List Nat

namespace Address

variable {α : Type} (children : α → List α)

def from? (x : α) : Address → Option α
  | [] => some x
  | k :: a => (children x)[k]?.bind fun c => from? c a

/-- **What stands at an address**; the empty address is no place. -/
def at? (roots : List α) : Address → Option α
  | [] => none
  | k :: a => roots[k]?.bind fun x => from? children x a

/-- **Something stands at the address**, and nowhere above it stands a stop. -/
def Reached (stops : α → Bool) (roots : List α) (a : Address) : Prop :=
  (at? children roots a).isSome ∧ ∀ b, b <+: a → b ≠ a → ∀ x, at? children roots b = some x → stops x = false

/-- **A list is the pre-order of a forest** cut below the stops: it has what stands at the reached addresses, once each and
in the order of the addresses. -/
structure IsPreorder (stops : α → Bool) (roots : List α) (addresses : List Address) (xs : List α) : Prop where
  entries : addresses.map (at? children roots) = xs.map some
  ordered : addresses.Pairwise (· < ·)
  mem_iff : ∀ a, a ∈ addresses ↔ Reached children stops roots a

end Address
end DomainModel
