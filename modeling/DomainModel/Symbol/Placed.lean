import DomainModel.Symbol.Tree
/-!
# Placed — trees of symbols as a numbered list

Symbols are numbered in pre-order: a symbol comes right before the symbols inside it, and siblings follow each other.
Each symbol knows its parent and, if it contains symbols, its children by number.
-/
namespace DomainModel

/-- **A symbol in its place**, with the full name it declares. -/
structure Placed where
  symbol : Symbol Written
  declares : Option QualifiedName
deriving DecidableEq, Repr

namespace SymbolTree

mutual

def size : SymbolTree → Nat
  | ⟨_, _, _, _, inside⟩ => 1 + sizeAll inside

def sizeAll : List SymbolTree → Nat
  | [] => 0
  | t :: ts => t.size + sizeAll ts

end

/-- **The numbers of the roots** when the trees are placed one after the other from a number on. -/
def roots (start : Nat) : List SymbolTree → List SymbolId
  | [] => []
  | t :: ts => ⟨start⟩ :: roots (start + t.size) ts

/-- A content with its children, where it takes any. -/
def withChildren (content : Content Written) (ids : List SymbolId) : Content Written :=
  (content.assign? ids).getD content

mutual

/-- **The symbols of a tree under a parent**, numbered from a number on. -/
def place (parent : Option SymbolId) (start : Nat) : SymbolTree → List Placed
  | ⟨name, tags, content, declares, inside⟩ =>
    ⟨⟨name, parent, tags, withChildren content (roots (start + 1) inside)⟩, declares⟩ ::
      placeAll (some ⟨start⟩) (start + 1) inside

/-- The symbols of several trees, one tree after the other. -/
def placeAll (parent : Option SymbolId) (start : Nat) : List SymbolTree → List Placed
  | [] => []
  | t :: ts => t.place parent start ++ placeAll parent (start + t.size) ts

end

mutual

theorem length_place (parent : Option SymbolId) (start : Nat) : ∀ t : SymbolTree, (t.place parent start).length = t.size
  | ⟨_, _, _, _, inside⟩ => by
    rw [place, size, List.length_cons, length_placeAll, Nat.add_comm]

theorem length_placeAll (parent : Option SymbolId) (start : Nat) : ∀ ts : List SymbolTree,
    (placeAll parent start ts).length = sizeAll ts
  | [] => rfl
  | t :: ts => by
    rw [placeAll, sizeAll, List.length_append, length_place parent start t, length_placeAll parent _ ts]

end

end SymbolTree
end DomainModel
