import DomainModel.Scope
import DomainModel.Source
/-!
# Group — namespaces brought together

The blocks of one full name, wherever they are written, form a group.  Groups nest by segments, and a beginning of a
block's name is a group even where no block declares it.  Groups and the blocks in them keep source order: a unit after
the units before it, a block before those inside it.
-/
namespace DomainModel

open Source (Block Member Tree)

/-- **A block at its place.** -/
structure Fragment where
  outer : Scope
  block : Block

namespace Fragment

def scope (f : Fragment) : Scope := .block f.outer f.block.name f.block.imports

def fullName (f : Fragment) : QualifiedName := f.block.name.under f.outer.fullName

/-- The members that are no blocks, each with its scope. -/
def members (f : Fragment) : List (Member × Scope) :=
  (f.block.members.filter fun m => !m.isBlock).map fun m => (m, f.scope)

theorem fullName_scope (f : Fragment) : f.scope.fullName = some f.fullName := rfl

end Fragment

mutual

/-- A block and the blocks inside it, each before those inside. -/
def Source.Block.fragments (outer : Scope) : Block → List Fragment
  | ⟨name, imports, members⟩ =>
    ⟨outer, ⟨name, imports, members⟩⟩ :: Source.Member.fragmentsAll (.block outer name imports) members

def Source.Member.fragments (outer : Scope) : Member → List Fragment
  | .block b => b.fragments outer
  | .entity _ | .value _ | .externalEnum _ | .webApi _ => []

def Source.Member.fragmentsAll (outer : Scope) : List Member → List Fragment
  | [] => []
  | m :: ms => m.fragments outer ++ Source.Member.fragmentsAll outer ms

end

/-- **All the blocks of a forest**, in source order. -/
def fragmentsOf (forest : List Tree) : List Fragment :=
  forest.flatMap fun t => t.blocks.flatMap (·.fragments (.top t.imports))

/-- **A namespace**: its full name, its blocks and the namespaces directly inside. -/
structure Group where
  fullName : QualifiedName
  fragments : List Fragment
  children : List Group

namespace Group

def name (g : Group) : Identifier := g.fullName.last

/-- The members of the blocks that are no blocks themselves, each with its scope. -/
def members (g : Group) : List (Member × Scope) := g.fragments.flatMap (·.members)

mutual

/-- A group and the groups inside it, each before those inside. -/
def preorder : Group → List Group
  | ⟨fullName, fragments, children⟩ => ⟨fullName, fragments, children⟩ :: preorderAll children

def preorderAll : List Group → List Group
  | [] => []
  | g :: gs => g.preorder ++ preorderAll gs

end

mutual

def count : Group → Nat
  | ⟨_, _, children⟩ => 1 + countAll children

def countAll : List Group → Nat
  | [] => 0
  | g :: gs => g.count + countAll gs

end

/-- The groups on a stack and inside them, the top first: each is taken off and its children are put in its place.
There are `fuel` steps. -/
def drain : Nat → List Group → List Group
  | 0, _ => []
  | _ + 1, [] => []
  | fuel + 1, g :: stack => g :: drain fuel (g.children ++ stack)

/-- **A group and the groups inside it**, by a stack: a step for each group is enough. -/
def descendants (g : Group) : List Group := drain g.count [g]

theorem countAll_append : ∀ gs hs : List Group, countAll (gs ++ hs) = countAll gs + countAll hs
  | [], hs => by simp [countAll]
  | g :: gs, hs => by simp [countAll, countAll_append gs hs, Nat.add_assoc]

theorem preorderAll_append : ∀ gs hs : List Group, preorderAll (gs ++ hs) = preorderAll gs ++ preorderAll hs
  | [], _ => rfl
  | g :: gs, hs => by simp [preorderAll, preorderAll_append gs hs]

theorem preorder_eq (g : Group) : g.preorder = g :: preorderAll g.children := by cases g; rfl

theorem count_eq (g : Group) : g.count = 1 + countAll g.children := by cases g; rfl

/-- **The stack gives the pre-order**, once there are steps enough. -/
theorem drain_eq : ∀ (fuel : Nat) (stack : List Group), countAll stack ≤ fuel → drain fuel stack = preorderAll stack
  | 0, [], _ => rfl
  | 0, g :: stack, h => by simp only [countAll, count_eq] at h; omega
  | _ + 1, [], _ => rfl
  | fuel + 1, g :: stack, h => by
    simp only [countAll, count_eq] at h
    rw [drain, drain_eq fuel (g.children ++ stack) (by rw [countAll_append]; omega), preorderAll_append, preorderAll,
      preorder_eq, List.cons_append]

theorem descendants_eq (g : Group) : g.descendants = g.preorder := by
  rw [descendants, drain_eq _ _ (by simp [countAll])]
  simp [preorderAll]

/-- All groups of a list and inside, in order. -/
def all (gs : List Group) : List Group := gs.flatMap descendants

theorem all_eq : ∀ gs : List Group, all gs = preorderAll gs
  | [] => rfl
  | g :: gs => by
    have ih := all_eq gs
    unfold all at ih ⊢
    rw [List.flatMap_cons, ih, descendants_eq, preorderAll]

/-- **The segments that follow a beginning** among names, the first to appear first. -/
def nextSegments (names : List QualifiedName) (start : Option QualifiedName) : List Identifier :=
  (names.filterMap fun n =>
    match start with
    | none => some n.first
    | some s => if n.startsWith s then n.segments[s.size]? else none).eraseDups

/-- The groups directly under a beginning, `depth` levels of them. -/
def under (fragments : List Fragment) : Nat → Option QualifiedName → List Group
  | 0, _ => []
  | depth + 1, start =>
    (nextSegments (fragments.map (·.fullName)) start).map fun segment =>
      let fullName := (QualifiedName.single segment).under start
      { fullName
        fragments := fragments.filter fun f => f.fullName = fullName
        children := under fragments depth (some fullName) }

/-- The length of the longest name of a block. -/
def depthOf (fragments : List Fragment) : Nat := (fragments.map (·.fullName.size)).foldr max 0

/-- **The namespaces of a forest**, as deep as the longest name. -/
def merge (forest : List Tree) : List Group :=
  let fragments := fragmentsOf forest
  under fragments (depthOf fragments) none

end Group
end DomainModel
