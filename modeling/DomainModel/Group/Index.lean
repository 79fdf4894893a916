import DomainModel.Group
/-!
# Index — blocks by full name

The blocks of a forest are put into an index one after the other, a block before those inside it.  The index holds the
blocks of each full name and the names in the order in which they first appeared.  Groups are read off it from the top
down: the segments that follow a beginning among the names give the groups under it, until no name is long enough.
-/
namespace DomainModel

open Source (Block Member Tree)

/-- **Blocks by full name**, with the names in the order of their first blocks. -/
structure FragmentIndex where
  order : List QualifiedName
  entries : List (QualifiedName × List Fragment)

namespace FragmentIndex

def empty : FragmentIndex := ⟨[], []⟩

def get? (x : FragmentIndex) (name : QualifiedName) : Option (List Fragment) :=
  (x.entries.find? fun e => e.1 = name).map (·.2)

/-- One block more, behind those of its full name; a name that is new comes last. -/
def insert (x : FragmentIndex) (f : Fragment) : FragmentIndex :=
  match f.scope.fullName with
  | none => x
  | some name =>
    match x.get? name with
    | none => ⟨x.order ++ [name], x.entries ++ [(name, [f])]⟩
    | some _ => ⟨x.order, x.entries.map fun e => if e.1 = name then (e.1, e.2 ++ [f]) else e⟩

mutual

/-- Put a block into the index, then the blocks inside it. -/
def collect (outer : Scope) : Block → FragmentIndex → FragmentIndex
  | ⟨name, imports, members⟩, x =>
    collectAll (.block outer name imports) members (x.insert ⟨outer, ⟨name, imports, members⟩⟩)

def collectMember (outer : Scope) : Member → FragmentIndex → FragmentIndex
  | .block b, x => collect outer b x
  | .entity _, x | .value _, x | .externalEnum _, x | .webApi _, x => x

def collectAll (outer : Scope) : List Member → FragmentIndex → FragmentIndex
  | [], x => x
  | m :: ms, x => collectAll outer ms (collectMember outer m x)

end

/-- **The index of a forest**, unit by unit. -/
def ofForest (forest : List Tree) : FragmentIndex :=
  forest.foldl (fun x t => t.blocks.foldl (fun x b => collect (.top t.imports) b x) x) empty

/-- The segments at a depth of the names that start as said, the first to appear first. -/
def segmentsAt (x : FragmentIndex) (start : Option QualifiedName) (depth : Nat) : List Identifier :=
  (x.order.filterMap fun name => if start.all (name.startsWith ·) then name.segments[depth]? else none).eraseDups

/-- **No name has a segment beyond the longest name.** -/
theorem lt_longest {x : FragmentIndex} {start : Option QualifiedName} {depth : Nat} {segment : Identifier}
    (h : segment ∈ x.segmentsAt start depth) : depth < QualifiedName.longest x.order := by
  rw [segmentsAt, List.mem_eraseDups, List.mem_filterMap] at h
  obtain ⟨name, hname, h⟩ := h
  split at h
  · obtain ⟨hlt, -⟩ := List.getElem?_eq_some_iff.1 h
    exact Nat.lt_of_lt_of_le hlt (QualifiedName.size_le_longest hname)
  · cases h

/-- **The groups directly under a beginning** that is so many segments long. -/
def groups (x : FragmentIndex) (start : Option QualifiedName) (depth : Nat) : List Group :=
  (x.segmentsAt start depth).attach.map fun segment =>
    let fullName := (QualifiedName.single segment.1).under start
    { fullName, fragments := (x.get? fullName).getD [], children := x.groups (some fullName) (depth + 1) }
termination_by QualifiedName.longest x.order - depth
decreasing_by
  have := lt_longest segment.2
  omega

/-- **The groups of a forest**, read off its index. -/
def merge (forest : List Tree) : List Group := (ofForest forest).groups none 0

theorem groups_eq (x : FragmentIndex) (start : Option QualifiedName) (depth : Nat) :
    x.groups start depth = (x.segmentsAt start depth).map fun segment =>
      let fullName := (QualifiedName.single segment).under start
      { fullName, fragments := (x.get? fullName).getD [], children := x.groups (some fullName) (depth + 1) } := by
  rw [groups]
  exact List.attach_map_val (f := fun segment => let fullName := (QualifiedName.single segment).under start
    Group.mk fullName ((x.get? fullName).getD []) (x.groups (some fullName) (depth + 1)))

end FragmentIndex
end DomainModel
