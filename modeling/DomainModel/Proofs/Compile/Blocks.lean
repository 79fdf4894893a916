import DomainModel.Compile
import DomainModel.Proofs.Group.Indexed
import DomainModel.Proofs.Symbol.Rescoped
/-!
# Blocks — what compiling sees of the blocks of a forest

Compiling sees in what order the full names of blocks first appear, and of each full name the members of its blocks, one
block after the other, each at its place.  How the members are spread over blocks of one name it does not see, nor more
of a place than references do (`SameBlocks`).  Forests with the same blocks compile to the same thing, whatever the
options (`compileForest_eq`).
-/
namespace DomainModel

open Source (Member Place Tree)

namespace Fragment

/-- What compiling sees of a block: its full name and its members that are no blocks. -/
def outline (f : Fragment) : QualifiedName × List (Member × Scope) := (f.fullName, f.members)

theorem names_eq (fs : List Fragment) : fs.map (·.fullName) = (fs.map (·.outline)).map (·.1) := by
  rw [List.map_map]
  rfl

theorem members_eq (fs : List Fragment) (name : QualifiedName) :
    (fs.filter fun f => f.fullName = name).flatMap (·.members) =
      ((fs.map (·.outline)).filter fun o => o.1 = name).flatMap (·.2) := by
  rw [List.filter_map, List.flatMap_map]
  rfl

end Fragment

/-- **The blocks are the same** as far as compiling sees, but for a change of scopes. -/
structure SameBlocks (ρ : Scope → Scope) (fs gs : List Fragment) : Prop where
  names : (gs.map (·.fullName)).eraseDups = (fs.map (·.fullName)).eraseDups
  members : ∀ name, (gs.filter fun g => g.fullName = name).flatMap (·.members) =
    ((fs.filter fun f => f.fullName = name).flatMap (·.members)).map fun m => (m.1, ρ m.2)

namespace SameBlocks

variable {ρ : Scope → Scope} {fs gs : List Fragment} (h : SameBlocks ρ fs gs)
include h

theorem mem_names_iff (name : QualifiedName) : name ∈ gs.map (·.fullName) ↔ name ∈ fs.map (·.fullName) := by
  rw [← List.mem_eraseDups, h.names, List.mem_eraseDups]

theorem nextSegments (start : Option QualifiedName) :
    Group.nextSegments (gs.map (·.fullName)) start = Group.nextSegments (fs.map (·.fullName)) start := by
  rw [Group.nextSegments_eq, ← eraseDups_filterMap, h.names, eraseDups_filterMap, Group.nextSegments_eq]

theorem depthOf : Group.depthOf gs = Group.depthOf fs := by
  rw [Group.depthOf_eq, Group.depthOf_eq]
  apply Nat.le_antisymm
  · exact QualifiedName.longest_le fun n hn => QualifiedName.size_le_longest ((h.mem_names_iff n).1 hn)
  · exact QualifiedName.longest_le fun n hn => QualifiedName.size_le_longest ((h.mem_names_iff n).2 hn)

theorem members_ofSegment (depth : Nat) (start : Option QualifiedName) (segment : Identifier) :
    (Group.ofSegment gs depth start segment).members =
      (Group.ofSegment fs depth start segment).members.map fun m => (m.1, ρ m.2) :=
  h.members _

/-- **The groups under a beginning correspond**, with the members of each. -/
theorem members_under : ∀ (depth : Nat) (start : Option QualifiedName),
    (Group.preorderAll (Group.under gs depth start)).map Group.members =
      (Group.preorderAll (Group.under fs depth start)).map fun g => g.members.map fun m => (m.1, ρ m.2)
  | 0, _ => rfl
  | depth + 1, start => by
    rw [Group.under_succ, Group.under_succ, h.nextSegments, Group.preorderAll_eq_flatMap, Group.preorderAll_eq_flatMap,
      List.flatMap_map, List.flatMap_map, List.map_flatMap, List.map_flatMap]
    refine congrArg (List.flatMap · _) (funext fun segment => ?_)
    rw [Group.preorder_eq, Group.preorder_eq, List.map_cons, List.map_cons, h.members_ofSegment]
    exact congrArg (_ :: ·) (members_under depth _)

theorem trees_under (hρ : Scope.Keeps ρ) : ∀ (depth : Nat) (start : Option QualifiedName),
    Group.trees (Group.under gs depth start) =
      SymbolTree.mapAll (.rescope ρ) (Group.trees (Group.under fs depth start))
  | 0, _ => rfl
  | depth + 1, start => by
    have ih := fun segment => trees_under hρ depth (some ((QualifiedName.single segment).under start))
    rw [Group.under_succ, Group.under_succ, h.nextSegments, Group.trees_eq, Group.trees_eq, SymbolTree.mapAll_eq,
      List.map_map, List.map_map, List.map_map]
    refine List.map_congr_left fun segment _ => ?_
    have hmembers := h.members_ofSegment depth start segment
    simp only [Function.comp_apply, Group.tree_eq, SymbolTree.map, SymbolTree.mapAll_append, hmembers,
      List.filterMap_map, Source.filterMap_rescope fun m : Member × Scope => m.1.tree?_rescope hρ m.2]
    exact congrArg (SymbolTree.mk _ _ _ _) (congrArg (_ ++ ·) (ih segment))

end SameBlocks

/-! ## Compiling -/

variable {ρ : Scope → Scope} {forest others : List Tree}

namespace SameBlocks

variable (hρ : Scope.Keeps ρ) (h : SameBlocks ρ (fragmentsOf forest) (fragmentsOf others))
include hρ h

theorem trees_merge :
    Group.trees (Group.merge others) = SymbolTree.mapAll (.rescope ρ) (Group.trees (Group.merge forest)) := by
  simp only [Group.merge, h.depthOf]
  exact h.trees_under hρ _ none

theorem places_merge : (Group.all (Group.merge others)).flatMap Group.places =
    ((Group.all (Group.merge forest)).flatMap Group.places).map (Place.rescope ρ) := by
  have hmembers := h.members_under (Group.depthOf (fragmentsOf forest)) none
  have hplaces : ∀ groups : List Group, groups.flatMap Group.places =
      (groups.map Group.members).flatMap fun ms => ms.flatMap fun m => m.1.places m.2 := by
    intro groups
    rw [List.flatMap_map]
    rfl
  rw [Group.all_eq, Group.all_eq, hplaces, hplaces, Group.merge, Group.merge, h.depthOf, hmembers, List.map_flatMap,
    List.flatMap_map, List.flatMap_map]
  refine congrArg (List.flatMap · _) (funext fun g => ?_)
  rw [List.flatMap_map, List.map_flatMap]
  exact congrArg g.members.flatMap (funext fun m => m.1.places_rescope hρ m.2)

theorem declared_merge :
    Table.declared (Group.merge others) = (Table.declared (Group.merge forest)).map (·.rescope ρ) := by
  rw [Group.declared_eq, Group.declared_eq, h.places_merge hρ, List.filterMap_map, List.map_filterMap]
  exact List.filterMap_congr fun x _ => x.2.declaration?_rescope hρ x.1

theorem ofGroups_merge (outside : Universe) : Table.ofGroups (Group.merge others) outside =
    ((Table.ofGroups (Group.merge forest) outside).1.rescope ρ, (Table.ofGroups (Group.merge forest) outside).2) := by
  rw [Table.ofGroups, h.declared_merge hρ]
  exact Table.defineAll_rescope _ (Table.empty outside)

theorem observe_eq (options : CompileOptions) : observe options others = observe options forest := by
  have hagree := Table.agrees_rescope hρ (Table.ofGroups (Group.merge forest) options.outside).1
  have hcheck : ((Table.ofGroups (Group.merge forest) options.outside).1.rescope ρ).check options.circles
        (Group.merge others) =
      (Table.ofGroups (Group.merge forest) options.outside).1.check options.circles (Group.merge forest) := by
    rw [Table.check_eq, Table.check_eq, h.places_merge hρ, List.flatMap_map]
    exact congrArg (List.flatMap · _) (funext fun x => hagree.violationsAt hρ x.2)
  simp only [observe, h.ofGroups_merge hρ, hcheck]

theorem graphOf_eq (outside : Universe) : graphOf outside others = graphOf outside forest := by
  have hagree := Table.agrees_rescope hρ (Table.ofGroups (Group.merge forest) outside).1
  simp only [graphOf, h.ofGroups_merge hρ]
  exact Graph.ofGroups_rescope hagree (h.trees_merge hρ)

/-- **Forests with the same blocks compile to the same thing**, whatever the options. -/
theorem compileForest_eq (options : CompileOptions) : compileForest options others = compileForest options forest := by
  rw [compileForest, h.observe_eq hρ, h.graphOf_eq hρ, compileForest]

end SameBlocks
end DomainModel
