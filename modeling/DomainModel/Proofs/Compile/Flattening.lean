import DomainModel.Proofs.Compile.Blocks
import DomainModel.Proofs.Name.Beginnings
import DomainModel.Proofs.Rules.Accepted
import DomainModel.Proofs.Source.Order
/-!
# Flattening — nested blocks under dotted names

A block inside another, and a block of its own under the dotted name, see the same candidates: what the inner block
finds further out, the dotted one finds through the beginnings of its name (`QualifiedName.ancestors_join`).  The outer
block must not import anything, for the dotted name has no place for imports in between.  Where this holds throughout a
forest, writing every block on its own does not change what the forest compiles to (`compileForest_flatten`).
-/
namespace DomainModel

open Source (Block Member Tree)

namespace Scope

/-- **A place with its blocks run together**: a block inside one that imports nothing becomes one block of the dotted
name. -/
def flat : Scope → Scope
  | top imports => top imports
  | block outer name imports =>
    match outer.flat with
    | block further above [] => block further (above.join name) imports
    | s => block s name imports
  | declaration outer name => declaration outer.flat name

theorem flat_block (outer : Scope) (name : QualifiedName) (imports : List QualifiedName) :
    (block outer name imports).flat = block outer.flat name imports ∨
      ∃ further above, outer.flat = block further above [] ∧
        (block outer name imports).flat = block further (above.join name) imports := by
  rw [flat]
  split
  · rename_i further above h
    exact .inr ⟨further, above, h, rfl⟩
  · exact .inl rfl

theorem fullName_flat : ∀ s : Scope, s.flat.fullName = s.fullName
  | top _ => rfl
  | declaration outer name => by rw [flat, fullName, fullName_flat outer, fullName]
  | block outer name imports => by
    have ih := fullName_flat outer
    rcases flat_block outer name imports with h | ⟨further, above, houter, h⟩
    · rw [h, fullName, ih, fullName]
    · rw [houter] at ih
      rw [h, fullName, fullName, ← ih, fullName]
      cases further.fullName with
      | none => rfl
      | some o => exact congrArg some (QualifiedName.join_assoc o above name).symm

theorem candidates_block_block (further : Scope) (above name : QualifiedName) (imports : List QualifiedName)
    (r : QualifiedName) : (block further (above.join name) imports).candidates r =
      (block (block further above []) name imports).candidates r := by
  have hunder : ∀ n : QualifiedName, (above.join n).under further.fullName =
      n.under (some (above.under further.fullName)) := by
    intro n
    cases further.fullName with
    | none => rfl
    | some o => exact (QualifiedName.join_assoc o above n).symm
  simp only [candidates, frameCandidates, fullName, QualifiedName.ancestors_join, hunder, List.map_append, List.map_map,
    List.map_cons, List.map_nil, Function.comp_def, List.nil_append, List.cons_append, List.append_assoc]

theorem candidates_flat (r : QualifiedName) : ∀ s : Scope, s.flat.candidates r = s.candidates r
  | top _ => rfl
  | declaration outer name => by
    simp only [flat, candidates, frameCandidates, qualify, fullName_flat outer, candidates_flat r outer]
  | block outer name imports => by
    have hname := fullName_flat outer
    have ih := candidates_flat r outer
    -- A block offers the same inside any place with the same name and candidates.
    have hkeep : (block outer.flat name imports).candidates r = (block outer name imports).candidates r := by
      simp only [candidates, frameCandidates, hname, ih]
    rcases flat_block outer name imports with h | ⟨further, above, houter, h⟩
    · rw [h, hkeep]
    · rw [h, candidates_block_block, ← houter, hkeep]

theorem keeps_flat : Keeps flat := ⟨fullName_flat, fun s r => candidates_flat r s, fun _ _ => rfl⟩

/-- Where the blocks of a unit are written when they stand on their own: inside one block of a dotted name at most. -/
def above (imports : List QualifiedName) : Option QualifiedName → Scope
  | none => top imports
  | some name => block (top imports) name []

theorem flat_block_of_above {outer : Scope} {imports : List QualifiedName} {o : Option QualifiedName}
    (h : outer.flat = above imports o) (name : QualifiedName) (own : List QualifiedName) :
    (block outer name own).flat = block (top imports) (name.under o) own := by
  rw [flat, h]
  cases o <;> rfl

end Scope

namespace Fragment

/-- The outline of a block in its place with the blocks around it run together. -/
def flatOutline (f : Fragment) : QualifiedName × List (Member × Scope) :=
  (f.fullName, f.members.map fun m => (m.1, m.2.flat))

/-- Imports are written only in blocks without further ones. -/
def ImportsInnermost (fs : List Fragment) : Prop := ∀ f ∈ fs, f.block.blocks ≠ [] → f.block.imports = []

/-- A block on its own has the outline that it has where it is nested. -/
theorem outline_alone {imports : List QualifiedName} {s : Scope} {outer : Option QualifiedName}
    (hs : s.flat = .above imports outer) (name : QualifiedName) (own : List QualifiedName) (members : List Member) :
    (Fragment.mk (.top imports) ⟨name.under outer, own, members.filter fun m => !m.isBlock⟩).outline =
      flatOutline ⟨s, ⟨name, own, members⟩⟩ := by
  have hname : s.fullName = outer := by
    rw [← s.fullName_flat, hs]
    cases outer <;> rfl
  have hflat := Scope.flat_block_of_above hs name own
  simp only [outline, flatOutline, Fragment.fullName, Fragment.members, scope, hname,
    List.filter_filter, Bool.and_self, List.map_map, Function.comp_def, hflat]
  rfl

end Fragment

open Fragment (ImportsInnermost)

namespace Source

mutual

/-- **A block and the blocks inside it, each on its own** with its full dotted name, its imports and its members that
are no blocks. -/
def Block.flatten (outer : Option QualifiedName) : Block → List Block
  | ⟨name, imports, members⟩ =>
    ⟨name.under outer, imports, members.filter fun m => !m.isBlock⟩ ::
      Member.flattenAll (some (name.under outer)) members

def Member.flatten (outer : Option QualifiedName) : Member → List Block
  | .block b => b.flatten outer
  | .entity _ | .value _ | .externalEnum _ | .webApi _ => []

def Member.flattenAll (outer : Option QualifiedName) : List Member → List Block
  | [] => []
  | m :: ms => m.flatten outer ++ Member.flattenAll outer ms

end

def Tree.flatten (t : Tree) : Tree := { t with blocks := t.blocks.flatMap (·.flatten none) }

theorem Member.fragmentsAll_filter (s : Scope) : ∀ ms : List Member,
    Member.fragmentsAll s (ms.filter fun m => !m.isBlock) = []
  | [] => rfl
  | .block _ :: ms => Member.fragmentsAll_filter s ms
  | .entity _ :: ms | .value _ :: ms | .externalEnum _ :: ms | .webApi _ :: ms => Member.fragmentsAll_filter s ms

section Outlines

variable {imports : List QualifiedName}

mutual

theorem Block.outlines_flatten {s : Scope} {outer : Option QualifiedName} (hs : s.flat = .above imports outer) :
    ∀ b : Block, ImportsInnermost (b.fragments s) →
      ((b.flatten outer).flatMap (·.fragments (.top imports))).map (·.outline) =
        (b.fragments s).map Fragment.flatOutline
  | ⟨name, own, members⟩, h => by
    rw [Block.fragments] at h ⊢
    have hhead := Fragment.outline_alone hs name own members
    have hinside : ∀ b, .block b ∈ members →
        (Scope.block s name own).flat = .above imports (some (name.under outer)) := by
      intro b hb
      have hblocks : (Block.mk name own members).blocks ≠ [] :=
        List.ne_nil_of_mem (List.mem_filterMap.2 ⟨_, hb, rfl⟩)
      have hown : own = [] := h _ List.mem_cons_self hblocks
      rw [Scope.flat_block_of_above hs, hown]
      rfl
    have htail := Member.outlines_flattenAll members hinside fun f hf => h f (List.mem_cons_of_mem _ hf)
    rw [Block.flatten, List.flatMap_cons, Block.fragments, Member.fragmentsAll_filter, List.map_append, List.map_cons,
      List.map_nil, hhead, htail, List.map_cons, List.singleton_append]

theorem Member.outlines_flatten {s : Scope} {outer : Option QualifiedName} : ∀ m : Member,
    (∀ b, m = .block b → s.flat = .above imports outer) → ImportsInnermost (m.fragments s) →
      ((m.flatten outer).flatMap (·.fragments (.top imports))).map (·.outline) =
        (m.fragments s).map Fragment.flatOutline
  | .block b, hs, h => Block.outlines_flatten (hs b rfl) b h
  | .entity _, _, _ | .value _, _, _ | .externalEnum _, _, _ | .webApi _, _, _ => rfl

theorem Member.outlines_flattenAll {s : Scope} {outer : Option QualifiedName} : ∀ ms : List Member,
    (∀ b, .block b ∈ ms → s.flat = .above imports outer) → ImportsInnermost (Member.fragmentsAll s ms) →
      ((Member.flattenAll outer ms).flatMap (·.fragments (.top imports))).map (·.outline) =
        (Member.fragmentsAll s ms).map Fragment.flatOutline
  | [], _, _ => rfl
  | m :: ms, hs, h => by
    rw [Member.fragmentsAll] at h ⊢
    have hhead := Member.outlines_flatten m (fun b hb => hs b (hb ▸ List.mem_cons_self))
      fun f hf => h f (List.mem_append_left _ hf)
    have htail := Member.outlines_flattenAll ms (fun b hb => hs b (List.mem_cons_of_mem _ hb))
      fun f hf => h f (List.mem_append_right _ hf)
    rw [Member.flattenAll, List.flatMap_append, List.map_append, hhead, htail, List.map_append]

end

end Outlines

variable {forest : List Tree}

theorem outlines_flatten (h : ImportsInnermost (fragmentsOf forest)) :
    (fragmentsOf (forest.map Tree.flatten)).map (·.outline) = (fragmentsOf forest).map Fragment.flatOutline := by
  unfold fragmentsOf
  rw [List.flatMap_map, List.map_flatMap, List.map_flatMap]
  refine List.flatMap_congr fun t ht => ?_
  rw [Tree.flatten, List.flatMap_assoc, List.map_flatMap, List.map_flatMap]
  refine List.flatMap_congr fun b hb => ?_
  exact Block.outlines_flatten rfl b fun f hf => h f (mem_fragmentsOf.2 ⟨t, ht, b, hb, hf⟩)

theorem sameBlocks_flatten (h : ImportsInnermost (fragmentsOf forest)) :
    SameBlocks Scope.flat (fragmentsOf forest) (fragmentsOf (forest.map Tree.flatten)) := by
  have houtlines := outlines_flatten h
  constructor
  · rw [Fragment.names_eq, houtlines, List.map_map]
    rfl
  · intro name
    rw [Fragment.members_eq, houtlines, List.filter_map, List.flatMap_map, List.map_flatMap]
    rfl

end Source

/-- **Writing every nested block on its own under its dotted name does not change what a forest compiles to**, whatever
the options, as long as no block with further ones inside imports anything. -/
theorem compileForest_flatten {forest : List Tree}
    (h : ∀ s b, Source.At forest s (.block b) → b.blocks ≠ [] → b.imports = []) (options : CompileOptions) :
    compileForest options (forest.map Tree.flatten) = compileForest options forest :=
  (Source.sameBlocks_flatten fun f hf => h f.outer f.block (Source.at_block_iff.2 hf)).compileForest_eq Scope.keeps_flat
    options

/-- A value, and inside a further namespace what is made of it. -/
def Source.Small.nested : List Tree :=
  [⟨none, [], [⟨.single ⟨"acme", by decide⟩, [], [.value Small.label,
    .block ⟨Small.shopName, [], [.entity Small.order, .entity Small.rush, .webApi Small.orders]⟩]⟩]⟩]

theorem compileForest_flatten_nested : ∃ g, compileForest {} Source.Small.nested = .ok g ∧
    (∀ s b, Source.At Source.Small.nested s (.block b) → b.blocks ≠ [] → b.imports = []) ∧
      compileForest {} (Source.Small.nested.map Tree.flatten) = .ok g := by
  have hg : compileForest {} Source.Small.nested = .ok (graphOf .empty Source.Small.nested) :=
    Table.compileForest_eq_ok_iff.2 ⟨by decide, rfl⟩
  have himports : ∀ f ∈ fragmentsOf Source.Small.nested, f.block.blocks ≠ [] → f.block.imports = [] := by decide
  have h : ∀ s b, Source.At Source.Small.nested s (.block b) → b.blocks ≠ [] → b.imports = [] :=
    fun s b hb => himports ⟨s, b⟩ (Source.at_block_iff.1 hb)
  exact ⟨_, hg, h, (compileForest_flatten h {}).trans hg⟩

end DomainModel
