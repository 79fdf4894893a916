import DomainModel.Proofs.Group.Indexed
import DomainModel.Proofs.Source.Order
import Mathlib.Data.List.Nodup
/-!
# Merge — what the groups of a forest are

The groups of a forest have as full names exactly the beginnings of the full names of its blocks, each once
(`mem_names_merge`, `nodup_names_merge`); neighbours stand in the order of the first blocks whose names go on from theirs
(`inOrder_merge`); and the blocks of a group are those of its full name, in source order (`fragments_of_mem`).
`IsMerge` collects these laws and what they say of members.
-/
namespace DomainModel

/-- **Dropping repetitions keeps the order of first appearance.** -/
theorem pairwise_eraseDups_filterMap {α β : Type} [DecidableEq β] (f : α → Option β) (as : List α) :
    ((as.filterMap f).eraseDups).Pairwise fun a b =>
      (as.findIdx fun x => f x = some a) < as.findIdx fun x => f x = some b := by
  -- By induction from the end: what was there is found where it was, and what is new is found last.
  induction as using List.reverseRecOn with
  | nil => exact .nil
  | append_singleton as x ih =>
    have hfound : ∀ a ∈ as.filterMap f, (as.findIdx fun x => f x = some a) < as.length := by
      intro a ha
      obtain ⟨y, hy, hfy⟩ := List.mem_filterMap.1 ha
      exact List.findIdx_lt_length.2 ⟨y, hy, decide_eq_true hfy⟩
    have hkept : ((as.filterMap f).eraseDups).Pairwise fun a b =>
        ((as ++ [x]).findIdx fun x => f x = some a) < (as ++ [x]).findIdx fun x => f x = some b := by
      refine ih.imp_of_mem fun ha hb hlt => ?_
      have ha := hfound _ (List.mem_eraseDups.1 ha)
      have hb := hfound _ (List.mem_eraseDups.1 hb)
      rwa [List.findIdx_append, List.findIdx_append, if_pos ha, if_pos hb]
    rw [List.filterMap_append]
    cases hfx : f x with
    | none => simpa [hfx] using hkept
    | some b =>
      have hone : [x].filterMap f = [b] := by simp [hfx]
      rw [hone, eraseDups_concat]
      split
      · exact hkept
      · rename_i hnew
        refine List.pairwise_append.2 ⟨hkept, List.pairwise_singleton _ _, fun a ha c hc => ?_⟩
        obtain rfl := List.mem_singleton.1 hc
        have ha := hfound _ (List.mem_eraseDups.1 ha)
        have hc : ¬ (as.findIdx fun x => f x = some c) < as.length := by
          rw [List.findIdx_lt_length]
          rintro ⟨y, hy, hfy⟩
          exact hnew (List.mem_filterMap.2 ⟨y, hy, of_decide_eq_true hfy⟩)
        rw [List.findIdx_append, List.findIdx_append, if_pos ha, if_neg hc]
        omega

namespace Group

open Source (Tree)

variable {fragments : List Fragment} {forest : List Tree}

/-! ## Full names -/

theorem names_ofSegment (depth : Nat) (start : Option QualifiedName) (segment : Identifier) :
    (ofSegment fragments depth start segment).preorder.map (·.fullName) =
      (QualifiedName.single segment).under start ::
        (preorderAll (under fragments depth (some ((QualifiedName.single segment).under start)))).map (·.fullName) := by
  rw [preorder_eq, List.map_cons]
  rfl

theorem names_under_succ (depth : Nat) (start : Option QualifiedName) :
    (preorderAll (under fragments (depth + 1) start)).map (·.fullName) =
      (nextSegments (fragments.map (·.fullName)) start).flatMap fun segment =>
        (ofSegment fragments depth start segment).preorder.map (·.fullName) := by
  rw [under_succ, preorderAll_eq_flatMap, List.flatMap_map, List.map_flatMap]

theorem levels_under {depth : Nat} {start : Option QualifiedName}
    (h : ∀ f ∈ fragments, f.fullName.size ≤ depth + 1 + startSize start) (segment : Identifier) :
    ∀ f ∈ fragments, f.fullName.size ≤ depth + startSize (some ((QualifiedName.single segment).under start)) := by
  intro f hf
  have hle := h f hf
  rw [startSize_under]
  omega

/-- **The full names under a beginning** are the longer beginnings of names of blocks, if there are levels enough. -/
theorem mem_names_under {name : QualifiedName} : ∀ {depth : Nat} {start : Option QualifiedName},
    (∀ f ∈ fragments, f.fullName.size ≤ depth + startSize start) →
      (name ∈ (preorderAll (under fragments depth start)).map (·.fullName) ↔
        (∃ f ∈ fragments, name.segments <+: f.fullName.segments) ∧ (nextSegment? start name).isSome = true)
  | 0, start, h => by
    refine ⟨fun hn => absurd hn List.not_mem_nil, ?_⟩
    rintro ⟨⟨f, hf, hle⟩, hs⟩
    obtain ⟨segment, hs⟩ := Option.isSome_iff_exists.1 hs
    have hlt := startSize_lt hs
    have hsize := h f hf
    have hle := hle.length_le
    simp only [QualifiedName.size] at hlt hsize
    omega
  | depth + 1, start, h => by
    have hinner : ∀ segment, name ∈ (ofSegment fragments depth start segment).preorder.map (·.fullName) ↔
        name = (QualifiedName.single segment).under start ∨ (∃ f ∈ fragments, name.segments <+: f.fullName.segments) ∧
          (nextSegment? (some ((QualifiedName.single segment).under start)) name).isSome = true := by
      intro segment
      rw [names_ofSegment, List.mem_cons, mem_names_under (levels_under h segment)]
    simp only [names_under_succ, List.mem_flatMap, hinner, mem_nextSegments, List.mem_map, exists_exists_and_eq_and]
    constructor
    · rintro ⟨segment, ⟨f, hf, hs⟩, rfl | ⟨hname, hnext⟩⟩
      · exact ⟨⟨f, hf, nextSegment?_eq_some_iff.1 hs⟩,
          Option.isSome_iff_exists.2 ⟨segment, nextSegment?_eq_some_iff.2 List.prefix_rfl⟩⟩
      · have hpre := segments_prefix_iff.2 (.inr (isSome_nextSegment?_iff.1 hnext))
        exact ⟨hname, Option.isSome_iff_exists.2 ⟨segment, nextSegment?_eq_some_iff.2 hpre⟩⟩
    · rintro ⟨⟨f, hf, hle⟩, hs⟩
      obtain ⟨segment, hs⟩ := Option.isSome_iff_exists.1 hs
      have hpre := nextSegment?_eq_some_iff.1 hs
      refine ⟨segment, ⟨f, hf, nextSegment?_eq_some_iff.2 (hpre.trans hle)⟩, ?_⟩
      rcases segments_prefix_iff.1 hpre with heq | hnext
      · exact .inl heq
      · exact .inr ⟨⟨f, hf, hle⟩, isSome_nextSegment?_iff.2 hnext⟩

theorem nextSegment?_of_mem_names {name : QualifiedName} {depth : Nat} {start : Option QualifiedName}
    {segment : Identifier} (h : ∀ f ∈ fragments, f.fullName.size ≤ depth + 1 + startSize start)
    (hname : name ∈ (ofSegment fragments depth start segment).preorder.map (·.fullName)) :
    nextSegment? start name = some segment := by
  rw [nextSegment?_eq_some_iff]
  rw [names_ofSegment, List.mem_cons, mem_names_under (levels_under h segment)] at hname
  rcases hname with rfl | ⟨-, hnext⟩
  · exact List.prefix_rfl
  · exact segments_prefix_iff.2 (.inr (isSome_nextSegment?_iff.1 hnext))

theorem nodup_names_under : ∀ {depth : Nat} {start : Option QualifiedName},
    (∀ f ∈ fragments, f.fullName.size ≤ depth + startSize start) →
      ((preorderAll (under fragments depth start)).map (·.fullName)).Nodup
  | 0, _, _ => List.nodup_nil
  | depth + 1, start, h => by
    rw [names_under_succ, List.nodup_flatMap]
    constructor
    · intro segment _
      have hlevels := levels_under h segment
      rw [names_ofSegment, List.nodup_cons]
      refine ⟨fun hself => ?_, nodup_names_under hlevels⟩
      have hnext := ((mem_names_under hlevels).1 hself).2
      rw [nextSegment?_self] at hnext
      cases hnext
    · refine (nodup_eraseDups _).imp fun hne name ha hb => ?_
      have ha := nextSegment?_of_mem_names h ha
      have hb := nextSegment?_of_mem_names h hb
      exact hne (Option.some.inj (ha.symm.trans hb))

theorem levels_merge (forest : List Tree) :
    ∀ f ∈ fragmentsOf forest, f.fullName.size ≤ depthOf (fragmentsOf forest) + startSize none :=
  fun _ hf => size_le_depthOf hf

/-- **The full names of groups are the beginnings of the full names of blocks.** -/
theorem mem_names_merge {name : QualifiedName} : name ∈ (all (merge forest)).map (·.fullName) ↔
    ∃ f ∈ fragmentsOf forest, name.segments <+: f.fullName.segments := by
  rw [all_eq, merge, mem_names_under (levels_merge forest)]
  exact and_iff_left rfl

/-- **No two groups have one full name.** -/
theorem nodup_names_merge (forest : List Tree) : ((all (merge forest)).map (·.fullName)).Nodup := by
  rw [all_eq, merge]
  exact nodup_names_under (levels_merge forest)

/-! ## Neighbours -/

/-- The number of the first block whose name is a name or goes on from it. -/
def firstAt (forest : List Tree) (name : QualifiedName) : Nat :=
  (fragmentsOf forest).findIdx (·.fullName.startsWith name)

/-- **Groups side by side stand as the first blocks whose names go on from theirs.** -/
def InOrder (forest : List Tree) (groups : List Group) : Prop :=
  groups.Pairwise fun a b => firstAt forest a.fullName < firstAt forest b.fullName

theorem inOrder_under (depth : Nat) (start : Option QualifiedName) :
    InOrder forest (under (fragmentsOf forest) depth start) := by
  cases depth with
  | zero => exact .nil
  | succ depth =>
    have hfirst : ∀ segment, firstAt forest ((QualifiedName.single segment).under start) =
        (fragmentsOf forest).findIdx fun f => nextSegment? start f.fullName = some segment := by
      intro segment
      refine congrArg (List.findIdx · _) (funext fun f => ?_)
      rw [Bool.eq_iff_iff, decide_eq_true_eq, nextSegment?_eq_some_iff, QualifiedName.startsWith_iff]
    have h := pairwise_eraseDups_filterMap (fun f : Fragment => nextSegment? start f.fullName) (fragmentsOf forest)
    rw [InOrder, under_succ, nextSegments_eq, List.filterMap_map, List.pairwise_map]
    exact h.imp fun hlt => by simpa only [ofSegment, hfirst] using hlt

theorem inOrder_merge (forest : List Tree) : InOrder forest (merge forest) := inOrder_under _ _

theorem inOrder_children {g : Group} (hg : g ∈ all (merge forest)) : InOrder forest g.children := by
  obtain ⟨d, s, segment, rfl⟩ := exists_ofSegment_of_mem hg
  exact inOrder_under _ _

/-! ## Blocks -/

/-- **The blocks of a group are those of its full name**, in source order. -/
theorem fragments_of_mem {g : Group} (hg : g ∈ all (merge forest)) :
    g.fragments = (fragmentsOf forest).filter fun f => f.fullName = g.fullName := by
  obtain ⟨d, s, segment, rfl⟩ := exists_ofSegment_of_mem hg
  rfl

/-- **What the groups of a forest are.** -/
structure IsMerge (forest : List Tree) (groups : List Group) : Prop where
  /-- The full names are the beginnings of the full names of blocks. -/
  names : ∀ name, name ∈ (all groups).map (·.fullName) ↔
    ∃ s b, Source.At forest s (.block b) ∧ name.segments <+: (b.name.under s.fullName).segments
  nodup : ((all groups).map (·.fullName)).Nodup
  /-- A group at the top has one segment. -/
  top : ∀ g ∈ groups, g.fullName = .single g.name
  /-- A group directly inside another has one segment more. -/
  child : ∀ g ∈ all groups, ∀ c ∈ g.children, c.fullName = g.fullName.child c.name
  /-- Neighbours stand as their first blocks. -/
  siblings : InOrder forest groups ∧ ∀ g ∈ all groups, InOrder forest g.children
  /-- The listed blocks are those on a walk, in its order. -/
  walked : (fragmentsOf forest).map (fun f => .block f.block) = (Tree.walkForest [] forest).filter (·.isBlock)
  /-- The listed blocks have the scopes of their places. -/
  written : ∀ s b, Source.At forest s (.block b) ↔ ⟨s, b⟩ ∈ fragmentsOf forest
  /-- A group has the blocks of its full name, each as often as it is listed and in the listed order. -/
  fragments : ∀ g ∈ all groups, g.fragments = (fragmentsOf forest).filter fun f => f.fullName = g.fullName
  /-- A member of a block that is no block is in exactly one group, with the scope of its block. -/
  placed : ∀ s b m, Source.At forest s (.block b) → m ∈ b.members → m.isBlock = false →
    ∃! g, g ∈ all groups ∧ (m, .block s b.name b.imports) ∈ g.members
  /-- All groups together have each member of each block that is no block once. -/
  members : ((all groups).flatMap (·.members)).Perm ((fragmentsOf forest).flatMap fun f =>
    (f.block.members.filter fun m => !m.isBlock).map fun m => (m, .block f.outer f.block.name f.block.imports))

theorem members_merge_perm (forest : List Tree) :
    ((all (merge forest)).flatMap (·.members)).Perm ((fragmentsOf forest).flatMap (·.members)) := by
  have h := (fragments_merge_perm forest).flatMap_right (·.members)
  rwa [List.flatMap_assoc] at h

theorem eq_of_fullName_eq {g h : Group} (hg : g ∈ all (merge forest)) (hh : h ∈ all (merge forest))
    (heq : g.fullName = h.fullName) : g = h :=
  List.inj_on_of_nodup_map (nodup_names_merge forest) hg hh heq

/-- **A member that is no block is in exactly one group.** -/
theorem existsUnique_mem_members {f : Fragment} (hf : f ∈ fragmentsOf forest) {x : Source.Member × Scope}
    (hx : x ∈ f.members) : ∃! g, g ∈ all (merge forest) ∧ x ∈ g.members := by
  obtain ⟨g, hg, hname⟩ := List.mem_map.1 (mem_names_merge.2 ⟨f, hf, List.prefix_rfl⟩)
  have hmem : f ∈ g.fragments := by
    rw [fragments_of_mem hg]
    exact List.mem_filter.2 ⟨hf, decide_eq_true hname.symm⟩
  refine ⟨g, ⟨hg, mem_members.2 ⟨f, hmem, hx⟩⟩, ?_⟩
  rintro h ⟨hh, hxh⟩
  -- The scope of a member tells the full name of its block.
  obtain ⟨f', hf', hx'⟩ := mem_members.1 hxh
  have hscope : f'.scope = f.scope :=
    (Source.Fragment.mem_members.1 hx').2.2.symm.trans (Source.Fragment.mem_members.1 hx).2.2
  have hfull : f'.fullName = f.fullName := Option.some.inj (congrArg Scope.fullName hscope)
  refine eq_of_fullName_eq hh hg ?_
  rw [hname, ← hfull, fullName_of_mem_fragments hh hf']

theorem isMerge_merge (forest : List Tree) : IsMerge forest (merge forest) where
  names name := by
    rw [mem_names_merge]
    constructor
    · rintro ⟨f, hf, h⟩
      exact ⟨f.outer, f.block, Source.at_block_iff.2 hf, h⟩
    · rintro ⟨s, b, hb, h⟩
      exact ⟨⟨s, b⟩, Source.at_block_iff.1 hb, h⟩
  nodup := nodup_names_merge forest
  top _ := fullName_of_mem_merge
  child _ hg _ := fullName_of_mem_children hg
  siblings := ⟨inOrder_merge forest, fun _ => inOrder_children⟩
  walked := (Source.blocks_walkForest forest).symm
  written _ _ := Source.at_block_iff
  fragments _ := fragments_of_mem
  placed _ _ _ hb hm hk :=
    existsUnique_mem_members (Source.at_block_iff.1 hb) (Source.Fragment.mem_members.2 ⟨hm, hk, rfl⟩)
  members := members_merge_perm forest

end Group

/-- **The groups read off the index of a forest are its merge.** -/
theorem FragmentIndex.merge_eq_and_isMerge (forest : List Source.Tree) :
    FragmentIndex.merge forest = Group.merge forest ∧ Group.IsMerge forest (FragmentIndex.merge forest) := by
  have h := FragmentIndex.merge_eq forest
  exact ⟨h, h ▸ Group.isMerge_merge forest⟩

end DomainModel
