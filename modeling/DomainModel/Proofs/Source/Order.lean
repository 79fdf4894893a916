import DomainModel.Proofs.Source.Place
import Mathlib.Data.List.Perm.Basic
/-!
# Order — the lists of blocks and of places against the walk

Walking a forest from the top passes every node once, a node before those below it.  The blocks on the way are the listed
ones in the listed order (`blocks_walkForest`); all other nodes below the units are the listed places, which only stand
elsewhere: those of a block before those of the blocks inside it (`inner_walkForest_perm`).
-/
namespace DomainModel
namespace Source

variable {forest : List Tree}

namespace Node

abbrev everywhere : Node → Bool := fun _ => true

/-- The walk from a child is part of the walk from the node, which has the node itself besides. -/
theorem length_walk_child {descend : Node → Bool} {n c : Node} (hn : descend n = true) (hc : c ∈ n.children) :
    (c.walk descend).length < (n.walk descend).length := by
  have hle : (c.walk descend).length ≤ (n.children.flatMap (·.walk descend)).length :=
    (List.sublist_flatten_of_mem (List.mem_map_of_mem hc)).length_le
  rw [walk_eq descend n, if_pos hn, List.length_cons]
  omega

/-- **What goes from each node to those directly below it holds of every node walked.** -/
theorem forall_mem_walk {descend : Node → Bool} {P : Node → Prop} (hstep : ∀ n, P n → ∀ c ∈ n.children, P c) (n : Node)
    (hn : P n) : ∀ x ∈ n.walk descend, P x := by
  intro x hx
  rw [walk_eq] at hx
  rcases List.mem_cons.1 hx with rfl | hx
  · exact hn
  split at hx
  · obtain ⟨c, hc, hx⟩ := List.mem_flatMap.1 hx
    have hlt := length_walk_child ‹descend n = true› hc
    exact forall_mem_walk hstep c (hstep n hn c hc) x hx
  · cases hx
termination_by (n.walk descend).length

def isBlock (n : Node) : Bool := n.kind == .block

/-- A node that is neither a unit nor a block. -/
def isInner (n : Node) : Bool := n.kind != .tree && !n.isBlock

theorem isInner_child {n : Node} (hn : n.isInner = true) : ∀ c ∈ n.children, c.isInner = true := by
  have hleaf : ∀ {α : Type} (f : α → Node), (∀ a, (f a).isInner = true) → ∀ as : List α, ∀ c ∈ as.map f,
      c.isInner = true := by
    intro α f hf as c hc
    obtain ⟨a, -, rfl⟩ := List.mem_map.1 hc
    exact hf a
  intro c hc
  cases n with
  | tree | block => cases hn
  | entity e => exact hleaf _ (fun _ => rfl) _ c hc
  | event e => exact hleaf _ (fun _ => rfl) _ c hc
  | value v => exact hleaf _ (fun _ => rfl) _ c hc
  | query q => exact hleaf _ (fun _ => rfl) _ c hc
  | webApi root => rw [List.mem_singleton.1 hc]; rfl
  | path p =>
    rcases List.mem_append.1 hc with hc | hc
    · exact hleaf _ (fun _ => rfl) _ c hc
    · exact hleaf _ (fun m => by cases m <;> rfl) _ c hc
  | externalEnum | property | command | filter => cases hc

theorem isInner_of_mem_walk {n x : Node} (hn : n.isInner = true) (hx : x ∈ n.walk everywhere) : x.isInner = true :=
  forall_mem_walk (P := fun n => n.isInner = true) (fun _ => isInner_child) n hn x hx

theorem filter_isInner_walk {n : Node} (hn : n.isInner = true) :
    (n.walk everywhere).filter (·.isInner) = n.walk everywhere :=
  List.filter_eq_self.2 fun _ hx => isInner_of_mem_walk hn hx

theorem filter_isBlock_walk {n : Node} (hn : n.isInner = true) : (n.walk everywhere).filter (·.isBlock) = [] := by
  refine List.filter_eq_nil_iff.2 fun x hx => ?_
  have hinner := isInner_of_mem_walk hn hx
  rw [isInner, Bool.and_eq_true, Bool.not_eq_true'] at hinner
  rw [hinner.2]
  exact Bool.false_ne_true

end Node

theorem Member.isInner_node {m : Member} (hm : m.isBlock = false) : m.node.isInner = true := by
  cases m with
  | block b => cases hm
  | entity | value | externalEnum | webApi => rfl

/-! ## Blocks -/

theorem tree_not_mem_children {n : Node} {t : Tree} : .tree t ∉ n.children := by
  intro hc
  cases hk : n.isInner with
  | true => exact absurd (Node.isInner_child hk _ hc) Bool.false_ne_true
  | false =>
    cases n with
    | tree => obtain ⟨b, -, heq⟩ := List.mem_map.1 hc; cases heq
    | block =>
      obtain ⟨m, -, heq⟩ := List.mem_map.1 hc
      cases m <;> cases heq
    | entity | event | value | externalEnum | property | webApi | path | query | command | filter => cases hk

/-- **Blocks are written where they are listed**, and nowhere else. -/
theorem at_block_iff {s : Scope} {b : Block} : At forest s (.block b) ↔ ⟨s, b⟩ ∈ fragmentsOf forest := by
  refine ⟨fun h => ?_, at_of_mem_fragmentsOf⟩
  generalize hn : Node.block b = n at h
  induction h generalizing b with
  | top ht hb =>
    cases hn
    exact mem_fragmentsOf.2 ⟨_, ht, _, hb, Block.self_mem_fragments _ _⟩
  | @child s n c h hc ih =>
    subst hn
    -- Only a block has blocks below it that is itself below a unit.
    cases hk : n.isInner with
    | true => exact absurd (Node.isInner_child hk _ hc) Bool.false_ne_true
    | false =>
      cases n with
      | tree t => cases h with | child _ hc => exact absurd hc tree_not_mem_children
      | block outer =>
        obtain ⟨m, hm, heq⟩ := List.mem_map.1 hc
        cases m with
        | block inner => cases heq; exact mem_fragmentsOf_inner (ih rfl) hm
        | entity | value | externalEnum | webApi => cases heq
      | entity | event | value | externalEnum | property | webApi | path | query | command | filter => cases hk

mutual

theorem Block.filter_isBlock_walk (outer : Scope) : ∀ b : Block,
    (b.walk Node.everywhere).filter (·.isBlock) = (b.fragments outer).map fun f => .block f.block
  | ⟨name, imports, members⟩ => by
    rw [Block.walk, if_pos rfl, List.filter_cons_of_pos rfl,
      Member.filter_isBlock_walkAll (.block outer name imports) members, Block.fragments, List.map_cons]

theorem Member.filter_isBlock_walk (outer : Scope) : ∀ m : Member,
    (m.walk Node.everywhere).filter (·.isBlock) = (m.fragments outer).map fun f => .block f.block
  | .block b => by rw [Member.walk, Member.fragments, Block.filter_isBlock_walk outer b]
  | .entity e => Node.filter_isBlock_walk (n := .entity e) rfl
  | .value v => Node.filter_isBlock_walk (n := .value v) rfl
  | .externalEnum e => rfl
  | .webApi root => Node.filter_isBlock_walk (n := .webApi root) rfl

theorem Member.filter_isBlock_walkAll (outer : Scope) : ∀ ms : List Member,
    (Member.walkAll Node.everywhere ms).filter (·.isBlock) = (Member.fragmentsAll outer ms).map fun f => .block f.block
  | [] => rfl
  | m :: ms => by
    rw [Member.walkAll, List.filter_append, Member.filter_isBlock_walk outer m, Member.filter_isBlock_walkAll outer ms,
      Member.fragmentsAll, List.map_append]

end

theorem walkForest_eq (forest : List Tree) :
    Tree.walkForest [] forest = forest.flatMap fun t => .tree t :: t.blocks.flatMap (·.walk Node.everywhere) := rfl

/-- **The blocks on a walk are the listed blocks**, unit after unit and a block before those inside it. -/
theorem blocks_walkForest (forest : List Tree) :
    (Tree.walkForest [] forest).filter (·.isBlock) = (fragmentsOf forest).map fun f => .block f.block := by
  simp only [walkForest_eq, fragmentsOf, List.filter_flatMap, List.map_flatMap]
  refine congrArg forest.flatMap (funext fun t => ?_)
  rw [List.filter_cons_of_neg (by simp [Node.isBlock, Node.kind]), List.filter_flatMap]
  exact congrArg t.blocks.flatMap (funext fun b => b.filter_isBlock_walk _)

/-! ## Other nodes -/

mutual

theorem Path.walk_eq_places (s : Scope) : ∀ p : Path, p.walk Node.everywhere = (p.places s).map (·.2)
  | ⟨operation, filters, members⟩ => by
    rw [Path.walk, if_pos rfl, Path.places, List.map_cons, List.map_append, List.map_map,
      ApiMember.walkAll_eq_places (.declaration s operation.name) members]
    rfl

theorem ApiMember.walk_eq_places (s : Scope) : ∀ m : ApiMember, m.walk Node.everywhere = (m.places s).map (·.2)
  | .command _ => by rw [ApiMember.walk, ApiMember.places, List.map_singleton]
  | .query q => by
    rw [ApiMember.walk, ApiMember.places, Query.walk, Query.places, if_pos rfl, List.map_cons, List.map_map]
    rfl
  | .path p => by rw [ApiMember.walk, ApiMember.places, Path.walk_eq_places s p]

theorem ApiMember.walkAll_eq_places (s : Scope) : ∀ ms : List ApiMember,
    ApiMember.walkAll Node.everywhere ms = (ApiMember.placesAll s ms).map (·.2)
  | [] => rfl
  | m :: ms => by
    rw [ApiMember.walkAll, ApiMember.placesAll, List.map_append, ApiMember.walk_eq_places s m,
      ApiMember.walkAll_eq_places s ms]

end

theorem Event.walk_eq_places (s : Scope) (e : Event) : e.walk Node.everywhere = (e.places s).map (·.2) := by
  rw [walk, places, if_pos rfl, List.map_cons, List.map_map]
  rfl

theorem Member.walk_eq_places (s : Scope) {m : Member} (hm : m.isBlock = false) :
    m.walk Node.everywhere = (m.places s).map (·.2) := by
  cases m with
  | block b => cases hm
  | entity e =>
    rw [walk, places, Entity.walk, Entity.places, if_pos rfl, List.map_cons, List.map_flatMap]
    simp only [Event.walk_eq_places (.declaration s e.name)]
  | value v =>
    rw [walk, places, Value.walk, Value.places, if_pos rfl, List.map_cons, List.map_map]
    rfl
  | externalEnum e => rfl
  | webApi root =>
    rw [walk, places, if_pos rfl, List.map_cons, Path.walk_eq_places s]

/-- The nodes of members that are no blocks, and what is below them. -/
def membersWalk (ms : List Member) : List Node := (ms.filter fun m => !m.isBlock).flatMap (·.walk Node.everywhere)

theorem map_places_eq (forest : List Tree) :
    (places forest).map (·.2) = (fragmentsOf forest).flatMap fun f => membersWalk f.block.members := by
  simp only [places, List.map_flatMap, Fragment.members, List.flatMap_map, membersWalk]
  refine congrArg (fragmentsOf forest).flatMap (funext fun f => List.flatMap_congr fun m hm => ?_)
  exact (Member.walk_eq_places f.scope (by simpa using (List.mem_filter.1 hm).2)).symm

theorem membersWalk_cons (m : Member) (ms : List Member) : membersWalk (m :: ms) = membersWalk [m] ++ membersWalk ms := by
  cases hm : m.isBlock <;> simp [membersWalk, hm]

theorem Member.filter_isInner_walk {m : Member} (hm : m.isBlock = false) :
    (m.walk Node.everywhere).filter (·.isInner) = membersWalk [m] ++ [] := by
  rw [← Node.walk_node_member, Node.filter_isInner_walk (Member.isInner_node hm)]
  simp [membersWalk, hm, Node.walk_node_member]

mutual

/-- **Walking a block passes its own members and those of the blocks inside it.** -/
theorem Block.filter_isInner_walk_perm (outer : Scope) : ∀ b : Block, ((b.walk Node.everywhere).filter (·.isInner)).Perm
    ((b.fragments outer).flatMap fun f => membersWalk f.block.members)
  | ⟨name, imports, members⟩ => by
    rw [Block.walk, if_pos rfl, List.filter_cons_of_neg Bool.false_ne_true, Block.fragments, List.flatMap_cons]
    exact Member.filter_isInner_walkAll_perm (.block outer name imports) members

theorem Member.filter_isInner_walk_perm (outer : Scope) : ∀ m : Member, ((m.walk Node.everywhere).filter (·.isInner)).Perm
    (membersWalk [m] ++ (m.fragments outer).flatMap fun f => membersWalk f.block.members)
  | .block b => by
    rw [Member.walk, Member.fragments]
    exact Block.filter_isInner_walk_perm outer b
  | .entity e => .of_eq (Member.filter_isInner_walk (m := .entity e) rfl)
  | .value v => .of_eq (Member.filter_isInner_walk (m := .value v) rfl)
  | .externalEnum e => .of_eq (Member.filter_isInner_walk (m := .externalEnum e) rfl)
  | .webApi root => .of_eq (Member.filter_isInner_walk (m := .webApi root) rfl)

theorem Member.filter_isInner_walkAll_perm (outer : Scope) : ∀ ms : List Member,
    ((Member.walkAll Node.everywhere ms).filter (·.isInner)).Perm
      (membersWalk ms ++ (Member.fragmentsAll outer ms).flatMap fun f => membersWalk f.block.members)
  | [] => .refl _
  | m :: ms => by
    rw [Member.walkAll, List.filter_append, Member.fragmentsAll, List.flatMap_append, membersWalk_cons]
    refine ((Member.filter_isInner_walk_perm outer m).append (Member.filter_isInner_walkAll_perm outer ms)).trans ?_
    rw [List.append_assoc, List.append_assoc]
    exact (List.perm_append_comm_assoc ..).append_left _

end

/-- **All other nodes of a walk below the units are the places**, in another order. -/
theorem inner_walkForest_perm (forest : List Tree) :
    ((Tree.walkForest [] forest).filter (·.isInner)).Perm ((places forest).map (·.2)) := by
  simp only [walkForest_eq, map_places_eq, fragmentsOf, List.filter_flatMap, List.flatMap_assoc]
  refine List.Perm.flatMap_left _ fun t _ => ?_
  rw [List.filter_cons_of_neg Bool.false_ne_true, List.filter_flatMap]
  exact List.Perm.flatMap_left _ fun b _ => b.filter_isInner_walk_perm _

end Source
end DomainModel
