import DomainModel.Proofs.Graph.Bound
import DomainModel.Proofs.Source.Order
import Mathlib.Data.List.Forall2
/-!
# Part — what symbols stand for

A symbol stands for a group of blocks or for a node of the forest (`Part`).  Inside a group there are its members and
then the groups inside; inside an entity its events; inside a web API or a path its commands, then its queries, then its
paths (`Part.contents`).  The trees inside a tree are those of the parts inside its part, in order (`Part.Stands.inside`),
and going from part to part passes every group and every node that has a symbol once (`Part.groups_eq`,
`Part.nodes_perm`, `nodes_merge_perm`).
-/
namespace DomainModel

open Source (ApiMember At Member Node Path)

namespace Source

/-- The members of a path as its symbol lists them: commands, then queries, then paths. -/
def ApiMember.byKind (ms : List ApiMember) : List ApiMember :=
  ms.filter (·.kind = .command) ++ ms.filter (·.kind = .query) ++ ms.filter (·.kind = .path)

/-- **Listed by kind, each member is listed once.** -/
theorem ApiMember.byKind_perm (ms : List ApiMember) : (ApiMember.byKind ms).Perm ms := by
  refine ((filter_append_filter_perm (p := fun m => m.kind != .path) ?_ ?_ ms).append_right _).trans ?_
  · intro m
    cases m <;> rfl
  · intro m hm
    cases m with
    | command => rfl
    | query | path => cases hm
  · refine (filter_append_filter_perm (p := fun _ => true) ?_ ?_ ms).trans (.of_eq (List.filter_true ms))
    · intro m
      cases m <;> rfl
    · intro m hm
      cases m with
      | command | query => rfl
      | path => cases hm

/-- **The nodes with a symbol**, from a node on. -/
def Node.symbols (n : Node) : List Node := (n.walk Node.everywhere).filter (·.symbolKind?.isSome)

theorem Node.symbols_eq (n : Node) :
    n.symbols = [n].filter (·.symbolKind?.isSome) ++ n.children.flatMap symbols := by
  rw [symbols, walk_eq, if_pos rfl, ← List.singleton_append, List.filter_append, List.filter_flatMap]
  rfl

theorem Node.flatMap_symbols_property (ps : List Property) : (ps.map Node.property).flatMap symbols = [] := by
  rw [List.flatMap_map, List.flatMap_eq_nil_iff]
  exact fun _ _ => rfl

theorem Node.flatMap_symbols_filter (as : List Atom) : (as.map Node.filter).flatMap symbols = [] := by
  rw [List.flatMap_map, List.flatMap_eq_nil_iff]
  exact fun _ _ => rfl

end Source

/-- **What a symbol stands for**: a namespace brought together, or a node where it is written. -/
inductive Part where
  | group (g : Group)
  | node (s : Scope) (n : Node)

namespace Part

def group? : Part → Option Group
  | group g => some g
  | node _ _ => none

def declaration? : Part → Option Declaration
  | group _ => none
  | node s n => n.declaration? s

/-- The full name of a part that goes by a name. -/
def fullName (name : Identifier) : Part → QualifiedName
  | group g => g.fullName
  | node s _ => s.qualify name

/-- **The parts directly inside.** -/
def contents : Part → List Part
  | group g => g.members.map (fun m => node m.2 m.1.node) ++ g.children.map group
  | node s (.entity e) => e.events.map fun v => node (.declaration s e.name) (.event v)
  | node s (.webApi p) | node s (.path p) =>
    (ApiMember.byKind p.members).map fun m => node (.declaration s p.operation.name) m.node
  | node _ _ => []

/-- The nodes that a part alone accounts for; a web API accounts for its root path as well. -/
def own : Part → List Node
  | group _ => []
  | node _ (.webApi p) => [.webApi p, .path p]
  | node _ n => [n]

/-! ## What parts contain -/

/-- The groups that a part is and contains. -/
def groups : Part → List Group
  | group g => g.preorder
  | node _ _ => []

/-- What a part and what it contains declare. -/
def declarations : Part → List Declaration
  | group g => g.preorder.flatMap (·.declarations)
  | node s (.entity e) => Member.declarations s (.entity e)
  | node s n => (n.declaration? s).toList

/-- The nodes with a symbol that a part is and contains. -/
def nodes : Part → List Node
  | group g => g.preorder.flatMap fun g => g.members.flatMap fun m => m.1.node.symbols
  | node _ n => n.symbols

theorem flatMap_contents_group {α : Type} {all : Part → List α} {each : Group → List α} {g : Group}
    (hall : ∀ h, all (group h) = h.preorder.flatMap each)
    (heach : each g = g.members.flatMap fun m => all (node m.2 m.1.node)) :
    (group g).contents.flatMap all = all (group g) := by
  rw [contents, List.flatMap_append, List.flatMap_map, List.flatMap_map, hall, Group.preorder_eq, List.flatMap_cons,
    heach, Group.preorderAll_eq_flatMap, List.flatMap_assoc]
  simp only [hall]

theorem exists_node_of_mem_contents {s : Scope} {n : Node} {c : Part} (hc : c ∈ (node s n).contents) :
    ∃ s' n', c = node s' n' := by
  cases n with
  | entity | webApi | path => obtain ⟨_, -, rfl⟩ := List.mem_map.1 hc; exact ⟨_, _, rfl⟩
  | tree | block | event | value | externalEnum | property | query | command | filter => cases hc

theorem flatMap_contents_path {α : Type} {all : Part → List α} {s : Scope} {p : Path}
    (hall : ∀ (s : Scope) (m : ApiMember), all (node s m.node) = []) : (node s (.path p)).contents.flatMap all = [] := by
  rw [contents, List.flatMap_map, List.flatMap_eq_nil_iff]
  exact fun m _ => hall _ m

/-- **A part contains the group that it is and those that its contents contain.** -/
theorem groups_eq (p : Part) : p.groups = p.group?.toList ++ p.contents.flatMap groups := by
  cases p with
  | group g =>
    have hmembers : (g.members.map fun m => node m.2 m.1.node).flatMap groups = [] := by
      rw [List.flatMap_map, List.flatMap_eq_nil_iff]
      exact fun _ _ => rfl
    rw [contents, List.flatMap_append, hmembers, List.flatMap_map, groups, Group.preorder_eq,
      Group.preorderAll_eq_flatMap]
    rfl
  | node s n =>
    have hleaf : (node s n).contents.flatMap groups = [] := by
      rw [List.flatMap_eq_nil_iff]
      intro c hc
      obtain ⟨_, _, rfl⟩ := exists_node_of_mem_contents hc
      rfl
    rw [hleaf]
    rfl

/-- **A part declares its own name and what its contents declare.** -/
theorem declarations_eq (p : Part) : p.declarations = p.declaration?.toList ++ p.contents.flatMap declarations := by
  cases p with
  | group g =>
    refine (flatMap_contents_group (fun _ => rfl) ?_).symm
    refine List.flatMap_congr fun m _ => ?_
    obtain ⟨m, s⟩ := m
    cases m <;> rfl
  | node s n =>
    have hmember : ∀ (s : Scope) (m : ApiMember), declarations (node s m.node) = [] := by
      intro s m
      cases m <;> rfl
    cases n with
    | entity e =>
      rw [contents, List.flatMap_map, declarations, Member.declarations, ← List.flatMap_pure_eq_map]
      rfl
    | webApi p => exact congrArg (_ :: ·) (flatMap_contents_path hmember).symm
    | path p => exact (flatMap_contents_path hmember).symm
    | tree | block | event | value | externalEnum | property | query | command | filter => exact (List.append_nil _).symm

/-- **A part contains the nodes that it accounts for and those that its contents contain.** -/
theorem nodes_perm {p : Part} (hp : ∀ s n, p = node s n → n.symbolKind?.isSome = true) :
    p.nodes.Perm (p.own ++ p.contents.flatMap nodes) := by
  cases p with
  | group g => exact .of_eq (flatMap_contents_group (fun _ => rfl) rfl).symm
  | node s n =>
    have hpath : ∀ p : Path, (Node.path p).symbols.Perm (.path p :: (node s (.path p)).contents.flatMap nodes) := by
      intro p
      rw [Node.symbols_eq, Node.children, List.flatMap_append, Node.flatMap_symbols_filter, List.nil_append,
        List.flatMap_map, contents, List.flatMap_map]
      exact ((ApiMember.byKind_perm p.members).symm.flatMap_right _).cons _
    rw [nodes]
    cases n with
    | path p => exact hpath p
    | webApi p =>
      -- The symbol of the API stands for its root path too, so both nodes are its own.
      rw [Node.symbols_eq, Node.children, List.flatMap_singleton]
      exact (hpath p).cons _
    | entity e =>
      rw [Node.symbols_eq, Node.children, contents, List.flatMap_map, List.flatMap_map]
      exact .refl _
    | event e => rw [Node.symbols_eq, Node.children, Node.flatMap_symbols_property]; exact .refl _
    | query q => rw [Node.symbols_eq, Node.children, Node.flatMap_symbols_filter]; exact .refl _
    | value v => rw [Node.symbols_eq, Node.children, Node.flatMap_symbols_property]; exact .refl _
    | externalEnum | command => exact .refl _
    | tree | block | property | filter => cases hp _ _ rfl

variable {forest : List Source.Tree}

theorem groups_merge (forest : List Source.Tree) :
    ((Group.merge forest).map group).flatMap groups = Group.all (Group.merge forest) := by
  rw [List.flatMap_map, Group.all_eq, Group.preorderAll_eq_flatMap]
  rfl

theorem declarations_merge (forest : List Source.Tree) :
    ((Group.merge forest).map group).flatMap declarations = Table.declared (Group.merge forest) := by
  rw [List.flatMap_map, Table.declared, Group.all_eq, Group.preorderAll_eq_flatMap, List.flatMap_assoc]
  rfl

theorem isInner_of_symbolKind? {n : Node} (hn : n.symbolKind?.isSome = true) : n.isInner = true := by
  cases n with
  | tree | block => cases hn
  | entity | event | value | externalEnum | property | webApi | path | query | command | filter => rfl

/-- **The nodes with a symbol that the parts of a forest contain are those of the forest**, in another order. -/
theorem nodes_merge_perm (forest : List Source.Tree) : (((Group.merge forest).map group).flatMap nodes).Perm
    ((Source.Tree.walkForest [] forest).filter (·.symbolKind?.isSome)) := by
  have hplaces : ∀ g ∈ Group.all (Group.merge forest),
      g.places.map (·.2) = g.members.flatMap fun m => m.1.node.walk Node.everywhere := by
    intro g _
    rw [Group.places, List.map_flatMap]
    refine List.flatMap_congr fun m hm => ?_
    obtain ⟨f, -, hm⟩ := Group.mem_members.1 hm
    rw [Node.walk_node_member, Member.walk_eq_places m.2 (Source.Fragment.mem_members.1 hm).2.1]
  have hnodes : ((Group.merge forest).map group).flatMap nodes =
      (((Group.all (Group.merge forest)).flatMap Group.places).map (·.2)).filter (·.symbolKind?.isSome) := by
    rw [List.map_flatMap, List.flatMap_congr hplaces, List.filter_flatMap, List.flatMap_map, Group.all_eq,
      Group.preorderAll_eq_flatMap, List.flatMap_assoc]
    simp only [nodes, Node.symbols, List.filter_flatMap]
  -- Units and blocks have no symbols, so nothing is lost by leaving them out first.
  have hinner : (Source.Tree.walkForest [] forest).filter (·.symbolKind?.isSome) =
      ((Source.Tree.walkForest [] forest).filter (·.isInner)).filter (·.symbolKind?.isSome) := by
    rw [List.filter_filter]
    refine List.filter_congr fun n _ => ?_
    cases hn : n.symbolKind?.isSome with
    | true => rw [isInner_of_symbolKind? hn]; rfl
    | false => rfl
  rw [hnodes, hinner]
  exact (((Group.places_merge_perm forest).map (·.2)).trans (Source.inner_walkForest_perm forest).symm).filter _

/-! ## Trees -/

/-- **A tree is that of a part of the forest**, below the names that make up the full name of the part. -/
inductive Stands (forest : List Source.Tree) : List Identifier → Part → SymbolTree → Prop
  | group {above : List Identifier} {g : Group} : g ∈ Group.all (Group.merge forest) →
      g.fullName.segments = above ++ [g.name] → Stands forest above (group g) g.tree
  | node {above : List Identifier} {s : Scope} {n : Node} {t : SymbolTree} : At forest s n → n.tree? s = some t →
      (s.qualify t.name).segments = above ++ [t.name] → Stands forest above (node s n) t

theorem forall₂_map {α β γ : Type} {R : γ → β → Prop} {f : α → γ} {h : α → β} {as : List α}
    (hR : ∀ a ∈ as, R (f a) (h a)) : List.Forall₂ R (as.map f) (as.map h) := by
  rw [List.forall₂_map_left_iff, List.forall₂_map_right_iff, List.forall₂_same]
  exact hR

/-- What is kept of a list stands for what it gives. -/
theorem forall₂_filterMap {α β γ : Type} {R : γ → β → Prop} {f : α → γ} {give? : α → Option β} {keep : α → Bool}
    {as : List α} (h : ∀ a ∈ as, if keep a then ∃ b, give? a = some b ∧ R (f a) b else give? a = none) :
    List.Forall₂ R ((as.filter keep).map f) (as.filterMap give?) := by
  induction as with
  | nil => exact .nil
  | cons a as ih =>
    have ha := h a List.mem_cons_self
    have has := ih fun a ha => h a (List.mem_cons_of_mem _ ha)
    split at ha
    · rename_i hk
      obtain ⟨b, hb, hR⟩ := ha
      rw [List.filter_cons_of_pos hk, List.filterMap_cons_some hb]
      exact .cons hR has
    · rename_i hk
      rw [List.filter_cons_of_neg hk, List.filterMap_cons_none ha]
      exact has

theorem pathTrees_eq (s : Scope) (ms : List ApiMember) :
    ApiMember.pathTrees s ms = ms.filterMap fun m => if m.kind = .path then m.node.tree? s else none := by
  induction ms with
  | nil => rfl
  | cons m ms ih =>
    rw [ApiMember.pathTrees, ih]
    cases m <;> rfl

theorem Stands.within {above : List Identifier} {s : Scope} {name : Identifier} {n : Node} {t : SymbolTree}
    (hname : (s.qualify name).segments = above ++ [name]) (hn : At forest (.declaration s name) n)
    (ht : n.tree? (.declaration s name) = some t) :
    Stands forest (above ++ [name]) (Part.node (.declaration s name) n) t :=
  .node hn ht (congrArg (· ++ [t.name]) hname)

theorem stands_members {above : List Identifier} {s : Scope} {p : Path} (hp : At forest s (.path p))
    (hname : (s.qualify p.operation.name).segments = above ++ [p.operation.name]) :
    List.Forall₂ (Stands forest (above ++ [p.operation.name])) (node s (.path p)).contents (p.tree s).inside := by
  have hstands : ∀ m ∈ p.members, ∃ t, m.node.tree? (.declaration s p.operation.name) = some t ∧
      Stands forest (above ++ [p.operation.name]) (node (.declaration s p.operation.name) m.node) t := by
    intro m hm
    have hat := hp.child (List.mem_append_right _ (List.mem_map_of_mem hm))
    cases m <;> exact ⟨_, rfl, Stands.within hname hat rfl⟩
  obtain ⟨operation, filters, members⟩ := p
  -- The tree goes over the members three times, once for each kind.
  rw [contents, ApiMember.byKind, List.map_append, List.map_append, Path.tree]
  refine List.rel_append (List.rel_append ?_ ?_) ?_
  · refine forall₂_filterMap fun m hm => ?_
    cases m with
    | command => exact hstands _ hm
    | query | path => rfl
  · refine forall₂_filterMap fun m hm => ?_
    cases m with
    | query => exact hstands _ hm
    | command | path => rfl
  · rw [pathTrees_eq]
    refine forall₂_filterMap fun m hm => ?_
    cases m with
    | path => exact hstands _ hm
    | command | query => rfl

/-- **The trees inside a tree are those of the parts inside its part**, in order. -/
theorem Stands.inside {above : List Identifier} {p : Part} {t : SymbolTree} (h : Stands forest above p t) :
    List.Forall₂ (Stands forest (above ++ [t.name])) p.contents t.inside := by
  cases h with
  | @group g hg hname =>
    rw [Group.tree_eq, Group.trees_eq, ← hname]
    refine List.rel_append ?_ (forall₂_map fun c hc => ?_)
    · have hmembers : List.Forall₂ (Stands forest g.fullName.segments)
          ((g.members.filter fun _ => true).map fun m => Part.node m.2 m.1.node)
          (g.members.filterMap fun m => m.1.tree? m.2) := by
        refine forall₂_filterMap fun m hm => ?_
        obtain ⟨hat, hqualify⟩ := Group.at_of_mem_members hg hm
        obtain ⟨m, s⟩ := m
        cases m with
        | block b =>
          obtain ⟨f, -, hm⟩ := Group.mem_members.1 hm
          cases (Source.Fragment.mem_members.1 hm).2.1
        | entity | value | externalEnum | webApi => exact ⟨_, rfl, .node hat rfl (hqualify _)⟩
      rwa [List.filter_true] at hmembers
    · refine .group (Group.mem_all_of_mem_children hg hc) ?_
      exact congrArg QualifiedName.segments (Group.fullName_of_mem_children hg hc)
  | @node s n _ hn htree hname =>
    cases n with
    | entity e =>
      cases htree
      exact forall₂_map fun v hv => Stands.within hname (hn.child (List.mem_map.2 ⟨v, hv, rfl⟩)) rfl
    | path p => cases p; cases htree; exact stands_members hn hname
    | webApi p => cases p; cases htree; exact stands_members (hn.child List.mem_cons_self) hname
    | event | value | externalEnum | query | command => cases htree; exact .nil
    | tree | block | property | filter => cases htree

end Part
end DomainModel
