import DomainModel.Proofs.Group.Partition
import DomainModel.Proofs.Symbol.Located
/-!
# Origin — where the symbols of a forest come from

Every tree among the trees of groups is that of a group or of a node (`SymbolTree.cases_of_mem_locateAll`).  In a forest
it is the namespace of a group or the tree of a node where that is written, and stands below the names that make up the
full name (`origin_of_mem_locate`).  The other way round, every declared name is declared by one of the trees
(`exists_located_of_declared`).
-/
namespace DomainModel

open Source (ApiMember At Atom Event Member Node Operation Path Property Query)

namespace Source

/-- **The tree of a node** where it is written; blocks are brought together in groups, and properties and filters are part
of what holds them. -/
def Node.tree? (s : Scope) : Node → Option SymbolTree
  | .entity e => some (e.tree s)
  | .event e => some (e.tree s)
  | .value v => some (v.tree s)
  | .externalEnum e => some (e.tree s)
  | .webApi root => some (root.rootTree s)
  | .path p => some (p.tree s)
  | .query q => some (q.tree s)
  | .command o => some (o.commandTree s)
  | .tree _ | .block _ | .property _ | .filter _ => none

theorem segments_qualify_scope (f : Fragment) (name : Identifier) :
    (f.scope.qualify name).segments = f.fullName.segments ++ [name] := rfl

theorem Member.tree?_eq (s : Scope) (m : Member) : m.tree? s = m.node.tree? s := by cases m <;> rfl

theorem ApiMember.mem_pathTrees {s : Scope} {t : SymbolTree} {ms : List ApiMember} :
    t ∈ ApiMember.pathTrees s ms ↔ ∃ p, .path p ∈ ms ∧ t = p.tree s := by
  induction ms with
  | nil => simp [ApiMember.pathTrees]
  | cons m ms ih =>
    rw [ApiMember.pathTrees, List.mem_append, ih]
    cases m with
    | command | query => simp [ApiMember.pathTree]
    | path p =>
      simp only [ApiMember.pathTree, List.mem_cons, List.not_mem_nil, or_false]
      constructor
      · rintro (rfl | ⟨q, hq, rfl⟩)
        · exact ⟨p, .inl rfl, rfl⟩
        · exact ⟨q, .inr hq, rfl⟩
      · rintro ⟨q, hq | hq, rfl⟩
        · cases hq; exact .inl rfl
        · exact .inr ⟨q, hq, rfl⟩

/-- **The trees inside a path are those of its members.** -/
theorem Path.exists_member_of_mem_inside {s : Scope} {p : Path} {t : SymbolTree} (ht : t ∈ (p.tree s).inside) :
    ∃ m ∈ p.members, m.node.tree? (.declaration s p.operation.name) = some t := by
  obtain ⟨operation, filters, members⟩ := p
  rw [Path.tree] at ht
  simp only [List.mem_append, List.mem_filterMap, ApiMember.mem_pathTrees] at ht
  rcases ht with (⟨m, hm, h⟩ | ⟨m, hm, h⟩) | ⟨p, hp, rfl⟩
  · refine ⟨m, hm, ?_⟩
    cases m with
    | command o => exact h
    | query | path => cases h
  · refine ⟨m, hm, ?_⟩
    cases m with
    | query q => exact h
    | command | path => cases h
  · exact ⟨.path p, hp, rfl⟩

theorem ApiMember.declares_of_tree? {s : Scope} {m : ApiMember} {t : SymbolTree} (h : m.node.tree? s = some t) :
    t.declares = none := by
  cases m with
  | path p => cases p; cases h; rfl
  | command | query => cases h; rfl

/-- **What is inside the tree of a node is the tree of a node.** -/
theorem Node.exists_tree?_of_mem_inside {s : Scope} {n : Node} {t c : SymbolTree} (h : n.tree? s = some t)
    (hc : c ∈ t.inside) : ∃ s' n', Node.tree? s' n' = some c := by
  cases n with
  | entity e =>
    cases h
    obtain ⟨v, -, rfl⟩ := List.mem_map.1 hc
    exact ⟨.declaration s e.name, .event v, rfl⟩
  | path p =>
    cases h
    obtain ⟨m, -, hm⟩ := Path.exists_member_of_mem_inside hc
    exact ⟨_, _, hm⟩
  | webApi root =>
    cases h
    obtain ⟨m, -, hm⟩ := Path.exists_member_of_mem_inside (p := root) hc
    exact ⟨_, _, hm⟩
  | value | event | externalEnum | query | command => cases h; cases hc
  | tree | block | property | filter => cases h

/-- **Nothing inside a path declares a name**, at whatever depth. -/
theorem Path.declares_of_mem_inside {s : Scope} {p : Path} {parent : Option SymbolId} {above : List Identifier}
    {start : Nat} {q : Located} (hq : q ∈ SymbolTree.locateAll parent above start (p.tree s).inside) :
    q.tree.declares = none := by
  -- Whatever is inside a path is the tree of a member of some path.
  have hmember := SymbolTree.forall_mem_locateAll
    (P := fun _ t => ∃ (m : ApiMember) (s : Scope), m.node.tree? s = some t) (fun _ t ht c hc => ?_) (fun t ht => ?_) hq
  · obtain ⟨m, s, hm⟩ := hmember
    exact m.declares_of_tree? hm
  · obtain ⟨m, s, hm⟩ := ht
    cases m with
    | path p =>
      cases hm
      obtain ⟨m, -, hm⟩ := Path.exists_member_of_mem_inside hc
      exact ⟨m, _, hm⟩
    | command | query => cases hm; cases hc
  · obtain ⟨m, -, hm⟩ := Path.exists_member_of_mem_inside ht
    exact ⟨m, _, hm⟩

end Source

namespace Group

theorem tree_eq (g : Group) : g.tree =
    { name := g.name, tags := .empty, content := .space .unassigned, declares := none
      inside := g.members.filterMap (fun m => m.1.tree? m.2) ++ trees g.children } := by
  cases g; rfl

@[simp] theorem name_tree (g : Group) : g.tree.name = g.name := by cases g; rfl

theorem trees_eq (gs : List Group) : trees gs = gs.map tree := by
  induction gs with
  | nil => rfl
  | cons g gs ih => rw [trees, ih, List.map_cons]

theorem self_mem_preorder (g : Group) : g ∈ g.preorder := by
  rw [preorder_eq]
  exact List.mem_cons_self

theorem subset_all {gs : List Group} {g : Group} (hg : g ∈ gs) : g ∈ all gs := by
  rw [all_eq, preorderAll_eq_flatMap]
  exact List.mem_flatMap.2 ⟨g, hg, g.self_mem_preorder⟩

mutual

theorem mem_preorder_of_mem_children {c g : Group} (hc : c ∈ g.children) : ∀ {top : Group}, g ∈ top.preorder →
    c ∈ top.preorder
  | ⟨fullName, fragments, children⟩, hg => by
    rw [preorder] at hg ⊢
    rcases List.mem_cons.1 hg with rfl | hg
    · refine List.mem_cons_of_mem _ ?_
      rw [preorderAll_eq_flatMap]
      exact List.mem_flatMap.2 ⟨c, hc, c.self_mem_preorder⟩
    · exact List.mem_cons_of_mem _ (mem_preorderAll_of_mem_children hc hg)

theorem mem_preorderAll_of_mem_children {c g : Group} (hc : c ∈ g.children) : ∀ {gs : List Group},
    g ∈ preorderAll gs → c ∈ preorderAll gs
  | [], hg => by cases hg
  | top :: gs, hg => by
    rw [preorderAll, List.mem_append] at hg ⊢
    rcases hg with hg | hg
    · exact .inl (mem_preorder_of_mem_children hc hg)
    · exact .inr (mem_preorderAll_of_mem_children hc hg)

end

theorem mem_all_of_mem_children {c g : Group} {gs : List Group} (hg : g ∈ all gs) (hc : c ∈ g.children) : c ∈ all gs := by
  rw [all_eq] at hg ⊢
  exact mem_preorderAll_of_mem_children hc hg

variable {forest : List Source.Tree}

/-- **The members of a group are written in the forest**, in a scope of the group's full name. -/
theorem at_of_mem_members {g : Group} (hg : g ∈ all (merge forest)) {m : Member} {s : Scope} (hm : (m, s) ∈ g.members) :
    At forest s m.node ∧ ∀ name, (s.qualify name).segments = g.fullName.segments ++ [name] := by
  obtain ⟨f, hf, hfm⟩ := mem_members.1 hm
  obtain ⟨hblock, -, rfl⟩ := Source.Fragment.mem_members.1 hfm
  have hforest : f ∈ fragmentsOf forest := (fragments_merge_perm forest).mem_iff.1 (List.mem_flatMap.2 ⟨g, hg, hf⟩)
  refine ⟨(Source.at_of_mem_fragmentsOf hforest).child (List.mem_map.2 ⟨m, hblock, rfl⟩), fun name => ?_⟩
  rw [Source.segments_qualify_scope, fullName_of_mem_fragments hg hf]

end Group

/-- **A tree among the trees of groups is that of a group or of a node.** -/
theorem SymbolTree.cases_of_mem_locateAll {groups : List Group} {parent : Option SymbolId} {above : List Identifier}
    {start : Nat} {q : Located} (hq : q ∈ locateAll parent above start (Group.trees groups)) :
    (∃ g : Group, q.tree = g.tree) ∨ ∃ s n, Node.tree? s n = some q.tree := by
  refine forall_mem_locateAll (P := fun _ t => (∃ g : Group, t = g.tree) ∨ ∃ s n, Node.tree? s n = some t)
    (fun _ t ht c hc => ?_) (fun t ht => ?_) hq
  · rcases ht with ⟨g, rfl⟩ | ⟨s, n, htree⟩
    · rw [Group.tree_eq, List.mem_append, List.mem_filterMap, Group.trees_eq, List.mem_map] at hc
      rcases hc with ⟨⟨m, s⟩, -, hm⟩ | ⟨inner, -, rfl⟩
      · exact .inr ⟨s, m.node, Source.Member.tree?_eq s m ▸ hm⟩
      · exact .inl ⟨inner, rfl⟩
    · exact .inr (Source.Node.exists_tree?_of_mem_inside htree hc)
  · rw [Group.trees_eq] at ht
    obtain ⟨g, -, rfl⟩ := List.mem_map.1 ht
    exact .inl ⟨g, rfl⟩

/-- **Where a tree comes from**, and the names of which its full name is made. -/
inductive Origin (forest : List Source.Tree) : List Identifier → SymbolTree → Prop
  /-- A namespace of the forest. -/
  | group {g : Group} : g ∈ Group.all (Group.merge forest) → Origin forest g.fullName.segments g.tree
  /-- A node of the forest where it is written. -/
  | node {s : Scope} {n : Node} {t : SymbolTree} : At forest s n → n.tree? s = some t →
      Origin forest (s.qualify t.name).segments t

variable {forest : List Source.Tree}

/-- **What is inside a tree has an origin as well**, one name further down. -/
theorem Origin.inside {path : List Identifier} {t : SymbolTree} (h : Origin forest path t) {c : SymbolTree}
    (hc : c ∈ t.inside) : Origin forest (path ++ [c.name]) c := by
  cases h with
  | @group g hg =>
    rw [Group.tree_eq, List.mem_append, List.mem_filterMap, Group.trees_eq, List.mem_map] at hc
    rcases hc with ⟨⟨m, s⟩, hm, htree⟩ | ⟨inner, hinner, rfl⟩
    · obtain ⟨hat, hname⟩ := Group.at_of_mem_members hg hm
      rw [← hname]
      exact .node hat (Member.tree?_eq s m ▸ htree)
    · have hname := congrArg QualifiedName.segments (Group.fullName_of_mem_children hg hinner)
      rw [QualifiedName.segments_child] at hname
      rw [Group.name_tree, ← hname]
      exact .group (Group.mem_all_of_mem_children hg hinner)
  | @node s n t hn htree =>
    -- A web API stands for its root path, whose members are two steps below it.
    have hmembers : ∀ {p : Path}, At forest s (.path p) → c ∈ (p.tree s).inside →
        Origin forest ((s.qualify p.operation.name).segments ++ [c.name]) c := by
      intro p hp hc
      obtain ⟨m, hm, hmt⟩ := Path.exists_member_of_mem_inside hc
      exact .node (hp.child (List.mem_append_right _ (List.mem_map.2 ⟨m, hm, rfl⟩))) hmt
    cases n with
    | entity e =>
      cases htree
      obtain ⟨v, hv, rfl⟩ := List.mem_map.1 hc
      exact .node (hn.child (List.mem_map.2 ⟨v, hv, rfl⟩)) rfl
    | path p => cases htree; cases p; exact hmembers hn hc
    | webApi root => cases htree; cases root; exact hmembers (hn.child List.mem_cons_self) hc
    | value v => cases htree; cases hc
    | event | externalEnum | query | command => cases htree; cases hc
    | tree | block | property | filter => cases htree

/-- **The trees of a forest in their places.** -/
def locate (forest : List Source.Tree) : List Located := SymbolTree.locateAll none [] 0 (Group.trees (Group.merge forest))

/-- **Every tree of a forest has an origin**, and stands below the names that make up its full name. -/
theorem origin_of_mem_locate {q : Located} (hq : q ∈ locate forest) : Origin forest q.path q.tree := by
  refine SymbolTree.forall_mem_locateAll (P := fun above t => Origin forest (above ++ [t.name]) t)
    (fun above t ht c hc => ht.inside hc) (fun t ht => ?_) hq
  rw [Group.trees_eq] at ht
  obtain ⟨g, hg, rfl⟩ := List.mem_map.1 ht
  have h := Origin.group (Group.subset_all hg)
  rwa [Group.fullName_of_mem_merge hg, ← Group.name_tree] at h

/-- A tree of a forest is the namespace of a group, or the tree of a node where it is written. -/
theorem Located.origin_cases {q : Located} (hq : q ∈ locate forest) :
    (∃ g ∈ Group.all (Group.merge forest), q.tree = g.tree ∧ q.path = g.fullName.segments) ∨
      ∃ s n, At forest s n ∧ n.tree? s = some q.tree ∧ q.path = (s.qualify q.tree.name).segments := by
  have h := origin_of_mem_locate hq
  generalize q.path = path at h ⊢
  generalize q.tree = t at h ⊢
  cases h with
  | group hg => exact .inl ⟨_, hg, rfl, rfl⟩
  | node hn ht => exact .inr ⟨_, _, hn, ht, rfl⟩

/-! ## Everything declared has a tree -/

theorem exists_located_of_inside {q : Located} (hq : q ∈ locate forest) {c : SymbolTree} (hc : c ∈ q.tree.inside) :
    ∃ p ∈ locate forest, p.tree = c := by
  obtain ⟨p, hp, hpc⟩ := SymbolTree.exists_located_of_mem (some q.id) q.path (q.number + 1) hc
  exact ⟨p, SymbolTree.mem_locateAll_of_inside hq hp, hpc⟩

mutual

theorem exists_located_of_mem_preorder {g : Group} : ∀ {top : Group}, (∃ q ∈ locate forest, q.tree = top.tree) →
    g ∈ top.preorder → ∃ q ∈ locate forest, q.tree = g.tree
  | ⟨fullName, fragments, children⟩, htop, hg => by
    rw [Group.preorder] at hg
    rcases List.mem_cons.1 hg with rfl | hg
    · exact htop
    · obtain ⟨q, hq, htree⟩ := htop
      refine exists_located_of_mem_preorderAll (fun c hc => exists_located_of_inside hq ?_) hg
      rw [htree, Group.tree_eq, Group.trees_eq]
      exact List.mem_append_right _ (List.mem_map_of_mem hc)

theorem exists_located_of_mem_preorderAll {g : Group} : ∀ {gs : List Group},
    (∀ c ∈ gs, ∃ q ∈ locate forest, q.tree = c.tree) → g ∈ Group.preorderAll gs → ∃ q ∈ locate forest, q.tree = g.tree
  | [], _, hg => by cases hg
  | top :: gs, h, hg => by
    rw [Group.preorderAll, List.mem_append] at hg
    rcases hg with hg | hg
    · exact exists_located_of_mem_preorder (h top List.mem_cons_self) hg
    · exact exists_located_of_mem_preorderAll (fun c hc => h c (List.mem_cons_of_mem _ hc)) hg

end

/-- **Every group of a forest is a tree of the forest.** -/
theorem exists_located_of_mem_all {g : Group} (hg : g ∈ Group.all (Group.merge forest)) :
    ∃ q ∈ locate forest, q.tree = g.tree := by
  rw [Group.all_eq] at hg
  refine exists_located_of_mem_preorderAll (fun c hc => ?_) hg
  refine SymbolTree.exists_located_of_mem none [] 0 ?_
  rw [Group.trees_eq]
  exact List.mem_map_of_mem hc

/-- **Every declared name is declared by a tree of the forest.** -/
theorem exists_located_of_declared {d : Declaration} (hd : d ∈ Table.declared (Group.merge forest)) :
    ∃ q ∈ locate forest, q.tree.declares = some d.fullName := by
  obtain ⟨g, hg, hd⟩ := List.mem_flatMap.1 hd
  obtain ⟨⟨m, s⟩, hm, hd⟩ := List.mem_flatMap.1 hd
  obtain ⟨q, hq, htree⟩ := exists_located_of_mem_all hg
  have hmember : ∀ {t : SymbolTree}, m.tree? s = some t → ∃ p ∈ locate forest, p.tree = t := by
    intro t ht
    refine exists_located_of_inside hq ?_
    rw [htree, Group.tree_eq]
    exact List.mem_append_left _ (List.mem_filterMap.2 ⟨(m, s), hm, ht⟩)
  cases m with
  | block b => cases hd
  | entity e =>
    obtain ⟨p, hp, hpt⟩ := hmember rfl
    rcases List.mem_cons.1 hd with rfl | hd
    · exact ⟨p, hp, by rw [hpt]; rfl⟩
    · obtain ⟨v, hv, rfl⟩ := List.mem_map.1 hd
      obtain ⟨r, hr, hrt⟩ := exists_located_of_inside hp (c := v.tree (.declaration s e.name)) (by
        rw [hpt]
        exact List.mem_map.2 ⟨v, hv, rfl⟩)
      exact ⟨r, hr, by rw [hrt]; rfl⟩
  | value | externalEnum | webApi =>
    obtain ⟨p, hp, hpt⟩ := hmember rfl
    rw [List.mem_singleton.1 hd]
    exact ⟨p, hp, by rw [hpt]; rfl⟩

end DomainModel
