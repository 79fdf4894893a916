import DomainModel.Proofs.Graph.Bound
import DomainModel.Proofs.Graph.Building
import DomainModel.Proofs.Group.Stack
import DomainModel.Proofs.Rules.Passed
import DomainModel.Proofs.Table.Passed
import Mathlib.Data.List.Forall2
/-!
# Types — the types of a graph in the order of the passes

The collector and the inspector go through groups by a stack, the builder by recursion, and all come to the declarations
in one order.  Trees are aligned with places (`SymbolTree.Aligned`) if those that declare a name are, one after the other,
the trees of the nodes that declare one.  This goes through from the parts of a member to the groups
(`SymbolTree.aligned_trees`), so the types of a graph, by number, are the declarations as the passes meet them
(`Graph.types_in_passing_order`).
-/
namespace DomainModel

open Source (ApiMember Entity Event Member Node Path Place Property Value)

namespace Source

def declaring (ps : List Place) : List Place := ps.filter fun p => (p.2.declaration? p.1).isSome

theorem declaring_append (ps qs : List Place) : declaring (ps ++ qs) = declaring ps ++ declaring qs :=
  List.filter_append ..

theorem declaring_eq_nil {ps : List Place} (h : ps.filterMap (fun p => p.2.declaration? p.1) = []) :
    declaring ps = [] := by
  rw [List.filterMap_eq_nil_iff] at h
  exact List.filter_eq_nil_iff.2 fun p hp => by rw [h p hp]; exact Bool.false_ne_true

end Source

namespace SymbolTree

variable {parent : Option SymbolId} {above : List Identifier} {start : Nat}

def declaring (qs : List Located) : List Located := qs.filter (·.tree.declares.isSome)

theorem declaring_cons_of_none {q : Located} (h : q.tree.declares = none) (qs : List Located) :
    declaring (q :: qs) = declaring qs := by
  rw [declaring, List.filter_cons, h]
  rfl

theorem declaring_cons_of_some {q : Located} {name : QualifiedName} (h : q.tree.declares = some name)
    (qs : List Located) : declaring (q :: qs) = q :: declaring qs := by
  rw [declaring, List.filter_cons, h]
  rfl

/-- **The trees that declare are those of the places that declare**, in one order, wherever the trees are placed. -/
def Aligned (ts : List SymbolTree) (ps : List Place) : Prop :=
  ∀ parent above start, List.Forall₂ (fun q p => p.2.tree? p.1 = some q.tree)
    (declaring (locateAll parent above start ts)) (Source.declaring ps)

namespace Aligned

variable {ts us : List SymbolTree} {ps qs : List Place} {t : SymbolTree}

theorem append (hts : Aligned ts ps) (hus : Aligned us qs) : Aligned (ts ++ us) (ps ++ qs) := by
  intro parent above start
  rw [locateAll_append, declaring, List.filter_append, Source.declaring_append]
  exact List.rel_append (hts ..) (hus ..)

theorem of_nothing (hts : ∀ parent above start, ∀ q ∈ locateAll parent above start ts, q.tree.declares = none)
    (hps : ps.filterMap (fun p => p.2.declaration? p.1) = []) : Aligned ts ps := by
  intro parent above start
  rw [Source.declaring_eq_nil hps, declaring,
    List.filter_eq_nil_iff.2 fun q hq => by rw [hts _ _ _ q hq]; exact Bool.false_ne_true]
  exact .nil

theorem flatMap {α : Type} {f : α → List SymbolTree} {g : α → List Place} : ∀ {as : List α},
    (∀ a ∈ as, Aligned (f a) (g a)) → Aligned (as.flatMap f) (as.flatMap g)
  | [], _ => fun _ _ _ => .nil
  | a :: as, h => by
    obtain ⟨ha, has⟩ := List.forall_mem_cons.1 h
    exact ha.append (flatMap has)

theorem space (ht : t.declares = none) (hin : Aligned t.inside ps) : Aligned [t] ps := by
  intro parent above start
  rw [locateAll_singleton, declaring_cons_of_none ht]
  exact hin ..

/-- **The tree of a node comes where the node does**, before what is inside. -/
theorem node {s : Scope} {n : Node} {d : Declaration} (ht : n.tree? s = some t) (hd : n.declaration? s = some d)
    (hin : Aligned t.inside ps) : Aligned [t] ((s, n) :: ps) := by
  intro parent above start
  have hdeclares : t.declares = some d.fullName := by rw [(Node.declares_of_tree? ht).1, hd]; rfl
  rw [locateAll_singleton, declaring_cons_of_some hdeclares, Source.declaring,
    List.filter_cons_of_pos (by rw [hd]; rfl)]
  exact .cons ht (hin ..)

theorem leaf {s : Scope} {n : Node} {d : Declaration} (ht : n.tree? s = some t) (hd : n.declaration? s = some d)
    (hin : t.inside = []) (hps : ps.filterMap (fun p => p.2.declaration? p.1) = []) : Aligned [t] ((s, n) :: ps) :=
  node ht hd (of_nothing (by rw [hin]; exact fun _ _ _ _ h => absurd h List.not_mem_nil) hps)

end Aligned

theorem aligned_event (s : Scope) (e : Event) : Aligned [e.tree s] (e.places s) :=
  .leaf (n := .event e) rfl rfl rfl (Source.filterMap_leaf (fun _ => rfl) e.properties)

theorem aligned_entity (s : Scope) (e : Entity) : Aligned [e.tree s] (e.places s) := by
  refine .node (n := .entity e) rfl rfl ?_
  rw [Entity.tree, List.map_eq_flatMap]
  exact .flatMap fun v _ => aligned_event (.declaration s e.name) v

theorem aligned_value (s : Scope) (v : Value) : Aligned [v.tree s] (v.places s) :=
  .leaf (n := .value v) rfl rfl rfl (Source.filterMap_leaf (fun _ => rfl) v.properties)

-- The root path is a place of its own below the API, but the API has declared its name before.
theorem aligned_root (s : Scope) (p : Path) : Aligned [p.rootTree s] ((s, .webApi p) :: p.places s) :=
  .node (n := .webApi p) rfl rfl
    (.of_nothing (fun _ _ _ _ hq => Path.declares_of_mem_inside hq) (p.filterMap_declaration? s))

theorem aligned_member (s : Scope) (m : Member) : Aligned (m.tree? s).toList (m.places s) := by
  cases m with
  | block b => exact fun _ _ _ => .nil
  | entity e => exact aligned_entity s e
  | value v => exact aligned_value s v
  | externalEnum e => exact .leaf (n := .externalEnum e) rfl rfl rfl rfl
  | webApi root => exact aligned_root s root

theorem aligned_members (ms : List (Member × Scope)) :
    Aligned (ms.filterMap fun m => m.1.tree? m.2) (ms.flatMap fun m => m.1.places m.2) := by
  rw [List.filterMap_eq_flatMap_toList]
  exact .flatMap fun m _ => aligned_member m.2 m.1

mutual

/-- **A group and the groups inside it have the trees of their members in order.** -/
theorem aligned_tree : ∀ g : Group, Aligned [g.tree] (g.preorder.flatMap Group.places)
  | ⟨fullName, fragments, children⟩ => by
    rw [Group.preorder, List.flatMap_cons]
    exact .space rfl ((aligned_members _).append (aligned_trees children))

theorem aligned_trees : ∀ gs : List Group, Aligned (Group.trees gs) ((Group.preorderAll gs).flatMap Group.places)
  | [] => fun _ _ _ => .nil
  | g :: gs => by
    rw [Group.trees, Group.preorderAll, List.flatMap_append]
    exact (aligned_tree g).append (aligned_trees gs)

end

end SymbolTree

namespace Graph

open SymbolTree (declaring declaring_cons_of_none declaring_cons_of_some locateAll)

variable {groups : List Group} {t : Table}

/-! ## The types of a graph -/

theorem pairwise_typeIds (g : Graph) : g.typeIds.Pairwise fun i j => i.index < j.index := by
  refine List.Pairwise.filter _ ?_
  rw [ids, List.pairwise_map]
  exact List.pairwise_lt_range

theorem mem_typeIds_iff {g : Graph} {id : SymbolId} :
    id ∈ g.typeIds ↔ ∃ x, g.symbol? id = some x ∧ x.isType = true := by
  rw [typeIds, List.mem_filter]
  constructor
  · rintro ⟨-, h⟩
    cases hx : g.symbol? id with
    | none => rw [hx] at h; cases h
    | some x => rw [hx] at h; exact ⟨x, rfl, h⟩
  · rintro ⟨x, hx, h⟩
    exact ⟨mem_ids_of_symbol? hx, by rw [hx]; exact h⟩

theorem isType_symbol {q : Located} (hq : q ∈ locateAll none [] 0 (Group.trees groups)) :
    q.symbol.isType = q.tree.declares.isSome := by
  have hkind : q.symbol.isType = q.tree.content.kind.declarationKind?.isSome := by
    rw [Symbol.isType, Symbol.declarationKind?, Symbol.kind, Located.symbol, SymbolTree.kind_withChildren]
  rw [hkind]
  rcases SymbolTree.cases_of_mem_locateAll hq with ⟨g, htree⟩ | ⟨s, n, htree⟩
  · rw [htree, Group.tree_eq]
    rfl
  · obtain ⟨hdeclares, hdeclared, -⟩ := Node.declares_of_tree? htree
    rw [hdeclares, hdeclared, Option.isSome_map, Option.isSome_map]

/-- **The types of a graph are the symbols of the trees that declare**, in order. -/
theorem typeIds_eq (groups : List Group) (t : Table) :
    (ofGroups groups t).typeIds = (declaring (locateAll none [] 0 (Group.trees groups))).map Located.id := by
  rw [typeIds, ids_ofGroups, List.filter_map, declaring]
  refine congrArg (List.map Located.id) (List.filter_congr fun q hq => ?_)
  rw [Function.comp_apply, symbol?_of_mem hq, Option.map_some, Option.getD_some, Symbol.isType_map,
    isType_symbol hq]

/-! ## What the types are -/

/-- **A type shows a declaration**: it is the symbol of the node that declares it. -/
structure ShowsType (g : Graph) (t : Table) (id : SymbolId) (p : Place) (x : GraphSymbol) (d : Declaration) : Prop where
  symbol : g.symbol? id = some x
  declared : p.2.declaration? p.1 = some d
  name : x.name = d.name
  kind : x.declarationKind? = some d.kind
  /-- A value made elsewhere is told from other values. -/
  symbolKind : p.2.symbolKind? = some x.kind
  /-- Each lookup holds what the reference that is written for it names in the graph. -/
  lookups : ∀ slot, x.lookup? slot = (p.2.written? p.1 slot).map (bind t g.index)

/-- **The types of a graph follow visited nodes and passed declarations**, one by one. -/
structure TypesFollow (g : Graph) (t : Table) (visited : List Place) (passed : List Declaration) : Prop where
  /-- What is passed is what the visited nodes declare. -/
  passed_eq : passed = visited.filterMap fun p => p.2.declaration? p.1
  ordered : g.typeIds.Pairwise fun i j => i.index < j.index
  /-- Every symbol that comes from a declaration is listed. -/
  mem_iff : ∀ id, id ∈ g.typeIds ↔ ∃ x, g.symbol? id = some x ∧ x.isType = true
  /-- A type shows the declaration of the visited node that has its place in the order. -/
  shows : List.Forall₂ (fun id p => ∃ x d, g.ShowsType t id p x d) g.typeIds (Source.declaring visited)
  /-- The index holds, by full name, the type of the declaration passed at its place in the order. -/
  index_eq : g.index = .ofList ((passed.map (·.fullName)).zip g.typeIds)

theorem forall₂_declaring (groups : List Group) :
    List.Forall₂ (fun q p => q ∈ declaring (locateAll none [] 0 (Group.trees groups)) ∧ p.2.tree? p.1 = some q.tree)
      (declaring (locateAll none [] 0 (Group.trees groups)))
      (Source.declaring ((Group.all groups).flatMap Group.places)) := by
  rw [Group.all_eq]
  exact (List.forall₂_and_left ..).2 ⟨fun _ hq => hq, SymbolTree.aligned_trees groups none [] 0⟩

theorem exists_declaration_of_declaring {qs : List Located} {q : Located} (hq : q ∈ declaring qs) {s : Scope} {n : Node}
    (htree : n.tree? s = some q.tree) : ∃ d, n.declaration? s = some d ∧ q.tree.declares = some d.fullName := by
  have hdeclares := (Node.declares_of_tree? htree).1
  have hsome : q.tree.declares.isSome = true := (List.mem_filter.1 hq).2
  rw [hdeclares, Option.isSome_map] at hsome
  obtain ⟨d, hd⟩ := Option.isSome_iff_exists.1 hsome
  exact ⟨d, hd, by rw [hdeclares, hd]; rfl⟩

-- Giving a symbol its children leaves its kind and its lookups as they stand in the tree.
theorem exists_showsType {q : Located} (hq : q ∈ declaring (locateAll none [] 0 (Group.trees groups))) {s : Scope}
    {n : Node} (htree : n.tree? s = some q.tree) :
    ∃ x d, (ofGroups groups t).ShowsType t q.id (s, n) x d := by
  obtain ⟨d, hd, -⟩ := exists_declaration_of_declaring hq htree
  obtain ⟨-, hkind, hname⟩ := Node.declares_of_tree? htree
  rw [hd] at hkind
  have hsymbolKind : q.symbol.kind = q.tree.content.kind := SymbolTree.kind_withChildren _ _
  refine ⟨_, d, symbol?_of_mem (List.mem_filter.1 hq).1, hd, ?name, ?kind, ?symbolKind, fun slot => ?lookups⟩
  case name =>
    rw [Declaration.name, hname d hd, Scope.last_qualify]
    rfl
  case kind =>
    rw [← Option.map_some, ← hkind, ← hsymbolKind]
    exact congrArg SymbolKind.declarationKind? (Content.kind_map _ _)
  case symbolKind =>
    rw [(Node.kind_of_tree? htree).1, ← hsymbolKind]
    exact congrArg some (Content.kind_map _ _).symm
  case lookups => rw [Symbol.lookup?_map, q.lookup?_symbol, Node.lookup?_tree htree]

theorem forall₂_filterMap_right {α β γ : Type} {R : α → β → Prop} {S : α → γ → Prop} {give? : β → Option γ}
    (hgive : ∀ a b, R a b → ∃ c, give? b = some c ∧ S a c) {as : List α} {bs : List β} (h : List.Forall₂ R as bs) :
    List.Forall₂ S as (bs.filterMap give?) := by
  induction h with
  | nil => exact .nil
  | cons hab _ ih =>
    obtain ⟨c, hc, hS⟩ := hgive _ _ hab
    rw [List.filterMap_cons_some hc]
    exact .cons hS ih

theorem declared_eq_declaring (groups : List Group) : Table.declared groups =
    (Source.declaring ((Group.all groups).flatMap Group.places)).filterMap fun p => p.2.declaration? p.1 := by
  rw [Group.declared_eq, Source.declaring, List.filterMap_filter]
  refine congrArg (List.filterMap · _) (funext fun p => ?_)
  cases p.2.declaration? p.1 <;> rfl

/-- **The names declared among placed trees are those of the declarations**, each with the number of its tree. -/
theorem declaredFrom_eq_zip : ∀ {start : Nat} {qs : List Located} {ds : List Declaration},
    qs.map Located.number = List.range' start qs.length →
    List.Forall₂ (fun q d => q.tree.declares = some d.fullName) (declaring qs) ds →
      declaredFrom start (qs.map Located.placed) = (ds.map (·.fullName)).zip ((declaring qs).map Located.id)
  | _, [], _, _, h => by cases h; rfl
  | start, q :: qs, ds, hnum, h => by
    rw [List.map_cons, List.length_cons, List.range'_succ, List.cons.injEq] at hnum
    obtain ⟨rfl, hnum⟩ := hnum
    rw [List.map_cons, declaredFrom]
    cases hq : q.tree.declares with
    | none =>
      rw [declaring_cons_of_none hq] at h ⊢
      rw [declaredFrom_eq_zip hnum h, Located.placed, hq]
      rfl
    | some name =>
      rw [declaring_cons_of_some hq] at h ⊢
      cases h with
      | @cons _ d _ ds hd hds =>
        rw [declaredFrom_eq_zip hnum hds, Located.placed, hd]
        rfl

theorem index_ofGroups (groups : List Group) (t : Table) : (ofGroups groups t).index =
    .ofList (((Table.declared groups).map (·.fullName)).zip (ofGroups groups t).typeIds) := by
  have hdeclared : List.Forall₂ (fun (q : Located) d => q.tree.declares = some d.fullName)
      (declaring (locateAll none [] 0 (Group.trees groups))) (Table.declared groups) := by
    rw [declared_eq_declaring]
    exact forall₂_filterMap_right (fun _ _ h => exists_declaration_of_declaring h.1 h.2) (forall₂_declaring groups)
  have hnum := SymbolTree.map_number_locateAll none [] 0 (Group.trees groups)
  rw [← SymbolTree.length_locateAll] at hnum
  rw [typeIds_eq, ← declaredFrom_eq_zip hnum hdeclared, ← SymbolTree.placeAll_eq]
  rfl

theorem typesFollow_ofGroups (groups : List Group) (t : Table) :
    (ofGroups groups t).TypesFollow t ((Group.all groups).flatMap Group.places) (Table.declared groups) where
  passed_eq := Group.declared_eq groups
  ordered := pairwise_typeIds _
  mem_iff _ := mem_typeIds_iff
  shows := by
    rw [typeIds_eq, List.forall₂_map_left_iff]
    exact (forall₂_declaring groups).imp fun _ _ h => exists_showsType h.1 h.2
  index_eq := index_ofGroups groups t

/-- **Going through groups by a stack is going through them in pre-order, and the types of the graph that is built follow
it.**  The stack gives a group and the groups inside it, whatever rounds are to spare, and all groups of a list stand in
the order of their addresses, each once.  A collector and an inspector sent through them end as they do by themselves.
A graph is built if there are numbers enough, and its types are, one by one, the symbols of the declaring nodes that the
inspector visits and of the declarations that the collector passes. -/
theorem types_in_passing_order (groups : List Group) (outside : Universe) (t : Table) (circles : Bool) (report : Report) :
    let passing := Collector.passing groups outside report
    let visiting := Inspector.passing circles groups t report
    (∀ (g : Group) (spare : Nat), GroupStack.runWithin (g.count + 1 + spare) ⟨[], [g]⟩ = some g.descendants ∧
      g.descendants = g.preorder) ∧
    Group.all groups = Group.preorderAll groups ∧
    (∃ addresses, Address.IsPreorder Group.children (fun _ => false) groups addresses (Group.all groups)) ∧
    (passing.state.table, passing.state.report) = Collector.collect groups outside report ∧
    visiting.state.report = Inspector.inspect circles groups t report ∧
    ((∃ g, Builder.build groups t = .ok g) ↔ SymbolTree.sizeAll (Group.trees groups) ≤ Builder.capacity) ∧
    ∀ g, Builder.build groups t = .ok g → g.TypesFollow t visiting.notes passing.notes := by
  intro passing visiting
  have hpassing : passing = _ := Collector.passing_eq groups outside report
  have hvisiting : visiting = _ := Inspector.passing_eq circles groups t report
  refine ⟨fun g spare => ⟨?stack, g.descendants_eq⟩, Group.all_eq groups, Group.exists_isPreorder_all groups, ?collected,
    ?inspected, ?built, fun g hg => ?follow⟩
  case stack =>
    rw [g.descendants_eq]
    exact Group.runWithin_single (by omega)
  case collected =>
    rw [hpassing]
    rfl
  case inspected =>
    rw [hvisiting]
    rfl
  case built => simp only [Builder.build_eq_ok_iff, exists_and_left, exists_eq', and_true]
  case follow =>
    obtain ⟨-, rfl⟩ := Builder.build_eq_ok_iff.1 hg
    rw [hpassing, hvisiting]
    exact typesFollow_ofGroups groups t

theorem types_in_passing_order_shop :
    Builder.build (Group.merge Source.Small.shop) (.empty .empty) =
        .ok (ofGroups (Group.merge Source.Small.shop) (.empty .empty)) ∧
      (ofGroups (Group.merge Source.Small.shop) (.empty .empty)).TypesFollow (.empty .empty)
        (Inspector.passing true (Group.merge Source.Small.shop) (.empty .empty) .empty).notes
        (Collector.passing (Group.merge Source.Small.shop) .empty .empty).notes := by
  have h : Builder.build (Group.merge Source.Small.shop) (.empty .empty) =
      .ok (ofGroups (Group.merge Source.Small.shop) (.empty .empty)) := Builder.build_eq _ (by decide)
  obtain ⟨-, -, -, -, -, -, hfollow⟩ :=
    types_in_passing_order (Group.merge Source.Small.shop) .empty (.empty .empty) true .empty
  exact ⟨h, hfollow _ h⟩

end Graph
end DomainModel
