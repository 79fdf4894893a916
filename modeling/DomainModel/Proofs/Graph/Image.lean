import DomainModel.Proofs.Graph.Part
import DomainModel.Proofs.Tag.Grouping
/-!
# Image — a compiled graph shows its forest

The symbols of a compiled graph stand for the groups and the nodes of the forest, each once (`Graph.IsImage`): a symbol
keeps what its node says (`Source.Node.Keeps`), and its children are the symbols of what is inside, in order.
-/
namespace DomainModel

open Source (At Atom Node Obeys Operation OperationObeys Path Property Tree)

namespace Source

/-! ## What a node says -/

namespace Node

def tags : Node → List Tag
  | entity e => e.tags
  | event e => e.tags
  | value v => v.tags
  | externalEnum e => e.tags
  | webApi p | path p => p.operation.tags
  | query q => q.operation.tags
  | command o => o.tags
  | property p => p.atom.tags
  | filter a => a.tags
  | tree _ | block _ => []

/-- Whether a node is marked abstract, where that is kept. -/
def isAbstract? : Node → Option Bool
  | entity e => some e.isAbstract
  | event e => some e.isAbstract
  | value v => if v.isExternal then none else some v.isAbstract
  | _ => none

def base? : Node → Option Reference
  | entity e => e.base
  | event e => e.base
  | value v => v.base
  | _ => none

def identity? : Node → Option Reference
  | entity e => e.identity
  | _ => none

/-- The properties that are kept: of an external value none. -/
def properties : Node → List Property
  | event e => e.properties
  | value v => if v.isExternal then [] else v.properties
  | _ => []

/-- The properties by which values are compared; an external value has none to compare by. -/
def equalBy? : Node → Option (List Identifier)
  | value v => if v.isExternal then none else some v.equalBy
  | _ => none

/-- The operation that a node is, with its kind; that of a web API is its root path. -/
def operation? : Node → Option (OperationKind × Operation)
  | webApi p | path p => some (.path, p.operation)
  | query q => some (.query, q.operation)
  | command o => some (.command, o)
  | _ => none

def filters : Node → List Atom
  | webApi p | path p => p.filters
  | query q => q.filters
  | _ => []

end Node

/-! ## What a symbol keeps -/

/-- **An atom is kept**, under an alias if it has one. -/
structure Atom.Keeps (aliasName : Option Identifier) (a : Atom) (x : GraphAtom) : Prop where
  name : x.name = a.name
  tags : x.tags.IsGrouping a.tags
  cardinality : x.type.cardinality = a.type.cardinality
  aliasName : x.aliasName = aliasName

/-- **An operation is kept**, with its argument if it has one. -/
structure Operation.Keeps (o : OperationKind × Operation) (x : OperationSymbol (Option TypeRef)) : Prop where
  kind : x.kind = o.1
  result : x.result.cardinality = o.2.result.cardinality
  argument : List.Forall₂ (Atom.Keeps none) o.2.arguments x.argument.toList

/-- **A node is kept by a symbol.** -/
structure Node.Keeps (n : Node) (x : GraphSymbol) : Prop where
  kind : n.symbolKind? = some x.kind
  name : n.name = x.name.text
  tags : x.tags.IsGrouping n.tags
  isAbstract : x.content.isAbstract? = n.isAbstract?
  base : x.content.base?.isSome = n.base?.isSome
  identity : x.content.identity?.map (·.cardinality) = n.identity?.map (·.cardinality)
  properties : List.Forall₂ (fun p => Atom.Keeps p.aliasName p.atom) n.properties x.content.properties
  equalBy : x.content.equalBy? = n.equalBy?
  operation : Option.Rel Operation.Keeps n.operation? x.content.operation?
  filters : List.Forall₂ (Atom.Keeps none) n.filters x.content.filters

theorem Atom.keeps_symbol (f : Written → Option TypeRef) (own : Scope) (a : Atom) :
    a.Keeps none ((a.symbol own).map f) :=
  ⟨rfl, TagSet.isGrouping_ofList _, rfl, rfl⟩

theorem Property.keeps_symbols (f : Written → Option TypeRef) (own : Scope) (ps : List Property) :
    List.Forall₂ (fun p => Atom.Keeps p.aliasName p.atom) ps ((ps.map (·.symbol own)).map (·.map f)) := by
  rw [List.map_map, List.forall₂_map_right_iff, List.forall₂_same]
  exact fun p _ => ⟨rfl, TagSet.isGrouping_ofList _, rfl, rfl⟩

theorem Atom.keeps_symbols (f : Written → Option TypeRef) (own : Scope) (as : List Atom) :
    List.Forall₂ (Atom.Keeps none) as ((as.map (·.symbol own)).map (·.map f)) := by
  rw [List.map_map, List.forall₂_map_right_iff, List.forall₂_same]
  exact fun a _ => a.keeps_symbol f own

theorem Operation.keeps_symbol (f : Written → Option TypeRef) (own : Scope) (kind : OperationKind) {o : Operation}
    (ho : o.arguments.length ≤ 1) : Operation.Keeps (kind, o) ((o.symbol own kind).map f) := by
  refine ⟨rfl, rfl, ?_⟩
  unfold symbol
  rcases ha : o.arguments with _ | ⟨a, _ | ⟨b, as⟩⟩
  · exact .nil
  · exact .cons (a.keeps_symbol f own) .nil
  · rw [ha] at ho
    simp at ho

/-- A node with few enough arguments. -/
def Node.IsNarrow (n : Node) : Prop := ∀ o, n.operation? = some o → o.2.arguments.length ≤ 1

/-- **The symbol of a node's tree keeps the node.** -/
theorem Node.keeps_of_tree? {s : Scope} {n : Node} {q : Located} (h : n.tree? s = some q.tree) (hn : n.IsNarrow)
    (f : Written → Option TypeRef) : n.Keeps (q.symbol.map f) := by
  have hbase : ∀ r : Option Reference, ((r.map (Reference.base s)).map f).isSome = r.isSome := by
    intro r
    rw [Option.isSome_map, Option.isSome_map]
  have hidentity : ∀ (own : Scope) (r : Option Reference),
      ((r.map (Reference.typeUse own)).map (·.map f)).map (·.cardinality) = r.map (·.cardinality) := by
    intro own r
    cases r <;> rfl
  obtain ⟨t, number, parent, above⟩ := q
  cases n with
  | entity e =>
    cases h
    exact ⟨rfl, rfl, TagSet.isGrouping_ofList _, rfl, hbase e.base, hidentity _ e.identity, .nil, rfl, .none, .nil⟩
  | event e =>
    cases h
    exact ⟨rfl, rfl, TagSet.isGrouping_ofList _, rfl, hbase e.base, rfl, Property.keeps_symbols f _ e.properties, rfl,
      .none, .nil⟩
  | value v =>
    obtain ⟨name, isAbstract, isExternal, base, properties, equalBy, tags⟩ := v
    cases isExternal with
    | true => cases h; exact ⟨rfl, rfl, TagSet.isGrouping_ofList _, rfl, hbase base, rfl, .nil, rfl, .none, .nil⟩
    | false =>
      cases h
      exact ⟨rfl, rfl, TagSet.isGrouping_ofList _, rfl, hbase base, rfl, Property.keeps_symbols f _ properties, rfl,
        .none, .nil⟩
  | externalEnum e => cases h; exact ⟨rfl, rfl, TagSet.isGrouping_ofList _, rfl, rfl, rfl, .nil, rfl, .none, .nil⟩
  | webApi p | path p =>
    cases p
    cases h
    exact ⟨rfl, rfl, TagSet.isGrouping_ofList _, rfl, rfl, rfl, .nil, rfl,
      .some (Operation.keeps_symbol f _ .path (hn _ rfl)), Atom.keeps_symbols f _ _⟩
  | query q =>
    cases h
    exact ⟨rfl, rfl, TagSet.isGrouping_ofList _, rfl, rfl, rfl, .nil, rfl,
      .some (Operation.keeps_symbol f _ .query (hn _ rfl)), Atom.keeps_symbols f _ q.filters⟩
  | command o =>
    cases h
    exact ⟨rfl, rfl, TagSet.isGrouping_ofList _, rfl, rfl, rfl, .nil, rfl,
      .some (Operation.keeps_symbol f _ .command (hn _ rfl)), .nil⟩
  | tree | block | property | filter => cases h

theorem isNarrow_of_obeys {outside : Universe} {forest : List Tree}
    (hobeys : ∀ s n, At forest s n → Obeys outside forest s n) {s : Scope} {n : Node} (hn : At forest s n) :
    n.IsNarrow := by
  intro o ho
  cases n with
  | path p => cases ho; exact (hobeys s _ hn).2.1
  | webApi p => cases ho; exact (hobeys s _ (hn.child List.mem_cons_self)).2.1
  | query q => cases ho; exact (hobeys s _ hn).2.1
  | command c => cases ho; exact (hobeys s _ hn).2.1
  | tree | block | entity | event | value | externalEnum | property | filter => cases ho

end Source

/-- **A part is kept by a symbol**: a node with all it says, a namespace with its name alone. -/
def Part.Keeps : Part → GraphSymbol → Prop
  | group g, x => x.kind = .space ∧ x.name = g.name ∧ x.tags = .empty
  | node _ n, x => n.Keeps x

variable {forest : List Tree}

theorem Part.Stands.keeps {outside : Universe} (hobeys : ∀ s n, At forest s n → Obeys outside forest s n) {p : Part}
    {above : List Identifier} {q : Located} (h : p.Stands forest above q.tree) (f : Written → Option TypeRef) :
    p.Keeps (q.symbol.map f) := by
  generalize htree : q.tree = t at h
  cases h with
  | group hg _ =>
    refine ⟨?_, ?_, ?_⟩
    · rw [Symbol.kind, Symbol.map, Content.kind_map, Located.symbol, SymbolTree.kind_withChildren, htree, Group.tree_eq]
      rfl
    · rw [Symbol.map, Located.symbol, htree, Group.name_tree]
    · rw [Symbol.map, Located.symbol, htree, Group.tree_eq]
  | node hn ht _ => exact Source.Node.keeps_of_tree? (htree ▸ ht) (Source.isNarrow_of_obeys hobeys hn) f

theorem Part.Stands.segments_fullName {p : Part} {above : List Identifier} {t : SymbolTree}
    (h : Stands forest above p t) : (p.fullName t.name).segments = above ++ [t.name] := by
  cases h with
  | group _ hname => rw [Group.name_tree]; exact hname
  | node _ _ hname => exact hname

namespace Graph

/-! ## The symbols unfold the parts -/

/-- **A symbol stands for a part**: it keeps what the part says, and its full name is that of the part. -/
structure StandsFor (g : Graph) (id : SymbolId) (p : Part) (x : GraphSymbol) : Prop where
  symbol : g.symbol? id = some x
  keeps : p.Keeps x
  fullName : g.fullName? id = some (p.fullName x.name)

/-- **Symbols stand for parts**, one for one, and their children for what is inside; the third list tells what each symbol
from these on stands for, in pre-order. -/
inductive Unfolds (g : Graph) : List SymbolId → List Part → List (SymbolId × Part) → Prop
  | nil : Unfolds g [] [] []
  | cons {id : SymbolId} {x : GraphSymbol} {p : Part} {ids : List SymbolId} {ps : List Part}
      {below after : List (SymbolId × Part)} : g.StandsFor id p x → Unfolds g x.children p.contents below →
      Unfolds g ids ps after → Unfolds g (id :: ids) (p :: ps) ((id, p) :: (below ++ after))

namespace Unfolds

variable {g : Graph} {ids : List SymbolId} {ps : List Part} {shown : List (SymbolId × Part)}

theorem forall₂ (h : g.Unfolds ids ps shown) : List.Forall₂ (fun id p => (id, p) ∈ shown) ids ps := by
  induction h with
  | nil => exact .nil
  | cons hx hbelow hafter _ ih =>
    refine .cons List.mem_cons_self (ih.imp fun id p hmem => ?_)
    exact List.mem_cons_of_mem _ (List.mem_append_right _ hmem)

/-- **The children of a symbol stand for what is inside its part.** -/
theorem of_mem (h : g.Unfolds ids ps shown) {id : SymbolId} {p : Part} (hp : (id, p) ∈ shown) :
    ∃ x, g.StandsFor id p x ∧ List.Forall₂ (fun id p => (id, p) ∈ shown) x.children p.contents := by
  induction h with
  | nil => cases hp
  | @cons _ x _ _ _ below after hx hbelow hafter ihbelow ihafter =>
    rcases List.mem_cons.1 hp with heq | hp
    · cases heq
      refine ⟨x, hx, hbelow.forall₂.imp fun c q hmem => ?_⟩
      exact List.mem_cons_of_mem _ (List.mem_append_left _ hmem)
    · rcases List.mem_append.1 hp with hp | hp
      · obtain ⟨y, hy, hchildren⟩ := ihbelow hp
        exact ⟨y, hy, hchildren.imp fun c q hmem => List.mem_cons_of_mem _ (List.mem_append_left _ hmem)⟩
      · obtain ⟨y, hy, hchildren⟩ := ihafter hp
        exact ⟨y, hy, hchildren.imp fun c q hmem => List.mem_cons_of_mem _ (List.mem_append_right _ hmem)⟩

/-- **What the parts hold is held by the parts that symbols stand for**, each by its own. -/
theorem perm (h : g.Unfolds ids ps shown) {α : Type} (own all : Part → List α)
    (hall : ∀ p x, p.Keeps x → (all p).Perm (own p ++ p.contents.flatMap all)) :
    ((shown.map (·.2)).flatMap own).Perm (ps.flatMap all) := by
  induction h with
  | nil => exact .refl _
  | cons hx hbelow hafter ihbelow ihafter =>
    rw [List.map_cons, List.map_append, List.flatMap_cons, List.flatMap_append, List.flatMap_cons, ← List.append_assoc]
    exact (((ihbelow.append_left _).trans (hall _ _ hx.keeps).symm)).append ihafter

end Unfolds

/-- **The symbols of placed trees unfold the parts of the trees.** -/
theorem exists_unfolds {g : Graph} : ∀ {ts : List SymbolTree} {ps : List Part} {parent : Option SymbolId}
    {above : List Identifier} {start : Nat}, List.Forall₂ (Part.Stands forest above) ps ts →
      (∀ q ∈ SymbolTree.locateAll parent above start ts, ∃ x, x.children = q.children ∧
        ∀ p : Part, p.Stands forest q.above q.tree → g.StandsFor q.id p x) →
      ∃ shown, g.Unfolds (SymbolTree.roots start ts) ps shown ∧
        shown.map (·.1) = (SymbolTree.locateAll parent above start ts).map Located.id
  | [], ps, _, _, _, hps, _ => by
    rw [List.forall₂_nil_right_iff.1 hps]
    exact ⟨[], .nil, rfl⟩
  | ⟨name, tags, content, declares, inside⟩ :: ts, ps, parent, above, start, hps, h => by
    obtain ⟨p, ps, hp, hafter, rfl⟩ := List.forall₂_cons_right_iff.1 hps
    obtain ⟨x, hchildren, hstands⟩ := h _ (SymbolTree.mem_locateAll_cons.2 (.inl rfl))
    -- The trees inside the first one come next, then the trees after it.
    obtain ⟨below, hbelow, hbelowIds⟩ := exists_unfolds hp.inside fun q hq =>
      h q (SymbolTree.mem_locateAll_cons.2 (.inr (.inl hq)))
    obtain ⟨after, hafter, hafterIds⟩ := exists_unfolds hafter fun q hq =>
      h q (SymbolTree.mem_locateAll_cons.2 (.inr (.inr hq)))
    refine ⟨(⟨start⟩, p) :: (below ++ after), .cons (hstands p hp) (hchildren ▸ hbelow) hafter, ?_⟩
    rw [List.map_cons, List.map_append, hbelowIds, hafterIds, SymbolTree.locateAll, SymbolTree.locate, List.cons_append,
      List.map_cons, List.map_append]
    rfl

/-! ## The image of a forest -/

/-- **A graph shows a forest**: the parts are what its symbols stand for, by their numbers. -/
structure IsImage (g : Graph) (forest : List Tree) (parts : List Part) : Prop where
  /-- Every symbol stands for a part. -/
  size : parts.length = g.size
  /-- Each group has one symbol. -/
  groups : (parts.filterMap Part.group?).Perm (Group.all (Group.merge forest))
  /-- Each declaration has one symbol. -/
  declarations : (parts.filterMap Part.declaration?).Perm (Table.declared (Group.merge forest))
  /-- Each node that has a symbol has one; the root path of a web API is shown by the symbol of the API. -/
  nodes : (parts.flatMap Part.own).Perm ((Tree.walkForest [] forest).filter (·.symbolKind?.isSome))
  /-- A symbol keeps what its part says, under the full name of the part. -/
  stands : ∀ id x p, g.symbol? id = some x → parts[id.index]? = some p → g.StandsFor id p x
  /-- The namespaces of the graph stand for the groups at the top, in order. -/
  top : g.namespaces.map (fun id => parts[id.index]?) = (Group.merge forest).map fun x => some (.group x)
  /-- The children of a symbol stand for what is inside its part, in order. -/
  children : ∀ id x p, g.symbol? id = some x → parts[id.index]? = some p →
    x.children.map (fun id => parts[id.index]?) = p.contents.map some
  /-- A symbol is a child of its parent, once, and of no other. -/
  owned : g.IsForest

/-- Entries numbered in order are found by their numbers. -/
theorem mem_iff_getElem?_of_ids {α : Type} {shown : List (SymbolId × α)} {n : Nat}
    (h : shown.map (·.1) = (List.range n).map SymbolId.mk) {id : SymbolId} {a : α} :
    (id, a) ∈ shown ↔ (shown.map (·.2))[id.index]? = some a := by
  have hid : ∀ {i : Nat} {e : SymbolId × α}, shown[i]? = some e → e.1 = ⟨i⟩ := by
    intro i e he
    have hi := congrArg (·[i]?) h
    simp only [List.getElem?_map, he, Option.map_some] at hi
    obtain ⟨j, hj, heq⟩ := Option.map_eq_some_iff.1 hi.symm
    obtain ⟨hlt, rfl⟩ := List.getElem?_eq_some_iff.1 hj
    rw [← heq, List.getElem_range]
  rw [List.getElem?_map, Option.map_eq_some_iff]
  constructor
  · intro hmem
    obtain ⟨i, hi⟩ := List.mem_iff_getElem?.1 hmem
    obtain rfl : id = ⟨i⟩ := hid hi
    exact ⟨_, hi, rfl⟩
  · rintro ⟨e, he, rfl⟩
    obtain rfl : e.1 = id := hid he
    exact List.mem_of_getElem? he

theorem exists_isImage_graphOf {outside : Universe} (hobeys : ∀ s n, At forest s n → Obeys outside forest s n) :
    ∃ parts, (graphOf outside forest).IsImage forest parts := by
  have htop : List.Forall₂ (Part.Stands forest []) ((Group.merge forest).map .group)
      (Group.trees (Group.merge forest)) := by
    rw [Group.trees_eq]
    refine Part.forall₂_map fun g hg => .group (Group.subset_all hg) ?_
    exact congrArg QualifiedName.segments (Group.fullName_of_mem_merge hg)
  have hunfolds : ∃ shown, (graphOf outside forest).Unfolds (graphOf outside forest).namespaces
      ((Group.merge forest).map .group) shown ∧ shown.map (·.1) = (locate forest).map Located.id := by
    refine exists_unfolds htop fun q hq => ⟨_, ?_, fun p hp => ⟨symbol?_of_mem hq, hp.keeps hobeys _, ?_⟩⟩
    · rw [Symbol.children, Symbol.map, Content.children_map]
      exact q.children_symbol hq
    · exact fullName?_ofGroups hq hp.segments_fullName
  -- The trees are placed in the order of their numbers, so a symbol's number is the position of its part.
  obtain ⟨shown, hshown, hids⟩ := hunfolds
  have hrange : shown.map (·.1) = (List.range (graphOf outside forest).size).map SymbolId.mk :=
    hids.trans (ids_ofGroups _ _).symm
  have hmem : ∀ {id p}, (id, p) ∈ shown ↔ (shown.map (·.2))[id.index]? = some p := mem_iff_getElem?_of_ids hrange
  have hlabels : ∀ {ids ps}, List.Forall₂ (fun id p => (id, p) ∈ shown) ids ps →
      ids.map (fun id => (shown.map (·.2))[id.index]?) = ps.map some := by
    intro ids ps h
    rw [← List.forall₂_eq_eq_eq, List.forall₂_map_left_iff, List.forall₂_map_right_iff]
    exact h.imp fun _ _ => hmem.1
  refine ⟨shown.map (·.2), ?size, ?groups, ?declarations, ?nodes, ?stands, ?top, ?children, isForest_ofGroups _ _⟩
  case size =>
    have hlength := congrArg List.length hrange
    rwa [List.length_map, List.length_map, List.length_range, ← List.length_map (f := Prod.snd)] at hlength
  case groups =>
    have h := hshown.perm (fun p => p.group?.toList) Part.groups fun p _ _ => .of_eq p.groups_eq
    rwa [Part.groups_merge, ← List.filterMap_eq_flatMap_toList] at h
  case declarations =>
    have h := hshown.perm (fun p => p.declaration?.toList) Part.declarations fun p _ _ => .of_eq p.declarations_eq
    rwa [Part.declarations_merge, ← List.filterMap_eq_flatMap_toList] at h
  case nodes =>
    have h := hshown.perm Part.own Part.nodes fun p x hx => Part.nodes_perm fun s n hn => by
      subst hn
      rw [hx.kind]
      rfl
    exact h.trans (Part.nodes_merge_perm forest)
  case stands =>
    intro id x p hx hp
    obtain ⟨y, hy, -⟩ := hshown.of_mem (hmem.2 hp)
    rwa [Option.some_inj.1 (hx.symm.trans hy.symbol)]
  case top => exact (hlabels hshown.forall₂).trans List.map_map
  case children =>
    intro id x p hx hp
    obtain ⟨y, hy, hchildren⟩ := hshown.of_mem (hmem.2 hp)
    rw [Option.some_inj.1 (hx.symm.trans hy.symbol)]
    exact hlabels hchildren

/-- **A compiled graph shows its forest.** -/
theorem isImage_of_compiled {options : CompileOptions} {g : Graph} (hg : compileForest options forest = .ok g) :
    ∃ parts, g.IsImage forest parts := by
  obtain ⟨hobserve, rfl⟩ := Table.compileForest_eq_ok_iff.1 hg
  exact exists_isImage_graphOf (Table.observe_eq_nil_iff.1 hobserve).2.1

theorem isImage_of_compiled_shop :
    compileForest {} Source.Small.shop = .ok (graphOf .empty Source.Small.shop) ∧
      ∃ parts, (graphOf .empty Source.Small.shop).IsImage Source.Small.shop parts := by
  have hg : compileForest {} Source.Small.shop = .ok (graphOf .empty Source.Small.shop) :=
    Table.compileForest_eq_ok_iff.2 ⟨by decide, rfl⟩
  exact ⟨hg, isImage_of_compiled hg⟩

end Graph
end DomainModel
