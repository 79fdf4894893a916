import DomainModel.Proofs.Compile.Reordered
import DomainModel.Proofs.Graph.Naming
import DomainModel.Proofs.Symbol.Stripped
/-!
# Alike — graphs that mean the same

Two graphs may number their symbols differently and still mean the same: they know the same full names, and types of
one full name are alike (`Graph.SameMeaning`).  Symbols are alike when they say the same, reference by reference and
child by child, a symbol that is referred to being known by its full name (`Graph.Alike`).  A compiled forest with its
units in another order gives a graph that means the same (`compileForest_of_perm`).
-/
namespace DomainModel

open Source (At Extends Node Obeys declarationsOf)

/-- **What a reference names, whatever the numbers**: a symbol is told by its full name. -/
inductive NamedType where
  | builtIn (b : BuiltIn)
  | external (t : ExternalType)
  | symbol (fullName : QualifiedName)
deriving DecidableEq, Repr

def Meaning.named : Meaning → NamedType
  | builtIn b => .builtIn b
  | declaration d => .symbol d.fullName
  | external e => .external e

/-- Functions that agree on every lookup of a content give the same content. -/
theorem Content.map_congr {L M : Type} {f f' : L → M} {x : Symbol L}
    (h : ∀ slot l, x.lookup? slot = some l → f l = f' l) : x.content.map f = x.content.map f' := by
  obtain ⟨name, parent, tags, content⟩ := x
  have hbase : content.base?.map f = content.base?.map f' := Option.map_congr fun l hl => h .base l hl
  have hidentity : content.identity?.map (·.map f) = content.identity?.map (·.map f') := by
    refine Option.map_congr fun t ht => ?_
    rw [TypeUse.map, h .identity t.lookup (by simp [Symbol.lookup?, ht]), TypeUse.map]
  have hoperation : content.operation?.map (·.map f) = content.operation?.map (·.map f') := by
    refine Option.map_congr fun o ho => ?_
    have hargument : o.argument.map (·.map f) = o.argument.map (·.map f') := by
      refine Option.map_congr fun a ha => ?_
      rw [AtomSymbol.map, TypeUse.map, h .argument a.type.lookup (by simp [Symbol.lookup?, ho, ha]), AtomSymbol.map,
        TypeUse.map]
    rw [OperationSymbol.map, TypeUse.map, h .result o.result.lookup (by simp [Symbol.lookup?, ho]), hargument,
      OperationSymbol.map, TypeUse.map]
  have hatoms : ∀ (slot : Nat → Symbol.Slot) (as : List (AtomSymbol L)),
      (∀ i, (Symbol.mk name parent tags content).lookup? (slot i) = as[i]?.map (·.type.lookup)) →
        as.map (·.map f) = as.map (·.map f') := by
    intro slot as hslot
    refine List.map_congr_left fun a ha => ?_
    obtain ⟨i, hi⟩ := List.mem_iff_getElem?.1 ha
    rw [AtomSymbol.map, TypeUse.map, h (slot i) a.type.lookup (by rw [hslot, hi]; rfl), AtomSymbol.map, TypeUse.map]
  have hproperties := hatoms .property content.properties fun _ => rfl
  have hfilters := hatoms .filter content.filters fun _ => rfl
  cases content <;>
    simp_all [Content.map, base?, identity?, operation?, Content.properties, Content.filters, filters?]

theorem Located.mem_of_mem_locate {forest : List Source.Tree} {p q : Located} (hq : q ∈ locate forest)
    (hp : p ∈ q.tree.locate q.parent q.above q.number) : p ∈ locate forest := by
  rw [SymbolTree.locate_eq] at hp
  rcases List.mem_cons.1 hp with rfl | hp
  · exact hq
  · exact SymbolTree.mem_locateAll_of_inside hq hp

theorem Source.extends_of_perm {forest others : List Source.Tree} {outside : Universe} (h : forest.Perm others) :
    Extends outside forest others :=
  ⟨fun _ _ => at_of_perm h, fun _ _ _ => means_iff_of_perm h.symm⟩

namespace Graph

def named (g : Graph) : Option TypeRef → Option NamedType
  | none => none
  | some (.builtIn b) => some (.builtIn b)
  | some (.external e) => some (.external e)
  | some (.symbol id) => (g.fullName? id).map .symbol

/-- **A symbol of one graph is like one of another**: they say the same, every reference of them names something and the
same, and their children are alike in order. -/
inductive Alike (g h : Graph) : SymbolId → SymbolId → Prop
  | intro {i j : SymbolId} {x y : GraphSymbol} : g.symbol? i = some x → h.symbol? j = some y → x.name = y.name →
      x.tags = y.tags → (x.content.map g.named).childless = (y.content.map h.named).childless →
      (∀ slot r, x.lookup? slot = some r → (g.named r).isSome = true) →
      List.Forall₂ (Alike g h) x.children y.children → Alike g h i j

/-- **Two graphs mean the same.** -/
structure SameMeaning (g h : Graph) : Prop where
  types : ∀ name, (g.get? name).isSome = (h.get? name).isSome
  spaces : ∀ name, (g.namespace? name).isSome = (h.namespace? name).isSome
  /-- Types of one full name are alike. -/
  alike : ∀ name i j, g.get? name = some i → h.get? name = some j → g.Alike h i j

/-! ## Types of a full name -/

variable {forest others : List Source.Tree} {outside : Universe}

/-- **The type of a full name is the tree of the node that declares it.** -/
theorem exists_node_of_get? {name : QualifiedName} {id : SymbolId} (h : (graphOf outside forest).get? name = some id) :
    ∃ q ∈ locate forest, q.id = id ∧ ∃ s n d, At forest s n ∧ n.tree? s = some q.tree ∧ n.declaration? s = some d ∧
      d.fullName = name := by
  obtain ⟨q, hq, rfl, hname⟩ := exists_of_get?_index h
  rcases q.origin_cases hq with ⟨a, -, htree, -⟩ | ⟨s, n, hn, htree, -⟩
  · rw [htree, Group.tree_eq] at hname
    cases hname
  · rw [(Node.declares_of_tree? htree).1, Option.map_eq_some_iff] at hname
    obtain ⟨d, hd, hname⟩ := hname
    exact ⟨q, hq, rfl, s, n, d, hn, htree, hd, hname⟩

theorem isSome_get?_iff (hd : Table.Distinct (declarationsOf forest)) {name : QualifiedName} :
    ((graphOf outside forest).get? name).isSome = true ↔ ∃ d ∈ declarationsOf forest, d.fullName = name := by
  rw [Option.isSome_iff_exists]
  constructor
  · rintro ⟨id, hid⟩
    obtain ⟨q, -, -, s, n, d, hn, -, hdecl, hname⟩ := exists_node_of_get? hid
    exact ⟨d, Source.mem_declarationsOf_iff.2 ⟨s, n, hn, hdecl⟩, hname⟩
  · rintro ⟨d, hmem, rfl⟩
    obtain ⟨id, hid, -⟩ := exists_symbol_of_declared (t := Table.ofForest outside forest) hd hmem
    exact ⟨id, hid⟩

/-- **The namespaces of a compiled graph are the beginnings of the names of blocks.** -/
theorem isSome_namespace?_iff (hobeys : ∀ s n, At forest s n → Obeys outside forest s n) {name : QualifiedName} :
    ((graphOf outside forest).namespace? name).isSome = true ↔
      ∃ f ∈ fragmentsOf forest, name.segments <+: f.fullName.segments := by
  obtain ⟨parts, himage⟩ := exists_isImage_graphOf hobeys
  rw [← Group.mem_names_merge, Option.isSome_iff_exists, List.mem_map]
  constructor
  · rintro ⟨id, hid⟩
    obtain ⟨⟨x, hx, hk⟩, hname⟩ := himage.namespace?_eq_some_iff.1 hid
    obtain ⟨p, hp, hstands⟩ := himage.exists_part hx
    obtain ⟨a, rfl, ha⟩ := hstands.exists_group hk
    have hmem : a ∈ parts.filterMap Part.group? := List.mem_filterMap.2 ⟨_, List.mem_of_getElem? hp, rfl⟩
    exact ⟨a, himage.groups.mem_iff.1 hmem, Option.some_inj.1 (ha.symm.trans hname)⟩
  · rintro ⟨a, ha, rfl⟩
    obtain ⟨p, hp, hgroup⟩ := List.mem_filterMap.1 (himage.groups.mem_iff.2 ha)
    obtain ⟨i, hi⟩ := List.mem_iff_getElem?.1 hp
    cases p with
    | node => cases hgroup
    | group b =>
      cases hgroup
      obtain ⟨hlt, -⟩ := List.getElem?_eq_some_iff.1 hi
      rw [himage.size] at hlt
      have hx : (graphOf outside forest).symbol? ⟨i⟩ = some _ := List.getElem?_eq_getElem hlt
      have hstands := himage.stands _ _ _ hx hi
      exact ⟨⟨i⟩, himage.namespace?_eq_some_iff.2 ⟨⟨_, hx, hstands.keeps.1⟩, hstands.fullName⟩⟩

/-- **Places that declare one name are one place.** -/
theorem place_unique (hd : Table.Distinct (declarationsOf forest)) {s s' : Scope} {n n' : Node} (hn : At forest s n)
    (hn' : At forest s' n') {d d' : Declaration} (hdecl : n.declaration? s = some d)
    (hdecl' : n'.declaration? s' = some d') (hname : d.fullName = d'.fullName) : (s, n) = (s', n') := by
  have hnodup : ((Source.places forest).filterMap fun x => (x.2.declaration? x.1).map (·.fullName)).Nodup := by
    have h : ((declarationsOf forest).map (·.fullName)).Nodup := hd
    rwa [declarationsOf, List.map_filterMap] at h
  have hmem := (Source.at_iff_mem_places fun b hb => by rw [hb] at hdecl; cases hdecl).1 hn
  have hmem' := (Source.at_iff_mem_places fun b hb => by rw [hb] at hdecl'; cases hdecl').1 hn'
  obtain ⟨i, hi⟩ := List.mem_iff_getElem?.1 hmem
  obtain ⟨j, hj⟩ := List.mem_iff_getElem?.1 hmem'
  have hij := getElem?_inj_of_nodup_filterMap hnodup hi hj (congrArg (Option.map _) hdecl)
    ((congrArg (Option.map _) hdecl').trans (congrArg some hname.symm))
  rw [hij] at hi
  exact Option.some_inj.1 (hi.symm.trans hj)

/-! ## Symbols of one tree -/

/-- **What a bound reference names is what the table says it means.** -/
theorem named_bind (hd : Table.Distinct (declarationsOf forest)) (w : Written) :
    (graphOf outside forest).named (bind (Table.ofForest outside forest) (graphOf outside forest).index w) =
      ((Table.ofForest outside forest).resolveIn w.scope w.reference).map Meaning.named := by
  cases hm : (Table.ofForest outside forest).resolveIn w.scope w.reference with
  | none => simp [bind, hm, named]
  | some m =>
    obtain ⟨type, htype, hdenotes⟩ := exists_bind_of_resolveIn hd hm
    rw [htype]
    cases hdenotes with
    | builtIn b => rfl
    | external e => rfl
    | declaration hsymbol => exact congrArg (Option.map NamedType.symbol) hsymbol.fullName

theorem childless_symbol (hd : Table.Distinct (declarationsOf forest)) (q : Located) :
    ((q.symbol.map (bind (Table.ofForest outside forest) (graphOf outside forest).index)).content.map
        (graphOf outside forest).named).childless =
      q.tree.content.childless.map fun w =>
        ((Table.ofForest outside forest).resolveIn w.scope w.reference).map Meaning.named := by
  have hnamed : (graphOf outside forest).named ∘ bind (Table.ofForest outside forest) (graphOf outside forest).index =
      fun w => ((Table.ofForest outside forest).resolveIn w.scope w.reference).map Meaning.named :=
    funext (named_bind hd)
  rw [Symbol.map, Content.map_map, Content.childless_map, Located.symbol, SymbolTree.childless_withChildren]
  exact congrArg (Content.map · _) hnamed

/-- The lookups of a located tree are references of the forest. -/
theorem isReference_of_located {q : Located} (hq : q ∈ locate forest) {parent : Option SymbolId} {slot : Symbol.Slot}
    {w : Written} (hw : (Symbol.mk q.tree.name parent q.tree.tags q.tree.content).lookup? slot = some w) :
    Source.IsReference forest w := by
  rcases q.origin_cases hq with ⟨a, -, htree, -⟩ | ⟨s, n, hn, htree, -⟩
  · rw [htree, Group.tree_eq] at hw
    cases slot <;> cases hw
  · rw [Node.lookup?_tree htree] at hw
    exact Source.isReference_of_written hn hw

/-- **Every reference of a symbol of a forest that obeys the rules names something.** -/
theorem isSome_named_of_lookup? (hd : Table.Distinct (declarationsOf forest))
    (hobeys : ∀ s n, At forest s n → Obeys outside forest s n) {q : Located} (hq : q ∈ locate forest)
    {slot : Symbol.Slot} {r : Option TypeRef}
    (hr : (q.symbol.map (bind (Table.ofForest outside forest) (graphOf outside forest).index)).lookup? slot = some r) :
    ((graphOf outside forest).named r).isSome = true := by
  rw [Symbol.lookup?_map, q.lookup?_symbol, Option.map_eq_some_iff] at hr
  obtain ⟨w, hw, rfl⟩ := hr
  obtain ⟨m, hm⟩ := Source.exists_means hobeys (isReference_of_located hq hw)
  rw [named_bind hd, (Table.resolveIn_eq_some_iff hd).2 hm]
  rfl

/-- **What a symbol says is the same in both graphs**, if the references of the forest mean the same. -/
theorem childless_symbol_of_extends (h : Extends outside forest others) (hd : Table.Distinct (declarationsOf forest))
    (hd' : Table.Distinct (declarationsOf others)) {q q' : Located} (hq : q ∈ locate forest)
    (htree : q.tree.content = q'.tree.content) :
    ((q.symbol.map (bind (Table.ofForest outside forest) (graphOf outside forest).index)).content.map
        (graphOf outside forest).named).childless =
      ((q'.symbol.map (bind (Table.ofForest outside others) (graphOf outside others).index)).content.map
        (graphOf outside others).named).childless := by
  rw [childless_symbol hd, childless_symbol hd', ← htree, ← Content.childless_map, ← Content.childless_map]
  refine congrArg Content.childless ?_
  refine Content.map_congr (x := ⟨q.tree.name, none, q.tree.tags, q.tree.content⟩) fun slot w hw => ?_
  rw [Table.resolveIn_of_extends h hd hd' (isReference_of_located hq hw)]

mutual

/-- **A tree gives symbols that are alike** wherever it stands in two forests of which one extends the other. -/
theorem alike_locate (h : Extends outside forest others) (hd : Table.Distinct (declarationsOf forest))
    (hd' : Table.Distinct (declarationsOf others)) (hobeys : ∀ s n, At forest s n → Obeys outside forest s n) :
    ∀ (t : SymbolTree) {parent parent' : Option SymbolId} {above above' : List Identifier} {start start' : Nat},
      (∀ q ∈ t.locate parent above start, q ∈ locate forest) →
      (∀ q ∈ t.locate parent' above' start', q ∈ locate others) →
      (graphOf outside forest).Alike (graphOf outside others) ⟨start⟩ ⟨start'⟩
  | ⟨name, tags, content, declares, inside⟩, parent, parent', above, above', start, start', hleft, hright => by
    rw [SymbolTree.locate] at hleft hright
    obtain ⟨hq, hinside⟩ := List.forall_mem_cons.1 hleft
    obtain ⟨hq', hinside'⟩ := List.forall_mem_cons.1 hright
    refine .intro (symbol?_of_mem hq) (symbol?_of_mem hq') ?_ ?_ ?_ (fun slot r hr => ?_) ?_
    · rw [Symbol.name_map, Symbol.name_map]
      rfl
    · rw [Symbol.tags_map, Symbol.tags_map]
      rfl
    · exact childless_symbol_of_extends h hd hd' hq rfl
    · exact isSome_named_of_lookup? hd hobeys hq hr
    · have hchildren := Located.children_symbol hq
      have hchildren' := Located.children_symbol hq'
      unfold Symbol.children at hchildren hchildren' ⊢
      rw [Symbol.map, Symbol.map, Content.children_map, Content.children_map, hchildren, hchildren']
      exact alike_locateAll h hd hd' hobeys inside hinside hinside'

theorem alike_locateAll (h : Extends outside forest others) (hd : Table.Distinct (declarationsOf forest))
    (hd' : Table.Distinct (declarationsOf others)) (hobeys : ∀ s n, At forest s n → Obeys outside forest s n) :
    ∀ (ts : List SymbolTree) {parent parent' : Option SymbolId} {above above' : List Identifier} {start start' : Nat},
      (∀ q ∈ SymbolTree.locateAll parent above start ts, q ∈ locate forest) →
      (∀ q ∈ SymbolTree.locateAll parent' above' start' ts, q ∈ locate others) →
      List.Forall₂ ((graphOf outside forest).Alike (graphOf outside others)) (SymbolTree.roots start ts)
        (SymbolTree.roots start' ts)
  | [], _, _, _, _, _, _, _, _ => .nil
  | t :: ts, parent, parent', above, above', start, start', hleft, hright => by
    have hhead := alike_locate h hd hd' hobeys t (fun q hq => hleft q (List.mem_append_left _ hq))
      fun q hq => hright q (List.mem_append_left _ hq)
    have htail := alike_locateAll h hd hd' hobeys ts (fun q hq => hleft q (List.mem_append_right _ hq))
      fun q hq => hright q (List.mem_append_right _ hq)
    exact .cons hhead htail

end

/-- **Types of one full name are alike** in a forest and in one that extends it. -/
theorem alike_of_get? (h : Extends outside forest others) (hd : Table.Distinct (declarationsOf forest))
    (hd' : Table.Distinct (declarationsOf others)) (hobeys : ∀ s n, At forest s n → Obeys outside forest s n)
    {name : QualifiedName} {i j : SymbolId} (hi : (graphOf outside forest).get? name = some i)
    (hj : (graphOf outside others).get? name = some j) :
    (graphOf outside forest).Alike (graphOf outside others) i j := by
  obtain ⟨q, hq, rfl, s, n, d, hn, htree, hdecl, hname⟩ := exists_node_of_get? hi
  obtain ⟨q', hq', rfl, s', n', d', hn', htree', hdecl', hname'⟩ := exists_node_of_get? hj
  have hplace := place_unique hd' (h.nodes s n hn) hn' hdecl hdecl' (hname.trans hname'.symm)
  obtain ⟨rfl, rfl⟩ := Prod.mk.inj hplace
  have hsame : q'.tree = q.tree := Option.some_inj.1 (htree'.symm.trans htree)
  have hleft : ∀ p ∈ q.tree.locate q.parent q.above q.number, p ∈ locate forest := fun _ => Located.mem_of_mem_locate hq
  have hright : ∀ p ∈ q.tree.locate q'.parent q'.above q'.number, p ∈ locate others :=
    hsame ▸ fun _ => Located.mem_of_mem_locate hq'
  exact alike_locate h hd hd' hobeys q.tree hleft hright

section Reordered

variable (h : forest.Perm others) (hd : Table.Distinct (declarationsOf forest))
  (hobeys : ∀ s n, At forest s n → Obeys outside forest s n)
include h hd hobeys

/-- **Units in another order give a graph that means the same.** -/
theorem sameMeaning_of_perm (hobeys' : ∀ s n, At others s n → Obeys outside others s n) :
    (graphOf outside forest).SameMeaning (graphOf outside others) where
  types name := by
    have hd' := (Table.Distinct.perm (Source.declarationsOf_of_perm h)).1 hd
    rw [Bool.eq_iff_iff, isSome_get?_iff hd, isSome_get?_iff hd']
    exact exists_congr fun d => and_congr_left' (Source.declarationsOf_of_perm h).mem_iff
  spaces name := by
    rw [Bool.eq_iff_iff, isSome_namespace?_iff hobeys, isSome_namespace?_iff hobeys']
    exact exists_congr fun f => and_congr_left' (Source.fragmentsOf_of_perm h).mem_iff
  alike _ _ _ := by
    have hd' := (Table.Distinct.perm (Source.declarationsOf_of_perm h)).1 hd
    exact alike_of_get? (Source.extends_of_perm h) hd hd' hobeys

end Reordered

end Graph

/-! ## Compiling units in another order -/

/-- **The order of units does not matter**: a forest compiles whatever their order or not at all; if no name is declared
twice, it is told about the same things; and the graphs mean the same. -/
theorem compileForest_of_perm {forest others : List Source.Tree} (h : forest.Perm others) (circles : Bool)
    (outside : Universe) :
    ((∃ g, compileForest { limit := 0, circles, outside } forest = .ok g) ↔
        ∃ g, compileForest { limit := 0, circles, outside } others = .ok g) ∧
      ((declarationsOf forest).Pairwise (fun d e => d.fullName ≠ e.fullName) →
        (observationsOf (compileForest { limit := 0, circles, outside } forest)).Perm
          (observationsOf (compileForest { limit := 0, circles, outside } others))) ∧
      ∀ g g', compileForest { limit := 0, circles, outside } forest = .ok g →
        compileForest { limit := 0, circles, outside } others = .ok g' → g.SameMeaning g' := by
  refine ⟨?accepted, fun hdistinct => ?told, fun g g' hg hg' => ?meaning⟩
  case accepted =>
    simp only [Table.compileForest_eq_ok_iff, exists_and_left, exists_eq', and_true]
    exact observe_eq_nil_iff_of_perm h _
  case told =>
    rw [observationsOf_compileForest rfl, observationsOf_compileForest rfl]
    exact observe_perm h (List.pairwise_map.2 hdistinct) _
  case meaning =>
    obtain ⟨hobserve, rfl⟩ := Table.compileForest_eq_ok_iff.1 hg
    obtain ⟨hobserve', rfl⟩ := Table.compileForest_eq_ok_iff.1 hg'
    obtain ⟨hd, hobeys, -⟩ := Table.observe_eq_nil_iff.1 hobserve
    obtain ⟨-, hobeys', -⟩ := Table.observe_eq_nil_iff.1 hobserve'
    exact Graph.sameMeaning_of_perm h hd hobeys hobeys'

/-- The shop in two units. -/
def Source.Small.units : List Source.Tree :=
  [⟨none, [], [⟨Small.shopName, [], [.value Small.label, .entity Small.order]⟩]⟩,
    ⟨none, [], [⟨Small.shopName, [], [.entity Small.rush, .webApi Small.orders]⟩]⟩]

theorem compileForest_of_perm_units : Source.Small.units.Perm Source.Small.units.reverse ∧
    (declarationsOf Source.Small.units).Pairwise (fun d e => d.fullName ≠ e.fullName) ∧
    (observationsOf (compileForest { limit := 0, circles := true, outside := .empty } Source.Small.units)).Perm
      (observationsOf (compileForest { limit := 0, circles := true, outside := .empty } Source.Small.units.reverse)) ∧
    ∃ g g', compileForest { limit := 0, circles := true, outside := .empty } Source.Small.units = .ok g ∧
      compileForest { limit := 0, circles := true, outside := .empty } Source.Small.units.reverse = .ok g' ∧
        g.SameMeaning g' := by
  have h : Source.Small.units.Perm Source.Small.units.reverse := (List.reverse_perm _).symm
  have hdistinct : (declarationsOf Source.Small.units).Pairwise (fun d e => d.fullName ≠ e.fullName) := by decide
  obtain ⟨haccepted, htold, hmeaning⟩ := compileForest_of_perm h true .empty
  have hg : compileForest { limit := 0, circles := true, outside := .empty } Source.Small.units =
      .ok (graphOf .empty Source.Small.units) := Table.compileForest_eq_ok_iff.2 ⟨by decide, rfl⟩
  obtain ⟨g', hg'⟩ := haccepted.1 ⟨_, hg⟩
  exact ⟨h, hdistinct, htold hdistinct, _, g', hg, hg', hmeaning _ g' hg hg'⟩

end DomainModel
