import DomainModel.Proofs.Graph.Alike
import DomainModel.Proofs.Summary.Legible
/-!
# Unique — a summary tells the whole graph

Compiled graphs with one summary are equal but for annotations.  The lines give the symbols one by one, with full names
in place of lookups; the levels give who owns whom; and in a compiled graph over nothing or a listed universe a lookup is
known from the full name that it shows, a keyword naming a built-in type, a declared name its symbol, and any other name
a type outside (`Graph.typeNamed_bind`).
-/
namespace DomainModel

open Source (At Node Obeys declarationsOf)

/-- **An empty or a listed universe.** -/
def Universe.IsStatic (outside : Universe) : Prop := outside = .empty ∨ ∃ u : ListedUniverse, outside = u.toUniverse

theorem Universe.IsStatic.fullName_eq {outside : Universe} (h : outside.IsStatic) {name : QualifiedName}
    {e : ExternalType} (he : outside.lookup name = some e) : e.fullName = name := by
  rcases h with rfl | ⟨u, rfl⟩
  · cases he
  · obtain ⟨entry, -, rfl⟩ := Option.map_eq_some_iff.1 he
    rfl

namespace Graph

/-! ## Lookups by full names -/

/-- **What a full name shows**: a built-in type, a type of the graph, or else a type outside. -/
def typeNamed (g : Graph) (name : QualifiedName) : TypeRef :=
  match if name.rest.isEmpty then BuiltIn.ofKeyword? name.first.text else none with
  | some b => .builtIn b
  | none =>
    match g.get? name with
    | some id => .symbol id
    | none => .external (.ofName name)

theorem typeNamed_fullName (g : Graph) (b : BuiltIn) : g.typeNamed b.fullName = .builtIn b := by
  have hkeyword := Source.keyword_iff.2 (show Source.IsKeyword b.fullName b from ⟨rfl, rfl⟩)
  rw [typeNamed, hkeyword]

theorem typeNamed_of_not_keyword (g : Graph) {name : QualifiedName} (h : ∀ b, ¬ Source.IsKeyword name b) :
    g.typeNamed name = match g.get? name with
      | some id => .symbol id
      | none => .external (.ofName name) := by
  have hkeyword : (if name.rest.isEmpty then BuiltIn.ofKeyword? name.first.text else none) = none := by
    rw [Option.eq_none_iff_forall_ne_some]
    exact fun b hb => h b (Source.keyword_iff.1 hb)
  rw [typeNamed, hkeyword]

variable {outside : Universe} {forest : List Source.Tree}

/-- **What a bound reference names is known from the full name that it shows.** -/
theorem typeNamed_bind (hd : Table.Distinct (declarationsOf forest)) (hstatic : outside.IsStatic) (w : Written) :
    ((graphOf outside forest).typeName? (bind (Table.ofForest outside forest) (graphOf outside forest).index w)).map
      (graphOf outside forest).typeNamed = bind (Table.ofForest outside forest) (graphOf outside forest).index w := by
  have hback : ∀ {type : TypeRef} {name : QualifiedName},
      bind (Table.ofForest outside forest) (graphOf outside forest).index w = some type →
      (graphOf outside forest).typeName? (some type) = some name → (graphOf outside forest).typeNamed name = type →
      ((graphOf outside forest).typeName? (bind (Table.ofForest outside forest) (graphOf outside forest).index w)).map
        (graphOf outside forest).typeNamed = bind (Table.ofForest outside forest) (graphOf outside forest).index w := by
    intro type name hbind hname hnamed
    rw [hbind, hname, Option.map_some, hnamed]
  cases hm : (Table.ofForest outside forest).resolveIn w.scope w.reference with
  | none =>
    rw [bind, hm]
    rfl
  | some m =>
    obtain ⟨-, name, -, -, -, hnames⟩ := (Table.resolveIn_eq_some_iff hd).1 hm
    rcases hnames with hb | @⟨d, hno, hmem, rfl⟩ | - | @⟨e, hno, hnot, hlookup, hstands⟩
    · exact hback (by rw [bind, hm]; rfl) rfl (typeNamed_fullName _ _)
    · obtain ⟨id, hid, hsymbol⟩ := exists_symbol_of_declared (t := Table.ofForest outside forest) hd hmem
      have hget : (graphOf outside forest).get? d.fullName = some id := hid
      have hbind : bind (Table.ofForest outside forest) (graphOf outside forest).index w = some (.symbol id) := by
        rw [bind, hm]
        exact congrArg (Option.map TypeRef.symbol) hid
      exact hback hbind hsymbol.fullName (by rw [typeNamed_of_not_keyword _ hno, hget])
    · exact hback (by rw [bind, hm]; rfl) rfl (typeNamed_fullName _ _)
    · have hnone : (graphOf outside forest).get? name = none := by
        rw [← Option.not_isSome_iff_eq_none, isSome_get?_iff hd]
        rintro ⟨d, hmem, hname⟩
        exact hnot d hmem hname
      have hname := hstatic.fullName_eq hlookup
      have hbind : bind (Table.ofForest outside forest) (graphOf outside forest).index w = some (.external e) := by
        rw [bind, hm]
        rfl
      refine hback hbind (congrArg some hname) ?_
      rw [typeNamed_of_not_keyword _ hno, hnone, ← hname, ExternalType.ofName, ← hstands]

/-! ## Symbols of compiled graphs -/

/-- **What there is to know of a compiled graph** to read it from its summary. -/
structure IsReadable (g : Graph) : Prop where
  /-- The symbols own each other as a forest does. -/
  owned : g.IsForest
  /-- The lookups name something. -/
  named : ∀ id x, g.symbol? id = some x → g.Named x
  /-- What a line does not tell is not there. -/
  plain : ∀ id x, g.symbol? id = some x → x.content.IsPlain
  /-- What lookups name is known from full names. -/
  lookups : ∀ id x, g.symbol? id = some x → (x.content.map g.typeName?).map (Option.map g.typeNamed) = x.content
  /-- The index finds the type of a full name, and nothing else. -/
  types : ∀ name id, g.get? name = some id ↔
    (∃ x, g.symbol? id = some x ∧ x.kind ∈ SymbolKind.types) ∧ g.fullName? id = some name

theorem isNamed_of_isSome_named {g : Graph} {r : Option TypeRef} (h : (g.named r).isSome = true) : g.IsNamed r := by
  rcases r with _ | b | e | id
  · cases h
  · exact ⟨_, rfl⟩
  · exact ⟨_, rfl⟩
  · rw [named, Option.isSome_map] at h
    exact Option.isSome_iff_exists.1 h

theorem isReadable_graphOf (hd : Table.Distinct (declarationsOf forest))
    (hobeys : ∀ s n, At forest s n → Obeys outside forest s n) (hstatic : outside.IsStatic) :
    (graphOf outside forest).IsReadable := by
  refine ⟨isForest_ofGroups _ _, ?named, ?plain, ?lookups, ?types⟩
  case named =>
    intro id x hx slot r hr
    obtain ⟨q, hq, -, rfl⟩ := symbol?_ofGroups.1 hx
    exact isNamed_of_isSome_named (isSome_named_of_lookup? hd hobeys hq hr)
  case plain =>
    intro id x hx
    obtain ⟨q, hq, -, rfl⟩ := symbol?_ofGroups.1 hx
    refine Content.isPlain_map (SymbolTree.isPlain_withChildren ?_ _)
    rcases q.origin_cases hq with ⟨a, -, htree, -⟩ | ⟨s, n, hn, htree, -⟩
    · rw [htree, Group.tree_eq]
      trivial
    · exact Source.Node.isPlain_of_tree? htree (hobeys s n hn)
  case lookups =>
    intro id x hx
    obtain ⟨q, -, -, rfl⟩ := symbol?_ofGroups.1 hx
    rw [Symbol.map, Content.map_map, Content.map_map]
    exact congrArg (Content.map · _) (funext (typeNamed_bind hd hstatic))
  case types =>
    obtain ⟨parts, himage⟩ := exists_isImage_graphOf hobeys
    exact fun name id => get?_graphOf_eq_some_iff himage hd

variable {g h : Graph}

/-- **Symbols with the same lines** are at one level, of one kind and name, and say the same. -/
theorem IsReadable.same_of_linesOf_eq (hg : g.IsReadable) (hh : h.IsReadable) {id : SymbolId} {x y : GraphSymbol}
    (hx : g.symbol? id = some x) (hy : h.symbol? id = some y) (hlines : g.linesOf id = h.linesOf id) :
    g.level id = h.level id ∧ x.kind = y.kind ∧ x.name = y.name ∧
      (x.content.untagged.map g.typeName?).childless = (y.content.untagged.map h.typeName?).childless := by
  obtain ⟨hlevel, hsymbol, hatoms⟩ := texts_of_linesOf_eq hx hy hlines
  obtain ⟨⟨hkind, habstract⟩, hname, hrest⟩ := symbolText_inj hsymbol
  refine ⟨hlevel, hkind, name_of_nameText_eq ?_ ?_ hkind hname, ?_⟩
  · exact hg.owned.exists_fullName hx
  · exact hh.owned.exists_fullName hy
  · exact content_inj (hg.named id x hx) (hh.named id y hy) (hg.plain id x hx) (hh.plain id y hy) hkind habstract hrest
      hatoms

/-! ## Graphs with one summary -/

/-- **Two graphs are equal but for annotations.** -/
structure EqButTags (g h : Graph) : Prop where
  /-- The symbols are equal one by one, with their parents, children and lookups. -/
  symbols : g.symbols.map Symbol.untagged = h.symbols.map Symbol.untagged
  namespaces : g.namespaces = h.namespaces
  types : ∀ name, g.get? name = h.get? name
  /-- Every lookup gives the same answer, whatever was read before. -/
  lookups : ∀ (reads others : List LookupAddress) a,
    (((Session.start g).readAll reads).read a).1 = (((Session.start h).readAll others).read a).1

theorem lookup?_eq_of_untagged (hsymbols : g.symbols.map Symbol.untagged = h.symbols.map Symbol.untagged)
    (a : LookupAddress) : g.lookup? a = h.lookup? a := by
  have hsymbol : (g.symbol? a.id).map Symbol.untagged = (h.symbol? a.id).map Symbol.untagged := by
    rw [symbol?, symbol?, ← List.getElem?_map, ← List.getElem?_map, hsymbols]
  have huntagged : ∀ k : Graph,
      k.lookup? a = ((k.symbol? a.id).map Symbol.untagged).bind fun s => s.lookup? a.slot := by
    intro k
    rw [Option.bind_map, lookup?]
    exact congrArg _ (funext fun s => (Symbol.lookup?_untagged s a.slot).symm)
  rw [huntagged, huntagged, hsymbol]

theorem IsReadable.get?_eq (hg : g.IsReadable) (hh : h.IsReadable) (hfull : ∀ id, g.fullName? id = h.fullName? id)
    (hkind : ∀ id, (g.symbol? id).map (·.kind) = (h.symbol? id).map (·.kind)) (name : QualifiedName) :
    g.get? name = h.get? name := by
  refine Option.ext fun id => ?_
  have hexists : ∀ k : Graph, (∃ x, k.symbol? id = some x ∧ x.kind ∈ SymbolKind.types) ↔
      ∃ kind ∈ SymbolKind.types, (k.symbol? id).map (·.kind) = some kind := by
    intro k
    cases k.symbol? id <;> simp
  rw [hg.types, hh.types, hexists, hexists, hfull, hkind]

theorem IsReadable.untagged_eq (hg : g.IsReadable) (hh : h.IsReadable) {id : SymbolId} {x y : GraphSymbol}
    (hx : g.symbol? id = some x) (hy : h.symbol? id = some y) (htypes : g.typeNamed = h.typeNamed)
    (hname : x.name = y.name) (hparent : x.parent = y.parent) (hchildren : x.children = y.children)
    (htold : (x.content.untagged.map g.typeName?).childless = (y.content.untagged.map h.typeName?).childless) :
    x.untagged = y.untagged := by
  have hback : ∀ {k : Graph} {z : GraphSymbol}, k.IsReadable → k.symbol? id = some z →
      (z.content.untagged.map k.typeName?).childless.map (Option.map k.typeNamed) = z.content.untagged.childless := by
    intro k z hk hz
    rw [← Content.childless_map, ← Content.untagged_map, ← Content.untagged_map, hk.lookups id z hz]
  have hchildless : x.content.untagged.childless = y.content.untagged.childless := by
    rw [← hback hg hx, ← hback hh hy, htold, htypes]
  have hcontent : x.content.untagged = y.content.untagged := by
    refine Content.eq_of_childless hchildless ?_ (fun m hm => ?_) fun m hm => ?_
    · rw [Content.children_untagged, Content.children_untagged]
      exact hchildren
    · rw [Content.children?_untagged] at hm
      exact hg.owned.assigned id x m hx hm
    · rw [Content.children?_untagged] at hm
      exact hh.owned.assigned id y m hy hm
  rw [Symbol.untagged, Symbol.untagged, hname, hparent, hcontent]

theorem IsReadable.eqButTags (hg : g.IsReadable) (hh : h.IsReadable) (hsummary : g.summary = h.summary) :
    g.EqButTags h := by
  obtain ⟨hids, hlines⟩ := hg.owned.linesOf_eq_of_summary_eq hh.owned hsummary
  have hsame : ∀ {id x y}, g.symbol? id = some x → h.symbol? id = some y → _ :=
    fun hx hy => hg.same_of_linesOf_eq hh hx hy (hlines _ (mem_ids_of_symbol? hx))
  -- Levels give the parents, these with the names the full names, and full names what lookups name.
  have howns : g.OwnsLike h := by
    refine hg.owned.ownsLike_of_level hh.owned hids fun id hid => ?_
    obtain ⟨x, hx⟩ := exists_symbol_of_mem_ids hid
    obtain ⟨y, hy⟩ := exists_symbol_of_mem_ids (hids ▸ hid)
    exact (hsame hx hy).1
  have hnames : ∀ id, (g.symbol? id).map (·.name) = (h.symbol? id).map (·.name) := by
    intro id
    rcases symbol?_cases hids id with ⟨hx, hy⟩ | ⟨x, y, hx, hy⟩
    · rw [hx, hy]
    · rw [hx, hy]
      exact congrArg some (hsame hx hy).2.2.1
  have hkinds : ∀ id, (g.symbol? id).map (·.kind) = (h.symbol? id).map (·.kind) := by
    intro id
    rcases symbol?_cases hids id with ⟨hx, hy⟩ | ⟨x, y, hx, hy⟩
    · rw [hx, hy]
    · rw [hx, hy]
      exact congrArg some (hsame hx hy).2.1
  have hget := hg.get?_eq hh (fullName?_eq_of_names hnames howns.parent) hkinds
  have htypes : g.typeNamed = h.typeNamed := funext fun name => by rw [typeNamed, typeNamed, hget]
  have hsymbols : g.symbols.map Symbol.untagged = h.symbols.map Symbol.untagged := by
    refine List.ext_getElem? fun i => ?_
    rw [List.getElem?_map, List.getElem?_map]
    rcases symbol?_cases hids ⟨i⟩ with ⟨hx, hy⟩ | ⟨x, y, hx, hy⟩
    · rw [show g.symbols[i]? = none from hx, show h.symbols[i]? = none from hy]
    · have hparent := howns.parent ⟨i⟩
      rw [parent?, parent?, hx, hy] at hparent
      rw [show g.symbols[i]? = some x from hx, show h.symbols[i]? = some y from hy]
      exact congrArg some (hg.untagged_eq hh hx hy htypes (hsame hx hy).2.2.1 hparent (howns.children _ x y hx hy)
        (hsame hx hy).2.2.2)
  refine ⟨hsymbols, howns.namespaces, hget, fun reads others a => ?_⟩
  rw [Session.read_after_readAll, Session.read_after_readAll, lookup?_eq_of_untagged hsymbols]

theorem isReadable_of_compiled {options : CompileOptions} {forest : List Source.Tree} {g : Graph}
    (hg : compileForest options forest = .ok g) (hstatic : options.outside.IsStatic) : g.IsReadable := by
  obtain ⟨hobserve, rfl⟩ := Table.compileForest_eq_ok_iff.1 hg
  obtain ⟨hd, hobeys, -⟩ := Table.observe_eq_nil_iff.1 hobserve
  exact isReadable_graphOf hd hobeys hstatic

/-- **Compiled graphs with one summary are equal but for annotations**, over empty or listed universes. -/
theorem eqButTags_of_summary_eq {options options' : CompileOptions} {forest forest' : List Source.Tree} {g h : Graph}
    (hg : compileForest options forest = .ok g) (hh : compileForest options' forest' = .ok h)
    (hstatic : options.outside.IsStatic) (hstatic' : options'.outside.IsStatic) (hsummary : g.summary = h.summary) :
    g.EqButTags h :=
  (isReadable_of_compiled hg hstatic).eqButTags (isReadable_of_compiled hh hstatic') hsummary

end Graph

/-- A universe where texts have another name. -/
def Source.Small.texts : ListedUniverse := .insert .empty (.single ⟨"text", by decide⟩) (.builtIn .string)

/-- The shop, with an annotated label that is a text by its other name. -/
def Source.Small.annotated : List Source.Tree :=
  let label := { Small.label with
    base := some ⟨.single ⟨"text", by decide⟩, .one⟩, tags := [.marker ⟨"short", by decide⟩] }
  [⟨none, [], [⟨Small.shopName, [], [.value label, .entity Small.order, .entity Small.rush,
    .webApi Small.orders]⟩]⟩]

namespace Graph

theorem eqButTags_of_summary_eq_annotated :
    ∃ g h, compileForest {} Source.Small.shop = .ok g ∧
      compileForest { outside := Source.Small.texts.toUniverse } Source.Small.annotated = .ok h ∧
        g.summary = h.summary ∧ g ≠ h ∧ g.EqButTags h := by
  have hg : compileForest {} Source.Small.shop = .ok (graphOf .empty Source.Small.shop) :=
    Table.compileForest_eq_ok_iff.2 ⟨by decide, rfl⟩
  have hh : compileForest { outside := Source.Small.texts.toUniverse } Source.Small.annotated =
      .ok (graphOf Source.Small.texts.toUniverse Source.Small.annotated) :=
    Table.compileForest_eq_ok_iff.2 ⟨by decide, rfl⟩
  have hlines : (graphOf .empty Source.Small.shop).lines =
      (graphOf Source.Small.texts.toUniverse Source.Small.annotated).lines := by decide
  have hsummary : (graphOf .empty Source.Small.shop).summary =
      (graphOf Source.Small.texts.toUniverse Source.Small.annotated).summary :=
    calc (graphOf .empty Source.Small.shop).summary
      _ = Writer.lines (graphOf .empty Source.Small.shop).lines := (isForest_ofGroups _ _).summary_eq
      _ = Writer.lines (graphOf Source.Small.texts.toUniverse Source.Small.annotated).lines := congrArg _ hlines
      _ = (graphOf Source.Small.texts.toUniverse Source.Small.annotated).summary :=
        (isForest_ofGroups _ _).summary_eq.symm
  refine ⟨_, _, hg, hh, hsummary, by decide, ?_⟩
  exact eqButTags_of_summary_eq hg hh (.inl rfl) (.inr ⟨_, rfl⟩) hsummary

end Graph
end DomainModel
