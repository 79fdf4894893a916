import DomainModel.Proofs.Graph.Bound
import Mathlib.Data.List.Chain
/-!
# Bases — the bases of a compiled graph run out

A base that is read from a compiled graph is the symbol of the declaration that the symbol's own derives from
(`Graph.exists_derivesFrom_of_baseOf`).  So what the rules see of declarations holds of symbols: bases keep the kind,
and where circles are looked for, whoever goes from base to base never meets a symbol twice and comes to an end.
-/
namespace DomainModel

open Source (At DerivesFrom Node Obeys declarationsOf)

theorem Source.Node.exists_declaration_of_base {s : Scope} {n : Node} {w : Written} (h : n.written? s .base = some w) :
    ∃ d, n.declaration? s = some d ∧ d.base = some w.reference ∧ d.scope = w.scope := by
  cases n with
  | entity e =>
    obtain ⟨r, hr, rfl⟩ := Option.map_eq_some_iff.1 h
    exact ⟨_, rfl, congrArg (Option.map _) hr, rfl⟩
  | event e =>
    obtain ⟨r, hr, rfl⟩ := Option.map_eq_some_iff.1 h
    exact ⟨_, rfl, congrArg (Option.map _) hr, rfl⟩
  | value v =>
    obtain ⟨r, hr, rfl⟩ := Option.map_eq_some_iff.1 h
    exact ⟨_, rfl, congrArg (Option.map _) hr, rfl⟩
  | tree | block | property | filter | webApi | path | query | command | externalEnum => cases h

namespace Graph

/-- **A symbol is the base of another**: the lookup of the base gives it, whatever was read before, or one of the
questions for the base of an entity or for that of an event or a value does. -/
inductive BaseOf (g : Graph) : SymbolId → SymbolId → Prop
  | read {id base : SymbolId} (reads : List LookupAddress) :
      (((Session.start g).readAll reads).read ⟨id, .base⟩).1 = some (.answer (some (.symbol base))) → BaseOf g id base
  | entity {id base : SymbolId} : g.baseEntity? id = some base → BaseOf g id base
  | molecule {id base : SymbolId} : g.baseMolecule? id = some base → BaseOf g id base

/-- A base that is tested is the symbol that the lookup holds, if that passes. -/
theorem tested_eq_some_iff {g : Graph} {x : GraphSymbol} {base : SymbolId} {p : GraphSymbol → Prop} [DecidablePred p] :
    (do
      let type ← (← x.content.base?)
      let b ← type.symbol?
      let y ← g.symbol? b
      if p y then some b else none) = some base ↔
        x.content.base? = some (some (.symbol base)) ∧ ∃ y, g.symbol? base = some y ∧ p y := by
  simp only [Option.bind_eq_bind, Option.bind_eq_some_iff]
  constructor
  · rintro ⟨_, hx, type, rfl, b, hb, y, hy, h⟩
    split at h
    · rename_i hp
      cases h
      cases type with
      | symbol id => cases hb; exact ⟨hx, y, hy, hp⟩
      | builtIn | external => cases hb
    · cases h
  · rintro ⟨hx, y, hy, hp⟩
    exact ⟨_, hx, _, rfl, base, rfl, y, hy, if_pos hp⟩

/-- **The entity that an entity derives from** is held by its base lookup and is an entity. -/
theorem baseEntity?_eq_some_iff {g : Graph} {id base : SymbolId} {x : GraphSymbol} (hx : g.symbol? id = some x) :
    g.baseEntity? id = some base ↔
      x.kind = .entity ∧ x.content.base? = some (some (.symbol base)) ∧
        ∃ y, g.symbol? base = some y ∧ y.kind = .entity := by
  rw [← tested_eq_some_iff (p := fun y => y.kind = .entity), baseEntity?, hx]
  by_cases hk : x.kind = .entity
  · rw [Option.bind_eq_bind, Option.bind_some, if_neg (not_not.2 hk)]
    exact (and_iff_right hk).symm
  · rw [Option.bind_eq_bind, Option.bind_some, if_pos hk]
    exact ⟨nofun, fun h => absurd h.1 hk⟩

/-- **The event or value that one derives from** is held by its base lookup and is of the same kind; external values have
none. -/
theorem baseMolecule?_eq_some_iff {g : Graph} {id base : SymbolId} {x : GraphSymbol} (hx : g.symbol? id = some x) :
    g.baseMolecule? id = some base ↔
      (x.kind = .event ∨ x.kind = .complexValue) ∧ x.content.base? = some (some (.symbol base)) ∧
        ∃ y, g.symbol? base = some y ∧ y.kind = x.kind := by
  rw [← tested_eq_some_iff (p := fun y => y.kind = x.kind), baseMolecule?, hx]
  by_cases hk : x.kind = .event ∨ x.kind = .complexValue
  · rw [Option.bind_eq_bind, Option.bind_some, if_neg (by tauto)]
    exact (and_iff_right hk).symm
  · rw [Option.bind_eq_bind, Option.bind_some, if_pos (not_or.1 hk)]
    exact ⟨nofun, fun h => absurd h.1 hk⟩

/-- However the base of a symbol is found, its lookup holds it. -/
theorem BaseOf.lookup? {g : Graph} {id base : SymbolId} (h : g.BaseOf id base) :
    ∃ x, g.symbol? id = some x ∧ x.lookup? .base = some (some (.symbol base)) := by
  cases h with
  | read reads h =>
    rw [Session.read_after_readAll, Option.map_eq_some_iff] at h
    obtain ⟨answer, hanswer, heq⟩ := h
    cases heq
    exact Option.bind_eq_some_iff.1 hanswer
  | entity h =>
    obtain ⟨x, hx, -⟩ := Option.bind_eq_some_iff.1 h
    exact ⟨x, hx, ((baseEntity?_eq_some_iff hx).1 h).2.1⟩
  | molecule h =>
    obtain ⟨x, hx, -⟩ := Option.bind_eq_some_iff.1 h
    exact ⟨x, hx, ((baseMolecule?_eq_some_iff hx).1 h).2.1⟩

section Compiled

variable {options : CompileOptions} {forest : List Source.Tree} {g : Graph}

/-- **A base of a compiled graph is the symbol of the declaration that is derived from.** -/
theorem exists_derivesFrom_of_baseOf (hg : compileForest options forest = .ok g) {id base : SymbolId}
    (h : g.BaseOf id base) : ∃ d ∈ declarationsOf forest, ∃ e ∈ declarationsOf forest,
      g.IsSymbolOf id d ∧ g.IsSymbolOf base e ∧ DerivesFrom options.outside forest d e := by
  obtain ⟨hobserve, rfl⟩ := Table.compileForest_eq_ok_iff.1 hg
  obtain ⟨hdistinct, -, -⟩ := Table.observe_eq_nil_iff.1 hobserve
  obtain ⟨x, hx, hlookup⟩ := h.lookup?
  obtain ⟨q, hq, rfl, rfl⟩ := symbol?_ofGroups.1 hx
  rw [Symbol.lookup?_map, q.lookup?_symbol, Option.map_eq_some_iff] at hlookup
  obtain ⟨w, hw, hbind⟩ := hlookup
  rcases q.origin_cases hq with ⟨group, -, htree, -⟩ | ⟨s, n, hn, htree, hpath⟩
  · rw [htree, Group.tree_eq] at hw; cases hw
  rw [Node.lookup?_tree htree] at hw
  obtain ⟨d, hd, hbase, hscope⟩ := Node.exists_declaration_of_base hw
  obtain ⟨m, hm, hbind⟩ := Option.bind_eq_some_iff.1 hbind
  cases m with
  | builtIn b => cases hbind
  | external e => cases hbind
  | declaration e =>
    have he := (Table.mem_declarations_ofForest hdistinct).1 (Table.mem_of_resolveIn hm)
    obtain ⟨id, hid, hsymbol⟩ := exists_symbol_of_declared
      (t := Table.ofForest options.outside forest) hdistinct he
    obtain ⟨_, hid', heq⟩ := Option.map_eq_some_iff.1 hbind
    cases heq
    obtain rfl : id = base := Option.some_inj.1 (hid.symm.trans hid')
    refine ⟨d, Source.mem_declarationsOf_iff.2 ⟨s, n, hn, hd⟩, e, he, isSymbolOf_of_declares hq htree hpath hd, hsymbol,
      w.reference, hbase, ?_⟩
    rw [hscope]
    exact (Table.resolveIn_eq_some_iff hdistinct).1 hm

theorem IsSymbolOf.eq (hdistinct : Table.Distinct (declarationsOf forest)) {id : SymbolId} {d e : Declaration}
    (hd : g.IsSymbolOf id d) (he : g.IsSymbolOf id e) (hdm : d ∈ declarationsOf forest) (hem : e ∈ declarationsOf forest) :
    d = e := hdistinct.eq hdm hem (Option.some_inj.1 (hd.fullName.symm.trans he.fullName))

/-- **Going from base to base is following what declarations derive from.** -/
theorem exists_transGen_of_baseOf (hg : compileForest options forest = .ok g) {id base : SymbolId}
    (h : Relation.TransGen g.BaseOf id base) : ∃ d ∈ declarationsOf forest, ∃ e ∈ declarationsOf forest,
      g.IsSymbolOf id d ∧ g.IsSymbolOf base e ∧ Relation.TransGen (DerivesFrom options.outside forest) d e := by
  obtain ⟨hdistinct, -, -⟩ := Table.observe_eq_nil_iff.1 (Table.compileForest_eq_ok_iff.1 hg).1
  induction h with
  | single h =>
    obtain ⟨d, hd, e, he, hid, hbase, hder⟩ := exists_derivesFrom_of_baseOf hg h
    exact ⟨d, hd, e, he, hid, hbase, .single hder⟩
  | tail _ h ih =>
    obtain ⟨d, hd, e, he, hid, hmid, hders⟩ := ih
    obtain ⟨e', he', c, hc, hmid', hbase, hder⟩ := exists_derivesFrom_of_baseOf hg h
    obtain rfl := hmid.eq hdistinct hmid' he he'
    exact ⟨d, hd, c, hc, hid, hbase, hders.tail hder⟩

end Compiled

theorem pairwise_of_isChain {α : Type} {r : α → α → Prop} {as : List α} (h : as.IsChain r) :
    as.Pairwise (Relation.TransGen r) :=
  List.isChain_iff_pairwise.1 (h.imp fun _ _ hab => Relation.TransGen.single hab)

/-- **Bases of a compiled graph keep the kind, never come back, and run out in fewer steps than there are symbols**,
where circles of bases are looked for. -/
theorem bases_of_compiled {limit : Nat} {outside : Universe} {forest : List Source.Tree} {g : Graph}
    (hg : compileForest { limit, circles := true, outside } forest = .ok g) :
    (∀ id base, g.BaseOf id base → ∃ x y, g.symbol? id = some x ∧ g.symbol? base = some y ∧
        x.declarationKind?.isSome ∧ y.declarationKind? = x.declarationKind?) ∧
      (∀ id, ¬ Relation.TransGen g.BaseOf id id) ∧
      ∀ id ids, id.index < g.size → (id :: ids).IsChain g.BaseOf → (id :: ids).Nodup ∧ ids.length < g.size := by
  obtain ⟨hdistinct, hobeys, hlead⟩ := Table.observe_eq_nil_iff.1 (Table.compileForest_eq_ok_iff.1 hg).1
  have hkind : ∀ d ∈ declarationsOf forest, ∀ b, DerivesFrom outside forest d b → b.kind = d.kind :=
    fun _ hd _ => Table.kind_of_derivesFrom hdistinct hobeys hd
  have hacyclic : ∀ id, ¬ Relation.TransGen g.BaseOf id id := by
    intro id h
    obtain ⟨d, hd, e, he, hid, hid', hcircle⟩ := exists_transGen_of_baseOf hg h
    obtain rfl := hid.eq hdistinct hid' hd he
    exact (Table.forall_leadsAway_iff hdistinct hkind).1 hlead d hd hcircle
  refine ⟨fun id base h => ?_, hacyclic, fun id ids hid hchain => ?_⟩
  · obtain ⟨d, hd, e, -, ⟨-, -, x, hx, hxk⟩, ⟨-, -, y, hy, hyk⟩, hder⟩ := exists_derivesFrom_of_baseOf hg h
    exact ⟨x, y, hx, hy, by rw [hxk]; rfl, by rw [hxk, hyk, hkind d hd e hder]⟩
  · have hpair := pairwise_of_isChain hchain
    have hnodup : (id :: ids).Nodup := by
      refine hpair.imp fun {a b} hab heq => ?_
      subst heq
      exact hacyclic _ hab
    refine ⟨hnodup, ?_⟩
    -- As many different symbols as the chain is long are among those of the graph.
    have hsub : (id :: ids) ⊆ g.ids := by
      intro b hb
      refine List.mem_map.2 ⟨b.index, List.mem_range.2 ?_, rfl⟩
      rcases List.mem_cons.1 hb with rfl | hb
      · exact hid
      · obtain ⟨_, -, _, -, -, hsymbol, -⟩ := exists_transGen_of_baseOf hg ((List.pairwise_cons.1 hpair).1 b hb)
        exact hsymbol.lt
    have hlen := (hnodup.subperm hsub).length_le
    rwa [List.length_cons, Graph.ids, List.length_map, List.length_range] at hlen

theorem bases_of_compiled_shop :
    compileForest { limit := 0, circles := true, outside := .empty } Source.Small.shop =
        .ok (graphOf .empty Source.Small.shop) ∧
      (graphOf .empty Source.Small.shop).BaseOf ⟨4⟩ ⟨2⟩ ∧
      (∃ x y, (graphOf .empty Source.Small.shop).symbol? ⟨4⟩ = some x ∧
        (graphOf .empty Source.Small.shop).symbol? ⟨2⟩ = some y ∧ x.declarationKind?.isSome ∧
          y.declarationKind? = x.declarationKind?) ∧
      ¬ Relation.TransGen (graphOf .empty Source.Small.shop).BaseOf ⟨4⟩ ⟨4⟩ ∧
      [SymbolId.mk 4, ⟨2⟩].Nodup ∧ [SymbolId.mk 2].length < (graphOf .empty Source.Small.shop).size := by
  have hg : compileForest { limit := 0, circles := true, outside := .empty } Source.Small.shop =
      .ok (graphOf .empty Source.Small.shop) := Table.compileForest_eq_ok_iff.2 ⟨by decide, rfl⟩
  have hbase : (graphOf .empty Source.Small.shop).BaseOf ⟨4⟩ ⟨2⟩ := .entity (by decide)
  obtain ⟨hkind, hacyclic, hchain⟩ := bases_of_compiled hg
  exact ⟨hg, hbase, hkind _ _ hbase, hacyclic _, hchain ⟨4⟩ [⟨2⟩] (by decide) (.cons_cons hbase (.singleton _))⟩

end Graph
end DomainModel
