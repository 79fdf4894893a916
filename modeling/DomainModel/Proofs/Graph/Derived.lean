import DomainModel.Proofs.Graph.Bases
/-!
# Derived — what the questions for bases leave out

In a compiled graph a base is a symbol of the same kind of declaration, or the built-in type that a value derives from
(`Graph.base_of_compiled`).  To the rules complex and external values are one kind, in a graph they are two: the
question for the base of an entity or an event answers what its lookup reads, and that for the base of a value leaves
out whatever an external value is part of (`Graph.baseQueries_of_compiled`).
-/
namespace DomainModel

theorem Content.kind_of_base? {L : Type} {c : Content L} {base : L} (h : c.base? = some base) :
    c.kind = .entity ∨ c.kind = .event ∨ c.kind = .complexValue ∨ c.kind = .externalValue := by
  cases c with
  | entity | event | complexValue | externalValue => simp [kind]
  | space | externalEnum | webApi | path | query | command => cases h

namespace Graph

variable {g : Graph} {id base : SymbolId} {x : GraphSymbol}

/-- **The base of a symbol reads as a type**, whatever was read before. -/
def ReadsBase (g : Graph) (id : SymbolId) (type : TypeRef) : Prop :=
  ∀ reads : List LookupAddress, (((Session.start g).readAll reads).read ⟨id, .base⟩).1 = some (.answer (some type))

theorem readsBase_iff (hx : g.symbol? id = some x) {type : TypeRef} :
    g.ReadsBase id type ↔ x.content.base? = some (some type) := by
  have hread : ∀ reads : List LookupAddress, (((Session.start g).readAll reads).read ⟨id, .base⟩).1 =
      x.content.base?.map Reading.answer := by
    intro reads
    rw [Session.read_after_readAll, lookup?, hx]
    rfl
  constructor
  · intro h
    have hbase := (hread []).symm.trans (h [])
    obtain ⟨type', hx', heq⟩ := Option.map_eq_some_iff.1 hbase
    cases heq
    exact hx'
  · intro h reads
    rw [hread, h]
    rfl

theorem ReadsBase.unique (hx : g.symbol? id = some x) {type type' : TypeRef} (h : g.ReadsBase id type)
    (h' : g.ReadsBase id type') : type = type' := by
  have heq := ((readsBase_iff hx).1 h).symm.trans ((readsBase_iff hx).1 h')
  exact Option.some_inj.1 (Option.some_inj.1 heq)

/-- **What a symbol of a compiled graph derives from**: a symbol of the same kind of declaration, or a built-in type,
which only values do. -/
theorem base_of_compiled {options : CompileOptions} {forest : List Source.Tree}
    (hg : compileForest options forest = .ok g) (hx : g.symbol? id = some x) {found : Option TypeRef}
    (hbase : x.content.base? = some found) :
    ∃ kind, x.declarationKind? = some kind ∧
      ((kind = .value ∧ ∃ b, found = some (.builtIn b)) ∨
        ∃ base y, found = some (.symbol base) ∧ g.symbol? base = some y ∧ y.declarationKind? = some kind) := by
  obtain ⟨hobserve, rfl⟩ := Table.compileForest_eq_ok_iff.1 hg
  obtain ⟨hdistinct, hobeys, -⟩ := Table.observe_eq_nil_iff.1 hobserve
  have hlookup : x.lookup? .base = some found := hbase
  rcases exists_shows_of_symbol hx with ⟨-, hnone⟩ | ⟨s, n, hn, hshows, hlookups⟩
  · rw [hnone] at hlookup
    cases hlookup
  · rw [hlookups] at hlookup
    obtain ⟨w, hw, hbind⟩ := Option.map_eq_some_iff.1 hlookup
    obtain ⟨kind, symbolKind, m, hsymbolKind, hkind, hm, hmay⟩ := (hobeys s n hn).exists_means_base hw
    obtain rfl := Option.some_inj.1 (hsymbolKind.symm.trans hshows.kind)
    obtain ⟨type, htype, hdenotes⟩ := exists_bind_of_resolveIn hdistinct ((Table.resolveIn_eq_some_iff hdistinct).2 hm)
    obtain rfl : some type = found := htype.symm.trans hbind
    refine ⟨kind, hkind, ?_⟩
    cases hdenotes with
    | builtIn b => exact .inl ⟨hmay, b, rfl⟩
    | external e => exact hmay.elim
    | @declaration d base hsymbol =>
      obtain ⟨y, hy, hyk⟩ := hsymbol.kind
      have hdk : d.kind = kind := hmay
      exact .inr ⟨base, y, rfl, hy, hyk.trans (congrArg some hdk)⟩

/-- **What the question for the base of an event or a value leaves out**: all that derives from a built-in type, and
all that is or derives from an external value. -/
def LeftOut (g : Graph) (id : SymbolId) (x : GraphSymbol) : Prop :=
  x.kind = .externalValue ∨
    x.kind = .complexValue ∧
      ((∃ b, g.ReadsBase id (.builtIn b)) ∨
        ∃ base y, g.ReadsBase id (.symbol base) ∧ g.symbol? base = some y ∧ y.kind = .externalValue)

section Compiled

variable {options : CompileOptions} {forest : List Source.Tree}

/-- A base of a symbol is a symbol of the same kind of declaration. -/
theorem exists_symbol_of_base (hg : compileForest options forest = .ok g) (hx : g.symbol? id = some x)
    (hbase : x.content.base? = some (some (.symbol base))) :
    ∃ y, g.symbol? base = some y ∧ y.declarationKind? = x.declarationKind? := by
  obtain ⟨kind, hkind, ⟨-, b, heq⟩ | ⟨base', y, heq, hy, hyk⟩⟩ := base_of_compiled hg hx hbase
  · cases heq
  · cases heq
    exact ⟨y, hy, hyk.trans hkind.symm⟩

theorem baseEntity?_iff_of_compiled (hg : compileForest options forest = .ok g) (hx : g.symbol? id = some x) :
    g.baseEntity? id = some base ↔ x.kind = .entity ∧ g.ReadsBase id (.symbol base) := by
  rw [baseEntity?_eq_some_iff hx, readsBase_iff hx]
  constructor
  · rintro ⟨hk, hbase, -⟩
    exact ⟨hk, hbase⟩
  · rintro ⟨hk, hbase⟩
    obtain ⟨y, hy, hyk⟩ := exists_symbol_of_base hg hx hbase
    refine ⟨hk, hbase, y, hy, SymbolKind.declarationKind?_eq_entity_iff.1 ?_⟩
    exact hyk.trans (SymbolKind.declarationKind?_eq_entity_iff.2 hk)

theorem baseMolecule?_iff_of_compiled (hg : compileForest options forest = .ok g) (hx : g.symbol? id = some x) :
    g.baseMolecule? id = some base ↔ g.ReadsBase id (.symbol base) ∧
      (x.kind = .event ∨ x.kind = .complexValue ∧ ∃ y, g.symbol? base = some y ∧ y.kind = .complexValue) := by
  rw [baseMolecule?_eq_some_iff hx, readsBase_iff hx]
  constructor
  · rintro ⟨hk | hk, hbase, y, hy, hyk⟩
    · exact ⟨hbase, .inl hk⟩
    · exact ⟨hbase, .inr ⟨hk, y, hy, hyk.trans hk⟩⟩
  · rintro ⟨hbase, hk | ⟨hk, y, hy, hyk⟩⟩
    · -- Events derive from events alone, so here the kinds of symbols agree as well.
      obtain ⟨y, hy, hyk⟩ := exists_symbol_of_base hg hx hbase
      have hyk : y.kind = .event :=
        SymbolKind.declarationKind?_eq_event_iff.1 (hyk.trans (SymbolKind.declarationKind?_eq_event_iff.2 hk))
      exact ⟨.inl hk, hbase, y, hy, hyk.trans hk.symm⟩
    · exact ⟨.inr hk, hbase, y, hy, hyk.trans hk.symm⟩

/-- **An event or a value that has a base and no answer** to the question for it is left out. -/
theorem leftOut_of_baseMolecule?_eq_none (hg : compileForest options forest = .ok g) (hx : g.symbol? id = some x)
    {found : Option TypeRef} (hbase : x.content.base? = some found) (hentity : x.kind ≠ .entity)
    (hnone : g.baseMolecule? id = none) : g.LeftOut id x := by
  have hsilent : ∀ base, ¬ (g.ReadsBase id (.symbol base) ∧
      (x.kind = .event ∨ x.kind = .complexValue ∧ ∃ y, g.symbol? base = some y ∧ y.kind = .complexValue)) := by
    intro base h
    cases hnone.symm.trans ((baseMolecule?_iff_of_compiled hg hx).2 h)
  obtain ⟨kind, hkind, hfound⟩ := base_of_compiled hg hx hbase
  rcases Content.kind_of_base? hbase with hk | hk | hk | hk
  · exact absurd hk hentity
  · -- An event derives from an event, and that is answered.
    exfalso
    rcases hfound with ⟨rfl, -⟩ | ⟨base, y, rfl, -⟩
    · cases hkind.symm.trans (SymbolKind.declarationKind?_eq_event_iff.2 hk)
    · exact hsilent base ⟨(readsBase_iff hx).2 hbase, .inl hk⟩
  · refine .inr ⟨hk, ?_⟩
    rcases hfound with ⟨-, b, rfl⟩ | ⟨base, y, rfl, hy, hyk⟩
    · exact .inl ⟨b, (readsBase_iff hx).2 hbase⟩
    · have hreads := (readsBase_iff hx).2 hbase
      refine .inr ⟨base, y, hreads, hy, ?_⟩
      have hvalue : y.declarationKind? = some .value :=
        hyk.trans (hkind.symm.trans (SymbolKind.declarationKind?_eq_value_iff.2 (.inl hk)))
      refine (SymbolKind.declarationKind?_eq_value_iff.1 hvalue).resolve_left fun hcomplex => ?_
      exact hsilent base ⟨hreads, .inr ⟨hk, y, hy, hcomplex⟩⟩
  · exact .inl hk

theorem LeftOut.baseMolecule?_eq_none (hg : compileForest options forest = .ok g) (hx : g.symbol? id = some x)
    (h : g.LeftOut id x) : g.baseMolecule? id = none := by
  rw [Option.eq_none_iff_forall_ne_some]
  intro base hbase
  obtain ⟨hreads, hkind⟩ := (baseMolecule?_iff_of_compiled hg hx).1 hbase
  rcases h with hk | ⟨hk, ⟨b, hb⟩ | ⟨base', y, hreads', hy, hyk⟩⟩
  · rw [hk] at hkind
    rcases hkind with hk | ⟨hk, -⟩ <;> cases hk
  · cases hreads.unique hx hb
  · cases hreads.unique hx hreads'
    rw [hk] at hkind
    obtain ⟨-, y', hy', hyk'⟩ := hkind.resolve_left nofun
    cases hy.symm.trans hy'
    cases hyk.symm.trans hyk'

end Compiled

/-- **The questions for bases in a compiled graph.**  That for the base of an entity answers what the lookup reads; so
does that for the base of an event.  That for the base of a complex value answers a complex value that is read, and
nothing for a built-in type or an external value; of an external value it answers nothing. -/
theorem baseQueries_of_compiled {options : CompileOptions} {forest : List Source.Tree}
    (hg : compileForest options forest = .ok g) (hx : g.symbol? id = some x) :
    (∀ base, g.baseEntity? id = some base ↔ x.kind = .entity ∧ g.ReadsBase id (.symbol base)) ∧
      (∀ base, g.baseMolecule? id = some base ↔ g.ReadsBase id (.symbol base) ∧
        (x.kind = .event ∨ x.kind = .complexValue ∧ ∃ y, g.symbol? base = some y ∧ y.kind = .complexValue)) ∧
      ((x.lookup? .base).isSome = true → x.kind ≠ .entity → (g.baseMolecule? id = none ↔ g.LeftOut id x)) := by
  refine ⟨fun _ => baseEntity?_iff_of_compiled hg hx, fun _ => baseMolecule?_iff_of_compiled hg hx,
    fun hbase hentity => ⟨fun hnone => ?_, LeftOut.baseMolecule?_eq_none hg hx⟩⟩
  obtain ⟨found, hfound⟩ := Option.isSome_iff_exists.1 hbase
  exact leftOut_of_baseMolecule?_eq_none hg hx hfound hentity hnone

end Graph

namespace Source.Small

def moneyName : Identifier := ⟨"Money", by decide⟩

def priceName : Identifier := ⟨"Price", by decide⟩

/-- A value without properties. -/
def plain (name : Identifier) (isExternal : Bool) (base : Reference) : Member :=
  .value ⟨name, false, isExternal, some base, [], [], []⟩

/-- An external value that is a text, a price in it and another external value, and a fare that is a price. -/
def prices : List Tree :=
  [⟨none, [], [⟨shopName, [], [plain moneyName true string, plain priceName false ⟨.single moneyName, .one⟩,
    plain ⟨"Cash", by decide⟩ true ⟨.single moneyName, .one⟩,
    plain ⟨"Fare", by decide⟩ false ⟨.single priceName, .one⟩]⟩]⟩]

end Source.Small

namespace Graph

theorem compileForest_prices : compileForest {} Source.Small.prices = .ok (graphOf .empty Source.Small.prices) :=
  Table.compileForest_eq_ok_iff.2 ⟨by decide, rfl⟩

theorem baseQueries_of_compiled_prices :
    (graphOf .empty Source.Small.prices).ReadsBase ⟨4⟩ (.symbol ⟨2⟩) ∧
      ∃ x, (graphOf .empty Source.Small.prices).symbol? ⟨2⟩ = some x ∧
        (graphOf .empty Source.Small.prices).LeftOut ⟨2⟩ x := by
  have hfare : ((graphOf .empty Source.Small.prices).symbol? ⟨4⟩).isSome = true := by decide
  have hprice : ((graphOf .empty Source.Small.prices).symbol? ⟨2⟩).isSome = true := by decide
  obtain ⟨y, hy⟩ := Option.isSome_iff_exists.1 hfare
  obtain ⟨-, hanswer, -⟩ := baseQueries_of_compiled compileForest_prices hy
  have hbase : (graphOf .empty Source.Small.prices).baseMolecule? ⟨4⟩ = some ⟨2⟩ := by decide
  obtain ⟨x, hx⟩ := Option.isSome_iff_exists.1 hprice
  have hkind : ((graphOf .empty Source.Small.prices).symbol? ⟨2⟩).map (·.kind) = some .complexValue := by decide
  have hlookup : (((graphOf .empty Source.Small.prices).symbol? ⟨2⟩).bind (·.lookup? .base)).isSome = true := by decide
  rw [hx] at hkind hlookup
  have hkind : x.kind = .complexValue := Option.some_inj.1 hkind
  have hentity : x.kind ≠ .entity := by
    rw [hkind]
    decide
  obtain ⟨-, -, hsilent⟩ := baseQueries_of_compiled compileForest_prices hx
  exact ⟨((hanswer _).1 hbase).1, x, hx, (hsilent hlookup hentity).1 (by decide)⟩

/-- **A complex value and an external value that derive from a symbol and get no answer.** -/
theorem baseMolecule?_prices :
    ∃ g, compileForest {} Source.Small.prices = .ok g ∧
      (∃ x, g.symbol? ⟨2⟩ = some x ∧ x.kind = .complexValue ∧ g.ReadsBase ⟨2⟩ (.symbol ⟨1⟩) ∧
        g.baseMolecule? ⟨2⟩ = none) ∧
      ∃ x, g.symbol? ⟨3⟩ = some x ∧ x.kind = .externalValue ∧ g.ReadsBase ⟨3⟩ (.symbol ⟨1⟩) ∧
        g.baseMolecule? ⟨3⟩ = none := by
  have hsymbol : ∀ id kind, ((graphOf .empty Source.Small.prices).symbol? id).map (fun x => (x.kind, x.content.base?)) =
      some (kind, some (some (.symbol ⟨1⟩))) → ∃ x, (graphOf .empty Source.Small.prices).symbol? id = some x ∧
        x.kind = kind ∧ (graphOf .empty Source.Small.prices).ReadsBase id (.symbol ⟨1⟩) := by
    intro id kind h
    obtain ⟨x, hx, hkind, hbase⟩ := by simpa using h
    exact ⟨x, hx, hkind, (readsBase_iff hx).2 hbase⟩
  obtain ⟨x, hx, hxk, hxb⟩ := hsymbol ⟨2⟩ .complexValue (by decide)
  obtain ⟨y, hy, hyk, hyb⟩ := hsymbol ⟨3⟩ .externalValue (by decide)
  exact ⟨_, compileForest_prices, ⟨x, hx, hxk, hxb, by decide⟩, y, hy, hyk, hyb, by decide⟩

end Graph
end DomainModel
