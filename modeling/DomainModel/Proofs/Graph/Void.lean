import DomainModel.Proofs.Graph.Bound
/-!
# Void — where a compiled graph names `void`

The built-in `void` is a value and a single value like every other built-in type.  Two rules keep it out: a query has
something for its result, and entities and events derive from their kind alone (`void_of_compiled`).  Elsewhere a
compiled graph may name it: as an identity, a property, the base of a value, an argument or a filter
(`compileForest_hollow`).
-/
namespace DomainModel

open Source (At Means Node Obeys declarationsOf)

variable {forest : List Source.Tree} {outside : Universe}

namespace Graph

theorem resolveIn_of_bind_builtIn {t : Table} {x : SymbolIndex} {w : Written} {b : BuiltIn}
    (h : bind t x w = some (.builtIn b)) : t.resolveIn w.scope w.reference = some (.builtIn b) := by
  unfold bind at h
  obtain ⟨m, hm, htype⟩ := Option.bind_eq_some_iff.1 h
  cases m with
  | builtIn b' => cases htype; exact hm
  | external e => cases htype
  | declaration d =>
    obtain ⟨id, -, hid⟩ := Option.map_eq_some_iff.1 htype
    cases hid

/-- **Where a reference of a node may mean `void`**, if the node is as it must be: neither as the result of a query nor as
the base of an entity or an event. -/
theorem kind_of_means_void (hd : Table.Distinct (declarationsOf forest)) {s : Scope} {n : Node}
    (hobeys : Obeys outside forest s n) {slot : Symbol.Slot} {w : Written} (hw : n.written? s slot = some w)
    (hm : Means outside forest w.scope w.reference (.builtIn .void)) {kind : SymbolKind}
    (hk : n.symbolKind? = some kind) :
    (slot = .result → kind ≠ .query) ∧ (slot = .base → kind = .complexValue ∨ kind = .externalValue) := by
  refine ⟨?_, ?_⟩
  · rintro rfl rfl
    cases n with
    | query q =>
      cases hw
      obtain ⟨⟨m, hm', -, hnot⟩, -⟩ := hobeys
      exact hnot rfl (Table.means_unique hd hm' hm)
    | value v => cases hw
    | tree | block | entity | event | externalEnum | property | webApi | path | command | filter => cases hk
  · -- Only a value derives from a built-in type.
    rintro rfl
    obtain ⟨k, symbolKind, m, hsymbolKind, hdeclared, hm', hmay⟩ := hobeys.exists_means_base hw
    obtain rfl := Table.means_unique hd hm' hm
    obtain rfl := Option.some_inj.1 (hsymbolKind.symm.trans hk)
    have hvalue : k = .value := hmay
    rw [hvalue] at hdeclared
    exact SymbolKind.declarationKind?_eq_value_iff.1 hdeclared

/-- **Where a lookup of a compiled graph answers `void`**, the reference that is written there means it, and it is neither
the result of a query nor the base of an entity or an event. -/
theorem void_of_compiled {options : CompileOptions} {forest : List Source.Tree} {g : Graph}
    (hg : compileForest options forest = .ok g) {id : SymbolId} {x : GraphSymbol} (hx : g.symbol? id = some x)
    {slot : Symbol.Slot} {reads : List LookupAddress}
    (hread : (((Session.start g).readAll reads).read ⟨id, slot⟩).1 = some (.answer (some (.builtIn .void)))) :
    (∃ s n w, At forest s n ∧ g.Shows id x s n ∧ n.written? s slot = some w ∧
        Means options.outside forest w.scope w.reference (.builtIn .void)) ∧
      (slot = .result → x.kind ≠ .query) ∧ (slot = .base → x.kind = .complexValue ∨ x.kind = .externalValue) := by
  obtain ⟨hobserve, rfl⟩ := Table.compileForest_eq_ok_iff.1 hg
  obtain ⟨hd, hobeys, -⟩ := Table.observe_eq_nil_iff.1 hobserve
  rw [Session.read_after_readAll, lookup?, hx, Option.bind_some] at hread
  rcases exists_shows_of_symbol hx with ⟨-, hnone⟩ | ⟨s, n, hn, hshows, hlookups⟩
  · rw [hnone] at hread
    cases hread
  · rw [hlookups] at hread
    obtain ⟨type, htype, hanswer⟩ := Option.map_eq_some_iff.1 hread
    obtain ⟨w, hw, hbind⟩ := Option.map_eq_some_iff.1 htype
    cases hanswer
    have hm := (Table.resolveIn_eq_some_iff hd).1 (resolveIn_of_bind_builtIn hbind)
    exact ⟨⟨s, n, w, hn, hshows, hw, hm⟩, kind_of_means_void hd (hobeys s n hn) hw hm hshows.kind⟩

/-! ## Void in other places -/

end Graph

namespace Source.Small

def void (cardinality : Cardinality) : Reference := ⟨.single ⟨"void", by decide⟩, cardinality⟩

def hollowAtom (name : Identifier) (cardinality : Cardinality) : Atom := ⟨name, void cardinality, []⟩

/-- An entity whose identity is nothing and that loses nothing. -/
def ghost : Entity where
  name := ⟨"Ghost", by decide⟩
  isAbstract := false
  identity := some (void .one)
  base := none
  events := [⟨⟨"Lost", by decide⟩, false, none, [⟨hollowAtom ⟨"what", by decide⟩ .one, none⟩], []⟩]
  tags := []

/-- A value that derives from nothing and has nothing. -/
def hole : Value where
  name := ⟨"Hole", by decide⟩
  isAbstract := false
  isExternal := false
  base := some (void .one)
  properties := [⟨hollowAtom ⟨"inside", by decide⟩ .one, none⟩]
  equalBy := []
  tags := []

/-- A web API that takes nothing, in a command and in a filter. -/
def nowhere : Path where
  operation := ⟨⟨"Nowhere", by decide⟩, void .one, [], []⟩
  filters := [hollowAtom ⟨"near", by decide⟩ .zeroOrOne]
  members := [.command ⟨⟨"Send", by decide⟩, void .one, [hollowAtom ⟨"what", by decide⟩ .one], []⟩]

/-- **A namespace of nothing.** -/
def hollow : List Tree :=
  [⟨none, [], [⟨.single ⟨"limbo", by decide⟩, [], [.entity ghost, .value hole, .webApi nowhere]⟩]⟩]

end Source.Small

namespace Graph

theorem void_of_compiled_hollow :
    compileForest {} Source.Small.hollow = .ok (graphOf .empty Source.Small.hollow) ∧
      ∃ x, (graphOf .empty Source.Small.hollow).symbol? ⟨5⟩ = some x ∧ x.kind ≠ .query := by
  have hg : compileForest {} Source.Small.hollow = .ok (graphOf .empty Source.Small.hollow) :=
    Table.compileForest_eq_ok_iff.2 ⟨by decide, rfl⟩
  have hx : ((graphOf .empty Source.Small.hollow).symbol? ⟨5⟩).isSome = true := by decide
  obtain ⟨x, hx⟩ := Option.isSome_iff_exists.1 hx
  have hread : (((Session.start (graphOf .empty Source.Small.hollow)).readAll []).read ⟨⟨5⟩, .result⟩).1 =
      some (.answer (some (.builtIn .void))) := by
    rw [Session.read_after_readAll]
    decide
  obtain ⟨-, hquery, -⟩ := void_of_compiled hg hx hread
  exact ⟨hg, x, hx, hquery rfl⟩

/-- **`void` is an identity, a property, the base of a value, an argument and a filter.** -/
theorem compileForest_hollow :
    ∃ g, compileForest {} Source.Small.hollow = .ok g ∧
      (g.addresses.filter fun a => g.lookup? a = some (some (.builtIn .void))).map (fun a =>
          ((g.symbol? a.id).map (·.kind), a.slot)) =
        [(some .entity, .identity), (some .event, .property 0), (some .complexValue, .base),
          (some .complexValue, .property 0), (some .webApi, .result), (some .webApi, .filter 0),
          (some .command, .result), (some .command, .argument)] :=
  ⟨_, Table.compileForest_eq_ok_iff.2 ⟨by decide, rfl⟩, by decide⟩

end Graph
end DomainModel
