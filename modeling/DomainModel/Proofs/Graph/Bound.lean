import DomainModel.Proofs.Graph.Index
import DomainModel.Proofs.Graph.Reading
import DomainModel.Proofs.Rules.Extended
/-!
# Bound — lookups name what references mean

Every lookup of a compiled graph stands for a reference of a node: a base is looked up where the node is written, and
everything else inside the node (`Node.written?`).  Its answer is what the table of the rules gives for the reference
there, a declaration being its symbol (`Graph.Denotes`).  So no reference of a compiled graph is left open, and none is
bound to anything but what was checked.
-/
namespace DomainModel

open Source (At Atom Node Obeys Operation Path declarationsOf)

namespace SymbolKind

variable {k : SymbolKind}

theorem declarationKind?_eq_entity_iff : k.declarationKind? = some .entity ↔ k = .entity := by
  cases k <;> simp [declarationKind?]

theorem declarationKind?_eq_event_iff : k.declarationKind? = some .event ↔ k = .event := by
  cases k <;> simp [declarationKind?]

/-- To the rules complex and external values are one kind. -/
theorem declarationKind?_eq_value_iff : k.declarationKind? = some .value ↔ k = .complexValue ∨ k = .externalValue := by
  cases k <;> simp [declarationKind?]

end SymbolKind

namespace Source

/-! ## What is written at a slot -/

/-- The reference at a slot of an operation, looked up inside the operation. -/
def Operation.written? (own : Scope) (o : Operation) (filters : List Atom) : Symbol.Slot → Option Written
  | .result => some ⟨o.result.name, own⟩
  | .argument =>
    match o.arguments with
    | [a] => some ⟨a.type.name, own⟩
    | _ => none
  | .filter i => filters[i]?.map fun a => ⟨a.type.name, own⟩
  | .base | .identity | .property _ => none

/-- **The reference at a slot of a node**, with the scope in which it is looked up: a base where the node is written,
anything else inside the node.  Of an external value only the base is kept. -/
def Node.written? (s : Scope) : Node → Symbol.Slot → Option Written
  | .entity e, .base => e.base.map fun r => ⟨r.name, s⟩
  | .entity e, .identity => e.identity.map fun r => ⟨r.name, .declaration s e.name⟩
  | .event e, .base => e.base.map fun r => ⟨r.name, s⟩
  | .event e, .property i => e.properties[i]?.map fun p => ⟨p.atom.type.name, .declaration s e.name⟩
  | .value v, .base => v.base.map fun r => ⟨r.name, s⟩
  | .value v, .property i =>
    if v.isExternal then none else v.properties[i]?.map fun p => ⟨p.atom.type.name, .declaration s v.name⟩
  | .webApi p, slot | .path p, slot => p.operation.written? (.declaration s p.operation.name) p.filters slot
  | .query q, slot => q.operation.written? (.declaration s q.operation.name) q.filters slot
  | .command o, slot => o.written? (.declaration s o.name) [] slot
  | _, _ => none

def Node.symbolKind? : Node → Option SymbolKind
  | .entity _ => some .entity
  | .event _ => some .event
  | .value v => some (if v.isExternal then .externalValue else .complexValue)
  | .externalEnum _ => some .externalEnum
  | .webApi _ => some .webApi
  | .path _ => some .path
  | .query _ => some .query
  | .command _ => some .command
  | .tree _ | .block _ | .property _ | .filter _ => none

variable {forest : List Tree} {outside : Universe} {s : Scope} {n : Node} {slot : Symbol.Slot} {w : Written}

/-- A symbol with an operation and filters, and without anything else, holds what is written at the operation. -/
theorem Operation.lookup?_eq {x : Symbol Written} {own : Scope} {kind : OperationKind} {o : Operation}
    (filters : List Atom) (ho : x.content.operation? = some (o.symbol own kind))
    (hf : x.content.filters = filters.map (·.symbol own)) (hb : x.content.base? = none)
    (hi : x.content.identity? = none) (hp : x.content.properties = []) :
    x.lookup? slot = o.written? own filters slot := by
  cases slot with
  | base => rw [Symbol.lookup?, hb]; rfl
  | identity => rw [Symbol.lookup?, hi]; rfl
  | property i => rw [Symbol.lookup?, hp]; rfl
  | result => rw [Symbol.lookup?, ho]; rfl
  | argument =>
    rw [Symbol.lookup?, ho, written?, Option.bind_some, Operation.symbol]
    rcases o.arguments with _ | ⟨a, _ | ⟨b, as⟩⟩ <;> rfl
  | filter i =>
    rw [Symbol.lookup?, hf, written?, List.getElem?_map, Option.map_map]
    rfl

/-- **The tree of a node holds the references that are written at the node.** -/
theorem Node.lookup?_tree {t : SymbolTree} (h : n.tree? s = some t) (parent : Option SymbolId) :
    (Symbol.mk t.name parent t.tags t.content).lookup? slot = n.written? s slot := by
  have hproperties : ∀ (own : Scope) (ps : List Property) (i : Nat),
      (ps.map (·.symbol own))[i]?.map (fun a => a.type.lookup) = ps[i]?.map fun p => ⟨p.atom.type.name, own⟩ := by
    intro own ps i
    rw [List.getElem?_map, Option.map_map]
    rfl
  cases n with
  | entity e =>
    cases h
    cases slot with
    | identity => exact Option.map_map ..
    | base | result | argument | property | filter => rfl
  | event e =>
    cases h
    cases slot with
    | property i => exact hproperties _ _ i
    | base | identity | result | argument | filter => rfl
  | value v =>
    cases h
    unfold Value.tree
    cases hv : v.isExternal with
    | true =>
      cases slot with
      | property i => simp only [written?, hv]; rfl
      | base | identity | result | argument | filter => rfl
    | false =>
      cases slot with
      | property i =>
        simp only [written?, hv, Bool.false_eq_true, if_false]
        exact hproperties _ _ i
      | base | identity | result | argument | filter => rfl
  | webApi p | path p => cases p; cases h; exact Operation.lookup?_eq _ rfl rfl rfl rfl rfl
  | query q => cases h; exact Operation.lookup?_eq _ rfl rfl rfl rfl rfl
  | command o => cases h; exact Operation.lookup?_eq [] rfl rfl rfl rfl rfl
  | externalEnum => cases h; cases slot <;> rfl
  | tree | block | property | filter => cases h

theorem Node.kind_of_tree? {t : SymbolTree} (h : n.tree? s = some t) :
    n.symbolKind? = some t.content.kind ∧ n.name = t.name.text := by
  cases n with
  | value v =>
    cases h
    refine ⟨?_, rfl⟩
    cases hv : v.isExternal <;> simp [Value.tree, symbolKind?, hv, Content.kind]
  | webApi p | path p => cases p; cases h; exact ⟨rfl, rfl⟩
  | entity | event | externalEnum | query | command => cases h; exact ⟨rfl, rfl⟩
  | tree | block | property | filter => cases h

/-! ## What is written means something -/

/-- The reference at a slot of an operation is one of the operation or of a filter. -/
theorem Operation.mem_references_of_written {own : Scope} {o : Operation} {filters : List Atom}
    (hw : o.written? own filters slot = some w) :
    w ∈ o.references own ∨ ∃ a ∈ filters, w = ⟨a.type.name, own⟩ := by
  cases slot with
  | result => cases hw; exact .inl List.mem_cons_self
  | argument =>
    rw [Operation.written?] at hw
    split at hw
    · rename_i a ha
      cases hw
      exact .inl (List.mem_cons_of_mem _ (by simp [ha]))
    · cases hw
  | filter i =>
    obtain ⟨a, ha, rfl⟩ := Option.map_eq_some_iff.1 hw
    exact .inr ⟨a, List.mem_of_getElem? ha, rfl⟩
  | base | identity | property => cases hw

/-- **What is looked up for a node is a reference of the forest.** -/
theorem isReference_of_written (hn : At forest s n) (hw : n.written? s slot = some w) : IsReference forest w := by
  have hmem : ∀ {r : Option Reference} {own : Scope}, (r.map fun r => (⟨r.name, own⟩ : Written)) = some w →
      w ∈ (r.map fun r => (⟨r.name, own⟩ : Written)).toList := fun h => by simp [h]
  -- Properties and filters are nodes of their own, right below.
  have hproperty : ∀ {own : Scope} {ps : List Property} {i : Nat}, (∀ p ∈ ps, At forest own (.property p)) →
      (ps[i]?.map fun p => (⟨p.atom.type.name, own⟩ : Written)) = some w → IsReference forest w := by
    intro own ps i hps hw
    obtain ⟨p, hp, rfl⟩ := Option.map_eq_some_iff.1 hw
    exact ⟨own, _, hps p (List.mem_of_getElem? hp), List.mem_singleton_self _⟩
  have hoperation : ∀ {own : Scope} {o : Operation} {filters : List Atom} {m : Node}, At forest s m →
      (∀ w ∈ o.references own, w ∈ m.references s) → (∀ a ∈ filters, At forest own (.filter a)) →
        o.written? own filters slot = some w → IsReference forest w := by
    intro own o filters m hm hreferences hfilters hw
    rcases Operation.mem_references_of_written hw with hw | ⟨a, ha, rfl⟩
    · exact ⟨s, m, hm, hreferences w hw⟩
    · exact ⟨own, _, hfilters a ha, List.mem_singleton_self _⟩
  have hpath : ∀ {p : Path}, At forest s (.path p) →
      p.operation.written? (.declaration s p.operation.name) p.filters slot = some w → IsReference forest w := by
    intro p hp hw
    refine hoperation hp (fun _ hw => hw) (fun a ha => hp.child ?_) hw
    exact List.mem_append_left _ (List.mem_map.2 ⟨a, ha, rfl⟩)
  cases n with
  | entity e =>
    cases slot with
    | base => exact ⟨s, _, hn, List.mem_append_left _ (hmem hw)⟩
    | identity => exact ⟨s, _, hn, List.mem_append_right _ (hmem hw)⟩
    | result | argument | property | filter => cases hw
  | event e =>
    cases slot with
    | base => exact ⟨s, _, hn, hmem hw⟩
    | property i => exact hproperty (fun p hp => hn.child (List.mem_map.2 ⟨p, hp, rfl⟩)) hw
    | identity | result | argument | filter => cases hw
  | value v =>
    cases slot with
    | base => exact ⟨s, _, hn, hmem hw⟩
    | property i =>
      rw [Node.written?] at hw
      split at hw
      · cases hw
      · exact hproperty (fun p hp => hn.child (List.mem_map.2 ⟨p, hp, rfl⟩)) hw
    | identity | result | argument | filter => cases hw
  | webApi p => exact hpath (hn.child List.mem_cons_self) hw
  | path p => exact hpath hn hw
  | query q => exact hoperation hn (fun _ hw => hw) (fun a ha => hn.child (List.mem_map.2 ⟨a, ha, rfl⟩)) hw
  | command o => exact hoperation hn (fun _ hw => hw) (fun _ ha => absurd ha List.not_mem_nil) hw
  | tree | block | property | externalEnum | filter => cases slot <;> cases hw

/-- **The base of a node means what declarations of its kind may derive from.** -/
theorem Obeys.exists_means_base (h : Obeys outside forest s n) (hw : n.written? s .base = some w) :
    ∃ kind symbolKind m, n.symbolKind? = some symbolKind ∧ symbolKind.declarationKind? = some kind ∧
      Means outside forest w.scope w.reference m ∧ kind.MayDeriveFrom m := by
  have hmeans : ∀ {kind : DeclarationKind} {base : Option Reference}, BaseObeys outside forest s kind base →
      (base.map fun r => (⟨r.name, s⟩ : Written)) = some w →
        ∃ m, Means outside forest w.scope w.reference m ∧ kind.MayDeriveFrom m := by
    intro kind base hbase hw
    obtain ⟨r, hr, rfl⟩ := Option.map_eq_some_iff.1 hw
    exact hbase r hr
  cases n with
  | entity e =>
    obtain ⟨m, hm⟩ := hmeans h.2.2 hw
    exact ⟨.entity, .entity, m, rfl, rfl, hm⟩
  | event e =>
    obtain ⟨m, hm⟩ := hmeans h hw
    exact ⟨.event, .event, m, rfl, rfl, hm⟩
  | value v =>
    obtain ⟨m, hm⟩ := hmeans h hw
    refine ⟨.value, _, m, rfl, ?_, hm⟩
    cases v.isExternal <;> rfl
  | tree | block | property | filter | webApi | path | query | command | externalEnum => cases hw

end Source

@[simp] theorem Content.operation?_map {L M : Type} (f : L → M) (c : Content L) :
    (c.map f).operation? = c.operation?.map (·.map f) := by cases c <;> rfl

@[simp] theorem Content.identity?_map {L M : Type} (f : L → M) (c : Content L) :
    (c.map f).identity? = c.identity?.map (·.map f) := by cases c <;> rfl

theorem Symbol.lookup?_map {L M : Type} (f : L → M) (x : Symbol L) (slot : Symbol.Slot) :
    (x.map f).lookup? slot = (x.lookup? slot).map f := by
  cases slot with
  | base => simp [lookup?, map]
  | identity => simp [lookup?, map, TypeUse.map, Function.comp_def]
  | result => simp [lookup?, map, OperationSymbol.map, TypeUse.map, Function.comp_def]
  | argument =>
    cases h : x.content.operation? <;>
      simp [lookup?, map, h, OperationSymbol.map, AtomSymbol.map, TypeUse.map, Function.comp_def]
  | property | filter => simp [lookup?, map, AtomSymbol.map, TypeUse.map, Function.comp_def]

theorem Located.lookup?_symbol (q : Located) (slot : Symbol.Slot) :
    q.symbol.lookup? slot = (Symbol.mk q.tree.name q.parent q.tree.tags q.tree.content).lookup? slot := by
  unfold Located.symbol SymbolTree.withChildren Content.assign?
  cases q.tree.content with
  | space cs | entity _ _ _ cs | webApi _ _ cs | path _ _ cs => cases cs <;> cases slot <;> rfl
  | event | complexValue | externalValue | externalEnum | query | command => rfl

namespace Graph

variable {forest : List Source.Tree} {outside : Universe}

/-- **What is meant, as a type of a graph**: a declaration is its symbol, and anything else stays what it is. -/
inductive Denotes (g : Graph) : Meaning → TypeRef → Prop
  | builtIn (b : BuiltIn) : Denotes g (.builtIn b) (.builtIn b)
  | external (e : ExternalType) : Denotes g (.external e) (.external e)
  | declaration {d : Declaration} {id : SymbolId} : g.IsSymbolOf id d → Denotes g (.declaration d) (.symbol id)

/-- **A symbol shows a node** where it is written. -/
structure Shows (g : Graph) (id : SymbolId) (x : GraphSymbol) (s : Scope) (n : Node) : Prop where
  /-- The kinds agree. -/
  kind : n.symbolKind? = some x.kind
  /-- The names agree. -/
  name : n.name = x.name.text
  /-- The full name is that of the place. -/
  fullName : g.fullName? id = some (s.qualify x.name)

theorem exists_bind_of_resolveIn (h : Table.Distinct (declarationsOf forest)) {w : Written} {m : Meaning}
    (hm : (Table.ofForest outside forest).resolveIn w.scope w.reference = some m) :
    ∃ type, bind (Table.ofForest outside forest) (graphOf outside forest).index w = some type ∧
      (graphOf outside forest).Denotes m type := by
  unfold bind
  rw [hm]
  cases m with
  | builtIn b => exact ⟨.builtIn b, rfl, .builtIn b⟩
  | external e => exact ⟨.external e, rfl, .external e⟩
  | declaration d =>
    have hd := (Table.mem_declarations_ofForest h).1 (Table.mem_of_resolveIn hm)
    obtain ⟨id, hid, hsymbol⟩ := exists_symbol_of_declared (t := Table.ofForest outside forest) h hd
    refine ⟨.symbol id, ?_, .declaration hsymbol⟩
    exact congrArg (Option.map TypeRef.symbol) hid

theorem shows_of_tree {t : Table} {q : Located} (hq : q ∈ locate forest) {s : Scope} {n : Node}
    (htree : n.tree? s = some q.tree) (hpath : q.path = (s.qualify q.tree.name).segments) :
    (ofGroups (Group.merge forest) t).Shows q.id
      (q.symbol.map (bind t (ofGroups (Group.merge forest) t).index)) s n := by
  obtain ⟨hkind, hname⟩ := Node.kind_of_tree? htree
  refine ⟨?_, hname, fullName?_ofGroups hq hpath.symm⟩
  rwa [Symbol.kind, Symbol.map, Content.kind_map, Located.symbol, SymbolTree.kind_withChildren]

/-- **A symbol is a namespace or shows a node**, and its lookups are the references that are written at the node. -/
theorem exists_shows_of_symbol {t : Table} {id : SymbolId} {x : GraphSymbol}
    (hx : (ofGroups (Group.merge forest) t).symbol? id = some x) :
    (x.kind = .space ∧ ∀ slot, x.lookup? slot = none) ∨
      ∃ s n, At forest s n ∧ (ofGroups (Group.merge forest) t).Shows id x s n ∧
        ∀ slot, x.lookup? slot = (n.written? s slot).map (bind t (ofGroups (Group.merge forest) t).index) := by
  obtain ⟨q, hq, rfl, rfl⟩ := symbol?_ofGroups.1 hx
  rcases q.origin_cases hq with ⟨group, -, htree, -⟩ | ⟨s, n, hn, htree, hpath⟩
  · refine .inl ⟨?_, fun slot => ?_⟩
    · simp only [Symbol.kind, Symbol.map, Content.kind_map, Located.symbol, SymbolTree.kind_withChildren, htree,
        Group.tree_eq]
      rfl
    · rw [Symbol.lookup?_map, q.lookup?_symbol, htree, Group.tree_eq]
      cases slot <;> rfl
  · refine .inr ⟨s, n, hn, shows_of_tree hq htree hpath, fun slot => ?_⟩
    rw [Symbol.lookup?_map, q.lookup?_symbol, Node.lookup?_tree htree]

end Graph
end DomainModel
