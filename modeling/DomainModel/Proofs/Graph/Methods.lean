import DomainModel.Graph.Methods
/-!
# Methods — visitors with a method a kind visit as visitors of symbols do

The walk of each kind is the one walk below symbols, which visits atoms and then children (`Methods.walk_eq`).  So methods
that do at each kind what a visitor does there visit a graph as the visitor does (`Methods.Follows.acceptBy_eq`), and a
delegate, whose methods hand the walk of their kind to the handler of their kind, visits as it says
(`Delegate.acceptBy_methods`).
-/
namespace DomainModel

variable {m : Type → Type} [Monad m]

namespace Methods

/-- **The walk below a symbol is that of its kind**: children are visited behind atoms, and no kind but paths has both. -/
theorem walk_eq [LawfulMonad m] (v : Methods m) (namespaces : List SymbolId) (visit : SymbolId → m Unit) (s : GraphSymbol) :
    (do s.content.atoms.forM v.visitAtom; s.children.forM visit) =
      match s.content with
      | .space members => (v.walks namespaces visit).space members
      | .entity _ _ _ events => (v.walks namespaces visit).entity events
      | .event _ _ properties => (v.walks namespaces visit).event properties
      | .complexValue _ _ properties _ => (v.walks namespaces visit).complexValue properties
      | .webApi _ filters members | .path _ filters members => (v.walks namespaces visit).path filters members
      | .query _ filters => (v.walks namespaces visit).query filters
      | .externalValue _ | .externalEnum | .command _ => pure () := by
  obtain ⟨name, parent, tags, content⟩ := s
  cases content with
  | space members | entity isAbstract identity base members => exact pure_bind _ _
  | event isAbstract base properties | complexValue isAbstract base properties equalBy =>
    simp only [Content.atoms, Content.properties, Content.filters, Content.filters?, Option.getD_none, List.append_nil]
    exact bind_pure_unit
  | query operation filters => exact bind_pure_unit
  | webApi operation filters members | path operation filters members => rfl
  | externalValue base | externalEnum | command operation => exact pure_bind _ _

/-- **Methods follow a visitor**: they skip what it skips, and do at each kind what it does with the walk below. -/
structure Follows (v : Methods m) (w : Visitor m) : Prop where
  skips : v.skips = w.skips
  atom : v.atom = w.atom
  graph : ∀ namespaces visit, v.graph (v.walks namespaces visit) = w.graph (namespaces.forM visit)
  symbol : ∀ namespaces visit id s, v.visitSymbol (v.walks namespaces visit) id s =
    w.symbol id s (do s.content.atoms.forM v.visitAtom; s.children.forM visit)

namespace Follows

variable {v : Methods m} {w : Visitor m} (h : v.Follows w)
include h

theorem visitAtom_eq : v.visitAtom = w.visitAtom := by
  funext a
  rw [Methods.visitAtom, Visitor.visitAtom, h.skips, h.atom]

theorem visitByWithin_eq (g : Graph) : ∀ fuel, g.visitByWithin v fuel = g.visitWithin w fuel
  | 0 => rfl
  | fuel + 1 => by
    funext id
    rw [Graph.visitByWithin, Graph.visitWithin, visitByWithin_eq g fuel]
    cases g.symbol? id with
    | none => rfl
    | some s => simp only [h.symbol, h.skips, h.visitAtom_eq]

/-- **Methods that follow a visitor visit a graph as it does.** -/
theorem acceptBy_eq (g : Graph) : g.acceptBy v = g.accept w := by
  rw [Graph.acceptBy, Graph.accept, h.graph, h.skips, h.visitByWithin_eq]
  rfl

end Follows
end Methods

namespace Delegate

variable [LawfulMonad m] (d : Delegate m)

/-- **Each method hands the walk of its kind to the handler of its kind.** -/
theorem follows_methods : d.methods.Follows d.visitor where
  skips := rfl
  atom := rfl
  graph _ _ := rfl
  symbol namespaces visit id s := by
    rw [d.methods.walk_eq namespaces]
    obtain ⟨name, parent, tags, content⟩ := s
    cases content <;> rfl

/-- **A delegate visits by its methods.** -/
theorem acceptBy_methods (g : Graph) : g.acceptBy d.methods = d.run g := d.follows_methods.acceptBy_eq g

end Delegate
end DomainModel
