import DomainModel.Proofs.Rules.Accepted
import DomainModel.Proofs.Symbol.Rescoped
/-!
# Stripped — symbols without annotations or without the numbers of their children

Taking the annotations or the numbers of the children from a symbol leaves the lookups as they are, and the other way
round (`Content.untagged_map`, `Content.childless_map`, `Symbol.lookup?_untagged`); with the children the whole content
is known again (`Content.eq_of_childless`).  A content of a forest that obeys the rules is plain: an entity has an
identity or a base, and operations are of the kind of their symbol (`Source.Node.isPlain_of_tree?`).
-/
namespace DomainModel

variable {L M : Type}

/-! ## Children aside -/

/-- The content without the numbers of its children. -/
def Content.childless : Content L → Content L
  | space _ => space .unassigned
  | entity isAbstract identity base _ => entity isAbstract identity base .unassigned
  | webApi operation filters _ => webApi operation filters .unassigned
  | path operation filters _ => path operation filters .unassigned
  | c => c

theorem Content.childless_map (f : L → M) (c : Content L) : (c.map f).childless = c.childless.map f := by
  cases c <;> rfl

theorem SymbolTree.childless_withChildren (c : Content Written) (ids : List SymbolId) :
    (withChildren c ids).childless = c.childless := by
  unfold withChildren
  cases c with
  | space cs | entity _ _ _ cs | webApi _ _ cs | path _ _ cs => cases cs <;> rfl
  | event | complexValue | externalValue | externalEnum | query | command => rfl

/-- **With the children the whole content is known**, once they are given. -/
theorem Content.eq_of_childless {c d : Content L} (h : c.childless = d.childless) (hchildren : c.children = d.children)
    (hc : ∀ m, c.children? = some m → m.isAssigned = true) (hd : ∀ m, d.children? = some m → m.isAssigned = true) :
    c = d := by
  have hassigned : ∀ {m n : Children}, m.isAssigned = true → n.isAssigned = true → m.ids = n.ids → m = n := by
    intro m n hm hn hids
    cases m with
    | unassigned => cases hm
    | assigned is => cases n with
      | unassigned => cases hn
      | assigned js => exact congrArg Children.assigned hids
  cases c with
  | space m => cases d with
    | space n => exact congrArg space (hassigned (hc m rfl) (hd n rfl) hchildren)
    | _ => cases h
  | entity _ _ _ m => cases d with
    | entity _ _ _ n => cases h; exact congrArg (entity _ _ _) (hassigned (hc m rfl) (hd n rfl) hchildren)
    | _ => cases h
  | webApi _ _ m => cases d with
    | webApi _ _ n => cases h; exact congrArg (webApi _ _) (hassigned (hc m rfl) (hd n rfl) hchildren)
    | _ => cases h
  | path _ _ m => cases d with
    | path _ _ n => cases h; exact congrArg (path _ _) (hassigned (hc m rfl) (hd n rfl) hchildren)
    | _ => cases h
  | event | complexValue | externalValue | externalEnum | query | command =>
    cases d <;> cases h
    rfl

/-! ## Annotations aside -/

def AtomSymbol.untagged (a : AtomSymbol L) : AtomSymbol L := { a with tags := .empty }

def OperationSymbol.untagged (o : OperationSymbol L) : OperationSymbol L :=
  { o with argument := o.argument.map (·.untagged) }

/-- The content without annotations. -/
def Content.untagged : Content L → Content L
  | space members => space members
  | entity isAbstract identity base events => entity isAbstract identity base events
  | event isAbstract base properties => event isAbstract base (properties.map (·.untagged))
  | complexValue isAbstract base properties equalBy =>
    complexValue isAbstract base (properties.map (·.untagged)) equalBy
  | externalValue base => externalValue base
  | externalEnum => externalEnum
  | webApi operation filters members => webApi operation.untagged (filters.map (·.untagged)) members
  | path operation filters members => path operation.untagged (filters.map (·.untagged)) members
  | query operation filters => query operation.untagged (filters.map (·.untagged))
  | command operation => command operation.untagged

/-- **A symbol without annotations.** -/
def Symbol.untagged (s : Symbol L) : Symbol L := { s with tags := .empty, content := s.content.untagged }

theorem AtomSymbol.untagged_map (f : L → M) (a : AtomSymbol L) : (a.map f).untagged = a.untagged.map f := rfl

theorem OperationSymbol.untagged_map (f : L → M) (o : OperationSymbol L) : (o.map f).untagged = o.untagged.map f := by
  obtain ⟨kind, result, argument⟩ := o
  cases argument <;> rfl

theorem Content.untagged_map (f : L → M) (c : Content L) : (c.map f).untagged = c.untagged.map f := by
  cases c <;> simp [map, untagged, OperationSymbol.untagged_map, AtomSymbol.untagged_map, Function.comp_def]

@[simp] theorem Content.children?_untagged (c : Content L) : c.untagged.children? = c.children? := by cases c <;> rfl

@[simp] theorem Content.children_untagged (c : Content L) : c.untagged.children = c.children := by cases c <;> rfl

theorem AtomSymbol.lookup_untagged (as : List (AtomSymbol L)) (i : Nat) :
    (as.map (·.untagged))[i]?.map (·.type.lookup) = as[i]?.map (·.type.lookup) := by
  rw [List.getElem?_map, Option.map_map]
  rfl

/-- **Annotations are no lookups.** -/
theorem Symbol.lookup?_untagged (s : Symbol L) (slot : Slot) : s.untagged.lookup? slot = s.lookup? slot := by
  have hargument : ∀ o : OperationSymbol L,
      o.untagged.argument.map (·.type.lookup) = o.argument.map (·.type.lookup) := by
    intro o
    rw [OperationSymbol.untagged, Option.map_map]
    rfl
  obtain ⟨name, parent, tags, content⟩ := s
  cases slot with
  | base | identity | result => cases content <;> rfl
  | argument => cases content with
    | webApi o | path o | query o | command o => exact hargument o
    | space | entity | event | complexValue | externalValue | externalEnum => rfl
  | property i => cases content with
    | event _ _ properties | complexValue _ _ properties => exact AtomSymbol.lookup_untagged properties i
    | space | entity | externalValue | externalEnum | webApi | path | query | command => rfl
  | filter i => cases content with
    | webApi _ filters | path _ filters | query _ filters => exact AtomSymbol.lookup_untagged filters i
    | space | entity | event | complexValue | externalValue | externalEnum | command => rfl

/-! ## Plain contents -/

/-- **An operation of a kind**, whose argument has no other name. -/
def OperationSymbol.IsPlain (kind : OperationKind) (o : OperationSymbol L) : Prop :=
  o.kind = kind ∧ ∀ a, o.argument = some a → a.aliasName = none

/-- **A content that a line can tell**: an entity has no base beside an identity, and operations are of the kind of
their symbol. -/
def Content.IsPlain : Content L → Prop
  | entity _ identity base _ => identity = none ∨ base = none
  | webApi o _ _ | path o _ _ => o.IsPlain .path
  | query o _ => o.IsPlain .query
  | command o => o.IsPlain .command
  | _ => True

theorem OperationSymbol.isPlain_map {f : L → M} {kind : OperationKind} {o : OperationSymbol L} (h : o.IsPlain kind) :
    (o.map f).IsPlain kind := by
  refine ⟨h.1, fun a ha => ?_⟩
  obtain ⟨b, hb, rfl⟩ := Option.map_eq_some_iff.1 ha
  exact h.2 b hb

theorem Content.isPlain_map {f : L → M} {c : Content L} (h : c.IsPlain) : (c.map f).IsPlain := by
  cases c with
  | entity _ identity base _ => exact h.imp (fun h => by rw [h]; rfl) fun h => by rw [h]; rfl
  | webApi | path | query | command => exact OperationSymbol.isPlain_map h
  | space | event | complexValue | externalValue | externalEnum => trivial

theorem SymbolTree.isPlain_withChildren {c : Content Written} (h : c.IsPlain) (ids : List SymbolId) :
    (withChildren c ids).IsPlain := by
  unfold withChildren
  cases c with
  | space cs | entity _ _ _ cs | webApi _ _ cs | path _ _ cs => cases cs <;> exact h
  | event | complexValue | externalValue | externalEnum | query | command => exact h

namespace Source

theorem Operation.isPlain_symbol (own : Scope) (kind : OperationKind) (o : Operation) :
    (o.symbol own kind).IsPlain kind := by
  refine ⟨rfl, fun a ha => ?_⟩
  unfold symbol at ha
  split at ha
  · cases ha
    rfl
  · cases ha

/-- **A node that is as it must be has a plain content.** -/
theorem Node.isPlain_of_tree? {outside : Universe} {forest : List Tree} {s : Scope} {n : Node} {t : SymbolTree}
    (h : n.tree? s = some t) (hobeys : Obeys outside forest s n) : t.content.IsPlain := by
  cases n with
  | entity e =>
    cases h
    obtain ⟨hone, -⟩ := hobeys
    show e.identity.map _ = none ∨ e.base.map _ = none
    cases hb : e.base with
    | none => exact .inr rfl
    | some r =>
      rw [hb] at hone
      exact .inl (by rw [Option.not_isSome_iff_eq_none.1 fun hi => hone.1 hi rfl]; rfl)
  | value v =>
    cases h
    unfold Value.tree
    cases v.isExternal <;> trivial
  | webApi p | path p => cases p; cases h; exact Operation.isPlain_symbol _ _ _
  | query | command => cases h; exact Operation.isPlain_symbol _ _ _
  | event | externalEnum => cases h; trivial
  | tree | block | property | filter => cases h

end Source
end DomainModel
