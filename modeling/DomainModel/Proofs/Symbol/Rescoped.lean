import DomainModel.Graph
import DomainModel.Proofs.Rules.Rescoped
import DomainModel.Proofs.Symbol.Origin
/-!
# Rescoped — what the symbols see of a scope

A member written in another scope gives the same tree of symbols, its references being written in the other scope
(`Source.Member.tree?_rescope`); placing trees and numbering declared names does not look at references
(`SymbolTree.placeAll_mapAll`, `Graph.declaredFrom_map`).  So groups whose trees differ by scopes alone give the same
graph (`Graph.ofGroups_rescope`).
-/
namespace DomainModel

open Source (ApiMember Atom Entity Event ExternalEnum Member Node Operation Path Place Property Query Value)

variable {L M N : Type}

def Written.rescope (ρ : Scope → Scope) (w : Written) : Written := { w with scope := ρ w.scope }

theorem AtomSymbol.map_map (f : L → M) (g : M → N) (a : AtomSymbol L) : (a.map f).map g = a.map (g ∘ f) := rfl

theorem OperationSymbol.map_map (f : L → M) (g : M → N) (o : OperationSymbol L) :
    (o.map f).map g = o.map (g ∘ f) := by
  unfold OperationSymbol.map
  rw [Option.map_map]
  rfl

theorem Content.map_map (f : L → M) (g : M → N) (c : Content L) : (c.map f).map g = c.map (g ∘ f) := by
  cases c <;> simp [Content.map, OperationSymbol.map_map, AtomSymbol.map_map, TypeUse.map, Function.comp_def]

@[simp] theorem Symbol.name_map (f : L → M) (s : Symbol L) : (s.map f).name = s.name := rfl

@[simp] theorem Symbol.tags_map (f : L → M) (s : Symbol L) : (s.map f).tags = s.tags := rfl

theorem Symbol.map_map (f : L → M) (g : M → N) (s : Symbol L) : (s.map f).map g = s.map (g ∘ f) := by
  rw [Symbol.map, Symbol.map, Content.map_map, Symbol.map]

namespace SymbolTree

mutual

/-- A tree with its references changed. -/
def map (f : Written → Written) : SymbolTree → SymbolTree
  | ⟨name, tags, content, declares, inside⟩ => ⟨name, tags, content.map f, declares, mapAll f inside⟩

def mapAll (f : Written → Written) : List SymbolTree → List SymbolTree
  | [] => []
  | t :: ts => t.map f :: mapAll f ts

end

variable {f : Written → Written}

theorem mapAll_eq (ts : List SymbolTree) : mapAll f ts = ts.map (map f) := by
  induction ts with
  | nil => rfl
  | cons t ts ih => rw [mapAll, ih, List.map_cons]

theorem mapAll_append (ts us : List SymbolTree) : mapAll f (ts ++ us) = mapAll f ts ++ mapAll f us := by
  simp only [mapAll_eq, List.map_append]

mutual

theorem size_map : ∀ t : SymbolTree, (t.map f).size = t.size
  | ⟨name, tags, content, declares, inside⟩ => by rw [map, size, sizeAll_mapAll inside, size]

theorem sizeAll_mapAll : ∀ ts : List SymbolTree, sizeAll (mapAll f ts) = sizeAll ts
  | [] => rfl
  | t :: ts => by rw [mapAll, sizeAll, sizeAll, size_map t, sizeAll_mapAll ts]

end

theorem roots_mapAll : ∀ (start : Nat) (ts : List SymbolTree), roots start (mapAll f ts) = roots start ts
  | _, [] => rfl
  | start, t :: ts => by rw [mapAll, roots, roots, size_map, roots_mapAll]

theorem withChildren_map (c : Content Written) (ids : List SymbolId) :
    withChildren (c.map f) ids = (withChildren c ids).map f := by
  unfold withChildren
  cases c with
  | space members | entity _ _ _ members | webApi _ _ members | path _ _ members => cases members <;> rfl
  | event | complexValue | externalValue | externalEnum | query | command => rfl

end SymbolTree

def Placed.map (f : Written → Written) (p : Placed) : Placed := ⟨p.symbol.map f, p.declares⟩

namespace SymbolTree

variable {f : Written → Written}

mutual

theorem place_map (parent : Option SymbolId) (start : Nat) : ∀ t : SymbolTree,
    (t.map f).place parent start = (t.place parent start).map (Placed.map f)
  | ⟨name, tags, content, declares, inside⟩ => by
    rw [map, place, place, roots_mapAll, withChildren_map, placeAll_mapAll _ _ inside, List.map_cons]
    rfl

/-- **Trees are placed without a look at their references.** -/
theorem placeAll_mapAll (parent : Option SymbolId) (start : Nat) : ∀ ts : List SymbolTree,
    placeAll parent start (mapAll f ts) = (placeAll parent start ts).map (Placed.map f)
  | [] => rfl
  | t :: ts => by
    rw [mapAll, placeAll, placeAll, size_map, place_map _ _ t, placeAll_mapAll _ _ ts, List.map_append]

end

end SymbolTree

theorem Graph.declaredFrom_map (f : Written → Written) : ∀ (start : Nat) (ps : List Placed),
    declaredFrom start (ps.map (Placed.map f)) = declaredFrom start ps
  | _, [] => rfl
  | start, p :: ps => by rw [List.map_cons, declaredFrom, declaredFrom, declaredFrom_map]; rfl

/-! ## Members in other scopes -/

namespace Source

variable {ρ : Scope → Scope} (h : Scope.Keeps ρ)
include h

theorem Event.tree_rescope (s : Scope) (e : Event) : e.tree (ρ s) = (e.tree s).map (.rescope ρ) := by
  simp only [Event.tree, SymbolTree.map, SymbolTree.mapAll, Content.map, h.qualify, ← h.declaration, Option.map_map,
    List.map_map]
  rfl

theorem Entity.tree_rescope (s : Scope) (e : Entity) : e.tree (ρ s) = (e.tree s).map (.rescope ρ) := by
  have hevents : e.events.map (·.tree (ρ (.declaration s e.name))) =
      SymbolTree.mapAll (.rescope ρ) (e.events.map (·.tree (.declaration s e.name))) := by
    rw [SymbolTree.mapAll_eq, List.map_map]
    exact List.map_congr_left fun v _ => v.tree_rescope h _
  simp only [Entity.tree, SymbolTree.map, Content.map, h.qualify, ← h.declaration, hevents, Option.map_map]
  rfl

theorem Value.tree_rescope (s : Scope) (v : Value) : v.tree (ρ s) = (v.tree s).map (.rescope ρ) := by
  simp only [Value.tree, SymbolTree.map, SymbolTree.mapAll, h.qualify, ← h.declaration]
  by_cases hx : v.isExternal = true
  · simp only [if_pos hx, Content.map, Option.map_map]
    rfl
  · simp only [if_neg hx, Content.map, Option.map_map, List.map_map]
    rfl

theorem ExternalEnum.tree_rescope (s : Scope) (e : ExternalEnum) : e.tree (ρ s) = (e.tree s).map (.rescope ρ) := by
  simp only [ExternalEnum.tree, SymbolTree.map, SymbolTree.mapAll, Content.map, h.qualify]

omit h in
theorem Operation.symbol_rescope (own : Scope) (kind : OperationKind) (o : Operation) :
    o.symbol (ρ own) kind = (o.symbol own kind).map (.rescope ρ) := by
  unfold Operation.symbol
  cases o.arguments with
  | nil => rfl
  | cons a as => cases as <;> rfl

theorem Operation.commandTree_rescope (s : Scope) (o : Operation) :
    o.commandTree (ρ s) = (o.commandTree s).map (.rescope ρ) := by
  simp only [Operation.commandTree, SymbolTree.map, SymbolTree.mapAll, Content.map, ← h.declaration,
    Operation.symbol_rescope]

theorem Query.tree_rescope (s : Scope) (q : Query) : q.tree (ρ s) = (q.tree s).map (.rescope ρ) := by
  simp only [Query.tree, SymbolTree.map, SymbolTree.mapAll, Content.map, ← h.declaration, Operation.symbol_rescope,
    List.map_map]
  rfl

theorem ApiMember.commandTree?_rescope (s : Scope) (m : ApiMember) :
    m.commandTree? (ρ s) = (m.commandTree? s).map (SymbolTree.map (.rescope ρ)) := by
  cases m with
  | command o => exact congrArg some (o.commandTree_rescope h s)
  | query | path => rfl

theorem ApiMember.queryTree?_rescope (s : Scope) (m : ApiMember) :
    m.queryTree? (ρ s) = (m.queryTree? s).map (SymbolTree.map (.rescope ρ)) := by
  cases m with
  | query q => exact congrArg some (q.tree_rescope h s)
  | command | path => rfl

omit h

theorem filterMap_rescope {α : Type} {give give' : α → Option SymbolTree} {f : Written → Written}
    (hgive : ∀ a, give' a = (give a).map (SymbolTree.map f)) (as : List α) :
    as.filterMap give' = SymbolTree.mapAll f (as.filterMap give) := by
  rw [SymbolTree.mapAll_eq, List.map_filterMap]
  exact List.filterMap_congr fun a _ => hgive a

mutual

theorem Path.tree_rescope (h : Scope.Keeps ρ) (s : Scope) : ∀ p : Path, p.tree (ρ s) = (p.tree s).map (.rescope ρ)
  | ⟨operation, filters, members⟩ => by
    simp only [Path.tree, SymbolTree.map, SymbolTree.mapAll_append, Content.map, ← h.declaration,
      Operation.symbol_rescope, List.map_map, filterMap_rescope (ApiMember.commandTree?_rescope h _),
      filterMap_rescope (ApiMember.queryTree?_rescope h _), ApiMember.pathTrees_rescope h _ members]
    rfl

theorem ApiMember.pathTrees_rescope (h : Scope.Keeps ρ) (s : Scope) : ∀ ms : List ApiMember,
    ApiMember.pathTrees (ρ s) ms = SymbolTree.mapAll (.rescope ρ) (ApiMember.pathTrees s ms)
  | [] => rfl
  | .path p :: ms => by
    simp only [ApiMember.pathTrees, ApiMember.pathTree, SymbolTree.mapAll_append, Path.tree_rescope h s p,
      ApiMember.pathTrees_rescope h s ms, SymbolTree.mapAll]
  | .command _ :: ms | .query _ :: ms => by
    simp only [ApiMember.pathTrees, ApiMember.pathTree, List.nil_append, ApiMember.pathTrees_rescope h s ms]

end

include h

theorem Path.rootTree_rescope (s : Scope) (p : Path) : p.rootTree (ρ s) = (p.rootTree s).map (.rescope ρ) := by
  rw [Path.rootTree, p.tree_rescope h s, Path.rootTree]
  obtain ⟨operation, filters, members⟩ := p
  simp only [SymbolTree.map, Path.tree, Content.map, h.qualify, ← h.declaration, Operation.symbol_rescope, List.map_map]
  rfl

/-- **A member in another scope gives the tree with its references in the other scope.** -/
theorem Member.tree?_rescope (s : Scope) (m : Member) :
    m.tree? (ρ s) = (m.tree? s).map (SymbolTree.map (.rescope ρ)) := by
  cases m with
  | block b => rfl
  | entity e => exact congrArg some (e.tree_rescope h s)
  | value v => exact congrArg some (v.tree_rescope h s)
  | externalEnum e => exact congrArg some (e.tree_rescope h s)
  | webApi root => exact congrArg some (root.rootTree_rescope h s)

end Source

namespace Graph

variable {ρ : Scope → Scope} {t u : Table}

/-- **A reference names the same in the exchanged scope.** -/
theorem bind_rescope (h : Table.Agrees ρ t u) (x : SymbolIndex) (w : Written) :
    bind u x (w.rescope ρ) = bind t x w := by
  unfold bind
  rw [show u.resolveIn (w.rescope ρ).scope (w.rescope ρ).reference = _ from h.resolveIn w.scope w.reference]
  cases t.resolveIn w.scope w.reference with
  | none => rfl
  | some m => cases m <;> rfl

/-- **Groups whose trees differ by scopes alone give the same graph.** -/
theorem ofGroups_rescope (h : Table.Agrees ρ t u) {groups others : List Group}
    (htrees : Group.trees others = SymbolTree.mapAll (.rescope ρ) (Group.trees groups)) :
    ofGroups others u = ofGroups groups t := by
  unfold ofGroups
  have hbind : ∀ x : SymbolIndex, bind u x ∘ Written.rescope ρ = bind t x := fun x => funext (bind_rescope h x)
  simp only [htrees, SymbolTree.placeAll_mapAll, SymbolTree.roots_mapAll, declaredFrom_map, List.map_map,
    Function.comp_def, Placed.map, Symbol.map_map]
  simp only [← hbind, Function.comp_def]

end Graph
end DomainModel
