import DomainModel.Proofs.Graph.Forest
import DomainModel.Proofs.Table.Meaning
/-!
# Index — declared names find their symbols

The index of a graph holds, of each declared name, the first symbol that declares it (`SymbolIndex.get?_ofList`).  Where
no two declarations have one name there is no other, and it is the symbol of the declaration: its full name and its kind
are those of the declaration (`Graph.exists_symbol_of_declared`).
-/
namespace DomainModel

open Source (At Node Path declarationsOf)

namespace SymbolIndex

theorem get?_foldl_insert (name : QualifiedName) : ∀ (es : List (QualifiedName × SymbolId)) (x : SymbolIndex),
    (es.foldl (fun x e => x.insert e.1 e.2) x).get? name =
      (x.get? name <|> (es.find? fun e => e.1 = name).map (·.2))
  | [], x => by simp
  | e :: es, x => by
    rw [List.foldl_cons, get?_foldl_insert name es, get?_insert, List.find?_cons]
    by_cases he : e.1 = name
    · cases x.get? name <;> simp [he]
    · cases x.get? name <;> simp [he]

/-- **The first entry of a name counts.** -/
theorem get?_ofList (es : List (QualifiedName × SymbolId)) (name : QualifiedName) :
    (ofList es).get? name = (es.find? fun e => e.1 = name).map (·.2) := by
  rw [ofList, get?_foldl_insert]
  rfl

end SymbolIndex

namespace Source

/-- **A node's tree declares what the node declares**, under the name of the tree and as a symbol of the kind. -/
theorem Node.declares_of_tree? {s : Scope} {n : Node} {t : SymbolTree} (h : n.tree? s = some t) :
    t.declares = (n.declaration? s).map (·.fullName) ∧
      t.content.kind.declarationKind? = (n.declaration? s).map (·.kind) ∧
      ∀ d, n.declaration? s = some d → d.fullName = s.qualify t.name := by
  cases n with
  | value v =>
    cases h
    refine ⟨rfl, ?_, by rintro d ⟨⟩; rfl⟩
    simp only [Value.tree]
    split <;> rfl
  | entity | event | externalEnum => cases h; exact ⟨rfl, rfl, by rintro d ⟨⟩; rfl⟩
  | webApi p => cases p; cases h; exact ⟨rfl, rfl, by rintro d ⟨⟩; rfl⟩
  | path p => cases p; cases h; exact ⟨rfl, rfl, fun _ hd => by cases hd⟩
  | query | command => cases h; exact ⟨rfl, rfl, fun _ hd => by cases hd⟩
  | tree | block | property | filter => cases h

end Source

namespace Graph

variable {forest : List Source.Tree} {t : Table}

theorem mem_declaredFrom {name : QualifiedName} {id : SymbolId} : ∀ {start : Nat} {ps : List Placed},
    (name, id) ∈ declaredFrom start ps ↔ ∃ i p, ps[i]? = some p ∧ p.declares = some name ∧ id = ⟨start + i⟩
  | _, [] => by simp [declaredFrom]
  | start, p :: ps => by
    rw [declaredFrom, List.mem_append, mem_declaredFrom]
    constructor
    · rintro (h | ⟨i, q, hq, hname, rfl⟩)
      · rw [Option.mem_toList, Option.map_eq_some_iff] at h
        obtain ⟨_, hname, heq⟩ := h
        cases heq
        exact ⟨0, p, rfl, hname, rfl⟩
      · exact ⟨i + 1, q, hq, hname, by rw [Nat.add_assoc, Nat.add_comm 1]⟩
    · rintro ⟨i, q, hq, hname, rfl⟩
      cases i with
      | zero =>
        cases hq
        exact .inl (by rw [hname]; exact List.mem_singleton.2 rfl)
      | succ i => exact .inr ⟨i, q, hq, hname, by rw [Nat.add_assoc, Nat.add_comm 1]⟩

theorem mem_declaredFrom_locate {name : QualifiedName} {id : SymbolId} :
    (name, id) ∈ declaredFrom 0 (SymbolTree.placeAll none 0 (Group.trees (Group.merge forest))) ↔
      ∃ q ∈ locate forest, q.id = id ∧ q.tree.declares = some name := by
  rw [SymbolTree.placeAll_eq none [] 0, mem_declaredFrom]
  constructor
  · rintro ⟨i, p, hp, hname, rfl⟩
    rw [List.getElem?_map, Option.map_eq_some_iff] at hp
    obtain ⟨q, hq, rfl⟩ := hp
    obtain ⟨hmem, hnum⟩ := SymbolTree.getElem?_locateAll_iff.1 hq
    exact ⟨q, hmem, congrArg SymbolId.mk hnum, hname⟩
  · rintro ⟨q, hq, rfl, hname⟩
    refine ⟨q.number, q.placed, ?_, hname, by rw [Nat.zero_add]; rfl⟩
    rw [List.getElem?_map, SymbolTree.getElem?_locateAll_iff.2 ⟨hq, (Nat.zero_add _).symm⟩]
    rfl

theorem exists_of_get?_index {name : QualifiedName} {id : SymbolId}
    (h : (ofGroups (Group.merge forest) t).index.get? name = some id) :
    ∃ q ∈ locate forest, q.id = id ∧ q.tree.declares = some name := by
  rw [ofGroups, SymbolIndex.get?_ofList, Option.map_eq_some_iff] at h
  obtain ⟨e, he, rfl⟩ := h
  have hname : e.1 = name := by simpa using List.find?_some he
  subst hname
  exact mem_declaredFrom_locate.1 (List.mem_of_find?_eq_some he)

theorem isSome_get?_index {q : Located} (hq : q ∈ locate forest) {name : QualifiedName}
    (hname : q.tree.declares = some name) : ((ofGroups (Group.merge forest) t).index.get? name).isSome := by
  rw [ofGroups, SymbolIndex.get?_ofList, Option.isSome_map, List.find?_isSome]
  exact ⟨(name, q.id), mem_declaredFrom_locate.2 ⟨q, hq, rfl, hname⟩, by simp⟩

/-- **A symbol is that of a declaration**: it is in the graph under the full name, and comes from the kind. -/
structure IsSymbolOf (g : Graph) (id : SymbolId) (d : Declaration) : Prop where
  /-- The number is one of the graph's. -/
  lt : id.index < g.size
  /-- The full names are equal. -/
  fullName : g.fullName? id = some d.fullName
  /-- The kinds agree. -/
  kind : ∃ s, g.symbol? id = some s ∧ s.declarationKind? = some d.kind

theorem isSymbolOf_of_declares {q : Located} (hq : q ∈ locate forest) {s : Scope} {n : Node}
    (htree : n.tree? s = some q.tree) (hpath : q.path = (s.qualify q.tree.name).segments) {d : Declaration}
    (hd : n.declaration? s = some d) : (ofGroups (Group.merge forest) t).IsSymbolOf q.id d := by
  obtain ⟨-, hkind, hname⟩ := Node.declares_of_tree? htree
  have hsymbol := symbol?_of_mem (t := t) hq
  refine ⟨?_, ?_, _, hsymbol, ?_⟩
  · obtain ⟨hlt, -⟩ := List.getElem?_eq_some_iff.1 hsymbol
    exact hlt
  · exact fullName?_ofGroups hq (by rw [hname d hd, hpath])
  · rw [hd] at hkind
    simpa [Symbol.declarationKind?, Symbol.kind, Symbol.map, Located.symbol] using hkind

/-- **Every declaration of a forest without conflicts has its symbol, which the index finds.** -/
theorem exists_symbol_of_declared (h : Table.Distinct (declarationsOf forest)) {d : Declaration}
    (hd : d ∈ declarationsOf forest) : ∃ id, (ofGroups (Group.merge forest) t).index.get? d.fullName = some id ∧
      (ofGroups (Group.merge forest) t).IsSymbolOf id d := by
  obtain ⟨p, hp, hpname⟩ := exists_located_of_declared ((Source.declarationsOf_perm forest).mem_iff.2 hd)
  obtain ⟨id, hid⟩ := Option.isSome_iff_exists.1 (isSome_get?_index (t := t) hp hpname)
  obtain ⟨q, hq, rfl, hname⟩ := exists_of_get?_index hid
  -- The index may answer with another place of the name; as names are distinct, it comes from the same node.
  refine ⟨q.id, hid, ?_⟩
  rcases q.origin_cases hq with ⟨g, -, htree, -⟩ | ⟨s, n, hn, htree, hpath⟩
  · rw [htree, Group.tree_eq] at hname; cases hname
  · rw [(Node.declares_of_tree? htree).1, Option.map_eq_some_iff] at hname
    obtain ⟨e, he, hed⟩ := hname
    obtain rfl := h.eq (Source.mem_declarationsOf_iff.2 ⟨s, n, hn, he⟩) hd hed
    exact isSymbolOf_of_declares hq htree hpath he

end Graph
end DomainModel
