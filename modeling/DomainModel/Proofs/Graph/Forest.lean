import DomainModel.Graph
import DomainModel.Proofs.Symbol.Origin
/-!
# Forest — the symbols of a graph own each other as a forest does

`IsForest` says of a graph that its symbols are the nodes of a forest, numbered in pre-order: children are given once,
each symbol is a child of its parent alone and once, what has no parent is a namespace at the top, and walking from the
top down passes the numbers in order.  The graph of groups is so, whatever groups they are (`isForest_ofGroups`).
-/
namespace DomainModel

open SymbolTree (locateAll)

/-! ## Children of placed contents -/

namespace SymbolTree

/-- **A tree that may be placed**: its content has a place for children that is free, or there is nothing inside. -/
def IsOpen (t : SymbolTree) : Prop :=
  t.content.children? = some .unassigned ∨ t.content.children? = none ∧ t.inside = []

theorem children?_withChildren {c : Content Written} {ids : List SymbolId} (h : c.children? = some .unassigned) :
    (withChildren c ids).children? = some (.assigned ids) := by
  cases c <;> simp_all [withChildren, Content.children?, Content.assign?, Children.assign?]

theorem withChildren_of_no_place {c : Content Written} {ids : List SymbolId} (h : c.children? = none) :
    withChildren c ids = c := by
  cases c <;> simp_all [withChildren, Content.children?, Content.assign?]

@[simp] theorem kind_withChildren (c : Content Written) (ids : List SymbolId) : (withChildren c ids).kind = c.kind := by
  unfold withChildren Content.assign?
  cases c with
  | space cs | entity _ _ _ cs | webApi _ _ cs | path _ _ cs => cases cs <;> rfl
  | event | complexValue | externalValue | externalEnum | query | command => rfl

end SymbolTree

@[simp] theorem Content.children?_map {L M : Type} (f : L → M) (c : Content L) : (c.map f).children? = c.children? := by
  cases c <;> rfl

theorem Source.Node.isOpen_of_tree? {s : Scope} {n : Node} {t : SymbolTree} (h : n.tree? s = some t) : t.IsOpen := by
  cases n with
  | entity e => cases h; exact .inl rfl
  | path p | webApi p => cases h; cases p; exact .inl rfl
  | value v =>
    cases h
    refine .inr ⟨?_, rfl⟩
    simp only [Source.Value.tree]
    split <;> rfl
  | event | externalEnum | query | command => cases h; exact .inr ⟨rfl, rfl⟩
  | tree | block | property | filter => cases h

variable {groups : List Group}

/-- **The trees of groups may be placed.** -/
theorem SymbolTree.isOpen_of_mem_locateAll {q : Located} (hq : q ∈ locateAll none [] 0 (Group.trees groups)) :
    q.tree.IsOpen := by
  rcases cases_of_mem_locateAll hq with ⟨g, htree⟩ | ⟨s, n, htree⟩
  · rw [htree, Group.tree_eq]
    exact .inl rfl
  · exact Source.Node.isOpen_of_tree? htree

namespace Located

variable {q : Located} (hq : q ∈ locateAll none [] 0 (Group.trees groups))
include hq

theorem children?_symbol {c : Children} (h : q.symbol.content.children? = some c) :
    c = .assigned q.children := by
  rcases SymbolTree.isOpen_of_mem_locateAll hq with hopen | ⟨hno, -⟩
  · exact Option.some_inj.1 (h.symm.trans (SymbolTree.children?_withChildren hopen))
  · rw [show q.symbol.content = q.tree.content from SymbolTree.withChildren_of_no_place hno, hno] at h
    cases h

/-- **The children of a placed symbol are the trees directly inside.** -/
theorem children_symbol : q.symbol.children = q.children := by
  unfold Symbol.children Content.children
  rcases SymbolTree.isOpen_of_mem_locateAll hq with hopen | ⟨hno, hin⟩
  · rw [show q.symbol.content.children? = _ from SymbolTree.children?_withChildren hopen]
    rfl
  · rw [show q.symbol.content = q.tree.content from SymbolTree.withChildren_of_no_place hno, hno, children, hin]
    rfl

theorem eq_of_id_eq {p : Located} (hp : p ∈ locateAll none [] 0 (Group.trees groups)) (h : p.id = q.id) : p = q := by
  have hnum : p.number = 0 + q.number := by rw [Nat.zero_add]; exact congrArg SymbolId.index h
  have hpq := SymbolTree.getElem?_locateAll_iff.2 ⟨hp, hnum⟩
  rw [SymbolTree.getElem?_locateAll_iff.2 ⟨hq, (Nat.zero_add _).symm⟩] at hpq
  exact (Option.some_inj.1 hpq).symm

theorem cases_of_mem :
    q.parent = none ∧ q.above = [] ∧ q.id ∈ SymbolTree.roots 0 (Group.trees groups) ∨
      ∃ p ∈ locateAll none [] 0 (Group.trees groups), p.number < q.number ∧ q.parent = some p.id ∧ q.above = p.path ∧
        q.id ∈ p.children := by
  rcases SymbolTree.mem_locateAll_cases hq with ⟨hp, ha, -, hr⟩ | ⟨p, hp, hlt, hparent, ha, -, hr⟩
  · exact .inl ⟨hp, ha, hr⟩
  · exact .inr ⟨p, hp, hlt, hparent, ha, hr⟩

end Located

namespace Graph

/-! ## What a forest is -/

/-- The parent of a symbol, if there are both. -/
def parent? (g : Graph) (id : SymbolId) : Option SymbolId := (g.symbol? id).bind (·.parent)

/-- **The way up from a symbol ends**, passing these names from the top down. -/
inductive Climb (g : Graph) : SymbolId → List Identifier → Prop
  | top {id : SymbolId} {s : GraphSymbol} : g.symbol? id = some s → s.parent = none → Climb g id [s.name]
  | step {id parent : SymbolId} {s : GraphSymbol} {names : List Identifier} : g.symbol? id = some s →
      s.parent = some parent → Climb g parent names → Climb g id (names ++ [s.name])

/-- **The walk down from symbols ends**, passing these numbers: each symbol, then what is below it, then the rest. -/
inductive Walk (g : Graph) : List SymbolId → List SymbolId → Prop
  | nil : Walk g [] []
  | cons {id : SymbolId} {s : GraphSymbol} {ids below after : List SymbolId} : g.symbol? id = some s →
      Walk g s.children below → Walk g ids after → Walk g (id :: ids) (id :: (below ++ after))

/-- **The symbols own each other as a forest does**, and are numbered in pre-order. -/
structure IsForest (g : Graph) : Prop where
  /-- Every symbol that contains symbols was given its children. -/
  assigned : ∀ id s c, g.symbol? id = some s → s.content.children? = some c → c.isAssigned = true
  /-- A symbol is among the children of its parent, once, and among no others. -/
  owned : ∀ id s, g.symbol? id = some s → ∀ c, s.children.count c = if g.parent? c = some id then 1 else 0
  /-- The namespaces of the graph are the symbols without a parent. -/
  top : ∀ id, id ∈ g.namespaces ↔ ∃ s, g.symbol? id = some s ∧ s.parent = none
  /-- No namespace of the graph is listed twice. -/
  top_nodup : g.namespaces.Nodup
  /-- The namespaces of the graph are namespaces. -/
  top_space : ∀ id ∈ g.namespaces, ∀ s, g.symbol? id = some s → s.kind = .space
  /-- A parent is a symbol and comes before its children. -/
  parent_lt : ∀ id parent, g.parent? id = some parent → parent.index < id.index
  /-- Walking from the top down passes all the numbers in order. -/
  walk : g.Walk g.namespaces g.ids
  /-- The way up from every symbol ends, and the names on it make up the full name. -/
  climb : ∀ id ∈ g.ids, ∃ name, g.fullName? id = some name ∧ g.Climb id name.segments

/-! ## The graph of groups -/

variable {t : Table}

theorem symbol?_ofGroups {id : SymbolId} {s : GraphSymbol} :
    (ofGroups groups t).symbol? id = some s ↔ ∃ q ∈ locateAll none [] 0 (Group.trees groups), q.id = id ∧
      q.symbol.map (bind t (ofGroups groups t).index) = s := by
  rw [symbol?, symbols_ofGroups, SymbolTree.placeAll_eq none [] 0, List.map_map, List.getElem?_map,
    Option.map_eq_some_iff]
  constructor
  · rintro ⟨q, hq, rfl⟩
    obtain ⟨hmem, hnum⟩ := SymbolTree.getElem?_locateAll_iff.1 hq
    exact ⟨q, hmem, congrArg SymbolId.mk (hnum.trans (Nat.zero_add _)), rfl⟩
  · rintro ⟨q, hq, rfl, rfl⟩
    exact ⟨q, SymbolTree.getElem?_locateAll_iff.2 ⟨hq, (Nat.zero_add _).symm⟩, rfl⟩

theorem symbol?_of_mem {q : Located} (hq : q ∈ locateAll none [] 0 (Group.trees groups)) :
    (ofGroups groups t).symbol? q.id = some (q.symbol.map (bind t (ofGroups groups t).index)) :=
  symbol?_ofGroups.2 ⟨q, hq, rfl, rfl⟩

theorem parent?_ofGroups {id parent : SymbolId} : (ofGroups groups t).parent? id = some parent ↔
    ∃ q ∈ locateAll none [] 0 (Group.trees groups), q.id = id ∧ q.parent = some parent := by
  rw [parent?, Option.bind_eq_some_iff]
  constructor
  · rintro ⟨s, hs, hp⟩
    obtain ⟨q, hq, hid, rfl⟩ := symbol?_ofGroups.1 hs
    exact ⟨q, hq, hid, hp⟩
  · rintro ⟨q, hq, rfl, hp⟩
    exact ⟨_, symbol?_of_mem hq, hp⟩

/-- **A graph of groups has a symbol for each tree.** -/
theorem size_ofGroups (groups : List Group) (t : Table) :
    (ofGroups groups t).size = SymbolTree.sizeAll (Group.trees groups) := by
  rw [size, symbols_ofGroups, List.length_map, SymbolTree.length_placeAll]

theorem ids_ofGroups (groups : List Group) (t : Table) :
    (ofGroups groups t).ids = (locateAll none [] 0 (Group.trees groups)).map Located.id := by
  have hnum := SymbolTree.map_number_locateAll none [] 0 (Group.trees groups)
  rw [ids, size_ofGroups, List.range_eq_range', ← hnum, List.map_map]
  rfl

theorem mem_ids_of_symbol? {g : Graph} {id : SymbolId} {x : GraphSymbol} (hx : g.symbol? id = some x) : id ∈ g.ids := by
  obtain ⟨hlt, -⟩ := List.getElem?_eq_some_iff.1 hx
  exact List.mem_map.2 ⟨id.index, List.mem_range.2 hlt, rfl⟩

/-- **A symbol's children are those whose parent it is.** -/
theorem mem_children_iff {q : Located} (hq : q ∈ locateAll none [] 0 (Group.trees groups)) {id : SymbolId} :
    id ∈ q.children ↔ (ofGroups groups t).parent? id = some q.id := by
  rw [parent?_ofGroups]
  constructor
  · intro hid
    obtain ⟨p, hp, rfl, hparent, -⟩ := SymbolTree.exists_mem_of_mem_roots (some q.id) q.path hid
    exact ⟨p, SymbolTree.mem_locateAll_of_inside hq hp, rfl, hparent⟩
  · rintro ⟨p, hp, rfl, hparent⟩
    rcases p.cases_of_mem hp with ⟨htop, -⟩ | ⟨r, hr, -, hpr, -, hmem⟩
    · rw [htop] at hparent; cases hparent
    · rwa [Located.eq_of_id_eq hq hr (Option.some_inj.1 (hpr.symm.trans hparent))] at hmem

/-- The walk over trees that stand in a graph passes their numbers in order. -/
theorem walk_locateAll {g : Graph} : ∀ {ts : List SymbolTree} {parent : Option SymbolId} {above : List Identifier}
    {start : Nat}, (∀ q ∈ locateAll parent above start ts, ∃ s, g.symbol? q.id = some s ∧ s.children = q.children) →
      g.Walk (SymbolTree.roots start ts) ((locateAll parent above start ts).map Located.id)
  | [], _, _, _, _ => .nil
  | ⟨name, tags, content, declares, inside⟩ :: ts, parent, above, start, h => by
    obtain ⟨s, hs, hchildren⟩ := h _ (SymbolTree.mem_locateAll_cons.2 (.inl rfl))
    have hinside := walk_locateAll fun q hq => h q (SymbolTree.mem_locateAll_cons.2 (.inr (.inl hq)))
    have hafter := walk_locateAll fun q hq => h q (SymbolTree.mem_locateAll_cons.2 (.inr (.inr hq)))
    rw [SymbolTree.locateAll, SymbolTree.locate, List.cons_append, List.map_cons, List.map_append]
    exact .cons hs (hchildren ▸ hinside) hafter

/-- **The names on the way up are those a tree stands below, and its own.** -/
theorem pathWithin_ofGroups : ∀ {fuel : Nat} {q : Located}, q ∈ locateAll none [] 0 (Group.trees groups) →
    q.number < fuel → (ofGroups groups t).pathWithin fuel q.id = q.path
  | 0, _, _, h => absurd h (Nat.not_lt_zero _)
  | fuel + 1, q, hq, h => by
    rw [pathWithin, symbol?_of_mem hq]
    rcases q.cases_of_mem hq with ⟨hp, ha, -⟩ | ⟨p, hp, hlt, hparent, ha, -⟩
    · simp only [Symbol.map, Located.symbol, hp, Located.path, ha]
      rfl
    · simp only [Symbol.map, Located.symbol, hparent, Located.path, ha]
      rw [pathWithin_ofGroups hp (by omega)]
      rfl

theorem climb_ofGroups {q : Located} (hq : q ∈ locateAll none [] 0 (Group.trees groups)) :
    (ofGroups groups t).Climb q.id q.path := by
  induction hn : q.number using Nat.strongRecOn generalizing q with
  | ind n ih =>
    subst hn
    rcases q.cases_of_mem hq with ⟨hp, ha, -⟩ | ⟨p, hp, hlt, hparent, ha, -⟩
    · rw [Located.path, ha]
      exact .top (symbol?_of_mem hq) hp
    · rw [Located.path, ha]
      exact .step (symbol?_of_mem hq) hparent (ih _ hlt hp rfl)

/-- **The full name of a symbol is made of the names down to its tree.** -/
theorem fullName?_ofGroups {q : Located} (hq : q ∈ locateAll none [] 0 (Group.trees groups))
    {name : QualifiedName} (h : name.segments = q.path) : (ofGroups groups t).fullName? q.id = some name := by
  rw [fullName?, pathWithin_ofGroups hq (show q.number < q.id.index + 1 from Nat.lt_succ_self _), ← h]
  rfl

/-- **The graph of groups is a forest**, whatever groups they are and whatever its references are looked up in. -/
theorem isForest_ofGroups (groups : List Group) (t : Table) : (ofGroups groups t).IsForest := by
  refine ⟨?assigned, ?owned, ?top, SymbolTree.nodup_roots _ _, ?top_space, ?parent_lt, ?walk, ?climb⟩
  case assigned =>
    intro id s c hs hc
    obtain ⟨q, hq, -, rfl⟩ := symbol?_ofGroups.1 hs
    have hq' : q.symbol.content.children? = some c := by simpa [Symbol.map] using hc
    obtain rfl := q.children?_symbol hq hq'
    rfl
  case owned =>
    intro id s hs c
    obtain ⟨q, hq, rfl, rfl⟩ := symbol?_ofGroups.1 hs
    have hchildren : (q.symbol.map (bind t (ofGroups groups t).index)).children = q.children := by
      rw [Symbol.children, Symbol.map, Content.children_map]
      exact q.children_symbol hq
    have hnodup : q.children.Nodup := SymbolTree.nodup_roots _ _
    rw [hchildren, hnodup.count]
    exact if_congr (mem_children_iff hq) rfl rfl
  case top =>
    intro id
    constructor
    · intro hid
      obtain ⟨q, hq, rfl, hp, -⟩ := SymbolTree.exists_mem_of_mem_roots none [] hid
      exact ⟨_, symbol?_of_mem hq, hp⟩
    · rintro ⟨s, hs, hp⟩
      obtain ⟨q, hq, rfl, rfl⟩ := symbol?_ofGroups.1 hs
      rcases q.cases_of_mem hq with ⟨-, -, hroot⟩ | ⟨p, -, -, hparent, -⟩
      · exact hroot
      · rw [show q.parent = none from hp] at hparent; cases hparent
  case top_space =>
    intro id hid s hs
    obtain ⟨q, hq, rfl, -, -, htree, -⟩ := SymbolTree.exists_mem_of_mem_roots none [] hid
    obtain rfl := Option.some_inj.1 ((symbol?_of_mem hq).symm.trans hs)
    rw [Group.trees_eq] at htree
    obtain ⟨g, -, hg⟩ := List.mem_map.1 htree
    simp only [Symbol.kind, Symbol.map, Content.kind_map, Located.symbol, SymbolTree.kind_withChildren, ← hg,
      Group.tree_eq]
    rfl
  case parent_lt =>
    intro id parent hp
    obtain ⟨q, hq, rfl, hqp⟩ := parent?_ofGroups.1 hp
    rcases q.cases_of_mem hq with ⟨htop, -⟩ | ⟨p, -, hlt, hparent, -⟩
    · rw [htop] at hqp; cases hqp
    · obtain rfl := Option.some_inj.1 (hparent.symm.trans hqp)
      exact hlt
  case walk =>
    rw [ids_ofGroups]
    refine walk_locateAll fun q hq => ⟨_, symbol?_of_mem hq, ?_⟩
    rw [Symbol.children, Symbol.map, Content.children_map]
    exact q.children_symbol hq
  case climb =>
    intro id hid
    rw [ids_ofGroups] at hid
    obtain ⟨q, hq, rfl⟩ := List.mem_map.1 hid
    obtain ⟨name, hname⟩ : ∃ name : QualifiedName, name.segments = q.path := by
      cases hpath : q.path with
      | nil => exact absurd hpath (List.append_ne_nil_of_right_ne_nil _ (List.cons_ne_nil _ _))
      | cons i is => exact ⟨⟨i, is⟩, rfl⟩
    exact ⟨name, fullName?_ofGroups hq hname, hname ▸ climb_ofGroups hq⟩

end Graph
end DomainModel
