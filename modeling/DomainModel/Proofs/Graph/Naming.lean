import DomainModel.Proofs.Graph.Image
import DomainModel.Proofs.Group.Merge
/-!
# Naming — full names and numbers

In a compiled graph a full name belongs to one type at most and to one namespace at most, though a type and a namespace
may share one.  The index of the graph finds the type of a full name (`Graph.get?_graphOf_eq_some_iff`), and going down the
namespaces by its segments finds the namespace (`Graph.IsImage.namespace?_eq_some_iff`); what they find goes by that name,
and whatever goes by it is found.
-/
namespace DomainModel

open Source (At Node declarationsOf)

/-- Entries that give the same are one entry, if nothing is given twice. -/
theorem getElem?_inj_of_nodup_filterMap {α β : Type} {f : α → Option β} {as : List α} (h : (as.filterMap f).Nodup)
    {i j : Nat} {a b : α} (ha : as[i]? = some a) (hb : as[j]? = some b) {c : β} (hac : f a = some c)
    (hbc : f b = some c) : i = j := by
  have hpair := List.pairwise_iff_getElem.1 (List.pairwise_filterMap.1 h)
  obtain ⟨hi, rfl⟩ := List.getElem?_eq_some_iff.1 ha
  obtain ⟨hj, rfl⟩ := List.getElem?_eq_some_iff.1 hb
  rcases Nat.lt_trichotomy i j with hlt | heq | hlt
  · exact absurd rfl (hpair i j hi hj hlt c hac c hbc)
  · exact heq
  · exact absurd rfl (hpair j i hj hi hlt c hbc c hac)

/-- **The kinds of types.** -/
def SymbolKind.types : List SymbolKind := [.entity, .event, .complexValue, .externalValue, .externalEnum, .webApi]

theorem SymbolKind.mem_types_iff {k : SymbolKind} : k ∈ types ↔ ∃ d, k.declarationKind? = some d := by
  cases k <;> simp [types, declarationKind?]

namespace Source

theorem Node.exists_declaration?_iff (s : Scope) {n : Node} {k : SymbolKind} (hk : n.symbolKind? = some k) :
    (∃ d, n.declaration? s = some d) ↔ k ∈ SymbolKind.types := by
  cases n with
  | value v =>
    cases hk
    cases v.isExternal <;> simp [declaration?, SymbolKind.types]
  | entity | event | externalEnum | webApi | path | query | command =>
    cases hk
    simp [declaration?, SymbolKind.types]
  | tree | block | property | filter => cases hk

theorem Node.fullName_of_declaration? {s : Scope} {n : Node} {d : Declaration} (hd : n.declaration? s = some d)
    {name : Identifier} (hname : n.name = name.text) : d.fullName = s.qualify name := by
  cases n with
  | entity | event | value | externalEnum | webApi =>
    cases hd
    exact congrArg s.qualify (Identifier.ext hname)
  | tree | block | property | path | query | command | filter => cases hd

end Source

namespace Graph

variable {g : Graph}

/-! ## Full names and ways up -/

theorem Climb.symbol? {id : SymbolId} {names : List Identifier} (h : g.Climb id names) : ∃ x, g.symbol? id = some x := by
  cases h with
  | top hx _ => exact ⟨_, hx⟩
  | step hx _ _ => exact ⟨_, hx⟩

/-- **There is one way up.** -/
theorem Climb.unique {id : SymbolId} {names others : List Identifier} (h : g.Climb id names) (h' : g.Climb id others) :
    names = others := by
  induction h generalizing others with
  | top hx hp =>
    cases h' with
    | top hy _ => rw [Option.some_inj.1 (hx.symm.trans hy)]
    | step hy hq _ => rw [Option.some_inj.1 (hy.symm.trans hx), hp] at hq; cases hq
  | step hx hp _ ih =>
    cases h' with
    | top hy hq => rw [Option.some_inj.1 (hy.symm.trans hx), hp] at hq; cases hq
    | step hy hq hclimb =>
      obtain rfl := Option.some_inj.1 (hx.symm.trans hy)
      obtain rfl := Option.some_inj.1 (hp.symm.trans hq)
      rw [ih hclimb]

theorem IsForest.climb_of_fullName? (h : g.IsForest) {id : SymbolId} {x : GraphSymbol} {name : QualifiedName}
    (hx : g.symbol? id = some x) (hname : g.fullName? id = some name) : g.Climb id name.segments := by
  obtain ⟨other, hother, hclimb⟩ := h.climb id (mem_ids_of_symbol? hx)
  rwa [Option.some_inj.1 (hname.symm.trans hother)]

theorem IsForest.fullName?_of_climb (h : g.IsForest) {id : SymbolId} {name : QualifiedName}
    (hclimb : g.Climb id name.segments) : g.fullName? id = some name := by
  obtain ⟨x, hx⟩ := hclimb.symbol?
  obtain ⟨other, hother, hclimb'⟩ := h.climb id (mem_ids_of_symbol? hx)
  rw [hother, QualifiedName.ext (hclimb'.unique hclimb)]

theorem IsForest.mem_children_iff (h : g.IsForest) {id child : SymbolId} {x : GraphSymbol} (hx : g.symbol? id = some x) :
    child ∈ x.children ↔ g.parent? child = some id := by
  rw [← List.count_pos_iff, h.owned id x hx child]
  split <;> simp_all

/-! ## Going down -/

/-- A symbol is a namespace of a name. -/
def isSpace (g : Graph) (name : Identifier) (id : SymbolId) : Bool :=
  match g.symbol? id with
  | some x => x.name == name && x.kind == .space
  | none => false

theorem isSpace_iff {name : Identifier} {id : SymbolId} :
    g.isSpace name id = true ↔ ∃ x, g.symbol? id = some x ∧ x.name = name ∧ x.kind = .space := by
  unfold isSpace
  cases g.symbol? id with
  | none => simp
  | some x => simp

def childrenOf (g : Graph) (id : SymbolId) : List SymbolId := ((g.symbol? id).map (·.children)).getD []

theorem descend_singleton (among : List SymbolId) (segment : Identifier) :
    g.descend among [segment] = among.find? (g.isSpace segment) := by
  unfold descend isSpace
  cases among.find? _ <;> rfl

theorem descend_cons_cons (among : List SymbolId) (segment next : Identifier) (rest : List Identifier) :
    g.descend among (segment :: next :: rest) =
      (among.find? (g.isSpace segment)).bind fun id => g.descend (g.childrenOf id) (next :: rest) := by
  rw [descend.eq_def]
  dsimp only
  unfold isSpace
  cases among.find? _ <;> rfl

/-- **The last step down is a step from what the others lead to.** -/
theorem descend_concat (segment : Identifier) : ∀ (segments : List Identifier) (among : List SymbolId), segments ≠ [] →
    g.descend among (segments ++ [segment]) =
      (g.descend among segments).bind fun id => (g.childrenOf id).find? (g.isSpace segment)
  | [], _, h => absurd rfl h
  | [first], among, _ => by
    rw [List.singleton_append, descend_cons_cons, descend_singleton]
    simp only [descend_singleton]
  | first :: next :: rest, among, _ => by
    rw [List.cons_append, List.cons_append, descend_cons_cons, descend_cons_cons, Option.bind_assoc]
    refine congrArg _ (funext fun id => ?_)
    rw [← List.cons_append]
    exact descend_concat segment (next :: rest) (g.childrenOf id) (List.cons_ne_nil _ _)

/-- **What going down finds is a namespace of these names.** -/
theorem IsForest.climb_of_descend (h : g.IsForest) {id : SymbolId} (segments : List Identifier) :
    g.descend g.namespaces segments = some id →
      g.Climb id segments ∧ ∃ x, g.symbol? id = some x ∧ x.kind = .space := by
  -- By induction on the way down, the last step last.
  induction segments using List.reverseRecOn generalizing id with
  | nil => intro hd; cases hd
  | append_singleton segments segment ih =>
    intro hd
    cases segments with
    | nil =>
      rw [List.nil_append, descend_singleton] at hd
      obtain ⟨x, hx, rfl, hk⟩ := isSpace_iff.1 (List.find?_some hd)
      obtain ⟨y, hy, hp⟩ := (h.top id).1 (List.mem_of_find?_eq_some hd)
      obtain rfl := Option.some_inj.1 (hx.symm.trans hy)
      exact ⟨.top hx hp, x, hx, hk⟩
    | cons first rest =>
      rw [descend_concat segment _ _ (List.cons_ne_nil _ _), Option.bind_eq_some_iff] at hd
      obtain ⟨parent, hparent, hd⟩ := hd
      obtain ⟨x, hx, rfl, hk⟩ := isSpace_iff.1 (List.find?_some hd)
      obtain ⟨hclimb, y, hy, -⟩ := ih hparent
      have hmem : id ∈ y.children := by
        have hmem := List.mem_of_find?_eq_some hd
        rwa [childrenOf, hy] at hmem
      have hp := (h.mem_children_iff hy).1 hmem
      rw [parent?, hx] at hp
      exact ⟨.step hx hp hclimb, x, hx, hk⟩

/-- Where only namespaces contain namespaces and no two of them share a full name, each is found by its names. -/
theorem IsForest.descend_of_climb (h : g.IsForest)
    (hinside : ∀ {id parent x}, g.symbol? id = some x → x.kind = .space → x.parent = some parent →
      ∃ y, g.symbol? parent = some y ∧ y.kind = .space)
    (hunique : ∀ {i j x y names}, g.symbol? i = some x → x.kind = .space → g.symbol? j = some y → y.kind = .space →
      g.Climb i names → g.Climb j names → i = j)
    {id : SymbolId} {names : List Identifier} (hclimb : g.Climb id names) :
    ∀ {x}, g.symbol? id = some x → x.kind = .space → g.descend g.namespaces names = some id := by
  -- Among symbols of one parent the first namespace of a name is the only one.
  have hfind : ∀ (above : List Identifier) {among : List SymbolId} {id : SymbolId} {x : GraphSymbol}, id ∈ among →
      g.symbol? id = some x → x.kind = .space → g.Climb id (above ++ [x.name]) →
      (∀ i ∈ among, ∀ y, g.symbol? i = some y → g.Climb i (above ++ [y.name])) →
      among.find? (g.isSpace x.name) = some id := by
    intro above among id x hmem hx hk hclimb hamong
    cases hf : among.find? (g.isSpace x.name) with
    | none => exact absurd (isSpace_iff.2 ⟨x, hx, rfl, hk⟩) (List.find?_eq_none.1 hf id hmem)
    | some i =>
      obtain ⟨y, hy, hname, hky⟩ := isSpace_iff.1 (List.find?_some hf)
      have hi := hamong i (List.mem_of_find?_eq_some hf) y hy
      rw [hname] at hi
      rw [hunique hy hky hx hk hi hclimb]
  induction hclimb with
  | @top id s hs hp =>
    intro x hx hk
    obtain rfl := Option.some_inj.1 (hs.symm.trans hx)
    rw [descend_singleton]
    refine hfind [] ((h.top id).2 ⟨s, hs, hp⟩) hs hk (.top hs hp) fun i hi y hy => ?_
    obtain ⟨z, hz, hpz⟩ := (h.top i).1 hi
    obtain rfl := Option.some_inj.1 (hy.symm.trans hz)
    exact .top hy hpz
  | @step id parent s names hs hp hclimb ih =>
    intro x hx hk
    obtain rfl := Option.some_inj.1 (hs.symm.trans hx)
    obtain ⟨y, hy, hky⟩ := hinside hs hk hp
    have hne : names ≠ [] := by cases hclimb <;> simp
    have hchildren : g.childrenOf parent = y.children := by rw [childrenOf, hy]; rfl
    rw [descend_concat s.name names _ hne, ih hy hky, Option.bind_some, hchildren]
    refine hfind names ((h.mem_children_iff hy).2 ?_) hs hk (.step hs hp hclimb) fun i hi z hz => ?_
    · rw [parent?, hs]
      exact hp
    · have hpi := (h.mem_children_iff hy).1 hi
      rw [parent?, hz] at hpi
      exact .step hz hpi hclimb

/-! ## Parts by their full names -/

variable {forest : List Source.Tree} {parts : List Part}

theorem IsImage.exists_part (h : g.IsImage forest parts) {id : SymbolId} {x : GraphSymbol} (hx : g.symbol? id = some x) :
    ∃ p, parts[id.index]? = some p ∧ g.StandsFor id p x := by
  obtain ⟨hsymbol, -⟩ := List.getElem?_eq_some_iff.1 hx
  have hlt : id.index < parts.length := by
    rw [h.size]
    exact hsymbol
  have hp := List.getElem?_eq_getElem hlt
  exact ⟨_, hp, h.stands id x _ hx hp⟩

theorem StandsFor.exists_group {id : SymbolId} {p : Part} {x : GraphSymbol} (h : g.StandsFor id p x)
    (hk : x.kind = .space) : ∃ a, p = .group a ∧ g.fullName? id = some a.fullName := by
  cases p with
  | group a => exact ⟨a, rfl, h.fullName⟩
  | node s n =>
    have hkind := h.keeps.kind
    rw [hk] at hkind
    cases n with
    | value v => cases hv : v.isExternal <;> simp [Node.symbolKind?, hv] at hkind
    | tree | block | entity | event | externalEnum | property | webApi | path | query | command | filter => cases hkind

theorem IsImage.parent_space (h : g.IsImage forest parts) {id parent : SymbolId} {x : GraphSymbol}
    (hx : g.symbol? id = some x) (hk : x.kind = .space) (hp : x.parent = some parent) :
    ∃ y, g.symbol? parent = some y ∧ y.kind = .space := by
  obtain ⟨p, hpart, hstands⟩ := h.exists_part hx
  obtain ⟨a, rfl, -⟩ := hstands.exists_group hk
  obtain ⟨y, hy⟩ : ∃ y, g.symbol? parent = some y := by
    obtain ⟨name, -, hclimb⟩ := h.owned.climb id (mem_ids_of_symbol? hx)
    generalize name.segments = names at hclimb
    cases hclimb with
    | top hs hq => rw [Option.some_inj.1 (hs.symm.trans hx), hp] at hq; cases hq
    | step hs hq hclimb =>
      rw [Option.some_inj.1 (hs.symm.trans hx), hp] at hq
      exact Option.some_inj.1 hq ▸ hclimb.symbol?
  obtain ⟨q, hq, hstandsq⟩ := h.exists_part hy
  refine ⟨y, hy, ?_⟩
  have hchild : id ∈ y.children := by
    rw [h.owned.mem_children_iff hy, parent?, hx]
    exact hp
  have hmem : some (Part.group a) ∈ q.contents.map some := by
    rw [← h.children parent y q hy hq, List.mem_map]
    exact ⟨id, hchild, hpart⟩
  obtain ⟨c, hc, hca⟩ := List.mem_map.1 hmem
  cases q with
  | group b => exact hstandsq.keeps.1
  | node s n =>
    obtain ⟨_, _, rfl⟩ := Part.exists_node_of_mem_contents hc
    cases hca

theorem IsImage.space_unique (h : g.IsImage forest parts) {i j : SymbolId} {x y : GraphSymbol}
    (hx : g.symbol? i = some x) (hkx : x.kind = .space) (hy : g.symbol? j = some y) (hky : y.kind = .space)
    (hname : g.fullName? i = g.fullName? j) : i = j := by
  obtain ⟨p, hp, hstandsp⟩ := h.exists_part hx
  obtain ⟨q, hq, hstandsq⟩ := h.exists_part hy
  obtain ⟨a, rfl, ha⟩ := hstandsp.exists_group hkx
  obtain ⟨b, rfl, hb⟩ := hstandsq.exists_group hky
  have hnodup : (parts.filterMap fun p => p.group?.map (·.fullName)).Nodup := by
    rw [← List.map_filterMap]
    exact ((h.groups.map _).nodup_iff).2 (Group.nodup_names_merge forest)
  refine congrArg SymbolId.mk (getElem?_inj_of_nodup_filterMap hnodup hp hq rfl ?_)
  exact hb.symm.trans (hname.symm.trans ha)

/-- **Going down the namespaces by a full name finds the namespace of the name.** -/
theorem IsImage.namespace?_eq_some_iff (h : g.IsImage forest parts) {name : QualifiedName} {id : SymbolId} :
    g.namespace? name = some id ↔ (∃ x, g.symbol? id = some x ∧ x.kind = .space) ∧ g.fullName? id = some name := by
  constructor
  · intro hd
    obtain ⟨hclimb, hx⟩ := h.owned.climb_of_descend _ hd
    exact ⟨hx, h.owned.fullName?_of_climb hclimb⟩
  · rintro ⟨⟨x, hx, hk⟩, hname⟩
    refine h.owned.descend_of_climb h.parent_space ?_ (h.owned.climb_of_fullName? hx hname) hx hk
    intro i j y z names hy hky hz hkz hi hj
    obtain ⟨other, hother, hclimb⟩ := h.owned.climb i (mem_ids_of_symbol? hy)
    obtain rfl := hclimb.unique hi
    exact h.space_unique hy hky hz hkz (hother.trans (h.owned.fullName?_of_climb hj).symm)

/-! ## Types -/

theorem StandsFor.exists_declaration {id : SymbolId} {p : Part} {x : GraphSymbol} (h : g.StandsFor id p x)
    (hk : x.kind ∈ SymbolKind.types) : ∃ d, p.declaration? = some d ∧ g.fullName? id = some d.fullName := by
  cases p with
  | group a =>
    rw [h.keeps.1] at hk
    exact absurd hk (by decide)
  | node s n =>
    obtain ⟨d, hd⟩ := (Node.exists_declaration?_iff s h.keeps.kind).2 hk
    refine ⟨d, hd, ?_⟩
    rw [Node.fullName_of_declaration? hd h.keeps.name]
    exact h.fullName

theorem IsImage.type_unique (h : g.IsImage forest parts) (hdistinct : Table.Distinct (declarationsOf forest))
    {i j : SymbolId} {x y : GraphSymbol} (hx : g.symbol? i = some x) (hkx : x.kind ∈ SymbolKind.types)
    (hy : g.symbol? j = some y) (hky : y.kind ∈ SymbolKind.types) (hname : g.fullName? i = g.fullName? j) : i = j := by
  obtain ⟨p, hp, hstandsp⟩ := h.exists_part hx
  obtain ⟨q, hq, hstandsq⟩ := h.exists_part hy
  obtain ⟨d, hd, hnamed⟩ := hstandsp.exists_declaration hkx
  obtain ⟨e, he, hnamee⟩ := hstandsq.exists_declaration hky
  have hnodup : (parts.filterMap fun p => p.declaration?.map (·.fullName)).Nodup := by
    rw [← List.map_filterMap]
    exact (Table.Distinct.perm (h.declarations.trans (Source.declarationsOf_perm forest))).2 hdistinct
  refine congrArg SymbolId.mk (getElem?_inj_of_nodup_filterMap hnodup hp hq (congrArg _ hd) ?_)
  rw [he]
  exact hnamee.symm.trans (hname.symm.trans hnamed)

/-- **The index finds the type of a full name.** -/
theorem get?_graphOf_eq_some_iff {outside : Universe} (h : (graphOf outside forest).IsImage forest parts)
    (hdistinct : Table.Distinct (declarationsOf forest)) {name : QualifiedName} {id : SymbolId} :
    (graphOf outside forest).get? name = some id ↔
      (∃ x, (graphOf outside forest).symbol? id = some x ∧ x.kind ∈ SymbolKind.types) ∧
        (graphOf outside forest).fullName? id = some name := by
  constructor
  · intro hget
    obtain ⟨q, hq, rfl, hname⟩ := exists_of_get?_index hget
    rcases q.origin_cases hq with ⟨a, -, htree, -⟩ | ⟨s, n, -, htree, hpath⟩
    · rw [htree, Group.tree_eq] at hname
      cases hname
    · rw [(Node.declares_of_tree? htree).1, Option.map_eq_some_iff] at hname
      obtain ⟨d, hd, rfl⟩ := hname
      obtain ⟨-, hfull, x, hx, hk⟩ :=
        isSymbolOf_of_declares (t := Table.ofForest outside forest) hq htree hpath hd
      exact ⟨⟨x, hx, SymbolKind.mem_types_iff.2 ⟨_, hk⟩⟩, hfull⟩
  · rintro ⟨⟨x, hx, hk⟩, hname⟩
    obtain ⟨p, hp, hstands⟩ := h.exists_part hx
    obtain ⟨d, hd, hnamed⟩ := hstands.exists_declaration hk
    obtain rfl := Option.some_inj.1 (hname.symm.trans hnamed)
    have hmem : d ∈ declarationsOf forest := by
      rw [← (h.declarations.trans (Source.declarationsOf_perm forest)).mem_iff, List.mem_filterMap]
      exact ⟨p, List.mem_of_getElem? hp, hd⟩
    obtain ⟨other, hother, -, hfull, y, hy, hky⟩ :=
      exists_symbol_of_declared (t := Table.ofForest outside forest) hdistinct hmem
    -- The index finds some type of that name, which is this one.
    have hsame := h.type_unique hdistinct hy (SymbolKind.mem_types_iff.2 ⟨_, hky⟩) hx hk (hfull.trans hname.symm)
    exact hsame ▸ hother

/-- **Full names and numbers correspond.** -/
structure NamesIds (g : Graph) : Prop where
  /-- The index finds the type of a full name, and nothing else. -/
  types : ∀ name id, g.get? name = some id ↔
    (∃ x, g.symbol? id = some x ∧ x.kind ∈ SymbolKind.types) ∧ g.fullName? id = some name
  /-- Going down the namespaces finds the namespace of a full name, and nothing else. -/
  spaces : ∀ name id, g.namespace? name = some id ↔
    (∃ x, g.symbol? id = some x ∧ x.kind = .space) ∧ g.fullName? id = some name
  type_unique : ∀ i j x y, g.symbol? i = some x → x.kind ∈ SymbolKind.types → g.symbol? j = some y →
    y.kind ∈ SymbolKind.types → g.fullName? i = g.fullName? j → i = j
  space_unique : ∀ i j x y, g.symbol? i = some x → x.kind = .space → g.symbol? j = some y → y.kind = .space →
    g.fullName? i = g.fullName? j → i = j

/-- **In a compiled graph full names and numbers correspond.** -/
theorem namesIds_of_compiled {options : CompileOptions} {forest : List Source.Tree} {g : Graph}
    (hg : compileForest options forest = .ok g) : g.NamesIds := by
  obtain ⟨hobserve, rfl⟩ := Table.compileForest_eq_ok_iff.1 hg
  obtain ⟨hdistinct, hobeys, -⟩ := Table.observe_eq_nil_iff.1 hobserve
  obtain ⟨parts, h⟩ := exists_isImage_graphOf hobeys
  exact {
    types := fun _ _ => get?_graphOf_eq_some_iff h hdistinct
    spaces := fun _ _ => h.namespace?_eq_some_iff
    type_unique := fun _ _ _ _ => h.type_unique hdistinct
    space_unique := fun _ _ _ _ => h.space_unique }

theorem namesIds_of_compiled_shop :
    compileForest {} Source.Small.shop = .ok (graphOf .empty Source.Small.shop) ∧
      (graphOf .empty Source.Small.shop).NamesIds := by
  have hg : compileForest {} Source.Small.shop = .ok (graphOf .empty Source.Small.shop) :=
    Table.compileForest_eq_ok_iff.2 ⟨by decide, rfl⟩
  exact ⟨hg, namesIds_of_compiled hg⟩

end Graph
end DomainModel
