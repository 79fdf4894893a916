import DomainModel.Source.Walk
import DomainModel.Table.Declared
/-!
# Place — the nodes of a forest where they are written

`At forest s n` says that the node `n` is written in the scope `s` somewhere in the forest: a top block in its unit,
and whatever is below a node in the scope that the node opens.  `places` lists the nodes with their scopes, block by
block, in source order, and lists nothing else (`at_iff_mem_places`).
-/
namespace DomainModel
namespace Source

namespace Node

/-- **The scope of what is directly below a node** that is itself written in a scope.  The root path of a web API stands
in the place of the API. -/
def inside (outer : Scope) : Node → Scope
  | tree t => .top t.imports
  | block b => .block outer b.name b.imports
  | entity e => .declaration outer e.name
  | event e => .declaration outer e.name
  | value v => .declaration outer v.name
  | path p => .declaration outer p.operation.name
  | query q => .declaration outer q.operation.name
  | command operation => .declaration outer operation.name
  | webApi _ | externalEnum _ | property _ | filter _ => outer

def declaration? (scope : Scope) : Node → Option Declaration
  | entity e => some (e.declaration scope)
  | event e => some (e.declaration scope)
  | value v => some (v.declaration scope)
  | externalEnum e => some (plainDeclaration .externalEnum scope e.name)
  | webApi root => some (plainDeclaration .webApi scope root.operation.name)
  | tree _ | block _ | property _ | path _ | query _ | command _ | filter _ => none

end Node

/-- **A node is written in a scope** of the forest. -/
inductive At (forest : List Tree) : Scope → Node → Prop
  /-- The blocks of a unit see its imports. -/
  | top {t : Tree} {b : Block} : t ∈ forest → b ∈ t.blocks → At forest (.top t.imports) (.block b)
  /-- What is below a node sees what the node opens. -/
  | child {s : Scope} {n c : Node} : At forest s n → c ∈ n.children → At forest (n.inside s) c

/-- A forest has the nodes of its units, whatever other units there are. -/
theorem At.mono {forest others : List Tree} (h : forest ⊆ others) {s : Scope} {n : Node} (hn : At forest s n) :
    At others s n := by
  induction hn with
  | top ht hb => exact .top (h ht) hb
  | child _ hc ih => exact ih.child hc

/-! ## Listing the places -/

/-- A node with the scope it is written in. -/
abbrev Place := Scope × Node

def Event.places (scope : Scope) (e : Event) : List Place :=
  (scope, .event e) :: e.properties.map fun p => (.declaration scope e.name, .property p)

/-- An entity, its events and their properties. -/
def Entity.places (scope : Scope) (e : Entity) : List Place :=
  (scope, .entity e) :: e.events.flatMap (·.places (.declaration scope e.name))

def Value.places (scope : Scope) (v : Value) : List Place :=
  (scope, .value v) :: v.properties.map fun p => (.declaration scope v.name, .property p)

def Query.places (scope : Scope) (q : Query) : List Place :=
  (scope, .query q) :: q.filters.map fun a => (.declaration scope q.operation.name, .filter a)

mutual

/-- A path, its filters and what its members are and hold. -/
def Path.places (scope : Scope) : Path → List Place
  | ⟨operation, filters, members⟩ =>
    (scope, .path ⟨operation, filters, members⟩) ::
      (filters.map (fun a => (.declaration scope operation.name, .filter a)) ++
        ApiMember.placesAll (.declaration scope operation.name) members)

def ApiMember.places (scope : Scope) : ApiMember → List Place
  | .command operation => [(scope, .command operation)]
  | .query q => q.places scope
  | .path p => p.places scope

def ApiMember.placesAll (scope : Scope) : List ApiMember → List Place
  | [] => []
  | m :: ms => m.places scope ++ ApiMember.placesAll scope ms

end

/-- **A member of a block and what it holds**; blocks are listed by themselves. -/
def Member.places (scope : Scope) : Member → List Place
  | .block _ => []
  | .entity e => e.places scope
  | .value v => v.places scope
  | .externalEnum e => [(scope, .externalEnum e)]
  | .webApi root => (scope, .webApi root) :: root.places scope

/-- **The nodes of a forest that are no blocks**, where they are written. -/
def places (forest : List Tree) : List Place :=
  (fragmentsOf forest).flatMap fun f => f.members.flatMap fun m => m.1.places m.2

/-! ## The list holds what is below its entries -/

theorem ApiMember.self_mem_places (scope : Scope) : ∀ m : ApiMember, (scope, m.node) ∈ m.places scope
  | .command _ => by simp [places, node]
  | .query _ => by simp [places, node, Query.places]
  | .path ⟨_, _, _⟩ => by simp [places, node, Path.places]

theorem ApiMember.mem_placesAll {scope : Scope} {x : Place} : ∀ {ms : List ApiMember},
    x ∈ placesAll scope ms ↔ ∃ m ∈ ms, x ∈ m.places scope
  | [] => by simp [placesAll]
  | m :: ms => by
    rw [placesAll, List.mem_append, mem_placesAll]
    simp

/-- A node and what is directly below it. -/
def Node.withLeaves (scope : Scope) (n : Node) : List Place :=
  (scope, n) :: n.children.map fun c => (n.inside scope, c)

theorem Event.places_eq (scope : Scope) (e : Event) : e.places scope = (Node.event e).withLeaves scope := by
  rw [places, Node.withLeaves, Node.children, List.map_map]
  rfl

theorem Value.places_eq (scope : Scope) (v : Value) : v.places scope = (Node.value v).withLeaves scope := by
  rw [places, Node.withLeaves, Node.children, List.map_map]
  rfl

theorem Query.places_eq (scope : Scope) (q : Query) : q.places scope = (Node.query q).withLeaves scope := by
  rw [places, Node.withLeaves, Node.children, List.map_map]
  rfl

/-- Where there is nothing further down, the list is complete. -/
theorem Node.mem_withLeaves_below {scope : Scope} {n c : Node} {x : Place} (hleaf : ∀ c ∈ n.children, c.children = [])
    (hx : x ∈ n.withLeaves scope) (hc : c ∈ x.2.children) : (x.2.inside x.1, c) ∈ n.withLeaves scope := by
  unfold withLeaves at hx ⊢
  rcases List.mem_cons.1 hx with rfl | hx
  · exact List.mem_cons_of_mem _ (List.mem_map.2 ⟨c, hc, rfl⟩)
  · obtain ⟨leaf, hl, rfl⟩ := List.mem_map.1 hx
    have hnone : c ∈ ([] : List Node) := hleaf leaf hl ▸ hc
    cases hnone

theorem Event.mem_places_below {scope : Scope} {e : Event} {x : Place} {c : Node} (hx : x ∈ e.places scope)
    (hc : c ∈ x.2.children) : (x.2.inside x.1, c) ∈ e.places scope := by
  rw [places_eq] at hx ⊢
  exact Node.mem_withLeaves_below (by simp [Node.children]) hx hc

theorem Entity.mem_places_below {scope : Scope} {e : Entity} {x : Place} {c : Node} (hx : x ∈ e.places scope)
    (hc : c ∈ x.2.children) : (x.2.inside x.1, c) ∈ e.places scope := by
  unfold places at hx ⊢
  rcases List.mem_cons.1 hx with rfl | hx
  · obtain ⟨v, hv, rfl⟩ := List.mem_map.1 hc
    exact List.mem_cons_of_mem _ (List.mem_flatMap.2 ⟨v, hv, List.mem_cons_self⟩)
  · obtain ⟨v, hv, hx⟩ := List.mem_flatMap.1 hx
    exact List.mem_cons_of_mem _ (List.mem_flatMap.2 ⟨v, hv, Event.mem_places_below hx hc⟩)

theorem Value.mem_places_below {scope : Scope} {v : Value} {x : Place} {c : Node} (hx : x ∈ v.places scope)
    (hc : c ∈ x.2.children) : (x.2.inside x.1, c) ∈ v.places scope := by
  rw [places_eq] at hx ⊢
  exact Node.mem_withLeaves_below (by simp [Node.children]) hx hc

theorem Query.mem_places_below {scope : Scope} {q : Query} {x : Place} {c : Node} (hx : x ∈ q.places scope)
    (hc : c ∈ x.2.children) : (x.2.inside x.1, c) ∈ q.places scope := by
  rw [places_eq] at hx ⊢
  exact Node.mem_withLeaves_below (by simp [Node.children]) hx hc

mutual

theorem Path.mem_places_below {scope : Scope} {x : Place} {c : Node} : ∀ {p : Path}, x ∈ p.places scope →
    c ∈ x.2.children → (x.2.inside x.1, c) ∈ p.places scope
  | ⟨operation, filters, members⟩, hx, hc => by
    rw [Path.places] at hx ⊢
    rcases List.mem_cons.1 hx with rfl | hx
    · refine List.mem_cons_of_mem _ (List.mem_append.2 ?_)
      rcases List.mem_append.1 hc with hc | hc
      · obtain ⟨a, ha, rfl⟩ := List.mem_map.1 hc
        exact .inl (List.mem_map.2 ⟨a, ha, rfl⟩)
      · obtain ⟨m, hm, rfl⟩ := List.mem_map.1 hc
        exact .inr (ApiMember.mem_placesAll.2 ⟨m, hm, m.self_mem_places _⟩)
    · refine List.mem_cons_of_mem _ (List.mem_append.2 ?_)
      rcases List.mem_append.1 hx with hx | hx
      · obtain ⟨a, -, rfl⟩ := List.mem_map.1 hx
        cases hc
      · exact .inr (ApiMember.mem_placesAll_below hx hc)

theorem ApiMember.mem_places_below {scope : Scope} {x : Place} {c : Node} : ∀ {m : ApiMember}, x ∈ m.places scope →
    c ∈ x.2.children → (x.2.inside x.1, c) ∈ m.places scope
  | .command _, hx, hc => by
    obtain rfl : x = _ := by simpa [ApiMember.places] using hx
    cases hc
  | .query q, hx, hc => by
    rw [ApiMember.places] at hx ⊢
    exact q.mem_places_below hx hc
  | .path p, hx, hc => by
    rw [ApiMember.places] at hx ⊢
    exact Path.mem_places_below hx hc

theorem ApiMember.mem_placesAll_below {scope : Scope} {x : Place} {c : Node} : ∀ {ms : List ApiMember},
    x ∈ ApiMember.placesAll scope ms → c ∈ x.2.children → (x.2.inside x.1, c) ∈ ApiMember.placesAll scope ms
  | [], hx, _ => by simp [ApiMember.placesAll] at hx
  | m :: ms, hx, hc => by
    rw [ApiMember.placesAll, List.mem_append] at hx ⊢
    rcases hx with hx | hx
    · exact .inl (ApiMember.mem_places_below hx hc)
    · exact .inr (ApiMember.mem_placesAll_below hx hc)

end

/-- **What is directly below an entry is an entry** in the scope that the first one opens. -/
theorem Member.mem_places_below {scope : Scope} {m : Member} {x : Place} {c : Node} (hx : x ∈ m.places scope)
    (hc : c ∈ x.2.children) : (x.2.inside x.1, c) ∈ m.places scope := by
  cases m with
  | block b => cases hx
  | entity e => exact e.mem_places_below hx hc
  | value v => exact v.mem_places_below hx hc
  | externalEnum e =>
    obtain rfl : x = _ := by simpa [Member.places] using hx
    cases hc
  | webApi root =>
    rw [Member.places] at hx ⊢
    rcases List.mem_cons.1 hx with rfl | hx
    · obtain rfl : c = .path root := by simpa [Node.children] using hc
      cases root
      exact List.mem_cons_of_mem _ (by rw [Path.places]; exact List.mem_cons_self)
    · exact List.mem_cons_of_mem _ (Path.mem_places_below hx hc)

theorem Member.self_mem_places (scope : Scope) {m : Member} (hm : m.isBlock = false) :
    (scope, m.node) ∈ m.places scope := by
  cases m <;> simp_all [places, node, isBlock, Entity.places, Value.places]

/-! ## Entries are written where the list says -/

variable {forest : List Tree}

theorem Node.at_of_mem_withLeaves {s : Scope} {n : Node} {x : Place} (h : At forest s n) (hx : x ∈ n.withLeaves s) :
    At forest x.1 x.2 := by
  rcases List.mem_cons.1 hx with rfl | hx
  · exact h
  · obtain ⟨c, hc, rfl⟩ := List.mem_map.1 hx
    exact h.child hc

theorem Event.at_of_mem_places {s : Scope} {e : Event} {x : Place} (h : At forest s (.event e))
    (hx : x ∈ e.places s) : At forest x.1 x.2 := Node.at_of_mem_withLeaves h (e.places_eq s ▸ hx)

theorem Entity.at_of_mem_places {s : Scope} {e : Entity} {x : Place} (h : At forest s (.entity e))
    (hx : x ∈ e.places s) : At forest x.1 x.2 := by
  rcases List.mem_cons.1 hx with rfl | hx
  · exact h
  · obtain ⟨v, hv, hx⟩ := List.mem_flatMap.1 hx
    exact Event.at_of_mem_places (h.child (List.mem_map.2 ⟨v, hv, rfl⟩)) hx

theorem Value.at_of_mem_places {s : Scope} {v : Value} {x : Place} (h : At forest s (.value v))
    (hx : x ∈ v.places s) : At forest x.1 x.2 := Node.at_of_mem_withLeaves h (v.places_eq s ▸ hx)

theorem Query.at_of_mem_places {s : Scope} {q : Query} {x : Place} (h : At forest s (.query q))
    (hx : x ∈ q.places s) : At forest x.1 x.2 := Node.at_of_mem_withLeaves h (q.places_eq s ▸ hx)

mutual

theorem Path.at_of_mem_places {s : Scope} {x : Place} : ∀ {p : Path}, At forest s (.path p) → x ∈ p.places s →
    At forest x.1 x.2
  | ⟨operation, filters, members⟩, h, hx => by
    rw [Path.places] at hx
    rcases List.mem_cons.1 hx with rfl | hx
    · exact h
    rcases List.mem_append.1 hx with hx | hx
    · obtain ⟨a, ha, rfl⟩ := List.mem_map.1 hx
      exact h.child (List.mem_append.2 (.inl (List.mem_map.2 ⟨a, ha, rfl⟩)))
    · exact ApiMember.at_of_mem_placesAll
        (fun m hm => h.child (List.mem_append.2 (.inr (List.mem_map.2 ⟨m, hm, rfl⟩)))) hx

theorem ApiMember.at_of_mem_places {s : Scope} {x : Place} : ∀ {m : ApiMember}, At forest s m.node →
    x ∈ m.places s → At forest x.1 x.2
  | .command _, h, hx => by
    obtain rfl : x = _ := by simpa [ApiMember.places] using hx
    exact h
  | .query q, h, hx => by
    rw [ApiMember.places] at hx
    exact q.at_of_mem_places h hx
  | .path p, h, hx => by
    rw [ApiMember.places] at hx
    exact Path.at_of_mem_places h hx

theorem ApiMember.at_of_mem_placesAll {s : Scope} {x : Place} : ∀ {ms : List ApiMember},
    (∀ m ∈ ms, At forest s m.node) → x ∈ ApiMember.placesAll s ms → At forest x.1 x.2
  | [], _, hx => by simp [ApiMember.placesAll] at hx
  | m :: ms, h, hx => by
    rw [ApiMember.placesAll, List.mem_append] at hx
    rcases hx with hx | hx
    · exact ApiMember.at_of_mem_places (h m List.mem_cons_self) hx
    · exact ApiMember.at_of_mem_placesAll (fun m hm => h m (List.mem_cons_of_mem _ hm)) hx

end

theorem Member.at_of_mem_places {s : Scope} {m : Member} {x : Place} (h : At forest s m.node) (hx : x ∈ m.places s) :
    At forest x.1 x.2 := by
  cases m with
  | block b => cases hx
  | entity e => exact Entity.at_of_mem_places h hx
  | value v => exact Value.at_of_mem_places h hx
  | externalEnum e =>
    obtain rfl : x = _ := by simpa [Member.places] using hx
    exact h
  | webApi root =>
    rw [Member.places] at hx
    rcases List.mem_cons.1 hx with rfl | hx
    · exact h
    · exact Path.at_of_mem_places (h.child List.mem_cons_self) hx

/-! ## Blocks and their places -/

theorem Block.self_mem_fragments (outer : Scope) (b : Block) : ⟨outer, b⟩ ∈ b.fragments outer := by
  cases b
  rw [Block.fragments]
  exact List.mem_cons_self

theorem Member.mem_fragmentsAll {outer : Scope} {f : Fragment} : ∀ {ms : List Member},
    f ∈ fragmentsAll outer ms ↔ ∃ m ∈ ms, f ∈ m.fragments outer
  | [] => by simp [fragmentsAll]
  | m :: ms => by
    rw [fragmentsAll, List.mem_append, mem_fragmentsAll]
    simp

mutual

/-- **A block inside a listed one is listed**, in the scope that the outer one opens. -/
theorem Block.mem_fragments_inner {outer : Scope} {f : Fragment} {b : Block} : ∀ {top : Block},
    f ∈ top.fragments outer → .block b ∈ f.block.members → ⟨f.scope, b⟩ ∈ top.fragments outer
  | ⟨name, imports, members⟩, hf, hb => by
    rw [Block.fragments] at hf ⊢
    refine List.mem_cons_of_mem _ ?_
    rcases List.mem_cons.1 hf with rfl | hf
    · exact Member.mem_fragmentsAll.2 ⟨_, hb, b.self_mem_fragments _⟩
    · exact Member.mem_fragmentsAll_inner hf hb

theorem Member.mem_fragments_inner {outer : Scope} {f : Fragment} {b : Block} : ∀ {m : Member},
    f ∈ m.fragments outer → .block b ∈ f.block.members → ⟨f.scope, b⟩ ∈ m.fragments outer
  | .block top, hf, hb => by
    rw [Member.fragments] at hf ⊢
    exact Block.mem_fragments_inner hf hb
  | .entity _, hf, _ | .value _, hf, _ | .externalEnum _, hf, _ | .webApi _, hf, _ => by cases hf

theorem Member.mem_fragmentsAll_inner {outer : Scope} {f : Fragment} {b : Block} : ∀ {ms : List Member},
    f ∈ Member.fragmentsAll outer ms → .block b ∈ f.block.members → ⟨f.scope, b⟩ ∈ Member.fragmentsAll outer ms
  | [], hf, _ => by cases hf
  | m :: ms, hf, hb => by
    rw [Member.fragmentsAll, List.mem_append] at hf ⊢
    rcases hf with hf | hf
    · exact .inl (Member.mem_fragments_inner hf hb)
    · exact .inr (Member.mem_fragmentsAll_inner hf hb)

end

mutual

theorem Block.at_of_mem_fragments {s : Scope} {f : Fragment} : ∀ {b : Block}, At forest s (.block b) →
    f ∈ b.fragments s → At forest f.outer (.block f.block)
  | ⟨name, imports, members⟩, h, hf => by
    rw [Block.fragments] at hf
    rcases List.mem_cons.1 hf with rfl | hf
    · exact h
    · exact Member.at_of_mem_fragmentsAll
        (fun m hm => h.child (List.mem_map.2 ⟨m, hm, rfl⟩)) hf

theorem Member.at_of_mem_fragments {s : Scope} {f : Fragment} : ∀ {m : Member}, At forest s m.node →
    f ∈ m.fragments s → At forest f.outer (.block f.block)
  | .block b, h, hf => by
    rw [Member.fragments] at hf
    exact Block.at_of_mem_fragments h hf
  | .entity _, _, hf | .value _, _, hf | .externalEnum _, _, hf | .webApi _, _, hf => by cases hf

theorem Member.at_of_mem_fragmentsAll {s : Scope} {f : Fragment} : ∀ {ms : List Member},
    (∀ m ∈ ms, At forest s m.node) → f ∈ Member.fragmentsAll s ms → At forest f.outer (.block f.block)
  | [], _, hf => by cases hf
  | m :: ms, h, hf => by
    rw [Member.fragmentsAll, List.mem_append] at hf
    rcases hf with hf | hf
    · exact Member.at_of_mem_fragments (h m List.mem_cons_self) hf
    · exact Member.at_of_mem_fragmentsAll (fun m hm => h m (List.mem_cons_of_mem _ hm)) hf

end

theorem mem_fragmentsOf {f : Fragment} :
    f ∈ fragmentsOf forest ↔ ∃ t ∈ forest, ∃ b ∈ t.blocks, f ∈ b.fragments (.top t.imports) := by
  simp [fragmentsOf]

theorem mem_fragmentsOf_inner {f : Fragment} {b : Block} (hf : f ∈ fragmentsOf forest)
    (hb : .block b ∈ f.block.members) : ⟨f.scope, b⟩ ∈ fragmentsOf forest := by
  obtain ⟨t, ht, top, htop, hf⟩ := mem_fragmentsOf.1 hf
  exact mem_fragmentsOf.2 ⟨t, ht, top, htop, Block.mem_fragments_inner hf hb⟩

theorem at_of_mem_fragmentsOf {f : Fragment} (hf : f ∈ fragmentsOf forest) : At forest f.outer (.block f.block) := by
  obtain ⟨t, ht, b, hb, hf⟩ := mem_fragmentsOf.1 hf
  exact Block.at_of_mem_fragments (.top ht hb) hf

theorem Fragment.mem_members {f : Fragment} {m : Member} {s : Scope} :
    (m, s) ∈ f.members ↔ m ∈ f.block.members ∧ m.isBlock = false ∧ s = f.scope := by
  simp only [Fragment.members, List.mem_map, List.mem_filter, Bool.not_eq_true', Prod.mk.injEq]
  constructor
  · rintro ⟨m, ⟨hm, hb⟩, rfl, rfl⟩
    exact ⟨hm, hb, rfl⟩
  · rintro ⟨hm, hb, rfl⟩
    exact ⟨m, ⟨hm, hb⟩, rfl, rfl⟩

theorem mem_places {x : Place} :
    x ∈ places forest ↔ ∃ f ∈ fragmentsOf forest, ∃ m ∈ f.members, x ∈ m.1.places m.2 := by
  simp only [places, List.mem_flatMap]

/-! ## The list is the relation -/

/-- A node is a listed block or among the other nodes listed. -/
theorem At.mem {s : Scope} {n : Node} (h : At forest s n) :
    (∃ b, n = .block b ∧ ⟨s, b⟩ ∈ fragmentsOf forest) ∨ (s, n) ∈ places forest := by
  induction h with
  | top ht hb => exact .inl ⟨_, rfl, mem_fragmentsOf.2 ⟨_, ht, _, hb, Block.self_mem_fragments _ _⟩⟩
  | @child s n c _ hc ih =>
    rcases ih with ⟨b, rfl, hf⟩ | hn
    · obtain ⟨m, hm, rfl⟩ := List.mem_map.1 hc
      cases hb : m.isBlock with
      | true =>
        cases m with
        | block inner => exact .inl ⟨inner, rfl, mem_fragmentsOf_inner hf hm⟩
        | entity | value | externalEnum | webApi => cases hb
      | false =>
        exact .inr (mem_places.2 ⟨_, hf, (m, _), Fragment.mem_members.2 ⟨hm, hb, rfl⟩, Member.self_mem_places _ hb⟩)
    · obtain ⟨f, hf, m, hm, hx⟩ := mem_places.1 hn
      exact .inr (mem_places.2 ⟨f, hf, m, hm, Member.mem_places_below hx hc⟩)

/-- **Nodes other than blocks are written where they are listed**, and nowhere else. -/
theorem at_iff_mem_places {s : Scope} {n : Node} (hn : ∀ b, n ≠ .block b) :
    At forest s n ↔ (s, n) ∈ places forest := by
  constructor
  · intro h
    rcases h.mem with ⟨b, rfl, -⟩ | h
    · exact absurd rfl (hn b)
    · exact h
  · intro h
    obtain ⟨f, hf, m, hm, hx⟩ := mem_places.1 h
    obtain ⟨hm, -, hs⟩ := Fragment.mem_members.1 (show (m.1, m.2) ∈ f.members from hm)
    have hat : At forest m.2 m.1.node := hs ▸ (at_of_mem_fragmentsOf hf).child (List.mem_map.2 ⟨m.1, hm, rfl⟩)
    exact Member.at_of_mem_places hat hx

/-- What holds of all blocks holds of all nodes if it holds of the listed ones. -/
theorem forall_at_iff {P : Scope → Node → Prop} (hblock : ∀ s b, P s (.block b)) :
    (∀ s n, At forest s n → P s n) ↔ ∀ x ∈ places forest, P x.1 x.2 := by
  constructor
  · rintro h ⟨s, n⟩ hx
    by_cases hb : ∃ b, n = .block b
    · obtain ⟨b, rfl⟩ := hb
      exact hblock s b
    · exact h s n ((at_iff_mem_places fun b he => hb ⟨b, he⟩).2 hx)
  · intro h s n hn
    by_cases hb : ∃ b, n = .block b
    · obtain ⟨b, rfl⟩ := hb
      exact hblock s b
    · exact h (s, n) ((at_iff_mem_places fun b he => hb ⟨b, he⟩).1 hn)

/-! ## What is declared -/

theorem filterMap_leaf {α : Type} {f : α → Place} (hf : ∀ a, (f a).2.declaration? (f a).1 = none) (as : List α) :
    (as.map f).filterMap (fun x => x.2.declaration? x.1) = [] := by
  rw [List.filterMap_map]
  exact List.filterMap_eq_nil_iff.2 fun a _ => hf a

mutual

/-- Nothing inside a web API is declared. -/
theorem Path.filterMap_declaration? (s : Scope) : ∀ p : Path,
    (p.places s).filterMap (fun x => x.2.declaration? x.1) = []
  | ⟨operation, filters, members⟩ => by
    rw [Path.places, List.filterMap_cons_none rfl, List.filterMap_append, filterMap_leaf fun _ => rfl,
      ApiMember.filterMap_declaration?All, List.append_nil]

theorem ApiMember.filterMap_declaration? (s : Scope) : ∀ m : ApiMember,
    (m.places s).filterMap (fun x => x.2.declaration? x.1) = []
  | .command _ => by simp [ApiMember.places, Node.declaration?]
  | .query q => by
    rw [ApiMember.places, Query.places, List.filterMap_cons_none rfl, filterMap_leaf fun _ => rfl]
  | .path p => by rw [ApiMember.places, Path.filterMap_declaration? s p]

theorem ApiMember.filterMap_declaration?All (s : Scope) : ∀ ms : List ApiMember,
    (ApiMember.placesAll s ms).filterMap (fun x => x.2.declaration? x.1) = []
  | [] => rfl
  | m :: ms => by
    rw [ApiMember.placesAll, List.filterMap_append, ApiMember.filterMap_declaration? s m,
      ApiMember.filterMap_declaration?All s ms, List.append_nil]

end

theorem Event.filterMap_declaration? (s : Scope) (e : Event) :
    (e.places s).filterMap (fun x => x.2.declaration? x.1) = [e.declaration s] :=
  congrArg (e.declaration s :: ·) (filterMap_leaf (fun _ => rfl) e.properties)

/-- **What a member declares is what the nodes of its places declare.** -/
theorem Member.declarations_eq (s : Scope) (m : Member) :
    m.declarations s = (m.places s).filterMap fun x => x.2.declaration? x.1 := by
  cases m with
  | block b => rfl
  | entity e =>
    refine congrArg (e.declaration s :: ·) ?_
    rw [List.filterMap_flatMap, List.map_eq_flatMap]
    exact congrArg e.events.flatMap (funext fun v => (v.filterMap_declaration? _).symm)
  | value v => exact congrArg (v.declaration s :: ·) (filterMap_leaf (fun _ => rfl) v.properties).symm
  | externalEnum e => rfl
  | webApi root => exact congrArg (_ :: ·) (root.filterMap_declaration? s).symm

/-! ## A small forest -/

namespace Small

def string : Reference := ⟨.single ⟨"string", by decide⟩, .one⟩

/-- What things are called, a text. -/
def label : Value where
  name := ⟨"Label", by decide⟩
  isAbstract := false
  isExternal := false
  base := some string
  properties := []
  equalBy := []
  tags := []

def labelled (cardinality : Cardinality) : Reference := ⟨.single label.name, cardinality⟩

def order : Entity where
  name := ⟨"Order", by decide⟩
  isAbstract := false
  identity := some (labelled .one)
  base := none
  events := [⟨⟨"Placed", by decide⟩, false, none, [⟨⟨⟨"by", by decide⟩, labelled .one, []⟩, none⟩], []⟩]
  tags := []

def rush : Entity where
  name := ⟨"Rush", by decide⟩
  isAbstract := false
  identity := none
  base := some ⟨.single order.name, .one⟩
  events := []
  tags := []

def orders : Path where
  operation := ⟨⟨"Orders", by decide⟩, labelled .zeroOrMore, [], []⟩
  filters := []
  members := [.path ⟨⟨⟨"each", by decide⟩, labelled .one, [⟨⟨"called", by decide⟩, labelled .one, []⟩], []⟩, [],
    [.query ⟨⟨⟨"find", by decide⟩, labelled .one, [], []⟩, [⟨⟨"by", by decide⟩, labelled .zeroOrOne, []⟩]⟩]⟩]

/-- **One namespace with a value, two entities and a web API.** -/
def shop : List Tree :=
  [⟨none, [], [⟨.single ⟨"shop", by decide⟩, [], [.value label, .entity order, .entity rush, .webApi orders]⟩]⟩]

def shopName : QualifiedName := .single ⟨"shop", by decide⟩

end Small

end Source
end DomainModel
