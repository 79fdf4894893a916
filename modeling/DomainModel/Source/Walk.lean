import DomainModel.Source
/-!
# Walk — the nodes of a forest in source order

`Node.walk` lists a node and, where the test says to descend, the nodes below it, each before those below it.  It is
the pre-order of `Node.children` (`walk_eq`).
-/
namespace DomainModel
namespace Source

/-- **The kinds of nodes.** -/
inductive NodeKind where
  | tree | block | entity | event | value | externalEnum | property | webApi | path | query | command | filter
deriving DecidableEq, Repr

/-- **A node of a tree.** -/
inductive Node where
  | tree (t : Tree)
  | block (b : Block)
  | entity (e : Entity)
  | event (e : Event)
  | value (v : Value)
  | externalEnum (e : ExternalEnum)
  | property (p : Property)
  | webApi (root : Path)
  | path (p : Path)
  | query (q : Query)
  | command (operation : Operation)
  | filter (a : Atom)

namespace NodeKind

def all : List NodeKind :=
  [tree, block, entity, event, value, externalEnum, property, webApi, path, query, command, filter]

def word : NodeKind → String
  | tree => "tree"
  | block => "namespace"
  | entity => "entity"
  | event => "event"
  | value => "value"
  | externalEnum => "enum"
  | property => "property"
  | webApi => "api"
  | path => "path"
  | query => "query"
  | command => "command"
  | filter => "filter"

def ofWord? (word : String) : Option NodeKind := all.find? fun k => k.word == word

end NodeKind

def ApiMember.node : ApiMember → Node
  | .command operation => .command operation
  | .query q => .query q
  | .path p => .path p

def Member.node : Member → Node
  | .block b => .block b
  | .entity e => .entity e
  | .value v => .value v
  | .externalEnum e => .externalEnum e
  | .webApi root => .webApi root

namespace Node

def kind : Node → NodeKind
  | tree _ => .tree
  | block _ => .block
  | entity _ => .entity
  | event _ => .event
  | value _ => .value
  | externalEnum _ => .externalEnum
  | property _ => .property
  | webApi _ => .webApi
  | path _ => .path
  | query _ => .query
  | command _ => .command
  | filter _ => .filter

/-- The name of a node; that of a tree is its source, or `-`. -/
def name : Node → String
  | tree t => t.source.getD "-"
  | block b => b.name.text
  | entity e => e.name.text
  | event e => e.name.text
  | value v => v.name.text
  | externalEnum e => e.name.text
  | property p => p.atom.name.text
  | webApi root => root.operation.name.text
  | path p => p.operation.name.text
  | query q => q.operation.name.text
  | command operation => operation.name.text
  | filter a => a.name.text

def label (n : Node) : String := n.kind.word ++ " " ++ n.name

/-- **The nodes directly below a node**, in source order: filters of a path before its members. -/
def children : Node → List Node
  | tree t => t.blocks.map block
  | block b => b.members.map Member.node
  | entity e => e.events.map event
  | event e => e.properties.map property
  | value v => v.properties.map property
  | webApi root => [path root]
  | path p => p.filters.map filter ++ p.members.map ApiMember.node
  | query q => q.filters.map filter
  | externalEnum _ | property _ | command _ | filter _ => []

end Node

/-! ## Walking -/

/-- A query and, where the test says so, its filters. -/
def Query.walk (descend : Node → Bool) (q : Query) : List Node :=
  .query q :: if descend (.query q) then q.filters.map .filter else []

/-- An event and, where the test says so, its properties. -/
def Event.walk (descend : Node → Bool) (e : Event) : List Node :=
  .event e :: if descend (.event e) then e.properties.map .property else []

/-- An entity and, where the test says so, the nodes of its events. -/
def Entity.walk (descend : Node → Bool) (e : Entity) : List Node :=
  .entity e :: if descend (.entity e) then e.events.flatMap (·.walk descend) else []

/-- A value and, where the test says so, its properties. -/
def Value.walk (descend : Node → Bool) (v : Value) : List Node :=
  .value v :: if descend (.value v) then v.properties.map .property else []

mutual

/-- A path and, where the test says so, its filters and the nodes of its members. -/
def Path.walk (descend : Node → Bool) : Path → List Node
  | ⟨operation, filters, members⟩ =>
    .path ⟨operation, filters, members⟩ ::
      if descend (.path ⟨operation, filters, members⟩) then filters.map .filter ++ ApiMember.walkAll descend members
      else []

def ApiMember.walk (descend : Node → Bool) : ApiMember → List Node
  | .command operation => [.command operation]
  | .query q => q.walk descend
  | .path p => p.walk descend

def ApiMember.walkAll (descend : Node → Bool) : List ApiMember → List Node
  | [] => []
  | m :: ms => m.walk descend ++ ApiMember.walkAll descend ms

end

mutual

/-- A block and, where the test says so, the nodes of its members. -/
def Block.walk (descend : Node → Bool) : Block → List Node
  | ⟨name, imports, members⟩ =>
    .block ⟨name, imports, members⟩ ::
      if descend (.block ⟨name, imports, members⟩) then Member.walkAll descend members else []

/-- The nodes of a member of a block; a web API comes right before its root path. -/
def Member.walk (descend : Node → Bool) : Member → List Node
  | .block b => b.walk descend
  | .entity e => e.walk descend
  | .value v => v.walk descend
  | .externalEnum e => [.externalEnum e]
  | .webApi root => .webApi root :: if descend (.webApi root) then root.walk descend else []

def Member.walkAll (descend : Node → Bool) : List Member → List Node
  | [] => []
  | m :: ms => m.walk descend ++ Member.walkAll descend ms

end

namespace Node

/-- **The nodes from a node on**, descending where the test says so. -/
def walk (descend : Node → Bool) : Node → List Node
  | tree t => .tree t :: if descend (.tree t) then t.blocks.flatMap (·.walk descend) else []
  | block b => b.walk descend
  | entity e => e.walk descend
  | event e => e.walk descend
  | value v => v.walk descend
  | webApi root => .webApi root :: if descend (.webApi root) then root.walk descend else []
  | path p => p.walk descend
  | query q => q.walk descend
  | externalEnum e => [.externalEnum e]
  | property p => [.property p]
  | command operation => [.command operation]
  | filter a => [.filter a]

theorem walk_node_apiMember (descend : Node → Bool) (m : ApiMember) : m.node.walk descend = m.walk descend := by
  cases m <;> simp [ApiMember.node, walk, ApiMember.walk]

theorem walk_node_member (descend : Node → Bool) (m : Member) : m.node.walk descend = m.walk descend := by
  cases m <;> simp [Member.node, walk, Member.walk]

theorem walkAll_apiMember (descend : Node → Bool) : ∀ ms : List ApiMember,
    ApiMember.walkAll descend ms = (ms.map ApiMember.node).flatMap (·.walk descend)
  | [] => rfl
  | m :: ms => by
    simp only [ApiMember.walkAll, List.map_cons, List.flatMap_cons, walk_node_apiMember, walkAll_apiMember descend ms]

theorem walkAll_member (descend : Node → Bool) : ∀ ms : List Member,
    Member.walkAll descend ms = (ms.map Member.node).flatMap (·.walk descend)
  | [] => rfl
  | m :: ms => by
    simp only [Member.walkAll, List.map_cons, List.flatMap_cons, walk_node_member, walkAll_member descend ms]

theorem flatMap_leaf {α : Type} {f : α → Node} {descend : Node → Bool} (hf : ∀ a, (f a).walk descend = [f a])
    (as : List α) : (as.map f).flatMap (·.walk descend) = as.map f := by
  induction as with
  | nil => rfl
  | cons a as ih => simp only [List.map_cons, List.flatMap_cons, hf, ih, List.singleton_append]

/-- **The walk is the pre-order of the children**, cut below the nodes where the test says no. -/
theorem walk_eq (descend : Node → Bool) (n : Node) :
    n.walk descend = n :: if descend n then n.children.flatMap (·.walk descend) else [] := by
  have hf : ∀ as : List Atom, (as.map Node.filter).flatMap (·.walk descend) = as.map .filter :=
    flatMap_leaf fun _ => rfl
  have hp : ∀ as : List Property, (as.map Node.property).flatMap (·.walk descend) = as.map .property :=
    flatMap_leaf fun _ => rfl
  cases n with
  | tree t => rw [walk, children, List.flatMap_map]; rfl
  | block b => cases b; rw [walk, Block.walk, children, walkAll_member]
  | entity e => rw [walk, Entity.walk, children, List.flatMap_map]; rfl
  | event e => rw [walk, Event.walk, children, hp]
  | value v => rw [walk, Value.walk, children, hp]
  | webApi root => rw [walk, children, List.flatMap_cons, List.flatMap_nil, List.append_nil]; rfl
  | path p => cases p; rw [walk, Path.walk, children, List.flatMap_append, hf, walkAll_apiMember]
  | query q => rw [walk, Query.walk, children, hf]
  | externalEnum e => simp [walk, children]
  | property p => simp [walk, children]
  | command operation => simp [walk, children]
  | filter a => simp [walk, children]

end Node

namespace Tree

/-- The nodes of a forest, not descending into the kinds to stop at. -/
def walkForest (stop : List NodeKind) (forest : List Tree) : List Node :=
  forest.flatMap fun t => (Node.tree t).walk fun n => !stop.contains n.kind

/-- The properties and the filters of a forest, all of them. -/
def leaves (forest : List Tree) : List Node :=
  (walkForest [] forest).filter fun n => n.kind == .property || n.kind == .filter

end Tree

end Source
end DomainModel
