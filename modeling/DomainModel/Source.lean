import DomainModel.Cardinality
import DomainModel.Name.Qualified
import DomainModel.Tag
/-!
# Source — models as they are written

A forest of trees, one a source unit.  A tree holds namespace blocks; a block holds further blocks, entities with their
events, values, external enums and web APIs, whose paths nest.  Names in a tree are as written: what they mean is found
later.  Lists are in source order.
-/
namespace DomainModel

/-- **What kind of thing a name declares.** -/
inductive DeclarationKind where
  | entity | event | value | externalEnum | webApi
deriving DecidableEq, Repr

namespace DeclarationKind

def name : DeclarationKind → String
  | entity => "Entity"
  | event => "Event"
  | value => "Value"
  | externalEnum => "ExternalEnum"
  | webApi => "WebApi"

end DeclarationKind

/-- **What kind of operation a web API offers.** -/
inductive OperationKind where
  | command | query | path
deriving DecidableEq, Repr

namespace OperationKind

def name : OperationKind → String
  | command => "Command"
  | query => "Query"
  | path => "Path"

end OperationKind

namespace Source

/-- **A written reference to a type**, and how often a value of it may occur. -/
structure Reference where
  name : QualifiedName
  cardinality : Cardinality
deriving DecidableEq, Repr

/-- A named value of a type: an argument, a filter, the core of a property. -/
structure Atom where
  name : Identifier
  type : Reference
  tags : List Tag
deriving DecidableEq, Repr

/-- An atom that may go by another name outside. -/
structure Property where
  atom : Atom
  aliasName : Option Identifier
deriving DecidableEq, Repr

/-- What happens to an entity. -/
structure Event where
  name : Identifier
  isAbstract : Bool
  base : Option Reference
  properties : List Property
  tags : List Tag
deriving DecidableEq, Repr

/-- A thing with an identity. -/
structure Entity where
  name : Identifier
  isAbstract : Bool
  identity : Option Reference
  base : Option Reference
  events : List Event
  tags : List Tag
deriving DecidableEq, Repr

/-- A thing that is its properties; an external one is made elsewhere. -/
structure Value where
  name : Identifier
  isAbstract : Bool
  isExternal : Bool
  base : Option Reference
  properties : List Property
  equalBy : List Identifier
  tags : List Tag
deriving DecidableEq, Repr

/-- An enumeration made elsewhere. -/
structure ExternalEnum where
  name : Identifier
  tags : List Tag
deriving DecidableEq, Repr

/-- What commands, queries and paths have in common. -/
structure Operation where
  name : Identifier
  result : Reference
  arguments : List Atom
  tags : List Tag
deriving DecidableEq, Repr

/-- An operation that only reads. -/
structure Query where
  operation : Operation
  filters : List Atom
deriving DecidableEq, Repr

mutual

/-- **An operation that leads to further ones.**  A web API is its root path. -/
structure Path where
  operation : Operation
  filters : List Atom
  members : List ApiMember

/-- **A member of a path.** -/
inductive ApiMember where
  | command (operation : Operation)
  | query (query : Query)
  | path (path : Path)

end

mutual

/-- **A namespace block**: its dotted name, the namespaces it imports and its members. -/
structure Block where
  name : QualifiedName
  imports : List QualifiedName
  members : List Member

/-- **A member of a block.** -/
inductive Member where
  | block (block : Block)
  | entity (entity : Entity)
  | value (value : Value)
  | externalEnum (externalEnum : ExternalEnum)
  | webApi (root : Path)

end

/-- **The tree of one source unit.** -/
structure Tree where
  source : Option String
  imports : List QualifiedName
  blocks : List Block

namespace ApiMember

def operation : ApiMember → Operation
  | command operation => operation
  | query q => q.operation
  | path p => p.operation

def kind : ApiMember → OperationKind
  | command _ => .command
  | query _ => .query
  | path _ => .path

end ApiMember

namespace Member

/-- The name a member declares; a block declares none of its own. -/
def name? : Member → Option Identifier
  | block _ => none
  | entity e => some e.name
  | value v => some v.name
  | externalEnum e => some e.name
  | webApi root => some root.operation.name

/-- The block, if the member is one. -/
def block? : Member → Option Block
  | block b => some b
  | _ => none

def isBlock : Member → Bool
  | block _ => true
  | _ => false

end Member

namespace Block

def blocks (b : Block) : List Block := b.members.filterMap Member.block?

end Block

namespace Tree

/-- The tree of a unit in which nothing is written. -/
def blank (source : Option String) : Tree := ⟨source, [], []⟩

def isEmpty (t : Tree) : Bool := t.blocks.isEmpty

end Tree

/-! ## Equality -/

mutual

/-- Equality of paths is decided member by member. -/
def Path.decideEq : (a b : Path) → Decidable (a = b)
  | ⟨o, fs, ms⟩, ⟨o', fs', ms'⟩ =>
    match decEq o o', decEq fs fs', ApiMember.decideEqs ms ms' with
    | .isTrue h, .isTrue h', .isTrue h'' => .isTrue (by rw [h, h', h''])
    | .isFalse h, _, _ => .isFalse fun e => h (congrArg Path.operation e)
    | _, .isFalse h, _ => .isFalse fun e => h (congrArg Path.filters e)
    | _, _, .isFalse h => .isFalse fun e => h (congrArg Path.members e)

def ApiMember.decideEq : (a b : ApiMember) → Decidable (a = b)
  | .command o, .command o' => if h : o = o' then .isTrue (by rw [h]) else .isFalse fun e => h (by cases e; rfl)
  | .query q, .query q' => if h : q = q' then .isTrue (by rw [h]) else .isFalse fun e => h (by cases e; rfl)
  | .path p, .path p' =>
    match p.decideEq p' with
    | .isTrue h => .isTrue (by rw [h])
    | .isFalse h => .isFalse fun e => h (by cases e; rfl)
  | .command _, .query _ => .isFalse nofun
  | .command _, .path _ => .isFalse nofun
  | .query _, .command _ => .isFalse nofun
  | .query _, .path _ => .isFalse nofun
  | .path _, .command _ => .isFalse nofun
  | .path _, .query _ => .isFalse nofun

def ApiMember.decideEqs : (as bs : List ApiMember) → Decidable (as = bs)
  | [], [] => .isTrue rfl
  | a :: as, b :: bs =>
    match a.decideEq b, ApiMember.decideEqs as bs with
    | .isTrue h, .isTrue h' => .isTrue (by rw [h, h'])
    | .isFalse h, _ => .isFalse fun e => h (by cases e; rfl)
    | _, .isFalse h => .isFalse fun e => h (by cases e; rfl)
  | [], _ :: _ => .isFalse nofun
  | _ :: _, [] => .isFalse nofun

end

instance : DecidableEq Path := Path.decideEq
instance : DecidableEq ApiMember := ApiMember.decideEq

mutual

/-- Equality of blocks is decided member by member. -/
def Block.decideEq : (a b : Block) → Decidable (a = b)
  | ⟨n, is, ms⟩, ⟨n', is', ms'⟩ =>
    match decEq n n', decEq is is', Member.decideEqs ms ms' with
    | .isTrue h, .isTrue h', .isTrue h'' => .isTrue (by rw [h, h', h''])
    | .isFalse h, _, _ => .isFalse fun e => h (congrArg Block.name e)
    | _, .isFalse h, _ => .isFalse fun e => h (congrArg Block.imports e)
    | _, _, .isFalse h => .isFalse fun e => h (congrArg Block.members e)

def Member.decideEq : (a b : Member) → Decidable (a = b)
  | .block b, m =>
    match m with
    | .block b' =>
      match b.decideEq b' with
      | .isTrue h => .isTrue (by rw [h])
      | .isFalse h => .isFalse fun e => h (by cases e; rfl)
    | .entity _ | .value _ | .externalEnum _ | .webApi _ => .isFalse nofun
  | .entity e, m =>
    match m with
    | .entity e' => if h : e = e' then .isTrue (by rw [h]) else .isFalse fun eq => h (by cases eq; rfl)
    | .block _ | .value _ | .externalEnum _ | .webApi _ => .isFalse nofun
  | .value v, m =>
    match m with
    | .value v' => if h : v = v' then .isTrue (by rw [h]) else .isFalse fun eq => h (by cases eq; rfl)
    | .block _ | .entity _ | .externalEnum _ | .webApi _ => .isFalse nofun
  | .externalEnum e, m =>
    match m with
    | .externalEnum e' => if h : e = e' then .isTrue (by rw [h]) else .isFalse fun eq => h (by cases eq; rfl)
    | .block _ | .entity _ | .value _ | .webApi _ => .isFalse nofun
  | .webApi p, m =>
    match m with
    | .webApi p' => if h : p = p' then .isTrue (by rw [h]) else .isFalse fun eq => h (by cases eq; rfl)
    | .block _ | .entity _ | .value _ | .externalEnum _ => .isFalse nofun

def Member.decideEqs : (as bs : List Member) → Decidable (as = bs)
  | [], [] => .isTrue rfl
  | a :: as, b :: bs =>
    match a.decideEq b, Member.decideEqs as bs with
    | .isTrue h, .isTrue h' => .isTrue (by rw [h, h'])
    | .isFalse h, _ => .isFalse fun e => h (by cases e; rfl)
    | _, .isFalse h => .isFalse fun e => h (by cases e; rfl)
  | [], _ :: _ => .isFalse nofun
  | _ :: _, [] => .isFalse nofun

end

instance : DecidableEq Block := Block.decideEq
instance : DecidableEq Member := Member.decideEq

deriving instance DecidableEq for Tree

end Source
end DomainModel
