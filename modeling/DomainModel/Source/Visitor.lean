import DomainModel.Source.Walk
/-!
# Visitor — walking a forest

A visitor says what is done at each kind of node.  Where there is something below a node it is given the walk below it, to
run before, after or between what it does itself, or not at all.  The walk below a node visits what is directly below it
in source order: the filters of a path before its members, and of a web API its root path.
-/
namespace DomainModel
namespace Source

/-- **What is done on a walk.**  The unit is the walk below the node. -/
structure Visitor (m : Type → Type) where
  tree : Tree → m Unit → m Unit
  block : Block → m Unit → m Unit
  entity : Entity → m Unit → m Unit
  event : Event → m Unit → m Unit
  value : Value → m Unit → m Unit
  externalEnum : ExternalEnum → m Unit
  property : Property → m Unit
  webApi : Path → m Unit → m Unit
  path : Path → m Unit → m Unit
  query : Query → m Unit → m Unit
  command : Operation → m Unit
  filter : Atom → m Unit

namespace Visitor

variable {m : Type → Type} [Monad m]

def plain : Visitor m where
  tree _ walk := walk
  block _ walk := walk
  entity _ walk := walk
  event _ walk := walk
  value _ walk := walk
  externalEnum _ := pure ()
  property _ := pure ()
  webApi _ walk := walk
  path _ walk := walk
  query _ walk := walk
  command _ := pure ()
  filter _ := pure ()

variable (v : Visitor m)

def visitQuery (q : Query) : m Unit := v.query q (forM q.filters v.filter)

def visitEvent (e : Event) : m Unit := v.event e (forM e.properties v.property)

def visitEntity (e : Entity) : m Unit := v.entity e (forM e.events v.visitEvent)

def visitValue (x : Value) : m Unit := v.value x (forM x.properties v.property)

mutual

def visitPath : Path → m Unit
  | ⟨operation, filters, members⟩ =>
    v.path ⟨operation, filters, members⟩ do
      forM filters v.filter
      visitApiMembers members

def visitApiMember : ApiMember → m Unit
  | .command operation => v.command operation
  | .query q => v.visitQuery q
  | .path p => visitPath p

def visitApiMembers : List ApiMember → m Unit
  | [] => pure ()
  | x :: xs => do
    visitApiMember x
    visitApiMembers xs

end

def visitWebApi (root : Path) : m Unit := v.webApi root (v.visitPath root)

mutual

def visitBlock : Block → m Unit
  | ⟨name, imports, members⟩ => v.block ⟨name, imports, members⟩ (visitMembers members)

def visitMember : Member → m Unit
  | .block b => visitBlock b
  | .entity e => v.visitEntity e
  | .value x => v.visitValue x
  | .externalEnum e => v.externalEnum e
  | .webApi root => v.visitWebApi root

def visitMembers : List Member → m Unit
  | [] => pure ()
  | x :: xs => do
    visitMember x
    visitMembers xs

end

def visitTree (t : Tree) : m Unit := v.tree t (forM t.blocks v.visitBlock)

/-- **Visit a forest**, unit by unit. -/
def visitForest (forest : List Tree) : m Unit := forM forest v.visitTree

def visit : Node → m Unit
  | .tree t => v.visitTree t
  | .block b => v.visitBlock b
  | .entity e => v.visitEntity e
  | .event e => v.visitEvent e
  | .value x => v.visitValue x
  | .externalEnum e => v.externalEnum e
  | .property p => v.property p
  | .webApi root => v.visitWebApi root
  | .path p => v.visitPath p
  | .query q => v.visitQuery q
  | .command operation => v.command operation
  | .filter a => v.filter a

/-- **Do the same at every node**, and do not walk on below the stops. -/
def stopping (act : Node → m Unit) (stop : NodeKind → Bool) : Visitor m :=
  let on (n : Node) (walk : m Unit) : m Unit := do
    act n
    unless stop n.kind do walk
  { tree := fun t => on (.tree t)
    block := fun b => on (.block b)
    entity := fun e => on (.entity e)
    event := fun e => on (.event e)
    value := fun x => on (.value x)
    externalEnum := fun e => act (.externalEnum e)
    property := fun p => act (.property p)
    webApi := fun root => on (.webApi root)
    path := fun p => on (.path p)
    query := fun q => on (.query q)
    command := fun operation => act (.command operation)
    filter := fun a => act (.filter a) }

/-- **The log of a walk**: every node visited, in order. -/
def log (stop : List NodeKind) (forest : List Tree) : List Node :=
  ((stopping (fun n => modify (· ++ [n])) stop.contains : Visitor (StateM (List Node))).visitForest forest).run [] |>.2

end Visitor
end Source
end DomainModel
