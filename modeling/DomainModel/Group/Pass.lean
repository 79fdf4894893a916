import DomainModel.Group
import DomainModel.Source.Visitor
/-!
# Pass — a visitor sent through groups

A pass goes through all groups and sends a visitor to the members of each, in the scope in which the member is written.
The visitor may work on a state and take notes on the way.
-/
namespace DomainModel

open Source (Node)

/-- **A state, and the notes taken so far.** -/
structure Noting (σ β : Type) where
  state : σ
  notes : List β

abbrev NotingM (σ β : Type) := StateM (Noting σ β)

namespace NotingM

variable {σ β : Type}

def look : NotingM σ β σ := do return (← get).state

def step (f : σ → σ) : NotingM σ β Unit := modify fun x => { x with state := f x.state }

def note (f : σ → β) : NotingM σ β Unit := modify fun x => { x with notes := x.notes ++ [f x.state] }

end NotingM

/-- **Note every node that is visited**, then do what the visitor does there. -/
def Source.Visitor.noting {m : Type → Type} [Monad m] (note : Node → m Unit) (v : Visitor m) : Visitor m where
  tree t walk := do note (.tree t); v.tree t walk
  block b walk := do note (.block b); v.block b walk
  entity e walk := do note (.entity e); v.entity e walk
  event e walk := do note (.event e); v.event e walk
  value x walk := do note (.value x); v.value x walk
  externalEnum e := do note (.externalEnum e); v.externalEnum e
  property p := do note (.property p); v.property p
  webApi root walk := do note (.webApi root); v.webApi root walk
  path p walk := do note (.path p); v.path p walk
  query q walk := do note (.query q); v.query q walk
  command operation := do note (.command operation); v.command operation
  filter a := do note (.filter a); v.filter a

/-- **Send a visitor through groups**: to the members of each, entering the scope of the member before. -/
def Group.pass {m : Type → Type} [Monad m] (enter : Scope → m Unit) (v : Source.Visitor m) (groups : List Group) : m Unit :=
  forM (all groups) fun g => forM g.members fun x => do
    enter x.2
    v.visitMember x.1

end DomainModel
