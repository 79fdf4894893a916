import DomainModel.Name.Qualified
/-!
# Scope — where a reference is written

A scope is the chain of what encloses a place: the unit, namespace blocks with dotted names, declarations.  It says
which full names a written reference may mean, the most specific first: what lies inside each enclosing name comes
before what a block imports, and that before what lies further out.
-/
namespace DomainModel

/-- **A place in a source**, by what encloses it. -/
inductive Scope where
  /-- Directly in a unit with its imports. -/
  | top (imports : List QualifiedName)
  /-- In a block with its dotted name and its imports. -/
  | block (outer : Scope) (name : QualifiedName) (imports : List QualifiedName)
  /-- In a declaration. -/
  | declaration (outer : Scope) (name : Identifier)
deriving DecidableEq, Repr

namespace Scope

/-- The full name of what encloses the place; a unit has none. -/
def fullName : Scope → Option QualifiedName
  | top _ => none
  | block outer name _ => some (name.under outer.fullName)
  | declaration outer name => some ((QualifiedName.single name).under outer.fullName)

def qualify (s : Scope) (name : Identifier) : QualifiedName := (QualifiedName.single name).under s.fullName

theorem last_qualify (s : Scope) (name : Identifier) : (s.qualify name).last = name := by
  unfold qualify
  cases s.fullName with
  | none => rfl
  | some outer => exact QualifiedName.last_child outer name

def parent? : Scope → Option Scope
  | top _ => none
  | block outer _ _ => some outer
  | declaration outer _ => some outer

def isTop : Scope → Bool
  | top _ => true
  | _ => false

/-- The chain of places, the outermost first. -/
def chain : Scope → List Scope
  | top imports => [top imports]
  | block outer name imports => outer.chain ++ [block outer name imports]
  | declaration outer name => outer.chain ++ [declaration outer name]

/-- **What a reference may mean by the innermost enclosing thing alone.**  In a block that is the name inside the block,
inside each import, and inside each proper beginning of the block's own dotted name. -/
def frameCandidates : Scope → QualifiedName → List QualifiedName
  | top imports, r => r :: imports.map (·.join r)
  | block outer name imports, r =>
    (name.under outer.fullName).join r ::
      (imports.map (·.join r) ++ name.ancestors.map fun a => (a.under outer.fullName).join r)
  | declaration outer name, r => [(outer.qualify name).join r]

/-- **All that a reference may mean**, the most specific first. -/
def candidates : Scope → QualifiedName → List QualifiedName
  | top imports, r => (top imports).frameCandidates r
  | block outer name imports, r => (block outer name imports).frameCandidates r ++ outer.candidates r
  | declaration outer name, r => (declaration outer name).frameCandidates r ++ outer.candidates r

/-- **The first candidate that the lookup knows**, asking no more than it must: the candidates of one enclosing thing are
formed only when those further in were asked for in vain. -/
def resolveM {m : Type → Type} [Monad m] {α : Type} (lookup : QualifiedName → m (Option α)) (r : QualifiedName) :
    Scope → m (Option α)
  | top imports => ((top imports).frameCandidates r).findSomeM? lookup
  | block outer name imports => do
    match ← ((block outer name imports).frameCandidates r).findSomeM? lookup with
    | some found => return some found
    | none => outer.resolveM lookup r
  | declaration outer name => do
    match ← ((declaration outer name).frameCandidates r).findSomeM? lookup with
    | some found => return some found
    | none => outer.resolveM lookup r

/-- The first answer of a lookup that depends on nothing but the name. -/
def resolve {α : Type} (lookup : QualifiedName → Option α) (r : QualifiedName) : Scope → Option α
  | top imports => ((top imports).frameCandidates r).findSome? lookup
  | block outer name imports =>
    ((block outer name imports).frameCandidates r).findSome? lookup <|> outer.resolve lookup r
  | declaration outer name =>
    ((declaration outer name).frameCandidates r).findSome? lookup <|> outer.resolve lookup r

/-- **Resolving is finding among the candidates.** -/
theorem resolve_eq {α : Type} (lookup : QualifiedName → Option α) (r : QualifiedName) : ∀ s : Scope,
    s.resolve lookup r = (s.candidates r).findSome? lookup
  | top _ => rfl
  | block outer name imports => by
    rw [resolve, candidates, List.findSome?_append, resolve_eq lookup r outer]
    cases List.findSome? lookup ((block outer name imports).frameCandidates r) <;> rfl
  | declaration outer name => by
    rw [resolve, candidates, List.findSome?_append, resolve_eq lookup r outer]
    cases List.findSome? lookup ((declaration outer name).frameCandidates r) <;> rfl

@[simp] theorem fullName_declaration (s : Scope) (name : Identifier) :
    (declaration s name).fullName = some (s.qualify name) := rfl

/-- The answer for a reference, with the names that the lookup was asked for, in order. -/
def resolveTracing {α : Type} (lookup : QualifiedName → Option α) (r : QualifiedName) (s : Scope) :
    Option α × List QualifiedName :=
  let ask (n : QualifiedName) : StateM (List QualifiedName) (Option α) := do
    modify (· ++ [n])
    return lookup n
  (s.resolveM ask r).run []

end Scope
end DomainModel
