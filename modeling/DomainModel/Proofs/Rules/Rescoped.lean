import DomainModel.Proofs.Rules.Node
/-!
# Rescoped — what the rules see of a scope

A reference sees two things of the scope it is written in: the full name of what encloses it, and its candidates.
Scopes that are exchanged for others with the same full names and candidates leave every rule as it was
(`Table.Agrees.violationsAt`), as long as the tables agree on what references mean.
-/
namespace DomainModel

/-- **A change of scopes that no reference can tell.** -/
structure Scope.Keeps (ρ : Scope → Scope) : Prop where
  fullName : ∀ s, (ρ s).fullName = s.fullName
  candidates : ∀ s r, (ρ s).candidates r = s.candidates r
  declaration : ∀ s name, ρ (.declaration s name) = .declaration (ρ s) name

namespace Scope.Keeps

theorem id : Scope.Keeps id := ⟨fun _ => rfl, fun _ _ => rfl, fun _ _ => rfl⟩

variable {ρ : Scope → Scope}

theorem qualify (h : Scope.Keeps ρ) (s : Scope) (name : Identifier) : (ρ s).qualify name = s.qualify name := by
  rw [Scope.qualify, h.fullName, Scope.qualify]

end Scope.Keeps

def Declaration.rescope (ρ : Scope → Scope) (d : Declaration) : Declaration := { d with scope := ρ d.scope }

def Meaning.rescope (ρ : Scope → Scope) : Meaning → Meaning
  | builtIn b => builtIn b
  | declaration d => declaration (d.rescope ρ)
  | external e => external e

@[simp] theorem Meaning.rescope_id (m : Meaning) : m.rescope id = m := by cases m <;> rfl

@[simp] theorem Meaning.isVoid_rescope (ρ : Scope → Scope) (m : Meaning) : (m.rescope ρ).isVoid = m.isVoid := by
  cases m <;> rfl

open Source (ApiMember Event Member Path Place Query Value)

namespace Table

open Source (Atom Entity Node Operation Property Reference)

variable {ρ : Scope → Scope} {t u : Table}

/-- **Two tables agree** when references mean the same in them, up to a change of scopes. -/
structure Agrees (ρ : Scope → Scope) (t u : Table) : Prop where
  size : u.size = t.size
  isValueType : u.outside.isValueType = t.outside.isValueType
  resolveIn : ∀ s r, u.resolveIn (ρ s) r = (t.resolveIn s r).map (Meaning.rescope ρ)

namespace Agrees

variable (h : Agrees ρ t u)
include h

theorem baseOf (d : Declaration) : u.baseOf (d.rescope ρ) = (t.baseOf d).map (Meaning.rescope ρ) := by
  obtain ⟨kind, fullName, isExternal, base, hasProperties, scope⟩ := d
  cases base with
  | none => rfl
  | some base => exact h.resolveIn scope base

theorem isValue (m : Meaning) : u.isValue (m.rescope ρ) = t.isValue m := by
  cases m with
  | builtIn b => rfl
  | declaration d => rfl
  | external e => exact congrFun h.isValueType e

theorem isScalarWithin : ∀ (fuel : Nat) (m : Meaning), u.isScalarWithin fuel (m.rescope ρ) = t.isScalarWithin fuel m
  | _, .builtIn b => by simp [Meaning.rescope, Table.isScalarWithin]
  | _, .external e => by simp [Meaning.rescope, Table.isScalarWithin]
  | fuel, .declaration d => by
    have hbase := h.baseOf d
    unfold Meaning.rescope Table.isScalarWithin
    rw [hbase]
    cases t.baseOf d with
    | none => cases fuel <;> rfl
    | some base =>
      cases fuel with
      | zero => rfl
      | succ fuel =>
        have ih := isScalarWithin fuel base
        simp only [Option.map_some, ih]
        rfl

theorem isScalar (m : Meaning) : u.isScalar (m.rescope ρ) = t.isScalar m := by
  rw [Table.isScalar, h.size, h.isScalarWithin, Table.isScalar]

theorem reachesWithin (name : QualifiedName) (kind : DeclarationKind) : ∀ (fuel : Nat) (d : Declaration),
    u.reachesWithin name kind fuel (d.rescope ρ) = t.reachesWithin name kind fuel d
  | 0, _ => rfl
  | fuel + 1, d => by
    have hbase := h.baseOf d
    unfold Table.reachesWithin
    rw [hbase]
    cases t.baseOf d with
    | none => rfl
    | some m => cases m with
      | builtIn | external => rfl
      | declaration base =>
        have ih := reachesWithin name kind fuel base
        simp only [Option.map_some, Meaning.rescope, ih]
        rfl

theorem reaches (name : QualifiedName) (kind : DeclarationKind) (d : Declaration) :
    u.reaches name kind (d.rescope ρ) = t.reaches name kind d := by
  rw [Table.reaches, h.size, h.reachesWithin, Table.reaches]

/-! ## The rules -/

theorem checkReference {s : Scope} {r : QualifiedName} {check check' : Meaning → List Violation}
    (hcheck : ∀ m, check' (m.rescope ρ) = check m) :
    u.checkReference (ρ s) r check' = t.checkReference s r check := by
  unfold Table.checkReference
  rw [h.resolveIn]
  cases t.resolveIn s r with
  | none => rfl
  | some m => exact hcheck m

variable (hρ : Scope.Keeps ρ) {circles : Bool} {s : Scope}

include hρ in
theorem checkBase (kind : DeclarationKind) (builtInAllowed : Bool) (name : Identifier) (base : Option Reference) :
    u.checkBase circles (ρ s) kind builtInAllowed name base = t.checkBase circles s kind builtInAllowed name base := by
  cases base with
  | none => rfl
  | some base =>
    refine h.checkReference fun m => ?_
    cases m with
    | builtIn b => rfl
    | external e => rfl
    | declaration d => simp only [Meaning.rescope, hρ.qualify, h.reaches]; rfl

theorem checkProperty (p : Property) : u.checkProperty (ρ s) p = t.checkProperty s p :=
  h.checkReference fun m => by rw [h.isValue]

include hρ in
theorem checkIdentity (e : Entity) : u.checkIdentity (ρ s) e = t.checkIdentity s e := by
  unfold Table.checkIdentity
  cases e.identity with
  | none => rfl
  | some identity =>
    rw [← hρ.declaration]
    exact congrArg (_ ++ ·) (h.checkReference fun m => by rw [h.isValue])

theorem checkArgument (kind : OperationKind) (o : Operation) (a : Atom) :
    u.checkArgument (ρ s) kind o a = t.checkArgument s kind o a :=
  congrArg (_ ++ ·) (h.checkReference fun m => by rw [h.isScalar])

theorem checkOperation (kind : OperationKind) (o : Operation) :
    u.checkOperation (ρ s) kind o = t.checkOperation s kind o := by
  have hresult : ∀ m : Meaning,
      violationIf (!u.isValue (m.rescope ρ)) (.resultNoValue kind o.name) ++
          violationIf (kind == .query && (m.rescope ρ).isVoid) (.resultVoid kind o.name) =
        violationIf (!t.isValue m) (.resultNoValue kind o.name) ++
          violationIf (kind == .query && m.isVoid) (.resultVoid kind o.name) := by
    intro m
    rw [h.isValue, m.isVoid_rescope]
  unfold Table.checkOperation
  rw [h.checkReference hresult]
  cases o.arguments with
  | nil => rfl
  | cons a as => cases as with
    | nil => exact congrArg (_ ++ ·) (h.checkArgument kind o a)
    | cons b bs => rfl

theorem checkFilter (a : Atom) : u.checkFilter (ρ s) a = t.checkFilter s a :=
  congrArg (· ++ _) (h.checkReference fun m => by rw [h.isScalar])

include hρ in
/-- **Every node breaks the same rules in the exchanged scope.** -/
theorem violationsAt (n : Node) : u.violationsAt circles (ρ s) n = t.violationsAt circles s n := by
  cases n with
  | entity e => exact congrArg₂ (· ++ ·) (h.checkIdentity hρ e) (h.checkBase hρ _ _ _ _)
  | event e => exact h.checkBase hρ _ _ _ _
  | value v => exact h.checkBase hρ _ _ _ _
  | property p => exact h.checkProperty p
  | filter a => exact h.checkFilter a
  | path | query | command => simp only [Table.violationsAt, ← hρ.declaration, h.checkOperation]
  | tree | block | webApi | externalEnum => rfl

end Agrees

/-! ## A table with its scopes exchanged -/

def rescope (ρ : Scope → Scope) (t : Table) : Table := ⟨t.declarations.map (·.rescope ρ), t.outside⟩

theorem find?_rescope (ρ : Scope → Scope) (t : Table) (name : QualifiedName) :
    (t.rescope ρ).find? name = (t.find? name).map (·.rescope ρ) := by
  unfold find? rescope
  rw [List.find?_map]
  rfl

theorem resolve_rescope (ρ : Scope → Scope) (t : Table) (name : QualifiedName) :
    (t.rescope ρ).resolve name = (t.resolve name).map (Meaning.rescope ρ) := by
  unfold resolve
  rw [find?_rescope]
  split
  · rfl
  · cases t.find? name with
    | some d => rfl
    | none =>
      simp only [Option.map_none, Option.map_map]
      refine congrArg (Option.map · (t.outside.lookup name)) (funext fun e => ?_)
      obtain ⟨fullName, standsFor⟩ := e
      cases standsFor <;> rfl

theorem agrees_rescope (hρ : Scope.Keeps ρ) (t : Table) : Agrees ρ t (t.rescope ρ) where
  size := List.length_map ..
  isValueType := rfl
  resolveIn s r := by
    have hresolve : (t.rescope ρ).resolve = Option.map (Meaning.rescope ρ) ∘ t.resolve :=
      funext (resolve_rescope ρ t)
    rw [Table.resolveIn, Table.resolveIn, Scope.resolve_eq, Scope.resolve_eq, hρ.candidates, hresolve,
      ← List.map_findSome?]

theorem define_rescope (t : Table) (d : Declaration) :
    (t.rescope ρ).define (d.rescope ρ) = ((t.define d).1.rescope ρ, (t.define d).2) := by
  have hfind : (t.rescope ρ).find? (d.rescope ρ).fullName = (t.find? d.fullName).map (·.rescope ρ) :=
    find?_rescope ρ t d.fullName
  unfold define
  rw [hfind]
  cases t.find? d.fullName with
  | none => simp [rescope]
  | some taken => rfl

/-- **Names are defined without a look at scopes.** -/
theorem defineAll_rescope : ∀ (ds : List Declaration) (t : Table),
    (t.rescope ρ).defineAll (ds.map (·.rescope ρ)) = ((t.defineAll ds).1.rescope ρ, (t.defineAll ds).2)
  | [], _ => rfl
  | d :: ds, t => by
    rw [List.map_cons, defineAll, define_rescope, defineAll]
    simp only [defineAll_rescope ds]

end Table

/-! ## Places in other scopes -/

namespace Source

variable {ρ : Scope → Scope}

/-- The same node in the exchanged scope. -/
def Place.rescope (ρ : Scope → Scope) (x : Place) : Place := (ρ x.1, x.2)

theorem Node.declaration?_rescope (h : Scope.Keeps ρ) (s : Scope) (n : Node) :
    n.declaration? (ρ s) = (n.declaration? s).map (·.rescope ρ) := by
  cases n <;> simp only [Node.declaration?, Entity.declaration, Event.declaration, Value.declaration, plainDeclaration,
    h.qualify] <;> rfl

theorem Event.places_rescope (h : Scope.Keeps ρ) (s : Scope) (e : Event) :
    e.places (ρ s) = (e.places s).map (Place.rescope ρ) := by
  rw [Event.places, Event.places, ← h.declaration, List.map_cons, List.map_map]
  rfl

theorem Query.places_rescope (h : Scope.Keeps ρ) (s : Scope) (q : Query) :
    q.places (ρ s) = (q.places s).map (Place.rescope ρ) := by
  rw [Query.places, Query.places, ← h.declaration, List.map_cons, List.map_map]
  rfl

mutual

theorem Path.places_rescope (h : Scope.Keeps ρ) (s : Scope) : ∀ p : Path,
    p.places (ρ s) = (p.places s).map (Place.rescope ρ)
  | ⟨operation, filters, members⟩ => by
    rw [Path.places, Path.places, ← h.declaration, ApiMember.placesAll_rescope h _ members, List.map_cons,
      List.map_append, List.map_map]
    rfl

theorem ApiMember.places_rescope (h : Scope.Keeps ρ) (s : Scope) : ∀ m : ApiMember,
    m.places (ρ s) = (m.places s).map (Place.rescope ρ)
  | .command _ => by rw [ApiMember.places, ApiMember.places]; rfl
  | .query q => by rw [ApiMember.places, ApiMember.places, q.places_rescope h]
  | .path p => by rw [ApiMember.places, ApiMember.places, Path.places_rescope h s p]

theorem ApiMember.placesAll_rescope (h : Scope.Keeps ρ) (s : Scope) : ∀ ms : List ApiMember,
    ApiMember.placesAll (ρ s) ms = (ApiMember.placesAll s ms).map (Place.rescope ρ)
  | [] => by rw [ApiMember.placesAll, ApiMember.placesAll]; rfl
  | m :: ms => by
    rw [ApiMember.placesAll, ApiMember.placesAll, ApiMember.places_rescope h s m, ApiMember.placesAll_rescope h s ms,
      List.map_append]

end

/-- **A member in another scope has the same nodes**, in other scopes. -/
theorem Member.places_rescope (h : Scope.Keeps ρ) (s : Scope) (m : Member) :
    m.places (ρ s) = (m.places s).map (Place.rescope ρ) := by
  cases m with
  | block b => rfl
  | entity e =>
    rw [Member.places, Member.places, Entity.places, Entity.places, List.map_cons, List.map_flatMap, ← h.declaration]
    exact congrArg (_ :: ·) (congrArg e.events.flatMap (funext fun v => v.places_rescope h _))
  | value v =>
    rw [Member.places, Member.places, Value.places, Value.places, ← h.declaration, List.map_cons, List.map_map]
    rfl
  | externalEnum e => rfl
  | webApi root => exact congrArg (_ :: ·) (root.places_rescope h s)

end Source
end DomainModel
