import DomainModel.Proofs.Group.Partition
import DomainModel.Rules
/-!
# Node — the rules, node by node

The rules go through groups and members; taken apart, they ask one thing of each node where it is written
(`violationsAt`).  The violations of a forest are those of its nodes, in another order, so that there are none exactly
when every node satisfies its rules, wherever in the forest it is (`check_merge_eq_nil_iff`).  What a rule asks is said
here in terms of a table.
-/
namespace DomainModel
namespace Table

open Source (ApiMember Atom At Entity Event Member Node Operation Path Property Query Reference Value)

/-- **The rules on a node alone**, without what is below it. -/
def violationsAt (t : Table) (circles : Bool) (s : Scope) : Node → List Violation
  | .entity e => t.checkIdentity s e ++ t.checkBase circles s .entity false e.name e.base
  | .event e => t.checkBase circles s .event false e.name e.base
  | .value v => t.checkBase circles s .value true v.name v.base
  | .property p => t.checkProperty s p
  | .path p => t.checkOperation (.declaration s p.operation.name) .path p.operation
  | .query q => t.checkOperation (.declaration s q.operation.name) .query q.operation
  | .command o => t.checkOperation (.declaration s o.name) .command o
  | .filter a => t.checkFilter s a
  | .tree _ | .block _ | .webApi _ | .externalEnum _ => []

variable {t : Table} {circles : Bool} {s : Scope}

/-! ## From members to nodes -/

theorem checkEvent_eq (e : Event) :
    t.checkEvent circles s e = (e.places s).flatMap fun x => t.violationsAt circles x.1 x.2 := by
  rw [checkEvent, Event.places, List.flatMap_cons, List.flatMap_map]
  rfl

theorem checkEntity_eq (e : Entity) :
    t.checkEntity circles s e = (e.places s).flatMap fun x => t.violationsAt circles x.1 x.2 := by
  rw [checkEntity, Entity.places, List.flatMap_cons, List.flatMap_assoc]
  exact congrArg (_ ++ ·) (congrArg e.events.flatMap (funext checkEvent_eq))

theorem checkValue_eq (v : Value) :
    t.checkValue circles s v = (v.places s).flatMap fun x => t.violationsAt circles x.1 x.2 := by
  rw [checkValue, Value.places, List.flatMap_cons, List.flatMap_map]
  rfl

theorem checkQuery_eq (q : Query) :
    t.checkQuery s q = (q.places s).flatMap fun x => t.violationsAt circles x.1 x.2 := by
  rw [checkQuery, Query.places, List.flatMap_cons, List.flatMap_map]
  rfl

mutual

theorem checkPath_eq (s : Scope) : ∀ p : Path,
    checkPath t s p = (p.places s).flatMap fun x => t.violationsAt circles x.1 x.2
  | ⟨operation, filters, members⟩ => by
    rw [checkPath, Path.places, List.flatMap_cons, List.flatMap_append, List.flatMap_map, checkApiMembers_eq _ members,
      List.append_assoc]
    rfl

theorem checkApiMember_eq (s : Scope) : ∀ m : ApiMember,
    checkApiMember t s m = (m.places s).flatMap fun x => t.violationsAt circles x.1 x.2
  | .command operation => by
    rw [checkApiMember, ApiMember.places, List.flatMap_singleton]
    rfl
  | .query q => by rw [checkApiMember, ApiMember.places, checkQuery_eq]
  | .path p => by rw [checkApiMember, ApiMember.places, checkPath_eq s p]

theorem checkApiMembers_eq (s : Scope) : ∀ ms : List ApiMember,
    checkApiMembers t s ms = (ApiMember.placesAll s ms).flatMap fun x => t.violationsAt circles x.1 x.2
  | [] => by rw [checkApiMembers]; rfl
  | m :: ms => by
    rw [checkApiMembers, ApiMember.placesAll, List.flatMap_append, checkApiMember_eq s m, checkApiMembers_eq s ms]

end

/-- **The rules on a member are those on its nodes.** -/
theorem checkMember_eq (m : Member) :
    t.checkMember circles s m = (m.places s).flatMap fun x => t.violationsAt circles x.1 x.2 := by
  cases m with
  | block b => rfl
  | entity e => exact checkEntity_eq e
  | value v => exact checkValue_eq v
  | externalEnum e => rfl
  | webApi root => exact checkPath_eq s root

theorem check_eq (groups : List Group) :
    t.check circles groups = ((Group.all groups).flatMap Group.places).flatMap fun x => t.violationsAt circles x.1 x.2 := by
  rw [check, List.flatMap_assoc]
  refine congrArg (Group.all groups).flatMap (funext fun g => ?_)
  rw [Group.places, List.flatMap_assoc]
  exact congrArg g.members.flatMap (funext fun m => checkMember_eq m.1)

/-- **The violations of a forest are those of its nodes**, in another order. -/
theorem check_merge_perm (t : Table) (circles : Bool) (forest : List Source.Tree) :
    (t.check circles (Group.merge forest)).Perm
      ((Source.places forest).flatMap fun x => t.violationsAt circles x.1 x.2) := by
  rw [check_eq]
  exact (Group.places_merge_perm forest).flatMap_right _

/-- **No rule is broken exactly when none is broken at a node**, wherever it is written. -/
theorem check_merge_eq_nil_iff {forest : List Source.Tree} :
    t.check circles (Group.merge forest) = [] ↔ ∀ s n, At forest s n → t.violationsAt circles s n = [] := by
  rw [← List.length_eq_zero_iff, (check_merge_perm t circles forest).length_eq, List.length_eq_zero_iff,
    List.flatMap_eq_nil_iff]
  exact (Source.forall_at_iff (P := fun s n => t.violationsAt circles s n = []) fun _ _ => rfl).symm

end Table

/-- **What a declaration of a kind may derive from**: one of its kind; a value also from a built-in type. -/
def DeclarationKind.MayDeriveFrom (kind : DeclarationKind) : Meaning → Prop
  | .builtIn _ => kind = .value
  | .declaration d => d.kind = kind
  | .external _ => False

namespace Table

open Source (Atom Entity Node Operation Property Reference)

variable {t : Table} {circles : Bool} {s own : Scope} {kind : DeclarationKind}

/-! ## What a rule asks -/

theorem violationIf_eq_nil_iff {condition : Bool} {v : Violation} : violationIf condition v = [] ↔ condition = false := by
  cases condition <;> simp [violationIf]

theorem checkReference_eq_nil_iff {r : QualifiedName} {check : Meaning → List Violation} :
    t.checkReference s r check = [] ↔ ∃ m, t.resolveIn s r = some m ∧ check m = [] := by
  unfold checkReference
  cases t.resolveIn s r <;> simp

/-- **The rule on bases** asks for a base of the right kind that does not lead back. -/
theorem checkBase_eq_nil_iff {builtInAllowed : Bool} (ha : builtInAllowed = true ↔ kind = .value) {name : Identifier}
    {base : Option Reference} :
    t.checkBase circles s kind builtInAllowed name base = [] ↔
      ∀ r, base = some r → ∃ m, t.resolveIn s r.name = some m ∧ kind.MayDeriveFrom m ∧
        ∀ d, m = .declaration d → d.fullName ≠ s.qualify name ∧
          (circles = true → t.reaches (s.qualify name) kind d = false) := by
  cases base with
  | none => simp [checkBase]
  | some r =>
    simp only [checkBase, checkReference_eq_nil_iff, Option.some.injEq, forall_eq']
    refine exists_congr fun m => and_congr_right' ?_
    cases m with
    | builtIn b => simp [violationIf_eq_nil_iff, DeclarationKind.MayDeriveFrom, ha]
    | external e => simp [DeclarationKind.MayDeriveFrom]
    | declaration d =>
      simp only [DeclarationKind.MayDeriveFrom, Meaning.declaration.injEq, forall_eq']
      by_cases hk : d.kind = kind
      · by_cases hn : d.fullName = s.qualify name
        · simp [hk, hn]
        · simp [hk, hn, violationIf_eq_nil_iff]
      · simp [hk]

theorem checkIdentity_eq_nil_iff {e : Entity} :
    t.checkIdentity s e = [] ↔ (e.identity.isSome ↔ ¬ e.base.isSome) ∧
      ∀ r, e.identity = some r →
        ∃ m, t.resolveIn (.declaration s e.name) r.name = some m ∧ t.isValue m = true := by
  unfold checkIdentity
  cases e.identity with
  | none => cases e.base <;> simp [violationIf]
  | some r =>
    simp only [List.append_eq_nil_iff, violationIf_eq_nil_iff, checkReference_eq_nil_iff, Option.some.injEq, forall_eq',
      Bool.not_eq_false']
    cases e.base <;> simp

theorem checkProperty_eq_nil_iff {p : Property} :
    t.checkProperty s p = [] ↔ ∃ m, t.resolveIn s p.atom.type.name = some m ∧ t.isValue m = true := by
  simp only [checkProperty, checkReference_eq_nil_iff, violationIf_eq_nil_iff, Bool.not_eq_false']

theorem checkFilter_eq_nil_iff {a : Atom} :
    t.checkFilter own a = [] ↔ a.type.cardinality = .zeroOrOne ∧
      ∃ m, t.resolveIn own a.type.name = some m ∧ t.isScalar m = true := by
  simp only [checkFilter, List.append_eq_nil_iff, checkReference_eq_nil_iff, violationIf_eq_nil_iff, Bool.not_eq_false',
    Cardinality.isExactlyZeroOrOne_iff]
  exact and_comm

theorem checkArgument_eq_nil_iff {kind : OperationKind} {o : Operation} {a : Atom} :
    t.checkArgument own kind o a = [] ↔ a.type.cardinality = .one ∧
      ∃ m, t.resolveIn own a.type.name = some m ∧ (kind ≠ .command → t.isScalar m = true) := by
  simp only [checkArgument, List.append_eq_nil_iff, checkReference_eq_nil_iff, violationIf_eq_nil_iff, Bool.not_eq_false',
    Cardinality.isExactlyOne_iff, Bool.and_eq_false_iff, bne_eq_false_iff_eq, or_iff_not_imp_left, ne_eq]

/-- **The rules on operations** ask for a value as the result and for at most one argument that occurs once. -/
theorem checkOperation_eq_nil_iff {kind : OperationKind} {o : Operation} :
    t.checkOperation own kind o = [] ↔
      (∃ m, t.resolveIn own o.result.name = some m ∧ t.isValue m = true ∧ (kind = .query → m.isVoid = false)) ∧
        o.arguments.length ≤ 1 ∧
          ∀ a ∈ o.arguments, a.type.cardinality = .one ∧
            ∃ m, t.resolveIn own a.type.name = some m ∧ (kind ≠ .command → t.isScalar m = true) := by
  rw [checkOperation, List.append_eq_nil_iff, checkReference_eq_nil_iff]
  refine and_congr ?_ ?_
  · simp only [List.append_eq_nil_iff, violationIf_eq_nil_iff, Bool.not_eq_false', Bool.and_eq_false_iff,
      beq_eq_false_iff_ne, ne_eq, ← imp_iff_not_or]
  · cases o.arguments with
    | nil => simp
    | cons a as => cases as with
      | nil => simp [checkArgument_eq_nil_iff]
      | cons b bs => simp

end Table
end DomainModel
