import DomainModel.Proofs.Rules.Accepted
import DomainModel.Proofs.Table.Searched
import Mathlib.Data.List.Chain
/-!
# Circles — who is told that its bases lead back

In a forest without conflicts a declaration is told of a circle exactly when it lies on a circle of two or more
declarations of its kind, each the base of the one before, and that it cannot inherit from itself exactly when it is its
own base; each is told once, in the order in which the names are defined (`circles_of_forest`).  A declaration whose
bases only run into a circle is told nothing.
-/
namespace DomainModel

/-- **What leads anywhere leads there without passing a place twice.** -/
theorem exists_nodup_chain {α : Type} {r : α → α → Prop} {a b : α} (h : Relation.ReflTransGen r a b) :
    ∃ way, (a :: way).Nodup ∧ (a :: way).IsChain r ∧ (a :: way).getLast? = some b := by
  induction h using Relation.ReflTransGen.head_induction_on with
  | refl => exact ⟨[], List.nodup_singleton b, .singleton b, rfl⟩
  | @head a c hac _ ih =>
    obtain ⟨way, hnodup, hchain, hlast⟩ := ih
    by_cases ha : a ∈ c :: way
    · -- The way comes back to where it starts: what lies between is left out.
      obtain ⟨before, after, hsplit⟩ := List.append_of_mem ha
      rw [hsplit] at hnodup hchain hlast
      rw [List.getLast?_append_of_ne_nil _ (List.cons_ne_nil _ _)] at hlast
      exact ⟨after, (List.nodup_append.1 hnodup).2.1, hchain.suffix (List.suffix_append _ _), hlast⟩
    · refine ⟨c :: way, List.nodup_cons.2 ⟨ha, hnodup⟩, .cons_cons hac hchain, ?_⟩
      rwa [List.getLast?_cons_cons]

namespace Source

variable (outside : Universe) (forest : List Tree)

/-- **The base of a declaration is another of its kind**, or itself. -/
def DerivesAlike (d b : Declaration) : Prop := DerivesFrom outside forest d b ∧ b.kind = d.kind

/-- **A declaration lies on a circle of two or more**, each the base of the one before and all of one kind. -/
def OnCircle (d : Declaration) : Prop :=
  ∃ others : List Declaration, others ≠ [] ∧ (d :: others).Nodup ∧
    (d :: (others ++ [d])).IsChain (DerivesAlike outside forest)

variable {outside forest} {d b : Declaration}

/-- A circle goes over the base, which is another, and comes back. -/
theorem onCircle_iff : OnCircle outside forest d ↔
    ∃ b, DerivesAlike outside forest d b ∧ b ≠ d ∧ Relation.ReflTransGen (DerivesAlike outside forest) b d := by
  constructor
  · rintro ⟨others, hne, hnodup, hchain⟩
    obtain ⟨b, rest, rfl⟩ := List.exists_cons_of_ne_nil hne
    obtain ⟨hdb, hchain⟩ := List.isChain_cons_cons.1 hchain
    refine ⟨b, hdb, fun hb => (List.nodup_cons.1 hnodup).1 (hb ▸ List.mem_cons_self), ?_⟩
    exact List.relationReflTransGen_of_exists_isChain_cons (rest ++ [d]) hchain (by simp)
  · rintro ⟨b, hdb, hne, hback⟩
    obtain ⟨way, hnodup, hchain, hlast⟩ := exists_nodup_chain hback
    obtain ⟨others, hothers⟩ := List.getLast?_eq_some_iff.1 hlast
    have hcircle : (others ++ [d]).Nodup := hothers ▸ hnodup
    refine ⟨others, ?_, (List.perm_append_singleton d others).nodup_iff.1 hcircle, ?_⟩
    · rintro rfl
      cases hothers
      exact hne rfl
    · rw [← hothers]
      exact .cons_cons hdb hchain

/-- Bases of one kind, the kind being given or that of each declaration before. -/
theorem reflTransGen_derivesAlike_iff {kind : DeclarationKind} (hd : d.kind = kind) :
    Relation.ReflTransGen (fun d b => DerivesFrom outside forest d b ∧ b.kind = kind) d b ↔
      Relation.ReflTransGen (DerivesAlike outside forest) d b := by
  constructor
  · intro h
    suffices hkind : Relation.ReflTransGen (DerivesAlike outside forest) d b ∧ b.kind = kind from hkind.1
    induction h with
    | refl => exact ⟨.refl, hd⟩
    | tail _ hbc ih => exact ⟨ih.1.tail ⟨hbc.1, hbc.2.trans ih.2.symm⟩, hbc.2⟩
  · intro h
    suffices hkind : Relation.ReflTransGen (fun d b => DerivesFrom outside forest d b ∧ b.kind = kind) d b ∧
        b.kind = kind from hkind.1
    induction h with
    | refl => exact ⟨.refl, hd⟩
    | tail _ hbc ih => exact ⟨ih.1.tail ⟨hbc.1, hbc.2.trans ih.2⟩, hbc.2.trans ih.2⟩

end Source

namespace Violation

/-- A declaration is told of a circle that it lies on. -/
def isCircular : Violation → Bool
  | circularBases _ _ => true
  | _ => false

/-- A declaration is told that it cannot inherit from itself. -/
def isOwnBase : Violation → Bool
  | ownBase _ _ => true
  | _ => false

def isLoop (v : Violation) : Bool := v.isOwnBase || v.isCircular

end Violation

namespace Table

open Source (DerivesAlike DerivesFrom Node OnCircle declarationsOf)

variable {t : Table} {outside : Universe} {forest : List Source.Tree}

/-! ## Declaration by declaration -/

/-- A base of the kind has the name of the declaration. -/
def isOwnBase (t : Table) (d : Declaration) : Bool := (t.baseOfKind d.kind d).any fun b => b.fullName == d.fullName

/-- A base of the kind has another name, and its bases of the kind lead to the declaration. -/
def isOnCircle (t : Table) (d : Declaration) : Bool :=
  (t.baseOfKind d.kind d).any fun b => b.fullName != d.fullName && t.reaches d.fullName d.kind b

section Distinct

variable (h : Distinct (declarationsOf forest)) {d : Declaration} (hd : d ∈ declarationsOf forest)
include h hd

theorem isOwnBase_iff : (ofForest outside forest).isOwnBase d = true ↔ DerivesFrom outside forest d d := by
  unfold isOwnBase
  simp only [Option.any_eq_true, baseOfKind_eq_some_iff, derives_iff h, beq_iff_eq]
  constructor
  · rintro ⟨b, ⟨hdb, -⟩, hn⟩
    rwa [h.eq (mem_of_derivesFrom h hdb) hd hn] at hdb
  · intro hdd
    exact ⟨d, ⟨hdd, rfl⟩, rfl⟩

/-- **The search along bases finds the circles on which a declaration lies**, and no others. -/
theorem isOnCircle_iff : (ofForest outside forest).isOnCircle d = true ↔ OnCircle outside forest d := by
  unfold isOnCircle
  simp only [Source.onCircle_iff, Option.any_eq_true, baseOfKind_eq_some_iff, derives_iff h, Bool.and_eq_true,
    bne_iff_ne, reaches_iff]
  refine exists_congr fun b => and_congr_right fun hdb => ?_
  have hb := mem_of_derivesFrom h hdb.1
  have hname : b.fullName ≠ d.fullName ↔ b ≠ d := not_congr ⟨h.eq hb hd, congrArg _⟩
  refine and_congr hname ?_
  simp only [Source.reflTransGen_derivesAlike_iff hdb.2]
  constructor
  · rintro ⟨c, hbc, hn⟩
    have hc : c ∈ declarationsOf forest := by
      rcases hbc.cases_tail with rfl | ⟨e, -, hec⟩
      · exact hb
      · exact mem_of_derivesFrom h hec.1
    rwa [h.eq hc hd hn] at hbc
  · intro hbd
    exact ⟨d, hbd, rfl⟩

end Distinct

/-! ## Rule by rule -/

/-- **What a declaration is told of its bases leading back.** -/
def loopsOf (t : Table) (d : Declaration) : List Violation :=
  violationIf (t.isOwnBase d) (.ownBase d.kind d.name) ++ violationIf (t.isOnCircle d) (.circularBases d.kind d.name)

variable {s own : Scope}

theorem filter_isLoop_violationIf {condition : Bool} {v : Violation} (hv : v.isLoop = false) :
    (violationIf condition v).filter Violation.isLoop = [] := by
  cases condition with
  | false => rfl
  | true => exact List.filter_eq_nil_iff.2 fun w hw => by simp [List.mem_singleton.1 hw, hv]

theorem filter_isLoop_checkReference {r : QualifiedName} {check : Meaning → List Violation}
    (hcheck : ∀ m, (check m).filter Violation.isLoop = []) : (t.checkReference s r check).filter Violation.isLoop = [] := by
  unfold checkReference
  split
  · rfl
  · exact hcheck _

/-- **The rule on bases tells a declaration of loops what there is to tell.** -/
theorem filter_isLoop_checkBase {d : Declaration} {builtInAllowed : Bool} {name : Identifier}
    (hn : d.fullName = d.scope.qualify name) {base : Option Source.Reference} (hb : d.base = base.map (·.name)) :
    (t.checkBase true d.scope d.kind builtInAllowed name base).filter Violation.isLoop = t.loopsOf d := by
  have hname : d.name = name := by rw [Declaration.name, hn, Scope.last_qualify]
  have hbase : t.baseOf d = base.bind fun r => t.resolveIn d.scope r.name := by
    rw [baseOf, hb]
    cases base <;> rfl
  unfold loopsOf isOwnBase isOnCircle baseOfKind
  rw [hbase, hname]
  cases base with
  | none => rfl
  | some r =>
    simp only [checkBase, checkReference, Option.bind_some, ← hn]
    cases t.resolveIn d.scope r.name with
    | none => rfl
    | some m =>
      cases m with
      | builtIn => exact filter_isLoop_violationIf rfl
      | external => rfl
      | declaration b =>
        by_cases hk : b.kind = d.kind
        · by_cases hb : b.fullName = d.fullName
          · simp [hk, hb, violationIf, Violation.isLoop, Violation.isOwnBase]
          · cases hr : t.reaches d.fullName d.kind b <;>
              simp [hk, hb, hr, violationIf, Violation.isLoop, Violation.isOwnBase, Violation.isCircular]
        · simp [hk, violationIf, Violation.isLoop, Violation.isOwnBase, Violation.isCircular]

theorem filter_isLoop_checkIdentity (e : Source.Entity) : (t.checkIdentity s e).filter Violation.isLoop = [] := by
  unfold checkIdentity
  split
  · rw [List.filter_append, filter_isLoop_violationIf rfl, List.nil_append]
    exact filter_isLoop_checkReference fun _ => filter_isLoop_violationIf rfl
  · exact filter_isLoop_violationIf rfl

theorem filter_isLoop_checkArgument {kind : OperationKind} {o : Source.Operation} {a : Source.Atom} :
    (t.checkArgument own kind o a).filter Violation.isLoop = [] := by
  rw [checkArgument, List.filter_append, filter_isLoop_violationIf rfl, List.nil_append]
  exact filter_isLoop_checkReference fun _ => filter_isLoop_violationIf rfl

theorem filter_isLoop_checkOperation {kind : OperationKind} {o : Source.Operation} :
    (t.checkOperation own kind o).filter Violation.isLoop = [] := by
  rw [checkOperation, List.filter_append, filter_isLoop_checkReference fun _ => by
    rw [List.filter_append, filter_isLoop_violationIf rfl, filter_isLoop_violationIf rfl]; rfl, List.nil_append]
  split
  · rfl
  · exact filter_isLoop_checkArgument
  · rfl

theorem filter_isLoop_checkFilter {a : Source.Atom} : (t.checkFilter own a).filter Violation.isLoop = [] := by
  rw [checkFilter, List.filter_append, filter_isLoop_violationIf rfl, List.append_nil]
  exact filter_isLoop_checkReference fun _ => filter_isLoop_violationIf rfl

/-- **The rules on a node tell of loops what its declaration is told**, if it has one. -/
theorem filter_isLoop_violationsAt (s : Scope) (n : Node) :
    (t.violationsAt true s n).filter Violation.isLoop = (n.declaration? s).toList.flatMap t.loopsOf := by
  cases n with
  | entity e =>
    have hbase : (t.checkBase true s .entity false e.name e.base).filter Violation.isLoop = t.loopsOf (e.declaration s) :=
      filter_isLoop_checkBase (d := e.declaration s) rfl rfl
    rw [violationsAt, List.filter_append, filter_isLoop_checkIdentity, List.nil_append, hbase]
    exact (List.flatMap_singleton ..).symm
  | event e =>
    have hbase : (t.checkBase true s .event false e.name e.base).filter Violation.isLoop = t.loopsOf (e.declaration s) :=
      filter_isLoop_checkBase (d := e.declaration s) rfl rfl
    exact hbase.trans (List.flatMap_singleton ..).symm
  | value v =>
    have hbase : (t.checkBase true s .value true v.name v.base).filter Violation.isLoop = t.loopsOf (v.declaration s) :=
      filter_isLoop_checkBase (d := v.declaration s) rfl rfl
    exact hbase.trans (List.flatMap_singleton ..).symm
  | property p => exact filter_isLoop_checkReference fun _ => filter_isLoop_violationIf rfl
  | path | query | command => exact filter_isLoop_checkOperation
  | filter => exact filter_isLoop_checkFilter
  | webApi | externalEnum => rfl
  | tree | block => rfl

/-- **What groups are told of loops of a sort, declaration by declaration.** -/
theorem filter_check {p : Violation → Bool} (hp : ∀ v, p v = true → v.isLoop = true) (groups : List Group) :
    (t.check true groups).filter p = (declared groups).flatMap fun d => (t.loopsOf d).filter p := by
  have hloop : ∀ vs : List Violation, vs.filter p = (vs.filter Violation.isLoop).filter p := by
    intro vs
    rw [List.filter_filter]
    refine List.filter_congr fun v _ => ?_
    cases hv : p v with
    | true => rw [hp v hv, Bool.and_self]
    | false => rw [Bool.false_and]
  rw [hloop, check_eq, List.filter_flatMap, Group.declared_eq, List.filterMap_eq_flatMap_toList]
  simp only [filter_isLoop_violationsAt, List.filter_flatMap, List.flatMap_assoc]

theorem flatMap_violationIf (c : Declaration → Bool) (v : Declaration → Violation) : ∀ ds : List Declaration,
    ds.flatMap (fun d => violationIf (c d) (v d)) = (ds.filter c).map v
  | [] => rfl
  | d :: ds => by
    rw [List.flatMap_cons, flatMap_violationIf c v ds]
    cases hd : c d <;> simp [hd, violationIf]

/-- **Told of a circle are the declarations that lie on one**, in order. -/
theorem filter_isCircular_check (groups : List Group) : (t.check true groups).filter Violation.isCircular =
    ((declared groups).filter t.isOnCircle).map fun d => .circularBases d.kind d.name := by
  have hloops : ∀ d, (t.loopsOf d).filter Violation.isCircular =
      violationIf (t.isOnCircle d) (.circularBases d.kind d.name) := by
    intro d
    unfold loopsOf
    cases t.isOwnBase d <;> cases t.isOnCircle d <;> rfl
  rw [filter_check fun v hv => by rw [Violation.isLoop, hv, Bool.or_true], ← flatMap_violationIf]
  simp only [hloops]

/-- **Told that they cannot inherit from themselves are the declarations that are their own bases**, in order. -/
theorem filter_isOwnBase_check (groups : List Group) : (t.check true groups).filter Violation.isOwnBase =
    ((declared groups).filter t.isOwnBase).map fun d => .ownBase d.kind d.name := by
  have hloops : ∀ d, (t.loopsOf d).filter Violation.isOwnBase = violationIf (t.isOwnBase d) (.ownBase d.kind d.name) := by
    intro d
    unfold loopsOf
    cases t.isOwnBase d <;> cases t.isOnCircle d <;> rfl
  rw [filter_check fun v hv => by rw [Violation.isLoop, hv, Bool.true_or], ← flatMap_violationIf]
  simp only [hloops]

/-! ## The forest -/

/-- **In a forest without conflicts every search along bases ends, and told of loops are those that they pass through.** -/
theorem circles_of_forest (h : (ofGroups (Group.merge forest) outside).2 = []) :
    let t := ofForest outside forest
    let told := t.check true (Group.merge forest)
    -- A search for a declaration from its base on ends, and answers what the rule asks.
    (∀ d b, t.Derives d b →
      t.searchWithin d.fullName d.kind (t.size + 1) ⟨[], b⟩ = some (t.reaches d.fullName d.kind b)) ∧
    -- Told of a circle are those that lie on one of two or more, once each;
    (∃ circular : List Declaration, circular.Sublist (declared (Group.merge forest)) ∧ circular.Nodup ∧
      (∀ d, d ∈ circular ↔ d ∈ declarationsOf forest ∧ OnCircle outside forest d) ∧
      (told.filter Violation.isCircular).map (·.message) =
        circular.map fun d => d.kind.name ++ " '" ++ d.name.text ++ "' has a circular base chain.") ∧
    -- told that they cannot inherit from themselves are those that are their own bases, once each;
    (∃ own : List Declaration, own.Sublist (declared (Group.merge forest)) ∧ own.Nodup ∧
      (∀ d, d ∈ own ↔ d ∈ declarationsOf forest ∧ DerivesFrom outside forest d d) ∧
      (told.filter Violation.isOwnBase).map (·.message) =
        own.map fun d => d.kind.name ++ " '" ++ d.name.text ++ "' cannot inherit from itself.") ∧
    -- and one that is neither is told nothing of the kind where it is written.
    ∀ s n d, Source.At forest s n → n.declaration? s = some d → ¬ OnCircle outside forest d →
      ¬ DerivesFrom outside forest d d → (t.violationsAt true s n).filter Violation.isLoop = [] := by
  intro t told
  have hdeclared : Distinct (declared (Group.merge forest)) := conflicts_ofGroups_iff.1 h
  have hdistinct : Distinct (declarationsOf forest) := (Distinct.perm (Source.declarationsOf_perm forest)).1 hdeclared
  have hnodup : (declared (Group.merge forest)).Nodup := hdeclared.of_map _
  have hmem : ∀ d, d ∈ declared (Group.merge forest) ↔ d ∈ declarationsOf forest :=
    fun d => (Source.declarationsOf_perm forest).mem_iff
  refine ⟨fun d b hdb => ?search,
    ⟨(declared (Group.merge forest)).filter t.isOnCircle, List.filter_sublist, hnodup.filter _, fun d => ?circular,
      ?circularTold⟩,
    ⟨(declared (Group.merge forest)).filter t.isOwnBase, List.filter_sublist, hnodup.filter _, fun d => ?own, ?ownTold⟩,
    fun s n d hn hd hcircle hown => ?neither⟩
  case search =>
    have hb : t.baseOfKind b.kind d = some b := baseOfKind_eq_some_iff.2 ⟨hdb, rfl⟩
    exact searchWithin_eq (find?_of_baseOfKind hb) _ _
  case circular =>
    rw [List.mem_filter, hmem]
    exact and_congr_right fun hd => isOnCircle_iff hdistinct hd
  case circularTold =>
    rw [filter_isCircular_check, List.map_map]
    rfl
  case own =>
    rw [List.mem_filter, hmem]
    exact and_congr_right fun hd => isOwnBase_iff hdistinct hd
  case ownTold =>
    rw [filter_isOwnBase_check, List.map_map]
    rfl
  case neither =>
    have hmem : d ∈ declarationsOf forest := Source.mem_declarationsOf_iff.2 ⟨s, n, hn, hd⟩
    rw [← isOnCircle_iff hdistinct hmem, Bool.not_eq_true] at hcircle
    rw [← isOwnBase_iff hdistinct hmem, Bool.not_eq_true] at hown
    rw [filter_isLoop_violationsAt, hd, Option.toList_some, List.flatMap_singleton, loopsOf, hown, hcircle]
    rfl

/-- A value that derives from a value. -/
def derived (name base : Identifier) : Source.Value where
  name := name
  isAbstract := false
  isExternal := false
  base := some ⟨.single base, .one⟩
  properties := []
  equalBy := []
  tags := []

/-- Two values in a circle, a third that runs into it, and one that is its own base. -/
def ring : List Source.Tree :=
  [⟨none, [], [⟨Source.Small.shopName, [], [.value (derived ⟨"A", by decide⟩ ⟨"B", by decide⟩),
    .value (derived ⟨"B", by decide⟩ ⟨"A", by decide⟩), .value (derived ⟨"C", by decide⟩ ⟨"A", by decide⟩),
    .value (derived ⟨"D", by decide⟩ ⟨"D", by decide⟩)]⟩]⟩]

theorem circles_of_ring :
    (ofGroups (Group.merge ring) .empty).2 = [] ∧
      ((ofForest .empty ring).check true (Group.merge ring)).map (·.message) =
        ["Value 'A' has a circular base chain.", "Value 'B' has a circular base chain.",
          "Value 'D' cannot inherit from itself."] ∧
      ∃ circular : List Declaration, circular.length = 2 ∧
        ∀ d, d ∈ circular ↔ d ∈ declarationsOf ring ∧ OnCircle .empty ring d := by
  have h : (ofGroups (Group.merge ring) .empty).2 = [] := by decide
  have htold : (((ofForest .empty ring).check true (Group.merge ring)).filter Violation.isCircular).map (·.message) =
      ["Value 'A' has a circular base chain.", "Value 'B' has a circular base chain."] := by decide
  obtain ⟨-, ⟨circular, -, -, hmem, hmessages⟩, -⟩ := circles_of_forest h
  refine ⟨h, by decide, circular, ?_, hmem⟩
  have hlength := congrArg List.length (hmessages.symm.trans htold)
  rwa [List.length_map] at hlength

end Table
end DomainModel
