import DomainModel.Compile
import DomainModel.Proofs.Rules.Node
import DomainModel.Proofs.Table.Meaning
/-!
# Accepted — the models that compile

What a model must be, said of its nodes and its declarations, without a table, a traversal or a search: names are
declared once, every node obeys the rules of its kind, and no declaration derives from itself.  A forest compiles
exactly when it is so.
-/
namespace DomainModel
namespace Source

variable (outside : Universe) (forest : List Tree)

/-- A base, if there is one, means what a declaration of the kind may derive from. -/
def BaseObeys (s : Scope) (kind : DeclarationKind) (base : Option Reference) : Prop :=
  ∀ r, base = some r → ∃ m, Means outside forest s r.name m ∧ kind.MayDeriveFrom m

/-- **The result of an operation is a value**, that of a query not void; there is at most one argument, it occurs exactly
once and means something, and but for a command that is a single value. -/
def OperationObeys (s : Scope) (kind : OperationKind) (o : Operation) : Prop :=
  (∃ m, Means outside forest (.declaration s o.name) o.result.name m ∧ IsValue outside m ∧
      (kind = .query → m ≠ .builtIn .void)) ∧
    o.arguments.length ≤ 1 ∧
      ∀ a ∈ o.arguments, a.type.cardinality = .one ∧
        ∃ m, Means outside forest (.declaration s o.name) a.type.name m ∧
          (kind ≠ .command → IsScalar outside forest m)

/-- **What a node must be** where it is written, circles of bases aside. -/
def Obeys (s : Scope) : Node → Prop
  | .entity e =>
    (e.identity.isSome ↔ ¬ e.base.isSome) ∧
      (∀ r, e.identity = some r →
        ∃ m, Means outside forest (.declaration s e.name) r.name m ∧ IsValue outside m) ∧
      BaseObeys outside forest s .entity e.base
  | .event e => BaseObeys outside forest s .event e.base
  | .value v => BaseObeys outside forest s .value v.base
  | .property p => ∃ m, Means outside forest s p.atom.type.name m ∧ IsValue outside m
  | .path p => OperationObeys outside forest s .path p.operation
  | .query q => OperationObeys outside forest s .query q.operation
  | .command o => OperationObeys outside forest s .command o
  | .filter a =>
    a.type.cardinality = .zeroOrOne ∧ ∃ m, Means outside forest s a.type.name m ∧ IsScalar outside forest m
  | .tree _ | .block _ | .webApi _ | .externalEnum _ => True

/-- **What a model must be.** -/
structure Accepted : Prop where
  /-- No two declarations have the same full name. -/
  distinct : (declarationsOf forest).Pairwise fun d e => d.fullName ≠ e.fullName
  /-- Every node is as it must be where it is written. -/
  obeys : ∀ s n, At forest s n → Obeys outside forest s n
  /-- No declaration comes back to itself along one or more bases. -/
  acyclic : ∀ d ∈ declarationsOf forest, ¬ Relation.TransGen (DerivesFrom outside forest) d d

end Source

namespace Table

open Source (Accepted At BaseObeys DerivesFrom IsValue IsScalar Means Node Obeys OperationObeys Operation Reference
  declarationsOf)

variable {outside : Universe} {forest : List Source.Tree}

/-- **The base of a declaration does not lead back to it**, as far as that is looked for. -/
def LeadsAway (t : Table) (circles : Bool) (d : Declaration) : Prop :=
  ∀ b, t.Derives d b → b.fullName ≠ d.fullName ∧ (circles = true → t.reaches d.fullName d.kind b = false)

/-! ## Node by node -/

section Obeys

variable {circles : Bool} (h : Distinct (declarationsOf forest))
include h

/-- The rule on bases, of a declaration that has the base. -/
theorem checkBase_eq_nil_iff_obeys {d : Declaration} {builtInAllowed : Bool}
    (ha : builtInAllowed = true ↔ d.kind = .value) {name : Identifier} (hn : d.fullName = d.scope.qualify name)
    {base : Option Reference} (hb : d.base = base.map (·.name)) :
    (ofForest outside forest).checkBase circles d.scope d.kind builtInAllowed name base = [] ↔
      BaseObeys outside forest d.scope d.kind base ∧ (ofForest outside forest).LeadsAway circles d := by
  rw [checkBase_eq_nil_iff ha, ← hn]
  unfold BaseObeys LeadsAway
  simp only [derives_iff h, DerivesFrom, hb, ← resolveIn_eq_some_iff h]
  cases base with
  | none => simp
  | some r =>
    simp only [Option.map_some, Option.some.injEq, forall_eq', exists_eq_left']
    constructor
    · rintro ⟨m, hm, hk, hlead⟩
      refine ⟨⟨m, hm, hk⟩, fun b hb => hlead b ?_⟩
      exact Option.some_inj.1 (hm.symm.trans hb)
    · rintro ⟨⟨m, hm, hk⟩, hlead⟩
      exact ⟨m, hm, hk, fun b hb => hlead b (hb ▸ hm)⟩

theorem checkOperation_eq_nil_iff_obeys {s : Scope} {kind : OperationKind} {o : Operation} :
    (ofForest outside forest).checkOperation (.declaration s o.name) kind o = [] ↔
      OperationObeys outside forest s kind o := by
  have hvoid : ∀ m : Meaning, m.isVoid = false ↔ m ≠ .builtIn .void := by
    intro m
    cases m with
    | builtIn b => cases b <;> simp [Meaning.isVoid]
    | declaration | external => simp [Meaning.isVoid]
  simp only [checkOperation_eq_nil_iff, OperationObeys, resolveIn_eq_some_iff h, isValue_ofForest_iff h,
    isScalar_ofForest_iff h, hvoid]

/-- **A node breaks no rule exactly when it is as it must be** and its base does not lead back. -/
theorem violationsAt_eq_nil_iff {s : Scope} {n : Node} :
    (ofForest outside forest).violationsAt circles s n = [] ↔
      Obeys outside forest s n ∧ ∀ d, n.declaration? s = some d → (ofForest outside forest).LeadsAway circles d := by
  cases n with
  | entity e =>
    have hbase : (ofForest outside forest).checkBase circles s .entity false e.name e.base = [] ↔
        BaseObeys outside forest s .entity e.base ∧ (ofForest outside forest).LeadsAway circles (e.declaration s) :=
      checkBase_eq_nil_iff_obeys h (d := e.declaration s) (by simp [Source.Entity.declaration]) rfl rfl
    simp only [violationsAt, List.append_eq_nil_iff, checkIdentity_eq_nil_iff, resolveIn_eq_some_iff h,
      isValue_ofForest_iff h, Obeys, Node.declaration?, Option.some.injEq, forall_eq', and_assoc]
    exact and_congr_right' (and_congr_right' hbase)
  | event e =>
    have hbase : (ofForest outside forest).checkBase circles s .event false e.name e.base = [] ↔
        BaseObeys outside forest s .event e.base ∧ (ofForest outside forest).LeadsAway circles (e.declaration s) :=
      checkBase_eq_nil_iff_obeys h (d := e.declaration s) (by simp [Source.Event.declaration]) rfl rfl
    simp only [Node.declaration?, Option.some.injEq, forall_eq']
    exact hbase
  | value v =>
    have hbase : (ofForest outside forest).checkBase circles s .value true v.name v.base = [] ↔
        BaseObeys outside forest s .value v.base ∧ (ofForest outside forest).LeadsAway circles (v.declaration s) :=
      checkBase_eq_nil_iff_obeys h (d := v.declaration s) (by simp [Source.Value.declaration]) rfl rfl
    simp only [Node.declaration?, Option.some.injEq, forall_eq']
    exact hbase
  | property p =>
    simp [violationsAt, checkProperty_eq_nil_iff, resolveIn_eq_some_iff h, isValue_ofForest_iff h, Obeys,
      Node.declaration?]
  | filter a =>
    simp [violationsAt, checkFilter_eq_nil_iff, resolveIn_eq_some_iff h, isScalar_ofForest_iff h, Obeys,
      Node.declaration?]
  | path | query | command => simp [violationsAt, checkOperation_eq_nil_iff_obeys h, Obeys, Node.declaration?]
  | tree | block => simp [violationsAt, Obeys, Node.declaration?]
  | webApi | externalEnum =>
    simp only [violationsAt, Obeys, Node.declaration?, Option.some.injEq, forall_eq', true_and, true_iff]
    intro b hb
    cases hb

/-! ## Circles -/

theorem mem_of_derivesFrom {d b : Declaration} (hb : DerivesFrom outside forest d b) : b ∈ declarationsOf forest :=
  (mem_declarations_ofForest h).1 (mem_of_baseOf ((derives_iff h).2 hb))

/-- **Where bases keep the kind, the search for circles finds every one of them.** -/
theorem forall_leadsAway_iff
    (hk : ∀ d ∈ declarationsOf forest, ∀ b, DerivesFrom outside forest d b → b.kind = d.kind) :
    (∀ d ∈ declarationsOf forest, (ofForest outside forest).LeadsAway true d) ↔
      ∀ d ∈ declarationsOf forest, ¬ Relation.TransGen (DerivesFrom outside forest) d d := by
  let t := ofForest outside forest
  -- A chain of bases stays among the declarations of one kind.
  have hchain : ∀ {kind d b}, d ∈ declarationsOf forest → d.kind = kind →
      Relation.ReflTransGen (DerivesFrom outside forest) d b →
      Relation.ReflTransGen (fun d b => t.Derives d b ∧ b.kind = kind) d b ∧ b ∈ declarationsOf forest ∧ b.kind = kind := by
    intro kind d b hd hdk hdb
    induction hdb with
    | refl => exact ⟨.refl, hd, hdk⟩
    | tail _ hbc ih =>
      have hck := (hk _ ih.2.1 _ hbc).trans ih.2.2
      exact ⟨ih.1.tail ⟨(derives_iff h).2 hbc, hck⟩, mem_of_derivesFrom h hbc, hck⟩
  constructor
  · intro hlead d hd hcircle
    obtain ⟨b, hdb, hbd⟩ := Relation.TransGen.head'_iff.1 hcircle
    -- The first step of a circle leads to a base whose own bases come back, which the search would have seen.
    have hback := (hchain (mem_of_derivesFrom h hdb) (hk d hd b hdb) hbd).1
    have hno := (hlead d hd b ((derives_iff h).2 hdb)).2 rfl
    rw [reaches_iff.2 ⟨d, hback, rfl⟩] at hno
    cases hno
  · intro hacyclic d hd b hdb
    have hb : DerivesFrom outside forest d b := (derives_iff h).1 hdb
    refine ⟨fun hn => hacyclic d hd (.single ?_), fun _ => Bool.eq_false_iff.2 fun hr => ?_⟩
    · rwa [h.eq (mem_of_derivesFrom h hb) hd hn] at hb
    · obtain ⟨c, hbc, hc⟩ := reaches_iff.1 hr
      have hbc' : Relation.ReflTransGen (DerivesFrom outside forest) b c :=
        hbc.lift id fun _ _ hxy => (derives_iff h).1 hxy.1
      have hmem : c ∈ declarationsOf forest := (hchain (mem_of_derivesFrom h hb) rfl hbc').2.1
      rw [h.eq hmem hd hc] at hbc'
      exact hacyclic d hd (.head' hb hbc')

/-- In a forest whose nodes are as they must be, **bases keep the kind**. -/
theorem kind_of_derivesFrom (hobeys : ∀ s n, At forest s n → Obeys outside forest s n) {d b : Declaration}
    (hd : d ∈ declarationsOf forest) (hb : DerivesFrom outside forest d b) : b.kind = d.kind := by
  obtain ⟨r, hr, hmeans⟩ := hb
  have hkind : ∀ {base : Option Reference}, d.base = base.map (·.name) →
      BaseObeys outside forest d.scope d.kind base → b.kind = d.kind := by
    intro base hbase hob
    obtain ⟨reference, rfl, rfl⟩ := Option.map_eq_some_iff.1 (hbase.symm.trans hr)
    obtain ⟨m, hm, hmay⟩ := hob _ rfl
    obtain rfl := means_unique h hm hmeans
    exact hmay
  obtain ⟨s, n, hn, hdecl⟩ := Source.mem_declarationsOf_iff.1 hd
  have hob := hobeys s n hn
  cases n with
  | entity e => cases hdecl; exact hkind rfl hob.2.2
  | event e => cases hdecl; exact hkind rfl hob
  | value v => cases hdecl; exact hkind rfl hob
  | webApi | externalEnum => cases hdecl; cases hr
  | tree | block | property | path | query | command | filter => cases hdecl

end Obeys

/-! ## The whole forest -/

/-- **A forest is told nothing exactly when** its names are distinct, its nodes are as they must be and no base leads
back. -/
theorem observe_eq_nil_iff {options : CompileOptions} :
    observe options forest = [] ↔ Distinct (declarationsOf forest) ∧
      (∀ s n, At forest s n → Obeys options.outside forest s n) ∧
        ∀ d ∈ declarationsOf forest, (ofForest options.outside forest).LeadsAway options.circles d := by
  have hobserve : observe options forest = [] ↔ (ofGroups (Group.merge forest) options.outside).2 = [] ∧
      (ofForest options.outside forest).check options.circles (Group.merge forest) = [] := by
    rw [observe, List.append_eq_nil_iff, List.map_eq_nil_iff, List.map_eq_nil_iff]
    exact Iff.rfl
  rw [hobserve, conflicts_ofGroups_iff, Distinct.perm (Source.declarationsOf_perm forest)]
  refine and_congr_right fun h => ?_
  simp only [check_merge_eq_nil_iff, violationsAt_eq_nil_iff h, Source.mem_declarationsOf_iff]
  constructor
  · intro hall
    refine ⟨fun s n hn => (hall s n hn).1, ?_⟩
    rintro d ⟨s, n, hn, hd⟩
    exact (hall s n hn).2 d hd
  · rintro ⟨hobeys, hlead⟩ s n hn
    exact ⟨hobeys s n hn, fun d hd => hlead d ⟨s, n, hn, hd⟩⟩

theorem compileForest_eq_ok_iff {options : CompileOptions} {g : Graph} :
    compileForest options forest = .ok g ↔ observe options forest = [] ∧ graphOf options.outside forest = g := by
  unfold compileForest
  cases observe options forest <;> simp

end Table

/-- **A forest compiles exactly when it is a model as it must be**, circles of bases being looked for; how many
observations a failure would tell does not matter. -/
theorem compileForest_isOk_iff_accepted (limit : Nat) (outside : Universe) (forest : List Source.Tree) :
    (∃ g, compileForest { limit, circles := true, outside } forest = .ok g) ↔ Source.Accepted outside forest := by
  simp only [Table.compileForest_eq_ok_iff, exists_and_left, exists_eq', and_true, Table.observe_eq_nil_iff]
  constructor
  · rintro ⟨h, hobeys, hlead⟩
    refine ⟨List.pairwise_map.1 h, hobeys, ?_⟩
    exact (Table.forall_leadsAway_iff h fun _ hd _ => Table.kind_of_derivesFrom h hobeys hd).1 hlead
  · rintro ⟨hdistinct, hobeys, hacyclic⟩
    have h : Table.Distinct (Source.declarationsOf forest) := List.pairwise_map.2 hdistinct
    refine ⟨h, hobeys, ?_⟩
    exact (Table.forall_leadsAway_iff h fun _ hd _ => Table.kind_of_derivesFrom h hobeys hd).2 hacyclic

end DomainModel
