import DomainModel.Proofs.Rules.Accepted
import DomainModel.Symbol.Tree
/-!
# Extended — a forest among the nodes of another

Where another forest has the nodes of a forest and the references written there mean the same in both (`Extends`),
bases, single values and circles of bases are the same for what the smaller forest declares.  So a node that breaks no
rule in the smaller forest breaks none in the other (`Table.violationsAt_eq_nil_of_extends`).
-/
namespace DomainModel
namespace Source

/-! ## What is written -/

/-- The references of an operation; its filters are nodes of their own. -/
def Operation.references (own : Scope) (o : Operation) : List Written :=
  ⟨o.result.name, own⟩ :: o.arguments.map fun a => ⟨a.type.name, own⟩

/-- **The references of a node**, each in the scope in which it is looked up: a base where the node is written, an
identity, a result and arguments inside the node. -/
def Node.references (s : Scope) : Node → List Written
  | .entity e =>
    (e.base.map fun r => (⟨r.name, s⟩ : Written)).toList ++
      (e.identity.map fun r => (⟨r.name, .declaration s e.name⟩ : Written)).toList
  | .event e => (e.base.map fun r => (⟨r.name, s⟩ : Written)).toList
  | .value v => (v.base.map fun r => (⟨r.name, s⟩ : Written)).toList
  | .property p => [⟨p.atom.type.name, s⟩]
  | .filter a => [⟨a.type.name, s⟩]
  | .path p => p.operation.references (.declaration s p.operation.name)
  | .query q => q.operation.references (.declaration s q.operation.name)
  | .command o => o.references (.declaration s o.name)
  | .tree _ | .block _ | .webApi _ | .externalEnum _ => []

/-- **A reference is written somewhere in a forest.** -/
def IsReference (forest : List Tree) (w : Written) : Prop := ∃ s n, At forest s n ∧ w ∈ n.references s

variable {outside : Universe} {forest others : List Tree}

/-- The references of the listed nodes are all there are. -/
theorem isReference_iff {w : Written} :
    IsReference forest w ↔ w ∈ (places forest).flatMap fun x => x.2.references x.1 := by
  have h : (∀ s n, At forest s n → w ∉ n.references s) ↔ ∀ x ∈ places forest, w ∉ x.2.references x.1 :=
    forall_at_iff (P := fun s n => w ∉ n.references s) fun _ _ => List.not_mem_nil
  rw [← not_iff_not, List.mem_flatMap]
  simpa [IsReference] using h

/-- The base of a declaration is written where the declaration is. -/
theorem isReference_base {d : Declaration} (hd : d ∈ declarationsOf forest) {base : QualifiedName}
    (hbase : d.base = some base) : IsReference forest ⟨base, d.scope⟩ := by
  obtain ⟨s, n, hn, hdecl⟩ := mem_declarationsOf_iff.1 hd
  have hwritten : ∀ {r : Option Reference}, r.map (·.name) = some base →
      (⟨base, s⟩ : Written) ∈ (r.map fun r => (⟨r.name, s⟩ : Written)).toList := by
    intro r hr
    obtain ⟨reference, rfl, rfl⟩ := Option.map_eq_some_iff.1 hr
    simp
  cases n with
  | entity e => cases hdecl; exact ⟨s, _, hn, List.mem_append_left _ (hwritten hbase)⟩
  | event e => cases hdecl; exact ⟨s, _, hn, hwritten hbase⟩
  | value v => cases hdecl; exact ⟨s, _, hn, hwritten hbase⟩
  | webApi | externalEnum => cases hdecl; cases hbase
  | tree | block | property | path | query | command | filter => cases hdecl

/-- **In a forest whose nodes are as they must be, every reference means something.** -/
theorem exists_means (hobeys : ∀ s n, At forest s n → Obeys outside forest s n) {w : Written}
    (hw : IsReference forest w) : ∃ m, Means outside forest w.scope w.reference m := by
  obtain ⟨s, n, hn, hw⟩ := hw
  have hobey := hobeys s n hn
  have hbase : ∀ {kind : DeclarationKind} {base : Option Reference}, BaseObeys outside forest s kind base →
      w ∈ (base.map fun r => (⟨r.name, s⟩ : Written)).toList → ∃ m, Means outside forest w.scope w.reference m := by
    intro kind base hbase hw
    obtain ⟨r, hr, rfl⟩ := Option.map_eq_some_iff.1 (Option.mem_toList.1 hw)
    obtain ⟨m, hm, -⟩ := hbase r hr
    exact ⟨m, hm⟩
  have hoperation : ∀ {kind : OperationKind} {o : Operation}, OperationObeys outside forest s kind o →
      w ∈ o.references (.declaration s o.name) → ∃ m, Means outside forest w.scope w.reference m := by
    rintro kind o ⟨⟨m, hm, -⟩, -, harguments⟩ hw
    rcases List.mem_cons.1 hw with rfl | hw
    · exact ⟨m, hm⟩
    · obtain ⟨a, ha, rfl⟩ := List.mem_map.1 hw
      obtain ⟨-, m, hm, -⟩ := harguments a ha
      exact ⟨m, hm⟩
  cases n with
  | entity e =>
    rcases List.mem_append.1 hw with hw | hw
    · exact hbase hobey.2.2 hw
    · obtain ⟨r, hr, rfl⟩ := Option.map_eq_some_iff.1 (Option.mem_toList.1 hw)
      obtain ⟨m, hm, -⟩ := hobey.2.1 r hr
      exact ⟨m, hm⟩
  | event e => exact hbase hobey hw
  | value v => exact hbase hobey hw
  | property p =>
    obtain rfl := List.mem_singleton.1 hw
    obtain ⟨m, hm, -⟩ := hobey
    exact ⟨m, hm⟩
  | filter a =>
    obtain rfl := List.mem_singleton.1 hw
    obtain ⟨-, m, hm, -⟩ := hobey
    exact ⟨m, hm⟩
  | path p => exact hoperation hobey hw
  | query q => exact hoperation hobey hw
  | command o => exact hoperation hobey hw
  | tree | block | webApi | externalEnum => cases hw

/-! ## A forest among others -/

/-- **Another forest has the nodes of a forest, and the references written there mean the same.** -/
structure Extends (outside : Universe) (forest others : List Tree) : Prop where
  nodes : ∀ s n, At forest s n → At others s n
  means : ∀ w, IsReference forest w →
    ∀ m, Means outside others w.scope w.reference m ↔ Means outside forest w.scope w.reference m

namespace Extends

variable (h : Extends outside forest others)
include h

theorem mem_declarationsOf {d : Declaration} (hd : d ∈ declarationsOf forest) : d ∈ declarationsOf others := by
  obtain ⟨s, n, hn, hdecl⟩ := mem_declarationsOf_iff.1 hd
  exact mem_declarationsOf_iff.2 ⟨s, n, h.nodes s n hn, hdecl⟩

/-- **What a declaration derives from is the same.** -/
theorem derivesFrom_iff {d b : Declaration} (hd : d ∈ declarationsOf forest) :
    DerivesFrom outside others d b ↔ DerivesFrom outside forest d b := by
  unfold DerivesFrom
  exact exists_congr fun base => and_congr_right fun hbase => h.means ⟨base, d.scope⟩ (isReference_base hd hbase) _

/-- A single value of the forest is one of the others. -/
theorem isScalar {m : Meaning} (hm : IsScalar outside forest m) :
    (∀ d, m = .declaration d → d ∈ declarationsOf forest) → IsScalar outside others m := by
  induction hm with
  | builtIn b => exact fun _ => .builtIn b
  | externalEnum hk => exact fun _ => .externalEnum hk
  | @value d base m hk hp hbase hmeans _ ih =>
    intro hmem
    have hreference := isReference_base (hmem d rfl) hbase
    refine .value hk hp hbase ((h.means ⟨base, d.scope⟩ hreference m).2 hmeans) (ih ?_)
    rintro b rfl
    exact mem_of_means hmeans

/-- **A node that is as it must be is so in the other forest.** -/
theorem obeys {s : Scope} {n : Node} (hn : At forest s n) (hobeys : Obeys outside forest s n) :
    Obeys outside others s n := by
  have hmeans : ∀ w ∈ n.references s, ∀ m, Means outside forest w.scope w.reference m →
      Means outside others w.scope w.reference m := fun w hw m => (h.means w ⟨s, n, hn, hw⟩ m).2
  have hbase : ∀ {kind : DeclarationKind} {base : Option Reference},
      (∀ w ∈ (base.map fun r => (⟨r.name, s⟩ : Written)).toList, w ∈ n.references s) →
      BaseObeys outside forest s kind base → BaseObeys outside others s kind base := by
    intro kind base hw hob r hr
    obtain ⟨m, hm, hmay⟩ := hob r hr
    exact ⟨m, hmeans ⟨r.name, s⟩ (hw _ (by simp [hr])) m hm, hmay⟩
  -- Single values are told by their bases, so what is meant must be declared in the forest itself.
  have hscalar : ∀ {own : Scope} {r : QualifiedName} {m : Meaning}, Means outside forest own r m →
      IsScalar outside forest m → IsScalar outside others m := by
    intro own r m hm hscalar
    refine h.isScalar hscalar ?_
    rintro d rfl
    exact mem_of_means hm
  have hoperation : ∀ {kind : OperationKind} {o : Operation},
      (∀ w ∈ o.references (.declaration s o.name), w ∈ n.references s) →
      OperationObeys outside forest s kind o → OperationObeys outside others s kind o := by
    rintro kind o hw ⟨⟨m, hm, hvalue⟩, hlength, harguments⟩
    refine ⟨⟨m, hmeans ⟨o.result.name, _⟩ (hw _ List.mem_cons_self) m hm, hvalue⟩, hlength, fun a ha => ?_⟩
    obtain ⟨hone, m, hm, hsingle⟩ := harguments a ha
    have hin : (⟨a.type.name, .declaration s o.name⟩ : Written) ∈ n.references s :=
      hw _ (List.mem_cons_of_mem _ (List.mem_map.2 ⟨a, ha, rfl⟩))
    exact ⟨hone, m, hmeans _ hin m hm, fun hk => hscalar hm (hsingle hk)⟩
  cases n with
  | entity e =>
    obtain ⟨hone, hidentity, hob⟩ := hobeys
    refine ⟨hone, fun r hr => ?_, hbase (fun w hw => List.mem_append_left _ hw) hob⟩
    obtain ⟨m, hm, hvalue⟩ := hidentity r hr
    exact ⟨m, hmeans ⟨r.name, _⟩ (List.mem_append_right _ (by simp [hr])) m hm, hvalue⟩
  | event e => exact hbase (fun _ hw => hw) hobeys
  | value v => exact hbase (fun _ hw => hw) hobeys
  | property p =>
    obtain ⟨m, hm, hvalue⟩ := hobeys
    exact ⟨m, hmeans _ (List.mem_singleton_self _) m hm, hvalue⟩
  | filter a =>
    obtain ⟨hone, m, hm, hsingle⟩ := hobeys
    exact ⟨hone, m, hmeans _ (List.mem_singleton_self _) m hm, hscalar hm hsingle⟩
  | path p => exact hoperation (fun _ hw => hw) hobeys
  | query q => exact hoperation (fun _ hw => hw) hobeys
  | command o => exact hoperation (fun _ hw => hw) hobeys
  | tree | block | webApi | externalEnum => trivial

end Extends
end Source

namespace Table

open Source (At Extends Node declarationsOf)

variable {outside : Universe} {forest others : List Source.Tree} {circles : Bool}

section

variable (h : Extends outside forest others) (hd : Distinct (declarationsOf forest))
  (hd' : Distinct (declarationsOf others))
include h hd hd'

/-- **The references of the forest are looked up to the same in both tables.** -/
theorem resolveIn_of_extends {w : Written} (hw : Source.IsReference forest w) :
    (ofForest outside others).resolveIn w.scope w.reference =
      (ofForest outside forest).resolveIn w.scope w.reference := by
  refine Option.ext fun m => ?_
  rw [resolveIn_eq_some_iff hd', resolveIn_eq_some_iff hd, h.means w hw]

/-- **The search for circles from a declaration of the forest stays in the forest.** -/
theorem derives_of_extends {kind : DeclarationKind} {b c : Declaration} (hb : b ∈ declarationsOf forest)
    (hc : Relation.ReflTransGen (fun d b => (ofForest outside others).Derives d b ∧ b.kind = kind) b c) :
    c ∈ declarationsOf forest ∧
      Relation.ReflTransGen (fun d b => (ofForest outside forest).Derives d b ∧ b.kind = kind) b c := by
  induction hc with
  | refl => exact ⟨hb, .refl⟩
  | @tail x y _ hstep ih =>
    obtain ⟨hx, hchain⟩ := ih
    have hderives := (h.derivesFrom_iff hx).1 ((derives_iff hd').1 hstep.1)
    exact ⟨mem_of_derivesFrom hd hderives, hchain.tail ⟨(derives_iff hd).2 hderives, hstep.2⟩⟩

theorem leadsAway_of_extends {d : Declaration} (hmem : d ∈ declarationsOf forest)
    (hlead : (ofForest outside forest).LeadsAway circles d) : (ofForest outside others).LeadsAway circles d := by
  intro b hb
  have hderives := (h.derivesFrom_iff hmem).1 ((derives_iff hd').1 hb)
  obtain ⟨hne, hback⟩ := hlead b ((derives_iff hd).2 hderives)
  refine ⟨hne, fun hcircles => Bool.eq_false_iff.2 fun hreaches => ?_⟩
  obtain ⟨c, hchain, hname⟩ := reaches_iff.1 hreaches
  have hchain' := (derives_of_extends h hd hd' (mem_of_derivesFrom hd hderives) hchain).2
  have hno := hback hcircles
  rw [reaches_iff.2 ⟨c, hchain', hname⟩] at hno
  cases hno

/-- **A node that breaks no rule breaks none in the other forest.** -/
theorem violationsAt_eq_nil_of_extends {s : Scope} {n : Node} (hn : At forest s n)
    (hnil : (ofForest outside forest).violationsAt circles s n = []) :
    (ofForest outside others).violationsAt circles s n = [] := by
  obtain ⟨hobeys, hlead⟩ := (violationsAt_eq_nil_iff hd).1 hnil
  refine (violationsAt_eq_nil_iff hd').2 ⟨h.obeys hn hobeys, fun d hdecl => ?_⟩
  exact leadsAway_of_extends h hd hd' (Source.mem_declarationsOf_iff.2 ⟨s, n, hn, hdecl⟩) (hlead d hdecl)

end

end Table
end DomainModel
