import DomainModel.Proofs.Table.Collected
import DomainModel.Compile
import DomainModel.Rules.Inspector
/-!
# Inspected — what a walk reports on a node

Every walk of an inspector only tells: it adds to the report what the rules say where it starts, and leaves the table,
the switch and the scope as they were (`Tells`).  Walks that tell, one after the other or in another scope, tell again.
So what is reported on a node depends on the table, the switch and the scope alone (`told`), and what is reported on a
forest is what is told of its members, one after the other.
-/
namespace DomainModel

open Source (ApiMember Atom Block Entity Event Member Node Operation Path Property Query Reference Value)

namespace Inspector

/-- The inspector after violations were reported. -/
def tell (i : Inspector) (vs : List Violation) : Inspector :=
  { i with report := i.report.extend (vs.map (·.observation)) }

@[simp] theorem table_tell (i : Inspector) (vs : List Violation) : (i.tell vs).table = i.table := rfl
@[simp] theorem circles_tell (i : Inspector) (vs : List Violation) : (i.tell vs).circles = i.circles := rfl
@[simp] theorem scope_tell (i : Inspector) (vs : List Violation) : (i.tell vs).scope = i.scope := rfl

@[simp] theorem tell_nil (i : Inspector) : i.tell [] = i := by simp [tell, Report.extend]

@[simp] theorem tell_tell (i : Inspector) (vs ws : List Violation) : (i.tell vs).tell ws = i.tell (vs ++ ws) := by
  simp [tell, Report.extend]

theorem fail_eq (i : Inspector) (v : Violation) : i.fail v = i.tell [v] := rfl

theorem failIf_eq (i : Inspector) (condition : Bool) (v : Violation) :
    i.failIf condition v = i.tell (violationIf condition v) := by
  cases condition
  · exact (tell_nil i).symm
  · rfl

/-! ## Walks that only tell -/

/-- **A walk that only tells**: it reports what `said` gives where it starts, and changes nothing but the report. -/
def Tells (walk : Inspector → Inspector) (said : Table → Bool → Scope → List Violation) : Prop :=
  ∀ i, walk i = i.tell (said i.table i.circles i.scope)

variable {walk next : Inspector → Inspector} {said heard : Table → Bool → Scope → List Violation}

theorem tells_id : Tells id fun _ _ _ => [] := fun i => (tell_nil i).symm

/-- One walk after another tells one list after the other. -/
theorem Tells.comp (h : Tells walk said) (hn : Tells next heard) :
    Tells (fun i => next (walk i)) fun t circles s => said t circles s ++ heard t circles s := by
  intro i
  show next (walk i) = _
  rw [hn, h, tell_tell]
  rfl

/-- **A walk in an inner scope tells from outside what it tells inside**: the scope is back afterwards. -/
theorem Tells.within (h : Tells walk said) (i : Inspector) (s : Scope) :
    i.within s walk = i.tell (said i.table i.circles s) := by
  rw [Inspector.within, h]
  rfl

/-- **A walk along a list tells what it tells of each entry**, whatever was told of the entries before. -/
theorem Tells.foldl {α : Type} {visit : Inspector → α → Inspector} {said : α → Table → Bool → Scope → List Violation}
    (h : ∀ a, Tells (visit · a) (said a)) : ∀ as : List α,
    Tells (fun i => as.foldl visit i) fun t circles s => as.flatMap fun a => said a t circles s
  | [] => tells_id
  | a :: as => (h a).comp (Tells.foldl h as)

/-! ## One rule after the other -/

theorem inspectBase_eq (i : Inspector) (kind : DeclarationKind) (builtInAllowed : Bool) (name : Identifier)
    (base : Option Reference) : i.inspectBase kind builtInAllowed name base =
      i.tell (i.table.checkBase i.circles i.scope kind builtInAllowed name base) := by
  cases base with
  | none => exact (tell_nil i).symm
  | some base =>
    simp only [inspectBase, Table.checkBase, Table.checkReference, resolve]
    cases i.table.resolveIn i.scope base.name with
    | none => exact fail_eq i _
    | some m =>
      cases m with
      | builtIn b => exact failIf_eq i _ _
      | external e => exact fail_eq i _
      | declaration d =>
        by_cases hkind : d.kind = kind
        · by_cases hown : d.fullName = i.scope.qualify name
          · simp [hkind, hown, fail_eq]
          · simp [hkind, hown, failIf_eq]
        · simp [hkind, fail_eq]

theorem inspectIdentity_eq (i : Inspector) (e : Entity) :
    i.inspectIdentity e = i.tell (i.table.checkIdentity i.scope e) := by
  unfold inspectIdentity Table.checkIdentity
  cases e.identity with
  | none => exact failIf_eq i _ _
  | some identity =>
    simp only [Table.checkReference, resolve, failIf_eq, table_tell]
    cases i.table.resolveIn (.declaration i.scope e.name) identity.name <;> simp [fail_eq]

theorem inspectArgument_eq (i : Inspector) (own : Scope) (kind : OperationKind) (o : Operation) (a : Atom) :
    i.inspectArgument own kind o a = i.tell (i.table.checkArgument own kind o a) := by
  simp only [inspectArgument, Table.checkArgument, Table.checkReference, resolve, failIf_eq, table_tell]
  cases i.table.resolveIn own a.type.name <;> simp [fail_eq]

theorem inspectOperation_eq (i : Inspector) (own : Scope) (kind : OperationKind) (o : Operation) :
    i.inspectOperation own kind o = i.tell (i.table.checkOperation own kind o) := by
  have hresult : i.inspectResult own kind o = i.tell (i.table.checkReference own o.result.name fun m =>
      violationIf (!i.table.isValue m) (.resultNoValue kind o.name) ++
        violationIf (kind == .query && m.isVoid) (.resultVoid kind o.name)) := by
    simp only [inspectResult, Table.checkReference, resolve]
    cases i.table.resolveIn own o.result.name <;> simp [fail_eq, failIf_eq]
  unfold inspectOperation Table.checkOperation
  rw [hresult]
  cases o.arguments with
  | nil => simp
  | cons a as =>
    cases as with
    | nil => simp [inspectArgument_eq]
    | cons b bs => simp [fail_eq]

/-! ## One node after the other -/

theorem tells_visitProperty (p : Property) : Tells (·.visitProperty p) fun t _ s => t.checkProperty s p := by
  intro i
  simp only [visitProperty, Table.checkProperty, Table.checkReference, resolve]
  cases i.table.resolveIn i.scope p.atom.type.name <;> simp [fail_eq, failIf_eq]

theorem tells_visitFilter (a : Atom) : Tells (·.visitFilter a) fun t _ s => t.checkFilter s a := by
  intro i
  simp only [visitFilter, Table.checkFilter, Table.checkReference, resolve]
  cases i.table.resolveIn i.scope a.type.name <;> simp [fail_eq, failIf_eq]

theorem tells_visitEvent (e : Event) : Tells (·.visitEvent e) fun t circles s => t.checkEvent circles s e := by
  intro i
  show i.visitEvent e = _
  rw [visitEvent, (Tells.foldl tells_visitProperty e.properties).within, inspectBase_eq, tell_tell]
  rfl

theorem tells_visitValue (v : Value) : Tells (·.visitValue v) fun t circles s => t.checkValue circles s v := by
  intro i
  show i.visitValue v = _
  rw [visitValue, (Tells.foldl tells_visitProperty v.properties).within, inspectBase_eq, tell_tell]
  rfl

theorem tells_visitEntity (e : Entity) : Tells (·.visitEntity e) fun t circles s => t.checkEntity circles s e := by
  intro i
  show i.visitEntity e = _
  rw [visitEntity, (Tells.foldl tells_visitEvent e.events).within, inspectBase_eq, inspectIdentity_eq, tell_tell,
    tell_tell, ← List.append_assoc]
  rfl

theorem tells_visitCommand (o : Operation) :
    Tells (·.visitCommand o) fun t _ s => t.checkOperation (.declaration s o.name) .command o :=
  fun i => inspectOperation_eq i _ _ o

theorem tells_visitQuery (q : Query) : Tells (·.visitQuery q) fun t _ s => t.checkQuery s q := by
  intro i
  show i.visitQuery q = _
  rw [visitQuery, (Tells.foldl tells_visitFilter q.filters).within, inspectOperation_eq, tell_tell]
  rfl

mutual

theorem tells_visitPath : ∀ p : Path, Tells (·.visitPath p) fun t _ s => t.checkPath s p
  | ⟨operation, filters, members⟩ => by
    intro i
    have hmembers := (Tells.foldl tells_visitFilter filters).comp (tells_visitApiMembers members)
    show i.visitPath ⟨operation, filters, members⟩ = i.tell (i.table.checkPath i.scope ⟨operation, filters, members⟩)
    rw [visitPath, hmembers.within, inspectOperation_eq, tell_tell, Table.checkPath, List.append_assoc]
    rfl

theorem tells_visitApiMember : ∀ m : ApiMember, Tells (·.visitApiMember m) fun t _ s => t.checkApiMember s m
  | .command operation => tells_visitCommand operation
  | .query q => tells_visitQuery q
  | .path p => tells_visitPath p

theorem tells_visitApiMembers : ∀ ms : List ApiMember, Tells (·.visitApiMembers ms) fun t _ s => t.checkApiMembers s ms
  | [] => tells_id
  | m :: ms => (tells_visitApiMember m).comp (tells_visitApiMembers ms)

end

/-- **Visiting a member that is no block tells the rules it breaks.** -/
theorem tells_visitMember {m : Member} (hm : m.isBlock = false) :
    Tells (·.visitMember m) fun t circles s => t.checkMember circles s m := by
  cases m with
  | block b => cases hm
  | entity e => exact tells_visitEntity e
  | value v => exact tells_visitValue v
  | externalEnum e => exact tells_id
  | webApi root => exact tells_visitPath root

mutual

theorem exists_tells_visitBlock : ∀ b : Block, ∃ said, Tells (·.visitBlock b) said
  | ⟨_, _, members⟩ => exists_tells_visitMembers members

theorem exists_tells_visitMember : ∀ m : Member, ∃ said, Tells (·.visitMember m) said
  | .block b => exists_tells_visitBlock b
  | .entity e => ⟨_, tells_visitEntity e⟩
  | .value v => ⟨_, tells_visitValue v⟩
  | .externalEnum _ => ⟨_, tells_id⟩
  | .webApi root => ⟨_, tells_visitPath root⟩

theorem exists_tells_visitMembers : ∀ ms : List Member, ∃ said, Tells (·.visitMembers ms) said
  | [] => ⟨_, tells_id⟩
  | m :: ms => by
    obtain ⟨said, h⟩ := exists_tells_visitMember m
    obtain ⟨heard, hs⟩ := exists_tells_visitMembers ms
    exact ⟨_, h.comp hs⟩

end

/-- **Visiting a node only tells**, whatever its kind. -/
theorem exists_tells_visit (n : Node) : ∃ said, Tells (·.visit n) said := by
  cases n with
  | tree t =>
    choose said h using exists_tells_visitBlock
    exact ⟨_, Tells.foldl h t.blocks⟩
  | block b => exact exists_tells_visitBlock b
  | entity e => exact ⟨_, tells_visitEntity e⟩
  | event e => exact ⟨_, tells_visitEvent e⟩
  | value v => exact ⟨_, tells_visitValue v⟩
  | externalEnum e => exact ⟨_, tells_id⟩
  | property p => exact ⟨_, tells_visitProperty p⟩
  | webApi root => exact ⟨_, tells_visitPath root⟩
  | path p => exact ⟨_, tells_visitPath p⟩
  | query q => exact ⟨_, tells_visitQuery q⟩
  | command operation => exact ⟨_, tells_visitCommand operation⟩
  | filter a => exact ⟨_, tells_visitFilter a⟩

/-! ## What is told of a node -/

/-- **What is reported on a node by itself**: with a table, a switch and a scope, before anything else was visited. -/
def told (t : Table) (circles : Bool) (s : Scope) (n : Node) : List Observation :=
  ((⟨t, circles, .empty, s⟩ : Inspector).visit n).report.observations

/-- **Visiting a node adds what is told of it by itself** and comes back to the scope. -/
theorem visit_eq (i : Inspector) (n : Node) :
    i.visit n = { i with report := i.report.extend (told i.table i.circles i.scope n) } := by
  obtain ⟨said, h⟩ := exists_tells_visit n
  replace h : ∀ i : Inspector, i.visit n = i.tell (said i.table i.circles i.scope) := h
  have htold : told i.table i.circles i.scope n = (said i.table i.circles i.scope).map (·.observation) := by
    rw [told, h]
    exact List.nil_append _
  rw [htold]
  exact h i

theorem visitMember_eq_visit (i : Inspector) (m : Member) : i.visitMember m = i.visit m.node := by
  cases m <;> simp [visitMember, visit, Member.node]

/-- What is told of a member that is no block is the rules it breaks. -/
theorem told_member {m : Member} (hm : m.isBlock = false) (t : Table) (circles : Bool) (s : Scope) :
    told t circles s m.node = (t.checkMember circles s m).map (·.observation) := by
  have h : ∀ i : Inspector, i.visitMember m = i.tell (i.table.checkMember i.circles i.scope m) := tells_visitMember hm
  rw [told, ← visitMember_eq_visit, h]
  exact List.nil_append _

/-! ## What is told of a forest -/

/-- **What is told of groups**: of each group, depth first, the members of its blocks that are no blocks themselves. -/
def toldOf (t : Table) (circles : Bool) (groups : List Group) : List Observation :=
  (Group.preorderAll groups).flatMap fun g => g.fragments.flatMap fun f =>
    (f.block.members.filter fun m => !m.isBlock).flatMap fun m => told t circles f.scope m.node

theorem toldOf_eq (t : Table) (circles : Bool) (groups : List Group) : toldOf t circles groups =
    (Group.all groups).flatMap fun g => g.members.flatMap fun m => told t circles m.2 m.1.node := by
  unfold toldOf
  simp only [Group.all_eq, Group.members, Fragment.members, List.flatMap_assoc, List.flatMap_map]

/-- **Visiting members one after the other adds what is told of each**, whatever scope it ends in. -/
theorem exists_visitMembers_eq : ∀ (ms : List (Member × Scope)) (i : Inspector),
    ∃ s, ms.foldl (fun i m => { i with scope := m.2 }.visitMember m.1) i =
      { i with
        report := i.report.extend (ms.flatMap fun m => told i.table i.circles m.2 m.1.node)
        scope := s }
  | [], i => ⟨i.scope, by simp [Report.extend]⟩
  | m :: ms, i => by
    obtain ⟨s, hs⟩ := exists_visitMembers_eq ms ({ i with scope := m.2 }.visitMember m.1)
    refine ⟨s, ?_⟩
    rw [List.foldl_cons, hs, visitMember_eq_visit, visit_eq, List.flatMap_cons]
    simp [Report.extend]

theorem exists_visitGroups_eq : ∀ (gs : List Group) (i : Inspector),
    ∃ s, gs.foldl visitGroup i =
      { i with
        report := i.report.extend (gs.flatMap fun g => g.members.flatMap fun m => told i.table i.circles m.2 m.1.node)
        scope := s }
  | [], i => ⟨i.scope, by simp [Report.extend]⟩
  | g :: gs, i => by
    -- The next group sets its own scopes, so that the one left by this group is not used.
    obtain ⟨s₁, h₁⟩ := exists_visitMembers_eq g.members i
    obtain ⟨s₂, h₂⟩ := exists_visitGroups_eq gs (i.visitGroup g)
    refine ⟨s₂, ?_⟩
    rw [List.foldl_cons, h₂, visitGroup, h₁, List.flatMap_cons]
    simp [Report.extend]

theorem inspect_eq (circles : Bool) (groups : List Group) (t : Table) (report : Report) :
    inspect circles groups t report = report.extend (toldOf t circles groups) := by
  obtain ⟨s, hs⟩ := exists_visitGroups_eq (Group.all groups) ⟨t, circles, report, .top []⟩
  rw [inspect, hs, toldOf_eq]

/-- **The rules broken in groups are what is told of them.** -/
theorem map_observation_check (t : Table) (circles : Bool) (groups : List Group) :
    (t.check circles groups).map (·.observation) = toldOf t circles groups := by
  rw [toldOf_eq, Table.check, List.map_flatMap]
  refine congrArg (Group.all groups).flatMap (funext fun g => ?_)
  rw [List.map_flatMap]
  refine List.flatMap_congr fun m hm => ?_
  exact (told_member (Collector.isBlock_of_mem_members hm) t circles m.2).symm

/-- **A forest is told of the names declared twice, then of its members one after the other.**  What is told of a member
depends on the table, the switch and its scope; an inspector reports it after whatever it reported before, and is in the
scope again that it was in. -/
theorem observationsOf_compileForest_eq_told (circles : Bool) (outside : Universe) (forest : List Source.Tree) :
    let groups := Group.merge forest
    let defined := Collector.collect groups outside .empty
    observationsOf (compileForest { limit := 0, circles, outside } forest) =
        defined.2.observations ++ toldOf defined.1 circles groups ∧
      inspect circles groups defined.1 defined.2 = defined.2.extend (toldOf defined.1 circles groups) ∧
      ∀ (i : Inspector) n, i.visit n = { i with report := i.report.extend (told i.table i.circles i.scope n) } := by
  intro groups defined
  refine ⟨?_, inspect_eq circles groups _ _, visit_eq⟩
  rw [observationsOf_compileForest rfl, show defined = _ from Collector.collect_eq groups outside .empty,
    ← map_observation_check]
  rfl

end Inspector
end DomainModel
