import DomainModel.Graph.Builder
import DomainModel.Proofs.Graph.Forest
/-!
# Building — the builder places what the trees place

A step of a build adds placed symbols behind those there are (`Adds`): the namespaces, members and paths that are built
add what their trees place, number for number, whatever was built before.  A build stops for want of numbers and for
nothing else (`Builder.build_eq_ite`).
-/
namespace DomainModel

open Source (ApiMember Entity Event ExternalEnum Member Operation Path Query Value)

namespace Graph

theorem declaredFrom_append : ∀ (start : Nat) (ps qs : List Placed),
    declaredFrom start (ps ++ qs) = declaredFrom start ps ++ declaredFrom (start + ps.length) qs
  | _, [], _ => rfl
  | start, p :: ps, qs => by
    rw [List.cons_append, declaredFrom, declaredFrom, declaredFrom_append (start + 1) ps qs, List.length_cons,
      List.append_assoc, Nat.add_assoc, Nat.add_comm 1]

theorem declaredFrom_eq_nil : ∀ {start : Nat} {ps : List Placed}, (∀ p ∈ ps, p.declares = none) →
    declaredFrom start ps = []
  | _, [], _ => rfl
  | _, p :: ps, h => by
    rw [declaredFrom, h p List.mem_cons_self, declaredFrom_eq_nil fun q hq => h q (List.mem_cons_of_mem _ hq)]
    rfl

end Graph

namespace Builder

open SymbolTree (place placeAll roots withChildren)

/-! ## What a step adds -/

/-- **The builder with placed symbols behind those it has**, and with the names they declare. -/
def extend (b : Builder) (ps : List Placed) : Builder where
  symbols := b.symbols ++ ps.map (·.symbol)
  index := (Graph.declaredFrom b.size ps).foldl (fun x e => x.insert e.1 e.2) b.index

theorem size_extend (b : Builder) (ps : List Placed) : (b.extend ps).size = b.size + ps.length := by
  simp [size, extend]

theorem extend_nil (b : Builder) : b.extend [] = b := by simp [extend, Graph.declaredFrom]

theorem extend_extend (b : Builder) (ps qs : List Placed) : (b.extend ps).extend qs = b.extend (ps ++ qs) := by
  have hsize := size_extend b ps
  unfold extend at hsize ⊢
  simp only [hsize, List.map_append, List.append_assoc, Graph.declaredFrom_append, List.foldl_append]

/-- **A step adds placed symbols** behind so many others and gives an answer, or stops where there are not numbers
enough. -/
def Adds {α : Type} (start : Nat) (x : BuildM α) (answer : α) (ps : List Placed) : Prop :=
  ∀ b : Builder, b.size = start → start ≤ capacity →
    x b = if start + ps.length ≤ capacity then .ok (answer, b.extend ps) else .error .arenaFull

section Adds

variable {α β : Type} {start : Nat}

theorem bind_apply {x : BuildM α} {f : α → BuildM β} {b b' : Builder} {a : α} (h : x b = .ok (a, b')) :
    (x >>= f) b = f a b' := by
  change Except.bind (x b) _ = _
  rw [h]
  rfl

theorem bind_error {x : BuildM α} {f : α → BuildM β} {b : Builder} {refusal : BuildRefusal} (h : x b = .error refusal) :
    (x >>= f) b = .error refusal := by
  change Except.bind (x b) _ = _
  rw [h]
  rfl

/-- **Two outcomes**: with numbers enough a step adds its symbols, otherwise it stops. -/
theorem Adds.cases {x : BuildM α} {a : α} {ps : List Placed} (hx : Adds start x a ps) {b : Builder} (hb : b.size = start)
    (hstart : start ≤ capacity) :
    start + ps.length ≤ capacity ∧ x b = .ok (a, b.extend ps) ∨
      capacity < start + ps.length ∧ x b = .error .arenaFull := by
  rw [hx b hb hstart]
  by_cases h : start + ps.length ≤ capacity
  · exact .inl ⟨h, if_pos h⟩
  · exact .inr ⟨Nat.lt_of_not_le h, if_neg h⟩

theorem Adds.of_cases {x : BuildM α} {a : α} {ps : List Placed}
    (hok : ∀ b : Builder, b.size = start → start + ps.length ≤ capacity → x b = .ok (a, b.extend ps))
    (herror : ∀ b : Builder, b.size = start → start ≤ capacity → capacity < start + ps.length →
      x b = .error .arenaFull) : Adds start x a ps := by
  intro b hb hstart
  split
  · rename_i h
    exact hok b hb h
  · rename_i h
    exact herror b hb hstart (Nat.lt_of_not_le h)

theorem Adds.pure (a : α) : Adds start (pure a) a [] := by
  refine .of_cases (fun b _ _ => ?_) fun b _ hstart h => absurd h (Nat.not_lt.2 hstart)
  rw [extend_nil]
  rfl

/-- **One step after the other adds what each adds.** -/
theorem Adds.bind {x : BuildM α} {f : α → BuildM β} {a : α} {c : β} {ps qs : List Placed} (hx : Adds start x a ps)
    (hf : Adds (start + ps.length) (f a) c qs) : Adds start (x >>= f) c (ps ++ qs) := by
  intro b hb hstart
  rw [List.length_append, ← Nat.add_assoc]
  rcases hx.cases hb hstart with ⟨hcap, hx⟩ | ⟨hcap, hx⟩
  · rw [bind_apply hx, hf _ (by rw [size_extend, hb]) hcap, extend_extend]
  · rw [bind_error hx, if_neg (by omega)]

theorem Adds.map {x : BuildM α} {f : α → β} {a : α} {ps : List Placed} (hx : Adds start x a ps) :
    Adds start (f <$> x) (f a) ps := by
  rw [map_eq_pure_bind]
  exact List.append_nil ps ▸ hx.bind (Adds.pure _)

theorem adds_push (s : Symbol Written) : Adds start (push s) ⟨start⟩ [⟨s, none⟩] := by
  refine .of_cases (fun b hb hcap => ?_) fun b hb _ hcap => ?_
  · rw [List.length_singleton] at hcap
    rw [push, if_pos (by omega), hb]
    rfl
  · rw [List.length_singleton] at hcap
    rw [push, if_neg (by omega)]

/-- Registering a name is what its declaration adds. -/
theorem Adds.register {x : BuildM SymbolId} {s : Symbol Written} {ps : List Placed} (name : QualifiedName)
    (hx : Adds start x ⟨start⟩ (⟨s, none⟩ :: ps)) (hps : ∀ p ∈ ps, p.declares = none) {f : SymbolId → α} :
    Adds start (do let id ← x; register name id; return f id) (f ⟨start⟩) (⟨s, some name⟩ :: ps) := by
  intro b hb hstart
  rcases hx.cases hb hstart with ⟨hcap, hx⟩ | ⟨hcap, hx⟩ <;> rw [List.length_cons] at hcap ⊢
  · rw [bind_apply hx, if_pos hcap]
    unfold extend Graph.declaredFrom
    rw [Graph.declaredFrom_eq_nil hps, hb]
    rfl
  · rw [bind_error hx, if_neg (Nat.not_le.2 hcap)]

theorem adds_declare (name : QualifiedName) (s : Symbol Written) :
    Adds start (declare name s) ⟨start⟩ [⟨s, some name⟩] :=
  Adds.register name (adds_push s) (fun _ h => absurd h List.not_mem_nil) (f := id)

theorem assign?_eq {c : Content Written} {ids : List SymbolId} (h : c.children? = some .unassigned) :
    c.assign? ids = some (withChildren c ids) := by
  cases c <;> simp_all [withChildren, Content.children?, Content.assign?, Children.assign?]

/-- **Children are given to a symbol in its place**, where there are none yet. -/
theorem assign_extend {s : Symbol Written} (h : s.content.children? = some .unassigned) (ids : List SymbolId)
    (declares : Option QualifiedName) (ps : List Placed) (b : Builder) :
    assign ⟨b.size⟩ ids (b.extend (⟨s, declares⟩ :: ps)) =
      .ok ((), b.extend (⟨{ s with content := withChildren s.content ids }, declares⟩ :: ps)) := by
  have hat : (b.extend (⟨s, declares⟩ :: ps)).symbols[b.size]? = some s := by
    simp [extend, size]
  have hset : ∀ s' : Symbol Written, (b.extend (⟨s, declares⟩ :: ps)).symbols.set b.size s' =
      b.symbols ++ s' :: ps.map (·.symbol) := by
    intro s'
    simp [extend, size, List.set_append_right]
  simp only [assign, hat, h, assign?_eq h, hset]
  rfl

end Adds

/-! ## What a step builds -/

/-- **A step builds a tree** under a parent, wherever it is taken. -/
def Builds (parent : Option SymbolId) (x : BuildM SymbolId) (t : SymbolTree) : Prop :=
  ∀ start, Adds start x ⟨start⟩ (t.place parent start)

/-- A step builds a tree, if there is one to build. -/
def BuildsAny (parent : Option SymbolId) (x : BuildM (Option SymbolId)) (t? : Option SymbolTree) : Prop :=
  ∀ start, Adds start x (t?.map fun _ => ⟨start⟩) (placeAll parent start t?.toList)

/-- **A step builds trees** one after the other. -/
def BuildsAll (parent : Option SymbolId) (x : BuildM (List SymbolId)) (ts : List SymbolTree) : Prop :=
  ∀ start, Adds start x (roots start ts) (placeAll parent start ts)

section Builds

variable {parent : Option SymbolId} {t : SymbolTree}

theorem place_leaf (hno : t.content.children? = none) (hin : t.inside = []) (start : Nat) :
    t.place parent start = [⟨⟨t.name, parent, t.tags, t.content⟩, t.declares⟩] := by
  obtain ⟨name, tags, content, declares, inside⟩ := t
  obtain rfl : inside = [] := hin
  rw [place, SymbolTree.withChildren_of_no_place hno]
  rfl

theorem builds_leaf {x : BuildM SymbolId} (hno : t.content.children? = none) (hin : t.inside = [])
    (hx : ∀ start, Adds start x ⟨start⟩ [⟨⟨t.name, parent, t.tags, t.content⟩, t.declares⟩]) : Builds parent x t := by
  intro start
  rw [place_leaf hno hin]
  exact hx start

/-- **A symbol is pushed, what is inside comes after it, and it gets its children.** -/
theorem builds_fill {x : BuildM SymbolId} {inside : SymbolId → BuildM (List SymbolId)}
    (hopen : t.content.children? = some .unassigned)
    (hx : ∀ start, Adds start x ⟨start⟩ [⟨⟨t.name, parent, t.tags, t.content⟩, t.declares⟩])
    (hin : ∀ id, BuildsAll (some id) (inside id) t.inside) :
    Builds parent (do let id ← x; fill id (inside id)) t := by
  obtain ⟨name, tags, content, declares, within⟩ := t
  rintro _ b rfl hstart
  rw [place]
  -- What is inside goes behind the symbol, which is still in its place when its children are given.
  have hboth := Adds.bind (hx b.size) (hin ⟨b.size⟩ (b.size + 1))
  rcases (hx b.size).cases rfl hstart with ⟨-, hhead⟩ | ⟨hcap, hhead⟩
  · rw [bind_apply hhead]
    unfold fill
    rcases hboth.cases rfl hstart with ⟨hcap, hboth⟩ | ⟨hcap, hboth⟩
    · rw [bind_apply hhead] at hboth
      rw [bind_apply hboth, List.singleton_append, bind_apply (assign_extend hopen ..)]
      exact (if_pos hcap).symm
    · rw [bind_apply hhead] at hboth
      rw [bind_error hboth]
      exact (if_neg (Nat.not_le.2 hcap)).symm
  · rw [bind_error hhead, if_neg]
    simp only [List.length_cons, List.length_nil] at hcap ⊢
    omega

theorem Builds.some {x : BuildM SymbolId} (h : Builds parent x t) : BuildsAny parent (some <$> x) (some t) := by
  intro start
  have hall : placeAll parent start [t] = t.place parent start := List.append_nil _
  change Adds start _ _ (placeAll parent start [t])
  rw [hall]
  exact (h start).map

theorem buildsAny_none : BuildsAny parent (pure none) none := fun _ => Adds.pure _

theorem buildsAll_nil : BuildsAll parent (pure []) [] := fun _ => Adds.pure _

theorem BuildsAny.cons {x : BuildM (Option SymbolId)} {t? : Option SymbolTree} {y : BuildM (List SymbolId)}
    {ts : List SymbolTree} (hx : BuildsAny parent x t?) (hy : BuildsAll parent y ts) :
    BuildsAll parent (do let id ← x; let ids ← y; return id.toList ++ ids) (t?.toList ++ ts) := by
  intro start
  have hroots : (t?.map fun _ => SymbolId.mk start).toList = roots start t?.toList := by cases t? <;> rfl
  rw [SymbolTree.roots_append, SymbolTree.placeAll_append, ← hroots, ← SymbolTree.length_placeAll parent start t?.toList]
  exact (hx start).bind (Adds.map (hy _))

theorem BuildsAll.append {x y : BuildM (List SymbolId)} {ts us : List SymbolTree} (hx : BuildsAll parent x ts)
    (hy : BuildsAll parent y us) : BuildsAll parent (do let ids ← x; let rest ← y; return ids ++ rest) (ts ++ us) := by
  intro start
  rw [SymbolTree.roots_append, SymbolTree.placeAll_append, ← SymbolTree.length_placeAll parent start ts]
  exact (hx start).bind (Adds.map (hy _))

/-- **What is built for each of a list is built together.** -/
theorem buildsAll_each {α : Type} {build : α → BuildM (Option SymbolId)} {tree? : α → Option SymbolTree}
    (h : ∀ a, BuildsAny parent (build a) (tree? a)) : ∀ as : List α,
      BuildsAll parent (each build as) (as.filterMap tree?)
  | [] => buildsAll_nil
  | a :: as => by
    have hcons := (h a).cons (buildsAll_each h as)
    have htrees : (tree? a).toList ++ as.filterMap tree? = (a :: as).filterMap tree? := by
      cases ht : tree? a with
      | none => rw [List.filterMap_cons_none ht]; rfl
      | some t => rw [List.filterMap_cons_some ht]; rfl
    rwa [htrees] at hcons

end Builds

/-! ## What is built for each part of a source -/

section Parts

variable (parent : SymbolId) (scope : Scope)

theorem builds_event (e : Event) : Builds (some parent) (buildEvent parent scope e) (e.tree scope) :=
  builds_leaf rfl rfl fun _ => adds_declare _ _

theorem builds_value (v : Value) : Builds (some parent) (buildValue parent scope v) (v.tree scope) := by
  have hno : (v.tree scope).content.children? = none := by
    simp only [Value.tree]
    split <;> rfl
  exact builds_leaf hno rfl fun _ => adds_declare _ _

theorem builds_externalEnum (e : ExternalEnum) : Builds (some parent) (buildExternalEnum parent scope e) (e.tree scope) :=
  builds_leaf rfl rfl fun _ => adds_declare _ _

theorem builds_command (o : Operation) : Builds (some parent) (buildCommand parent scope o) (o.commandTree scope) :=
  builds_leaf rfl rfl fun _ => adds_push _

theorem builds_query (q : Query) : Builds (some parent) (buildQuery parent scope q) (q.tree scope) :=
  builds_leaf rfl rfl fun _ => adds_push _

theorem builds_command? (m : ApiMember) :
    BuildsAny (some parent) (buildCommand? parent scope m) (m.commandTree? scope) := by
  cases m with
  | command o => exact (builds_command parent scope o).some
  | query | path => exact buildsAny_none

theorem builds_query? (m : ApiMember) :
    BuildsAny (some parent) (buildQuery? parent scope m) (m.queryTree? scope) := by
  cases m with
  | query q => exact (builds_query parent scope q).some
  | command | path => exact buildsAny_none

/-- **An entity is built with its events.** -/
theorem builds_entity (e : Entity) : Builds (some parent) (buildEntity parent scope e) (e.tree scope) := by
  refine builds_fill rfl (fun _ => adds_declare _ _) fun id => ?_
  have hevents := buildsAll_each (fun v => (builds_event id (.declaration scope e.name) v).some) e.events
  rwa [List.filterMap_eq_map'] at hevents

end Parts

/-- The tree of a path, or of the root of a web API before that is registered. -/
def pathTree (scope : Scope) (isRoot : Bool) (p : Path) : SymbolTree :=
  if isRoot then { p.rootTree scope with declares := none } else p.tree scope

/-- **The commands, the queries and the paths of a path come one after the other.** -/
theorem buildsAll_inside {members : List ApiMember} {own : Scope} {id : SymbolId}
    (hpaths : BuildsAll (some id) (buildPaths id own members) (ApiMember.pathTrees own members)) :
    BuildsAll (some id) (do
        let commands ← each (buildCommand? id own) members
        let queries ← each (buildQuery? id own) members
        let paths ← buildPaths id own members
        return commands ++ queries ++ paths)
      (members.filterMap (·.commandTree? own) ++ members.filterMap (·.queryTree? own) ++
        ApiMember.pathTrees own members) := by
  have hcommands := buildsAll_each (builds_command? id own) members
  have hqueries := buildsAll_each (builds_query? id own) members
  simpa only [bind_assoc, pure_bind] using (hcommands.append hqueries).append hpaths

mutual

/-- **A path is built with its members.** -/
theorem builds_path (parent : SymbolId) (scope : Scope) (isRoot : Bool) : ∀ p : Path,
    Builds (some parent) (buildPath parent scope isRoot p) (pathTree scope isRoot p)
  | ⟨operation, filters, members⟩ => by
    have hinside : ∀ id, BuildsAll (some id) _ _ := fun id =>
      buildsAll_inside (builds_paths id (.declaration scope operation.name) members)
    rw [buildPath]
    cases isRoot with
    | true => exact builds_fill rfl (fun _ => adds_push _) hinside
    | false => exact builds_fill rfl (fun _ => adds_push _) hinside

theorem builds_path? (parent : SymbolId) (scope : Scope) : ∀ m : ApiMember,
    BuildsAny (some parent) (buildPath? parent scope m) (m.pathTree scope).head?
  | .path p => by
    rw [buildPath?, ApiMember.pathTree]
    exact (builds_path parent scope false p).some
  | .command _ | .query _ => by
    rw [buildPath?]
    exact buildsAny_none

theorem builds_paths (parent : SymbolId) (scope : Scope) : ∀ ms : List ApiMember,
    BuildsAll (some parent) (buildPaths parent scope ms) (ApiMember.pathTrees scope ms)
  | [] => by
    rw [buildPaths]
    exact buildsAll_nil
  | m :: ms => by
    have htree : (m.pathTree scope).head?.toList = m.pathTree scope := by cases m <;> rfl
    rw [buildPaths, ApiMember.pathTrees, ← htree]
    exact (builds_path? parent scope m).cons (builds_paths parent scope ms)

end

/-- **A member of a block is built as it is placed**; what a web API declares is registered last, and inside it nothing
is. -/
theorem builds_member (parent : SymbolId) (scope : Scope) (m : Member) :
    BuildsAny (some parent) (buildMember parent scope m) (m.tree? scope) := by
  cases m with
  | block b => exact buildsAny_none
  | entity e => exact (builds_entity parent scope e).some
  | value v => exact (builds_value parent scope v).some
  | externalEnum e => exact (builds_externalEnum parent scope e).some
  | webApi root =>
    obtain ⟨operation, filters, members⟩ := root
    intro start
    have hall : placeAll (some parent) start [Path.rootTree scope ⟨operation, filters, members⟩] =
        (Path.rootTree scope ⟨operation, filters, members⟩).place (some parent) start := List.append_nil _
    change Adds start _ _ (placeAll (some parent) start [Path.rootTree scope ⟨operation, filters, members⟩])
    rw [hall]
    refine Adds.register (scope.qualify operation.name) (builds_path parent scope true ⟨operation, filters, members⟩ start)
      (fun q hq => ?_) (f := some)
    rw [SymbolTree.placeAll_eq _ [] _] at hq
    obtain ⟨l, hl, rfl⟩ := List.mem_map.1 hq
    exact Path.declares_of_mem_inside hl

mutual

/-- **A namespace is built with its members and the namespaces inside.** -/
theorem builds_namespace (parent : Option SymbolId) : ∀ g : Group, Builds parent (buildNamespace parent g) g.tree
  | ⟨fullName, fragments, children⟩ => by
    have hinside : ∀ id, BuildsAll (some id) _ _ := fun id =>
      (buildsAll_each (fun m => builds_member id m.2 m.1) (fragments.flatMap (·.members))).append
        (builds_namespaces (some id) children)
    rw [buildNamespace]
    exact builds_fill rfl (fun _ => adds_push _) hinside

theorem builds_namespaces (parent : Option SymbolId) : ∀ gs : List Group,
    BuildsAll parent (buildNamespaces parent gs) (Group.trees gs)
  | [] => by
    rw [buildNamespaces]
    exact buildsAll_nil
  | g :: gs => by
    intro start
    rw [buildNamespaces, Group.trees, placeAll, roots, ← SymbolTree.length_place parent start g.tree]
    exact (builds_namespace parent g start).bind (Adds.map (builds_namespaces parent gs _))

end

/-- **A build of groups gives their graph, or there are more symbols than numbers.** -/
theorem build_eq_ite (groups : List Group) (t : Table) : build groups t =
    if SymbolTree.sizeAll (Group.trees groups) ≤ capacity then .ok (Graph.ofGroups groups t) else .error .arenaFull := by
  have hrun := builds_namespaces none groups 0 empty rfl (Nat.zero_le _)
  rw [SymbolTree.length_placeAll, Nat.zero_add] at hrun
  unfold build StateT.run
  rw [hrun]
  split
  · simp only [bind, Except.bind, pure, Except.pure, Except.ok.injEq, Graph.ofGroups, extend, empty, List.nil_append,
      List.map_map]
    rfl
  · rfl

theorem build_eq_ok_iff {groups : List Group} {t : Table} {g : Graph} : build groups t = .ok g ↔
    SymbolTree.sizeAll (Group.trees groups) ≤ capacity ∧ Graph.ofGroups groups t = g := by
  rw [build_eq_ite]
  split
  · rename_i h
    rw [Except.ok.injEq, and_iff_right h]
  · rename_i h
    exact ⟨nofun, fun hok => absurd hok.1 h⟩

theorem build_eq {groups : List Group} (t : Table) (h : SymbolTree.sizeAll (Group.trees groups) ≤ capacity) :
    build groups t = .ok (Graph.ofGroups groups t) :=
  build_eq_ok_iff.2 ⟨h, rfl⟩

/-- **Building the groups of a forest never stops, and what is built is a forest in pre-order**, as long as there are
numbers for its symbols. -/
theorem exists_build_isForest (forest : List Source.Tree) (t : Table)
    (h : SymbolTree.sizeAll (Group.trees (Group.merge forest)) ≤ capacity) :
    ∃ g, build (Group.merge forest) t = .ok g ∧ g = Graph.ofGroups (Group.merge forest) t ∧ g.IsForest :=
  ⟨_, build_eq t h, rfl, Graph.isForest_ofGroups (Group.merge forest) t⟩

theorem exists_build_isForest_shop :
    SymbolTree.sizeAll (Group.trees (Group.merge Source.Small.shop)) ≤ capacity ∧
      ∃ g, build (Group.merge Source.Small.shop) (.empty .empty) = .ok g ∧
        g = Graph.ofGroups (Group.merge Source.Small.shop) (.empty .empty) ∧ g.IsForest := by
  have h : SymbolTree.sizeAll (Group.trees (Group.merge Source.Small.shop)) ≤ capacity := by decide
  exact ⟨h, exists_build_isForest _ _ h⟩

end Builder
end DomainModel
