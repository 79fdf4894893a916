import DomainModel.Proofs.Graph.Level
import DomainModel.Proofs.Graph.Methods
import DomainModel.Proofs.Rules.Accepted
/-!
# Visits — what a walk visits, and in which order

A visitor that walks below everything, and skips by a test that has no effects, visits the graph, then the symbols that
pass the test with all above them, in the order of their numbers, and behind each symbol those of its properties or
filters that pass (`accept_of_compileForest`).  What is done at a visit does not matter: the walk is the list of these
visits in any monad, and a visitor with a method for each kind does the same.  A visitor that stops below some subjects
misses what is below them, and nothing else (`IsForest.exists_accept_pruning`).
-/
namespace DomainModel

variable {m : Type → Type} [Monad m]

/-- **What is done at each kind of subject**, before what is below is walked. -/
structure Handlers (m : Type → Type) where
  graph : m Unit
  symbol : SymbolKind → SymbolId → GraphSymbol → m Unit
  atom : GraphAtom → m Unit

namespace Handlers

/-- The visitor that skips by a test and walks below everything else. -/
def visitor (h : Handlers m) (p : Subject → Bool) : Visitor m where
  skips subject := pure (p subject)
  graph walk := do h.graph; walk
  symbol id s walk := do h.symbol s.kind id s; walk
  atom := h.atom

/-- **The same visitor with a method for each kind**: what is done at the kind, then the walk of the kind. -/
def methods (h : Handlers m) (p : Subject → Bool) : Methods m where
  skips subject := pure (p subject)
  graph w := do h.graph; w.graph
  space w id s members := do h.symbol .space id s; w.space members
  entity w id s events := do h.symbol .entity id s; w.entity events
  event w id s properties := do h.symbol .event id s; w.event properties
  complexValue w id s properties := do h.symbol .complexValue id s; w.complexValue properties
  externalValue := h.symbol .externalValue
  externalEnum := h.symbol .externalEnum
  webApi w id s filters members := do h.symbol .webApi id s; w.path filters members
  path w id s filters members := do h.symbol .path id s; w.path filters members
  query w id s filters := do h.symbol .query id s; w.query filters
  command := h.symbol .command
  atom := h.atom

/-- The visitor that skips by a test and walks below everything else at which it does not stop. -/
def pruning (h : Handlers m) (p stops : Subject → Bool) : Visitor m where
  skips subject := pure (p subject)
  graph walk := do h.graph; if stops .graph then pure () else walk
  symbol id s walk := do h.symbol s.kind id s; if stops (.symbol id s) then pure () else walk
  atom := h.atom

def visit (h : Handlers m) : Subject → m Unit
  | .graph => h.graph
  | .symbol id s => h.symbol s.kind id s
  | .atom a => h.atom a

@[simp] theorem skips_visitor (h : Handlers m) (p : Subject → Bool) (subject : Subject) :
    (h.visitor p).skips subject = pure (p subject) := rfl

theorem pruning_false (h : Handlers m) (p : Subject → Bool) : h.pruning p (fun _ => false) = h.visitor p := rfl

@[simp] theorem skips_pruning (h : Handlers m) (p stops : Subject → Bool) (subject : Subject) :
    (h.pruning p stops).skips subject = pure (p subject) := rfl

theorem follows_methods [LawfulMonad m] (h : Handlers m) (p : Subject → Bool) :
    (h.methods p).Follows (h.visitor p) where
  skips := rfl
  atom := rfl
  graph _ _ := rfl
  symbol namespaces visit id s := by
    rw [(h.methods p).walk_eq namespaces]
    obtain ⟨name, parent, tags, content⟩ := s
    cases content with
    | externalValue | externalEnum | command => exact bind_pure_unit.symm
    | space | entity | event | complexValue | webApi | path | query => rfl

/-- **A method for each kind visits what one for all symbols does.** -/
theorem acceptBy_methods [LawfulMonad m] (h : Handlers m) (p : Subject → Bool) (g : Graph) :
    g.acceptBy (h.methods p) = g.accept (h.visitor p) :=
  (h.follows_methods p).acceptBy_eq g

theorem visitAtom_pruning [LawfulMonad m] (h : Handlers m) (p stops : Subject → Bool) (a : GraphAtom) :
    (h.pruning p stops).visitAtom a = if p (.atom a) then pure () else h.visit (.atom a) := by
  rw [Visitor.visitAtom, skips_pruning, pure_bind]
  rfl

theorem forM_visitAtom [LawfulMonad m] (h : Handlers m) (p stops : Subject → Bool) : ∀ as : List GraphAtom,
    forM as (h.pruning p stops).visitAtom = forM ((as.filter fun a => !p (.atom a)).map Subject.atom) h.visit
  | [] => rfl
  | a :: as => by
    rw [List.forM_cons, forM_visitAtom h p stops as, visitAtom_pruning]
    cases ha : p (.atom a) with
    | true => simp [ha]
    | false => simp [ha]

end Handlers

/-- **A visit of a walk**, an atom being visited at its owner. -/
inductive Visit where
  | graph
  | symbol (id : SymbolId) (s : GraphSymbol)
  | atom (owner : SymbolId) (a : GraphAtom)

def Visit.subject : Visit → Subject
  | graph => .graph
  | symbol id s => .symbol id s
  | atom _ a => .atom a

namespace Graph

variable {g : Graph} {p : Subject → Bool}

/-- **The test passes a symbol and all above it.** -/
def Spares (g : Graph) (p : Subject → Bool) (id : SymbolId) : Prop :=
  ∀ above s, Relation.ReflTransGen (fun i parent => g.parent? i = some parent) id above → g.symbol? above = some s →
    p (.symbol above s) = false

/-- **What is visited at a symbol**: the symbol, then those of its properties or filters that pass the test. -/
def visitsAt (g : Graph) (p : Subject → Bool) (id : SymbolId) : List Subject :=
  match g.symbol? id with
  | none => []
  | some s => .symbol id s :: ((s.content.properties ++ s.content.filters).filter fun a => !p (.atom a)).map Subject.atom

/-- The visits at a symbol. -/
def visitsOf (g : Graph) (p : Subject → Bool) (id : SymbolId) : List Visit :=
  match g.symbol? id with
  | none => []
  | some s => .symbol id s :: ((s.content.properties ++ s.content.filters).filter fun a => !p (.atom a)).map (.atom id)

theorem map_subject_visitsOf (id : SymbolId) : (g.visitsOf p id).map Visit.subject = g.visitsAt p id := by
  unfold visitsOf visitsAt
  cases g.symbol? id with
  | none => rfl
  | some s => rw [List.map_cons, List.map_map]; rfl

theorem mem_visitsOf {id : SymbolId} {v : Visit} (hv : v ∈ g.visitsOf p id) :
    (∃ s, v = .symbol id s) ∨ ∃ a, v = .atom id a := by
  unfold visitsOf at hv
  cases hs : g.symbol? id with
  | none => rw [hs] at hv; cases hv
  | some s =>
    rw [hs] at hv
    rcases List.mem_cons.1 hv with rfl | hv
    · exact .inl ⟨s, rfl⟩
    · obtain ⟨a, -, rfl⟩ := List.mem_map.1 hv
      exact .inr ⟨a, rfl⟩

/-- **What is below a subject**: all else, below the graph; below a symbol its atoms, the symbols that have it above them
and the atoms of these. -/
inductive Below (g : Graph) : Visit → Subject → Prop
  | symbol_graph (id : SymbolId) (s : GraphSymbol) : Below g (.symbol id s) .graph
  | atom_graph (owner : SymbolId) (a : GraphAtom) : Below g (.atom owner a) .graph
  | symbol {id above : SymbolId} {s x : GraphSymbol} :
      Relation.TransGen (fun i parent => g.parent? i = some parent) id above → g.symbol? above = some x →
        Below g (.symbol id s) (.symbol above x)
  | atom {owner above : SymbolId} {a : GraphAtom} {x : GraphSymbol} :
      Relation.ReflTransGen (fun i parent => g.parent? i = some parent) owner above → g.symbol? above = some x →
        Below g (.atom owner a) (.symbol above x)

/-- **A visit is reached** where nothing that it is below stops the walk. -/
def Reached (g : Graph) (stops : Subject → Bool) (v : Visit) : Prop := ∀ subject, g.Below v subject → stops subject = false

/-- A symbol that passes is spared if its parent is. -/
theorem spares_of_parent {id : SymbolId} {x : GraphSymbol} (hx : g.symbol? id = some x)
    (hp : p (.symbol id x) = false) (hparent : ∀ parent, g.parent? id = some parent → g.Spares p parent) :
    g.Spares p id := by
  intro above s habove hs
  rcases habove.cases_head with rfl | ⟨parent, hstep, habove⟩
  · obtain rfl := Option.some_inj.1 (hx.symm.trans hs)
    exact hp
  · exact hparent parent hstep above s habove hs

/-- **What a walk passes is below where it starts.** -/
theorem Walk.exists_start (hg : g.IsForest) {ids passed : List SymbolId} (hw : g.Walk ids passed) :
    ∀ i ∈ passed, ∃ start ∈ ids, Relation.ReflTransGen (fun i parent => g.parent? i = some parent) i start := by
  induction hw with
  | nil => exact nofun
  | @cons id x ids below after hx _ _ ihbelow ihafter =>
    intro i hi
    rcases List.mem_cons.1 hi with rfl | hi
    · exact ⟨i, List.mem_cons_self, .refl⟩
    · rcases List.mem_append.1 hi with hi | hi
      · obtain ⟨child, hchild, hup⟩ := ihbelow i hi
        exact ⟨id, List.mem_cons_self, hup.tail ((hg.mem_children_iff hx).1 hchild)⟩
      · obtain ⟨start, hstart, hup⟩ := ihafter i hi
        exact ⟨start, List.mem_cons_of_mem _ hstart, hup⟩

/-- Nothing at or below a symbol that the test skips is spared. -/
theorem not_spares_of_skipped {id i : SymbolId} {x : GraphSymbol} (hx : g.symbol? id = some x)
    (hp : p (.symbol id x) = true) (hup : Relation.ReflTransGen (fun i parent => g.parent? i = some parent) i id) :
    ¬ g.Spares p i := by
  intro hi
  have hpass := hi id x hup hx
  rw [hp] at hpass
  cases hpass

section Stops

variable {stops : Subject → Bool}

theorem reached_graph : g.Reached stops .graph := by
  intro subject hbelow
  cases hbelow

theorem reached_symbol_iff (hgraph : stops .graph = false) {id : SymbolId} {x : GraphSymbol} :
    g.Reached stops (.symbol id x) ↔ ∀ parent, g.parent? id = some parent → g.Spares stops parent := by
  constructor
  · intro h parent hparent above s habove hs
    exact h _ (.symbol (.head' hparent habove) hs)
  · intro h subject hbelow
    cases hbelow with
    | symbol_graph => exact hgraph
    | symbol habove hs =>
      obtain ⟨parent, hparent, habove⟩ := Relation.TransGen.head'_iff.1 habove
      exact h parent hparent _ _ habove hs

theorem reached_atom_iff (hgraph : stops .graph = false) {owner : SymbolId} {a : GraphAtom} :
    g.Reached stops (.atom owner a) ↔ g.Spares stops owner := by
  constructor
  · exact fun h above s habove hs => h _ (.atom habove hs)
  · intro h subject hbelow
    cases hbelow with
    | atom_graph => exact hgraph
    | atom habove hs => exact h _ _ habove hs

/-- Below a symbol at which a walk stops nothing is reached. -/
theorem not_reached_of_stopped {id above : SymbolId} {x : GraphSymbol} (hx : g.symbol? above = some x)
    (hstop : stops (.symbol above x) = true)
    (hup : Relation.TransGen (fun i parent => g.parent? i = some parent) id above) :
    ∀ v ∈ g.visitsOf p id, ¬ g.Reached stops v := by
  intro v hv hreached
  have hbelow : g.Below v (.symbol above x) := by
    rcases mem_visitsOf hv with ⟨s, rfl⟩ | ⟨a, rfl⟩
    · exact .symbol hup hx
    · exact .atom hup.to_reflTransGen hx
  cases hstop.symm.trans (hreached _ hbelow)

/-- **What is reached at a symbol with nothing above it that stops the walk**: the symbol, and where the walk does not stop
either its atoms. -/
theorem filter_visitsOf (hgraph : stops .graph = false) {reached : Visit → Bool}
    (hreached : ∀ v, reached v = true ↔ g.Reached stops v) {id : SymbolId} {x : GraphSymbol} (hx : g.symbol? id = some x)
    (hparent : ∀ parent, g.parent? id = some parent → g.Spares stops parent) :
    (g.visitsOf p id).filter reached = if stops (.symbol id x) then [.symbol id x] else g.visitsOf p id := by
  have hsymbol : reached (.symbol id x) = true := (hreached _).2 ((reached_symbol_iff hgraph).2 hparent)
  simp only [visitsOf, hx]
  rw [List.filter_cons_of_pos hsymbol]
  cases hstop : stops (.symbol id x) with
  | true =>
    rw [if_pos rfl, List.filter_eq_nil_iff.2]
    intro v hv hr
    obtain ⟨a, -, rfl⟩ := List.mem_map.1 hv
    have hspares := (reached_atom_iff hgraph).1 ((hreached _).1 hr)
    cases hstop.symm.trans (hspares id x .refl hx)
  | false =>
    rw [if_neg Bool.false_ne_true, List.filter_eq_self.2]
    intro v hv
    obtain ⟨a, -, rfl⟩ := List.mem_map.1 hv
    exact (hreached _).2 ((reached_atom_iff hgraph).2 (spares_of_parent hx hstop hparent))

end Stops

variable [LawfulMonad m] (h : Handlers m)

theorem visitWithin_pruning {stops : Subject → Bool} {fuel : Nat} {id : SymbolId} {x : GraphSymbol}
    (hx : g.symbol? id = some x) :
    g.visitWithin (h.pruning p stops) (fuel + 1) id =
      if p (.symbol id x) then pure () else
        if stops (.symbol id x) then h.visit (.symbol id x) else (do
          forM ((g.visitsOf p id).map Visit.subject) h.visit
          forM x.children (g.visitWithin (h.pruning p stops) fuel)) := by
  rw [map_subject_visitsOf, visitWithin, hx, visitsAt, hx, List.forM_cons, ← h.forM_visitAtom p stops, bind_assoc]
  simp only [Handlers.skips_pruning, pure_bind, List.forM_eq_forM]
  cases hp : p (.symbol id x) with
  | true => rfl
  | false =>
    cases hstop : stops (.symbol id x) with
    | true =>
      simp only [Handlers.pruning, hstop]
      exact bind_pure_unit
    | false =>
      simp only [Handlers.pruning, hstop]
      rfl

/-- **A walk over symbols visits what it passes, the test spares and the walk reaches**, where all above the starts is
spared and does not stop the walk. -/
theorem forM_visitWithin {stops : Subject → Bool} (hgraph : stops .graph = false) (hg : g.IsForest)
    {spared : SymbolId → Bool} (hspared : ∀ id, spared id = true ↔ g.Spares p id) {reached : Visit → Bool}
    (hreached : ∀ v, reached v = true ↔ g.Reached stops v) {ids passed : List SymbolId} (hw : g.Walk ids passed) :
    ∀ {fuel : Nat}, (∀ i ∈ ids, g.size ≤ fuel + i.index) →
      (∀ i ∈ ids, ∀ parent, g.parent? i = some parent → g.Spares p parent ∧ g.Spares stops parent) →
      forM ids (g.visitWithin (h.pruning p stops) fuel) =
        forM ((((passed.filter spared).flatMap (g.visitsOf p)).filter reached).map Visit.subject) h.visit := by
  induction hw with
  | nil => exact fun _ _ => rfl
  | @cons id x ids below after hx hbelow hafter ihbelow ihafter =>
    intro fuel hfuel habove
    obtain ⟨hid, hfuel⟩ := List.forall_mem_cons.1 hfuel
    obtain ⟨hparent, habove⟩ := List.forall_mem_cons.1 habove
    obtain ⟨hlt, -⟩ := List.getElem?_eq_some_iff.1 hx
    have hsize : id.index < g.size := hlt
    obtain ⟨fuel, rfl⟩ : ∃ n, fuel = n + 1 := ⟨fuel - 1, by omega⟩
    have hchild : ∀ c ∈ x.children, g.parent? c = some id := fun c hc => (hg.mem_children_iff hx).1 hc
    have hup : ∀ i ∈ below, Relation.TransGen (fun i parent => g.parent? i = some parent) i id := by
      intro i hi
      obtain ⟨c, hc, hup⟩ := hbelow.exists_start hg i hi
      exact .tail' hup (hchild c hc)
    rw [List.forM_cons, ihafter hfuel habove, visitWithin_pruning h hx]
    cases hp : p (.symbol id x) with
    | true =>
      have hnot : ∀ i, Relation.ReflTransGen (fun i parent => g.parent? i = some parent) i id → ¬ spared i = true :=
        fun i hup hi => not_spares_of_skipped hx hp hup ((hspared i).1 hi)
      have hnone : below.filter spared = [] :=
        List.filter_eq_nil_iff.2 fun i hi => hnot i (hup i hi).to_reflTransGen
      rw [if_pos rfl, List.filter_cons_of_neg (hnot id .refl), List.filter_append, hnone, List.nil_append, pure_bind]
    | false =>
      have hspares : g.Spares p id := spares_of_parent hx hp fun parent h => (hparent parent h).1
      have hvisits := filter_visitsOf (p := p) hgraph hreached hx fun parent h => (hparent parent h).2
      rw [if_neg Bool.false_ne_true, List.filter_cons_of_pos ((hspared id).2 hspares), List.filter_append,
        List.flatMap_cons, List.flatMap_append, List.filter_append, List.filter_append, List.map_append, List.map_append,
        List.forM_append, List.forM_append, hvisits]
      cases hstop : stops (.symbol id x) with
      | true =>
        have hnone : ((below.filter spared).flatMap (g.visitsOf p)).filter reached = [] := by
          refine List.filter_eq_nil_iff.2 fun v hv hr => ?_
          obtain ⟨i, hi, hv⟩ := List.mem_flatMap.1 hv
          exact not_reached_of_stopped hx hstop (hup i (List.mem_filter.1 hi).1) v hv ((hreached v).1 hr)
        rw [if_pos rfl, if_pos rfl, hnone]
        simp [Visit.subject]
      | false =>
        have hopen : g.Spares stops id := spares_of_parent hx hstop fun parent h => (hparent parent h).2
        -- Children have greater numbers, so one step less is enough for them.
        have hdeeper : ∀ c ∈ x.children, g.size ≤ fuel + c.index := by
          intro c hc
          have hlt := hg.parent_lt c id (hchild c hc)
          omega
        have hinside : ∀ c ∈ x.children, ∀ parent, g.parent? c = some parent →
            g.Spares p parent ∧ g.Spares stops parent := by
          intro c hc parent hparent
          rw [hchild c hc] at hparent
          cases hparent
          exact ⟨hspares, hopen⟩
        rw [if_neg Bool.false_ne_true, if_neg Bool.false_ne_true, ihbelow hdeeper hinside, bind_assoc]

/-- **What a walk of a forest of symbols visits**, wherever it stops. -/
theorem IsForest.exists_accept_pruning (hg : g.IsForest) (p : Subject → Bool) (hp : p .graph = false) :
    ∃ shown : List SymbolId, shown.Sublist g.ids ∧ (∀ id, id ∈ shown ↔ id ∈ g.ids ∧ g.Spares p id) ∧
      ∀ {stops : Subject → Bool} {reached : Visit → Bool}, (∀ v, reached v = true ↔ g.Reached stops v) →
        ∀ {m : Type → Type} [Monad m] [LawfulMonad m] (h : Handlers m), g.accept (h.pruning p stops) =
          forM (((.graph :: shown.flatMap (g.visitsOf p)).filter reached).map Visit.subject) h.visit := by
  classical
  let spared : SymbolId → Bool := fun id => decide (g.Spares p id)
  have hspared : ∀ id, spared id = true ↔ g.Spares p id := fun _ => decide_eq_true_iff
  refine ⟨g.ids.filter spared, List.filter_sublist, fun id => ?_, fun {stops reached} hreached {m} _ _ h => ?_⟩
  · rw [List.mem_filter, hspared]
  rw [List.filter_cons_of_pos ((hreached _).2 reached_graph), List.map_cons, List.forM_cons, accept, Handlers.skips_pruning,
    pure_bind, hp]
  cases hstop : stops .graph with
  | true =>
    have hnone : ((g.ids.filter spared).flatMap (g.visitsOf p)).filter reached = [] := by
      refine List.filter_eq_nil_iff.2 fun v hv hr => ?_
      have hbelow : g.Below v .graph := by
        obtain ⟨id, -, hv⟩ := List.mem_flatMap.1 hv
        rcases mem_visitsOf hv with ⟨s, rfl⟩ | ⟨a, rfl⟩
        · exact .symbol_graph id s
        · exact .atom_graph id a
      cases hstop.symm.trans ((hreached v).1 hr _ hbelow)
    rw [hnone]
    simp only [Handlers.pruning, hstop]
    rfl
  | false =>
    have htop : ∀ i ∈ g.namespaces, ∀ parent, g.parent? i = some parent → g.Spares p parent ∧ g.Spares stops parent := by
      intro i hi parent hparent
      obtain ⟨s, hs, hnone⟩ := (hg.top i).1 hi
      rw [parent?, hs, Option.bind_some, hnone] at hparent
      cases hparent
    have hwalk := forM_visitWithin h hstop hg hspared hreached hg.walk (fun i _ => Nat.le_add_right _ _) htop
    rw [← hwalk]
    simp only [Handlers.pruning, hstop]
    rfl

/-- **What a walk of a forest of symbols visits** that stops nowhere. -/
theorem IsForest.exists_accept_eq (hg : g.IsForest) (p : Subject → Bool) (hp : p .graph = false) :
    ∃ shown : List SymbolId, shown.Sublist g.ids ∧ (∀ id, id ∈ shown ↔ id ∈ g.ids ∧ g.Spares p id) ∧
      ∀ {m : Type → Type} [Monad m] [LawfulMonad m] (h : Handlers m),
        g.accept (h.visitor p) = forM (.graph :: shown.flatMap (g.visitsAt p)) h.visit := by
  obtain ⟨shown, hsub, hmem, haccept⟩ := hg.exists_accept_pruning p hp
  refine ⟨shown, hsub, hmem, fun {m} _ _ h => ?_⟩
  have hreached : ∀ v, (fun _ : Visit => true) v = true ↔ g.Reached (fun _ => false) v :=
    fun _ => ⟨fun _ _ _ => rfl, fun _ => rfl⟩
  have hall := haccept hreached h
  rw [Handlers.pruning_false, List.filter_true, List.map_cons, List.map_flatMap] at hall
  simp only [map_subject_visitsOf] at hall
  exact hall

theorem pairwise_ids (g : Graph) : g.ids.Pairwise fun i j => i.index < j.index :=
  List.pairwise_map.2 List.pairwise_lt_range

/-- Symbols in the order of their numbers, none of them missing. -/
theorem eq_ids_of_sublist {shown : List SymbolId} (hsub : shown.Sublist g.ids) (hall : g.ids ⊆ shown) :
    shown = g.ids := by
  have hnodup : g.ids.Nodup := List.nodup_range.map fun _ _ => SymbolId.mk.inj
  exact hsub.eq_of_length_le (hnodup.subperm hall).length_le

/-- **What a walk of the graph of a model visits**: nothing, if the graph is skipped; else the graph, and in the order of
their numbers the symbols that pass the test with all above them, each followed by those of its properties or filters
that pass.  A visitor with a method for each kind visits the same, each symbol by the method of its kind. -/
theorem accept_of_compileForest {options : CompileOptions} {forest : List Source.Tree}
    (hg : compileForest options forest = .ok g) (p : Subject → Bool) :
    (p .graph = true → ∀ {m : Type → Type} [Monad m] [LawfulMonad m] (h : Handlers m),
      g.accept (h.visitor p) = pure () ∧ g.acceptBy (h.methods p) = pure ()) ∧
    (p .graph = false → ∃ shown : List SymbolId, shown.Pairwise (fun i j => i.index < j.index) ∧
      (∀ id, id ∈ shown ↔ id ∈ g.ids ∧ g.Spares p id) ∧ ((∀ subject, p subject = false) → shown = g.ids) ∧
      ∀ {m : Type → Type} [Monad m] [LawfulMonad m] (h : Handlers m),
        g.accept (h.visitor p) = forM (.graph :: shown.flatMap (g.visitsAt p)) h.visit ∧
          g.acceptBy (h.methods p) = forM (.graph :: shown.flatMap (g.visitsAt p)) h.visit) := by
  refine ⟨fun hp {m} _ _ h => ?_, fun hp => ?_⟩
  · have hskipped : g.accept (h.visitor p) = pure () := by
      rw [accept, Handlers.skips_visitor, pure_bind, hp]
      rfl
    exact ⟨hskipped, (h.acceptBy_methods p g).trans hskipped⟩
  · obtain ⟨-, rfl⟩ := Table.compileForest_eq_ok_iff.1 hg
    obtain ⟨shown, hsub, hmem, haccept⟩ := (isForest_ofGroups (Group.merge forest) _).exists_accept_eq p hp
    refine ⟨shown, (pairwise_ids _).sublist hsub, hmem, fun hall => ?_, fun h =>
      ⟨haccept h, (h.acceptBy_methods p _).trans (haccept h)⟩⟩
    exact eq_ids_of_sublist hsub fun id hid => (hmem id).2 ⟨hid, fun _ _ _ _ => hall _⟩

/-- Skip the entities. -/
def isEntity : Subject → Bool
  | .symbol _ s => s.kind == .entity
  | _ => false

/-- Without the entities of the shop, the event below one is not visited either. -/
theorem accept_of_compiled_shop :
    compileForest {} Source.Small.shop = .ok (graphOf .empty Source.Small.shop) ∧ isEntity .graph = false ∧
      ∃ shown : List SymbolId, ⟨3⟩ ∈ (graphOf .empty Source.Small.shop).ids ∧ ⟨3⟩ ∉ shown ∧
        ∀ {m : Type → Type} [Monad m] [LawfulMonad m] (h : Handlers m),
          (graphOf .empty Source.Small.shop).accept (h.visitor isEntity) =
              forM (.graph :: shown.flatMap ((graphOf .empty Source.Small.shop).visitsAt isEntity)) h.visit ∧
            (graphOf .empty Source.Small.shop).acceptBy (h.methods isEntity) =
              forM (.graph :: shown.flatMap ((graphOf .empty Source.Small.shop).visitsAt isEntity)) h.visit := by
  have hg : compileForest {} Source.Small.shop = .ok (graphOf .empty Source.Small.shop) :=
    Table.compileForest_eq_ok_iff.2 ⟨by decide, rfl⟩
  obtain ⟨shown, -, hmem, -, haccept⟩ := (accept_of_compileForest hg isEntity).2 rfl
  refine ⟨hg, rfl, shown, by decide, fun h => ?_, haccept⟩
  have hparent : (graphOf .empty Source.Small.shop).parent? ⟨3⟩ = some ⟨2⟩ := by decide
  obtain ⟨s, hs⟩ := Option.isSome_iff_exists.1
    (show ((graphOf .empty Source.Small.shop).symbol? ⟨2⟩).isSome = true by decide)
  have hentity : ((graphOf .empty Source.Small.shop).symbol? ⟨2⟩).map (·.kind) = some .entity := by decide
  rw [hs, Option.map_some, Option.some_inj] at hentity
  have hpass := ((hmem ⟨3⟩).1 h).2 ⟨2⟩ s (.single hparent) hs
  rw [isEntity, hentity] at hpass
  cases hpass

end Graph
end DomainModel
