import DomainModel.Proofs.Graph.Visits
/-!
# Delegated — what the handlers of a delegate are called with

The methods of a delegate visit as the delegate itself does, for every kind (`Delegate.acceptBy_methods`).  So handlers
that are called once, and then go on with the walk or do not, are called as a visitor would call them that is written for
these kinds: with what a walk that never stops visits, of the kinds that are handled, less what is below the subjects at
which a handler does not go on (`calls_of_delegate`).
-/
namespace DomainModel

variable {m : Type → Type} [Monad m]

/-! ## Handlers that are called once -/

/-- **What is handled**, and the subjects at which the handler goes on with the walk. -/
structure Handling where
  graph : Bool
  symbol : SymbolKind → Bool
  atom : Bool
  goesOn : Subject → Bool

namespace Handling

variable (c : Handling) (p : Subject → Bool) (call : Subject → m Unit)

/-- Call, and go on or do not. -/
def handle (subject : Subject) (walk : m Unit) : m Unit := do
  call subject
  if c.goesOn subject then walk else pure ()

/-- The delegate with handlers for what is handled. -/
def delegate : Delegate m where
  skips := some fun subject => pure (p subject)
  graph := if c.graph then some (c.handle call .graph) else none
  symbol kind := if c.symbol kind then some fun id s => c.handle call (.symbol id s) else none
  atom := if c.atom then some fun a => call (.atom a) else none

/-- **The methods written for what is handled**, the others being left as they are. -/
def written : Methods m where
  skips subject := pure (p subject)
  graph w := if c.graph then c.handle call .graph w.graph else Methods.plain.graph w
  space w id s members :=
    if c.symbol .space then c.handle call (.symbol id s) (w.space members) else Methods.plain.space w id s members
  entity w id s events :=
    if c.symbol .entity then c.handle call (.symbol id s) (w.entity events) else Methods.plain.entity w id s events
  event w id s properties :=
    if c.symbol .event then c.handle call (.symbol id s) (w.event properties) else Methods.plain.event w id s properties
  complexValue w id s properties :=
    if c.symbol .complexValue then c.handle call (.symbol id s) (w.complexValue properties)
    else Methods.plain.complexValue w id s properties
  externalValue id s :=
    if c.symbol .externalValue then c.handle call (.symbol id s) (pure ()) else Methods.plain.externalValue id s
  externalEnum id s :=
    if c.symbol .externalEnum then c.handle call (.symbol id s) (pure ()) else Methods.plain.externalEnum id s
  webApi w id s filters members :=
    if c.symbol .webApi then c.handle call (.symbol id s) (w.path filters members)
    else Methods.plain.webApi w id s filters members
  path w id s filters members :=
    if c.symbol .path then c.handle call (.symbol id s) (w.path filters members)
    else Methods.plain.path w id s filters members
  query w id s filters :=
    if c.symbol .query then c.handle call (.symbol id s) (w.query filters) else Methods.plain.query w id s filters
  command id s :=
    if c.symbol .command then c.handle call (.symbol id s) (pure ()) else Methods.plain.command id s
  atom a := if c.atom then call (.atom a) else Methods.plain.atom a

omit [Monad m] in
theorem dispatch_ite {handled : Bool} {handler : SymbolId → GraphSymbol → m Unit → m Unit} {id : SymbolId}
    {s : GraphSymbol} {walk : m Unit} :
    Delegate.dispatch (if handled then some handler else none) id s walk = if handled then handler id s walk else walk := by
  cases handled <;> rfl

/-- **A delegate has the methods that are written for what it handles.** -/
theorem methods_delegate : (c.delegate p call).methods = c.written p call := by
  unfold Delegate.methods written delegate
  simp only [dispatch_ite]
  cases c.graph <;> cases c.atom <;> rfl

/-! ## The calls -/

def handles : Subject → Bool
  | .graph => c.graph
  | .symbol _ s => c.symbol s.kind
  | .atom _ => c.atom

/-- **Where the walk stops**: at what is handled by a handler that does not go on. -/
def stops (subject : Subject) : Bool := c.handles subject && !c.goesOn subject

/-- What is done at each kind of subject: a call, if it is handled. -/
def handlers : Handlers m where
  graph := if c.graph then call .graph else pure ()
  symbol kind id s := if c.symbol kind then call (.symbol id s) else pure ()
  atom a := if c.atom then call (.atom a) else pure ()

theorem visit_handlers (subject : Subject) :
    (c.handlers call).visit subject = if c.handles subject then call subject else pure () := by
  cases subject <;> rfl

variable [LawfulMonad m]

/-- The calls at subjects are those at the subjects that are handled. -/
theorem forM_visit_handlers : ∀ subjects : List Subject,
    forM subjects (c.handlers call).visit = forM (subjects.filter c.handles) call
  | [] => rfl
  | subject :: subjects => by
    rw [List.forM_cons, forM_visit_handlers subjects, visit_handlers]
    cases hc : c.handles subject with
    | true => rw [List.filter_cons_of_pos hc, List.forM_cons, if_pos rfl]
    | false => rw [List.filter_cons_of_neg (by rw [hc]; decide), if_neg Bool.false_ne_true, pure_bind]

/-- **A delegate whose handlers are called once** walks and stops where a handler does not go on. -/
theorem visitor_delegate : (c.delegate p call).visitor = (c.handlers call).pruning p c.stops := by
  have hwalk : ∀ (handled : Bool) (subject : Subject) (walk : m Unit),
      (if handled then c.handle call subject walk else walk) =
        (if handled then call subject else pure ()) >>= fun _ =>
          if handled && !c.goesOn subject then pure () else walk := by
    intro handled subject walk
    cases handled with
    | true => cases hg : c.goesOn subject <;> simp [handle, hg]
    | false => simp
  have hgraph : (c.delegate p call).visitor.graph = ((c.handlers call).pruning p c.stops).graph := by
    funext walk
    refine Eq.trans ?_ (hwalk c.graph .graph walk)
    unfold Delegate.visitor delegate
    cases c.graph <;> rfl
  have hsymbol : (c.delegate p call).visitor.symbol = ((c.handlers call).pruning p c.stops).symbol := by
    funext id s walk
    refine Eq.trans ?_ (hwalk (c.symbol s.kind) (.symbol id s) walk)
    unfold Delegate.visitor delegate
    simp only
    cases c.symbol s.kind <;> rfl
  have hatom : (c.delegate p call).visitor.atom = ((c.handlers call).pruning p c.stops).atom := by
    funext a
    unfold Delegate.visitor delegate Handlers.pruning handlers
    cases c.atom <;> rfl
  calc (c.delegate p call).visitor
      = ⟨((c.handlers call).pruning p c.stops).skips, (c.delegate p call).visitor.graph,
          (c.delegate p call).visitor.symbol, (c.delegate p call).visitor.atom⟩ := rfl
    _ = (c.handlers call).pruning p c.stops := by rw [hgraph, hsymbol, hatom]

/-- A visit is reached exactly where every handler that it is below goes on. -/
theorem reached_stops_iff {g : Graph} {v : Visit} : g.Reached c.stops v ↔
    ∀ subject, g.Below v subject → c.handles subject = true → c.goesOn subject = true := by
  refine forall_congr' fun subject => forall_congr' fun _ => ?_
  cases hc : c.handles subject <;> simp [stops, hc]

end Handling

namespace Graph

/-- **The visits of a walk that never stops**, at the symbols that are shown; none, if the graph is skipped. -/
def visits (g : Graph) (p : Subject → Bool) (shown : List SymbolId) : List Visit :=
  if p .graph then [] else .graph :: shown.flatMap (g.visitsOf p)

variable {g : Graph} {p : Subject → Bool}

/-- **What a walk visits of what one that never stops does**: what it reaches. -/
theorem IsForest.exists_visits (hg : g.IsForest) (p : Subject → Bool) :
    ∃ shown : List SymbolId, shown.Pairwise (fun i j => i.index < j.index) ∧
      (∀ id, id ∈ shown ↔ id ∈ g.ids ∧ g.Spares p id) ∧
      ∀ {stops : Subject → Bool} {reached : Visit → Bool}, (∀ v, reached v = true ↔ g.Reached stops v) →
        ∀ {m : Type → Type} [Monad m] [LawfulMonad m] (h : Handlers m), g.accept (h.pruning p stops) =
          forM (((g.visits p shown).filter reached).map Visit.subject) h.visit := by
  cases hp : p .graph with
  | true =>
    classical
    have hsub : (g.ids.filter fun id => decide (g.Spares p id)).Sublist g.ids := List.filter_sublist
    refine ⟨_, (pairwise_ids g).sublist hsub, fun id => ?_, fun {stops reached} _ {m} _ _ h => ?_⟩
    · rw [List.mem_filter, decide_eq_true_iff]
    · rw [accept, Handlers.skips_pruning, pure_bind, visits, hp]
      rfl
  | false =>
    obtain ⟨shown, hsub, hmem, haccept⟩ := hg.exists_accept_pruning p hp
    refine ⟨shown, (pairwise_ids g).sublist hsub, hmem, fun {stops reached} hreached {m} _ _ h => ?_⟩
    rw [visits, hp, if_neg Bool.false_ne_true]
    exact haccept hreached h

/-- **What the handlers of a delegate are called with** in the graph of groups, each of them called once and then going on
with the walk or not.  They are called as the methods are that are written for what is handled.  If all of them go on,
they are called with what a walk that never stops visits, of the kinds that are handled.  In general what is below a
subject at which the handler does not go on is missing, and nothing else. -/
theorem calls_of_delegate (groups : List Group) (t : Table) (p : Subject → Bool) (c : Handling) :
    let g := ofGroups groups t
    (∀ {m : Type → Type} [Monad m] [LawfulMonad m] (call : Subject → m Unit),
        (c.delegate p call).run g = g.acceptBy (c.delegate p call).methods ∧
          (c.delegate p call).run g = g.acceptBy (c.written p call)) ∧
      ∃ shown : List SymbolId, shown.Pairwise (fun i j => i.index < j.index) ∧
        (∀ id, id ∈ shown ↔ id ∈ g.ids ∧ g.Spares p id) ∧
        (∀ {m : Type → Type} [Monad m] [LawfulMonad m] (h : Handlers m),
          g.accept (h.visitor p) = forM ((g.visits p shown).map Visit.subject) h.visit) ∧
        ((∀ subject, c.handles subject = true → c.goesOn subject = true) →
          ∀ {m : Type → Type} [Monad m] [LawfulMonad m] (call : Subject → m Unit),
            (c.delegate p call).run g = forM (((g.visits p shown).map Visit.subject).filter c.handles) call) ∧
        ∃ heard : Visit → Bool,
          (∀ v, heard v = true ↔
            ∀ subject, g.Below v subject → c.handles subject = true → c.goesOn subject = true) ∧
          ∀ {m : Type → Type} [Monad m] [LawfulMonad m] (call : Subject → m Unit),
            (c.delegate p call).run g =
              forM ((((g.visits p shown).filter heard).map Visit.subject).filter c.handles) call := by
  intro g
  obtain ⟨shown, hpair, hmem, haccept⟩ := (isForest_ofGroups groups t).exists_visits p
  have hrun : ∀ {reached : Visit → Bool}, (∀ v, reached v = true ↔ g.Reached c.stops v) →
      ∀ {m : Type → Type} [Monad m] [LawfulMonad m] (call : Subject → m Unit), (c.delegate p call).run g =
        forM ((((g.visits p shown).filter reached).map Visit.subject).filter c.handles) call := by
    intro reached hreached m _ _ call
    rw [Delegate.run, c.visitor_delegate, haccept hreached, c.forM_visit_handlers]
  refine ⟨fun {m} _ _ call => ?methods, shown, hpair, hmem, fun {m} _ _ h => ?never, fun hon {m} _ _ call => ?on, ?heard⟩
  case methods =>
    rw [← c.methods_delegate, Delegate.acceptBy_methods]
    exact ⟨rfl, rfl⟩
  case never =>
    have hreached : ∀ v, (fun _ : Visit => true) v = true ↔ g.Reached (fun _ => false) v :=
      fun _ => ⟨fun _ _ _ => rfl, fun _ => rfl⟩
    have hall := haccept hreached h
    rwa [Handlers.pruning_false, List.filter_true] at hall
  case on =>
    have hreached : ∀ v, (fun _ : Visit => true) v = true ↔ g.Reached c.stops v :=
      fun _ => ⟨fun _ => c.reached_stops_iff.2 fun subject _ => hon subject, fun _ => rfl⟩
    have hall := hrun hreached call
    rwa [List.filter_true] at hall
  case heard =>
    classical
    exact ⟨fun v => decide (g.Reached c.stops v), fun v => decide_eq_true_iff.trans c.reached_stops_iff,
      fun call => hrun (fun _ => decide_eq_true_iff) call⟩

/-- Entities and events are handled, and the handler of entities goes on or does not. -/
def entitiesAndEvents (goesOn : Bool) : Handling where
  graph := false
  symbol kind := kind == .entity || kind == .event
  atom := false
  goesOn subject := goesOn || !isEntity subject

/-- Where the handler of entities does not go on, that of events is not called with the event below one. -/
theorem calls_of_delegate_shop :
    (∃ shown : List SymbolId, ∀ call : Subject → StateM Nat Unit,
        ((entitiesAndEvents true).delegate (fun _ => false) call).run (graphOf .empty Source.Small.shop) =
          forM ((((graphOf .empty Source.Small.shop).visits (fun _ => false) shown).map Visit.subject).filter
            (entitiesAndEvents true).handles) call) ∧
      ∃ (shown : List SymbolId) (heard : Visit → Bool), (∀ x, heard (.symbol ⟨3⟩ x) = false) ∧
        ∀ call : Subject → StateM Nat Unit,
          ((entitiesAndEvents false).delegate (fun _ => false) call).run (graphOf .empty Source.Small.shop) =
            forM (((((graphOf .empty Source.Small.shop).visits (fun _ => false) shown).filter heard).map
              Visit.subject).filter (entitiesAndEvents false).handles) call := by
  obtain ⟨-, shown, -, -, -, hon, -⟩ := calls_of_delegate (Group.merge Source.Small.shop)
    (Table.ofForest .empty Source.Small.shop) (fun _ => false) (entitiesAndEvents true)
  obtain ⟨-, shown', -, -, -, -, heard, hheard, hcalls⟩ :=
    calls_of_delegate (Group.merge Source.Small.shop) (Table.ofForest .empty Source.Small.shop) (fun _ => false)
      (entitiesAndEvents false)
  refine ⟨⟨shown, hon fun _ _ => rfl⟩, shown', heard, fun x => ?_, hcalls⟩
  have hparent : (graphOf .empty Source.Small.shop).parent? ⟨3⟩ = some ⟨2⟩ := by decide
  have hentity : ((graphOf .empty Source.Small.shop).symbol? ⟨2⟩).map (·.kind) = some .entity := by decide
  obtain ⟨s, hs, hk⟩ := Option.map_eq_some_iff.1 hentity
  rw [Bool.eq_false_iff]
  intro h
  have hgoes := (hheard _).1 h _ (.symbol (.single hparent) hs) (by simp [Handling.handles, entitiesAndEvents, hk])
  simp [entitiesAndEvents, isEntity, hk] at hgoes

end Graph
end DomainModel
