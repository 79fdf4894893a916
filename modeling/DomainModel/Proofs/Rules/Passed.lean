import DomainModel.Proofs.Group.Pass
import DomainModel.Proofs.Rules.Inspected
import DomainModel.Rules.Passing
/-!
# Passed — the nodes that an inspector visits

An inspector sent through groups ends with what is reported on them, and the nodes that it visits are the places of the
groups, in order (`Inspector.passing_eq`).
-/
namespace DomainModel
namespace Inspector

open NotingM (Notes)
open Source (ApiMember Atom Entity Event Member Node Operation Path Place Property Query Value)

theorem Tells.scope_eq {walk : Inspector → Inspector} {said : Table → Bool → Scope → List Violation} (h : Tells walk said)
    (i : Inspector) : (walk i).scope = i.scope := by
  rw [h]
  rfl

section Walks

variable {walk : InspectorM Unit} {next : Inspector → Inspector} (places : Scope → List Place)

theorem notes_walkWithin (s : Scope) (h : Notes walk next fun i => places i.scope) :
    Notes (walkWithin s walk) (·.within s next) fun _ => places s :=
  Notes.look fun _ => Notes.between _ h _

/-- **A node that opens a scope is noted**, then what is noted on the walk in that scope. -/
theorem notes_checkAndWalk (n : Node) (name : Identifier) (check : Scope → Inspector → Inspector)
    (h : Notes walk next fun i => places i.scope) :
    Notes (do NotingM.note fun i => (i.scope, n); checkAndWalk name check walk)
      (fun i => (check (.declaration i.scope name) i).within (.declaration i.scope name) next)
      fun i => (i.scope, n) :: places (.declaration i.scope name) := by
  have hcheck : Notes (checkAndWalk name check walk)
      (fun i => (check (.declaration i.scope name) i).within (.declaration i.scope name) next)
      fun i => places (.declaration i.scope name) :=
    Notes.look fun i => (NotingM.notes_step _).seq (notes_walkWithin places _ h)
  exact (NotingM.notes_note _).seq hcheck

theorem notes_leaf (n : Node) (next : Inspector → Inspector) :
    Notes (do NotingM.note fun i : Inspector => (i.scope, n); NotingM.step next) next fun i => [(i.scope, n)] :=
  (NotingM.notes_note _).seq (NotingM.notes_step _)

theorem notes_seq {y : InspectorM Unit} {after : Inspector → Inspector} {said : Table → Bool → Scope → List Violation}
    (others : Scope → List Place) (h : Notes walk next fun i => places i.scope) (htells : Tells next said)
    (hy : Notes y after fun i => others i.scope) :
    Notes (do walk; y) (fun i => after (next i)) fun i => places i.scope ++ others i.scope :=
  (h.seq hy).congr fun i => by rw [htells.scope_eq]

/-- **Along a list of nodes each is noted in the scope of all.** -/
theorem notes_forM {α : Type} {f : α → InspectorM Unit} {visit : Inspector → α → Inspector}
    {said : α → Table → Bool → Scope → List Violation} (as : List α) (places : α → Scope → List Place)
    (h : ∀ a, Notes (f a) (visit · a) fun i => places a i.scope) (htells : ∀ a, Tells (visit · a) (said a)) :
    Notes (forM as f) (fun i => as.foldl visit i) fun i => as.flatMap (places · i.scope) :=
  Notes.forM (fun a _ => h a) fun a _ b _ i => congrArg (places b) ((htells a).scope_eq i)

end Walks

theorem notes_visitFilters (as : List Atom) : Notes (forM as notingVisitor.filter) (fun i => as.foldl visitFilter i)
    fun i => as.map fun a => (i.scope, .filter a) := by
  simp only [List.map_eq_flatMap]
  exact notes_forM as (fun a s => [(s, .filter a)]) (fun a => notes_leaf (.filter a) (·.visitFilter a)) tells_visitFilter

theorem notes_visitProperties (ps : List Property) :
    Notes (forM ps notingVisitor.property) (fun i => ps.foldl visitProperty i)
      fun i => ps.map fun p => (i.scope, .property p) := by
  simp only [List.map_eq_flatMap]
  exact notes_forM ps (fun p s => [(s, .property p)]) (fun p => notes_leaf (.property p) (·.visitProperty p))
    tells_visitProperty

theorem notes_visitEvent (e : Event) : Notes (notingVisitor.visitEvent e) (·.visitEvent e) fun i => e.places i.scope :=
  notes_checkAndWalk (fun s => e.properties.map fun p => (s, .property p)) (.event e) e.name
    (fun _ i => i.inspectBase .event false e.name e.base) (notes_visitProperties e.properties)

theorem notes_visitValue (v : Value) : Notes (notingVisitor.visitValue v) (·.visitValue v) fun i => v.places i.scope :=
  notes_checkAndWalk (fun s => v.properties.map fun p => (s, .property p)) (.value v) v.name
    (fun _ i => i.inspectBase .value true v.name v.base) (notes_visitProperties v.properties)

theorem notes_visitEntity (e : Entity) :
    Notes (notingVisitor.visitEntity e) (·.visitEntity e) fun i => e.places i.scope :=
  notes_checkAndWalk (fun s => e.events.flatMap fun v : Event => v.places s) (.entity e) e.name
    (fun _ i => (i.inspectIdentity e).inspectBase .entity false e.name e.base)
    (notes_forM e.events (fun v s => v.places s) notes_visitEvent tells_visitEvent)

theorem notes_visitQuery (q : Query) : Notes (notingVisitor.visitQuery q) (·.visitQuery q) fun i => q.places i.scope :=
  notes_checkAndWalk (fun s => q.filters.map fun a => (s, .filter a)) (.query q) q.operation.name
    (fun own i => i.inspectOperation own .query q.operation) (notes_visitFilters q.filters)

mutual

/-- **Visiting a path notes it, its filters, then its members** in the scope that it opens. -/
theorem notes_visitPath : ∀ p : Path, Notes (notingVisitor.visitPath p) (·.visitPath p) fun i => p.places i.scope
  | ⟨operation, filters, members⟩ => by
    rw [Source.Visitor.visitPath]
    exact notes_checkAndWalk
      (fun s => filters.map (fun a => (s, .filter a)) ++ ApiMember.placesAll s members) (.path ⟨operation, filters, members⟩)
      operation.name (fun own i => i.inspectOperation own .path operation)
      (notes_seq (fun s => filters.map fun a => (s, .filter a)) (ApiMember.placesAll · members)
        (notes_visitFilters filters) (Tells.foldl tells_visitFilter filters) (notes_visitApiMembers members))

theorem notes_visitApiMember : ∀ m : ApiMember,
    Notes (notingVisitor.visitApiMember m) (·.visitApiMember m) fun i => m.places i.scope
  | .command operation => by
    rw [Source.Visitor.visitApiMember]
    exact notes_leaf (.command operation) (·.visitCommand operation)
  | .query q => by
    rw [Source.Visitor.visitApiMember]
    exact notes_visitQuery q
  | .path p => by
    rw [Source.Visitor.visitApiMember]
    exact notes_visitPath p

theorem notes_visitApiMembers : ∀ ms : List ApiMember,
    Notes (notingVisitor.visitApiMembers ms) (·.visitApiMembers ms) fun i => ApiMember.placesAll i.scope ms
  | [] => by
    rw [Source.Visitor.visitApiMembers]
    exact NotingM.notes_pure
  | m :: ms => by
    rw [Source.Visitor.visitApiMembers]
    exact notes_seq m.places (ApiMember.placesAll · ms) (notes_visitApiMember m) (tells_visitApiMember m)
      (notes_visitApiMembers ms)

end

theorem notes_visitMember {m : Member} (hm : m.isBlock = false) :
    Notes (notingVisitor.visitMember m) (·.visitMember m) fun i => m.places i.scope := by
  cases m with
  | block b => cases hm
  | entity e => rw [Source.Visitor.visitMember]; exact notes_visitEntity e
  | value v => rw [Source.Visitor.visitMember]; exact notes_visitValue v
  | externalEnum e =>
    rw [Source.Visitor.visitMember]
    exact (NotingM.notes_note _).seq NotingM.notes_pure
  | webApi root =>
    -- The API itself is only noted; what there is to check is checked at its root path.
    rw [Source.Visitor.visitMember]
    exact (NotingM.notes_note _).seq (notes_visitPath root)

theorem notes_visitIn {m : Member} (hm : m.isBlock = false) (s : Scope) :
    Notes (do NotingM.step fun i => { i with scope := s }; notingVisitor.visitMember m)
      (fun i => { i with scope := s }.visitMember m) fun _ => m.places s :=
  (NotingM.notes_step _).seq (notes_visitMember hm)

/-- **An inspector sent through groups visits their places, in order**, and ends as the inspector does. -/
theorem passing_eq (circles : Bool) (groups : List Group) (t : Table) (report : Report) :
    passing circles groups t report =
      ⟨(Group.all groups).foldl visitGroup ⟨t, circles, report, .top []⟩, (Group.all groups).flatMap (·.places)⟩ := by
  have hpass : Notes (Group.pass (fun s => NotingM.step fun i => { i with scope := s }) notingVisitor groups)
      (fun i => (Group.all groups).foldl visitGroup i) fun _ => (Group.all groups).flatMap (·.places) :=
    Notes.pass fun g _ x hx => notes_visitIn (Collector.isBlock_of_mem_members hx) x.2
  exact congrArg Prod.snd (hpass _ [])

end Inspector
end DomainModel
